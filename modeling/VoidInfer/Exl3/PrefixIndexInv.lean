import VoidInfer.Exl3.PrefixIndex

/-
  What the operations of the prefix index do to its entries. A step observes entries, removes some, moves one to the end
  or adds one at the end (`Next`); an added entry replaces the one of its identity and keeps within its class, unless a
  publication takes over the identity of a shared root (`crosses`). The index's invariant `Inv` follows from that.
-/

namespace VoidInfer.Exl3.PrefixCache
open List Option

open Throwing

/-! ## Victims -/

theorem mem_eraseIdx_of_ne {α : Type} {l : List α} {i : Nat} {a b : α} (ha : a ∈ l) (hi : l[i]? = some b)
    (hne : a ≠ b) : a ∈ l.eraseIdx i := by
  rw [mem_eraseIdx_iff_getElem?]
  obtain ⟨j, hj⟩ := mem_iff_getElem?.mp ha
  refine ⟨j, ?_, hj⟩
  rintro rfl
  rw [hi] at hj
  exact hne (some.inj hj).symm

variable {demand : Option (Root → Option Nat)} {eligible : Entry → Bool} {k start : Nat}
  {entries : List Entry} {best : Option (Nat × Nat)} {s : PrefixIndex}

theorem demandVictimFrom_some (h : demandVictimFrom demand eligible start best entries = some k) :
    (∃ rank, best = some (k, rank)) ∨ ∃ j e, k = start + j ∧ entries[j]? = some e ∧ eligible e = true := by
  induction entries generalizing start best with
  | nil =>
    obtain ⟨⟨i, rank⟩, hb, hk⟩ := map_eq_some_iff.mp h
    exact .inl ⟨rank, by rw [hb, ← hk]⟩
  | cons e rest ih =>
    have shift : (∃ j e', k = start + 1 + j ∧ rest[j]? = some e' ∧ eligible e' = true) →
        ∃ j e', k = start + j ∧ (e :: rest)[j]? = some e' ∧ eligible e' = true := by
      rintro ⟨j, e', hk, hj, he⟩
      exact ⟨j + 1, e', by omega, by simpa using hj, he⟩
    unfold demandVictimFrom at h
    split at h
    · next hel =>
      split at h
      · exact .inr ⟨0, e, (some.inj h).symm, rfl, hel⟩
      next rank hrank =>
      rcases ih h with ⟨r, hb⟩ | hj
      · split at hb
        · cases hb
          exact .inr ⟨0, e, rfl, rfl, hel⟩
        · exact .inl ⟨r, hb⟩
      · exact .inr (shift hj)
    rcases ih h with hb | hj
    · exact .inl hb
    · exact .inr (shift hj)

theorem demandVictimFrom_none (h : demandVictimFrom demand eligible start best entries = none) :
    best = none ∧ ∀ e ∈ entries, eligible e = false := by
  induction entries generalizing start best with
  | nil => exact ⟨by simpa [demandVictimFrom] using h, by simp⟩
  | cons e rest ih =>
    unfold demandVictimFrom at h
    split at h
    · split at h
      · simp at h
      · next rank hrank =>
        have hbest := (ih h).1
        split at hbest
        · simp at hbest
        next hall =>
        rw [hbest] at hall
        simp at hall
    next hel =>
    obtain ⟨hbest, hall⟩ := ih h
    refine ⟨hbest, ?_⟩
    rw [forall_mem_cons]
    exact ⟨by simpa using hel, hall⟩

theorem demandVictim_some (h : demandVictim demand eligible entries = some k) :
    ∃ e, entries[k]? = some e ∧ eligible e = true := by
  rcases demandVictimFrom_some h with ⟨rank, hbest⟩ | ⟨j, e, hk, hj, he⟩
  · simp at hbest
  rw [Nat.zero_add] at hk
  exact ⟨e, hk ▸ hj, he⟩

theorem demandVictim_none (h : demandVictim demand eligible entries = none) : ∀ e ∈ entries, eligible e = false :=
  (demandVictimFrom_none h).2

variable {items : List (RetentionDecision × Entry)} {s' : PrefixIndex}

theorem policyVictimFrom_some {measured : Bool} {eligible : RetentionDecision × Entry → Bool}
    (h : policyVictimFrom measured eligible start best items = some k) :
    (∃ value, best = some (k, value)) ∨ ∃ j item, k = start + j ∧ items[j]? = some item ∧ eligible item = true := by
  induction items generalizing start best with
  | nil =>
    obtain ⟨⟨i, value⟩, hb, hk⟩ := map_eq_some_iff.mp h
    exact .inl ⟨value, by rw [hb, ← hk]⟩
  | cons item rest ih =>
    rcases ih h with ⟨value, hb⟩ | ⟨j, item', hk, hj, he⟩
    · split at hb
      · next hel =>
        cases hb
        exact .inr ⟨0, item, rfl, rfl, (Bool.and_eq_true_iff.mp hel).1⟩
      · exact .inl ⟨value, hb⟩
    · exact .inr ⟨j + 1, item', by omega, by simpa using hj, he⟩

theorem policyVictim_some {eligible : RetentionDecision × Entry → Bool} (h : policyVictim eligible items = some k) :
    ∃ item, items[k]? = some item ∧ eligible item = true := by
  rcases policyVictimFrom_some h with ⟨value, hbest⟩ | ⟨j, item, hk, hj, he⟩
  · simp at hbest
  rw [Nat.zero_add] at hk
  exact ⟨item, hk ▸ hj, he⟩

/-! ## The eviction loops -/

section Loops

variable {account : List Entry → Except Exn StorageStats} {demand : Option (Root → Option Nat)}
  {bounds : Bounds} {candidate : Entry}

variable {fuel n : Nat} {kept : List Entry}

variable {n' : Nat} {kept' : List Entry} {stats : StorageStats}

theorem policyLoop_kept {items items' : List (RetentionDecision × Entry)}
    (h : policyLoop account bounds candidate fuel items n = .ok (some (items', n'))) :
    n ≤ n' ∧ items'.Sublist items ∧ (n' = n → ∀ item ∈ items, item.2.shared ≠ bounds.shared → item ∈ items') := by
  induction fuel generalizing items n with
  | zero =>
    obtain ⟨stats, -, h⟩ := bind_ok h
    dsimp only at h
    split at h
    · simp [pure, Except.pure] at h
    cases h
    exact ⟨le_rfl, List.Sublist.refl _, fun _ item hitem _ => hitem⟩
  | succ fuel ih =>
    unfold policyLoop at h
    obtain ⟨stats, -, h⟩ := bind_ok h
    dsimp only at h
    split at h
    · generalize hvictim : policyVictim _ items = found at h
      cases found with
      | none => simp [pure, Except.pure] at h
      | some i =>
        obtain ⟨victim, hi, hel⟩ := policyVictim_some hvictim
        obtain ⟨hle, hsub, hstay⟩ := ih h
        refine ⟨?_, hsub.trans (eraseIdx_sublist items i), ?_⟩
        · split at hle <;> omega
        · -- without a byte eviction the class was full, and the victim is of the class
          intro hn item hitem hclass
          cases hfull : classFull bounds _ with
          | false =>
            rw [hfull] at hle
            simp at hle
            omega
          | true =>
            rw [hfull] at hel hstay
            simp only [Bool.not_true, Bool.false_or, Bool.and_eq_true, beq_iff_eq] at hel
            refine hstay (by simpa using hn) item ?_ hclass
            apply mem_eraseIdx_of_ne hitem hi
            rintro rfl
            exact hclass hel.2
    cases h
    exact ⟨le_rfl, List.Sublist.refl _, fun _ item hitem _ => hitem⟩

theorem classLoop_kept (hpos : 0 < bounds.classCapacity)
    (hfuel : kept.length ≤ fuel) (h : classLoop demand bounds candidate fuel kept = some kept') :
    kept'.Sublist kept ∧ classCount bounds.shared kept' + 1 ≤ bounds.classCapacity ∧
      ∀ e ∈ kept, e.shared ≠ bounds.shared → e ∈ kept' := by
  induction fuel generalizing kept with
  | zero =>
    obtain rfl : kept = [] := length_eq_zero_iff.mp (by omega)
    obtain rfl := some.inj h
    exact ⟨List.Sublist.refl _, hpos, by simp⟩
  | succ fuel ih =>
    unfold classLoop at h
    split at h
    · next hfull =>
      split at h
      · next hnone =>
        obtain rfl := some.inj h
        have hzero : classCount bounds.shared kept = 0 := by
          unfold classCount
          rw [countP_eq_zero]
          intro e he
          simpa using demandVictim_none hnone e he
        exact ⟨List.Sublist.refl _, by omega, fun e he _ => he⟩
      next i hvictim =>
      obtain ⟨victim, hi, hel⟩ := demandVictim_some hvictim
      split at h
      · simp at h
      have hlt : i < kept.length := lt_of_getElem? hi
      have hlen := length_eraseIdx_of_lt hlt
      obtain ⟨hsub, hcount, hstay⟩ := ih (by omega) h
      refine ⟨hsub.trans (eraseIdx_sublist kept i), hcount, ?_⟩
      intro e he hclass
      refine hstay e ?_ hclass
      apply mem_eraseIdx_of_ne he hi
      rintro rfl
      exact hclass (by simpa using hel)
    next hfull =>
    obtain rfl := some.inj h
    unfold classFull at hfull
    simp only [gt_iff_lt, decide_eq_true_eq, not_lt] at hfull
    exact ⟨List.Sublist.refl _, hfull, fun e he _ => he⟩

theorem byteLoop_kept (h : byteLoop account demand bounds candidate fuel kept n = .ok (some (kept', n', stats))) :
    n ≤ n' ∧ kept'.Sublist kept ∧ (n' = n → kept' = kept) := by
  induction fuel generalizing kept n with
  | zero =>
    unfold byteLoop at h
    obtain ⟨s, -, h⟩ := bind_ok h
    obtain ⟨rfl, h'⟩ := Prod.mk.inj (some.inj (Except.ok.inj h))
    cases h'
    exact ⟨le_rfl, List.Sublist.refl _, fun _ => rfl⟩
  | succ fuel ih =>
    unfold byteLoop at h
    obtain ⟨s, -, h⟩ := bind_ok h
    generalize oldestVictim demand kept = found at h
    cases found with
    | none =>
      obtain ⟨rfl, h'⟩ := Prod.mk.inj (some.inj (Except.ok.inj h))
      cases h'
      exact ⟨le_rfl, List.Sublist.refl _, fun _ => rfl⟩
    | some i =>
      dsimp only at h
      split at h
      · split at h
        · simp [pure, Except.pure] at h
        · obtain ⟨hle, hsub, -⟩ := ih h
          exact ⟨by omega, hsub.trans (eraseIdx_sublist kept i), fun hn => by omega⟩
      obtain ⟨rfl, h'⟩ := Prod.mk.inj (some.inj (Except.ok.inj h))
      cases h'
      exact ⟨le_rfl, List.Sublist.refl _, fun _ => rfl⟩

theorem classCount_sublist {shared : Bool} {l l' : List Entry} (h : l'.Sublist l) :
    classCount shared l' ≤ classCount shared l :=
  Sublist.countP_le h

theorem select_kept (hpos : 0 < bounds.classCapacity) {prospective : List Entry}
    {decisions : Option (List (RetentionDecision × Entry))}
    (hitems : ∀ items, decisions = some items → items.map (·.2) = prospective)
    (h : select account demand bounds candidate prospective decisions = .ok (some (kept, n, stats))) :
    kept.Sublist prospective ∧ classCount bounds.shared kept + 1 ≤ bounds.classCapacity ∧
      (n = 0 → ∀ e ∈ prospective, e.shared ≠ bounds.shared → e ∈ kept) := by
  obtain ⟨afterPolicy, hpolicy, h⟩ := bind_ok h
  have hafter : ∀ left m, afterPolicy = some (left, m) → left.Sublist prospective ∧
      (m = 0 → ∀ e ∈ prospective, e.shared ≠ bounds.shared → e ∈ left) := by
    intro left m hleft
    cases decisions with
    | none =>
      obtain ⟨rfl, -⟩ := Prod.mk.inj (some.inj ((Except.ok.inj hpolicy).trans hleft))
      exact ⟨List.Sublist.refl _, fun _ e he _ => he⟩
    | some items =>
      obtain ⟨found, hloop, hfound⟩ := bind_ok hpolicy
      have hfound : found.map (fun left => (left.1.map (·.2), left.2)) = some (left, m) :=
        (Except.ok.inj hfound).trans hleft
      obtain ⟨⟨items', m'⟩, rfl, hpair⟩ := map_eq_some_iff.mp hfound
      cases hpair
      obtain ⟨-, hsub, hstay⟩ := policyLoop_kept hloop
      rw [← hitems items rfl]
      refine ⟨hsub.map _, ?_⟩
      intro hm e he hclass
      obtain ⟨item, hitem, rfl⟩ := List.mem_map.mp he
      exact List.mem_map_of_mem (hstay hm item hitem hclass)
  split at h
  · simp [pure, Except.pure] at h
  next left m =>
  obtain ⟨hsub, hstay⟩ := hafter left m rfl
  split at h
  · simp [pure, Except.pure] at h
  next kept' hclass =>
  obtain ⟨hsub', hcount, hstay'⟩ := classLoop_kept hpos le_rfl hclass
  obtain ⟨hle, hsub'', hsame⟩ := byteLoop_kept h
  refine ⟨(hsub''.trans hsub').trans hsub, ?_, ?_⟩
  · have : classCount bounds.shared kept ≤ _ := classCount_sublist hsub''
    omega
  · intro hn e he hne
    rw [hsame (by omega)]
    exact hstay' e (hstay (by omega) e he hne) hne

end Loops

/-! ## Identities -/

namespace Root

theorem sameInputIdentity_comm (left right : Root) :
    left.sameInputIdentity right = right.sameInputIdentity left := by
  unfold sameInputIdentity
  cases left.preparedIdentity with
  | none => cases right.preparedIdentity <;> rfl
  | some a =>
    cases right.preparedIdentity with
    | none => rfl
    | some b => exact a.equals_comm b

end Root

theorem sameInputIdentity_trans {a b c : Root} (hab : a.sameInputIdentity b = true)
    (hbc : b.sameInputIdentity c = true) : a.sameInputIdentity c = true := by
  unfold Root.sameInputIdentity at *
  cases ha : a.preparedIdentity with
  | none =>
    cases hb : b.preparedIdentity with
    | none => simpa [hb] using hbc
    | some y => simp [ha, hb] at hab
  | some x =>
    cases hb : b.preparedIdentity with
    | none => simp [ha, hb] at hab
    | some y =>
      cases hc : c.preparedIdentity with
      | none => simp [hb, hc] at hbc
      | some z =>
        simp only [ha, hb, hc] at hab hbc ⊢
        exact Exl3PreparedIdentity.equals_trans hab hbc

theorem sameIdentity_trans {a b c : Entry} (hab : sameIdentity a b = true) (hbc : sameIdentity b c = true) :
    sameIdentity a c = true := by
  simp only [sameIdentity, Bool.and_eq_true, beq_iff_eq] at *
  obtain ⟨⟨⟨⟨h1, h2⟩, h3⟩, h4⟩, h5⟩ := hab
  obtain ⟨⟨⟨⟨g1, g2⟩, g3⟩, g4⟩, g5⟩ := hbc
  exact ⟨⟨⟨⟨h1.trans g1, h2.trans g2⟩, h3.trans g3⟩, h4.trans g4⟩, sameInputIdentity_trans h5 g5⟩

theorem sameIdentity_comm (left right : Entry) : sameIdentity left right = sameIdentity right left := by
  unfold sameIdentity
  rw [Root.sameInputIdentity_comm, Bool.beq_comm (a := left.hash), Bool.beq_comm (a := left.modelIdentity),
    Bool.beq_comm (a := left.contract), Bool.beq_comm (a := left.root.tokens)]

/-- An entry without what the operations observe of it. -/
def core (entry : Entry) : Entry :=
  { entry with preparationMicroseconds := none, observedAccesses := none, lookupSelections := 0 }

@[simp] theorem core_root (entry : Entry) : (core entry).root = entry.root := rfl

theorem core_fields {x y : Entry} (h : core x = core y) : x.root = y.root ∧ x.contract = y.contract ∧
    x.hash = y.hash ∧ x.modelIdentity = y.modelIdentity ∧ x.shared = y.shared :=
  ⟨(congrArg Entry.root h :), (congrArg Entry.contract h :), (congrArg Entry.hash h :),
    (congrArg Entry.modelIdentity h :), (congrArg Entry.shared h :)⟩

theorem classCount_core (shared : Bool) (l : List Entry) : classCount shared (l.map core) = classCount shared l := by
  unfold classCount
  rw [countP_map]
  rfl

theorem core_carry (entries : List Entry) (candidate : Entry) : core (carry entries candidate) = core candidate := by
  unfold carry
  induction entries generalizing candidate with
  | nil => rfl
  | cons e entries ih =>
    rw [foldl_cons, ih]
    split
    · rfl
    · rfl

/-! ## The order by length -/

/-- The positions in `length_order_` are sorted, for as many entries as there are. -/
structure Ordered (s : PrefixIndex) : Prop where
  length : s.lengthOrder.length = maximumEntries
  fits : s.entries.length ≤ maximumEntries
  order : s.lengthOrder.take s.entries.length = sortedOrder s.entries

theorem sortedOrder_core (entries : List Entry) : sortedOrder (entries.map core) = sortedOrder entries := by
  have hbefore : ∀ a b, orderedBefore (entries.map core) a b = orderedBefore entries a b := by
    intro a b
    simp [orderedBefore, Function.comp_def]
  unfold sortedOrder
  simp only [hbefore, length_map]

theorem sortedOrder_length (entries : List Entry) : (sortedOrder entries).length = entries.length := by
  simp [sortedOrder]

theorem Ordered.observed (h : Ordered s) (hentries : s'.entries.map core = s.entries.map core)
    (horder : s'.lengthOrder = s.lengthOrder) : Ordered s' := by
  have hlen : s'.entries.length = s.entries.length := by simpa using congrArg List.length hentries
  refine ⟨horder ▸ h.length, hlen ▸ h.fits, ?_⟩
  rw [horder, hlen, h.order, ← sortedOrder_core s.entries, ← hentries, sortedOrder_core]

/-- What every operation leaves as it is, and that it rebuilds the order. -/
structure After (s s' : PrefixIndex) : Prop where
  capacity : s'.capacity = s.capacity
  sharedCapacity : s'.sharedCapacity = s.sharedCapacity
  hasher : s'.hasher = s.hasher
  ordered : s'.entries.length ≤ maximumEntries → Ordered s'

theorem After.refl (h : Ordered s) : After s s := ⟨rfl, rfl, rfl, fun _ => h⟩

theorem After.trans {s'' : PrefixIndex} (h : After s s') (h' : After s' s'') : After s s'' :=
  ⟨h'.capacity.trans h.capacity, h'.sharedCapacity.trans h.sharedCapacity, h'.hasher.trans h.hasher, h'.ordered⟩

theorem wp_setEntries (h : Ordered s) (l : List Entry) :
    wp (setEntries l) (fun _ s' => s'.entries = l ∧ After s s')
      (fun _ s' => s'.entries = l ∧ After s s' ∧ maximumEntries < l.length) s := by
  unfold setEntries rebuildLengths
  simp only [wp_bind, wp_modify, wp_get]
  split
  · next hlen =>
    simp only [wp_set]
    refine ⟨trivial, rfl, rfl, rfl, fun _ => ⟨?_, hlen, ?_⟩⟩
    · have := h.length
      simp only [length_append, sortedOrder_length, length_drop]
      omega
    · rw [← sortedOrder_length l, take_left]
  next hlen =>
  simp only [wp_throw]
  exact ⟨trivial, ⟨rfl, rfl, rfl, fun hfits => absurd hfits hlen⟩, Nat.lt_of_not_le hlen⟩

end VoidInfer.Exl3.PrefixCache
