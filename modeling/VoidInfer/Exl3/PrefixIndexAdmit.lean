import VoidInfer.Exl3.PrefixIndexClasses

/-
  Admission as a transaction (`admit` in `src/exl3/vericache_request.h`). A call that does not admit leaves the entries
  as they were; an admission appends the candidate to old entries of which it evicted some, one at a time, each while a
  bound was exceeded. Only an index that was full and had a class over its capacity can be left with more entries than
  the order by length has room for, where the call is undefined (`Thrown`).

  `Evicts` is a run of evictions; the victims of the demand pass and of the retention pass are described by order and
  rank (`DemandVictim`, `PolicyVictim`), and the loops are shown to pick them. The result is `admitRoot_transaction`.
-/

namespace VoidInfer.Exl3.PrefixCache
open List Option

open Throwing

/-! ## Victims -/

section
variable (demand : Option (Root → Option Nat))

/-- When a waiting request restores an entry: its rank in the queue. -/
def rank (entry : Entry) : Option Nat :=
  demand.bind fun demand => demand entry.root

theorem demanded_eq (entry : Entry) : demanded demand entry = (rank demand entry).isSome := rfl

/-- Every eligible entry is waited for, the one at `i` last of all and first among its like. -/
def NeededLast (eligible : Entry → Bool) (entries : List Entry) (i r : Nat) : Prop :=
  (∃ e, entries[i]? = some e ∧ eligible e = true ∧ rank demand e = some r) ∧
    ∀ (j : Nat) (x : Entry), entries[j]? = some x → eligible x = true →
      ∃ q, rank demand x = some q ∧ q ≤ r ∧ (j < i → q < r)

/-- The oldest eligible entry nobody waits for, or else the one needed last. -/
def DemandVictim (eligible : Entry → Bool) (entries : List Entry) (i : Nat) : Prop :=
  (∃ e, entries[i]? = some e ∧ eligible e = true ∧ rank demand e = none ∧
    ∀ (j : Nat) (x : Entry), j < i → entries[j]? = some x → eligible x = true →
      rank demand x ≠ none) ∨
  ∃ r, NeededLast demand eligible entries i r

/-- What the scan knows of the entries behind it. -/
def ScanBest (eligible : Entry → Bool) (done : List Entry) :
    Option (Nat × Nat) → Prop
  | none => ∀ x ∈ done, eligible x = false
  | some best => NeededLast demand eligible done best.1 best.2

end

section
variable {demand : Option (Root → Option Nat)} {eligible : Entry → Bool} {done : List Entry}
  {best : Option (Nat × Nat)} {e : Entry} {i r : Nat}

theorem NeededLast.append (h : NeededLast demand eligible done i r)
    (he : eligible e = true → ∃ q, rank demand e = some q ∧ q ≤ r) :
    NeededLast demand eligible (done ++ [e]) i r := by
  obtain ⟨⟨v, hv, hel, hrank⟩, hall⟩ := h
  have hi := lt_of_getElem? hv
  refine ⟨⟨v, by rw [getElem?_append_left hi, hv], hel, hrank⟩, ?_⟩
  intro j x hx hxel
  rw [getElem?_append] at hx
  split at hx
  · exact hall j x hx hxel
  have hmem := mem_singleton.mp (mem_of_getElem? hx)
  subst hmem
  obtain ⟨q, hq, hle⟩ := he hxel
  exact ⟨q, hq, hle, fun hji => by omega⟩

theorem ScanBest.demanded (h : ScanBest demand eligible done best) {j : Nat} {x : Entry} (hx : done[j]? = some x)
    (hel : eligible x = true) :
    ∃ b q, best = some b ∧ rank demand x = some q ∧ q ≤ b.2 := by
  cases best with
  | none =>
    have := h x (mem_of_getElem? hx)
    rw [hel] at this
    cases this
  | some b =>
    obtain ⟨q, hq, hle, -⟩ := h.2 j x hx hel
    exact ⟨b, q, rfl, hq, hle⟩

theorem ScanBest.snoc (h : ScanBest demand eligible done best) (hel : eligible e = true)
    (hr : rank demand e = some r) :
    ScanBest demand eligible (done ++ [e])
      (if best.all fun best => r > best.2 then some (done.length, r) else best) := by
  by_cases hbest : best.all fun best => r > best.2
  · rw [if_pos hbest]
    refine ⟨⟨e, by simp, hel, hr⟩, ?_⟩
    intro j x hx hxel
    rw [getElem?_append] at hx
    split at hx
    · obtain ⟨b, q, rfl, hq, hle⟩ := h.demanded hx hxel
      have hlt : b.2 < r := by simpa using hbest
      exact ⟨q, hq, by omega, fun _ => by omega⟩
    have hmem := mem_singleton.mp (mem_of_getElem? hx)
    subst hmem
    exact ⟨r, hr, le_rfl, fun hj => by omega⟩
  rw [if_neg hbest]
  cases best with
  | none => simp at hbest
  | some b =>
    have hle : r ≤ b.2 := by simpa using hbest
    exact NeededLast.append h fun _ => ⟨r, hr, hle⟩

theorem demandVictimFrom_spec (rest : List Entry) (hbest : ScanBest demand eligible done best)
    (h : demandVictimFrom demand eligible done.length best rest = some i) :
    DemandVictim demand eligible (done ++ rest) i := by
  induction rest generalizing done best with
  | nil =>
    obtain ⟨b, rfl, rfl⟩ := map_eq_some_iff.mp h
    rw [append_nil]
    exact .inr ⟨b.2, hbest⟩
  | cons e rest ih =>
    have happend : done ++ e :: rest = (done ++ [e]) ++ rest := by simp
    have hlength : done.length + 1 = (done ++ [e]).length := by simp
    simp only [demandVictimFrom] at h
    by_cases hel : eligible e = true
    · rw [if_pos hel] at h
      cases hr : rank demand e with
      | none =>
        have hbind : (demand.bind fun demand => demand e.root) = none := hr
        rw [hbind] at h
        simp only [Option.some.injEq] at h
        subst h
        refine .inl ⟨e, by simp, hel, hr, ?_⟩
        intro j x hj hx hxel
        rw [getElem?_append_left hj] at hx
        obtain ⟨b, q, -, hq, -⟩ := hbest.demanded hx hxel
        rw [hq]
        simp
      | some r =>
        have hbind : (demand.bind fun demand => demand e.root) = some r := hr
        rw [hbind, hlength] at h
        rw [happend]
        exact ih (hbest.snoc hel hr) h
    rw [if_neg hel, hlength] at h
    rw [happend]
    refine ih ?_ h
    cases best with
    | none =>
      intro x hx
      rcases mem_append.mp hx with hx | hx
      · exact hbest x hx
      rw [mem_singleton.mp hx]
      simpa using hel
    | some b => exact NeededLast.append hbest fun hyes => absurd hyes hel

theorem demandVictim_spec {entries : List Entry} (h : demandVictim demand eligible entries = some i) :
    DemandVictim demand eligible entries i := by
  have hspec := @demandVictimFrom_spec demand eligible [] none i entries (by simp [ScanBest]) h
  simpa using hspec

end

/-- The value per byte that a decision supplies. -/
def valueOf (item : RetentionDecision × Entry) : Nat := item.1.valuePerByte.getD 0

/-- The eligible entry at `i` has the least value, and is first among its like; without
    `measured` it is just the first. -/
def LeastValue (measured : Bool) (eligible : RetentionDecision × Entry → Bool)
    (items : List (RetentionDecision × Entry)) (i v : Nat) : Prop :=
  (∃ item, items[i]? = some item ∧ eligible item = true ∧ valueOf item = v) ∧
    ∀ (j : Nat) (x : RetentionDecision × Entry), items[j]? = some x → eligible x = true →
      (measured = true → v ≤ valueOf x ∧ (j < i → v < valueOf x)) ∧ (measured = false → i ≤ j)

/-- The eligible entry of least value per byte when every eligible one is measured, else the oldest eligible one. -/
def PolicyVictim (eligible : RetentionDecision × Entry → Bool)
    (items : List (RetentionDecision × Entry)) (i : Nat) : Prop :=
  ∃ v, LeastValue (items.all fun item => !eligible item || item.1.valuePerByte.isSome) eligible
    items i v

def PolicyBest (measured : Bool) (eligible : RetentionDecision × Entry → Bool)
    (done : List (RetentionDecision × Entry)) : Option (Nat × Nat) → Prop
  | none => ∀ x ∈ done, eligible x = false
  | some best => LeastValue measured eligible done best.1 best.2

section
variable {measured : Bool} {eligible : RetentionDecision × Entry → Bool} {done : List (RetentionDecision × Entry)}
  {best : Option (Nat × Nat)} {i : Nat}

/-- The next item joins the scan. -/
theorem PolicyBest.snoc (h : PolicyBest measured eligible done best) (item : RetentionDecision × Entry) :
    PolicyBest measured eligible (done ++ [item])
      (if eligible item && best.all (fun best => measured && valueOf item < best.2) then
        some (done.length, valueOf item) else best) := by
  have hlast : ∀ j x, (done ++ [item])[j]? = some x →
      j < done.length ∧ done[j]? = some x ∨ j = done.length ∧ x = item := by
    intro j x hx
    rw [getElem?_append] at hx
    split at hx
    · next hj => exact .inl ⟨hj, hx⟩
    next hj =>
    have hbound := lt_of_getElem? hx
    simp only [length_singleton] at hbound
    exact .inr ⟨by omega, mem_singleton.mp (mem_of_getElem? hx)⟩
  cases hel : eligible item with
  | false =>
    cases best with
    | none =>
      intro x hx
      rcases mem_append.mp hx with hx | hx
      · exact h x hx
      rw [mem_singleton.mp hx]
      exact hel
    | some b =>
      obtain ⟨⟨v, hv, hvel, hvalue⟩, hall⟩ := h
      have hi := lt_of_getElem? hv
      refine ⟨⟨v, by rw [getElem?_append_left hi, hv], hvel, hvalue⟩, ?_⟩
      intro j x hx hxel
      rcases hlast j x hx with ⟨-, hold⟩ | ⟨-, rfl⟩
      · exact hall j x hold hxel
      rw [hel] at hxel
      cases hxel
  | true =>
    simp only [Bool.true_and]
    cases best with
    | none =>
      refine ⟨⟨item, by simp, hel, rfl⟩, ?_⟩
      intro j x hx hxel
      rcases hlast j x hx with ⟨-, hold⟩ | ⟨rfl, rfl⟩
      · have := h x (mem_of_getElem? hold)
        rw [hxel] at this
        cases this
      · exact ⟨fun _ => ⟨le_rfl, fun hj => by omega⟩, fun _ => le_rfl⟩
    | some b =>
      obtain ⟨⟨v, hv, hvel, hvalue⟩, hall⟩ := h
      have hi := lt_of_getElem? hv
      by_cases hbetter : measured = true ∧ valueOf item < b.2
      · have hyes : Option.all (fun best => measured && valueOf item < best.2) (some b) = true := by
          simpa using hbetter
        rw [if_pos hyes]
        refine ⟨⟨item, by simp, hel, rfl⟩, ?_⟩
        intro j x hx hxel
        rcases hlast j x hx with ⟨-, hold⟩ | ⟨rfl, rfl⟩
        · have hle := ((hall j x hold hxel).1 hbetter.1).1
          refine ⟨fun _ => ⟨by omega, fun _ => by omega⟩, ?_⟩
          intro hunmeasured
          rw [hbetter.1] at hunmeasured
          cases hunmeasured
        · exact ⟨fun _ => ⟨le_rfl, fun hj => by omega⟩, fun _ => le_rfl⟩
      have hno : ¬ Option.all (fun best => measured && valueOf item < best.2) (some b) = true := by
        simpa using hbetter
      rw [if_neg hno]
      refine ⟨⟨v, by rw [getElem?_append_left hi, hv], hvel, hvalue⟩, ?_⟩
      intro j x hx hxel
      rcases hlast j x hx with ⟨-, hold⟩ | ⟨rfl, rfl⟩
      · exact hall j x hold hxel
      refine ⟨?_, fun _ => by omega⟩
      intro hmeasured
      refine ⟨?_, fun hj => by omega⟩
      by_contra hlt
      exact hbetter ⟨hmeasured, by omega⟩

theorem policyVictimFrom_spec (rest : List (RetentionDecision × Entry)) (hbest : PolicyBest measured eligible done best)
    (h : policyVictimFrom measured eligible done.length best rest = some i) :
    ∃ v, LeastValue measured eligible (done ++ rest) i v := by
  induction rest generalizing done best with
  | nil =>
    obtain ⟨b, rfl, rfl⟩ := map_eq_some_iff.mp h
    rw [append_nil]
    exact ⟨b.2, hbest⟩
  | cons item rest ih =>
    have hlength : done.length + 1 = (done ++ [item]).length := by simp
    simp only [policyVictimFrom] at h
    rw [hlength] at h
    rw [show done ++ item :: rest = (done ++ [item]) ++ rest by simp]
    exact ih (hbest.snoc item) h

theorem policyVictim_spec {items : List (RetentionDecision × Entry)} (h : policyVictim eligible items = some i) :
    PolicyVictim eligible items i := by
  have hspec := @policyVictimFrom_spec _ eligible [] none i items (by simp [PolicyBest]) h
  simpa [PolicyVictim] using hspec

end

/-! ## Evictions -/

/-- Entries are taken out one at a time, each while `full` holds and each a `victim` of those
    that are left, and no longer than that. -/
inductive Evicts {α : Type} (full : List α → Prop) (victim : List α → Nat → Prop) :
    List α → List α → Prop
  | stop {l : List α} (h : ¬ full l) : Evicts full victim l l
  | evict {l r : List α} {i : Nat} (hover : full l) (hvictim : victim l i)
      (hrest : Evicts full victim (l.eraseIdx i) r) : Evicts full victim l r

section
variable {α : Type} {full : List α → Prop} {victim : List α → Nat → Prop} {l r : List α}

theorem Evicts.stopped (h : Evicts full victim l r) : ¬ full r := by
  induction h with
  | stop h => exact h
  | evict _ _ _ ih => exact ih

theorem Evicts.eq_of_not_over (h : Evicts full victim l r) (hl : ¬ full l) : r = l := by
  cases h with
  | stop _ => rfl
  | evict hover _ _ => exact absurd hover hl

theorem Evicts.keeps {p : α → Prop} (hp : ∀ l i x, victim l i → l[i]? = some x → ¬ p x)
    (h : Evicts full victim l r) {x : α} (hx : x ∈ l) (hpx : p x) : x ∈ r := by
  induction h with
  | stop _ => exact hx
  | @evict l r i _ hvictim _ ih =>
    apply ih
    rw [mem_eraseIdx_iff_getElem?]
    obtain ⟨j, hj⟩ := mem_iff_getElem?.mp hx
    refine ⟨j, ?_, hj⟩
    rintro rfl
    exact hp _ _ _ hvictim hj hpx

end

section Passes

variable (account : List Entry → Except Exn StorageStats) (demand : Option (Root → Option Nat))
  (bounds : Bounds) (candidate : Entry)

section
variable (kept : List Entry)

/-- The entries and the candidate exceed the byte budget. -/
def BytesOver : Prop :=
  ∃ stats, account (kept ++ [candidate]) = .ok stats ∧ stats.accountedBytes > bounds.effective

/-- Nobody waits for an entry, or somebody waits for the candidate: an idle candidate does not
    displace what a waiting request restores. -/
def Spares (i : Nat) : Prop :=
  idle demand candidate = true → ∀ e, kept[i]? = some e → rank demand e = none

/-- A victim of the class bound. -/
def ClassVictim (i : Nat) : Prop :=
  DemandVictim demand (fun entry => entry.shared == bounds.shared) kept i ∧
    Spares demand candidate kept i

/-- A victim of the byte bound: of the conversations as long as there is one. -/
def ByteVictim (i : Nat) : Prop :=
  (DemandVictim demand (fun entry => !entry.shared) kept i ∨
    (∀ e ∈ kept, e.shared = true) ∧ DemandVictim demand (fun _ => true) kept i) ∧
    Spares demand candidate kept i

end

/-- What the retention decisions may give up: within the class while its bound is exceeded. -/
def policyEligible (full : Bool) (item : RetentionDecision × Entry) : Bool :=
  !item.1.required && (!full || item.2.shared == bounds.shared)

/-- A victim of the retention decisions. -/
def RetentionVictim (items : List (RetentionDecision × Entry)) (i : Nat) : Prop :=
  PolicyVictim (policyEligible bounds (classFull bounds (items.map (·.2)))) items i

/-- One of the bounds is exceeded. -/
def Over (items : List (RetentionDecision × Entry)) : Prop :=
  classFull bounds (items.map (·.2)) = true ∨ BytesOver account bounds candidate (items.map (·.2))

variable {account demand bounds candidate}

variable {stats alone : StorageStats}

theorem over_iff {items : List (RetentionDecision × Entry)}
    (hstats : account (items.map (·.2) ++ [candidate]) = .ok stats) :
    Over account bounds candidate items ↔
      (classFull bounds (items.map (·.2)) || decide (stats.accountedBytes > bounds.effective)) = true := by
  rw [Bool.or_eq_true, decide_eq_true_eq]
  refine or_congr_right ⟨?_, fun hbytes => ⟨stats, hstats, hbytes⟩⟩
  rintro ⟨stats', hstats', hbytes⟩
  rw [hstats] at hstats'
  exact Except.ok.inj hstats' ▸ hbytes

theorem policyLoop_evicts {fuel n n' : Nat} {items items' : List (RetentionDecision × Entry)}
    (h : policyLoop account bounds candidate fuel items n = .ok (some (items', n'))) :
    Evicts (Over account bounds candidate) (RetentionVictim bounds) items items' := by
  induction fuel generalizing items n with
  | zero =>
    obtain ⟨stats, hstats, h⟩ := bind_ok h
    dsimp only at h
    split at h
    · simp [pure, Except.pure] at h
    next hfits =>
    cases h
    exact .stop fun hover => hfits ((over_iff hstats).mp hover)
  | succ fuel ih =>
    unfold policyLoop at h
    obtain ⟨stats, hstats, h⟩ := bind_ok h
    dsimp only at h
    split at h
    · next hover =>
      generalize hvictim : policyVictim _ items = found at h
      cases found with
      | none => simp [pure, Except.pure] at h
      | some i =>
        exact .evict ((over_iff hstats).mpr hover) (policyVictim_spec hvictim) (ih h)
    next hfits =>
    cases h
    exact .stop fun hover => hfits ((over_iff hstats).mp hover)

theorem spares_of_not_declined {kept : List Entry} {i : Nat}
    (h : ¬ (idle demand candidate && (kept[i]?).any (demanded demand)) = true) :
    Spares demand candidate kept i := by
  intro hidle e he
  rw [hidle, he] at h
  simpa [demanded_eq] using h

theorem classLoop_evicts (hpos : 0 < bounds.classCapacity) {fuel : Nat} {kept kept' : List Entry}
    (hfuel : kept.length ≤ fuel) (h : classLoop demand bounds candidate fuel kept = some kept') :
    Evicts (fun l => classFull bounds l = true) (ClassVictim demand bounds candidate) kept kept' := by
  have hempty : ∀ l, classCount bounds.shared l = 0 → ¬ classFull bounds l = true := by
    intro l hl
    simp only [classFull, hl, decide_eq_true_eq]
    omega
  induction fuel generalizing kept with
  | zero =>
    obtain rfl : kept = [] := length_eq_zero_iff.mp (by omega)
    cases h
    exact .stop (hempty [] rfl)
  | succ fuel ih =>
    unfold classLoop at h
    split at h
    · next hfull =>
      split at h
      · next hnone =>
        refine absurd hfull (hempty kept ?_)
        unfold classCount
        rw [countP_eq_zero]
        intro e he
        simpa using demandVictim_none hnone e he
      next i hvictim =>
      obtain ⟨victim, hi, -⟩ := demandVictim_some hvictim
      split at h
      · simp at h
      next hspares =>
      have hlt : i < kept.length := lt_of_getElem? hi
      have hlen := length_eraseIdx_of_lt hlt
      exact .evict hfull ⟨demandVictim_spec hvictim, spares_of_not_declined hspares⟩ (ih (by omega) h)
    next hfull =>
    cases h
    exact .stop hfull

theorem oldestVictim_spec {kept : List Entry} {i : Nat} (h : oldestVictim demand kept = some i) :
    DemandVictim demand (fun entry => !entry.shared) kept i ∨
      (∀ e ∈ kept, e.shared = true) ∧ DemandVictim demand (fun _ => true) kept i := by
  unfold oldestVictim at h
  cases hconversation : demandVictim demand (fun entry => !entry.shared) kept with
  | some j =>
    rw [hconversation] at h
    have hi : some j = some i := h
    cases hi
    exact .inl (demandVictim_spec hconversation)
  | none =>
    rw [hconversation, none_or] at h
    refine .inr ⟨?_, demandVictim_spec h⟩
    intro e he
    simpa using demandVictim_none hconversation e he

theorem oldestVictim_none {kept : List Entry} (h : oldestVictim demand kept = none) : kept = [] := by
  have hnone := (or_eq_none_iff.mp h).2
  rw [eq_nil_iff_forall_not_mem]
  intro e he
  have := demandVictim_none hnone e he
  cases this

theorem byteLoop_evicts (halone : account [candidate] = .ok alone)
    (hfits : alone.accountedBytes ≤ bounds.effective) {fuel n n' : Nat} {kept kept' : List Entry}
    (hfuel : kept.length ≤ fuel)
    (h : byteLoop account demand bounds candidate fuel kept n = .ok (some (kept', n', stats))) :
    Evicts (BytesOver account bounds candidate) (ByteVictim demand candidate) kept kept' ∧
      account (kept' ++ [candidate]) = .ok stats := by
  have hempty : ¬ BytesOver account bounds candidate [] := by
    rintro ⟨s, hs, hover⟩
    rw [nil_append, halone] at hs
    cases hs
    omega
  induction fuel generalizing kept n with
  | zero =>
    obtain rfl : kept = [] := length_eq_zero_iff.mp (by omega)
    unfold byteLoop at h
    obtain ⟨s, hs, h⟩ := bind_ok h
    obtain ⟨rfl, h'⟩ := Prod.mk.inj (some.inj (Except.ok.inj h))
    cases h'
    exact ⟨.stop hempty, hs⟩
  | succ fuel ih =>
    unfold byteLoop at h
    obtain ⟨s, hs, h⟩ := bind_ok h
    generalize hvictim : oldestVictim demand kept = found at h
    cases found with
    | none =>
      have hnil := oldestVictim_none hvictim
      obtain ⟨rfl, h'⟩ := Prod.mk.inj (some.inj (Except.ok.inj h))
      cases h'
      rw [hnil] at hs ⊢
      exact ⟨.stop hempty, hs⟩
    | some i =>
      dsimp only at h
      split at h
      · next hover =>
        split at h
        · simp [pure, Except.pure] at h
        next hspares =>
        have hspec := oldestVictim_spec hvictim
        have hlt : i < kept.length := by
          have hsome : ∀ eligible, DemandVictim demand eligible kept i → i < kept.length := by
            rintro eligible (⟨e, he, -⟩ | ⟨r, ⟨e, he, -⟩, -⟩)
            · exact lt_of_getElem? he
            · exact lt_of_getElem? he
          rcases hspec with hv | ⟨-, hv⟩
          · exact hsome _ hv
          · exact hsome _ hv
        have hlen := length_eraseIdx_of_lt hlt
        obtain ⟨hrest, hstats⟩ := ih (by omega) h
        exact ⟨.evict ⟨s, hs, hover⟩ ⟨hspec, spares_of_not_declined hspares⟩ hrest, hstats⟩
      next hfit =>
      obtain ⟨rfl, h'⟩ := Prod.mk.inj (some.inj (Except.ok.inj h))
      cases h'
      refine ⟨.stop ?_, hs⟩
      rintro ⟨s', hs', hover⟩
      rw [hs] at hs'
      cases hs'
      exact hfit hover

/-- How the old entries that stay were selected. Without a retention snapshot the class bound evicts within the class
    and then the byte bound evicts conversations before shared roots; with one, its decisions alone evict. -/
def Selected (account : List Entry → Except Exn StorageStats)
    (demand : Option (Root → Option Nat)) (bounds : Bounds) (candidate : Entry)
    (prospective kept : List Entry) : Option (List (RetentionDecision × Entry)) → Prop
  | none => ∃ mid,
      Evicts (fun l => classFull bounds l = true) (ClassVictim demand bounds candidate)
        prospective mid ∧
      Evicts (BytesOver account bounds candidate) (ByteVictim demand candidate) mid kept
  | some items => ∃ left, left.map (·.2) = kept ∧
      Evicts (Over account bounds candidate) (RetentionVictim bounds) items left

theorem select_selected (hpos : 0 < bounds.classCapacity)
    (halone : account [candidate] = .ok alone) (hfits : alone.accountedBytes ≤ bounds.effective)
    {prospective kept : List Entry} {n : Nat} {decisions : Option (List (RetentionDecision × Entry))}
    (h : select account demand bounds candidate prospective decisions = .ok (some (kept, n, stats))) :
    Selected account demand bounds candidate prospective kept decisions ∧
      account (kept ++ [candidate]) = .ok stats ∧ stats.accountedBytes ≤ bounds.effective := by
  obtain ⟨afterPolicy, hpolicy, h⟩ := bind_ok h
  split at h
  · simp [pure, Except.pure] at h
  next left m =>
  split at h
  · simp [pure, Except.pure] at h
  next mid hclass =>
  have hclass := classLoop_evicts hpos le_rfl hclass
  obtain ⟨hbyte, hstats⟩ := byteLoop_evicts halone hfits le_rfl h
  refine ⟨?_, hstats, ?_⟩
  · cases decisions with
    | none =>
      cases hpolicy
      exact ⟨mid, hclass, hbyte⟩
    | some items =>
      obtain ⟨found, hloop, hfound⟩ := bind_ok hpolicy
      have hfound : found.map (fun left => (left.1.map (·.2), left.2)) = some (left, m) :=
        Except.ok.inj hfound
      obtain ⟨⟨items', m'⟩, rfl, hpair⟩ := map_eq_some_iff.mp hfound
      cases hpair
      -- the decisions leave both bounds met, so that the other two loops find nothing to do
      have hloop := policyLoop_evicts hloop
      have hstopped := hloop.stopped
      simp only [Over, not_or] at hstopped
      have hmid := hclass.eq_of_not_over hstopped.1
      subst hmid
      have hkept := hbyte.eq_of_not_over hstopped.2
      exact ⟨items', hkept.symm, hloop⟩
  · by_contra hover
    exact hbyte.stopped ⟨stats, hstats, Nat.lt_of_not_le hover⟩

theorem required_kept {kept : List Entry} {items left : List (RetentionDecision × Entry)}
    (hmap : left.map (·.2) = kept)
    (hevicts : Evicts (Over account bounds candidate) (RetentionVictim bounds) items left)
    {item : RetentionDecision × Entry} (hmem : item ∈ items) (hrequired : item.1.required = true) :
    item.2 ∈ kept := by
  rw [← hmap]
  apply List.mem_map_of_mem
  refine hevicts.keeps (p := fun item => item.1.required = true) ?_ hmem hrequired
  intro l i x hvictim hx hreq
  obtain ⟨v, ⟨y, hy, hel, -⟩, -⟩ := hvictim
  rw [hx] at hy
  cases hy
  simp [policyEligible, hreq] at hel

end Passes

/-! ## The transaction -/

/-- The capacities the constructor accepts. -/
structure Constructed (s : PrefixIndex) : Prop where
  positive : 0 < s.capacity
  bounded : s.capacity + s.sharedCapacity ≤ maximumEntries

/-- A full index in which a class is over its capacity: a publication has taken a shared root over to the
    conversations. -/
structure Overrun (s : PrefixIndex) : Prop where
  full : maximumEntries ≤ s.entries.length
  classes : ∃ shared, classCapacity s shared < classCount shared s.entries

/-- A call of `admit` that throws: the entries stay, unless an overrun index was to hold more than the order has room
    for. -/
def Thrown (s s' : PrefixIndex) : Prop :=
  s'.entries = s.entries ∨ Overrun s ∧ maximumEntries < s'.entries.length

/-- The decisions are about these entries: the root and generation of each, in order. -/
def Describes (decisions : List RetentionDecision) (entries : List Entry) : Prop :=
  decisions.map (fun d => (d.root, d.generation)) = entries.map fun e => (e.root.address, e.generation)

theorem snapshotCurrent_describes {entries : List Entry} {decisions : List RetentionDecision}
    (h : snapshotCurrent entries decisions = true) : Describes decisions entries := by
  simp only [snapshotCurrent, Bool.and_eq_true, decide_eq_true_eq, beq_iff_eq] at h
  obtain ⟨⟨-, hlength⟩, hall⟩ := h
  unfold Describes
  induction decisions generalizing entries with
  | nil =>
    obtain rfl : entries = [] := length_eq_zero_iff.mp hlength.symm
    rfl
  | cons d decisions ih =>
    cases entries with
    | nil => simp at hlength
    | cons e entries =>
      simp only [zip_cons_cons, all_cons, Bool.and_eq_true, beq_iff_eq] at hall
      simp only [map_cons, List.cons.injEq, Prod.mk.injEq]
      exact ⟨hall.1, ih hall.2 (by simpa using hlength)⟩

/-- The end of a call of `admit` that returns. -/
inductive AdmitOutcome (account : List Entry → Except Exn StorageStats) (s : PrefixIndex)
    (root : Option Root) (contract : List UInt8) (retention : Option (List RetentionDecision))
    (shared : Bool) (r : Admission) (s' : PrefixIndex) : Prop
  | declined (hadmitted : r.admitted = false) (hentries : s'.entries = s.entries)
  | admitted {candidate : Entry} {kept : List Entry} (hadmitted : r.admitted = true)
      (hroot : root = some candidate.root) (hcontract : candidate.contract = contract)
      (hclass : candidate.shared = shared) (hentries : s'.entries = kept ++ [candidate])
      (hbytes : account s'.entries = .ok r.storage ∧ r.storage.accountedBytes ≤ r.effectiveBudgetBytes)
      (hcurrent : ∀ decisions, retention = some decisions → Describes decisions s.entries ∧
        ∀ item ∈ decisions.zip s.entries, item.1.required = true → item.2 ∈ kept)
      (hselected : Selected account s.demand
        ⟨shared, classCapacity s shared, r.effectiveBudgetBytes⟩ candidate
        (s.entries.filter fun entry => !sameIdentity entry candidate) kept
        (retention.map fun decisions => (decisions.zip s.entries).filter fun item =>
          !sameIdentity item.2 candidate))

variable {account : List Entry → Except Exn StorageStats} {s : PrefixIndex}

theorem wp_setEntries_entries (l : List Entry) (s : PrefixIndex) :
    wp (setEntries l) (fun _ s' => s'.entries = l) (fun _ s' => s'.entries = l ∧ maximumEntries < l.length) s := by
  unfold setEntries rebuildLengths
  simp only [wp_bind, wp_modify, wp_get]
  split
  · exact rfl
  next hlen => exact ⟨rfl, Nat.lt_of_not_le hlen⟩

theorem Constructed.overrun (h : Constructed s) {kept : List Entry} {candidate : Entry}
    (hkept : kept.Sublist s.entries)
    (hcount : classCount candidate.shared kept + 1 ≤ classCapacity s candidate.shared)
    (hover : maximumEntries < (kept ++ [candidate]).length) : Overrun s := by
  have hlen := hkept.length_le
  rw [length_append, length_singleton] at hover
  refine ⟨by omega, ?_⟩
  by_contra hnone
  have hclasses : ∀ shared, classCount shared s.entries ≤ classCapacity s shared :=
    fun shared => Nat.le_of_not_lt fun hlt => hnone ⟨shared, hlt⟩
  have hother : classCount (!candidate.shared) kept ≤ classCapacity s (!candidate.shared) :=
    (classCount_sublist hkept).trans (hclasses _)
  have hlength := (length_of_classes kept candidate hcount hother).trans h.bounded
  rw [length_append, length_singleton] at hlength
  omega

theorem admitCandidate_transaction (h : Constructed s) {root : Option Root} {contract : List UInt8}
    {candidate : Entry} (hoffer : Offered s root contract candidate) {shared : Bool}
    (hshared : candidate.shared = shared) {retention : Option (List RetentionDecision)}
    (hcurrent : ∀ decisions, retention = some decisions → snapshotCurrent s.entries decisions = true)
    (hpos : 0 < classCapacity s shared) (retained : StorageStats) {result : Admission}
    (hresult : result.admitted = false) :
    wp (admitCandidate account s candidate retained result
        ⟨shared, classCapacity s shared, result.effectiveBudgetBytes⟩ retention)
      (fun r s' => AdmitOutcome account s root contract retention shared r s')
      (fun _ => Thrown s) (nextGenerationOf s) := by
  unfold admitCandidate
  dsimp only
  split
  · exact .declined hresult rfl
  next hrenews =>
  rw [wp_bind, wp_ofExcept]
  refine ⟨fun alone halone => ?_, fun _ _ => .inl rfl⟩
  split
  · exact .declined hresult rfl
  next hfits =>
  rw [wp_bind, wp_ofExcept]
  refine ⟨?_, fun _ _ => .inl rfl⟩
  intro selected hselect
  match selected with
  | none => exact .declined hresult rfl
  | some (kept, byteEvicted, stats) =>
    dsimp only
    rw [Option.map_map] at hselect
    obtain ⟨hselected, hstats, hbytes⟩ :=
      select_selected hpos halone (Nat.not_lt.mp hfits) hselect
    have hitems : ∀ items, retention.map ((fun items => items.filter fun item =>
        !sameIdentity item.2 candidate) ∘ fun decisions => decisions.zip s.entries) = some items →
        items.map (·.2) = s.entries.filter fun entry => !sameIdentity entry candidate := by
      intro items hsome
      obtain ⟨decisions, hdecisions, rfl⟩ := map_eq_some_iff.mp hsome
      conv_rhs => rw [← snapshot_entries (hcurrent decisions hdecisions), List.filter_map]
      rfl
    obtain ⟨hsub, hcount, -⟩ := select_kept hpos hitems hselect
    split
    · exact .inl rfl
    rw [wp_bind]
    subst hshared
    have hoverrun := h.overrun (hsub.trans filter_sublist) hcount
    refine wp_mono (wp_setEntries_entries _ _) ?_ fun _ s' hthrew =>
      .inr ⟨hoverrun hthrew.2, by rw [hthrew.1]; exact hthrew.2⟩
    intro _ s' hentries
    refine .admitted rfl hoffer.root hoffer.contract rfl hentries ⟨by rw [hentries, hstats], hbytes⟩ ?_ hselected
    intro decisions hdecisions
    refine ⟨snapshotCurrent_describes (hcurrent decisions hdecisions), ?_⟩
    intro item hmem hrequired
    subst hdecisions
    obtain ⟨left, hmap, hevicts⟩ := hselected
    refine required_kept hmap hevicts (mem_filter.mpr ⟨hmem, ?_⟩) hrequired
    -- the candidate renews no required entry
    by_contra hsame
    apply hrenews
    simp only [map_some, any_some, List.any_eq_true, Bool.and_eq_true]
    exact ⟨item, hmem, by simpa using hsame, hrequired⟩

/-- `admit` on any index, for any candidate, budgets, demand and retention snapshot, and whatever sets of entries are
    accounted. -/
theorem admitRoot_transaction (h : Constructed s) (root : Option Root) (contract : List UInt8)
    (byteBudget available reserve : Nat) (retention : Option (List RetentionDecision))
    (shared : Bool) :
    wp (admitRoot account root contract byteBudget available reserve retention shared)
      (fun r s' => AdmitOutcome account s root contract retention shared r s' ∧
        (∀ decisions, retention = some decisions → ¬ Describes decisions s.entries → s' = s))
      (fun _ => Thrown s) s := by
  unfold admitRoot
  split
  · exact .inl rfl
  rw [wp_get_bind]
  rw [wp_bind, wp_ofExcept]
  refine ⟨fun retained _ => ?_, fun _ _ => .inl rfl⟩
  split
  · exact ⟨.declined rfl rfl, fun _ _ _ => rfl⟩
  next hcapacity =>
  split
  · exact ⟨.declined rfl rfl, fun _ _ _ => rfl⟩
  next hstale =>
  have hcurrent : ∀ decisions, retention = some decisions →
      snapshotCurrent s.entries decisions = true := by
    rintro decisions rfl
    simpa using hstale
  have hpos : 0 < classCapacity s shared := by
    unfold classCapacity
    split
    · next htrue => exact Nat.pos_of_ne_zero fun hzero => hcapacity ⟨htrue, hzero⟩
    · exact h.positive
  rw [wp_bind]
  refine wp_mono (wp_makeEntry root contract) ?_ fun _ s' hs => .inl (by rw [hs])
  rintro made s' ⟨rfl, hmade⟩
  obtain ⟨hoffer, hshared⟩ := hmade.of_core (core_carry s.entries { made with shared })
  refine wp_imp (admitCandidate_transaction h hoffer hshared hcurrent hpos retained ?_) ?_
  · rfl
  intro r s' houtcome
  refine ⟨houtcome, ?_⟩
  intro decisions hdecisions hstranger
  exact absurd (snapshotCurrent_describes (hcurrent decisions hdecisions)) hstranger

/-- A shared root and a newer conversation root, in an index with room for one more conversation. -/
def sharedAndConversation : PrefixIndex :=
  ((admitText 2 [5, 6, 8] false).step countEntries ((admitText 1 [5, 6] true).step countEntries
      { capacity := 2, sharedCapacity := 1, hasher := none }).2).2

/-- The addresses of the roots that a call leaves, if it admits. -/
def admittedAddresses (x : Exec Admission) (s : PrefixIndex) : Option (List Nat × Nat) :=
  match x s with
  | .ok r s' => if r.admitted then some (s'.entries.map (·.root.address), r.byteEvicted) else none
  | .error _ _ => none

/-- Without retention decisions a budget of two bytes evicts the conversation root. -/
theorem admitRoot_transaction_evicts :
    wp (admitRoot countEntries (some (textRoot 3 [5, 6, 9])) [1] 2 1000 1 none false)
      (fun r s' => AdmitOutcome countEntries sharedAndConversation (some (textRoot 3 [5, 6, 9])) [1]
        none false r s' ∧ ∀ decisions, none = some decisions →
          ¬ Describes decisions sharedAndConversation.entries → s' = sharedAndConversation)
      (fun _ => Thrown sharedAndConversation) sharedAndConversation ∧
    admittedAddresses
      (admitRoot countEntries (some (textRoot 3 [5, 6, 9])) [1] 2 1000 1 none false)
      sharedAndConversation = some ([1, 3], 1) := by
  have hconstructed : Constructed sharedAndConversation := ⟨by decide +kernel, by decide +kernel⟩
  exact ⟨admitRoot_transaction hconstructed _ _ _ _ _ _ _, by decide +kernel⟩

/-- With decisions that require neither root the same budget evicts the shared root, the older
    one, and keeps the conversation, though no class is full. -/
theorem retention_evicts_shared_first :
    (∀ shared, classCount shared sharedAndConversation.entries ≤ classCapacity sharedAndConversation shared) ∧
      sharedAndConversation.entries.map (fun e => (e.root.address, e.shared)) =
        [(1, true), (2, false)] ∧
      admittedAddresses
        (admitRoot countEntries (some (textRoot 3 [5, 6, 9])) [1] 2 1000 1
          (some [⟨1, 1, false, none⟩, ⟨2, 2, false, none⟩]) false)
        sharedAndConversation = some ([2, 3], 1) :=
  ⟨by decide +kernel, by decide +kernel, by decide +kernel⟩

end VoidInfer.Exl3.PrefixCache
