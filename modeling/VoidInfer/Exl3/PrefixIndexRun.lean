import Mathlib.Data.List.Perm.Basic
import VoidInfer.Exl3.PrefixIndexInv

/-
  Runs of the prefix index. `step_next` says what any operation does to the entries; the invariant of a run and the
  order of the entries by recency follow from it.
-/

namespace VoidInfer.Exl3.PrefixCache
open List Option

open Throwing

/-- The operations of the index. -/
inductive Op where
  | publish (full : Bool) (root : Option Root) (contract : List UInt8)
  | admitRoot (root : Option Root) (contract : List UInt8) (byteBudget available reserve : Nat)
      (retention : Option (List RetentionDecision)) (shared : Bool)
  | refresh (address : Nat)
  | trimToBudget (byteBudget available reserve : Nat)
  | trimWithRetentionPolicy (byteBudget available reserve : Nat) (decisions : List RetentionDecision)
  | evictOldest
  | erase (model : Nat) (tokens : List Int) (contract : List UInt8) (prepared : Option Exl3PreparedIdentity)
  | clear
  | setDemand (demand : Option (Root → Option Nat))
  | supplyRetentionObservation (address generation : Nat) (preparation accesses : Option Nat)
  | lookup (model : Nat) (tokens : List Int) (contract : List UInt8) (prepared : Option Exl3PreparedIdentity)
  | lookupLongest (model : Nat) (tokens : List Int) (contract : List UInt8) (minimumTokens : Nat)
      (prepared : Option Exl3PreparedIdentity)
  | lookupLongestPreparedPositions (model : Nat) (tokens : List Int) (contract : List UInt8)
      (incoming : Exl3PreparedIdentity) (minimumTokens : Nat)

namespace Op

section

variable (account : List Entry → Except Exn StorageStats)

/-- An operation; only an admission's report is read afterwards. -/
def run : Op → Exec (Option Admission)
  | publish full root contract => do PrefixCache.publish full root contract; return none
  | admitRoot root contract byteBudget available reserve retention shared =>
    some <$> PrefixCache.admitRoot account root contract byteBudget available reserve retention shared
  | refresh address => do discard (PrefixCache.refresh address); return none
  | trimToBudget byteBudget available reserve => do
    discard (PrefixCache.trimToBudget account byteBudget available reserve); return none
  | trimWithRetentionPolicy byteBudget available reserve decisions => do
    discard (PrefixCache.trimWithRetentionPolicy account byteBudget available reserve decisions); return none
  | evictOldest => do discard PrefixCache.evictOldest; return none
  | erase model tokens contract prepared => do
    discard (PrefixCache.erase model tokens contract prepared); return none
  | clear => do PrefixCache.clear; return none
  | setDemand demand => do PrefixCache.setDemand demand; return none
  | supplyRetentionObservation address generation preparation accesses => do
    discard (PrefixCache.supplyRetentionObservation address generation preparation accesses); return none
  | lookup model tokens contract prepared => do
    discard (PrefixCache.lookup model tokens contract prepared); return none
  | lookupLongest model tokens contract minimumTokens prepared => do
    discard (PrefixCache.lookupLongest model tokens contract minimumTokens prepared); return none
  | lookupLongestPreparedPositions model tokens contract incoming minimumTokens => do
    discard (PrefixCache.lookupLongestPreparedPositions model tokens contract incoming minimumTokens)
    return none

/-- The operation's report and the index after it, also when it throws. -/
def step (op : Op) (s : PrefixIndex) : Option Admission × PrefixIndex :=
  match op.run account s with
  | .ok reply s' => (reply, s')
  | .error _ s' => (none, s')

end

/-- The root that an operation offers, with its contract and class. -/
def offers : Op → Option (Root × List UInt8 × Bool)
  | publish _ root contract => root.map fun root => (root, contract, false)
  | admitRoot root contract _ _ _ _ shared => root.map fun root => (root, contract, shared)
  | _ => none

/-- The address of the root that an operation makes the newest. -/
def touches : Op → Option Nat
  | refresh address => some address
  | op => op.offers.map fun offer => offer.1.address

end Op

/-- The entry has the identity of the offered root. -/
def repeats (entry : Entry) (root : Root) (contract : List UInt8) : Bool :=
  entry.modelIdentity == root.request.modelIdentity && entry.contract == contract &&
    entry.root.tokens == root.tokens && entry.root.sameInputIdentity root

/-- A conversation root takes over the identity of a resident shared root. -/
def Op.Crosses (op : Op) (s : PrefixIndex) : Prop :=
  ∃ root contract, op.offers = some (root, contract, false) ∧
    ∃ entry ∈ s.entries, entry.shared = true ∧ repeats entry root contract = true

def Op.isPublish : Op → Bool
  | .publish _ _ _ => true
  | _ => false

/-- A conversation publication or admission. -/
def Op.isConversation : Op → Bool
  | .publish _ _ _ => true
  | .admitRoot _ _ _ _ _ _ shared => !shared
  | _ => false

/-- The capacity of a class. -/
def classCapacity (s : PrefixIndex) (shared : Bool) : Nat :=
  if shared then s.sharedCapacity else s.capacity

/-- An entry as `publish` and `make_entry` make it. -/
structure Made (s : PrefixIndex) (entry : Entry) : Prop where
  hash : entry.hash = hashOf s entry.root.tokens entry.contract
  tokens : entry.root.tokens ≠ []
  contract : entry.contract ≠ []

/-- What an operation can do to the entries. -/
inductive Next (s : PrefixIndex) (op : Op) (reply : Option Admission) : List Entry → Prop
  | observed {l : List Entry} (h : l.map core = s.entries.map core) : Next s op reply l
  | removed {l : List Entry} (h : l.Sublist s.entries) (hop : op.isConversation = false) : Next s op reply l
  | renewed {i : Nat} {entry : Entry} (hi : s.entries[i]? = some entry)
      (hop : op = .refresh entry.root.address) : Next s op reply (s.entries.eraseIdx i ++ [entry])
  | added {kept : List Entry} {entry : Entry} (hsub : kept.Sublist s.entries)
      (hmade : Made s entry) (hop : op.offers = some (entry.root, entry.contract, entry.shared))
      (hclass : (op.isPublish = true → ¬ op.Crosses s) →
        classCount entry.shared kept + 1 ≤ classCapacity s entry.shared)
      (hstay : ¬ op.Crosses s → reply.all (fun a => a.byteEvicted = 0) = true →
        ∀ e ∈ s.entries, e.shared = true → entry.shared = false → e ∈ kept)
      (hnew : ∀ e ∈ kept, sameIdentity e entry = false) : Next s op reply (kept ++ [entry])

/-- The invariant of the index. -/
structure Inv (s : PrefixIndex) : Prop where
  ordered : Ordered s
  positive : 0 < s.capacity
  bounded : s.capacity + s.sharedCapacity ≤ maximumEntries
  made : ∀ e ∈ s.entries, Made s e
  distinct : s.entries.Pairwise fun a b => sameIdentity a b = false
  classes : ∀ shared, classCount shared s.entries ≤ classCapacity s shared

/-- The outcome of an operation. -/
def Steps (s : PrefixIndex) (op : Op) (reply : Option Admission) (s' : PrefixIndex) : Prop :=
  After s s' ∧ Next s op reply s'.entries

variable {s : PrefixIndex} {op : Op} {reply : Option Admission}

theorem Steps.refl (h : Ordered s) : Steps s op reply s := ⟨After.refl h, .observed rfl⟩

variable {l : List Entry} {entry : Entry} {root : Option Root} {contract : List UInt8}

theorem wp_setEntries_steps {α : Type} {x : Exec α} {a : α} (h : Ordered s)
    (hnext : ∀ reply, Next s op reply l) (hx : x = (do setEntries l; return a)) (r : α → Option Admission) :
    wp x (fun a s' => Steps s op (r a) s') (fun _ => Steps s op none) s := by
  rw [hx, wp_bind]
  refine wp_mono (wp_setEntries h l) ?_ ?_
  · rintro - s' ⟨hl, hafter⟩
    exact ⟨hafter, hl ▸ hnext _⟩
  rintro - s' ⟨hl, hafter, -⟩
  exact ⟨hafter, hl ▸ hnext none⟩

/-! ## Operations that offer no root -/

section
variable (h : Ordered s)
include h

theorem refresh_steps (address : Nat) :
    wp (refresh address) (fun _ => Steps s (.refresh address) none) (fun _ => Steps s (.refresh address) none) s := by
  unfold refresh
  rw [wp_get_bind]
  split
  · exact Steps.refl h
  next i hfind =>
  obtain ⟨hlt, hroot, -⟩ := findIdx?_eq_some_iff_getElem.mp hfind
  have hi : s.entries[i]? = some s.entries[i] := getElem?_eq_getElem hlt
  refine wp_setEntries_steps h ?_ rfl fun _ => none
  intro reply
  rw [hi]
  exact .renewed hi (by rw [beq_iff_eq.mp hroot])

theorem erase_steps (model : Nat) (tokens : List Int) (contract : List UInt8)
    (prepared : Option Exl3PreparedIdentity) :
    wp (erase model tokens contract prepared) (fun _ => Steps s (.erase model tokens contract prepared) none)
      (fun _ => Steps s (.erase model tokens contract prepared) none) s := by
  unfold erase
  split
  · exact Steps.refl h
  rw [wp_bind, wp_get]
  dsimp only
  split
  · exact Steps.refl h
  next i hfind =>
  refine wp_setEntries_steps h ?_ rfl fun _ => none
  exact fun _ => .removed (eraseIdx_sublist s.entries i) rfl

theorem evictOldest_steps :
    wp evictOldest (fun _ => Steps s .evictOldest none) (fun _ => Steps s .evictOldest none) s := by
  unfold evictOldest
  rw [wp_get_bind]
  split
  · exact Steps.refl h
  next i victim hfind =>
  refine wp_setEntries_steps h ?_ rfl fun _ => none
  exact fun _ => .removed (eraseIdx_sublist s.entries i) rfl

theorem clear_steps : wp clear (fun _ => Steps s .clear none) (fun _ => Steps s .clear none) s := by
  unfold clear
  refine ⟨⟨rfl, rfl, rfl, fun _ => ⟨h.length, Nat.zero_le _, ?_⟩⟩, .removed (nil_sublist _) rfl⟩
  simp [sortedOrder]

theorem setDemand_steps (demand : Option (Root → Option Nat)) :
    wp (setDemand demand) (fun _ => Steps s (.setDemand demand) none)
      (fun _ => Steps s (.setDemand demand) none) s := by
  unfold setDemand
  exact ⟨⟨rfl, rfl, rfl, fun _ => ⟨h.length, h.fits, h.order⟩⟩, .observed rfl⟩

theorem observed_steps (hl : l.map core = s.entries.map core) : Steps s op reply { s with entries := l } :=
  ⟨⟨rfl, rfl, rfl, fun _ => h.observed hl rfl⟩, .observed hl⟩

theorem supplyRetentionObservation_steps (address generation : Nat) (preparation accesses : Option Nat) :
    wp (supplyRetentionObservation address generation preparation accesses)
      (fun _ => Steps s op none) (fun _ => Steps s op none) s := by
  unfold supplyRetentionObservation
  split
  · exact Steps.refl h
  rw [wp_get_bind]
  split
  · exact Steps.refl h
  apply observed_steps h
  apply ext_getElem?
  intro j
  rw [getElem?_map, getElem?_map, getElem?_modify]
  split
  · cases s.entries[j]? <;> rfl
  · cases s.entries[j]? <;> rfl

theorem selectedRoot_steps {position : Nat} (hentry : s.entries[position]? = some entry) :
    wp (some <$> selectedRoot position entry) (fun root s' => root = some entry.root ∧ Steps s op none s')
      (fun _ => Steps s op none) s := by
  rw [wp_map]
  unfold selectedRoot
  refine ⟨rfl, observed_steps h ?_⟩
  apply ext_getElem?
  intro j
  rw [getElem?_map, getElem?_map, getElem?_set]
  split
  · next hj =>
    subst hj
    rw [hentry]
    simp [lt_of_getElem? hentry, core]
  · rfl

theorem lookup_steps (model : Nat) (tokens : List Int) (contract : List UInt8)
    (prepared : Option Exl3PreparedIdentity) :
    wp (lookup model tokens contract prepared) (fun _ => Steps s op none) (fun _ => Steps s op none) s := by
  unfold lookup
  split
  · exact Steps.refl h
  rw [wp_bind, wp_get]
  dsimp only
  split
  · exact Steps.refl h
  split
  · exact Steps.refl h
  next entry hentry =>
  exact wp_imp (selectedRoot_steps h hentry) fun _ _ hstep => hstep.2

end

theorem firstAccepted_some {entries : List Entry} {minimumTokens position : Nat}
    {accept : Entry → Bool} {order : List Nat}
    (h : firstAccepted entries minimumTokens accept order = some (position, entry)) :
    entries[position]? = some entry := by
  induction order with
  | nil => simp [firstAccepted] at h
  | cons p rest ih =>
    unfold firstAccepted at h
    split at h
    · simp at h
    next e he =>
    split at h
    · simp at h
    split at h
    · cases h
      exact he
    · exact ih h

theorem lookupLongestBy_steps (h : Ordered s) (tokens : List Int) (contract : List UInt8)
    (minimumTokens : Nat) (accept : Entry → Bool) :
    wp (lookupLongestBy tokens contract minimumTokens accept) (fun _ => Steps s op none)
      (fun _ => Steps s op none) s := by
  unfold lookupLongestBy
  split
  · exact Steps.refl h
  rw [wp_get_bind]
  split
  · exact Steps.refl h
  next position entry hfound =>
  exact wp_imp (selectedRoot_steps h (firstAccepted_some hfound)) fun _ _ hstep => hstep.2

section Budgets

variable {account : List Entry → Except Exn StorageStats}

theorem trimLoop_removes (effective fuel count : Nat) (h : Ordered s) :
    wp (trimLoop account effective fuel count) (fun _ s' => After s s' ∧ s'.entries.Sublist s.entries)
      (fun _ s' => After s s' ∧ s'.entries.Sublist s.entries) s := by
  have hsame : After s s ∧ s.entries.Sublist s.entries := ⟨After.refl h, List.Sublist.refl _⟩
  induction fuel generalizing s count with
  | zero =>
    unfold trimLoop
    rw [wp_get_bind]
    rw [wp_bind, wp_ofExcept]
    exact ⟨fun stats _ => hsame, fun _ _ => hsame⟩
  | succ fuel ih =>
    unfold trimLoop
    rw [wp_get_bind]
    rw [wp_bind, wp_ofExcept]
    refine ⟨fun stats _ => ?_, fun _ _ => hsame⟩
    generalize oldestVictim s.demand s.entries = found
    cases found with
    | none => exact hsame
    | some i =>
      dsimp only
      split
      · rw [wp_bind]
        refine wp_mono (wp_setEntries h _) ?_ ?_
        · rintro - s' ⟨hl, hafter⟩
          have hsub : s'.entries.Sublist s.entries := hl ▸ eraseIdx_sublist s.entries i
          have hordered : Ordered s' := hafter.ordered (hsub.length_le.trans h.fits)
          refine wp_mono (ih _ hordered ⟨After.refl hordered, List.Sublist.refl _⟩) ?_ ?_
          · rintro - s'' ⟨hafter', hsub'⟩
            exact ⟨hafter.trans hafter', hsub'.trans hsub⟩
          rintro - s'' ⟨hafter', hsub'⟩
          exact ⟨hafter.trans hafter', hsub'.trans hsub⟩
        rintro - s' ⟨hl, hafter, -⟩
        exact ⟨hafter, hl ▸ eraseIdx_sublist s.entries i⟩
      · exact hsame

theorem trimToBudget_steps (h : Ordered s) (byteBudget available reserve : Nat) (hop : op.isConversation = false) :
    wp (trimToBudget account byteBudget available reserve) (fun _ => Steps s op none)
      (fun _ => Steps s op none) s := by
  unfold trimToBudget
  split
  · exact Steps.refl h
  exact wp_mono (trimLoop_removes _ _ _ h) (fun _ _ hs => ⟨hs.1, .removed hs.2 hop⟩)
    fun _ _ hs => ⟨hs.1, .removed hs.2 hop⟩

theorem policyTrimLoop_sublist {effective fuel : Nat} {items items' : List (RetentionDecision × Entry)}
    {stats stats' : StorageStats}
    (h : policyTrimLoop account effective fuel items stats = .ok (items', stats')) : items'.Sublist items := by
  induction fuel generalizing items stats with
  | zero =>
    cases h
    exact List.Sublist.refl _
  | succ fuel ih =>
    unfold policyTrimLoop at h
    split at h
    · cases h
      exact List.Sublist.refl _
    split at h
    · cases h
      exact List.Sublist.refl _
    next i hvictim =>
    obtain ⟨next, -, h⟩ := bind_ok h
    exact (ih h).trans (eraseIdx_sublist items i)

theorem snapshot_entries {entries : List Entry} {decisions : List RetentionDecision}
    (h : snapshotCurrent entries decisions = true) : (decisions.zip entries).map (·.2) = entries := by
  simp only [snapshotCurrent, Bool.and_eq_true, beq_iff_eq] at h
  exact map_snd_zip h.1.2.ge

theorem trimWithRetentionPolicy_steps (h : Ordered s) (byteBudget available reserve : Nat)
    (decisions : List RetentionDecision) (hop : op.isConversation = false) :
    wp (trimWithRetentionPolicy account byteBudget available reserve decisions)
      (fun _ => Steps s op none) (fun _ => Steps s op none) s := by
  unfold trimWithRetentionPolicy
  split
  · exact Steps.refl h
  rw [wp_bind, wp_get]
  dsimp only
  rw [wp_bind, wp_ofExcept]
  refine ⟨fun storage _ => ?_, fun _ _ => Steps.refl h⟩
  split
  · next hcurrent =>
    rw [wp_bind, wp_ofExcept]
    refine ⟨?_, fun _ _ => Steps.refl h⟩
    rintro ⟨items, stats⟩ hloop
    split
    · exact Steps.refl h
    split
    · exact ⟨⟨rfl, rfl, rfl, fun _ => ⟨h.length, h.fits, h.order⟩⟩, .observed rfl⟩
    refine wp_setEntries_steps h ?_ rfl fun _ => none
    intro reply
    refine .removed ?_ hop
    have hsub := (policyTrimLoop_sublist hloop).map (·.2)
    rwa [snapshot_entries hcurrent] at hsub
  · exact Steps.refl h

end Budgets

/-! ## Operations that offer a root -/

theorem checkRoot_ok {r : Root} {model : Nat} (h : checkRoot root contract = .ok (r, model)) :
    root = some r ∧ contract ≠ [] ∧ r.tokens ≠ [] ∧ model = r.request.modelIdentity := by
  unfold checkRoot at h
  split at h
  · simp at h
  next r' state hroot =>
  obtain ⟨hcontract, h⟩ := check_ok h
  obtain ⟨hextent, h⟩ := check_ok h
  cases h
  obtain ⟨r'', rfl, hstate⟩ := bind_eq_some_iff.mp hroot
  obtain ⟨state', hsome, hpair⟩ := map_eq_some_iff.mp hstate
  cases hpair
  refine ⟨rfl, hcontract, ?_, by simp [Exl3VeriCacheRequest.modelIdentity, hsome]⟩
  intro hempty
  apply hextent
  simp [Root.tokenCount, hempty]

/-- The index with the next generation. -/
def nextGenerationOf (s : PrefixIndex) : PrefixIndex := { s with nextGeneration := s.nextGeneration + 1 }

theorem after_nextGeneration (h : Ordered s) : After s (nextGenerationOf s) :=
  ⟨rfl, rfl, rfl, fun _ => ⟨h.length, h.fits, h.order⟩⟩

theorem wp_takeGeneration : wp takeGeneration (fun _ s' => s' = nextGenerationOf s) (fun _ s' => s' = s) s := by
  unfold takeGeneration
  rw [wp_get_bind]
  split
  · rw [wp_throw]
  exact rfl

/-- An entry made of an offered root. -/
structure Offered (s : PrefixIndex) (root : Option Root) (contract : List UInt8) (entry : Entry) : Prop where
  made : Made s entry
  root : root = some entry.root
  contract : entry.contract = contract
  model : entry.modelIdentity = entry.root.request.modelIdentity

theorem Offered.of_core {entry' : Entry} {shared : Bool}
    (h : Offered s root contract entry) (hcore : core entry' = core { entry with shared }) :
    Offered s root contract entry' ∧ entry'.shared = shared := by
  obtain ⟨hroot, hcontract, hhash, hmodel, hshared⟩ := core_fields hcore
  refine ⟨⟨⟨?_, ?_, ?_⟩, ?_, ?_, ?_⟩, hshared⟩
  · rw [hhash, hroot, hcontract, h.made.hash]
  · rw [hroot]
    exact h.made.tokens
  · rw [hcontract]
    exact h.made.contract
  · rw [hroot, h.root]
  · rw [hcontract, h.contract]
  · rw [hmodel, hroot, h.model]

theorem repeats_of_sameIdentity {old : Entry} (h : Offered s root contract entry)
    (hsame : sameIdentity old entry = true) : repeats old entry.root contract = true := by
  simp only [sameIdentity, repeats, Bool.and_eq_true, beq_iff_eq] at *
  obtain ⟨⟨⟨⟨-, h2⟩, h3⟩, h4⟩, h5⟩ := hsame
  exact ⟨⟨⟨h2.trans h.model, h3.trans h.contract⟩, h4⟩, h5⟩

theorem wp_makeEntry (root : Option Root) (contract : List UInt8) :
    wp (makeEntry root contract)
      (fun entry s' => s' = nextGenerationOf s ∧ Offered s root contract entry) (fun _ s' => s' = s) s := by
  unfold makeEntry
  rw [wp_bind, wp_ofExcept]
  refine ⟨?_, fun _ _ => rfl⟩
  rintro ⟨r, model⟩ hcheck
  obtain ⟨hroot, hcontract, htokens, hmodel⟩ := checkRoot_ok hcheck
  rw [wp_get_bind]
  rw [wp_bind]
  refine wp_imp wp_takeGeneration ?_
  rintro generation s' rfl
  exact ⟨rfl, ⟨rfl, htokens, hcontract⟩, hroot, rfl, hmodel⟩

theorem eraseIdx_perm {i : Nat} {e : Entry} (hi : l[i]? = some e) : (e :: l.eraseIdx i).Perm l := by
  obtain ⟨hlt, rfl⟩ := List.getElem?_eq_some_iff.mp hi
  exact getElem_cons_eraseIdx_perm hlt

theorem distinct_perm {l' : List Entry} (h : l.Perm l') :
    (l.Pairwise fun a b => sameIdentity a b = false) ↔ l'.Pairwise fun a b => sameIdentity a b = false :=
  h.pairwise_iff fun {a b} hab => (sameIdentity_comm b a).trans hab

theorem publish_next (h : Inv s) {full : Bool}
    (hoffer : Offered s root contract entry) (hclass : entry.shared = false) :
    Next s (.publish full root contract) none
      (match s.entries.findIdx? fun old => sameIdentity old entry with
        | some i => s.entries.eraseIdx i ++ [entry]
        | none => (if classCount false s.entries = s.capacity then s.entries.eraseP fun old => !old.shared
            else s.entries) ++ [entry]) := by
  have hop : (Op.publish full root contract).offers = some (entry.root, entry.contract, entry.shared) := by
    simp [Op.offers, hoffer.root, hoffer.contract, hclass]
  have hcount := h.classes false
  unfold classCapacity at hcount
  rw [if_neg (by simp)] at hcount
  split
  · next i hfind =>
    obtain ⟨hlt, hsame, -⟩ := findIdx?_eq_some_iff_getElem.mp hfind
    have hi : s.entries[i]? = some s.entries[i] := getElem?_eq_getElem hlt
    have hperm := eraseIdx_perm hi
    have hconversation : ¬ (Op.publish full root contract).Crosses s → s.entries[i].shared = false := by
      intro hcross
      by_contra hshared
      exact hcross ⟨entry.root, contract, by rw [hop, hoffer.contract, hclass], s.entries[i],
        getElem_mem hlt, by simpa using hshared, repeats_of_sameIdentity hoffer hsame⟩
    refine .added (eraseIdx_sublist s.entries i) hoffer.made hop ?_ ?_ ?_
    · intro hpublish
      have hcross := hpublish rfl
      have hcons : classCount false (s.entries[i] :: s.entries.eraseIdx i) = classCount false s.entries :=
        hperm.countP_eq _
      unfold classCount at hcons hcount ⊢
      rw [countP_cons, hconversation hcross] at hcons
      simp only [beq_self_eq_true, if_true] at hcons
      simp only [hclass, classCapacity, Bool.false_eq_true, if_false]
      omega
    · intro hcross _ e he hshared _
      apply mem_eraseIdx_of_ne he hi
      rintro rfl
      rw [hconversation hcross] at hshared
      simp at hshared
    intro e he
    by_contra hne
    have hdistinct := (distinct_perm hperm).mpr h.distinct
    rw [pairwise_cons] at hdistinct
    have hsame' : sameIdentity s.entries[i] e = true := by
      apply sameIdentity_trans hsame
      rw [sameIdentity_comm]
      simpa using hne
    rw [hdistinct.1 e he] at hsame'
    simp at hsame'
  next hfind =>
  have hnew : ∀ e ∈ s.entries, sameIdentity e entry = false := by
    intro e he
    simpa using findIdx?_eq_none_iff.mp hfind e he
  split
  · next hfull =>
    refine .added eraseP_sublist hoffer.made hop ?_ ?_ ?_
    · intro _
      obtain ⟨e, he, hshared⟩ : ∃ e ∈ s.entries, (!e.shared) = true := by
        have hpos : 0 < classCount false s.entries := hfull ▸ h.positive
        obtain ⟨e, he, hshared⟩ := countP_pos_iff.mp hpos
        exact ⟨e, he, by simpa using hshared⟩
      obtain ⟨a, l₁, l₂, -, ha, hsplit, herase⟩ := exists_of_eraseP (p := fun old => !old.shared) he hshared
      rw [herase]
      have ha : a.shared = false := by simpa using ha
      rw [hsplit] at hcount
      unfold classCount at hcount ⊢
      rw [countP_append, countP_cons, ha] at hcount
      simp only [beq_self_eq_true, if_true] at hcount
      rw [countP_append, hclass]
      simp only [classCapacity, Bool.false_eq_true, if_false]
      omega
    · intro _ _ e he hshared _
      exact (mem_eraseP_of_neg (by simp [hshared])).mpr he
    · exact fun e he => hnew e (mem_of_mem_eraseP he)
  next hfull =>
  refine .added (List.Sublist.refl _) hoffer.made hop ?_ (fun _ _ e he _ _ => he) hnew
  intro _
  simp only [hclass, classCapacity, Bool.false_eq_true, if_false]
  omega

theorem length_eq_classes (l : List Entry) : l.length = classCount false l + classCount true l := by
  rw [length_eq_countP_add_countP fun entry => entry.shared == false]
  congr 1
  apply countP_congr
  intro e _
  cases e.shared <;> simp

theorem length_of_classes (kept : List Entry) (entry : Entry) {shared : Bool}
    (hclass : classCount shared kept + 1 ≤ classCapacity s shared)
    (hother : classCount (!shared) kept ≤ classCapacity s (!shared)) :
    (kept ++ [entry]).length ≤ s.capacity + s.sharedCapacity := by
  have hlen := length_eq_classes kept
  rw [length_append, length_singleton, hlen]
  cases shared with
  | false =>
    simp only [classCapacity, Bool.not_false, if_true, Bool.false_eq_true, if_false] at hclass hother
    omega
  | true =>
    simp only [classCapacity, Bool.not_true, if_true, Bool.false_eq_true, if_false] at hclass hother
    omega

theorem wp_setEntries_next (h : Ordered s) (l : List Entry) :
    wp (setEntries l) (fun _ s' => s'.entries = l ∧ After s s')
      (fun _ s' => s'.entries = l ∧ After s s' ∧ maximumEntries < l.length) (nextGenerationOf s) := by
  have hafter := after_nextGeneration h
  have hset : wp (setEntries l) (fun _ s' => s'.entries = l ∧ After (nextGenerationOf s) s')
      (fun _ s' => s'.entries = l ∧ After (nextGenerationOf s) s' ∧ maximumEntries < l.length)
      (nextGenerationOf s) :=
    wp_setEntries (hafter.ordered h.fits) l
  exact wp_mono hset (fun _ _ hs => ⟨hs.1, hafter.trans hs.2⟩) fun _ _ hs => ⟨hs.1, hafter.trans hs.2.1, hs.2.2⟩

theorem publish_steps (h : Inv s) (full : Bool) (root : Option Root) (contract : List UInt8) :
    wp (publish full root contract) (fun _ => Steps s (.publish full root contract) none)
      (fun _ => Steps s (.publish full root contract) none) s := by
  unfold publish
  rw [wp_bind, wp_ofExcept]
  refine ⟨?_, fun _ _ => Steps.refl h.ordered⟩
  rintro ⟨r, model⟩ hcheck
  obtain ⟨hroot, hcontract, htokens, hmodel⟩ := checkRoot_ok hcheck
  rw [wp_bind, wp_get]
  dsimp only
  split
  · exact ⟨⟨rfl, rfl, rfl, fun _ => ⟨h.ordered.length, h.ordered.fits, h.ordered.order⟩⟩, .observed rfl⟩
  rw [wp_bind]
  refine wp_mono wp_takeGeneration ?_ ?_
  · rintro generation s' rfl
    let entry : Entry :=
      { hash := hashOf s r.tokens contract, generation, modelIdentity := model, contract, root := r }
    have hoffer : Offered s root contract entry := ⟨⟨rfl, htokens, hcontract⟩, hroot, rfl, hmodel⟩
    have hnext : Next s (.publish full root contract) none _ := publish_next h hoffer rfl
    split
    · next i hfind =>
      rw [show (s.entries.findIdx? fun old => sameIdentity old entry) = some i from hfind] at hnext
      exact wp_mono (wp_setEntries_next h.ordered _) (fun _ _ hs => ⟨hs.2, hs.1 ▸ hnext⟩)
        fun _ _ hs => ⟨hs.2.1, hs.1 ▸ hnext⟩
    next hfind =>
    rw [show (s.entries.findIdx? fun old => sameIdentity old entry) = none from hfind] at hnext
    exact wp_mono (wp_setEntries_next h.ordered _) (fun _ _ hs => ⟨hs.2, hs.1 ▸ hnext⟩)
      fun _ _ hs => ⟨hs.2.1, hs.1 ▸ hnext⟩
  rintro e s' rfl
  exact Steps.refl h.ordered

section Admission

variable {account : List Entry → Except Exn StorageStats}

theorem nextGeneration_steps (h : Ordered s) : Steps s op reply (nextGenerationOf s) :=
  ⟨after_nextGeneration h, .observed rfl⟩

theorem admitCandidate_steps (h : Inv s) {root : Option Root} {contract : List UInt8} {candidate : Entry}
    (hoffer : Offered s root contract candidate) {bounds : Bounds} (hshared : candidate.shared = bounds.shared)
    (hcapacity : bounds.classCapacity = classCapacity s bounds.shared) (hpos : 0 < bounds.classCapacity)
    {retention : Option (List RetentionDecision)}
    (hcurrent : ∀ decisions, retention = some decisions → snapshotCurrent s.entries decisions = true)
    (hop : op.offers = root.map fun root => (root, contract, bounds.shared))
    (retained : StorageStats) (result : Admission) :
    wp (admitCandidate account s candidate retained result bounds retention)
      (fun a s' => Steps s op (some a) s') (fun _ => Steps s op none) (nextGenerationOf s) := by
  have hsame : ∀ reply, Steps s op reply (nextGenerationOf s) := fun _ => nextGeneration_steps h.ordered
  have hoffers : op.offers = some (candidate.root, candidate.contract, candidate.shared) := by
    rw [hop, hoffer.root, hoffer.contract, hshared]
    rfl
  unfold admitCandidate
  dsimp only
  split
  · exact hsame _
  rw [wp_bind, wp_ofExcept]
  refine ⟨fun alone _ => ?_, fun _ _ => hsame _⟩
  split
  · exact hsame _
  rw [wp_bind, wp_ofExcept]
  refine ⟨?_, fun _ _ => hsame _⟩
  rintro selected hselect
  match selected with
  | none => exact hsame _
  | some (kept, byteEvicted, stats) =>
    dsimp only
    have hitems : ∀ items, (retention.map fun decisions => decisions.zip s.entries).map (fun items =>
        items.filter fun item => !sameIdentity item.2 candidate) = some items →
        items.map (·.2) = s.entries.filter fun entry => !sameIdentity entry candidate := by
      intro items hsome
      rw [Option.map_map] at hsome
      obtain ⟨decisions, hdecisions, rfl⟩ := map_eq_some_iff.mp hsome
      conv_rhs => rw [← snapshot_entries (hcurrent decisions hdecisions), List.filter_map]
      rfl
    obtain ⟨hsub, hcount, hstay⟩ := select_kept hpos hitems hselect
    split
    · exact ⟨⟨rfl, rfl, rfl, fun _ => ⟨h.ordered.length, h.ordered.fits, h.ordered.order⟩⟩, .observed rfl⟩
    have hother : classCount (!bounds.shared) kept ≤ classCapacity s (!bounds.shared) :=
      (classCount_sublist (hsub.trans (filter_sublist))).trans (h.classes _)
    rw [hcapacity] at hcount
    have hfits : (kept ++ [candidate]).length ≤ maximumEntries :=
      (length_of_classes kept candidate hcount hother).trans h.bounded
    rw [wp_bind]
    refine wp_mono (wp_setEntries_next h.ordered _) ?_ fun _ s' hs => absurd hfits (by omega)
    rintro - s' ⟨hl, hafter⟩
    refine ⟨hafter, ?_⟩
    rw [hl]
    refine .added (hsub.trans filter_sublist) hoffer.made hoffers ?_ ?_ ?_
    · intro _
      rw [hshared]
      exact hcount
    · intro hcross hbytes e he hclass hconversation
      refine hstay (by simpa using hbytes) e ?_ ?_
      · rw [mem_filter]
        refine ⟨he, ?_⟩
        by_contra hidentity
        apply hcross
        exact ⟨candidate.root, contract, by rw [hoffers, hoffer.contract, hconversation], e, he, hclass,
          repeats_of_sameIdentity hoffer (by simpa using hidentity)⟩
      rw [hclass, ← hshared, hconversation]
      simp
    intro e he
    simpa using (mem_filter.mp (hsub.subset he)).2

theorem admit_steps (h : Inv s) (root : Option Root) (contract : List UInt8)
    (byteBudget available reserve : Nat) (retention : Option (List RetentionDecision)) (shared : Bool)
    (hop : op.offers = root.map fun root => (root, contract, shared)) :
    wp (admitRoot account root contract byteBudget available reserve retention shared)
      (fun a s' => Steps s op (some a) s') (fun _ => Steps s op none) s := by
  have hsame : ∀ reply, Steps s op reply s := fun _ => Steps.refl h.ordered
  unfold admitRoot
  split
  · exact hsame _
  rw [wp_get_bind]
  rw [wp_bind, wp_ofExcept]
  refine ⟨fun retained _ => ?_, fun _ _ => hsame _⟩
  split
  · exact hsame _
  next hcapacity =>
  split
  · exact hsame _
  next hstale =>
  rw [wp_bind]
  refine wp_mono (wp_makeEntry root contract) ?_ fun _ s' hs => hs ▸ hsame _
  rintro made s' ⟨rfl, hmade⟩
  obtain ⟨hoffer, hshared⟩ := hmade.of_core (core_carry s.entries { made with shared })
  have hcurrent : ∀ decisions, retention = some decisions → snapshotCurrent s.entries decisions = true := by
    rintro decisions rfl
    simpa using hstale
  have hpos : 0 < classCapacity s shared := by
    unfold classCapacity
    split
    · next htrue => exact Nat.pos_of_ne_zero fun hzero => hcapacity ⟨htrue, hzero⟩
    · exact h.positive
  exact admitCandidate_steps h hoffer hshared rfl hpos hcurrent hop retained _

end Admission

/-! ## Steps and runs -/

section Runs

variable {account : List Entry → Except Exn StorageStats}

theorem run_steps (h : Inv s) (op : Op) :
    wp (op.run account) (fun reply s' => Steps s op reply s') (fun _ => Steps s op none) s := by
  cases op with simp only [Op.run, wp_bind, wp_discard, wp_map, wp_pure]
  | publish full root contract =>
    exact publish_steps h full root contract
  | admitRoot root contract byteBudget available reserve retention shared =>
    exact admit_steps h root contract byteBudget available reserve retention shared rfl
  | refresh address =>
    exact refresh_steps h.ordered address
  | trimToBudget byteBudget available reserve =>
    exact trimToBudget_steps h.ordered byteBudget available reserve rfl
  | trimWithRetentionPolicy byteBudget available reserve decisions =>
    exact trimWithRetentionPolicy_steps h.ordered byteBudget available reserve decisions rfl
  | evictOldest =>
    exact evictOldest_steps h.ordered
  | erase model tokens contract prepared =>
    exact erase_steps h.ordered model tokens contract prepared
  | clear =>
    exact clear_steps h.ordered
  | setDemand demand =>
    exact setDemand_steps h.ordered demand
  | supplyRetentionObservation address generation preparation accesses =>
    exact supplyRetentionObservation_steps h.ordered address generation preparation accesses
  | lookup model tokens contract prepared =>
    exact lookup_steps h.ordered model tokens contract prepared
  | lookupLongest model tokens contract minimumTokens prepared =>
    exact lookupLongestBy_steps h.ordered tokens contract minimumTokens _
  | lookupLongestPreparedPositions model tokens contract incoming minimumTokens =>
    exact lookupLongestBy_steps h.ordered tokens contract minimumTokens _

variable (account) in
theorem step_next (h : Inv s) (op : Op) : Steps s op (op.step account s).1 (op.step account s).2 := by
  have hrun : wp (op.run account) _ _ s := run_steps h op
  unfold wp at hrun
  unfold Op.step
  split
  · next heq =>
    rw [heq] at hrun
    exact hrun
  next heq =>
  rw [heq] at hrun
  exact hrun

variable {s' : PrefixIndex} {l : List Entry}

theorem Made.after {e : Entry} (h : Made s e) (hafter : After s s') : Made s' e := by
  refine ⟨?_, h.tokens, h.contract⟩
  rw [h.hash]
  unfold hashOf
  rw [hafter.hasher]

theorem Made.of_core {e e' : Entry} (h : Made s e) (hcore : core e' = core e) : Made s e' := by
  obtain ⟨hroot, hcontract, hhash, -, -⟩ := core_fields hcore
  exact ⟨by rw [hhash, hroot, hcontract, h.hash], hroot ▸ h.tokens, hcontract ▸ h.contract⟩

theorem classCapacity_after (hafter : After s s') (shared : Bool) :
    classCapacity s' shared = classCapacity s shared := by
  unfold classCapacity
  rw [hafter.capacity, hafter.sharedCapacity]

section
variable (h : Inv s) (hnext : Next s op reply l)
include h hnext

theorem Next.classes (hcross : op.isPublish = true → ¬ op.Crosses s) (shared : Bool) :
    classCount shared l ≤ classCapacity s shared := by
  cases hnext with
  | observed hcore =>
    rw [← classCount_core, hcore, classCount_core]
    exact h.classes shared
  | removed hsub => exact (classCount_sublist hsub).trans (h.classes shared)
  | renewed hi =>
    have hperm := (perm_append_singleton _ _).trans (eraseIdx_perm hi)
    unfold classCount
    rw [hperm.countP_eq]
    exact h.classes shared
  | @added kept entry hsub _ _ hclass =>
    have hcount := hclass hcross
    have hold := (classCount_sublist hsub).trans (h.classes shared)
    unfold classCount at *
    rw [countP_append, countP_singleton]
    split
    · next heq =>
      rw [beq_iff_eq] at heq
      rw [heq] at hcount
      exact hcount
    · exact hold

theorem Next.made : ∀ e ∈ l, Made s e := by
  intro e he
  cases hnext with
  | observed hcore =>
    have hmem : core e ∈ s.entries.map core := hcore ▸ List.mem_map_of_mem he
    obtain ⟨e', he', hcore'⟩ := List.mem_map.mp hmem
    exact (h.made e' he').of_core hcore'.symm
  | removed hsub => exact h.made e (hsub.subset he)
  | renewed hi =>
    rcases mem_append.mp he with he | he
    · exact h.made e (mem_of_mem_eraseIdx he)
    rw [mem_singleton.mp he]
    exact h.made _ (mem_of_getElem? hi)
  | added hsub hmade =>
    rcases mem_append.mp he with he | he
    · exact h.made e (hsub.subset he)
    rw [mem_singleton.mp he]
    exact hmade

theorem Next.distinct : l.Pairwise fun a b => sameIdentity a b = false := by
  cases hnext with
  | observed hcore =>
    have hmap : (s.entries.map core).Pairwise fun a b => sameIdentity a b = false := by
      rw [pairwise_map]
      exact h.distinct
    rw [← hcore, pairwise_map] at hmap
    exact hmap
  | removed hsub => exact h.distinct.sublist hsub
  | renewed hi =>
    have hperm := (perm_append_singleton _ _).trans (eraseIdx_perm hi)
    exact (distinct_perm hperm).mpr h.distinct
  | added hsub _ _ _ _ hnew =>
    rw [pairwise_append]
    refine ⟨h.distinct.sublist hsub, by simp, ?_⟩
    intro a ha b hb
    rw [mem_singleton.mp hb]
    exact hnew a ha

end

variable (account) in
theorem inv_step (h : Inv s) (op : Op) (hcross : op.isPublish = true → ¬ op.Crosses s) :
    Inv (op.step account s).2 := by
  obtain ⟨hafter, hnext⟩ := step_next account h op
  have hclasses : ∀ shared, classCount shared (op.step account s).2.entries ≤
      classCapacity (op.step account s).2 shared := by
    intro shared
    rw [classCapacity_after hafter]
    exact hnext.classes h hcross shared
  have hbounded : (op.step account s).2.capacity + (op.step account s).2.sharedCapacity ≤ maximumEntries := by
    rw [hafter.capacity, hafter.sharedCapacity]
    exact h.bounded
  refine ⟨hafter.ordered ?_, by rw [hafter.capacity]; exact h.positive, hbounded, ?_, hnext.distinct h, hclasses⟩
  · have hfalse := hclasses false
    have htrue := hclasses true
    rw [length_eq_classes]
    simp only [classCapacity, if_true, Bool.false_eq_true, if_false] at hfalse htrue
    omega
  · exact fun e he => (hnext.made h e he).after hafter

theorem inv_create {capacity sharedCapacity : Nat} {hasher : Option (List Int → List UInt8 → Nat)}
    (h : create capacity hasher sharedCapacity = .ok s) : Inv s := by
  obtain ⟨hpos, h⟩ := check_ok h
  obtain ⟨hbound, h⟩ := check_ok h
  cases h
  refine ⟨⟨by simp, by simp, by simp [sortedOrder]⟩, Nat.pos_of_ne_zero hpos, ?_, by simp, by simp, by simp [classCount]⟩
  dsimp only
  omega

/-- The states that `allowed` operations lead to. -/
def Reaches (account : List Entry → Except Exn StorageStats) (allowed : Op → PrefixIndex → Prop) :
    PrefixIndex → PrefixIndex → Prop :=
  Relation.ReflTransGen fun s s' => ∃ op : Op, allowed op s ∧ s' = (op.step account s).2

theorem inv_reaches {allowed : Op → PrefixIndex → Prop}
    (hallowed : ∀ op s, allowed op s → op.isPublish = true → ¬ op.Crosses s) (h : Inv s)
    (hreach : Reaches account allowed s s') : Inv s' := by
  induction hreach with
  | refl => exact h
  | tail _ hstep ih =>
    obtain ⟨op, hop, rfl⟩ := hstep
    exact inv_step account ih op (hallowed op _ hop)

end Runs

end VoidInfer.Exl3.PrefixCache
