import VoidInfer.Exl3.PrefixIndexRun

/-
  What a lookup finds. The entries are in the order of their publication or last refresh, so that the newest entry is
  the last one; `length_order_` lists them by length, and the binary search in it agrees with a search through all
  entries.
-/

namespace VoidInfer.Exl3.PrefixCache
open List Option

open Throwing

variable {s : PrefixIndex}

/-! ## Queries -/

/-- The entry equals the query. -/
structure Equals (model : Nat) (tokens : List Int) (contract : List UInt8)
    (prepared : Option Exl3PreparedIdentity) (entry : Entry) : Prop where
  model : entry.modelIdentity = model
  contract : entry.contract = contract
  tokens : entry.root.tokens = tokens
  prepared : matchesPrepared entry prepared false = true

/-- The entry is a prefix of the query, of at least `minimumTokens` tokens. -/
structure IsPrefix (model : Nat) (tokens : List Int) (contract : List UInt8) (minimumTokens : Nat)
    (prepared : Option Exl3PreparedIdentity) (entry : Entry) : Prop where
  model : entry.modelIdentity = model
  contract : entry.contract = contract
  tokens : entry.root.tokens <+: tokens
  long : minimumTokens ≤ entry.root.tokenCount
  prepared : matchesPrepared entry prepared true = true

/-- The root of the newest entry with `P`. -/
def NewestOf (P : Entry → Prop) (entries : List Entry) : Option Root → Prop
  | none => ∀ e ∈ entries, ¬ P e
  | some root => ∃ (i : Nat) (e : Entry), entries[i]? = some e ∧ e.root = root ∧ P e ∧
      ∀ (j : Nat) (e' : Entry), entries[j]? = some e' → P e' → j ≤ i

/-- The root of the longest entry with `P`, and among equally long ones of the newest. -/
def LongestOf (P : Entry → Prop) (entries : List Entry) : Option Root → Prop
  | none => ∀ e ∈ entries, ¬ P e
  | some root => ∃ (i : Nat) (e : Entry), entries[i]? = some e ∧ e.root = root ∧ P e ∧
      ∀ (j : Nat) (e' : Entry), entries[j]? = some e' → P e' →
        e'.root.tokenCount < e.root.tokenCount ∨ (e'.root.tokenCount = e.root.tokenCount ∧ j ≤ i)

variable {accept : Entry → Bool} {entries : List Entry} {i minimumTokens : Nat} {e : Entry}

/-! ## The newest equal entry -/

theorem newest_none (h : newest accept entries = none) : ∀ e ∈ entries, accept e = false := by
  unfold newest at h
  rw [map_eq_none_iff, findIdx?_eq_none_iff] at h
  intro e he
  simpa using h e (mem_reverse.mpr he)

theorem newest_some (h : newest accept entries = some i) :
    ∃ e, entries[i]? = some e ∧ accept e = true ∧ ∀ j e', entries[j]? = some e' → accept e' = true → j ≤ i := by
  obtain ⟨k, hfind, rfl⟩ := map_eq_some_iff.mp h
  obtain ⟨hlt, haccept, hbefore⟩ := findIdx?_eq_some_iff_getElem.mp hfind
  rw [length_reverse] at hlt
  rw [getElem_reverse] at haccept
  refine ⟨_, getElem?_eq_getElem (by omega), haccept, ?_⟩
  intro j e' hj haccept'
  obtain ⟨hjlt, rfl⟩ := List.getElem?_eq_some_iff.mp hj
  by_contra hlater
  have hrev : (entries.length - 1 - j) < k := by omega
  have hno := hbefore _ hrev
  rw [getElem_reverse] at hno
  have hindex : entries.length - 1 - (entries.length - 1 - j) = j := by omega
  simp only [hindex] at hno
  exact hno haccept'

variable {model : Nat} {tokens : List Int} {contract : List UInt8}
  {prepared : Option Exl3PreparedIdentity}

theorem answers_iff {entry : Entry} (h : Made s entry) :
    answers (hashOf s tokens contract) model contract prepared tokens entry = true ↔
      Equals model tokens contract prepared entry := by
  simp only [answers, Bool.and_eq_true, beq_iff_eq, Root.tokenCount]
  constructor
  · rintro ⟨⟨⟨⟨⟨-, hmodel⟩, hcontract⟩, hlength⟩, hprepared⟩, htokens⟩
    rw [hlength, take_length] at htokens
    exact ⟨hmodel, hcontract, htokens, hprepared⟩
  · rintro ⟨hmodel, hcontract, htokens, hprepared⟩
    refine ⟨⟨⟨⟨⟨?_, hmodel⟩, hcontract⟩, by rw [htokens]⟩, hprepared⟩, by rw [htokens, take_length]⟩
    rw [h.hash, htokens, hcontract]

theorem lookup_newest (h : Inv s) (model : Nat) (tokens : List Int) (contract : List UInt8)
    (prepared : Option Exl3PreparedIdentity) :
    wp (lookup model tokens contract prepared)
      (fun root _ => NewestOf (Equals model tokens contract prepared) s.entries root)
      (fun _ _ => False) s := by
  unfold lookup
  split
  · next hempty =>
    intro e he hequal
    rcases hempty with rfl | rfl
    · exact (h.made e he).tokens hequal.tokens
    · exact (h.made e he).contract hequal.contract
  rw [wp_bind, wp_get]
  dsimp only
  split
  · next hnone =>
    intro e he hequal
    have hno := newest_none hnone e he
    rw [(answers_iff (h.made e he)).mpr hequal] at hno
    simp at hno
  next i hsome =>
  obtain ⟨e, hi, haccept, hlast⟩ := newest_some hsome
  rw [hi]
  have hmem : ∀ {j e'}, s.entries[j]? = some e' → Made s e' := fun hj => h.made _ (mem_of_getElem? hj)
  refine ⟨i, e, hi, rfl, (answers_iff (hmem hi)).mp haccept, ?_⟩
  intro j e' hj hequal
  exact hlast j e' hj ((answers_iff (hmem hj)).mpr hequal)

/-! ## The order by length -/

/-- The length of the entry at a position. -/
def lengthAt (entries : List Entry) (i : Nat) : Nat := ((entries[i]?).map (·.root.tokenCount)).getD 0

theorem orderedBefore_iff {a b : Nat} :
    orderedBefore entries a b = true ↔
      lengthAt entries b < lengthAt entries a ∨ (lengthAt entries b = lengthAt entries a ∧ b < a) := by
  unfold orderedBefore lengthAt
  dsimp only
  split
  · simp only [gt_iff_lt, decide_eq_true_eq]
    omega
  simp only [gt_iff_lt, decide_eq_true_eq]
  omega

theorem sortedOrder_sorted (entries : List Entry) :
    (sortedOrder entries).Pairwise fun a b =>
      lengthAt entries b < lengthAt entries a ∨ (lengthAt entries b = lengthAt entries a ∧ b ≤ a) := by
  have htrans : ∀ a b c, (!orderedBefore entries b a) = true → (!orderedBefore entries c b) = true →
      (!orderedBefore entries c a) = true := by
    intro a b c hab hbc
    simp only [Bool.not_eq_true', ← Bool.not_eq_true, orderedBefore_iff] at *
    omega
  have htotal : ∀ a b, ((!orderedBefore entries b a) || !orderedBefore entries a b) = true := by
    intro a b
    simp only [Bool.or_eq_true, Bool.not_eq_true', ← Bool.not_eq_true, orderedBefore_iff]
    omega
  refine (pairwise_mergeSort htrans htotal _).imp ?_
  intro a b hab
  simp only [Bool.not_eq_true', ← Bool.not_eq_true, orderedBefore_iff] at hab
  omega

theorem mem_sortedOrder : i ∈ sortedOrder entries ↔ i < entries.length := by
  simp [sortedOrder]

theorem lengthAt_eq (h : entries[i]? = some e) : lengthAt entries i = e.root.tokenCount := by
  simp [lengthAt, h]

/-- The longest of the accepted entries at some positions that are long enough. -/
def FirstOf (entries : List Entry) (minimumTokens : Nat) (accept : Entry → Bool) (order : List Nat) :
    Option (Nat × Entry) → Prop
  | none => ∀ i ∈ order, ∀ e : Entry, entries[i]? = some e → accept e = true →
      ¬ minimumTokens ≤ e.root.tokenCount
  | some (i, e) => entries[i]? = some e ∧ accept e = true ∧ minimumTokens ≤ e.root.tokenCount ∧
      ∀ j ∈ order, ∀ e' : Entry, entries[j]? = some e' → accept e' = true →
        minimumTokens ≤ e'.root.tokenCount →
        e'.root.tokenCount < e.root.tokenCount ∨ (e'.root.tokenCount = e.root.tokenCount ∧ j ≤ i)

theorem firstAccepted_spec {order : List Nat} (hvalid : ∀ i ∈ order, i < entries.length)
    (hsorted : order.Pairwise fun a b =>
      lengthAt entries b < lengthAt entries a ∨ (lengthAt entries b = lengthAt entries a ∧ b ≤ a)) :
    FirstOf entries minimumTokens accept order (firstAccepted entries minimumTokens accept order) := by
  induction order with
  | nil => simp [firstAccepted, FirstOf]
  | cons p rest ih =>
    rw [pairwise_cons] at hsorted
    rw [forall_mem_cons] at hvalid
    have hp : entries[p]? = some (entries.get ⟨p, hvalid.1⟩) := getElem?_eq_getElem hvalid.1
    generalize entries.get ⟨p, hvalid.1⟩ = e at hp
    have ih := ih hvalid.2 hsorted.2
    -- no later position is longer than `p`
    have hrest : ∀ j ∈ rest, ∀ e', entries[j]? = some e' →
        e'.root.tokenCount < e.root.tokenCount ∨ (e'.root.tokenCount = e.root.tokenCount ∧ j ≤ p) := by
      intro j hj e' he'
      have := hsorted.1 j hj
      rwa [lengthAt_eq he', lengthAt_eq hp] at this
    unfold firstAccepted
    rw [hp]
    dsimp only
    split
    · next hshort =>
      intro i hi e' he' _
      rcases mem_cons.mp hi with rfl | hi
      · rw [hp] at he'
        cases he'
        omega
      have := hrest i hi e' he'
      omega
    next hlong =>
    split
    · next haccept =>
      refine ⟨hp, haccept, by omega, ?_⟩
      intro j hj e' he' _ _
      rcases mem_cons.mp hj with rfl | hj
      · rw [hp] at he'
        cases he'
        exact .inr ⟨rfl, le_rfl⟩
      · exact hrest j hj e' he'
    next haccept =>
    have hskip : ∀ e', entries[p]? = some e' → ¬ accept e' = true := by
      intro e' he'
      rw [hp] at he'
      cases he'
      exact haccept
    generalize firstAccepted entries minimumTokens accept rest = found at ih
    cases found with
    | none =>
      show ∀ i ∈ p :: rest, _
      rw [forall_mem_cons]
      exact ⟨fun e' he' haccept' => absurd haccept' (hskip e' he'), ih⟩
    | some first =>
      refine ⟨ih.1, ih.2.1, ih.2.2.1, ?_⟩
      rw [forall_mem_cons]
      exact ⟨fun e'' he'' haccept' => absurd haccept' (hskip e'' he''), ih.2.2.2⟩

theorem mem_candidates {tokens : Nat} (hi : entries[i]? = some e)
    (hfit : e.root.tokenCount ≤ tokens) {longer : Nat → Bool}
    (hlonger : ∀ k, longer k = decide (tokens <
      ((((sortedOrder entries)[k]?).bind fun position => entries[position]?).map (·.root.tokenCount)).getD 0)) :
    i ∈ (sortedOrder entries).drop (BinarySearch.lowerBound longer 0 entries.length) := by
  have hlen := sortedOrder_length entries
  have hat : ∀ k (hk : k < entries.length),
      longer k = decide (tokens < lengthAt entries ((sortedOrder entries).get ⟨k, by omega⟩)) := by
    intro k hk
    rw [hlonger, getElem?_eq_getElem (by omega)]
    rfl
  -- the test holds on a prefix, as lengths fall along the order
  have hpartition : ∀ a b, 0 ≤ a → a ≤ b → b < 0 + entries.length → longer b = true → longer a = true := by
    intro a b _ hab hb hbt
    rcases Nat.lt_or_eq_of_le hab with hlt | rfl
    · rw [hat b (by omega), decide_eq_true_eq] at hbt
      rw [hat a (by omega), decide_eq_true_eq]
      have hpair := pairwise_iff_getElem.mp (sortedOrder_sorted entries) a b (by omega) (by omega) hlt
      simp only [get_eq_getElem] at hbt ⊢
      omega
    · exact hbt
  obtain ⟨-, -, hbefore, -⟩ := BinarySearch.lowerBound_spec hpartition
  have hmem : i ∈ sortedOrder entries := mem_sortedOrder.mpr (lt_of_getElem? hi)
  obtain ⟨k, hk, rfl⟩ := mem_iff_getElem.mp hmem
  rw [mem_drop_iff_getElem]
  have hge : BinarySearch.lowerBound longer 0 entries.length ≤ k := by
    by_contra hlt
    have hlong := hbefore k (Nat.zero_le k) (by omega)
    rw [hat k (by omega), decide_eq_true_eq, get_eq_getElem, lengthAt_eq hi] at hlong
    omega
  exact ⟨k - BinarySearch.lowerBound longer 0 entries.length, by omega, by congr 1; omega⟩

theorem longestAccepted_spec (h : Ordered s) {tokens : Nat}
    (hshort : ∀ e, accept e = true → e.root.tokenCount ≤ tokens) :
    FirstOf s.entries minimumTokens accept (List.range s.entries.length)
      (longestAccepted s tokens minimumTokens accept) := by
  unfold longestAccepted
  rw [h.order]
  dsimp only
  generalize hk : BinarySearch.lowerBound _ 0 s.entries.length = k
  have hcandidates : ∀ i e, s.entries[i]? = some e → e.root.tokenCount ≤ tokens →
      i ∈ (sortedOrder s.entries).drop k := by
    intro i e hi hfit
    rw [← hk]
    exact mem_candidates hi hfit fun _ => rfl
  have hvalid : ∀ i ∈ (sortedOrder s.entries).drop k, i < s.entries.length :=
    fun i hi => mem_sortedOrder.mp (mem_of_mem_drop hi)
  have hspec : FirstOf s.entries minimumTokens accept _ _ :=
    firstAccepted_spec hvalid ((sortedOrder_sorted s.entries).drop)
  generalize firstAccepted s.entries minimumTokens accept _ = found at hspec
  match found with
  | none =>
    intro i _ e hi haccept
    exact hspec i (hcandidates i e hi (hshort e haccept)) e hi haccept
  | some (i, e) =>
    refine ⟨hspec.1, hspec.2.1, hspec.2.2.1, ?_⟩
    intro j _ e' hj haccept
    exact hspec.2.2.2 j (hcandidates j e' hj (hshort e' haccept)) e' hj haccept

theorem continues_iff :
    continues model contract prepared tokens e = true ∧ minimumTokens ≤ e.root.tokenCount ↔
      IsPrefix model tokens contract minimumTokens prepared e := by
  simp only [continues, Bool.and_eq_true, beq_iff_eq, Root.tokenCount]
  constructor
  · rintro ⟨⟨⟨⟨hmodel, hcontract⟩, hprepared⟩, htokens⟩, hlong⟩
    exact ⟨hmodel, hcontract, prefix_iff_eq_take.mpr htokens, hlong, hprepared⟩
  · rintro ⟨hmodel, hcontract, htokens, hlong, hprepared⟩
    exact ⟨⟨⟨⟨hmodel, hcontract⟩, hprepared⟩, prefix_iff_eq_take.mp htokens⟩, hlong⟩

theorem lookupLongest_longest (h : Inv s) (model : Nat) (tokens : List Int) (contract : List UInt8)
    (minimumTokens : Nat) (prepared : Option Exl3PreparedIdentity) :
    wp (lookupLongest model tokens contract minimumTokens prepared)
      (fun root _ => LongestOf (IsPrefix model tokens contract minimumTokens prepared) s.entries root)
      (fun _ _ => False) s := by
  unfold lookupLongest lookupLongestBy
  split
  · next hempty =>
    intro e he hprefix
    rcases hempty with rfl | rfl | hlong
    · exact (h.made e he).tokens (prefix_nil.mp hprefix.tokens)
    · exact (h.made e he).contract hprefix.contract
    have := hprefix.tokens.length_le
    have := hprefix.long
    unfold Root.tokenCount at this
    omega
  rw [wp_get_bind]
  have hshort : ∀ e, continues model contract prepared tokens e = true → e.root.tokenCount ≤ tokens.length := by
    intro e he
    exact (continues_iff.mp ⟨he, Nat.zero_le _⟩).tokens.length_le
  have hspec : FirstOf s.entries minimumTokens _ _ _ := longestAccepted_spec h.ordered hshort
  split
  · next hnone =>
    rw [hnone] at hspec
    intro e he hprefix
    obtain ⟨i, hi⟩ := mem_iff_getElem?.mp he
    have hlt := lt_of_getElem? hi
    obtain ⟨haccept, hlong⟩ := continues_iff.mpr hprefix
    exact hspec i (mem_range.mpr hlt) e hi haccept hlong
  next i e hsome =>
  rw [hsome] at hspec
  obtain ⟨hi, haccept, hlong, hbest⟩ := hspec
  refine ⟨i, e, hi, rfl, continues_iff.mp ⟨haccept, hlong⟩, ?_⟩
  intro j e' hj hprefix
  obtain ⟨haccept', hlong'⟩ := continues_iff.mpr hprefix
  exact hbest j (mem_range.mpr (lt_of_getElem? hj)) e' hj haccept' hlong'

/-! ## Every reachable index -/

/-- Two entries for the same input: whatever the hashes are. -/
def SameInput (a b : Entry) : Prop :=
  a.modelIdentity = b.modelIdentity ∧ a.contract = b.contract ∧ a.root.tokens = b.root.tokens ∧
    a.root.sameInputIdentity b.root = true

theorem Inv.distinctInputs (h : Inv s) : s.entries.Pairwise fun a b => ¬ SameInput a b := by
  refine h.distinct.imp_of_mem ?_
  rintro a b ha hb hdistinct ⟨hmodel, hcontract, htokens, hinput⟩
  have hhash : a.hash = b.hash := by rw [(h.made a ha).hash, (h.made b hb).hash, htokens, hcontract]
  simp [sameIdentity, hhash, hmodel, hcontract, htokens, hinput] at hdistinct

/-- An operation keeps the order of the entries it keeps, and puts its own root last. -/
def KeepsRecency (op : Op) (entries entries' : List Entry) : Prop :=
  ∃ kept last, entries'.map core = kept ++ last ∧ kept.Sublist (entries.map core) ∧
    (last = [] ∨ ∃ e, last = [e] ∧ op.touches = some e.root.address)

theorem Next.keepsRecency {op : Op} {reply : Option Admission} {l : List Entry} (h : Next s op reply l) :
    KeepsRecency op s.entries l := by
  cases h with
  | observed hcore => exact ⟨l.map core, [], by rw [append_nil], by rw [hcore], .inl rfl⟩
  | removed hsub => exact ⟨_, [], by rw [append_nil], hsub.map core, .inl rfl⟩
  | @renewed i entry hi hop =>
    refine ⟨(s.entries.eraseIdx i).map core, [core entry], by simp,
      (eraseIdx_sublist s.entries i).map core, .inr ⟨core entry, rfl, ?_⟩⟩
    rw [hop]
    rfl
  | @added kept entry hsub _ hop =>
    refine ⟨kept.map core, [core entry], by simp, hsub.map core, .inr ⟨core entry, rfl, ?_⟩⟩
    cases op with
    | publish full root contract => simp [Op.touches, hop]
    | admitRoot root contract byteBudget available reserve retention shared => simp [Op.touches, hop]
    | _ => simp [Op.offers] at hop

theorem returns_of_wp {α : Type} {x : Exec α} {P : α → Prop}
    (h : wp x (fun a _ => P a) (fun _ _ => False) s) : ∃ a s', x s = .ok a s' ∧ P a := by
  unfold wp at h
  split at h
  · next a s' hx => exact ⟨a, s', hx, h⟩
  · exact h.elim

/-- In every state that admissions, refreshes, trims, evictions and erasures lead to, with any hash function: no two
    entries are for the same input, the order by length is sorted, and the lookups find the newest equal entry and the
    longest prefix. The newest entries are the last ones, as every operation keeps the others in order. -/
theorem prefix_index_lookups_exact (account : List Entry → Except Exn StorageStats)
    {capacity sharedCapacity : Nat} {hasher : Option (List Int → List UInt8 → Nat)} {s₀ s : PrefixIndex}
    (hcreate : create capacity hasher sharedCapacity = .ok s₀)
    (hreach : Reaches account (fun op _ => op.isPublish = false) s₀ s) :
    (s.entries.Pairwise fun a b => ¬ SameInput a b) ∧
    (s.lengthOrder.take s.entries.length).Perm (List.range s.entries.length) ∧
    ((s.lengthOrder.take s.entries.length).Pairwise fun a b =>
      lengthAt s.entries b < lengthAt s.entries a ∨
        (lengthAt s.entries b = lengthAt s.entries a ∧ b ≤ a)) ∧
    (∀ model tokens contract prepared, ∃ root s', lookup model tokens contract prepared s = .ok root s' ∧
        NewestOf (Equals model tokens contract prepared) s.entries root) ∧
    (∀ model tokens contract minimumTokens prepared, ∃ root s',
      lookupLongest model tokens contract minimumTokens prepared s = .ok root s' ∧
        LongestOf (IsPrefix model tokens contract minimumTokens prepared) s.entries root) ∧
    ∀ op : Op, KeepsRecency op s.entries (op.step account s).2.entries := by
  have h : Inv s := inv_reaches (fun op _ hop hpublish => by simp [hop] at hpublish) (inv_create hcreate) hreach
  refine ⟨h.distinctInputs, ?_, ?_, ?_, ?_, ?_⟩
  · rw [h.ordered.order]
    exact mergeSort_perm _ _
  · rw [h.ordered.order]
    exact sortedOrder_sorted s.entries
  · exact fun model tokens contract prepared => returns_of_wp (lookup_newest h model tokens contract prepared)
  · exact fun model tokens contract minimumTokens prepared =>
      returns_of_wp (lookupLongest_longest h model tokens contract minimumTokens prepared)
  · exact fun op => (step_next account h op).2.keepsRecency

/-- A root of the given tokens, for the tests below. -/
def textRoot (address : Nat) (tokens : List Int) : Root :=
  { address
    request := { revision := address, parentRevision := none, replayAnchorRevision := none, history := tokens
                 state := some { position := tokens.length, modelIdentity := 7, nativeExtentValid := fun _ => true } } }

/-- Every entry is accounted one byte. -/
def countEntries (entries : List Entry) : Except Exn StorageStats :=
  .ok { entries := entries.length, payloadAllocatedBytes := entries.length, identityAllocatedBytes := 0
        laneBackedBytes := 0, accountedBytes := entries.length }

/-- An admission of the root with room for a thousand bytes. -/
def admitText (address : Nat) (tokens : List Int) (shared : Bool) : Op :=
  .admitRoot (some (textRoot address tokens)) [1] 1000 1000 1 none shared

/-- Under a constant hash, the longer of two admitted prefixes is found. -/
theorem prefix_index_finds_longer_prefix :
    ∃ s₀ s, create 2 (some fun _ _ => 0) 0 = .ok s₀ ∧
      Reaches countEntries (fun op _ => op.isPublish = false) s₀ s ∧ s.entries.length = 2 ∧
      ∃ root s', lookupLongest 7 [5, 6, 8, 9] [1] 1 none s = .ok root s' ∧
        LongestOf (IsPrefix 7 [5, 6, 8, 9] [1] 1 none) s.entries root := by
  let s₀ : PrefixIndex := { capacity := 2, sharedCapacity := 0, hasher := some fun _ _ => 0 }
  let s₁ := ((admitText 1 [5, 6, 8] false).step countEntries s₀).2
  let s₂ := ((admitText 2 [5, 6] false).step countEntries s₁).2
  have hcreate : create 2 (some fun _ _ => 0) 0 = .ok s₀ := rfl
  have hreach : Reaches countEntries (fun op _ => op.isPublish = false) s₀ s₂ :=
    .tail (.tail .refl ⟨admitText 1 [5, 6, 8] false, rfl, rfl⟩) ⟨admitText 2 [5, 6] false, rfl, rfl⟩
  refine ⟨s₀, s₂, hcreate, hreach, by decide +kernel, ?_⟩
  exact (prefix_index_lookups_exact countEntries hcreate hreach).2.2.2.2.1 7 [5, 6, 8, 9] [1] 1 none

end VoidInfer.Exl3.PrefixCache
