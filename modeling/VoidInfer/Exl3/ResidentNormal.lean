import VoidInfer.Exl3.ResidentRanges

/-
  Normal forms of resident ranges. Ranges with a gap before each next one are determined by their addresses
  (`Separate.unique`); both merges leave gaps, for any ranges (`writeRange_gapped`), so the union is the one normal form
  of its addresses. The counted difference (`resident_difference_count`, then `resident_difference_precounted`) never
  throws, and what is added and removed turns the pages into the desired ones.
-/

namespace VoidInfer.Exl3
open List

/-! ## The counted difference -/

def residentDifferenceCount (a b : List ResidentRange) : Except Exn Nat :=
  (residentDifference a b).foldlM (fun count _ => do
    throwIf (count = sizeMax) (.overflowError "resident difference descriptor count overflow")
    return count + 1) 0

def residentDifferencePrecounted (a b : List ResidentRange) (count : Nat) : Except Exn (List ResidentRange) := do
  let result ← (residentDifference a b).foldlM (fun result range => do
    throwIf (result.length = count) (.lengthError "resident difference exceeded admitted count")
    return result ++ [range]) ([] : List ResidentRange)
  throwIf (result.length ≠ count) (.lengthError "resident difference below admitted count")
  return result

/-- `resident_difference`. -/
def residentDifferenceChecked (a b : List ResidentRange) : Except Exn (List ResidentRange) := do
  residentDifferencePrecounted a b (← residentDifferenceCount a b)

variable {l a b : List ResidentRange} {r : ResidentRange}

theorem count_loop : ∀ {start n : Nat}, l.foldlM (fun count _ => do
      throwIf (count = sizeMax) (.overflowError "resident difference descriptor count overflow")
      return count + 1) start = .ok n → n = start + l.length := by
  induction l with
  | nil =>
    intro start n h
    exact (Except.ok.inj h).symm
  | cons r l ih =>
    intro start n h
    obtain ⟨next, hnext, h⟩ := bind_ok h
    obtain ⟨_, _, hnext⟩ := bind_ok hnext
    cases hnext
    rw [ih h, length_cons]
    omega

theorem count_total : ∀ {start : Nat}, start + l.length ≤ sizeMax →
    l.foldlM (fun count _ => do
      throwIf (count = sizeMax) (.overflowError "resident difference descriptor count overflow")
      return count + 1) start = .ok (start + l.length) := by
  induction l with
  | nil => exact fun _ => rfl
  | cons r l ih =>
    intro start h
    rw [length_cons] at h
    have hnot : ¬ start = sizeMax := by omega
    rw [foldlM_cons, throwIf_neg hnot]
    show l.foldlM _ _ = _
    rw [ih (by omega), length_cons]
    congr 1
    omega

theorem precounted_loop {count : Nat} : ∀ {result : List ResidentRange},
    result.length + l.length ≤ count → l.foldlM (fun result range => do
      throwIf (result.length = count) (.lengthError "resident difference exceeded admitted count")
      return result ++ [range]) result = .ok (result ++ l) := by
  induction l with
  | nil =>
    intro result _
    rw [append_nil]
    rfl
  | cons r l ih =>
    intro result h
    rw [length_cons] at h
    have hnot : ¬ result.length = count := by omega
    rw [foldlM_cons, throwIf_neg hnot]
    show l.foldlM _ _ = _
    rw [ih (by simp; omega), append_assoc, singleton_append]

theorem residentDifferencePrecounted_ok {count : Nat}
    (h : residentDifferenceCount a b = .ok count) : residentDifferencePrecounted a b count = .ok (residentDifference a b) := by
  have hcount : count = 0 + (residentDifference a b).length := count_loop h
  unfold residentDifferencePrecounted
  rw [precounted_loop (by simp; omega)]
  have hnot : ¬ ([] ++ residentDifference a b).length ≠ count := by simp [hcount]
  show (throwIf _ _ >>= fun _ => _) = _
  rw [throwIf_neg hnot]
  rfl

theorem Ordered.length_le {top : Nat} (h : Ordered l) (hends : Ends (· ≤ top) l) :
    ∀ {low : Nat}, (∀ r ∈ l, low ≤ r.1) → low ≤ top → low + l.length ≤ top := by
  induction l with
  | nil => exact fun _ hle => hle
  | cons r l ih =>
    intro low hlow _
    obtain ⟨hr, hrest, hl⟩ := ordered_cons.mp h
    obtain ⟨hends_r, hends_l⟩ := ends_cons.mp hends
    have hfirst := hlow r (by simp)
    have hnext := ih hl hends_l hrest hends_r.2
    rw [length_cons]
    omega

theorem residentDifferenceChecked_ok (ha : Ordered a) (hb : Ordered b)
    (hmax : Ends (· ≤ uint64Max) a) : residentDifferenceChecked a b = .ok (residentDifference a b) := by
  have hspec := residentDifference_spec ha hb (P := fun _ => True) (fun _ _ => ⟨trivial, trivial⟩) fun _ _ => ⟨trivial, trivial⟩
  have hwithin : Ends (· ≤ uint64Max) (residentDifference a b) := by
    intro r hr
    have hr' := hspec.1.nonempty r hr
    obtain ⟨⟨q, hq, _, hlast⟩, _⟩ := (hspec.2.2 (r.2 - 1)).mp ⟨r, hr, by omega, by omega⟩
    have := (hmax q hq).2
    constructor
    · omega
    · omega
  have hlength := hspec.1.length_le hwithin (fun _ _ => Nat.zero_le _) (Nat.zero_le uint64Max)
  have hcount : residentDifferenceCount a b = .ok (0 + (residentDifference a b).length) := count_total hlength
  unfold residentDifferenceChecked
  rw [hcount]
  exact residentDifferencePrecounted_ok hcount

/-! ## Normal forms -/

/-- In address order, with a gap before each next range. -/
def Gapped (l : List ResidentRange) : Prop := l.Pairwise fun a b => a.2 < b.1

/-- Non-empty ranges, in address order and neither touching nor overlapping. -/
structure Separate (l : List ResidentRange) : Prop where
  nonempty : ∀ r ∈ l, r.1 < r.2
  gapped : Gapped l

theorem separate_cons : Separate (r :: l) ↔ r.1 < r.2 ∧ (∀ b ∈ l, r.2 < b.1) ∧ Separate l := by
  constructor
  · intro h
    obtain ⟨hfirst, hrest⟩ := pairwise_cons.mp h.gapped
    exact ⟨h.nonempty r (by simp), hfirst, fun b hb => h.nonempty b (by simp [hb]), hrest⟩
  · intro h
    obtain ⟨hr, hfirst, hl⟩ := h
    refine ⟨fun b hb => ?_, pairwise_cons.mpr ⟨hfirst, hl.gapped⟩⟩
    rcases mem_cons.mp hb with rfl | hb
    · exact hr
    · exact hl.nonempty b hb

theorem Separate.after {x : Nat} (h : Separate (r :: l)) (hx : Covers l x) : r.2 < x := by
  obtain ⟨q, hq, hle, _⟩ := hx
  have := (separate_cons.mp h).2.1 q hq
  omega

theorem Separate.unique {l' : List ResidentRange} (h : Separate l) (h' : Separate l') (heq : ∀ x, Covers l x ↔ Covers l' x) :
    l = l' := by
  induction l generalizing l' with
  | nil =>
    cases l' with
    | nil => rfl
    | cons r' l' =>
      have hr' := (separate_cons.mp h').1
      exact absurd ((heq r'.1).mpr (covers_cons.mpr (.inl ⟨le_rfl, hr'⟩))) (covers_nil _)
  | cons r l ih =>
    cases l' with
    | nil =>
      have hr := (separate_cons.mp h).1
      exact absurd ((heq r.1).mp (covers_cons.mpr (.inl ⟨le_rfl, hr⟩))) (covers_nil _)
    | cons r' l' =>
      obtain ⟨hr, _, hl⟩ := separate_cons.mp h
      obtain ⟨hr', _, hl'⟩ := separate_cons.mp h'
      -- each first range holds the first address of the other, so both begin at the same one
      have hin : r.1 ≤ r'.1 := by
        rcases covers_cons.mp ((heq r'.1).mpr (covers_cons.mpr (.inl ⟨le_rfl, hr'⟩))) with hx | hx
        · exact hx.1
        have := h.after hx
        omega
      have hin' : r'.1 ≤ r.1 := by
        rcases covers_cons.mp ((heq r.1).mp (covers_cons.mpr (.inl ⟨le_rfl, hr⟩))) with hx | hx
        · exact hx.1
        have := h'.after hx
        omega
      -- the address after the shorter one would be in the gap
      have hend : ¬ r.2 < r'.2 := by
        intro hlt
        rcases covers_cons.mp ((heq r.2).mpr (covers_cons.mpr (.inl ⟨by omega, hlt⟩))) with hx | hx
        · omega
        have := h.after hx
        omega
      have hend' : ¬ r'.2 < r.2 := by
        intro hlt
        rcases covers_cons.mp ((heq r'.2).mp (covers_cons.mpr (.inl ⟨by omega, hlt⟩))) with hx | hx
        · omega
        have := h'.after hx
        omega
      obtain rfl : r = r' := Prod.ext (by omega) (by omega)
      have htail : ∀ x, Covers l x ↔ Covers l' x := by
        intro x
        constructor
        · intro hx
          have hafter := h.after hx
          rcases covers_cons.mp ((heq x).mp (covers_cons.mpr (.inr hx))) with hin | hx'
          · omega
          · exact hx'
        · intro hx
          have hafter := h'.after hx
          rcases covers_cons.mp ((heq x).mpr (covers_cons.mpr (.inr hx))) with hin | hx'
          · omega
          · exact hx'
      rw [ih hl hl' htail]

/-- The ranges that are not empty. -/
def inhabited (l : List ResidentRange) : List ResidentRange := l.filter fun r => r.1 < r.2

theorem covers_inhabited {x : Nat} : Covers (inhabited l) x ↔ Covers l x := by
  constructor
  · intro h
    obtain ⟨r, hr, hx⟩ := h
    exact ⟨r, (mem_filter.mp hr).1, hx⟩
  · intro h
    obtain ⟨r, hr, hx⟩ := h
    exact ⟨r, mem_filter.mpr ⟨hr, by simp; omega⟩, hx⟩

theorem Gapped.inhabited (h : Gapped l) : Separate (inhabited l) where
  nonempty r hr := by simpa using (mem_filter.mp hr).2
  gapped := h.filter _

/-! ## Merges leave gaps -/

/-- The ranges written so far, last first. -/
structure GapWritten (b : Nat) (w : List ResidentRange) : Prop where
  gapped : w.Pairwise fun a b => b.2 < a.1
  le : ∀ r ∈ w, r.1 ≤ b

theorem writeRange_gapped {b : Nat} {w : List ResidentRange} (hw : GapWritten b w) (hb : b ≤ r.1) :
    GapWritten r.1 (writeRange w r) ∧ ∀ x, Covers (writeRange w r) x ↔ Covers w x ∨ (r.1 ≤ x ∧ x < r.2) := by
  unfold writeRange
  split
  · refine ⟨⟨pairwise_singleton _ _, by simp⟩, fun x => ?_⟩
    simp [covers_cons, covers_nil]
  next last rest =>
  have hle := hw.le last (by simp)
  obtain ⟨hlast, hrest⟩ := pairwise_cons.mp hw.gapped
  split
  · next hjoin =>
    refine ⟨⟨pairwise_cons.mpr ⟨hlast, hrest⟩, fun a ha => ?_⟩, fun x => ?_⟩
    · rcases mem_cons.mp ha with rfl | ha
      · omega
      · have := hw.le a (by simp [ha])
        omega
    · simp only [covers_cons]
      have hmax : (last.1 ≤ x ∧ x < max last.2 r.2) ↔ (last.1 ≤ x ∧ x < last.2) ∨ (r.1 ≤ x ∧ x < r.2) := by omega
      rw [hmax]
      exact or_right_comm
  next hgap =>
  refine ⟨⟨pairwise_cons.mpr ⟨fun a ha => ?_, hw.gapped⟩, fun a ha => ?_⟩, fun x => ?_⟩
  · rcases mem_cons.mp ha with rfl | ha
    · omega
    · have := hlast a ha
      omega
  · rcases mem_cons.mp ha with rfl | ha
    · exact le_rfl
    · have := hw.le a ha
      omega
  · rw [covers_cons]
    exact or_comm

theorem foldl_writeRange_gapped (hs : l.Pairwise fun a b => a.1 ≤ b.1) :
    ∀ {b : Nat} {w : List ResidentRange}, GapWritten b w → (∀ r ∈ l, b ≤ r.1) →
      (∃ b', GapWritten b' (l.foldl writeRange w)) ∧ ∀ x, Covers (l.foldl writeRange w) x ↔ Covers w x ∨ Covers l x := by
  induction l with
  | nil => exact fun hw _ => ⟨⟨_, hw⟩, fun x => by simp [covers_nil]⟩
  | cons r l ih =>
    intro b w hw hb
    obtain ⟨hfirst, hrest⟩ := pairwise_cons.mp hs
    obtain ⟨hnext, hcovers⟩ := writeRange_gapped hw (hb r (by simp))
    obtain ⟨hlast, hall⟩ := ih hrest hnext hfirst
    refine ⟨hlast, fun x => ?_⟩
    rw [foldl_cons, hall, hcovers, covers_cons, or_assoc]

theorem gapped_spec (hs : l.Pairwise fun a b => a.1 ≤ b.1) :
    Gapped (l.foldl writeRange []).reverse ∧ ∀ x, Covers (l.foldl writeRange []).reverse x ↔ Covers l x := by
  have hw : GapWritten 0 [] := ⟨List.Pairwise.nil, by simp⟩
  obtain ⟨⟨b, hgaps⟩, hcovers⟩ := foldl_writeRange_gapped hs hw (by simp)
  refine ⟨pairwise_reverse.mpr hgaps.gapped, fun x => ?_⟩
  rw [covers_reverse, hcovers]
  simp [covers_nil]

theorem mergeResidentRangesInPlace_gapped (l : List ResidentRange) :
    Gapped (mergeResidentRangesInPlace l) ∧ ∀ x, Covers (mergeResidentRangesInPlace l) x ↔ Covers l x := by
  have hperm := perm_insertionSort (fun a b => ResidentRange.less b a = false) l
  obtain ⟨hgapped, hcovers⟩ := gapped_spec (firsts_insertionSort l)
  refine ⟨hgapped, fun x => (hcovers x).trans ?_⟩
  simp only [Covers, hperm.mem_iff]

theorem mergeSortedResidentRanges_gapped (ha : Ordered a) (hb : Ordered b) : Gapped (mergeSortedResidentRanges a b) :=
  (gapped_spec (readSorted_sorted ha.firsts hb.firsts)).1

/-! ## Unions and differences -/

theorem ends_true (l : List ResidentRange) : Ends (fun _ => True) l := fun _ _ => ⟨trivial, trivial⟩

/-- The merge of any ranges covers their addresses, with gaps; its ranges that are not empty are
the one normal form of these, and all of it is where no range given was empty. Differences and
unions of two lists in order are exact, the counted difference does not throw, and taking what
is removed from the pages and adding what is added gives the desired ones. -/
theorem resident_ranges_exact (ranges : List ResidentRange) {pages desired : List ResidentRange} (hpages : Ordered pages)
    (hdesired : Ordered desired) (hmax : Ends (· ≤ uint64Max) pages) (hmax' : Ends (· ≤ uint64Max) desired) :
    (Gapped (mergeResidentRangesInPlace ranges) ∧ (∀ x, Covers (mergeResidentRangesInPlace ranges) x ↔ Covers ranges x) ∧
      (∀ l, Separate l → (∀ x, Covers l x ↔ Covers ranges x) → l = inhabited (mergeResidentRangesInPlace ranges)) ∧
      ((∀ r ∈ ranges, r.1 < r.2) → Separate (mergeResidentRangesInPlace ranges))) ∧
    (Separate (mergeSortedResidentRanges pages desired) ∧
      ∀ x, Covers (mergeSortedResidentRanges pages desired) x ↔ Covers pages x ∨ Covers desired x) ∧
    (∀ a b count, residentDifferenceCount a b = .ok count → ∃ d, residentDifferencePrecounted a b count = .ok d) ∧
    ∃ added removed, residentDifferenceChecked desired pages = .ok added ∧
      residentDifferenceChecked pages desired = .ok removed ∧ Ordered added ∧ Ordered removed ∧
      (∀ x, Covers added x ↔ Covers desired x ∧ ¬ Covers pages x) ∧
      (∀ x, Covers removed x ↔ Covers pages x ∧ ¬ Covers desired x) ∧
      ∀ x, Covers desired x ↔ (Covers pages x ∧ ¬ Covers removed x) ∨ Covers added x := by
  obtain ⟨hgapped, hcovers⟩ := mergeResidentRangesInPlace_gapped ranges
  obtain ⟨hmerged, _, hunion⟩ := mergeSortedResidentRanges_spec hpages hdesired (ends_true _) (ends_true _)
  obtain ⟨hadded, _, hadd⟩ := residentDifference_spec hdesired hpages (ends_true _) (ends_true _)
  obtain ⟨hremoved, _, hremove⟩ := residentDifference_spec hpages hdesired (ends_true _) (ends_true _)
  refine ⟨⟨hgapped, hcovers, fun l hl hsame => ?_, fun hne => ?_⟩,
    ⟨⟨hmerged.nonempty, mergeSortedResidentRanges_gapped hpages hdesired⟩, hunion⟩,
    fun a b count hcount => ⟨_, residentDifferencePrecounted_ok hcount⟩,
    _, _, residentDifferenceChecked_ok hdesired hpages hmax', residentDifferenceChecked_ok hpages hdesired hmax,
    hadded, hremoved, hadd, hremove, fun x => ?_⟩
  · exact hl.unique hgapped.inhabited fun x => (hsame x).trans ((hcovers x).symm.trans covers_inhabited.symm)
  · exact ⟨(mergeResidentRangesInPlace_spec hne (ends_true _)).1.nonempty, hgapped⟩
  · rw [hadd, hremove]
    by_cases hx : Covers pages x <;> simp [hx]

/-- Touching ranges are one, and a page is exchanged for its neighbour. -/
theorem resident_ranges_exchange :
    mergeResidentRangesInPlace [(8, 12), (4, 8), (16, 20)] = [(4, 12), (16, 20)] ∧
      ∃ added removed, residentDifferenceChecked [(8, 16)] [(4, 12)] = .ok added ∧
        residentDifferenceChecked [(4, 12)] [(8, 16)] = .ok removed ∧
        ∀ x, Covers [(8, 16)] x ↔ (Covers [(4, 12)] x ∧ ¬ Covers removed x) ∨ Covers added x := by
  have hpages : Ordered [(4, 12)] := ⟨by simp, pairwise_singleton _ _⟩
  have hdesired : Ordered [(8, 16)] := ⟨by simp, pairwise_singleton _ _⟩
  obtain ⟨added, removed, hadded, hremoved, _, _, _, _, hall⟩ :=
    (resident_ranges_exact [] hpages hdesired (by simp [Ends, uint64Max]) (by simp [Ends, uint64Max])).2.2.2
  exact ⟨by decide, added, removed, hadded, hremoved, hall⟩

end VoidInfer.Exl3
