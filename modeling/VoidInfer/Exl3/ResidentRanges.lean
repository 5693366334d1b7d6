import Mathlib.Data.List.Sort
import VoidInfer.Base

/-
  Unions of half-open address ranges (`merge_resident_ranges.h`).

  A list of ranges stands for the set of its addresses (`Covers`). Sorting and coalescing keep that set and give a list
  in normal form (`mergeResidentRangesInPlace_spec`), merging two such lists covers both
  (`mergeSortedResidentRanges_covers`), and `visit_resident_difference` emits exactly the addresses of one that the
  other has not, in order (`residentDifference_spec`). No endpoint is invented: each comes from an input (`Ends`), which
  is how page alignment passes through.
-/

namespace VoidInfer.Exl3
open List

/-- `ResidentRange`: first address and one past the last. -/
abbrev ResidentRange := Nat × Nat

/-! ## The functions of the source -/

/-- Lexicographic order of pairs, `std::pair`'s `<`. -/
def ResidentRange.less (a b : ResidentRange) : Bool := decide (a.1 < b.1 ∨ a.1 = b.1 ∧ a.2 < b.2)

/-- One step of both merges; the ranges written so far stand last first. -/
def writeRange (written : List ResidentRange) (range : ResidentRange) : List ResidentRange :=
  match written with
  | [] => [range]
  | last :: rest =>
    if range.1 ≤ last.2 then (last.1, max last.2 range.2) :: rest else range :: last :: rest

def mergeResidentRangesInPlace (ranges : List ResidentRange) : List ResidentRange :=
  ((ranges.insertionSort fun a b => ResidentRange.less b a = false).foldl writeRange []).reverse

/-- The order in which `merge_sorted_resident_ranges` reads its inputs. -/
def readSorted : List ResidentRange → List ResidentRange → List ResidentRange
  | [], b => b
  | a, [] => a
  | x :: a, y :: b =>
    if ResidentRange.less x y then x :: readSorted a (y :: b) else y :: readSorted (x :: a) b
termination_by a b => a.length + b.length

/-- `merge_sorted_resident_ranges`, with an output of sufficient capacity. -/
def mergeSortedResidentRanges (a b : List ResidentRange) : List ResidentRange :=
  ((readSorted a b).foldl writeRange []).reverse

/-- The inner loop of `visit_resident_difference` over the ranges of `b` from `k` on: what
    it emits for a range that ends at `second`. -/
def emitGaps (second : Nat) : Nat → List ResidentRange → List ResidentRange
  | cursor, [] => if cursor < second then [(cursor, second)] else []
  | cursor, b :: rest =>
    if b.1 < second then
      let emitted := if b.1 > cursor then [(cursor, min second b.1)] else []
      let cursor := max cursor b.2
      if cursor ≥ second then emitted else emitted ++ emitGaps second cursor rest
    else if cursor < second then [(cursor, second)]
    else []

/-- `visit_resident_difference`: what it emits, in order. -/
def residentDifference : List ResidentRange → List ResidentRange → List ResidentRange
  | [], _ => []
  | range :: a, b =>
    let b := b.dropWhile fun r => r.2 ≤ range.1
    emitGaps range.2 range.1 b ++ residentDifference a b

/-- The chunks of one range in `resident_lock_chunk_count`. -/
def rangeChunks (chunkBytes : Nat) (r : ResidentRange) : Nat :=
  (r.2 - r.1) / chunkBytes + if (r.2 - r.1) % chunkBytes ≠ 0 then 1 else 0

def residentLockChunkCount (chunkBytes : Nat) (ranges : List ResidentRange) : Except Exn Nat := do
  throwIf (chunkBytes = 0) (.invalidArgument "resident lock chunk extent")
  ranges.foldlM (fun count r => do
    throwIf (r.1 ≥ r.2) (.invalidArgument "resident lock range extent")
    throwIf (rangeChunks chunkBytes r > sizeMax - count) (.overflowError "resident lock descriptor count overflow")
    return count + rangeChunks chunkBytes r) 0

def extent (ranges : List ResidentRange) : Except Exn Nat :=
  ranges.foldlM (fun result r => do
    throwIf (r.2 - r.1 > uint64Max - result) (.overflowError "resident extent overflow")
    return result + (r.2 - r.1)) 0

/-! ## Addresses and order -/

/-- `x` is an address of one of the ranges. -/
def Covers (ranges : List ResidentRange) (x : Nat) : Prop := ∃ r ∈ ranges, r.1 ≤ x ∧ x < r.2

theorem covers_nil (x : Nat) : ¬ Covers [] x := by simp [Covers]

variable {r : ResidentRange} {l a b : List ResidentRange} {x : Nat} {P : Nat → Prop}

theorem covers_cons : Covers (r :: l) x ↔ (r.1 ≤ x ∧ x < r.2) ∨ Covers l x := by
  simp [Covers]

variable {l' w : List ResidentRange} {cursor second : Nat}

theorem covers_append : Covers (l ++ l') x ↔ Covers l x ∨ Covers l' x := by
  simp only [Covers, mem_append]
  constructor
  · rintro ⟨r, hr | hr, h⟩
    · exact .inl ⟨r, hr, h⟩
    · exact .inr ⟨r, hr, h⟩
  · rintro (⟨r, hr, h⟩ | ⟨r, hr, h⟩)
    · exact ⟨r, .inl hr, h⟩
    · exact ⟨r, .inr hr, h⟩

theorem covers_reverse : Covers l.reverse x ↔ Covers l x := by
  simp [Covers]

/-- Non-empty ranges in address order, not overlapping. -/
structure Ordered (l : List ResidentRange) : Prop where
  nonempty : ∀ r ∈ l, r.1 < r.2
  sorted : l.Pairwise fun a b => a.2 ≤ b.1

theorem ordered_nil : Ordered [] := ⟨by simp, List.Pairwise.nil⟩

theorem ordered_cons : Ordered (r :: l) ↔ r.1 < r.2 ∧ (∀ b ∈ l, r.2 ≤ b.1) ∧ Ordered l := by
  constructor
  · intro h
    have hs := pairwise_cons.mp h.sorted
    exact ⟨h.nonempty r (by simp), hs.1, fun b hb => h.nonempty b (by simp [hb]), hs.2⟩
  · rintro ⟨h1, h2, h3⟩
    refine ⟨?_, pairwise_cons.mpr ⟨h2, h3.sorted⟩⟩
    intro b hb
    rcases mem_cons.mp hb with rfl | hb
    · exact h1
    · exact h3.nonempty b hb

/-- Every endpoint of `l` satisfies `P`. -/
def Ends (P : Nat → Prop) (l : List ResidentRange) : Prop := ∀ r ∈ l, P r.1 ∧ P r.2

theorem ends_cons : Ends P (r :: l) ↔ (P r.1 ∧ P r.2) ∧ Ends P l := by
  simp [Ends]

theorem ends_append : Ends P (l ++ l') ↔ Ends P l ∧ Ends P l' := by
  simp only [Ends, mem_append]
  constructor
  · intro h
    exact ⟨fun r hr => h r (.inl hr), fun r hr => h r (.inr hr)⟩
  · rintro ⟨h1, h2⟩ r (hr | hr)
    · exact h1 r hr
    · exact h2 r hr

/-! ## The merges -/

/-- The ranges written so far, last first: in order, none starting after `b`. -/
structure Written (P : Nat → Prop) (b : Nat) (w : List ResidentRange) : Prop where
  nonempty : ∀ r ∈ w, r.1 < r.2
  sorted : w.Pairwise fun a b => b.2 ≤ a.1
  le : ∀ r ∈ w, r.1 ≤ b
  ends : Ends P w

theorem writeRange_spec {b : Nat} (hw : Written P b w) (hr : r.1 < r.2) (hb : b ≤ r.1) (hP : P r.1 ∧ P r.2) :
    Written P r.1 (writeRange w r) ∧ ∀ x, Covers (writeRange w r) x ↔ Covers w x ∨ (r.1 ≤ x ∧ x < r.2) := by
  unfold writeRange
  split
  · refine ⟨⟨by simpa using hr, by simp, by simp, by simpa [Ends] using hP⟩, fun x => ?_⟩
    simp [covers_cons, covers_nil]
  next last rest =>
  have hle := hw.le last (by simp)
  have hs := pairwise_cons.mp hw.sorted
  have he := ends_cons.mp hw.ends
  split
  · next hjoin =>
    refine ⟨⟨?_, ?_, ?_, ?_⟩, fun x => ?_⟩
    · intro a ha
      rcases mem_cons.mp ha with rfl | ha
      · omega
      · exact hw.nonempty a (by simp [ha])
    · exact pairwise_cons.mpr ⟨hs.1, hs.2⟩
    · intro a ha
      rcases mem_cons.mp ha with rfl | ha
      · omega
      have := hw.le a (by simp [ha])
      omega
    · refine ends_cons.mpr ⟨⟨he.1.1, ?_⟩, he.2⟩
      rcases Nat.le_total last.2 r.2 with h | h
      · rw [Nat.max_eq_right h]
        exact hP.2
      rw [Nat.max_eq_left h]
      exact he.1.2
    · simp only [covers_cons]
      -- the new end is one of the two old ones, and the ranges touch
      have hmax : (last.1 ≤ x ∧ x < max last.2 r.2) ↔ (last.1 ≤ x ∧ x < last.2) ∨ (r.1 ≤ x ∧ x < r.2) := by omega
      rw [hmax]
      exact or_right_comm
  next hgap =>
  refine ⟨⟨?_, ?_, ?_, ends_cons.mpr ⟨hP, hw.ends⟩⟩, fun x => ?_⟩
  · intro a ha
    rcases mem_cons.mp ha with rfl | ha
    · exact hr
    · exact hw.nonempty a ha
  · refine pairwise_cons.mpr ⟨fun a ha => ?_, hw.sorted⟩
    rcases mem_cons.mp ha with rfl | ha
    · omega
    have := hs.1 a ha
    omega
  · intro a ha
    rcases mem_cons.mp ha with rfl | ha
    · exact le_rfl
    have := hw.le a ha
    omega
  · rw [covers_cons]
    exact or_comm

theorem foldl_writeRange {b : Nat}
    (hw : Written P b w) (hl : ∀ r ∈ l, r.1 < r.2) (hs : l.Pairwise fun a b => a.1 ≤ b.1)
    (hb : ∀ r ∈ l, b ≤ r.1) (hP : Ends P l) :
    (∃ b', Written P b' (l.foldl writeRange w)) ∧ ∀ x, Covers (l.foldl writeRange w) x ↔ Covers w x ∨ Covers l x := by
  induction l generalizing b w with
  | nil => exact ⟨⟨b, hw⟩, fun x => by simp [covers_nil]⟩
  | cons r l ih =>
    have hs' := pairwise_cons.mp hs
    have hP' := ends_cons.mp hP
    obtain ⟨h1, h2⟩ := writeRange_spec hw (hl r (by simp)) (hb r (by simp)) hP'.1
    obtain ⟨h3, h4⟩ := ih h1 (fun a ha => hl a (by simp [ha])) hs'.2 hs'.1 hP'.2
    refine ⟨h3, fun x => ?_⟩
    rw [foldl_cons, h4, h2, covers_cons, or_assoc]

theorem written_spec (hl : ∀ r ∈ l, r.1 < r.2) (hs : l.Pairwise fun a b => a.1 ≤ b.1) (hP : Ends P l) :
    Ordered (l.foldl writeRange []).reverse ∧ Ends P (l.foldl writeRange []).reverse ∧
      ∀ x, Covers (l.foldl writeRange []).reverse x ↔ Covers l x := by
  have hw : Written P 0 [] := ⟨by simp, List.Pairwise.nil, by simp, by simp [Ends]⟩
  obtain ⟨⟨b, h1⟩, h2⟩ := foldl_writeRange hw hl hs (by simp) hP
  refine ⟨⟨fun r hr => h1.nonempty r (mem_reverse.mp hr), pairwise_reverse.mpr h1.sorted⟩,
    fun r hr => h1.ends r (mem_reverse.mp hr), fun x => ?_⟩
  rw [covers_reverse, h2]
  simp [covers_nil]

theorem firsts_insertionSort (l : List ResidentRange) :
    (l.insertionSort fun a b => ResidentRange.less b a = false).Pairwise fun a b => a.1 ≤ b.1 := by
  have : @Std.Total ResidentRange fun a b => ResidentRange.less b a = false :=
    ⟨fun a b => by simp [ResidentRange.less]; omega⟩
  have : IsTrans ResidentRange fun a b => ResidentRange.less b a = false :=
    ⟨fun a b c => by simp [ResidentRange.less]; omega⟩
  refine (pairwise_insertionSort _ l).imp fun {a b} hab => ?_
  simp [ResidentRange.less] at hab
  omega

theorem mergeResidentRangesInPlace_spec (hl : ∀ r ∈ l, r.1 < r.2) (hP : Ends P l) :
    Ordered (mergeResidentRangesInPlace l) ∧ Ends P (mergeResidentRangesInPlace l) ∧
      ∀ x, Covers (mergeResidentRangesInPlace l) x ↔ Covers l x := by
  have hperm := perm_insertionSort (fun a b => ResidentRange.less b a = false) l
  obtain ⟨h1, h2, h3⟩ := written_spec (P := P) (fun r hr => hl r (hperm.mem_iff.mp hr)) (firsts_insertionSort l)
    fun r hr => hP r (hperm.mem_iff.mp hr)
  refine ⟨h1, h2, fun x => (h3 x).trans ?_⟩
  simp only [Covers, hperm.mem_iff]

theorem mem_readSorted : r ∈ readSorted a b ↔ r ∈ a ∨ r ∈ b := by
  fun_induction readSorted a b with
  | case1 b => simp
  | case2 a ha => simp
  | case3 x a y b h ih => simp [ih, or_assoc]
  | case4 x a y b h ih => simp [ih, or_left_comm]

theorem readSorted_sorted (ha : a.Pairwise fun x y => x.1 ≤ y.1)
    (hb : b.Pairwise fun x y => x.1 ≤ y.1) : (readSorted a b).Pairwise fun x y => x.1 ≤ y.1 := by
  fun_induction readSorted a b with
  | case1 b => exact hb
  | case2 a h => exact ha
  | case3 x a y b h ih =>
    have ha' := pairwise_cons.mp ha
    have hb' := pairwise_cons.mp hb
    simp only [ResidentRange.less, decide_eq_true_eq] at h
    refine pairwise_cons.mpr ⟨fun r hr => ?_, ih ha'.2 hb⟩
    rcases mem_readSorted.mp hr with hr | hr
    · exact ha'.1 r hr
    rcases mem_cons.mp hr with rfl | hr
    · omega
    have := hb'.1 r hr
    omega
  | case4 x a y b h ih =>
    have ha' := pairwise_cons.mp ha
    have hb' := pairwise_cons.mp hb
    simp only [ResidentRange.less, decide_eq_true_eq] at h
    refine pairwise_cons.mpr ⟨fun r hr => ?_, ih ha hb'.2⟩
    rcases mem_readSorted.mp hr with hr | hr
    · rcases mem_cons.mp hr with rfl | hr
      · omega
      · have := ha'.1 r hr
        omega
    · exact hb'.1 r hr

theorem Ordered.firsts (h : Ordered l) : l.Pairwise fun a b => a.1 ≤ b.1 := by
  refine h.sorted.imp_of_mem fun {a b} ha _ hab => ?_
  have := h.nonempty a ha
  omega

theorem mergeSortedResidentRanges_spec (ha : Ordered a) (hb : Ordered b) (hPa : Ends P a) (hPb : Ends P b) :
    Ordered (mergeSortedResidentRanges a b) ∧ Ends P (mergeSortedResidentRanges a b) ∧
      ∀ x, Covers (mergeSortedResidentRanges a b) x ↔ Covers a x ∨ Covers b x := by
  have hmem : ∀ r, r ∈ readSorted a b → r ∈ a ++ b := fun r hr =>
    mem_append.mpr (mem_readSorted.mp hr)
  have hn : ∀ r ∈ readSorted a b, r.1 < r.2 := by
    intro r hr
    rcases mem_readSorted.mp hr with hr | hr
    · exact ha.nonempty r hr
    · exact hb.nonempty r hr
  obtain ⟨h1, h2, h3⟩ := written_spec (P := P) hn (readSorted_sorted ha.firsts hb.firsts)
    fun r hr => ends_append.mpr ⟨hPa, hPb⟩ r (hmem r hr)
  refine ⟨h1, h2, fun x => (h3 x).trans ?_⟩
  rw [← covers_append]
  simp only [Covers, mem_readSorted, mem_append]

/-! ## The difference -/

/-- What `visit_resident_difference` emits of one range, from `cursor` on. -/
structure Gaps (P : Nat → Prop) (second cursor : Nat) (b out : List ResidentRange) : Prop where
  ordered : Ordered out
  ends : Ends P out
  within : ∀ r ∈ out, cursor ≤ r.1 ∧ r.2 ≤ second
  covers : ∀ x, Covers out x ↔ cursor ≤ x ∧ x < second ∧ ¬ Covers b x

theorem gaps_last (hb : ∀ r ∈ b, second ≤ r.1) (hs : P second) (hc : P cursor) :
    Gaps P second cursor b (if cursor < second then [(cursor, second)] else []) := by
  have hnot : ∀ x, x < second → ¬ Covers b x := by
    rintro x hx ⟨r, hr, h, -⟩
    have := hb r hr
    omega
  split
  · next h =>
    refine ⟨⟨by simpa using h, by simp⟩, by simpa [Ends] using ⟨hc, hs⟩, by simp, fun x => ?_⟩
    simp only [covers_cons, covers_nil, or_false]
    exact ⟨fun hx => ⟨hx.1, hx.2, hnot x hx.2⟩, fun hx => ⟨hx.1, hx.2.1⟩⟩
  refine ⟨ordered_nil, by simp [Ends], by simp, fun x => ?_⟩
  simp only [covers_nil, false_iff]
  omega

theorem emitGaps_spec (hb : Ordered b) (hPb : Ends P b) (hs : P second) (hc : P cursor) :
    Gaps P second cursor b (emitGaps second cursor b) := by
  induction b generalizing cursor with
  | nil => exact gaps_last (by simp) hs hc
  | cons r b ih =>
    obtain ⟨hr, hrest, hb'⟩ := ordered_cons.mp hb
    obtain ⟨hPr, hPb'⟩ := ends_cons.mp hPb
    unfold emitGaps
    split
    · next hlt =>
      -- the gap before `r`
      have hgap : Gaps P (min second r.1) cursor [] (if r.1 > cursor then
          [(cursor, min second r.1)] else []) := by
        rw [Nat.min_eq_right (by omega)]
        exact gaps_last (by simp) hPr.1 hc
      have hnext : P (max cursor r.2) := by
        rcases Nat.le_total cursor r.2 with h | h
        · rw [Nat.max_eq_right h]
          exact hPr.2
        rw [Nat.max_eq_left h]
        exact hc
      have hbeyond : ∀ x, x < r.2 → ¬ Covers b x := by
        rintro x hx ⟨q, hq, h, -⟩
        have := hrest q hq
        omega
      dsimp only
      split
      · next hend =>
        refine ⟨hgap.ordered, hgap.ends, fun q hq => ?_, fun x => ?_⟩
        · have := hgap.within q hq
          omega
        · rw [hgap.covers, covers_cons]
          constructor
          · rintro ⟨h1, h2, -⟩
            refine ⟨h1, by omega, not_or.mpr ⟨by omega, hbeyond x (by omega)⟩⟩
          · rintro ⟨h1, h2, h3⟩
            exact ⟨h1, by omega, covers_nil x⟩
      next hmore =>
      have htail := ih hb' hPb' hnext
      refine ⟨⟨fun q hq => ?_, ?_⟩, ends_append.mpr ⟨hgap.ends, htail.ends⟩, fun q hq => ?_, fun x => ?_⟩
      · rcases mem_append.mp hq with hq | hq
        · exact hgap.ordered.nonempty q hq
        · exact htail.ordered.nonempty q hq
      · refine pairwise_append.mpr ⟨hgap.ordered.sorted, htail.ordered.sorted, ?_⟩
        intro q hq q' hq'
        have h1 := hgap.within q hq
        have h2 := htail.within q' hq'
        omega
      · rcases mem_append.mp hq with hq | hq
        · have := hgap.within q hq
          omega
        · have := htail.within q hq
          omega
      · rw [covers_append, hgap.covers, htail.covers, covers_cons]
        constructor
        · rintro (⟨h1, h2, -⟩ | ⟨h1, h2, h3⟩)
          · exact ⟨h1, by omega, not_or.mpr ⟨by omega, hbeyond x (by omega)⟩⟩
          · exact ⟨by omega, h2, not_or.mpr ⟨by omega, h3⟩⟩
        · rintro ⟨h1, h2, h3⟩
          obtain ⟨h4, h5⟩ := not_or.mp h3
          rcases Nat.lt_or_ge x r.1 with h | h
          · exact .inl ⟨h1, by omega, covers_nil x⟩
          · exact .inr ⟨by omega, h2, h5⟩
    · next hge =>
      refine gaps_last (fun q hq => ?_) hs hc
      rcases mem_cons.mp hq with rfl | hq
      · omega
      have := hrest q hq
      omega

theorem dropWhile_spec (hb : Ordered b) (hP : Ends P b) (first : Nat) :
    Ordered (b.dropWhile fun r => r.2 ≤ first) ∧ Ends P (b.dropWhile fun r => r.2 ≤ first) ∧
      ∀ x, first ≤ x → (Covers (b.dropWhile fun r => r.2 ≤ first) x ↔ Covers b x) := by
  induction b with
  | nil => exact ⟨ordered_nil, hP, fun x _ => Iff.rfl⟩
  | cons r b ih =>
    obtain ⟨-, -, hb'⟩ := ordered_cons.mp hb
    rw [dropWhile_cons]
    split
    · next h =>
      obtain ⟨h1, h2, h3⟩ := ih hb' (ends_cons.mp hP).2
      refine ⟨h1, h2, fun x hx => (h3 x hx).trans ?_⟩
      have hskip : ¬ (r.1 ≤ x ∧ x < r.2) := by
        have := of_decide_eq_true h
        omega
      simp [covers_cons, hskip]
    · exact ⟨hb, hP, fun x _ => Iff.rfl⟩

theorem residentDifference_spec (ha : Ordered a) (hb : Ordered b) (hPa : Ends P a) (hPb : Ends P b) :
    Ordered (residentDifference a b) ∧ Ends P (residentDifference a b) ∧
      ∀ x, Covers (residentDifference a b) x ↔ Covers a x ∧ ¬ Covers b x := by
  -- nothing is emitted before the first range of `a`
  suffices h : Ordered _ ∧ Ends P _ ∧ (∀ lo, (∀ r ∈ a, lo ≤ r.1) → ∀ r ∈ residentDifference a b, lo ≤ r.1) ∧
      ∀ x, Covers (residentDifference a b) x ↔ Covers a x ∧ ¬ Covers b x from
    ⟨h.1, h.2.1, h.2.2.2⟩
  induction a generalizing b with
  | nil => exact ⟨ordered_nil, by simp [residentDifference, Ends], by simp [residentDifference],
      fun x => by simp [residentDifference, covers_nil]⟩
  | cons r a ih =>
    obtain ⟨hr, hrest, ha'⟩ := ordered_cons.mp ha
    obtain ⟨hPr, hPa'⟩ := ends_cons.mp hPa
    obtain ⟨hd1, hd2, hd3⟩ := dropWhile_spec hb hPb r.1
    obtain ⟨h1, h2, h3, h4⟩ := ih ha' hd1 hPa' hd2
    have hg := emitGaps_spec hd1 hd2 hPr.2 hPr.1
    simp only [residentDifference]
    refine ⟨⟨fun q hq => ?_, ?_⟩, ends_append.mpr ⟨hg.ends, h2⟩, fun lo hlo q hq => ?_, fun x => ?_⟩
    · rcases mem_append.mp hq with hq | hq
      · exact hg.ordered.nonempty q hq
      · exact h1.nonempty q hq
    · refine pairwise_append.mpr ⟨hg.ordered.sorted, h1.sorted, fun q hq q' hq' => ?_⟩
      have h5 := hg.within q hq
      have h6 := h3 r.2 hrest q' hq'
      omega
    · rcases mem_append.mp hq with hq | hq
      · have h5 := hg.within q hq
        have h6 := hlo r (by simp)
        omega
      · refine h3 lo (fun q hq => ?_) q hq
        exact hlo q (by simp [hq])
    · rw [covers_append, hg.covers, h4, covers_cons]
      constructor
      · rintro (⟨h5, h6, h7⟩ | ⟨h5, h6⟩)
        · exact ⟨.inl ⟨h5, h6⟩, (hd3 x h5).not.mp h7⟩
        · obtain ⟨q, hq, h7, -⟩ := id h5
          have := hrest q hq
          exact ⟨.inr h5, (hd3 x (by omega)).not.mp h6⟩
      · rintro ⟨⟨h5, h6⟩ | h5, h7⟩
        · exact .inl ⟨h5, h6, (hd3 x h5).not.mpr h7⟩
        · obtain ⟨q, hq, h8, -⟩ := id h5
          have := hrest q hq
          exact .inr ⟨h5, (hd3 x (by omega)).not.mpr h7⟩

/-! ## Extents -/

theorem extent_ok (h : Ordered l) (hmax : Ends (· ≤ uint64Max) l) : ∃ n, extent l = .ok n := by
  suffices hgen : ∀ acc, (∀ r ∈ l, acc ≤ r.1) → ∃ n,
      l.foldlM (fun result r => do
        throwIf (r.2 - r.1 > uint64Max - result) (.overflowError "resident extent overflow")
        return result + (r.2 - r.1)) acc = .ok n from hgen 0 (by simp)
  induction l with
  | nil => exact fun acc _ => ⟨acc, rfl⟩
  | cons r l ih =>
    intro acc hacc
    obtain ⟨hr, hrest, h'⟩ := ordered_cons.mp h
    obtain ⟨hmr, hm'⟩ := ends_cons.mp hmax
    have h1 := hacc r (by simp)
    have hfit : ¬ r.2 - r.1 > uint64Max - acc := by omega
    obtain ⟨n, hn⟩ := ih h' hm' (acc + (r.2 - r.1)) fun q hq => by
      have := hrest q hq
      omega
    refine ⟨n, ?_⟩
    rw [foldlM_cons, throwIf_neg hfit]
    exact hn

end VoidInfer.Exl3
