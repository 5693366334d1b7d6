/-
  Reserved host payloads (`src/exl3/reserved_host_payload_union.h`): the union of tracked allocations and what of it
  lies outside two page unions. An owner is its identity, pointer and control block in one; subtractions are those of
  64-bit words.

  Each allocation is swept once with both page unions, in the order of their first addresses; `bytesOutside_ok` says
  what the sweep counts.
-/
import VoidInfer.Exl3.ResidentNormal
import VoidInfer.Lib.PointCount

namespace VoidInfer.Exl3
open List

open PointCount

/-- `ReservedHostPayloadUnion::Entry`. -/
structure PayloadEntry where
  owner : Nat
  plane : Nat
  first : Nat
  last : Nat

namespace ReservedHostPayload

/-! ## The union -/

/-- The loop of `add`: whether the allocation is in the union. -/
def addScan (entry : PayloadEntry) : List PayloadEntry → Except Exn Bool
  | [] => return false
  | prior :: rest =>
    if entry.owner = prior.owner ∧ entry.plane = prior.plane then do
      throwIf (entry.first ≠ prior.first ∨ entry.last ≠ prior.last)
        (.invalidArgument "reserved host payload changed allocation")
      return true
    else do
      throwIf (entry.first < prior.last ∧ prior.first < entry.last)
        (.invalidArgument "reserved host payload overlapping identities")
      addScan entry rest

def add (capacity : Nat) (entries : List PayloadEntry) (owner : Option Nat) (plane data bytes : Nat) :
    Except Exn (List PayloadEntry) :=
  match owner with
  | none => throw (.invalidArgument "reserved host payload identity/extent")
  | some owner => do
    throwIf (data = 0 ∨ bytes = 0 ∨ bytes > uint64Max - data) (.invalidArgument "reserved host payload identity/extent")
    let known ← addScan ⟨owner, plane, data, data + bytes⟩ entries
    if known then return entries
    else do
      throwIf (entries.length = capacity) (.lengthError "reserved host payload reconciliation capacity")
      return entries ++ [⟨owner, plane, data, data + bytes⟩]

/-- The check that a list is a page union. -/
def requireUnion : Nat → List ResidentRange → Except Exn Unit
  | _, [] => return ()
  | previous, range :: rest => do
    throwIf (range.2 ≤ range.1 ∨ range.1 < previous) (.invalidArgument "reserved payload resident ranges not a union")
    requireUnion range.2 rest

/-- `a - b` on 64-bit words. -/
def wordSub (a b : Nat) : Nat := (a + 2 ^ 64 - b) % 2 ^ 64

/-- The loop over both unions for one allocation, with `covered_end` and `remaining`. -/
def sweep (last : Nat) : List ResidentRange → Nat → Nat → Nat
  | [], _, remaining => remaining
  | range :: rest, coveredEnd, remaining =>
    if range.1 ≥ last then remaining
    else if min last range.2 > max coveredEnd range.1 then
      sweep last rest (min last range.2) (wordSub remaining (min last range.2 - max coveredEnd range.1))
    else sweep last rest coveredEnd remaining

/-- The order in which the loop reads the unions. -/
def readUnions (resident incoming : List ResidentRange) : List ResidentRange :=
  resident.merge incoming fun a b => decide (a.1 ≤ b.1)

/-- `remaining` of an allocation. -/
def remaining (resident incoming : List ResidentRange) (entry : PayloadEntry) : Nat :=
  sweep entry.last (readUnions resident incoming) entry.first (entry.last - entry.first)

def bytesOutside (entries : List PayloadEntry) (resident incoming : List ResidentRange) : Except Exn Nat := do
  requireUnion 0 resident
  requireUnion 0 incoming
  entries.foldlM (fun total entry => do
    throwIf (remaining resident incoming entry > uint64Max - total) (.overflowError "reserved payload uncovered bytes")
    return total + remaining resident incoming entry) 0

/-! ## What the sweep counts -/

/-- One more than the largest address. -/
def addressBound : Nat := uint64Max + 1

/-- The bytes of an allocation with a property. -/
noncomputable def entrySize (entry : PayloadEntry) (p : Nat → Prop) : Nat :=
  size addressBound fun x => (entry.first ≤ x ∧ x < entry.last) ∧ p x

theorem wordSub_eq {a b : Nat} (hle : b ≤ a) (ha : a ≤ uint64Max) : wordSub a b = a - b := by
  have hmax : uint64Max < 2 ^ 64 := by decide
  unfold wordSub
  have hsub : a + 2 ^ 64 - b = a - b + 2 ^ 64 := by omega
  rw [hsub, Nat.add_mod_right, Nat.mod_eq_of_lt (by omega)]

-- unfolding would count to the word size
attribute [irreducible] wordSub

theorem requireUnion_ok {l : List ResidentRange} : ∀ {previous : Nat}, Ordered l → (∀ r ∈ l, previous ≤ r.1) →
    requireUnion previous l = .ok () := by
  induction l with
  | nil =>
    intro previous _ _
    rfl
  | cons r l ih =>
    intro previous h hprevious
    obtain ⟨hr, hafter, hrest⟩ := ordered_cons.mp h
    have hfirst := hprevious r (by simp)
    rw [requireUnion, throwIf_neg (by omega)]
    exact ih hrest hafter

variable {incoming resident : List ResidentRange} {entry : PayloadEntry}
  {entries : List PayloadEntry}

theorem covers_readUnions {x : Nat} :
    Covers (readUnions resident incoming) x ↔ Covers resident x ∨ Covers incoming x := by
  rw [← covers_append]
  constructor
  · intro h
    obtain ⟨r, hr, hx⟩ := h
    exact ⟨r, mem_append.mpr (mem_merge.mp hr), hx⟩
  · intro h
    obtain ⟨r, hr, hx⟩ := h
    exact ⟨r, mem_merge.mpr (mem_append.mp hr), hx⟩

theorem readUnions_sorted (hresident : Ordered resident)
    (hincoming : Ordered incoming) : (readUnions resident incoming).Pairwise fun a b => a.1 ≤ b.1 := by
  have hfirsts : ∀ {l : List ResidentRange}, Ordered l → l.Pairwise fun a b => decide (a.1 ≤ b.1) = true := by
    intro l hl
    exact hl.firsts.imp fun h => decide_eq_true h
  have hmerge : (readUnions resident incoming).Pairwise fun a b => decide (a.1 ≤ b.1) = true := by
    refine pairwise_merge ?_ ?_ _ _ (hfirsts hresident) (hfirsts hincoming)
    · intro a b c hab hbc
      rw [decide_eq_true_iff] at hab hbc ⊢
      exact Nat.le_trans hab hbc
    intro a b
    rw [Bool.or_eq_true, decide_eq_true_iff, decide_eq_true_iff]
    exact Nat.le_total _ _
  exact hmerge.imp fun h => of_decide_eq_true h

/-- The sweep leaves the bytes before `covered_end` that it has passed, and those after it that no range covers. -/
theorem sweep_eq {last : Nat} (hlast : last ≤ uint64Max) (l : List ResidentRange) : ∀ passed coveredEnd,
    l.Pairwise (fun a b => a.1 ≤ b.1) → coveredEnd ≤ last → passed + (last - coveredEnd) ≤ uint64Max →
    sweep last l coveredEnd (passed + (last - coveredEnd)) =
      passed + size addressBound (fun x => (coveredEnd ≤ x ∧ x < last) ∧ ¬ Covers l x) := by
  have hbound : last ≤ addressBound := by
    unfold addressBound
    omega
  induction l with
  | nil =>
    intro passed coveredEnd _ _ _
    have hall : size addressBound (fun x => (coveredEnd ≤ x ∧ x < last) ∧ ¬ Covers [] x) = last - coveredEnd := by
      rw [← size_interval hbound]
      apply size_congr
      intro x _
      exact ⟨fun h => h.1, fun h => ⟨h, covers_nil x⟩⟩
    rw [hall, sweep]
  | cons r l ih =>
    intro passed coveredEnd hsorted hcovered hfits
    obtain ⟨hfirst, hsorted⟩ := pairwise_cons.mp hsorted
    have hlater : ∀ x, Covers l x → r.1 ≤ x := by
      intro x hx
      obtain ⟨q, hq, hle, _⟩ := hx
      exact Nat.le_trans (hfirst q hq) hle
    rw [sweep]
    split
    · -- the allocation ends before this range and every later one
      next hbeyond =>
      have hall : size addressBound (fun x => (coveredEnd ≤ x ∧ x < last) ∧ ¬ Covers (r :: l) x) = last - coveredEnd := by
        rw [← size_interval hbound]
        apply size_congr
        intro x _
        refine ⟨fun h => h.1, fun h => ⟨h, fun hx => ?_⟩⟩
        rcases covers_cons.mp hx with hx | hx
        · omega
        have := hlater x hx
        omega
      rw [hall]
    next hstarts =>
    split
    · next hcovers =>
      have hword : wordSub (passed + (last - coveredEnd)) (min last r.2 - max coveredEnd r.1) =
          passed + (max coveredEnd r.1 - coveredEnd) + (last - min last r.2) := by
        rw [wordSub_eq (by omega) hfits]
        omega
      rw [hword, ih _ _ hsorted (by omega) (by omega)]
      -- the bytes up to the range are free, those of the range are not
      have hbefore : size addressBound (fun x => ((coveredEnd ≤ x ∧ x < last) ∧ ¬ Covers (r :: l) x) ∧ x < max coveredEnd r.1) =
          max coveredEnd r.1 - coveredEnd := by
        rw [← size_interval (show max coveredEnd r.1 ≤ addressBound by omega)]
        apply size_congr
        intro x _
        refine ⟨fun h => ⟨h.1.1.1, h.2⟩, fun h => ⟨⟨⟨h.1, by omega⟩, fun hx => ?_⟩, h.2⟩⟩
        rcases covers_cons.mp hx with hx | hx
        · omega
        have := hlater x hx
        omega
      have hafter : size addressBound (fun x => ((coveredEnd ≤ x ∧ x < last) ∧ ¬ Covers (r :: l) x) ∧ ¬ x < max coveredEnd r.1) =
          size addressBound (fun x => (min last r.2 ≤ x ∧ x < last) ∧ ¬ Covers l x) := by
        apply size_congr
        intro x _
        rw [covers_cons]
        constructor
        · intro h
          exact ⟨⟨by omega, h.1.1.2⟩, fun hx => h.1.2 (.inr hx)⟩
        · intro h
          refine ⟨⟨⟨by omega, h.1.2⟩, fun hx => ?_⟩, by omega⟩
          rcases hx with hx | hx
          · omega
          · exact h.2 hx
      rw [size_split (fun x => (coveredEnd ≤ x ∧ x < last) ∧ ¬ Covers _ x) (fun x => x < max coveredEnd r.1),
        hbefore, hafter, Nat.add_assoc]
    next hmisses =>
    rw [ih _ _ hsorted hcovered hfits]
    congr 1
    apply size_congr
    intro x _
    rw [covers_cons]
    constructor
    · intro h
      refine ⟨h.1, fun hx => ?_⟩
      rcases hx with hx | hx
      · omega
      · exact h.2 hx
    · intro h
      exact ⟨h.1, fun hx => h.2 (.inr hx)⟩

theorem remaining_eq (hresident : Ordered resident) (hincoming : Ordered incoming)
    (hentry : entry.first ≤ entry.last) (hlast : entry.last ≤ uint64Max) :
    remaining resident incoming entry = entrySize entry fun x => ¬ (Covers resident x ∨ Covers incoming x) := by
  have hsweep := sweep_eq hlast _ 0 entry.first (readUnions_sorted hresident hincoming) hentry (by omega)
  rw [Nat.zero_add, Nat.zero_add] at hsweep
  unfold remaining entrySize
  rw [hsweep]
  apply size_congr
  intro x _
  rw [covers_readUnions]

/-! ## Disjoint allocations -/

/-- The addresses of the allocations. -/
def Tracked (entries : List PayloadEntry) (x : Nat) : Prop := ∃ e ∈ entries, e.first ≤ x ∧ x < e.last

/-- What `add` keeps: allocations in the address space that do not overlap. -/
structure Separated (entries : List PayloadEntry) : Prop where
  valid : ∀ e ∈ entries, e.first < e.last ∧ e.last ≤ uint64Max
  disjoint : entries.Pairwise fun a b => ∀ x, ¬ ((a.first ≤ x ∧ x < a.last) ∧ b.first ≤ x ∧ x < b.last)

theorem separated_cons {e : PayloadEntry} (h : Separated (e :: entries)) :
    (e.first < e.last ∧ e.last ≤ uint64Max) ∧ (∀ x, e.first ≤ x ∧ x < e.last → ¬ Tracked entries x) ∧ Separated entries := by
  obtain ⟨hdisjoint, hrest⟩ := pairwise_cons.mp h.disjoint
  refine ⟨h.valid e (by simp), fun x hx htracked => ?_, fun b hb => h.valid b (by simp [hb]), hrest⟩
  obtain ⟨b, hb, hbx⟩ := htracked
  exact hdisjoint b hb x ⟨hx, hbx⟩

theorem sum_entrySize (h : Separated entries) (p : Nat → Prop) :
    (entries.map fun e => entrySize e p).sum = size addressBound fun x => Tracked entries x ∧ p x := by
  induction entries with
  | nil =>
    rw [map_nil, sum_nil, size_none]
    intro x _ hx
    obtain ⟨⟨e, he, _⟩, _⟩ := hx
    cases he
  | cons e entries ih =>
    obtain ⟨_, hapart, hrest⟩ := separated_cons h
    rw [map_cons, sum_cons, ih hrest, entrySize, ← size_or]
    · apply size_congr
      intro x _
      have hcons : Tracked (e :: entries) x ↔ (e.first ≤ x ∧ x < e.last) ∨ Tracked entries x := by
        simp [Tracked]
      rw [hcons, or_and_right]
    intro x hx hother
    exact hapart x hx.1 hother.1

theorem sum_entrySize_le (h : Separated entries) (p : Nat → Prop) :
    (entries.map fun e => entrySize e p).sum ≤ uint64Max := by
  rw [sum_entrySize h]
  refine size_le_of_lt (Nat.le_succ uint64Max) fun x hx => ?_
  obtain ⟨⟨e, he, _, hlt⟩, _⟩ := hx
  exact Nat.lt_of_lt_of_le hlt (h.valid e he).2

theorem foldlM_remaining (resident incoming : List ResidentRange) (entries : List PayloadEntry) : ∀ total,
    total + (entries.map (remaining resident incoming)).sum ≤ uint64Max →
    entries.foldlM (fun total entry => do
      throwIf (remaining resident incoming entry > uint64Max - total) (.overflowError "reserved payload uncovered bytes")
      return total + remaining resident incoming entry) total =
      (.ok (total + (entries.map (remaining resident incoming)).sum) : Except Exn Nat) := by
  induction entries with
  | nil =>
    intro total _
    rfl
  | cons e entries ih =>
    intro total hfits
    rw [map_cons, sum_cons] at hfits ⊢
    rw [foldlM_cons, throwIf_neg (by omega), ← Nat.add_assoc]
    exact ih _ (by omega)

theorem bytesOutside_ok (h : Separated entries) (hresident : Ordered resident) (hincoming : Ordered incoming) :
    bytesOutside entries resident incoming =
      .ok (entries.map fun e => entrySize e fun x => ¬ (Covers resident x ∨ Covers incoming x)).sum := by
  have hmap : entries.map (remaining resident incoming) =
      entries.map fun e => entrySize e fun x => ¬ (Covers resident x ∨ Covers incoming x) := by
    apply map_congr_left
    intro e he
    have hvalid := h.valid e he
    exact remaining_eq hresident hincoming (Nat.le_of_lt hvalid.1) hvalid.2
  have hsum := sum_entrySize_le h fun x => ¬ (Covers resident x ∨ Covers incoming x)
  have hfold := foldlM_remaining resident incoming entries 0 (by rw [hmap]; omega)
  unfold bytesOutside
  rw [requireUnion_ok hresident fun r _ => Nat.zero_le _, requireUnion_ok hincoming fun r _ => Nat.zero_le _]
  rw [hmap, Nat.zero_add] at hfold
  exact hfold

theorem addScan_false (h : addScan entry entries = .ok false) :
    ∀ prior ∈ entries, ¬ (entry.owner = prior.owner ∧ entry.plane = prior.plane) ∧
      ¬ (entry.first < prior.last ∧ prior.first < entry.last) := by
  induction entries with
  | nil => simp
  | cons prior rest ih =>
    rw [addScan] at h
    split at h
    · obtain ⟨_, _, h⟩ := bind_ok h
      exact absurd h (by simp [pure, Except.pure])
    next hother =>
    obtain ⟨_, hthrow, h⟩ := bind_ok h
    intro q hq
    rcases mem_cons.mp hq with rfl | hq
    · exact ⟨hother, (throwIf_ok (u := ())).mp hthrow⟩
    · exact ih h q hq

theorem addScan_true (h : addScan entry entries = .ok true) :
    ∃ prior ∈ entries, entry.owner = prior.owner ∧ entry.plane = prior.plane := by
  induction entries with
  | nil => exact absurd h (by simp [addScan, pure, Except.pure])
  | cons prior rest ih =>
    rw [addScan] at h
    split at h
    · next hsame => exact ⟨prior, by simp, hsame⟩
    obtain ⟨_, _, h⟩ := bind_ok h
    obtain ⟨q, hq, hsame⟩ := ih h
    exact ⟨q, by simp [hq], hsame⟩

theorem addScan_ok
    (h : ∀ prior ∈ entries, ¬ (entry.owner = prior.owner ∧ entry.plane = prior.plane) ∧
      ¬ (entry.first < prior.last ∧ prior.first < entry.last)) : addScan entry entries = .ok false := by
  induction entries with
  | nil => rfl
  | cons prior rest ih =>
    obtain ⟨hother, hapart⟩ := h prior (by simp)
    rw [addScan, if_neg hother, throwIf_neg hapart]
    exact ih fun q hq => h q (by simp [hq])

/-- A union that calls of `add` have made. -/
inductive Built (capacity : Nat) : List PayloadEntry → Prop where
  | empty : Built capacity []
  | add {entries entries' : List PayloadEntry} {owner : Option Nat} {plane data bytes : Nat} (h : Built capacity entries)
      (hadd : add capacity entries owner plane data bytes = .ok entries') : Built capacity entries'

theorem Built.separated {capacity : Nat} (h : Built capacity entries) : Separated entries := by
  induction h with
  | empty => exact ⟨by simp, List.Pairwise.nil⟩
  | @add entries entries' owner plane data bytes _ hadd ih =>
    unfold ReservedHostPayload.add at hadd
    split at hadd
    · exact absurd hadd (by simp [throw, throwThe, MonadExceptOf.throw])
    next id =>
    obtain ⟨hvalid, hadd⟩ := check_ok hadd
    obtain ⟨known, hscan, hadd⟩ := bind_ok hadd
    split at hadd
    · rw [← Except.ok.inj hadd]
      exact ih
    next hnew =>
    obtain ⟨_, _, hadd⟩ := bind_ok hadd
    rw [← Except.ok.inj hadd]
    rw [Bool.not_eq_true] at hnew
    rw [hnew] at hscan
    refine ⟨fun e he => ?_, pairwise_append.mpr ⟨ih.disjoint, pairwise_singleton _ _, fun e he e' he' x hx => ?_⟩⟩
    · rcases mem_append.mp he with he | he
      · exact ih.valid e he
      · rw [mem_singleton.mp he]
        exact ⟨by show data < data + bytes; omega, by show data + bytes ≤ uint64Max; omega⟩
    · have hapart := (addScan_false hscan e he).2
      rw [mem_singleton.mp he'] at hx
      exact hapart ⟨Nat.lt_of_le_of_lt hx.2.1 hx.1.2, Nat.lt_of_le_of_lt hx.1.1 hx.2.2⟩

end ReservedHostPayload
end VoidInfer.Exl3
