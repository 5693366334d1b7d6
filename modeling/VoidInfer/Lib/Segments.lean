import Mathlib.Data.List.Basic

/-
  Segments of a list: `seg base n l` is the part of `l` from `base` on, at most `n` long. A segment of a segment is a
  segment, and a list is determined by its segments of one length.
-/

namespace Segments
open List

variable {α : Type}

/-- At most `n` elements of `l` from position `base` on. -/
def seg (base n : Nat) (l : List α) : List α := (l.drop base).take n

theorem length_seg (base n : Nat) (l : List α) : (seg base n l).length = min n (l.length - base) := by
  simp [seg]

theorem getElem?_seg (base n : Nat) (l : List α) (i : Nat) :
    (seg base n l)[i]? = if i < n then l[base + i]? else none := by
  simp only [seg, getElem?_take, getElem?_drop]

theorem seg_nil_of_le {base : Nat} {l : List α} (h : l.length ≤ base) (n : Nat) : seg base n l = [] := by
  simp [seg, drop_eq_nil_of_le h]

theorem seg_zero_of_le {n : Nat} {l : List α} (h : l.length ≤ n) : seg 0 n l = l := by
  simp [seg, take_of_length_le h]

theorem seg_seg {base n i m : Nat} (h : i + m ≤ n) (l : List α) : seg i m (seg base n l) = seg (base + i) m l := by
  refine ext_getElem? fun k => ?_
  simp only [getElem?_seg]
  split
  · rw [if_pos (by omega), Nat.add_assoc]
  · rfl

theorem seg_take_of_le {base n k : Nat} (h : base + n ≤ k) (l : List α) : seg base n (l.take k) = seg base n l := by
  refine ext_getElem? fun j => ?_
  simp only [getElem?_seg, getElem?_take]
  split
  · rw [if_pos (by omega)]
  · rfl

theorem take_add_seg (base n : Nat) (l : List α) : l.take (base + n) = l.take base ++ seg base n l :=
  take_add

theorem seg_min_length (base n : Nat) (l : List α) : seg base (min n (l.length - base)) l = seg base n l := by
  refine ext_getElem? fun k => ?_
  simp only [getElem?_seg]
  split
  · rw [if_pos (by omega)]
  split
  · exact (getElem?_eq_none (by omega)).symm
  · rfl

theorem ext_seg {c k : Nat} {l l' : List α} (hc : 0 < c) (hl : l.length ≤ k * c)
    (hl' : l'.length ≤ k * c) (h : ∀ i, i < k → seg (i * c) c l = seg (i * c) c l') : l = l' := by
  refine ext_getElem? fun j => ?_
  rcases Nat.lt_or_ge j _ with hj | hj
  · have hi : j / c < k := Nat.div_lt_of_lt_mul (by rw [Nat.mul_comm]; exact hj)
    have hjc : j = j / c * c + j % c := by
      have := Nat.div_add_mod j c
      rw [Nat.mul_comm] at this
      omega
    have hmod := Nat.mod_lt j hc
    have := congrArg (fun s => s[j % c]?) (h _ hi)
    simp only [getElem?_seg, if_pos hmod] at this
    rw [hjc]
    exact this
  · rw [getElem?_eq_none (by omega), getElem?_eq_none (by omega)]

end Segments
