/-
  How many points below a bound have a property. Sizes of sets of addresses are compared by splitting them
  (`size_split`) rather than by arithmetic on the ends of ranges.
-/
import Mathlib.Order.Interval.Finset.Nat

namespace PointCount

open Classical in
/-- The points below `n` with property `p`. -/
noncomputable def points (n : Nat) (p : Nat → Prop) : Finset Nat := (Finset.range n).filter p

/-- The number of points below `n` with property `p`. -/
noncomputable def size (n : Nat) (p : Nat → Prop) : Nat := (points n p).card

variable {n : Nat} {p q : Nat → Prop}

theorem mem_points {x : Nat} : x ∈ points n p ↔ x < n ∧ p x := by
  classical
  unfold points
  rw [Finset.mem_filter, Finset.mem_range]

theorem size_congr (h : ∀ x, x < n → (p x ↔ q x)) : size n p = size n q := by
  unfold size
  congr 1
  ext x
  rw [mem_points, mem_points]
  exact and_congr_right (h x)

theorem size_mono (h : ∀ x, p x → q x) : size n p ≤ size n q := by
  apply Finset.card_le_card
  intro x hx
  rw [mem_points] at hx ⊢
  exact ⟨hx.1, h x hx.2⟩

theorem size_none (h : ∀ x, x < n → ¬ p x) : size n p = 0 := by
  apply Finset.card_eq_zero.mpr
  apply Finset.eq_empty_of_forall_notMem
  intro x hx
  obtain ⟨hlt, hp⟩ := mem_points.mp hx
  exact h x hlt hp

theorem size_or (h : ∀ x, p x → ¬ q x) : size n (fun x => p x ∨ q x) = size n p + size n q := by
  unfold size
  rw [← Finset.card_union_of_disjoint]
  · congr 1
    ext x
    rw [Finset.mem_union, mem_points, mem_points, mem_points, and_or_left]
  rw [Finset.disjoint_left]
  intro x hp hq
  exact h x (mem_points.mp hp).2 (mem_points.mp hq).2

theorem size_split (p q : Nat → Prop) : size n p = size n (fun x => p x ∧ q x) + size n (fun x => p x ∧ ¬ q x) := by
  rw [← size_or fun x hx hother => hother.2 hx.2]
  apply size_congr
  intro x _
  rw [← and_or_left]
  exact (and_iff_left (Classical.em (q x))).symm

theorem size_interval {a b : Nat} (hb : b ≤ n) : size n (fun x => a ≤ x ∧ x < b) = b - a := by
  unfold size
  rw [← Nat.card_Ico]
  congr 1
  ext x
  rw [mem_points, Finset.mem_Ico]
  constructor
  · intro h
    exact h.2
  · intro h
    exact ⟨by omega, h⟩

theorem size_le_of_lt {m : Nat} (hm : m ≤ n) (h : ∀ x, p x → x < m) : size n p ≤ m := by
  have hle : size n p ≤ size n (fun x => 0 ≤ x ∧ x < m) := size_mono fun x hx => ⟨Nat.zero_le x, h x hx⟩
  rw [size_interval hm] at hle
  exact hle

-- a bound is the size of an address space, so nothing may list the points
attribute [irreducible] points size

end PointCount
