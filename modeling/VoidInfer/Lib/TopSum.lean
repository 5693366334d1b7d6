/-
  Sums of the largest elements of a list. `PartialSorts sort f` says what a partial sort promises: `sort k l` is `l` in
  another order, with `k` elements first that no later one exceeds. Their sum is the largest that `k` elements can have
  (`PartialSorts.sum_le`).
-/
import Mathlib.Algebra.Order.BigOperators.Group.List
import Mathlib.Algebra.Order.Group.Defs
import Mathlib.Data.List.MinMax
import Mathlib.Data.List.Perm.Subperm
import Mathlib.Tactic.Abel
import Mathlib.Algebra.Ring.Int.Defs
import Mathlib.Algebra.Ring.Nat

namespace TopSum
open List

variable {α β : Type} [LinearOrder β] {f : α → β}

/-- `sort k l` puts `k` largest elements first. -/
structure PartialSorts (sort : Nat → List α → List α) (f : α → β) : Prop where
  perm : ∀ k l, (sort k l).Perm l
  top : ∀ k l, ∀ x ∈ (sort k l).take k, ∀ y ∈ (sort k l).drop k, f y ≤ f x

variable [AddCommGroup β]

omit [LinearOrder β] in
theorem sum_sub {t : β} (l : List α) : (l.map fun x => f x - t).sum = (l.map f).sum - l.length • t := by
  induction l with
  | nil => simp
  | cons x l ih =>
    rw [map_cons, sum_cons, ih, map_cons, sum_cons, length_cons, succ_nsmul]
    abel

variable [IsOrderedAddMonoid β]

/-- No `k` elements have a larger sum than `k` that no other exceeds. What an element has above a threshold between the
    two parts counts in full on the one side and not at all on the other. -/
theorem sum_le_of_top {top rest chosen : List α} (htop : ∀ x ∈ top, ∀ y ∈ rest, f y ≤ f x)
    (hchosen : chosen.Subperm (top ++ rest)) (hlength : chosen.length = top.length) :
    (chosen.map f).sum ≤ (top.map f).sum := by
  cases hmin : top.argmin f with
  | none =>
    have hnil := argmin_eq_none.mp hmin
    rw [hnil, length_nil] at hlength
    rw [hnil, eq_nil_of_length_eq_zero hlength]
  | some m =>
    have hlow : ∀ x ∈ top, f m ≤ f x := fun x hx => le_of_mem_argmin hx hmin
    have hhigh : ∀ y ∈ rest, f y ≤ f m := htop m (argmin_mem hmin)
    obtain ⟨l, hperm, hsub⟩ := hchosen
    have hmapped : (l.map fun x => max (f x - f m) 0).Sublist ((top ++ rest).map fun x => max (f x - f m) 0) := hsub.map _
    have hpositive : ∀ a ∈ (top ++ rest).map fun x => max (f x - f m) 0, 0 ≤ a := by
      intro a ha
      obtain ⟨x, _, rfl⟩ := List.mem_map.mp ha
      exact le_max_right _ _
    have hfull : (top.map fun x => max (f x - f m) 0) = top.map fun x => f x - f m :=
      map_congr_left fun x hx => max_eq_left (sub_nonneg.mpr (hlow x hx))
    have hnothing : (rest.map fun x => max (f x - f m) 0) = rest.map fun _ => 0 :=
      map_congr_left fun y hy => max_eq_right (sub_nonpos.mpr (hhigh y hy))
    have habove : (l.map fun x => f x - f m).sum ≤ (top.map fun x => f x - f m).sum := calc
      (l.map fun x => f x - f m).sum ≤ (l.map fun x => max (f x - f m) 0).sum :=
        sum_le_sum fun x _ => le_max_left _ _
      _ ≤ ((top ++ rest).map fun x => max (f x - f m) 0).sum := hmapped.sum_le_sum hpositive
      _ = (top.map fun x => f x - f m).sum := by
        rw [map_append, sum_append, hfull, hnothing, map_const', sum_replicate, nsmul_zero, add_zero]
    rw [sum_sub, sum_sub, hperm.length_eq, hlength] at habove
    have hsum : (l.map f).sum = (chosen.map f).sum := (hperm.map f).sum_eq
    rw [hsum] at habove
    exact (sub_le_sub_iff_right _).mp habove

theorem PartialSorts.sum_le {sort : Nat → List α → List α} (h : PartialSorts sort f) {l chosen : List α}
    (hchosen : chosen.Subperm l) :
    (chosen.map f).sum ≤ (((sort chosen.length l).take chosen.length).map f).sum := by
  have hle := hchosen.length_le
  have hperm := h.perm chosen.length l
  refine sum_le_of_top (h.top chosen.length l) ?_ ?_
  · rw [take_append_drop]
    exact hchosen.trans hperm.symm.subperm
  rw [length_take, hperm.length_eq]
  omega

end TopSum
