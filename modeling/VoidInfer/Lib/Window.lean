import Mathlib.Data.List.Basic

/-
  Windows of a memory. A memory is a function of the position; a window reads `n` positions of it as a list, and
  `overwrite` puts a list over it. What is overwritten reads back, and a window that it does not meet reads as before.
-/

namespace Window
open List

variable {α : Type _} {f g : Nat → α} {first n i : Nat} {l : List α}

/-- The values at `first`, …, `first + n - 1`. -/
def window (f : Nat → α) (first n : Nat) : List α := (List.range n).map fun i => f (first + i)

/-- `l` put over the values from `first` on. -/
def overwrite (f : Nat → α) (first : Nat) (l : List α) : Nat → α := fun i =>
  if i < first then f i else l.getD (i - first) (f i)

@[simp] theorem length_window : (window f first n).length = n := by simp [window]

theorem window_congr (h : ∀ i, first ≤ i → i < first + n → f i = g i) : window f first n = window g first n := by
  refine map_congr_left fun i hi => ?_
  have := mem_range.mp hi
  exact h _ (by omega) (by omega)

theorem overwrite_outside (h : i < first ∨ first + l.length ≤ i) : overwrite f first l i = f i := by
  unfold overwrite
  split
  · rfl
  · rw [getD_eq_getElem?_getD, getElem?_eq_none (by omega), Option.getD_none]

@[simp] theorem window_overwrite : window (overwrite f first l) first l.length = l := by
  refine ext_getElem (by simp) fun i h1 h2 => ?_
  have : ¬ first + i < first := by omega
  simp [window, overwrite, h2, this]

end Window
