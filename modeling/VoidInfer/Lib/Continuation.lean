import Mathlib.Data.List.Basic

/-
  The list that a rule `next` for the next element gives after a start: its first `n` elements, and how such runs
  compose.
-/

namespace Continuation
open List

variable {α : Type _} (next : List α → α)

/-- The first `n` elements after `base`. -/
def extend : List α → Nat → List α
  | _, 0 => []
  | base, n + 1 => next base :: extend (base ++ [next base]) n

@[simp] theorem length_extend (base : List α) (n : Nat) : (extend next base n).length = n := by
  induction n generalizing base with
  | zero => rfl
  | succ n ih => rw [extend, length_cons, ih]

theorem extend_add (base : List α) (m n : Nat) :
    extend next base (m + n) = extend next base m ++ extend next (base ++ extend next base m) n := by
  induction m generalizing base with
  | zero => simp [extend]
  | succ m ih =>
    rw [Nat.add_right_comm, extend, ih, extend, cons_append, append_assoc, singleton_append]

theorem extend_prefix (base : List α) {m n : Nat} (h : m ≤ n) : extend next base m <+: extend next base n := by
  obtain ⟨k, rfl⟩ := Nat.exists_eq_add_of_le h
  rw [extend_add]
  exact prefix_append _ _

theorem dropLast_extend (base : List α) (n : Nat) : (extend next base (n + 1)).dropLast = extend next base n := by
  rw [extend_add]
  exact dropLast_concat

end Continuation
