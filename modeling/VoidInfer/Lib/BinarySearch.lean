import Mathlib.Order.Basic

/-
  `std::lower_bound`: the first place of a range where a test fails, found by halving. The range must be partitioned by
  the test, as a sorted range is.
-/

namespace BinarySearch

/-- The halving loop, over the `len` places from `first` on. -/
def lowerBound (before : Nat → Bool) (first len : Nat) : Nat :=
  if len = 0 then first
  else if before (first + len / 2) then lowerBound before (first + len / 2 + 1) (len - len / 2 - 1)
  else lowerBound before first (len / 2)
termination_by len

theorem lowerBound_spec {before : Nat → Bool} {first len : Nat}
    (h : ∀ i j, first ≤ i → i ≤ j → j < first + len → before j = true → before i = true) :
    first ≤ lowerBound before first len ∧ lowerBound before first len ≤ first + len ∧
      (∀ i, first ≤ i → i < lowerBound before first len → before i = true) ∧
      ∀ i, lowerBound before first len ≤ i → i < first + len → before i = false := by
  induction first, len using lowerBound.induct before with
  | case1 first =>
    rw [lowerBound, if_pos rfl]
    exact ⟨by omega, by omega, fun i hi hlt => by omega, fun i hi hlt => by omega⟩
  | case2 first len hlen hmid ih =>
    rw [lowerBound, if_neg hlen, if_pos hmid]
    obtain ⟨hlow, hhigh, hbefore, hafter⟩ :=
      ih fun i j hi hij hj => h i j (by omega) hij (by omega)
    refine ⟨by omega, by omega, ?_, ?_⟩
    · intro i hi hlt
      by_cases hi' : i ≤ first + len / 2
      · exact h i _ hi hi' (by omega) hmid
      · exact hbefore i (by omega) hlt
    · intro i hi hlt
      exact hafter i hi (by omega)
  | case3 first len hlen hmid ih =>
    rw [lowerBound, if_neg hlen, if_neg hmid]
    obtain ⟨hlow, hhigh, hbefore, hafter⟩ :=
      ih fun i j hi hij hj => h i j hi hij (by omega)
    refine ⟨hlow, by omega, hbefore, ?_⟩
    intro i hi hlt
    by_cases hi' : i < first + len / 2
    · exact hafter i hi hi'
    -- a place after the failed midpoint fails too
    by_contra hne
    exact hmid (h _ i (by omega) (by omega) hlt (by simpa using hne))

end BinarySearch
