import Mathlib.Data.List.Basic

/-
  A list cut into consecutive chunks of at most `size` elements, as a loop over it would that starts a new chunk when
  the current one is full.
-/

namespace Chunks
open List

variable {α : Type _}

/-- The chunks of `l`; `current` is the chunk being filled. -/
def chunks (size : Nat) : List α → List α → List (List α)
  | current, [] => if current.isEmpty then [] else [current]
  | current, a :: l =>
    if current.length < size then chunks size (current ++ [a]) l
    else current :: chunks size [a] l

theorem chunks_flatten {size : Nat} (current l : List α) : (chunks size current l).flatten = current ++ l := by
  induction l generalizing current with
  | nil =>
    unfold chunks
    split
    · next h => simp [List.isEmpty_iff.mp h]
    · simp
  | cons a l ih =>
    unfold chunks
    split
    · rw [ih, append_assoc, singleton_append]
    · rw [flatten_cons, ih, singleton_append]

theorem mem_chunks {size : Nat} (hsize : 0 < size) {current l : List α} (hcurrent : current.length ≤ size)
    {c : List α} (hc : c ∈ chunks size current l) : c ≠ [] ∧ c.length ≤ size := by
  induction l generalizing current with
  | nil =>
    unfold chunks at hc
    split at hc
    · simp at hc
    next h =>
    obtain rfl := mem_singleton.mp hc
    exact ⟨fun hnil => h (by simp [hnil]), hcurrent⟩
  | cons a l ih =>
    unfold chunks at hc
    split at hc
    · next h => exact ih (by simp; omega) hc
    next h =>
    rcases mem_cons.mp hc with rfl | hc
    · exact ⟨fun hnil => h (by simpa [hnil] using hsize), hcurrent⟩
    · exact ih (by simp; omega) hc

end Chunks
