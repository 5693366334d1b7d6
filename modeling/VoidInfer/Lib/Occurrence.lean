import VoidInfer.Lib.Bytes
import Mathlib.Data.List.Infix

/-
  Where a marker does not occur: in the parts of a text, in a text put together at bytes that the marker does not have,
  and before the place where it is cut.
-/

namespace Occurrence
open List

variable {α : Type}

/-- The marker is nowhere in the text. -/
def Absent (marker text : List α) : Prop := ¬ marker <:+: text

instance [DecidableEq α] (marker text : List α) : Decidable (Absent marker text) :=
  inferInstanceAs (Decidable (¬ marker <:+: text))

variable {marker text piece a b tail : List α} {d p : α}

theorem Absent.part (h : Absent marker text) (hpiece : piece <:+: text) : Absent marker piece :=
  fun hmarker => h (hmarker.trans hpiece)

theorem absent_of_notMem (h : p ∉ text) : Absent (p :: tail) text :=
  fun hmarker => h (hmarker.subset mem_cons_self)

theorem absent_split (hd : d ∉ marker) : Absent marker (a ++ d :: b) ↔ Absent marker a ∧ Absent marker b := by
  constructor
  · intro h
    exact ⟨h.part (prefix_append _ _).isInfix, h.part ((suffix_cons _ _).trans (suffix_append _ _)).isInfix⟩
  · rintro ⟨ha, hb⟩ ⟨s, t, heq⟩
    rw [append_assoc] at heq
    rcases append_eq_append_iff.mp heq with ⟨x, rfl, hx⟩ | ⟨x, rfl, hx⟩
    · -- the marker begins before the byte, so it ends there too
      rcases append_eq_append_iff.mp hx with ⟨y, rfl, -⟩ | ⟨y, rfl, hy⟩
      · exact ha ⟨s, y, by simp⟩
      cases y with
      | nil => exact ha ⟨s, [], by simp⟩
      | cons y ys =>
        cases hy
        exact hd (by simp)
    cases x with
    | nil =>
      cases marker with
      | nil => exact ha nil_infix
      | cons m ms =>
        cases hx
        exact hd mem_cons_self
    | cons y ys =>
      cases hx
      exact hb ⟨ys, t, by simp⟩

theorem absent_append (h : p ∉ a) (hb : Absent (p :: tail) b) : Absent (p :: tail) (a ++ b) := by
  rintro ⟨s, t, heq⟩
  rw [append_assoc] at heq
  rcases append_eq_append_iff.mp heq with ⟨x, rfl, hx⟩ | ⟨x, rfl, hx⟩
  · cases x with
    | nil => exact hb ⟨[], t, by simpa using hx⟩
    | cons y ys =>
      obtain ⟨rfl, -⟩ := List.cons.inj hx
      exact h (by simp)
  · exact hb ⟨x, t, by rw [hx, append_assoc]⟩

theorem absent_join (hp : p ∉ tail) (ha : Absent (p :: tail) a) (hb : Absent (p :: tail) (p :: b)) :
    Absent (p :: tail) (a ++ p :: b) := by
  rintro ⟨s, t, heq⟩
  rw [append_assoc] at heq
  rcases append_eq_append_iff.mp heq with ⟨x, rfl, hx⟩ | ⟨x, rfl, hx⟩
  · cases x with
    | nil => exact hb ⟨[], t, by simpa using hx⟩
    | cons y ys =>
      obtain ⟨rfl, hrest⟩ := List.cons.inj hx
      rcases append_eq_append_iff.mp hrest with ⟨z, rfl, -⟩ | ⟨z, rfl, hz⟩
      · exact ha ⟨s, z, by simp⟩
      cases z with
      | nil => exact ha ⟨s, [], by simp⟩
      | cons w ws =>
        cases hz
        exact hp (by simp)
  · exact hb ⟨x, t, by rw [hx, append_assoc]⟩

theorem absent_concat (h : d ∉ text) : Absent (marker ++ [d]) (text ++ [d]) ↔ ¬ marker <:+ text := by
  constructor
  · rintro habsent ⟨s, rfl⟩
    exact habsent ⟨s, [], by simp⟩
  · rintro hsuffix ⟨s, t, heq⟩
    rcases eq_nil_or_concat t with rfl | ⟨t, z, rfl⟩
    · rw [append_nil, ← append_assoc] at heq
      exact hsuffix ⟨s, (append_inj' heq rfl).1⟩
    rw [concat_eq_append, ← append_assoc] at heq
    refine h ?_
    rw [← (append_inj' heq rfl).1]
    simp

open Bytes in
theorem cut_of_absent {p : UInt8} {tail text : List UInt8} (hp : p ∉ tail) (h : Absent (p :: tail) text)
    (rest : List UInt8) : cut (p :: tail) (text ++ (p :: tail) ++ rest) = some (text, rest) := by
  induction text with
  | nil => exact cut_of_prefix (cons_ne_nil _ _) rest
  | cons b text ih =>
    have hnot : ¬ (p :: tail) <+: b :: (text ++ (p :: tail) ++ rest) := by
      rintro ⟨t, heq⟩
      have hlong : (p :: tail) ++ t = (b :: text) ++ ((p :: tail) ++ rest) := by
        rw [heq, cons_append, append_assoc]
      rcases append_eq_append_iff.mp hlong with ⟨x, hx, -⟩ | ⟨x, hx, hrest⟩
      · exact h ⟨[], x, by rw [hx, nil_append]⟩
      -- the marker would hold its first byte twice
      cases x with
      | nil => exact h ⟨[], [], by rw [hx]; simp⟩
      | cons y ys =>
        rw [cons_append] at hx hrest
        cases hx
        obtain ⟨rfl, -⟩ := List.cons.inj hrest
        exact hp (by simp)
    rw [cons_append, cons_append, cut_cons_of_not_isPrefix hnot, ih (h.part (suffix_cons _ _).isInfix)]
    rfl

end Occurrence
