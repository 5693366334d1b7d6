import Mathlib.Data.List.Nodup
import Mathlib.Data.List.Induction
import Mathlib.Algebra.BigOperators.Group.List.Basic
import Mathlib.Algebra.Ring.Int.Defs
import Mathlib.Algebra.Ring.Nat

/-
  One entry of a list overwritten: what a `filterMap` over the list keeps. Tables indexed by position (descriptors,
  pages, nodes) are updated this way.
-/

namespace ListUpdate
open List Option

variable {α β : Type _}

variable {l : List α} {i : Nat} {x : α}

theorem filterMap_set_perm (h : l[i]? = some x) (f : α → Option β) :
    ∃ rest, (l.filterMap f).Perm ((f x).toList ++ rest) ∧
      ∀ y, ((l.set i y).filterMap f).Perm ((f y).toList ++ rest) := by
  obtain ⟨hi, rfl⟩ := List.getElem?_eq_some_iff.mp h
  have key : ∀ y, ((l.set i y).filterMap f).Perm
      ((f y).toList ++ ((l.take i).filterMap f ++ (l.drop (i + 1)).filterMap f)) := by
    intro y
    rw [set_eq_take_append_cons_drop, if_pos hi, filterMap_append, filterMap_cons]
    cases f y with
    | none => simp
    | some b =>
      exact perm_middle
  refine ⟨_, ?_, key⟩
  have := key l[i]
  rwa [set_getElem_self] at this

theorem set_perm (h : l[i]? = some x) : ∃ rest, l.Perm (x :: rest) ∧ ∀ y, (l.set i y).Perm (y :: rest) := by
  obtain ⟨rest, h1, h2⟩ := filterMap_set_perm h some
  simp only [filterMap_some, toList_some, singleton_append] at h1 h2
  exact ⟨rest, h1, h2⟩

theorem getElem?_set_cases {b : α} {j : Nat} (hx : (l.set i b)[j]? = some x) :
    (j = i ∧ x = b) ∨ (j ≠ i ∧ l[j]? = some x) := by
  rw [getElem?_set] at hx
  split at hx
  · next heq =>
    split at hx
    · exact .inl ⟨heq.symm, (some.inj hx).symm⟩
    · cases hx
  · next hne => exact .inr ⟨fun h => hne h.symm, hx⟩

theorem countP_set_add (h : l[i]? = some x) (p : α → Bool) (y : α) :
    (l.set i y).countP p + (if p x then 1 else 0) = l.countP p + (if p y then 1 else 0) := by
  obtain ⟨rest, hx, hy⟩ := set_perm h
  rw [hx.countP_eq, (hy y).countP_eq, countP_cons, countP_cons]
  omega

theorem flatten_set_perm {l : List (List α)} {x : List α} (h : l[i]? = some x) :
    ∃ rest, l.flatten.Perm (x ++ rest) ∧ ∀ y, (l.set i y).flatten.Perm (y ++ rest) := by
  obtain ⟨rest, h1, h2⟩ := set_perm h
  exact ⟨rest.flatten, h1.flatten, fun y => (h2 y).flatten⟩

theorem getElem?_foldl_set (v : α) (idx : List Nat) (l : List α) (i : Nat) :
    (idx.foldl (fun l j => l.set j v) l)[i]? =
      if i ∈ idx ∧ i < l.length then some v else l[i]? := by
  induction idx generalizing l with
  | nil => simp
  | cons j idx ih =>
    rw [foldl_cons, ih, length_set, getElem?_set]
    by_cases hj : j = i
    · subst hj
      by_cases hl : j < l.length
      · simp [hl]
      · simp [hl]
    have : i ∈ j :: idx ↔ i ∈ idx := by simp [Ne.symm hj]
    simp [hj, this]

theorem filterMap_pick_perm {f : α → Option β} {dead : α} (hdead : f dead = none) {idx : List Nat}
    (hn : idx.Nodup) (l : List α) :
    ∃ rest, (l.filterMap f).Perm (idx.filterMap (fun i => (l[i]?).bind f) ++ rest) := by
  induction idx generalizing l with
  | nil => exact ⟨_, List.Perm.refl _⟩
  | cons i idx ih =>
    obtain ⟨hi, hidx⟩ := nodup_cons.mp hn
    obtain ⟨rest, hrest⟩ := ih hidx _
    -- entry `i` no longer contributes, and the other picked entries are unchanged
    have hsame : idx.filterMap (fun j => ((l.set i dead)[j]?).bind f) = idx.filterMap fun j => (l[j]?).bind f := by
      refine filterMap_congr fun j hj => ?_
      rw [getElem?_set_ne fun (h : i = j) => hi (h ▸ hj)]
    rw [hsame] at hrest
    cases hx : l[i]? with
    | none =>
      rw [set_eq_of_length_le (List.getElem?_eq_none_iff.mp hx)] at hrest
      exact ⟨rest, by simpa [filterMap_cons, hx] using hrest⟩
    | some x =>
      obtain ⟨others, h1, h2⟩ := filterMap_set_perm hx f
      have h2 := h2 dead
      rw [hdead, toList_none, nil_append] at h2
      refine ⟨rest, h1.trans ?_⟩
      have hcons : (i :: idx).filterMap (fun i => (l[i]?).bind f) =
          (f x).toList ++ idx.filterMap fun i => (l[i]?).bind f := by
        rw [filterMap_cons, hx, bind_some]
        cases f x <;> rfl
      rw [hcons, append_assoc]
      exact (h2.symm.trans hrest).append_left _

theorem sum_group {γ : Type _} [DecidableEq γ] (key : α → γ) (g : α → Nat) {keys : List γ}
    (hn : keys.Nodup) (h : ∀ x ∈ l, key x ∈ keys) :
    (l.map g).sum = (keys.map fun k => ((l.filter fun x => decide (key x = k)).map g).sum).sum := by
  induction keys generalizing l with
  | nil =>
    have : l = [] := eq_nil_iff_forall_not_mem.mpr fun x hx => by simpa using h x hx
    simp [this]
  | cons k keys ih =>
    obtain ⟨hk, hkeys⟩ := nodup_cons.mp hn
    have hsplit : (l.map g).sum = ((l.filter fun x => decide (key x = k)).map g).sum +
        ((l.filter fun x => !decide (key x = k)).map g).sum := by
      rw [← sum_append, ← map_append]
      exact ((filter_append_perm _ l).symm.map g).sum_eq
    have hrest : ∀ x ∈ l.filter (fun x => !decide (key x = k)), key x ∈ keys := by
      intro x hx
      obtain ⟨hx, hne⟩ := mem_filter.mp hx
      exact (mem_cons.mp (h x hx)).resolve_left (by simpa using hne)
    rw [hsplit, ih hkeys hrest, map_cons, sum_cons]
    congr 2
    refine map_congr_left fun k' hk' => ?_
    rw [List.filter_filter]
    congr 2
    refine filter_congr fun x _ => ?_
    by_cases hx : key x = k'
    · have : ¬ key x = k := fun he => hk (by rw [← he, hx]; exact hk')
      simp [this]
    · simp [hx]

theorem length_filter_range (l : List α) (p : α → Bool) :
    ((List.range l.length).filter fun i => (l[i]?).any p).length = l.countP p := by
  induction l using List.reverseRecOn with
  | nil => rfl
  | append_singleton l x ih =>
    have e1 : ((List.range l.length).filter fun i => ((l ++ [x])[i]?).any p) =
        (List.range l.length).filter fun i => (l[i]?).any p := by
      refine filter_congr fun i hi => ?_
      rw [getElem?_append_left (mem_range.mp hi)]
    have e2 : (List.filter (fun i => ((l ++ [x])[i]?).any p) [l.length]).length = [x].countP p := by
      simp only [filter_cons, filter_nil, getElem?_concat_length, any_some, countP_singleton]
      split <;> rfl
    rw [length_append, length_singleton, range_succ, filter_append, length_append, e1, e2, ih, countP_append]

theorem length_eq_countP {p : α → Bool} {idx : List Nat} (hn : idx.Nodup)
    (h : ∀ i, i ∈ idx ↔ ∃ x, l[i]? = some x ∧ p x = true) : idx.length = l.countP p := by
  have hp : idx.Perm ((List.range l.length).filter fun i => (l[i]?).any p) := by
    rw [perm_ext_iff_of_nodup hn (nodup_range.filter _)]
    intro i
    rw [h, mem_filter, mem_range]
    constructor
    · rintro ⟨x, hx, hpx⟩
      exact ⟨(List.getElem?_eq_some_iff.mp hx).1, by simp [hx, hpx]⟩
    · rintro ⟨hi, hany⟩
      exact ⟨l[i], getElem?_eq_getElem hi, by simpa [getElem?_eq_getElem hi] using hany⟩
  rw [hp.length_eq, length_filter_range]

theorem find?_of_nodup [DecidableEq β] {f : α → β} (hnodup : (l.map f).Nodup) (hx : x ∈ l) :
    l.find? (f · == f x) = some x := by
  obtain ⟨before, after, rfl⟩ := append_of_mem hx
  rw [map_append, map_cons, nodup_append] at hnodup
  refine find?_eq_some_iff_append.mpr ⟨beq_self_eq_true _, before, after, rfl, fun y hy => ?_⟩
  simpa using hnodup.2.2 _ (mem_map_of_mem hy) _ mem_cons_self

end ListUpdate
