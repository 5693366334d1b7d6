import Mathlib.Data.List.Pairwise

/-
  `std::map` under a comparator: the entries in key order, found and inserted by the comparator alone. With a comparator
  that orders any two different keys, `try_emplace` is the usual first-wins insertion (`tryEmplace_of_mem`,
  `tryEmplace_of_not_mem`).
-/

namespace VoidInfer.OrderedMap
open List

variable {κ ν : Type}

/-- `try_emplace`: the entry already there under an equivalent key, if any, stays. -/
def tryEmplace (less : κ → κ → Bool) (key : κ) (value : ν) : List (κ × ν) → List (κ × ν) × Option ν
  | [] => ([(key, value)], none)
  | e :: rest =>
    if less e.1 key then
      let inserted := tryEmplace less key value rest
      (e :: inserted.1, inserted.2)
    else if less key e.1 then ((key, value) :: e :: rest, none)
    else (e :: rest, some e.2)

/-- A comparator that tells any two different keys apart. -/
structure StrictOrder (less : κ → κ → Bool) : Prop where
  irrefl : ∀ a, less a a = false
  trans : ∀ a b c, less a b = true → less b c = true → less a c = true
  eq_of_not_less : ∀ a b, less a b = false → less b a = false → a = b

/-- The entries stand in key order. -/
def Sorted (less : κ → κ → Bool) (m : List (κ × ν)) : Prop :=
  m.Pairwise fun a b => less a.1 b.1 = true

variable {less : κ → κ → Bool} {m : List (κ × ν)} {key : κ}

theorem tryEmplace_of_mem (ho : StrictOrder less) (hs : Sorted less m) {v : ν} (value : ν)
    (h : (key, v) ∈ m) : tryEmplace less key value m = (m, some v) := by
  induction m with
  | nil => simp at h
  | cons e rest ih =>
    obtain ⟨hhead, hrest⟩ := pairwise_cons.mp hs
    rcases mem_cons.mp h with rfl | hmem
    · simp [tryEmplace, ho.irrefl]
    have hless := hhead _ hmem
    simp only [tryEmplace, hless, if_true, ih hrest hmem]

theorem tryEmplace_of_not_mem (ho : StrictOrder less) (hs : Sorted less m) (value : ν) (h : ∀ v, (key, v) ∉ m) :
    (tryEmplace less key value m).2 = none ∧ Sorted less (tryEmplace less key value m).1 ∧
      ∀ e, e ∈ (tryEmplace less key value m).1 ↔ e = (key, value) ∨ e ∈ m := by
  induction m with
  | nil => simp [tryEmplace, Sorted]
  | cons e rest ih =>
    obtain ⟨hhead, hrest⟩ := pairwise_cons.mp hs
    have hkey : e.1 ≠ key := by
      intro heq
      apply h e.2
      rw [← heq]
      exact mem_cons_self
    obtain ⟨hnone, hsorted, hmem⟩ := ih hrest fun v hv => h v (mem_cons_of_mem _ hv)
    by_cases hbefore : less e.1 key = true
    · simp only [tryEmplace, hbefore, if_true]
      refine ⟨hnone, pairwise_cons.mpr ⟨?_, hsorted⟩, ?_⟩
      · intro x hx
        rcases (hmem x).mp hx with rfl | hx
        · exact hbefore
        · exact hhead x hx
      · intro x
        simp only [mem_cons, hmem]
        exact or_left_comm
    have hafter : less key e.1 = true := by
      by_contra hnot
      exact hkey (ho.eq_of_not_less e.1 key (by simpa using hbefore) (by simpa using hnot))
    simp only [tryEmplace, hbefore, hafter, if_true]
    refine ⟨rfl, pairwise_cons.mpr ⟨?_, hs⟩, ?_⟩
    · intro x hx
      rcases mem_cons.mp hx with rfl | hx
      · exact hafter
      · exact ho.trans _ _ _ hafter (hhead x hx)
    · intro x
      simp only [mem_cons, Bool.false_eq_true, if_false]

/-! ## A list under each key -/

/-- `map[key].push_back(value)`. -/
def pushBack (less : κ → κ → Bool) (key : κ) (value : ν) : List (κ × List ν) → List (κ × List ν)
  | [] => [(key, [value])]
  | e :: rest =>
    if less e.1 key then e :: pushBack less key value rest
    else if less key e.1 then (key, [value]) :: e :: rest
    else (e.1, e.2 ++ [value]) :: rest

/-- Every value with the key it stands under. -/
def entries (m : List (κ × List ν)) : List (ν × κ) :=
  m.flatMap fun e => e.2.map fun v => (v, e.1)

theorem entries_pushBack (ho : StrictOrder less) (key : κ) (value : ν) (m : List (κ × List ν)) :
    (entries (pushBack less key value m)).Perm ((value, key) :: entries m) := by
  induction m with
  | nil => exact List.Perm.refl _
  | cons e rest ih =>
    simp only [pushBack]
    split
    · have hstep := Perm.append_left (e.2.map fun v => (v, e.1)) ih
      exact hstep.trans perm_middle
    next hbefore =>
    split
    · exact List.Perm.refl _
    next hafter =>
    have hkey : e.1 = key := ho.eq_of_not_less e.1 key (by simpa using hbefore) (by simpa using hafter)
    have hentries : entries ((e.1, e.2 ++ [value]) :: rest) =
        (e.2.map fun v => (v, e.1)) ++ (value, key) :: entries rest := by
      simp [entries, hkey]
    rw [hentries]
    exact perm_middle

end VoidInfer.OrderedMap
