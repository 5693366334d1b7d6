import VoidInfer.Exl3.DevicePageCache

/-
  The invariant of the device page cache: entries with a page have different keys, and what an entry holds is a fill.
  Each change of the state is one of a few: a fill is changed by a call, flags of an entry change, an entry tracks its
  retired fill, expired entries are freed, and a fresh fill is put into an empty entry.
-/

namespace VoidInfer.Exl3.DevicePages
open List Option

variable {s s' s'' : State} {f i : Nat} {key : Key} {fill fill' : Fill} {entry entry' : Entry}

structure Inv (s : State) : Prop where
  fills : ∀ (f : Nat) fill, s.fills[f]? = some fill → FillOk fill
  pages : ∀ (i : Nat) entry key f, s.entries[i]? = some entry → entry.page = some (key, f) →
    entry.tracking = none ∧ ∃ fill, s.fills[f]? = some fill ∧ fill.key = key
  tracked : ∀ (i : Nat) entry f, s.entries[i]? = some entry → entry.tracking = some f → f < s.fills.length
  distinct : ∀ (i j : Nat) entry entry' key f f', s.entries[i]? = some entry → s.entries[j]? = some entry' →
    entry.page = some (key, f) → entry'.page = some (key, f') → i = j

/-- The slot holds the fill, or tracks it. -/
def State.holds (s : State) (i f : Nat) : Prop :=
  ∃ entry, s.entries[i]? = some entry ∧ (entry.tracking = some f ∨ ∃ key, entry.page = some (key, f))

/-- What a part of a step does: fills are kept, and are not revived. -/
structure Moved (s s' : State) : Prop where
  inv : Inv s'
  fills : ∀ (f : Nat) fill, s.fills[f]? = some fill → ∃ fill', s'.fills[f]? = some fill' ∧ Next fill fill'
  dead : ∀ f, f < s.fills.length → s.alive f = false → s'.alive f = false

/-- No slot is given up. -/
def Keeps (s s' : State) : Prop := ∀ i f, s.holds i f → s'.holds i f

/-- Only the slots of expired fills are given up. -/
def Slots (s s' : State) : Prop := ∀ i f, s.holds i f → s'.holds i f ∨ s.alive f = false

theorem Keeps.slots (h : Keeps s s') : Slots s s' := fun i f hf => .inl (h i f hf)

theorem Keeps.trans (h : Keeps s s') (h' : Keeps s' s'') : Keeps s s'' := fun i f hf => h' i f (h i f hf)

theorem Slots.keeps (h : Slots s s') (h' : Keeps s' s'') : Slots s s'' := fun i f hf => (h i f hf).imp (h' i f) id

theorem Moved.refl (h : Inv s) : Moved s s := ⟨h, fun _ fill hf => ⟨fill, hf, Next.refl fill⟩, fun _ _ => id⟩

theorem Inv.still (h : Inv s) : Moved s s ∧ Keeps s s := ⟨Moved.refl h, fun _ _ => id⟩

theorem Moved.length_le (h : Moved s s') : s.fills.length ≤ s'.fills.length := by
  by_contra hlt
  obtain ⟨fill', hget, _⟩ := h.fills s'.fills.length _ (getElem?_eq_getElem (by omega))
  simp at hget

theorem Moved.trans (h : Moved s s') (h' : Moved s' s'') : Moved s s'' := by
  refine ⟨h'.inv, fun f fill hf => ?_, fun f hlt hdead => ?_⟩
  · obtain ⟨fill', hf', hnext⟩ := h.fills f fill hf
    obtain ⟨fill'', hf'', hnext'⟩ := h'.fills f fill' hf'
    exact ⟨fill'', hf'', hnext.trans hnext'⟩
  · exact h'.dead f (Nat.lt_of_lt_of_le hlt h.length_le) (h.dead f hlt hdead)

/-! ## Owners -/

theorem listed_iff : s.listed f = true ↔ ∃ (i : Nat) (entry : Entry) (key : Key), s.entries[i]? = some entry ∧ entry.page = some (key, f) := by
  unfold State.listed
  rw [List.any_eq_true]
  constructor
  · intro h
    obtain ⟨entry, hmem, hany⟩ := h
    obtain ⟨i, hi⟩ := mem_iff_getElem?.mp hmem
    cases hpage : entry.page with
    | none => simp [hpage] at hany
    | some page =>
      obtain ⟨key, g⟩ := page
      rw [hpage] at hany
      obtain rfl : g = f := by simpa using hany
      exact ⟨i, entry, key, hi, hpage⟩
  · intro h
    obtain ⟨i, entry, key, hi, hpage⟩ := h
    exact ⟨entry, mem_of_getElem? hi, by simp [hpage]⟩

theorem alive_iff : s.alive f = true ↔ s.listed f = true ∨ ∃ fill, s.fills[f]? = some fill ∧ 0 < fill.owners := by
  unfold State.alive
  rw [Bool.or_eq_true]
  refine or_congr Iff.rfl ?_
  cases hget : s.fills[f]? with
  | none => simp
  | some fill => simp

theorem dead_of (hlisted : s'.listed f = true → s.listed f = true)
    (howned : ∀ fill', s'.fills[f]? = some fill' → 0 < fill'.owners → s.alive f = true) (h : s.alive f = false) :
    s'.alive f = false := by
  by_contra halive
  rcases alive_iff.mp (by simpa using halive) with hl | ⟨fill', hget, hpos⟩
  · rw [alive_iff.mpr (.inl (hlisted hl))] at h
    cases h
  rw [howned fill' hget hpos] at h
  cases h

/-! ## Calls of fills -/

theorem setFill_get (hf : s.fills[f]? = some fill) (fill' : Fill) (g : Nat) :
    (s.setFill f fill').fills[g]? = if g = f then some fill' else s.fills[g]? := by
  have hlt : f < s.fills.length := lt_of_getElem? hf
  unfold State.setFill
  by_cases heq : g = f
  · rw [heq, if_pos rfl, getElem?_set_self hlt]
  · rw [if_neg heq, getElem?_set_ne (Ne.symm heq)]

theorem moved_setFill (h : Inv s) (hf : s.fills[f]? = some fill) (hnext : Next fill fill')
    (howners : 0 < fill'.owners → s.alive f = true) : Moved s (s.setFill f fill') := by
  have hget := setFill_get hf fill'
  have hkeep : ∀ (g : Nat) old, s.fills[g]? = some old → ∃ new, (s.setFill f fill').fills[g]? = some new ∧ Next old new := by
    intro g old hg
    rw [hget]
    by_cases heq : g = f
    · subst heq
      obtain rfl := mem_unique hf hg
      exact ⟨fill', if_pos rfl, hnext⟩
    · exact ⟨old, by rw [if_neg heq, hg], Next.refl old⟩
  refine ⟨⟨fun g new hg => ?_, fun i entry key g hi hpage => ?_, fun i entry g hi htrack => ?_, h.distinct⟩, hkeep,
    fun g _ hdead => dead_of (s := s) (fun hl => hl) (fun new hg hpos => ?_) hdead⟩
  · rw [hget] at hg
    split at hg
    · cases hg
      exact hnext.ok (h.fills f fill hf)
    · exact h.fills g new hg
  · obtain ⟨htrack, old, hold, hkey⟩ := h.pages i entry key g hi hpage
    obtain ⟨new, hnew, hstep⟩ := hkeep g old hold
    exact ⟨htrack, new, hnew, hstep.key.trans hkey⟩
  · simpa [State.setFill] using h.tracked i entry g hi htrack
  · rw [hget] at hg
    split at hg
    · next heq =>
      cases hg
      rw [heq]
      exact howners hpos
    · exact alive_iff.mpr (.inr ⟨new, hg, hpos⟩)

theorem keeps_of_entries (h : s'.entries = s.entries) : Keeps s s' := by
  intro i f hf
  unfold State.holds
  rw [h]
  exact hf

/-! ## Flags -/

/-- What the invariant reads of an entry. -/
def Entry.shape (entry : Entry) : Option (Key × Nat) × Option Nat := (entry.page, entry.tracking)

section
variable (h : s'.entries.map Entry.shape = s.entries.map Entry.shape)
include h

theorem entry_of_shape (hi : s.entries[i]? = some entry) :
    ∃ entry', s'.entries[i]? = some entry' ∧ entry'.page = entry.page ∧ entry'.tracking = entry.tracking := by
  have hget := congrArg (fun shapes => shapes[i]?) h
  simp only [getElem?_map, hi, map_some] at hget
  obtain ⟨entry', hi', hshape⟩ := map_eq_some_iff.mp hget
  exact ⟨entry', hi', congrArg Prod.fst hshape, congrArg Prod.snd hshape⟩

theorem holds_of_shape : Keeps s s' := by
  intro i f hf
  obtain ⟨entry, hi, hholds⟩ := hf
  obtain ⟨entry', hi', hpage, htrack⟩ := entry_of_shape h hi
  refine ⟨entry', hi', ?_⟩
  rw [hpage, htrack]
  exact hholds

theorem listed_of_shape (hl : s.listed f = true) : s'.listed f = true := by
  obtain ⟨i, entry, key, hi, hpage⟩ := listed_iff.mp hl
  obtain ⟨entry', hi', hpage', _⟩ := entry_of_shape h hi
  exact listed_iff.mpr ⟨i, entry', key, hi', hpage'.trans hpage⟩

end

theorem moved_of_shape (h : Inv s) (hfills : s'.fills = s.fills)
    (hshape : s'.entries.map Entry.shape = s.entries.map Entry.shape) : Moved s s' := by
  refine ⟨⟨?_, fun i entry key f hi hpage => ?_, fun i entry f hi htrack => ?_, ?_⟩, fun f fill hf => ?_,
    fun f _ hdead => ?_⟩
  · rw [hfills]
    exact h.fills
  · obtain ⟨entry', hi', hpage', htrack'⟩ := entry_of_shape hshape.symm hi
    rw [hfills, ← htrack']
    exact h.pages i entry' key f hi' (hpage'.trans hpage)
  · obtain ⟨entry', hi', _, htrack'⟩ := entry_of_shape hshape.symm hi
    rw [hfills]
    exact h.tracked i entry' f hi' (htrack'.trans htrack)
  · intro i j entry entry' key f f' hi hj hpage hpage'
    obtain ⟨old, hold, hp, _⟩ := entry_of_shape hshape.symm hi
    obtain ⟨old', hold', hp', _⟩ := entry_of_shape hshape.symm hj
    exact h.distinct i j old old' key f f' hold hold' (hp.trans hpage) (hp'.trans hpage')
  · exact ⟨fill, hfills ▸ hf, Next.refl fill⟩
  · refine dead_of (listed_of_shape hshape.symm) (fun fill' hf hpos => ?_) hdead
    exact alive_iff.mpr (.inr ⟨fill', hfills ▸ hf, hpos⟩)

theorem shape_modify (entries : List Entry) (i : Nat) (g : Entry → Entry) (hg : ∀ entry, (g entry).shape = entry.shape) :
    (entries.modify i g).map Entry.shape = entries.map Entry.shape := by
  apply ext_getElem?
  intro j
  rw [getElem?_map, getElem?_map, getElem?_modify]
  cases entries[j]? with
  | none => rfl
  | some entry =>
    by_cases hij : i = j
    · simp [hij, hg]
    · simp [hij]

theorem shape_set (hi : s.entries[i]? = some entry) (h : entry'.shape = entry.shape) :
    (s.entries.set i entry').map Entry.shape = s.entries.map Entry.shape := by
  obtain ⟨hlt, rfl⟩ := List.getElem?_eq_some_iff.mp hi
  rw [map_set, h, ← map_set, set_getElem_self]

/-! ## Tracking -/

theorem setEntry_get (hi : s.entries[i]? = some entry) (entry' : Entry) (j : Nat) :
    (s.setEntry i entry').entries[j]? = if j = i then some entry' else s.entries[j]? := by
  have hlt : i < s.entries.length := lt_of_getElem? hi
  unfold State.setEntry
  by_cases heq : j = i
  · rw [heq, if_pos rfl, getElem?_set_self hlt]
  · rw [if_neg heq, getElem?_set_ne (Ne.symm heq)]

theorem moved_track (h : Inv s) (hi : s.entries[i]? = some entry) (hpage : entry.page = some (key, f))
    (hnone : entry'.page = none) (htracks : entry'.tracking = some f) :
    Moved s (s.setEntry i entry') ∧ Keeps s (s.setEntry i entry') := by
  have hget := setEntry_get hi entry'
  have hold : ∀ (j : Nat) other page, (s.setEntry i entry').entries[j]? = some other → other.page = some page →
      s.entries[j]? = some other := by
    intro j other page hj hother
    rw [hget] at hj
    split at hj
    · cases hj
      rw [hnone] at hother
      cases hother
    · exact hj
  obtain ⟨hfree, fill, hfill, hkey⟩ := h.pages i entry key f hi hpage
  refine ⟨⟨⟨h.fills, fun j other key' g hj hother => ?_, fun j other g hj htrack => ?_, ?_⟩,
    fun g old hg => ⟨old, hg, Next.refl old⟩, fun g _ hdead => dead_of (fun hl => ?_) (fun old hg hpos => ?_) hdead⟩, ?_⟩
  · exact h.pages j other key' g (hold j other _ hj hother) hother
  · rw [hget] at hj
    split at hj
    · cases hj
      obtain rfl := mem_unique htracks htrack
      exact lt_of_getElem? hfill
    · exact h.tracked j other g hj htrack
  · intro j k other other' key' g g' hj hk hother hother'
    exact h.distinct j k other other' key' g g' (hold j other _ hj hother) (hold k other' _ hk hother') hother hother'
  · obtain ⟨j, other, key', hj, hother⟩ := listed_iff.mp hl
    exact listed_iff.mpr ⟨j, other, key', hold j other _ hj hother, hother⟩
  · exact alive_iff.mpr (.inr ⟨old, hg, hpos⟩)
  · intro j g hholds
    obtain ⟨other, hj, hother⟩ := hholds
    by_cases heq : j = i
    · subst heq
      obtain rfl := mem_unique hi hj
      refine ⟨entry', by rw [hget, if_pos rfl], .inl ?_⟩
      rcases hother with htrack | ⟨key', hpage'⟩
      · rw [hfree] at htrack
        cases htrack
      rw [hpage] at hpage'
      cases hpage'
      exact htracks
    · exact ⟨other, by rw [hget, if_neg heq, hj], hother⟩

/-! ## A fresh fill -/

theorem moved_fresh (entry' : Entry) (h : Inv s) (hi : s.entries[i]? = some entry) (hpage : entry.page = none)
    (htrack : entry.tracking = none) (hnew : ∀ (j : Nat) other g, s.entries[j]? = some other → other.page ≠ some (key, g))
    (hok : FillOk fill) (hkey : fill.key = key) (hpage' : entry'.page = some (key, s.fills.length))
    (htrack' : entry'.tracking = none) :
    Moved s { s.setEntry i entry' with fills := s.fills ++ [fill] } ∧
      Keeps s { s.setEntry i entry' with fills := s.fills ++ [fill] } := by
  have hget := setEntry_get hi entry'
  have hfills : ∀ (g : Nat) old, s.fills[g]? = some old → (s.fills ++ [fill])[g]? = some old := by
    intro g old hg
    rw [getElem?_append_left (lt_of_getElem? hg), hg]
  have hlast : (s.fills ++ [fill])[s.fills.length]? = some fill := by simp
  refine ⟨⟨⟨fun g new hg => ?_, fun j other key' g hj hother => ?_, fun j other g hj hother => ?_, ?_⟩,
    fun g old hg => ⟨old, hfills g old hg, Next.refl old⟩,
    fun g hlt hdead => dead_of (fun hl => ?_) (fun new hg hpos => ?_) hdead⟩, ?_⟩
  · by_cases hlt : g < s.fills.length
    · rw [getElem?_append_left hlt] at hg
      exact h.fills g new hg
    · rw [getElem?_append_right (by omega)] at hg
      rw [mem_singleton.mp (mem_of_getElem? hg)]
      exact hok
  · rw [hget] at hj
    split at hj
    · cases hj
      rw [hpage'] at hother
      cases hother
      exact ⟨htrack', fill, hlast, hkey⟩
    obtain ⟨hfree, old, hold, hold'⟩ := h.pages j other key' g hj hother
    exact ⟨hfree, old, hfills g old hold, hold'⟩
  · rw [hget] at hj
    split at hj
    · cases hj
      rw [htrack'] at hother
      cases hother
    have := h.tracked j other g hj hother
    simp only [length_append, length_singleton]
    omega
  · intro j k other other' key' g g' hj hk hother hother'
    rw [hget] at hj hk
    split at hj
    · next hji =>
      split at hk
      · next hki => exact hji.trans hki.symm
      cases hj
      rw [hpage'] at hother
      cases hother
      exact absurd hother' (hnew k other' g' hk)
    split at hk
    · cases hk
      rw [hpage'] at hother'
      cases hother'
      exact absurd hother (hnew j other g hj)
    · exact h.distinct j k other other' key' g g' hj hk hother hother'
  · obtain ⟨j, other, key', hj, hother⟩ := listed_iff.mp hl
    rw [hget] at hj
    split at hj
    · cases hj
      rw [hpage'] at hother
      obtain ⟨_, heq⟩ := Prod.mk.inj (some.inj hother)
      omega
    · exact listed_iff.mpr ⟨j, other, key', hj, hother⟩
  · rw [getElem?_append_left hlt] at hg
    exact alive_iff.mpr (.inr ⟨new, hg, hpos⟩)
  · intro j g hholds
    obtain ⟨other, hj, hother⟩ := hholds
    by_cases heq : j = i
    · subst heq
      obtain rfl := mem_unique hi hj
      simp [hpage, htrack] at hother
    · exact ⟨other, by rw [show _ = _ from hget j, if_neg heq, hj], hother⟩

end VoidInfer.Exl3.DevicePages
