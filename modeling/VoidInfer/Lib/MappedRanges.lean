import Mathlib.Data.List.Basic

/-
  Ranges of addresses backed chunk by chunk: chunk `i` of a range is mapped at the `i`-th multiple of the chunk size
  from its start, and nothing else is mapped. The lemmas say what a map or an unmap at the end of one range does when
  the ranges stand apart.
-/

namespace MappedRanges
open List

variable {η σ : Type}

structure Mapping (η : Type) where
  address : Nat
  size : Nat
  handle : η

/-- A range, with the chunks that back it. A range that starts at 0 is no range. -/
structure Extent (η : Type) where
  start : Nat
  capacity : Nat
  size : Nat
  handles : List η

/-- The mapping of chunk `i`. -/
def Extent.chunk (e : Extent η) (i : Nat) (h : η) : Mapping η :=
  { address := e.start + i * e.size, size := e.size, handle := h }

def Extent.chunks (e : Extent η) : List (Mapping η) := e.handles.mapIdx e.chunk

/-- The mappings that do not lie in a range. -/
def clear (address size : Nat) (maps : List (Mapping η)) : List (Mapping η) :=
  maps.filter fun m => ¬ (address ≤ m.address ∧ m.address + m.size ≤ address + size)

structure Extent.Valid (e : Extent η) : Prop where
  pos : e.handles ≠ [] → 0 < e.size
  fits : e.handles.length * e.size ≤ e.capacity
  closed : e.start = 0 → e.handles = []

def Extent.Apart (e e' : Extent η) : Prop :=
  e.start ≠ 0 → e'.start ≠ 0 →
    e.start + e.capacity ≤ e'.start ∨ e'.start + e'.capacity ≤ e.start

/-- The ranges stand apart, and exactly their chunks are mapped. -/
structure Laid (extents : σ → Extent η) (maps : List (Mapping η)) : Prop where
  valid : ∀ s, (extents s).Valid
  apart : ∀ s s', s ≠ s' → (extents s).Apart (extents s')
  mapped : ∀ m, m ∈ maps ↔ ∃ s, m ∈ (extents s).chunks

variable {e : Extent η} {m : Mapping η} {maps : List (Mapping η)} {E F : σ → Extent η} {s : σ} {h : η}

theorem mem_chunks : m ∈ e.chunks ↔ ∃ i h, e.handles[i]? = some h ∧ m = e.chunk i h := by
  unfold Extent.chunks
  rw [mem_mapIdx]
  constructor
  · rintro ⟨i, hi, heq⟩
    exact ⟨i, e.handles[i], getElem?_eq_getElem hi, heq.symm⟩
  · rintro ⟨i, h, hget, heq⟩
    obtain ⟨hi, hval⟩ := List.getElem?_eq_some_iff.mp hget
    exact ⟨i, hi, by rw [hval, heq]⟩

variable {address size n : Nat}

theorem mem_clear :
    m ∈ clear address size maps ↔ m ∈ maps ∧ ¬ (address ≤ m.address ∧ m.address + m.size ≤ address + size) := by
  unfold clear
  rw [mem_filter, decide_eq_true_iff]

theorem clear_eq (h : ∀ m ∈ maps, ¬ (address ≤ m.address ∧ m.address + m.size ≤ address + size)) :
    clear address size maps = maps :=
  filter_eq_self.mpr fun m hm => decide_eq_true (h m hm)

theorem clear_append {new : List (Mapping η)}
    (h : ∀ m ∈ new, address ≤ m.address ∧ m.address + m.size ≤ address + size) :
    clear address size (maps ++ new) = clear address size maps := by
  unfold clear
  have hnone : new.filter (fun m => ¬ (address ≤ m.address ∧ m.address + m.size ≤ address + size)) = [] := by
    rw [filter_eq_nil_iff]
    intro m hm hout
    exact of_decide_eq_true hout (h m hm)
  rw [filter_append, hnone, append_nil]

theorem Extent.Valid.inside (hv : e.Valid) (hm : m ∈ e.chunks) :
    e.start ≠ 0 ∧ e.start ≤ m.address ∧ m.address + m.size ≤ e.start + e.handles.length * e.size ∧ 0 < m.size := by
  obtain ⟨i, h, hget, rfl⟩ := mem_chunks.mp hm
  obtain ⟨hi, -⟩ := List.getElem?_eq_some_iff.mp hget
  have hnext : (i + 1) * e.size ≤ e.handles.length * e.size := Nat.mul_le_mul_right _ hi
  rw [Nat.succ_mul] at hnext
  have hsome : e.handles ≠ [] := by
    intro hnil
    rw [hnil] at hi
    simp at hi
  refine ⟨?_, ?_, ?_, hv.pos hsome⟩
  · intro hzero
    exact hsome (hv.closed hzero)
  · exact Nat.le_add_right _ _
  · show e.start + i * e.size + e.size ≤ _
    omega

theorem chunk_before {i : Nat} (hi : i < n) : (e.chunk i h).address + (e.chunk i h).size ≤ e.start + n * e.size := by
  have hnext : (i + 1) * e.size ≤ n * e.size := Nat.mul_le_mul_right _ hi
  rw [Nat.succ_mul] at hnext
  show e.start + i * e.size + e.size ≤ _
  omega

theorem chunks_snoc {hs : List η} (heq : e.handles = hs ++ [h]) :
    e.chunks = ({ e with handles := hs } : Extent η).chunks ++ [e.chunk hs.length h] := by
  unfold Extent.chunks
  rw [heq, mapIdx_append]
  simp
  rfl

section
variable (hl : Laid E maps)
include hl

theorem Laid.other {s' : σ} (hne : s' ≠ s) (hstart : (E s).start ≠ 0) (hm : m ∈ (E s').chunks)
    (hfirst : (E s).start ≤ address) (hlast : address + size ≤ (E s).start + (E s).capacity) :
    ¬ (address ≤ m.address ∧ m.address + m.size ≤ address + size) := by
  obtain ⟨hstart', hlow, hhigh, hpos⟩ := (hl.valid s').inside hm
  have hfits := (hl.valid s').fits
  have := hl.apart s' s hne hstart' hstart
  omega

theorem Laid.clear_free (hstart : (E s).start ≠ 0)
    (hroom : ((E s).handles.length + 1) * (E s).size ≤ (E s).capacity) :
    clear ((E s).start + (E s).handles.length * (E s).size) (E s).size maps = maps := by
  rw [Nat.succ_mul] at hroom
  refine clear_eq fun m hm => ?_
  obtain ⟨s', hs'⟩ := (hl.mapped m).mp hm
  by_cases hne : s' = s
  · subst hne
    obtain ⟨-, -, hhigh, hpos⟩ := (hl.valid s').inside hs'
    omega
  · exact hl.other hne hstart hs' (by omega) (by omega)

theorem Laid.apart_of_handles {l : List η} (hs : F s = { E s with handles := l }) (hrest : ∀ s', s' ≠ s → F s' = E s') :
    ∀ a b, a ≠ b → (F a).Apart (F b) := by
  have hsame : ∀ s', (F s').start = (E s').start ∧ (F s').capacity = (E s').capacity := by
    intro s'
    by_cases hne : s' = s
    · subst hne
      rw [hs]
      exact ⟨rfl, rfl⟩
    rw [hrest s' hne]
    exact ⟨rfl, rfl⟩
  intro a b hab
  unfold Extent.Apart
  rw [(hsame a).1, (hsame b).1, (hsame a).2, (hsame b).2]
  exact hl.apart a b hab

theorem Laid.grow (hstart : (E s).start ≠ 0) (hpos : 0 < (E s).size)
    (hroom : ((E s).handles.length + 1) * (E s).size ≤ (E s).capacity)
    (hs : F s = { E s with handles := (E s).handles ++ [h] }) (hrest : ∀ s', s' ≠ s → F s' = E s') :
    Laid F (maps ++ [(E s).chunk (E s).handles.length h]) := by
  have hchunks : (F s).chunks = (E s).chunks ++ [(E s).chunk (E s).handles.length h] := by
    rw [hs]
    exact chunks_snoc rfl
  refine ⟨?_, ?_, ?_⟩
  · intro s'
    by_cases hne : s' = s
    · subst hne
      rw [hs]
      refine ⟨fun _ => hpos, ?_, fun hzero => absurd hzero hstart⟩
      simpa using hroom
    rw [hrest s' hne]
    exact hl.valid s'
  · exact hl.apart_of_handles hs hrest
  · intro m
    rw [mem_append, mem_singleton, hl.mapped]
    constructor
    · rintro (⟨s', hm⟩ | rfl)
      · by_cases hne : s' = s
        · subst hne
          exact ⟨s', by rw [hchunks]; exact mem_append_left _ hm⟩
        · exact ⟨s', by rw [hrest s' hne]; exact hm⟩
      · exact ⟨s, by rw [hchunks]; simp⟩
    · rintro ⟨s', hm⟩
      by_cases hne : s' = s
      · subst hne
        rw [hchunks, mem_append, mem_singleton] at hm
        exact hm.imp (fun hm => ⟨s', hm⟩) id
      · exact .inl ⟨s', by rw [← hrest s' hne]; exact hm⟩

/-- The chunks from `l` on go: what `clear` takes is exactly these. -/
theorem Laid.cut {l : List η} (hlen : l.length + n = (E s).handles.length) (htake : (E s).handles.take l.length = l)
    (hcut : F s = { E s with handles := l }) (hrest : ∀ s', s' ≠ s → F s' = E s') :
    Laid F (clear ((E s).start + l.length * (E s).size) (n * (E s).size) maps) := by
  have hfits := (hl.valid s).fits
  rw [← hlen, Nat.add_mul] at hfits
  refine ⟨?_, ?_, ?_⟩
  · intro s'
    by_cases hne : s' = s
    · subst hne
      rw [hcut]
      refine ⟨fun hsome => (hl.valid s').pos fun hnil => hsome ?_, ?_, ?_⟩
      · rw [← htake, hnil, take_nil]
      · show l.length * (E s').size ≤ (E s').capacity
        omega
      · intro hzero
        rw [← htake, (hl.valid s').closed hzero, take_nil]
    rw [hrest s' hne]
    exact hl.valid s'
  · exact hl.apart_of_handles hcut hrest
  · intro m
    have hown : ∀ i h, (E s).handles[i]? = some h → (m = (E s).chunk i h) →
        (¬ ((E s).start + l.length * (E s).size ≤ m.address ∧
          m.address + m.size ≤ (E s).start + l.length * (E s).size + n * (E s).size) ↔ i < l.length) := by
      rintro i h hget rfl
      obtain ⟨hi, -⟩ := List.getElem?_eq_some_iff.mp hget
      have hlast := chunk_before (e := E s) (h := h) (hlen ▸ hi)
      rw [Nat.add_mul] at hlast
      constructor
      · intro hout
        by_contra hge
        have hlow : l.length * (E s).size ≤ i * (E s).size := Nat.mul_le_mul_right _ (by omega)
        apply hout
        constructor
        · show _ ≤ (E s).start + i * (E s).size
          omega
        · omega
      · intro hlt hin
        have hbefore := chunk_before (e := E s) (h := h) hlt
        have hpos : 0 < ((E s).chunk i h).size := (hl.valid s).pos fun hnil => by simp [hnil] at hget
        omega
    have hsub : ∀ i h, l[i]? = some h ↔ i < l.length ∧ (E s).handles[i]? = some h := by
      intro i h
      have hval : l[i]? = if i < l.length then (E s).handles[i]? else none := by
        conv_lhs => rw [← htake]
        exact getElem?_take
      rw [hval]
      by_cases hi : i < l.length
      · rw [if_pos hi]
        exact ⟨fun hget => ⟨hi, hget⟩, fun hget => hget.2⟩
      rw [if_neg hi]
      exact ⟨nofun, fun hget => absurd hget.1 hi⟩
    rw [mem_clear, hl.mapped]
    constructor
    · rintro ⟨⟨s', hm⟩, hout⟩
      by_cases hne : s' = s
      · subst hne
        obtain ⟨i, h, hget, heq⟩ := mem_chunks.mp hm
        refine ⟨s', ?_⟩
        rw [hcut]
        exact mem_chunks.mpr ⟨i, h, (hsub i h).mpr ⟨(hown i h hget heq).mp hout, hget⟩, heq⟩
      · exact ⟨s', by rw [hrest s' hne]; exact hm⟩
    · rintro ⟨s', hm⟩
      by_cases hne : s' = s
      · subst hne
        rw [hcut] at hm
        obtain ⟨i, h, hget, heq⟩ := mem_chunks.mp hm
        obtain ⟨hi, hold⟩ := (hsub i h).mp hget
        exact ⟨⟨s', mem_chunks.mpr ⟨i, h, hold, heq⟩⟩, (hown i h hold heq).mpr hi⟩
      rw [hrest s' hne] at hm
      refine ⟨⟨s', hm⟩, ?_⟩
      by_cases hstart : (E s).start = 0
      · -- a range that is no range holds nothing to take
        have hnil := (hl.valid s).closed hstart
        have hzero : n = 0 := by
          rw [hnil] at hlen
          simp at hlen
          omega
        have hpos := ((hl.valid s').inside hm).2.2.2
        rw [hzero]
        omega
      · exact hl.other hne hstart hm (by omega) (by omega)

theorem Laid.restart (hempty : (E s).handles = []) {a : Nat}
    (hs : F s = { E s with start := a }) (hrest : ∀ s', s' ≠ s → F s' = E s')
    (hapart : ∀ s', s' ≠ s → (F s).Apart (E s')) : Laid F maps := by
  have hnone : ∀ e : Extent η, e.handles = [] → e.chunks = [] := by
    intro e he
    unfold Extent.chunks
    rw [he]
    rfl
  have hempty' : (F s).handles = [] := by rw [hs]; exact hempty
  refine ⟨?_, ?_, ?_⟩
  · intro s'
    by_cases hne : s' = s
    · subst hne
      rw [hs]
      exact ⟨(hl.valid s').pos, (hl.valid s').fits, fun _ => hempty⟩
    rw [hrest s' hne]
    exact hl.valid s'
  · intro p q hpq
    by_cases hp : p = s
    · subst hp
      rw [hrest q (Ne.symm hpq)]
      exact hapart q (Ne.symm hpq)
    rw [hrest p hp]
    by_cases hq : q = s
    · subst hq
      intro h1 h2
      exact (hapart p hp h2 h1).symm
    rw [hrest q hq]
    exact hl.apart p q hpq
  · intro m
    rw [hl.mapped]
    constructor <;> rintro ⟨s', hm⟩ <;> by_cases hne : s' = s
    · subst hne
      rw [hnone _ hempty] at hm
      cases hm
    · exact ⟨s', by rw [hrest s' hne]; exact hm⟩
    · subst hne
      rw [hnone _ hempty'] at hm
      cases hm
    · exact ⟨s', by rw [← hrest s' hne]; exact hm⟩

theorem Laid.congr (heq : ∀ s, F s = E s) : Laid F maps := by
  have h : F = E := funext heq
  rw [h]
  exact hl

end

end MappedRanges
