import Mathlib.Data.List.Pairwise
import Mathlib.Data.List.Perm.Subperm
import VoidInfer.HostKV.Session

/-
  The arena reserves its vectors once: as many descriptors as pages of the smallest stride fit, and one free extent
  more. No run needs more (`arena_run_packed`).

  A free extent that does not start at zero starts where an active range ends, so there are at most as many of them as
  active ranges. An extent before the first active range is as large as the smallest stride, because no active range
  starts closer to zero than that; so when every descriptor is in use there is no such extent, and a release, which
  inserts before it joins, has room.
-/

namespace SpanList
open List

/-! ## Neighbours in a partition -/

theorem Canonical.apart_of_ne {l : List Span} (h : Canonical l) {s t : Span} (hs : s ∈ l) (ht : t ∈ l) (hne : s ≠ t) :
    s.stop < t.start ∨ t.stop < s.start := by
  have hsymm : Std.Symm fun a b : Span => a.stop < b.start ∨ b.stop < a.start := ⟨fun _ _ => Or.symm⟩
  have hgap : l.Pairwise fun a b => a.stop < b.start ∨ b.stop < a.start := h.gap.imp .inl
  exact hgap.forall hs ht hne

section Partition

variable {used free : List Span} {n : Nat} {e : Span}

section
variable (h : Tiles (used ++ free) n) (hfree : Canonical free) (he : e ∈ free)
include h hfree he

theorem Tiles.free_start : e.start = 0 ∨ ∃ r ∈ used, r.stop = e.start := by
  by_cases hzero : e.start = 0
  · exact .inl hzero
  have hstop := h.stop_le (mem_append_right used he)
  unfold Span.stop at hstop
  obtain ⟨s, hs, hlow, hhigh⟩ := (h.covers (e.start - 1)).mpr (by omega)
  unfold Span.stop at hhigh
  rcases mem_append.mp hs with hs | hs
  · refine .inr ⟨s, hs, ?_⟩
    have hapart := (pairwise_append.mp h.apart).2.2 s hs e he
    simp only [Span.Apart, Span.stop] at hapart ⊢
    omega
  have hne : s ≠ e := by
    rintro rfl
    omega
  have hgap := hfree.apart_of_ne hs he hne
  unfold Span.stop at hgap
  omega

theorem Tiles.free_stop : e.stop = n ∨ ∃ r ∈ used, r.start = e.stop := by
  by_cases hend : e.stop = n
  · exact .inl hend
  have hstop := h.stop_le (mem_append_right used he)
  obtain ⟨s, hs, hlow, hhigh⟩ := (h.covers e.stop).mpr (by omega)
  unfold Span.stop at hlow hhigh
  rcases mem_append.mp hs with hs | hs
  · refine .inr ⟨s, hs, ?_⟩
    have hapart := (pairwise_append.mp h.apart).2.2 s hs e he
    simp only [Span.Apart, Span.stop] at hapart ⊢
    omega
  have hne : s ≠ e := by
    rintro rfl
    omega
  have hgap := hfree.apart_of_ne hs he hne
  unfold Span.stop at hgap
  omega

end

theorem Canonical.starts_nodup {l : List Span} (h : Canonical l) : (l.map Span.start).Nodup := by
  refine pairwise_map.mpr (h.gap.imp fun {a b} hgap => ?_)
  unfold Span.stop at hgap
  omega

section
variable (h : Tiles (used ++ free) n) (hfree : Canonical free)
include h hfree

theorem Tiles.length_free_le : free.length ≤ used.length + 1 := by
  have hsub : free.map Span.start ⊆ 0 :: used.map Span.stop := by
    intro x hx
    obtain ⟨e, he, rfl⟩ := mem_map.mp hx
    rcases h.free_start hfree he with hzero | ⟨r, hr, hstop⟩
    · exact mem_cons.mpr (.inl hzero)
    · exact mem_cons_of_mem _ (mem_map.mpr ⟨r, hr, hstop⟩)
  have hle := (List.Nodup.subperm hfree.starts_nodup hsub).length_le
  simpa using hle

theorem Tiles.length_free_le_of_start (hstart : ∀ e ∈ free, e.start ≠ 0) : free.length ≤ used.length := by
  have hsub : free.map Span.start ⊆ used.map Span.stop := by
    intro x hx
    obtain ⟨e, he, rfl⟩ := mem_map.mp hx
    obtain ⟨r, hr, hstop⟩ := (h.free_start hfree he).resolve_left (hstart e he)
    exact mem_map.mpr ⟨r, hr, hstop⟩
  have hle := (List.Nodup.subperm hfree.starts_nodup hsub).length_le
  simpa using hle

end

end Partition

end SpanList

namespace VoidInfer.HostKV.HostKVArena

open SpanList List

/-! ## Inserting and joining -/

section
variable (extents : List FreeExtent)

/-- Where `insert_free_extent` inserts, as `std::lower_bound` finds it. -/
def insertPosition (extent : FreeExtent) : Nat :=
  (extents.takeWhile fun candidate => decide (candidate.start < extent.start)).length

/-- The vector of `insert_free_extent` after `insert` and before neighbours are joined. -/
def insertExtent (extent : FreeExtent) : List FreeExtent :=
  extents.takeWhile (fun candidate => decide (candidate.start < extent.start)) ++
    extent :: extents.dropWhile fun candidate => decide (candidate.start < extent.start)

/-- Join the extent at `i` with the one after it, if they touch. -/
def joinNext (i : Nat) : List FreeExtent :=
  match extents[i]?, extents[i + 1]? with
  | some inserted, some next =>
    if inserted.stop = next.start then (extents.set i ⟨inserted.start, inserted.size + next.size⟩).eraseIdx (i + 1)
    else extents
  | _, _ => extents

/-- The rest of `insert_free_extent`: the inserted extent at `i` is joined with the one before, then with the one after. -/
def joinNeighbours : Nat → List FreeExtent
  | 0 => joinNext extents 0
  | i + 1 =>
    match extents[i]?, extents[i + 1]? with
    | some previous, some inserted =>
      if previous.stop = inserted.start then
        joinNext ((extents.set i ⟨previous.start, previous.size + inserted.size⟩).eraseIdx (i + 1)) i
      else joinNext extents (i + 1)
    | _, _ => extents

end

theorem joinNext_append (lo hi : List FreeExtent) (e : FreeExtent) :
    joinNext (lo ++ e :: hi) lo.length = lo ++ joinRight e hi := by
  cases hi with
  | nil => simp [joinNext, joinRight]
  | cons next rest =>
    have hinserted : (lo ++ e :: next :: rest)[lo.length]? = some e := by simp
    have hnext : (lo ++ e :: next :: rest)[lo.length + 1]? = some next := by
      simp
    simp only [joinNext, joinRight, hinserted, hnext]
    split
    · rw [set_append_right _ _ le_rfl, eraseIdx_append_of_length_le (Nat.le_succ _)]
      simp
    · rfl

theorem insertSpan_eq_joinNeighbours (extents : List FreeExtent) (extent : FreeExtent) :
    insertSpan extents extent = joinNeighbours (insertExtent extents extent) (insertPosition extents extent) := by
  simp only [insertSpan, insertExtent, insertPosition]
  generalize extents.takeWhile (fun candidate => decide (candidate.start < extent.start)) = lo
  generalize extents.dropWhile (fun candidate => decide (candidate.start < extent.start)) = hi
  rcases eq_nil_or_concat lo with rfl | ⟨before, previous, rfl⟩
  · exact (joinNext_append [] hi extent).symm
  rw [concat_eq_append]
  have hlength : (before ++ [previous]).length = before.length + 1 := by simp
  have hprevious : (before ++ [previous] ++ extent :: hi)[before.length]? = some previous := by simp
  have hinserted : (before ++ [previous] ++ extent :: hi)[before.length + 1]? = some extent := by
    simp
  rw [hlength]
  simp only [joinNeighbours, hprevious, hinserted, joinLeft, getLast?_append, getLast?_singleton,
    Option.some_or]
  split
  · have hjoined : ((before ++ [previous] ++ extent :: hi).set before.length
        ⟨previous.start, previous.size + extent.size⟩).eraseIdx (before.length + 1) =
        before ++ ⟨previous.start, previous.size + extent.size⟩ :: hi := by
      rw [append_assoc, set_append_right _ _ le_rfl, eraseIdx_append_of_length_le (Nat.le_succ _)]
      simp
    rw [hjoined, joinNext_append, dropLast_concat]
  have hnext := joinNext_append (before ++ [previous]) hi extent
  rw [hlength] at hnext
  exact hnext.symm

theorem length_insertExtent (extents : List FreeExtent) (extent : FreeExtent) :
    (insertExtent extents extent).length = extents.length + 1 := by
  have hsplit := congrArg List.length
    (takeWhile_append_dropWhile (p := fun candidate => decide (candidate.start < extent.start)) (l := extents))
  rw [length_append] at hsplit
  simp only [insertExtent, length_append, length_cons]
  omega

/-! ## Packing -/

/-- There are as many descriptors as the constructor makes, and no active range starts between zero and the smallest
    stride. -/
structure Packed (a : HostKVArena) : Prop where
  unit : a.descriptors.length = a.capacityBytes / smallestStride a.layouts
  aligned : ∀ d ∈ a.descriptors, d.active = true → d.offset = 0 ∨ smallestStride a.layouts ≤ d.offset

variable {a a' : HostKVArena} {al : HostKVAllocation}

theorem make_packed {self capacityBytes : Nat} {layouts : List HostKVPageLayout}
    (h : make self capacityBytes layouts = .ok a) : Packed a := by
  obtain ⟨_, _, h⟩ := bind_ok h
  split at h
  · next hzero =>
    subst hzero
    cases h
    exact ⟨by simp, by simp⟩
  obtain ⟨_, _, h⟩ := bind_ok h
  obtain ⟨_, _, h⟩ := bind_ok h
  cases h
  refine ⟨by simp, fun d hd hact => ?_⟩
  rw [eq_of_mem_replicate hd] at hact
  cases hact

theorem takeExtent_mem {extents extents' : List FreeExtent} {bytes offset : Nat}
    (h : takeExtent extents bytes = some (offset, extents')) : ∃ e ∈ extents, e.start = offset := by
  unfold takeExtent at h
  split at h
  · cases h
  next i hi =>
  obtain ⟨hlt, _⟩ := findIdx?_eq_some_iff_getElem.mp hi
  simp only [getD_eq_getElem?_getD, getElem?_eq_getElem hlt, Option.getD_some, Option.some.injEq,
    Prod.mk.injEq] at h
  exact ⟨extents[i], getElem_mem hlt, h.1⟩

theorem Inv.extent_aligned (h : Inv a) {e : FreeExtent} (he : e ∈ a.freeExtents) :
    e.start = 0 ∨ smallestStride a.layouts ≤ e.start := by
  rcases h.tiles.free_start h.canonical he with hzero | ⟨r, hr, hstop⟩
  · exact .inl hzero
  refine .inr ?_
  have hsize := h.unit_le_size (fun _ hl => smallestStride_le hl) r hr
  unfold Span.stop at hstop
  omega

theorem allocate_packed {layout : HostKVPageLayout} {pages : Nat}
    (hinv : Inv a) (hpacked : Packed a) (h : a.allocate layout pages = some (al, a')) : Packed a' := by
  obtain ⟨layoutIndex, offset, extents, index, rest, d, _, _, hext, _, _, _, rfl⟩ := allocate_eq_some h
  refine ⟨by simpa using hpacked.unit, fun f hf hact => ?_⟩
  rcases mem_or_eq_of_mem_set hf with hf | rfl
  · exact hpacked.aligned f hf hact
  obtain ⟨e, he, hstart⟩ := takeExtent_mem hext
  have haligned := hinv.extent_aligned he
  rw [hstart] at haligned
  exact haligned

theorem split_packed {left right : HostKVAllocation} {pageOffset : Nat} (hinv : Inv a)
    (hpacked : Packed a) (h : a.split al pageOffset = .ok ((left, right), a')) : Packed a' := by
  obtain ⟨d, rightIndex, rest, stride, hvalid, hd, hpos, _, _, hstride, _, _, rfl⟩ := split_eq_ok h
  obtain ⟨howner, d', hd', hact', _⟩ := validHandle_iff.mp hvalid
  rw [handle_eq howner] at hd'
  have hget : d = d' := by
    rw [hd, getD_eq_getElem?_getD, hd']
    rfl
  have hmem : d ∈ a.descriptors := hget ▸ mem_of_getElem? hd'
  have hact : d.active = true := hget ▸ hact'
  obtain ⟨layout, hl, hget, _⟩ := hinv.layout_mem hmem hact
  have hsmall : smallestStride a.layouts ≤ stride := by
    rw [hstride, getD_eq_getElem?_getD, hget]
    exact smallestStride_le hl
  refine ⟨by simpa using hpacked.unit, fun f hf hfact => ?_⟩
  rcases mem_or_eq_of_mem_set hf with hf | rfl
  · rcases mem_or_eq_of_mem_set hf with hf | rfl
    · exact hpacked.aligned f hf hfact
    · right
      have hle : stride ≤ pageOffset * stride := Nat.le_mul_of_pos_left _ hpos
      show smallestStride a.layouts ≤ d.offset + pageOffset * stride
      omega
  · exact hpacked.aligned d hmem hact

theorem release_packed (hpacked : Packed a) (h : a.release al = some a') : Packed a' := by
  unfold release at h
  split at h
  · obtain ⟨d, _, _, _, rfl⟩ := releaseDescriptor_eq_some h
    refine ⟨by simpa using hpacked.unit, fun f hf hact => ?_⟩
    rcases mem_or_eq_of_mem_set hf with hf | rfl
    · exact hpacked.aligned f hf hact
    · cases hact
  · cases h

theorem releaseAll_packed {als : List HostKVAllocation} (hpacked : Packed a) (h : a.releaseAll als = some a') :
    Packed a' :=
  releaseAll_induction (P := fun a _ => Packed a) release_packed [] hpacked h

theorem Run.packed {log : List Event} (hr : Run a log) : Packed a :=
  And.right <| hr.rule (P := fun a _ => Inv a ∧ Packed a)
    (fun ⟨hinv, hp⟩ h => ⟨release_inv hinv h, release_packed hp h⟩)
    (fun ⟨hinv, hp⟩ h => ⟨allocate_inv hinv h, allocate_packed hinv hp h⟩)
    (fun ⟨hinv, hp⟩ h => ⟨split_inv hinv h, split_packed hinv hp h⟩) fun hc h => ⟨make_inv hc h, make_packed h⟩

/-! ## Bounds -/

theorem Inv.start_ne_zero (h : Inv a) (hpacked : Packed a) (hfull : a.freeDescriptors = [])
    (hused : 0 < a.activeRanges.length) : ∀ e ∈ a.freeExtents, e.start ≠ 0 := by
  intro e he hzero
  have hcount := length_activeRanges_add h
  rw [hfull, length_nil, Nat.add_zero, hpacked.unit] at hcount
  have hpos : 0 < smallestStride a.layouts := by
    by_contra hnot
    have hstride : smallestStride a.layouts = 0 := by omega
    rw [hstride, Nat.div_zero] at hcount
    omega
  have hcapacity := Nat.lt_mul_div_succ a.capacityBytes hpos
  rw [← hcount, Nat.mul_succ] at hcapacity
  have hranges := total_ge (h.unit_le_size fun _ hl => smallestStride_le hl)
  have htotal := h.total_eq
  rw [h.occupied] at htotal
  have hfits := size_le_total he
  rcases h.tiles.free_stop h.canonical he with hend | ⟨r, hr, hstart⟩
  -- the extent is all there is
  · have hleft := Nat.mul_pos hpos hused
    unfold Span.stop at hend
    omega
  · obtain ⟨d, hd, hact, rfl⟩ := mem_activeRanges.mp hr
    have hsize := h.canonical.pos e he
    have haligned := hpacked.aligned d hd hact
    unfold Span.stop at hstart
    simp only at hstart
    omega

theorem Inv.insertExtent_le (h : Inv a) (hpacked : Packed a) (hused : 0 < a.activeRanges.length)
    (extent : FreeExtent) : (insertExtent a.freeExtents extent).length ≤ a.descriptors.length + 1 := by
  rw [length_insertExtent]
  have hcount := length_activeRanges_add h
  by_cases hfull : a.freeDescriptors = []
  · have hlength := h.tiles.length_free_le_of_start h.canonical (h.start_ne_zero hpacked hfull hused)
    omega
  have hlength := h.tiles.length_free_le h.canonical
  have hfree := length_pos_iff.mpr hfull
  omega

theorem release_eq_some (h : a.release al = some a') :
    a.validHandle al.handle = true ∧ 0 < a.activeRanges.length := by
  unfold release at h
  split at h
  · next howner =>
    obtain ⟨d, hd, hact, hgeneration, _⟩ := releaseDescriptor_eq_some h
    refine ⟨?_, length_pos_of_mem (mem_activeRanges.mpr ⟨d, mem_of_getElem? hd, hact, rfl⟩)⟩
    simp [validHandle, HostKVAllocation.handle, HostKVAllocation.valid, howner, hd, hact, hgeneration]
  · cases h

theorem releaseAll_length {als : List HostKVAllocation} : ∀ {a a' : HostKVArena}, a.releaseAll als = some a' →
    a'.descriptors.length = a.descriptors.length := by
  induction als with
  | nil =>
    intro a a' h
    cases h
    rfl
  | cons al als ih =>
    intro a a' h
    unfold releaseAll at h
    split at h
    · cases h
    next b hb =>
    rw [ih h]
    unfold release at hb
    split at hb
    · obtain ⟨d, _, _, _, rfl⟩ := releaseDescriptor_eq_some hb
      exact length_set
    · cases hb

/-- In every arena a run produces: a valid allocation is split at every interior page; when no descriptor is free,
    no free extent has room for a page of any layout; the free extents and free descriptors stay within what the
    constructor reserved, and so does the list that a release, also one of those `apply_recipe` makes, has inserted
    into and not yet joined. -/
theorem arena_run_packed {a : HostKVArena} {log : List Event} (hr : Run a log) :
    a.descriptors.length = a.capacityBytes / smallestStride a.layouts ∧
    (∀ (al : HostKVAllocation) (pageOffset : Nat), a.validHandle al.handle = true → 0 < pageOffset →
      pageOffset < (a.descriptors.getD al.descriptor {}).pages → ∃ halves, a.split al pageOffset = .ok halves) ∧
    (a.freeDescriptors = [] → ∀ layout ∈ a.layouts, ∀ pages, 0 < pages → ∀ e ∈ a.freeExtents,
      e.size < layout.pageStride * pages) ∧
    a.freeDescriptors.length ≤ a.descriptors.length ∧
    a.freeExtents.length ≤ a.descriptors.length + 1 ∧
    ∀ (als : List HostKVAllocation) (b : HostKVArena), a.releaseAll als = some b →
      ∀ (al : HostKVAllocation) (c : HostKVArena), b.release al = some c →
        (insertExtent b.freeExtents (b.rangeOf al.handle)).length ≤ a.descriptors.length + 1 ∧
        c.freeExtents = joinNeighbours (insertExtent b.freeExtents (b.rangeOf al.handle))
          (insertPosition b.freeExtents (b.rangeOf al.handle)) := by
  have hinv := hr.inv
  have hcount := length_activeRanges_add hinv
  have hfree := hinv.tiles.length_free_le hinv.canonical
  refine ⟨hr.packed.unit, ?_, ?_, by omega, by omega, ?_⟩
  · intro al pageOffset hvalid hpos hlt
    obtain ⟨howner, d, hd, hact, _⟩ := validHandle_iff.mp hvalid
    rw [handle_eq howner] at hd
    have hget : a.descriptors.getD al.descriptor {} = d := by
      rw [getD_eq_getElem?_getD, hd]
      rfl
    have hpages : 2 ≤ d.pages := by
      rw [hget] at hlt
      omega
    have hdescriptor := hinv.split_takes_descriptor hd hact hpages
    have hinterior : ¬ (pageOffset = 0 ∨ pageOffset ≥ (a.descriptors.getD al.descriptor {}).pages) := by omega
    cases hstack : a.freeDescriptors with
    | nil => exact absurd hstack hdescriptor
    | cons rightIndex rest =>
      simp only [split, hvalid, if_neg hinterior, takeDescriptor, hstack]
      exact ⟨_, rfl⟩
  · intro hfull layout hl pages hpos e he
    by_contra hroom
    have hstride : layout.pageStride ≤ layout.pageStride * pages := Nat.le_mul_of_pos_right _ hpos
    have hsize := size_le_total he
    exact hinv.exists_free_descriptor hl (by omega) hfull
  · intro als b hb al c hc
    have hpacked := releaseAll_packed hr.packed hb
    have hlength := releaseAll_length hb
    have hinvb := releaseAll_inv hinv hb
    obtain ⟨hvalid, hused⟩ := release_eq_some hc
    obtain ⟨c', hc', _, _, _, _, hextents, _⟩ := release_spec hinvb hvalid
    obtain rfl := Option.mem_unique hc hc'
    rw [← hlength, ← insertSpan_eq_joinNeighbours]
    exact ⟨hinvb.insertExtent_le hpacked hused _, hextents⟩

theorem arena_run_packed_sample : sampleArena.freeExtents.length ≤ 5 :=
  (arena_run_packed sampleArena_run).2.2.2.2.1

theorem Inv.covers_free (h : Inv a) (x : Nat) :
    Covers a.freeExtents x ↔ x < a.capacityBytes ∧ ¬ Covers a.activeRanges x := by
  have htiles := h.tiles.covers x
  rw [covers_append] at htiles
  have hdisjoint := h.tiles.disjoint (x := x)
  tauto

/-- What an arena can serve depends on the bytes in use alone, not on the calls that led there: two arenas of the same
    layouts and capacity that use the same bytes have the same free list and the same account, and a batch of requests
    succeeds in both or in neither and leaves both with the same free list. -/
theorem same_bytes_same_service {b : HostKVArena} (ha : Reachable a) (hb : Reachable b)
    (hcapacity : a.capacityBytes = b.capacityBytes) (hlayouts : a.layouts = b.layouts)
    (hbytes : ∀ x, Covers a.activeRanges x ↔ Covers b.activeRanges x) :
    a.freeExtents = b.freeExtents ∧ a.occupiedBytes = b.occupiedBytes ∧ ∀ requests,
      (a.allocateAll requests).map (fun r => r.2.freeExtents) =
        (b.allocateAll requests).map fun r => r.2.freeExtents := by
  obtain ⟨_, ha⟩ := ha
  obtain ⟨_, hb⟩ := hb
  have hfree : a.freeExtents = b.freeExtents := ha.inv.canonical.ext hb.inv.canonical fun x => by
    rw [ha.inv.covers_free, hb.inv.covers_free, hcapacity, hbytes]
  have htotal := ha.inv.total_eq
  have htotal' := hb.inv.total_eq
  refine ⟨hfree, by rw [hfree] at htotal; omega, fun requests => ?_⟩
  rw [allocateAll_eq_fitAll ha.inv, allocateAll_eq_fitAll hb.inv, fitAll_congr hlayouts, hfree]

/-- The same two pages, and no others, allocated second and not split off. -/
theorem same_bytes_same_service_sample : ∃ b log, Run b log ∧
    b.descriptors.map (·.generation) ≠ sampleArena.descriptors.map (·.generation) ∧
    b.freeExtents = sampleArena.freeExtents := by
  have hmake : make 0 1024 [sampleLayout] = .ok _ := rfl
  have h0 := Run.make (by decide) hmake
  have h1 := h0.call (.allocate sampleLayout 1) rfl
  have h2 := h1.call (.allocate sampleLayout 2) rfl
  have h3 := h2.call (.release ⟨some 0, 0, 1⟩) rfl
  refine ⟨_, _, h3, by decide, (same_bytes_same_service ⟨_, h3⟩ ⟨_, sampleArena_run⟩ rfl rfl fun _ => Iff.rfl).1⟩

end VoidInfer.HostKV.HostKVArena
