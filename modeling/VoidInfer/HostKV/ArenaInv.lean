import VoidInfer.HostKV.Arena
import VoidInfer.Lib.ListUpdate

/-
  The arena's invariant: active ranges and free extents partition the capacity, the free list is canonical, and the free
  descriptors are the inactive ones. Every operation keeps it. A consequence the operations rely on: descriptors never
  run out before bytes do (`exists_free_descriptor`, `split_takes_descriptor`).
-/

namespace VoidInfer.HostKV
open List Option ListUpdate

open SpanList

/-- The byte range an active descriptor owns. -/
def Descriptor.range (d : Descriptor) : Option Span :=
  if d.active then some ⟨d.offset, d.bytes⟩ else none

variable {d : Descriptor}

theorem Descriptor.range_active (h : d.active = true) : d.range = some ⟨d.offset, d.bytes⟩ := by simp [range, h]

theorem Descriptor.range_inactive (h : d.active = false) : d.range = none := by
  simp [range, h]

namespace HostKVArena

/-- The active descriptors' byte ranges. -/
def activeRanges (a : HostKVArena) : List Span := a.descriptors.filterMap Descriptor.range

structure Inv (a : HostKVArena) : Prop where
  capacity_le : a.capacityBytes ≤ sizeMax
  tiles : Tiles (a.activeRanges ++ a.freeExtents) a.capacityBytes
  canonical : Canonical a.freeExtents
  occupied : a.occupiedBytes = total a.activeRanges
  sized : ∀ d ∈ a.descriptors, d.active = true → ∃ layout, a.layouts[d.layout]? = some layout ∧
    0 < d.pages ∧ d.bytes = d.pages * layout.pageStride
  free_nodup : a.freeDescriptors.Nodup
  mem_free : ∀ i, i ∈ a.freeDescriptors ↔ ∃ d, a.descriptors[i]? = some d ∧ d.active = false
  unit : ∃ m, 0 < m ∧ (∀ layout ∈ a.layouts, m ≤ layout.pageStride) ∧
    a.capacityBytes / m = a.descriptors.length

variable {layouts : List HostKVPageLayout} {layout : HostKVPageLayout} {a a' : HostKVArena}
  {i index : Nat} {d : Descriptor} {al : HostKVAllocation}

/-! ## Construction -/

theorem checkLayouts_stride_pos {seen : List HostKVPageLayout} {u : Unit}
    (h : checkLayouts seen layouts = .ok u) : ∀ layout ∈ layouts, 0 < layout.pageStride := by
  induction layouts generalizing seen with
  | nil => simp
  | cons layout rest ih =>
    obtain ⟨planned, hplan, h⟩ := bind_ok h
    obtain ⟨heq, h⟩ := check_ok h
    obtain ⟨_, _, h⟩ := bind_ok h
    rw [not_not] at heq
    intro l hl
    rcases mem_cons.mp hl with rfl | hl
    · rw [← heq]
      exact planHostKVPageLayoutImpl_stride_pos hplan
    · exact ih h l hl

theorem smallestStride_le (h : layout ∈ layouts) : smallestStride layouts ≤ layout.pageStride := by
  unfold smallestStride
  have hm : layout.pageStride ∈ layouts.map (·.pageStride) := List.mem_map_of_mem h
  cases hmin : (layouts.map (·.pageStride)).min? with
  | none => simp
  | some m => exact (min?_eq_some_iff.mp hmin).2 _ hm

theorem smallestStride_pos (hne : layouts ≠ [])
    (h : ∀ layout ∈ layouts, 0 < layout.pageStride) : 0 < smallestStride layouts := by
  unfold smallestStride
  cases hmin : (layouts.map (·.pageStride)).min? with
  | none => exact absurd (by simpa using min?_eq_none_iff.mp hmin) hne
  | some m =>
    obtain ⟨layout, hl, rfl⟩ := List.mem_map.mp (min?_eq_some_iff.mp hmin).1
    exact h layout hl

theorem activeRanges_replicate (n : Nat) : (List.replicate n ({} : Descriptor)).filterMap Descriptor.range = [] := by
  induction n with
  | zero => rfl
  | succ n ih => rw [replicate_succ, filterMap_cons, ih]; rfl

theorem make_inv {self capacityBytes : Nat}
    (hc : capacityBytes ≤ sizeMax) (h : make self capacityBytes layouts = .ok a) : Inv a := by
  obtain ⟨_, hlayouts, h⟩ := bind_ok h
  have hpos := checkLayouts_stride_pos hlayouts
  split at h
  · next h0 =>
    subst h0
    cases h
    exact ⟨hc, ⟨by simp [activeRanges], by simp [activeRanges], by simp [activeRanges]⟩,
      canonical_nil, rfl, by simp, nodup_nil, by simp,
      ⟨1, Nat.one_pos, hpos, by simp⟩⟩
  next h0 =>
  obtain ⟨hne, h⟩ := check_ok h
  obtain ⟨_, _, h⟩ := bind_ok h
  cases h
  refine ⟨hc, ?_, canonical_singleton (by simp only; omega), ?_, ?_, nodup_range, ?_,
    ⟨_, smallestStride_pos hne hpos, fun l hl => smallestStride_le hl, by simp⟩⟩
  · simp only [activeRanges, activeRanges_replicate, nil_append]
    refine ⟨by simp only [mem_singleton]; rintro s rfl; simp only; omega,
      pairwise_singleton _ _, fun x => by simp [Span.mem_iff]⟩
  · simp [activeRanges, activeRanges_replicate]
  · intro d hd hact
    rw [eq_of_mem_replicate hd] at hact
    cases hact
  · intro i
    simp only [mem_range, getElem?_replicate]
    constructor
    · intro hi
      exact ⟨{}, by rw [if_pos hi], rfl⟩
    · rintro ⟨d, hd, -⟩
      by_contra hi
      rw [if_neg hi] at hd
      cases hd

/-! ## The table of descriptors -/

theorem activeRanges_set (h : a.descriptors[i]? = some d) :
    ∃ rest, a.activeRanges.Perm (d.range.toList ++ rest) ∧
      ∀ e, ((a.descriptors.set i e).filterMap Descriptor.range).Perm (e.range.toList ++ rest) :=
  filterMap_set_perm h Descriptor.range

theorem Inv.total_eq (h : Inv a) : a.occupiedBytes + total a.freeExtents = a.capacityBytes := by
  rw [h.occupied, ← total_append, h.tiles.total_eq]

theorem Inv.layout_mem (h : Inv a) (hd : d ∈ a.descriptors)
    (hact : d.active = true) : ∃ layout ∈ a.layouts, a.layouts[d.layout]? = some layout ∧
      0 < d.pages ∧ d.bytes = d.pages * layout.pageStride := by
  obtain ⟨layout, hl, hp, hb⟩ := h.sized d hd hact
  exact ⟨layout, mem_of_getElem? hl, hl, hp, hb⟩

theorem length_activeRanges_add (h : Inv a) :
    a.activeRanges.length + a.freeDescriptors.length = a.descriptors.length := by
  have hfree := length_eq_countP (p := fun d : Descriptor => !d.active) h.free_nodup (by simpa using h.mem_free)
  have hact : a.activeRanges.length = a.descriptors.countP fun d => d.active := by
    rw [activeRanges, length_filterMap_eq_countP]
    refine countP_congr fun d _ => ?_
    cases h : d.active <;> simp [Descriptor.range, h]
  rw [hfree, hact, length_eq_countP_add_countP (fun d => d.active)]
  simp

theorem mem_activeRanges {s : Span} :
    s ∈ a.activeRanges ↔ ∃ d ∈ a.descriptors, d.active = true ∧ s = ⟨d.offset, d.bytes⟩ := by
  rw [activeRanges, mem_filterMap]
  refine exists_congr fun d => and_congr_right fun _ => ?_
  cases h : d.active
  · simp [Descriptor.range_inactive h]
  · simp [Descriptor.range_active h, eq_comm]

theorem Inv.unit_le_size (h : Inv a) {m : Nat}
    (hm : ∀ layout ∈ a.layouts, m ≤ layout.pageStride) : ∀ s ∈ a.activeRanges, m ≤ s.size := by
  intro s hs
  obtain ⟨d, hd, hact, rfl⟩ := mem_activeRanges.mp hs
  obtain ⟨layout, hl, -, hp, hb⟩ := h.layout_mem hd hact
  rw [hb]
  exact Nat.le_trans (hm layout hl) (Nat.le_mul_of_pos_left _ hp)

theorem Inv.free_ne_nil (h : Inv a)
    (hroom : ∀ m, (∀ layout ∈ a.layouts, m ≤ layout.pageStride) →
      m * (a.activeRanges.length + 1) ≤ a.capacityBytes) : a.freeDescriptors ≠ [] := by
  intro hnil
  obtain ⟨m, hm, hle, hlen⟩ := h.unit
  have hcount := length_activeRanges_add h
  have := hroom m hle
  rw [hnil, length_nil, Nat.add_zero] at hcount
  have hlt : a.activeRanges.length + 1 ≤ a.capacityBytes / m :=
    (Nat.le_div_iff_mul_le hm).mpr (by rw [Nat.mul_comm]; exact this)
  omega

theorem Inv.exists_free_descriptor (h : Inv a) (hl : layout ∈ a.layouts)
    (hroom : layout.pageStride ≤ total a.freeExtents) : a.freeDescriptors ≠ [] := by
  refine h.free_ne_nil fun m hm => ?_
  have h1 := total_ge (h.unit_le_size hm)
  have h2 := h.total_eq
  have h3 := hm layout hl
  rw [h.occupied] at h2
  rw [Nat.mul_succ]
  omega

theorem Inv.split_takes_descriptor (h : Inv a) (hd : a.descriptors[i]? = some d)
    (hact : d.active = true) (hp : 2 ≤ d.pages) : a.freeDescriptors ≠ [] := by
  refine h.free_ne_nil fun m hm => ?_
  obtain ⟨layout, hl, -, -, hb⟩ := h.layout_mem (mem_of_getElem? hd) hact
  obtain ⟨rest, hperm, -⟩ := activeRanges_set hd
  rw [Descriptor.range_active hact, toList_some, singleton_append] at hperm
  have hrest : m * rest.length ≤ total rest := total_ge fun s hs =>
    h.unit_le_size hm s (hperm.mem_iff.mpr (mem_cons_of_mem _ hs))
  have htotal := total_perm hperm
  have hcap := h.total_eq
  have hbytes : m * 2 ≤ d.bytes := by
    rw [hb, Nat.mul_comm]
    exact Nat.mul_le_mul hp (hm layout hl)
  rw [h.occupied, htotal, total_cons] at hcap
  rw [hperm.length_eq, length_cons, Nat.mul_succ, Nat.mul_succ]
  simp only at hcap
  omega

variable {extents extents' : List FreeExtent} {bytes offset pages pageOffset generation : Nat}
  {rest : List Nat} {left right : HostKVAllocation}

/-! ## First fit -/

theorem takeExtent_spec (hc : Canonical extents) (h : takeExtent extents bytes = some (offset, extents')) :
    Canonical extents' ∧ (∀ x, x ∈ (⟨offset, bytes⟩ : Span) → Covers extents x) ∧
      ∀ x, Covers extents' x ↔ Covers extents x ∧ x ∉ (⟨offset, bytes⟩ : Span) := by
  unfold takeExtent at h
  split at h
  · cases h
  next i hi =>
  obtain ⟨hlt, hfit, -⟩ := findIdx?_eq_some_iff_getElem.mp hi
  have hget : extents[i]? = some extents[i] := getElem?_eq_getElem hlt
  simp only [getD_eq_getElem?_getD, hget, getD_some, Option.some.injEq, Prod.mk.injEq] at h
  obtain ⟨rfl, rfl⟩ := h
  have hsize : bytes ≤ extents[i].size := by simpa using hfit
  obtain ⟨h1, h2⟩ := carveFront_spec hc hget hsize
  refine ⟨h1, fun x hx => ⟨extents[i], getElem_mem hlt, ?_⟩, h2⟩
  simp only [Span.mem_iff] at hx ⊢
  omega

theorem takeExtent_le_total (h : takeExtent extents bytes = some (offset, extents')) : bytes ≤ total extents := by
  unfold takeExtent at h
  split at h
  · cases h
  next i hi =>
  obtain ⟨hlt, hfit, -⟩ := findIdx?_eq_some_iff_getElem.mp hi
  have hsize : bytes ≤ extents[i].size := by simpa using hfit
  have := size_le_total (getElem_mem hlt)
  omega

/-! ## Allocate -/

theorem allocate_eq_some (h : a.allocate layout pages = some (al, a')) :
    ∃ layoutIndex offset extents index rest d, a.findLayout layout = some layoutIndex ∧
      pages ≠ 0 ∧ takeExtent a.freeExtents (layout.pageStride * pages) = some (offset, extents) ∧
      a.freeDescriptors = index :: rest ∧ d = a.descriptors.getD index {} ∧
      al = ⟨some a.self, index, d.generation⟩ ∧
      a' = { a with
        freeDescriptors := rest
        freeExtents := extents
        descriptors := a.descriptors.set index
          ⟨offset, layout.pageStride * pages, layoutIndex, pages, d.generation, true⟩
        occupiedBytes := a.occupiedBytes + layout.pageStride * pages
        revision := bumpRevision a.revision } := by
  unfold allocate at h
  split at h
  · cases h
  next layoutIndex hl =>
  split at h
  · cases h
  next hno =>
  simp only [not_or] at hno
  split at h
  · cases h
  next offset extents hext =>
  cases hfree : a.freeDescriptors with
  | nil => exact absurd hfree hno.2.1
  | cons index rest =>
    simp only [takeDescriptor, hfree, Option.some.injEq, Prod.mk.injEq] at h
    exact ⟨layoutIndex, offset, extents, index, rest, _, hl, hno.1, hext, rfl, rfl, h.1.symm, h.2.symm⟩

theorem findLayout_getElem? (h : a.findLayout layout = some i) : a.layouts[i]? = some layout := by
  obtain ⟨hlt, heq, -⟩ := findIdx?_eq_some_iff_getElem.mp h
  rw [getElem?_eq_getElem hlt]
  simpa using heq

section
variable (h : Inv a) (hf : a.freeDescriptors = index :: rest)
include h hf

theorem Inv.free_get : ∃ d, a.descriptors[index]? = some d ∧ d.active = false ∧ a.descriptors.getD index {} = d := by
  obtain ⟨d, hd, hact⟩ := (h.mem_free index).mp (by rw [hf]; simp)
  exact ⟨d, hd, hact, by rw [getD_eq_getElem?_getD, hd]; rfl⟩

theorem Inv.mem_free_take {e : Descriptor} (he : e.active = true) (i : Nat) :
    i ∈ rest ↔ ∃ d, (a.descriptors.set index e)[i]? = some d ∧ d.active = false := by
  have hnd := h.free_nodup
  rw [hf] at hnd
  have hmem := h.mem_free i
  rw [hf, mem_cons] at hmem
  obtain ⟨d, hd, -⟩ := h.free_get hf
  have hlt := lt_of_getElem? hd
  rw [getElem?_set]
  by_cases hi : index = i
  · subst hi
    simp only [if_true, hlt]
    constructor
    · intro hin
      exact absurd hin (nodup_cons.mp hnd).1
    · rintro ⟨d, hd', hact⟩
      cases hd'
      rw [he] at hact
      cases hact
  rw [if_neg hi, ← hmem]
  exact ⟨.inr, fun ho => ho.resolve_left fun he => hi he.symm⟩

end

theorem allocate_inv (hinv : Inv a) (h : a.allocate layout pages = some (al, a')) : Inv a' := by
  obtain ⟨layoutIndex, offset, extents, index, rest, d, hl, hp, hext, hfree, hd, -, rfl⟩ :=
    allocate_eq_some h
  have hlayout := findLayout_getElem? hl
  obtain ⟨m, hm, hle, hlen⟩ := hinv.unit
  have hstride := hle layout (mem_of_getElem? hlayout)
  have hbytes : 0 < layout.pageStride * pages := Nat.mul_pos (by omega) (by omega)
  obtain ⟨h1, h2, h3⟩ := takeExtent_spec hinv.canonical hext
  obtain ⟨d', hd', hact, hget⟩ := hinv.free_get hfree
  obtain ⟨ranges, hperm, hset⟩ := activeRanges_set hd'
  rw [Descriptor.range_inactive hact, toList_none, nil_append] at hperm
  -- the new range moves from the free list to the front of the active ones
  have hnew := hset ⟨offset, layout.pageStride * pages, layoutIndex, pages, d.generation, true⟩
  rw [Descriptor.range_active rfl, toList_some, singleton_append] at hnew
  have htiles := (hinv.tiles.perm (hperm.append_right _)).shift_left hbytes h1 h2 h3
  refine ⟨hinv.capacity_le, htiles.perm (hnew.append_right _).symm, h1, ?_, ?_,
    (nodup_cons.mp (hfree ▸ hinv.free_nodup)).2, hinv.mem_free_take hfree rfl,
    ⟨m, hm, hle, by simpa using hlen⟩⟩
  · show _ = total ((a.descriptors.set index _).filterMap Descriptor.range)
    rw [total_perm hnew, total_cons, hinv.occupied, total_perm hperm, Nat.add_comm]
  · intro e he hact'
    rcases mem_or_eq_of_mem_set he with he | rfl
    · exact hinv.sized e he hact'
    · exact ⟨layout, hlayout, by simp only; omega, Nat.mul_comm _ _⟩

/-! ## Split -/

theorem validHandle_iff {h : HostKVAllocationHandle} :
    a.validHandle h = true ↔ h.owner = some a.self ∧
      ∃ d, a.descriptors[h.descriptor]? = some d ∧ d.active = true ∧ d.generation = h.generation := by
  unfold validHandle
  split
  · next hne => simp only [Bool.false_eq_true, false_iff]; exact fun hn => hne hn.1
  next heq =>
  rw [not_not] at heq
  cases hd : a.descriptors[h.descriptor]? with
  | none => simp
  | some d => simp [heq]

theorem handle_eq {n : Nat} (h : al.handle.owner = some n) :
    al.handle = ⟨al.owner, al.descriptor, al.generation⟩ := by
  unfold HostKVAllocation.handle at h ⊢
  split
  · rfl
  · next hv => rw [if_neg hv] at h; cases h

theorem split_eq_ok (h : a.split al pageOffset = .ok ((left, right), a')) :
    ∃ d rightIndex rest stride, a.validHandle al.handle = true ∧
      d = a.descriptors.getD al.descriptor {} ∧ 0 < pageOffset ∧ pageOffset < d.pages ∧
      a.freeDescriptors = rightIndex :: rest ∧
      stride = (a.layouts.getD d.layout {}).pageStride ∧
      left = ⟨some a.self, al.descriptor, incrementGeneration d.generation⟩ ∧
      right = ⟨some a.self, rightIndex, (a.descriptors.getD rightIndex {}).generation⟩ ∧
      a' = { a with
        freeDescriptors := rest
        descriptors := (a.descriptors.set rightIndex
            ⟨d.offset + pageOffset * stride, (d.pages - pageOffset) * stride, d.layout,
              d.pages - pageOffset, (a.descriptors.getD rightIndex {}).generation, true⟩).set
          al.descriptor ⟨d.offset, pageOffset * stride, d.layout, pageOffset,
            incrementGeneration d.generation, d.active⟩
        revision := bumpRevision a.revision } := by
  unfold split at h
  split at h
  · cases h
  next hvalid =>
  simp only at h
  split at h
  · cases h
  next hrange =>
  cases hfree : a.freeDescriptors with
  | nil => simp [takeDescriptor, hfree] at h
  | cons rightIndex rest =>
    simp only [takeDescriptor, hfree, Except.ok.injEq, Prod.mk.injEq] at h
    obtain ⟨⟨hl, hr⟩, ha⟩ := h
    exact ⟨_, rightIndex, rest, _, by simpa using hvalid, rfl, by omega, by omega, rfl, rfl,
      hl.symm, hr.symm, ha.symm⟩

theorem split_inv (hinv : Inv a) (h : a.split al pageOffset = .ok ((left, right), a')) : Inv a' := by
  obtain ⟨d, rightIndex, rest, stride, hvalid, hd, hpos, hlt, hfree, hstride, -, -, rfl⟩ :=
    split_eq_ok h
  obtain ⟨howner, d', hd', hact, -⟩ := validHandle_iff.mp hvalid
  rw [handle_eq howner] at hd'
  have hdd : d = d' := by rw [hd, getD_eq_getElem?_getD, hd']; rfl
  subst hdd
  obtain ⟨layout, hl, hp, hb⟩ := hinv.sized d (mem_of_getElem? hd') hact
  have hs : stride = layout.pageStride := by
    rw [hstride, getD_eq_getElem?_getD, hl]; rfl
  obtain ⟨m, hm, hle, hlen⟩ := hinv.unit
  have hstride_pos : 0 < stride := by
    have := hle layout (mem_of_getElem? hl)
    omega
  obtain ⟨e, he, heact, hget⟩ := hinv.free_get hfree
  have hne : al.descriptor ≠ rightIndex := by
    intro heq
    rw [← heq, hd'] at he
    cases he
    rw [hact] at heact
    cases heact
  generalize hright : (⟨d.offset + pageOffset * stride, (d.pages - pageOffset) * stride, d.layout,
    d.pages - pageOffset, (a.descriptors.getD rightIndex {}).generation, true⟩ : Descriptor) = r
  generalize hleft : (⟨d.offset, pageOffset * stride, d.layout, pageOffset,
    incrementGeneration d.generation, d.active⟩ : Descriptor) = l
  have hract : r.active = true := by rw [← hright]
  have hlact : l.active = true := by rw [← hleft]; exact hact
  -- the ranges once the left half, then the right half, is filled in
  obtain ⟨ranges, hperm, hset⟩ := activeRanges_set hd'
  obtain ⟨ranges', hperm', hset'⟩ := filterMap_set_perm
    (l := a.descriptors.set al.descriptor l) (i := rightIndex) (x := e)
    (by rw [getElem?_set_ne hne]; exact he) Descriptor.range
  have hmid := hperm'.symm.trans (hset l)
  have hnew := hset' r
  rw [Descriptor.range_active hact] at hperm
  rw [Descriptor.range_inactive heact, Descriptor.range_active hlact] at hmid
  rw [Descriptor.range_active hract] at hnew
  simp only [toList_some, toList_none, singleton_append, nil_append]
    at hperm hmid hnew
  rw [set_comm _ _ hne] at hnew
  have hfinal := hnew.trans (hmid.cons _)
  have htiles : Tiles (⟨d.offset, pageOffset * stride⟩ ::
      ⟨d.offset + pageOffset * stride, d.bytes - pageOffset * stride⟩ ::
      (ranges ++ a.freeExtents)) a.capacityBytes :=
    (hinv.tiles.perm (hperm.append_right _)).split_head (Nat.mul_pos hpos hstride_pos)
      (by rw [hb, ← hs]; exact Nat.mul_lt_mul_of_pos_right hlt hstride_pos)
  have hbytes : d.bytes - pageOffset * stride = (d.pages - pageOffset) * stride := by
    rw [hb, ← hs, Nat.sub_mul]
  rw [hbytes] at htiles
  have hranges : ((a.descriptors.set rightIndex r).set al.descriptor l).filterMap
      Descriptor.range |>.Perm (⟨d.offset, pageOffset * stride⟩ ::
        ⟨d.offset + pageOffset * stride, (d.pages - pageOffset) * stride⟩ :: ranges) := by
    subst hleft hright
    exact hfinal.trans (List.Perm.swap _ _ _)
  refine ⟨hinv.capacity_le, htiles.perm (hranges.append_right _).symm, hinv.canonical, ?_, ?_,
    (nodup_cons.mp (hfree ▸ hinv.free_nodup)).2, fun i => ?_,
    ⟨m, hm, hle, by simpa using hlen⟩⟩
  · show _ = total (((a.descriptors.set rightIndex r).set al.descriptor l).filterMap Descriptor.range)
    have hle' : pageOffset * stride ≤ d.bytes := by
      rw [hb, ← hs]; exact Nat.mul_le_mul_right _ (Nat.le_of_lt hlt)
    rw [total_perm hranges, hinv.occupied, total_perm hperm]
    simp only [total_cons]
    omega
  · intro f hf hfact
    rcases mem_or_eq_of_mem_set hf with hf | rfl
    · rcases mem_or_eq_of_mem_set hf with hf | rfl
      · exact hinv.sized f hf hfact
      · rw [← hright]
        exact ⟨layout, hl, by simp only; omega, by rw [hs]⟩
    rw [← hleft]
    exact ⟨layout, hl, hpos, by rw [hs]⟩
  · rw [hinv.mem_free_take hfree hract i]
    simp only [getElem?_set (l := a.descriptors.set rightIndex r)]
    split
    · next hi =>
      subst hi
      have hcur : (a.descriptors.set rightIndex r)[al.descriptor]? = some d := by
        rw [getElem?_set_ne (fun h => hne h.symm)]; exact hd'
      rw [hcur, if_pos (lt_of_getElem? hcur)]
      simp [hact, hlact]
    · rfl

/-! ## Release -/

theorem releaseDescriptor_eq_some (h : a.releaseDescriptor index generation = some a') :
    ∃ d, a.descriptors[index]? = some d ∧ d.active = true ∧ d.generation = generation ∧
      a' = { a with
        occupiedBytes := a.occupiedBytes - d.bytes
        descriptors := a.descriptors.set index ⟨0, 0, d.layout, 0, incrementGeneration d.generation, false⟩
        freeDescriptors := index :: a.freeDescriptors
        freeExtents := insertSpan a.freeExtents ⟨d.offset, d.bytes⟩
        revision := bumpRevision a.revision } := by
  unfold releaseDescriptor at h
  split at h
  · cases h
  next d hd =>
  split at h
  · cases h
  next hok =>
  simp only [not_or, Bool.not_eq_false, not_not] at hok
  exact ⟨d, hd, hok.1, hok.2, (some.inj h).symm⟩

section
variable (h : Inv a) (hd : d ∈ a.descriptors) (hact : d.active = true)
include h hd hact

theorem Inv.apart_free : ∀ s ∈ a.freeExtents, s.Apart ⟨d.offset, d.bytes⟩ := by
  intro s hs
  have hmem : (⟨d.offset, d.bytes⟩ : Span) ∈ a.activeRanges :=
    mem_activeRanges.mpr ⟨d, hd, hact, rfl⟩
  exact ((pairwise_append.mp h.tiles.apart).2.2 _ hmem s hs).symm

theorem Inv.range_pos : 0 < d.bytes :=
  h.tiles.pos ⟨d.offset, d.bytes⟩ (mem_append_left _ (mem_activeRanges.mpr ⟨d, hd, hact, rfl⟩))

end

theorem releaseDescriptor_inv (hinv : Inv a) (h : a.releaseDescriptor index generation = some a') : Inv a' := by
  obtain ⟨d, hd, hact, -, rfl⟩ := releaseDescriptor_eq_some h
  have hmem := mem_of_getElem? hd
  obtain ⟨h1, h2⟩ := insertSpan_spec hinv.canonical (hinv.range_pos hmem hact) (hinv.apart_free hmem hact)
  obtain ⟨ranges, hperm, hset⟩ := activeRanges_set hd
  have hnew := hset ⟨0, 0, d.layout, 0, incrementGeneration d.generation, false⟩
  rw [Descriptor.range_active hact, toList_some, singleton_append] at hperm
  rw [Descriptor.range_inactive rfl, toList_none, nil_append] at hnew
  have htiles := (hinv.tiles.perm (hperm.append_right _)).shift_right h1 h2
  have hlt := lt_of_getElem? hd
  have hnot : index ∉ a.freeDescriptors := by
    intro hin
    obtain ⟨e, he, heact⟩ := (hinv.mem_free index).mp hin
    rw [hd] at he
    cases he
    rw [hact] at heact
    cases heact
  refine ⟨hinv.capacity_le, htiles.perm (hnew.append_right _).symm, h1, ?_, ?_,
    nodup_cons.mpr ⟨hnot, hinv.free_nodup⟩, fun i => ?_, by simpa using hinv.unit⟩
  · show _ = total ((a.descriptors.set index _).filterMap Descriptor.range)
    rw [total_perm hnew, hinv.occupied, total_perm hperm, total_cons]
    simp
  · intro f hf hfact
    rcases mem_or_eq_of_mem_set hf with hf | rfl
    · exact hinv.sized f hf hfact
    · cases hfact
  · simp only [mem_cons, getElem?_set]
    by_cases hi : index = i
    · subst hi
      simp [hlt]
    rw [if_neg hi, ← hinv.mem_free i]
    exact ⟨fun ho => ho.resolve_left fun he => hi he.symm, .inr⟩

theorem release_inv (hinv : Inv a) (h : a.release al = some a') : Inv a' := by
  unfold release at h
  split at h
  · exact releaseDescriptor_inv hinv h
  · cases h

end HostKVArena
end VoidInfer.HostKV
