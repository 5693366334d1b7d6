import VoidInfer.HostKV.Arena
import Mathlib.Data.Set.Lattice
import Mathlib.Order.CompletePartialOrder

/-
  What a planned host page record looks like (`src/core/host_kv_arena.{h,cpp}`): the planes of all three public forms of
  `plan_host_kv_page_layout` are packed one after another behind a byte cursor, and planning again from the record's own
  fields gives the record back.

  `Extends` says what a stretch of the planner appends; both branches are chains of it. The results are
  `plannedLayout_placed`, `plannedLayout_replan` and, for the arena's constructor, `plannedLayouts_accepted`.
-/

namespace VoidInfer.HostKV

/-! ## The public forms -/

section
variable (geometry : KVPageGeometry)

/-- `plan_host_kv_page_layout(geometry)`. -/
def planHostKVPageLayout : Except Exn HostKVPageLayout :=
  planHostKVPageLayoutImpl geometry [] .Native

/-- `plan_host_kv_page_layout(geometry, storage_dtype)`. -/
def planHostKVPageLayoutAs (storageDtype : DType) : Except Exn HostKVPageLayout :=
  planHostKVPageLayoutImpl geometry (List.replicate geometry.planes.length storageDtype) .Native

/-- `plan_host_kv_page_layout(geometry, storage_format)`. -/
def planHostKVPageLayoutFor (storageFormat : HostKVStorageFormat) : Except Exn HostKVPageLayout :=
  if storageFormat = .Native then planHostKVPageLayout geometry
  else planHostKVPageLayoutImpl geometry [] storageFormat

end

/-- A layout that one of the public forms returned. -/
inductive PlannedLayout : HostKVPageLayout → Prop where
  | native {geometry layout} (h : planHostKVPageLayout geometry = .ok layout) :
      PlannedLayout layout
  | dtype {geometry storageDtype layout}
      (h : planHostKVPageLayoutAs geometry storageDtype = .ok layout) : PlannedLayout layout
  | format {geometry storageFormat layout}
      (h : planHostKVPageLayoutFor geometry storageFormat = .ok layout) : PlannedLayout layout

/-! ## Placement -/

/-- The bytes of a page record that a plane occupies. -/
def HostKVPlaneLayout.bytes (plane : HostKVPlaneLayout) : Set Nat :=
  Set.Ico plane.offset (plane.offset + plane.pagePayloadBytes)

/-- What one host plane stores: its dtype, leading extent and heads. -/
structure HostPlane where
  dtype : DType
  leadingExtent : Int
  heads : Int

/-- The L1 planes of one layer. -/
def l1Planes (geometry : KVPageGeometry) (layer : Nat) : List HostPlane :=
  let heads := (geometry.planes.getD (layer * 4) {}).headExtent
  [⟨.U8, kD256OscarCodeExtent * 2, heads⟩, ⟨.U8, kD256OscarCodeExtent * 2, heads⟩,
    ⟨.BF16, kD256OscarScaleExtent, heads⟩, ⟨.BF16, kD256OscarScaleExtent, heads⟩]

/-- The L2 planes of one layer. -/
def l2Planes (geometry : KVPageGeometry) (layer : Nat) : List HostPlane :=
  let heads := (geometry.planes.getD (layer * 4) {}).headExtent
  [⟨.FP16, kD256KVCacheHeadDim, heads⟩, ⟨.FP16, kD256KVCacheHeadDim, heads⟩]

/-- The host planes of a layout, in record order: the planes of the geometry under their storage dtypes, or for the
    hierarchical record the L1 planes of every layer and then the L2 planes of every layer. -/
def hostPlanes (layout : HostKVPageLayout) : List HostPlane :=
  let layers := List.range (layout.geometry.planes.length / 4)
  if layout.storageFormat = .OscarQ4AndFp16 then
    layers.flatMap (l1Planes layout.geometry) ++ layers.flatMap (l2Planes layout.geometry)
  else
    let dtypes := if layout.storageDtypes = [] then layout.geometry.planes.map (·.dtype)
      else layout.storageDtypes
    (layout.geometry.planes.zip dtypes).map fun p => ⟨p.2, p.1.leadingExtent, p.1.headExtent⟩

/-- A laid-out plane has room for exactly its heads; the sizes are exact integers that fit
    `std::size_t`. -/
structure Sized (pageTokens : Nat) (host : HostPlane) (plane : HostKVPlaneLayout) : Prop where
  leading : 0 < host.leadingExtent
  heads : 0 < host.heads
  head : plane.headPayloadBytes = host.leadingExtent.toNat * pageTokens * dtypeSize host.dtype
  page : plane.pagePayloadBytes = plane.headPayloadBytes * host.heads.toNat
  fits : plane.offset + plane.pagePayloadBytes ≤ sizeMax

/-- `r` continues `out` with one packed plane for each of `hosts`. -/
structure Extends (pageTokens : Nat) (hosts : List HostPlane) (out r : PlanCursor)
    (planes : List HostKVPlaneLayout) : Prop where
  appended : r.planes = out.planes ++ planes
  sized : List.Forall₂ (Sized pageTokens) hosts planes
  aligned : ∀ p ∈ planes, kHostKVAlignment ∣ p.offset
  ordered : planes.Pairwise fun p q => p.offset + p.pagePayloadBytes ≤ q.offset
  after : ∀ p ∈ planes, out.cursor ≤ p.offset
  before : ∀ p ∈ planes, p.offset + p.pagePayloadBytes ≤ r.cursor
  le : out.cursor ≤ r.cursor

theorem Extends.refl (pageTokens : Nat) (out : PlanCursor) : Extends pageTokens [] out out [] where
  appended := by simp
  sized := .nil
  aligned := by simp
  ordered := .nil
  after := by simp
  before := by simp
  le := le_rfl

variable {pageTokens : Nat} {out : PlanCursor} {r : HostKVPageLayout} {label : String}
  {geometry : KVPageGeometry} {storageDtypes : List DType}

theorem Extends.trans {hosts₁ hosts₂ : List HostPlane} {a b c : PlanCursor}
    {planes₁ planes₂ : List HostKVPlaneLayout} (h₁ : Extends pageTokens hosts₁ a b planes₁)
    (h₂ : Extends pageTokens hosts₂ b c planes₂) :
    Extends pageTokens (hosts₁ ++ hosts₂) a c (planes₁ ++ planes₂) where
  appended := by rw [h₂.appended, h₁.appended, List.append_assoc]
  sized := List.rel_append h₁.sized h₂.sized
  aligned := by
    intro p hp
    rcases List.mem_append.mp hp with hp | hp
    · exact h₁.aligned p hp
    · exact h₂.aligned p hp
  ordered := by
    refine List.pairwise_append.mpr ⟨h₁.ordered, h₂.ordered, ?_⟩
    intro p hp q hq
    exact (h₁.before p hp).trans (h₂.after q hq)
  after := by
    intro p hp
    rcases List.mem_append.mp hp with hp | hp
    · exact h₁.after p hp
    · exact h₁.le.trans (h₂.after p hp)
  before := by
    intro p hp
    rcases List.mem_append.mp hp with hp | hp
    · exact (h₁.before p hp).trans h₂.le
    · exact h₂.before p hp
  le := h₁.le.trans h₂.le

theorem extends_foldlM {α : Type} {f : PlanCursor → α → Except Exn PlanCursor} {hosts : α → List HostPlane}
    (hf : ∀ out x r, f out x = .ok r → ∃ planes, Extends pageTokens (hosts x) out r planes)
    (xs : List α) {r : PlanCursor} (h : xs.foldlM f out = .ok r) :
    ∃ planes, Extends pageTokens (xs.flatMap hosts) out r planes := by
  induction xs generalizing out with
  | nil =>
    cases h
    exact ⟨[], Extends.refl _ _⟩
  | cons x xs ih =>
    obtain ⟨mid, hx, h⟩ := bind_ok h
    obtain ⟨planes₁, h₁⟩ := hf out x mid hx
    obtain ⟨planes₂, h₂⟩ := ih h
    exact ⟨planes₁ ++ planes₂, h₁.trans h₂⟩

theorem Extends.raise {hosts : List HostPlane} {r : PlanCursor} {planes : List HostKVPlaneLayout}
    {cursor : Nat} (h : Extends pageTokens hosts { out with cursor } r planes)
    (hle : out.cursor ≤ cursor) : Extends pageTokens hosts out r planes :=
  { h with after := fun p hp => hle.trans (h.after p hp), le := hle.trans h.le }

/-! ## One plane -/

theorem alignUp_dvd {value alignment : Nat} {r : Nat}
    (h : alignUp value alignment label = .ok r) : alignment ∣ r := by
  unfold alignUp at h
  split at h
  · cases h
  split at h
  · cases h
  · exact ⟨_, by rw [← Except.ok.inj h, Nat.mul_comm]⟩

theorem alignUp_le_max {value : Nat} {r : Nat} (h : alignUp value kHostKVAlignment label = .ok r) : r ≤ sizeMax := by
  unfold alignUp at h
  split at h
  · cases h
  split at h
  · cases h
  next hpow hfit =>
  have hdiv := Nat.div_mul_le_self (value + (kHostKVAlignment - 1)) kHostKVAlignment
  have hsmall : kHostKVAlignment - 1 ≤ sizeMax := by decide
  rw [← Except.ok.inj h]
  omega

theorem checkedAdd_le_max {a b : Nat} {r : Nat}
    (h : checkedAdd a b label = .ok r) (ha : a ≤ sizeMax) : r ≤ sizeMax := by
  unfold checkedAdd at h
  split at h
  · cases h
  next hfit =>
  rw [← Except.ok.inj h]
  omega

theorem extends_one (host : HostPlane) {r : PlanCursor}
    {cursor leading headBytes pageBytes next : Nat} {l₁ l₂ l₃ l₄ l₅ : String}
    (hleading : 0 < host.leadingExtent) (hheads : 0 < host.heads)
    (halign : alignUp out.cursor kHostKVAlignment l₁ = .ok cursor)
    (hlead : checkedMul host.leadingExtent.toNat pageTokens l₂ = .ok leading)
    (hhead : checkedMul leading (dtypeSize host.dtype) l₃ = .ok headBytes)
    (hpage : checkedMul headBytes host.heads.toNat l₄ = .ok pageBytes)
    (hnext : checkedAdd cursor pageBytes l₅ = .ok next)
    (hplanes : r.planes = out.planes ++ [⟨cursor, pageBytes, headBytes⟩])
    (hcursor : r.cursor = next) :
    Extends pageTokens [host] out r [⟨cursor, pageBytes, headBytes⟩] := by
  have hfits := checkedAdd_le_max hnext (alignUp_le_max halign)
  have hle := alignUp_le halign
  rw [checkedAdd_ok hnext] at hfits hcursor
  have hsized : Sized pageTokens host ⟨cursor, pageBytes, headBytes⟩ :=
    { leading := hleading, heads := hheads, head := by rw [checkedMul_ok hhead, checkedMul_ok hlead],
      page := checkedMul_ok hpage, fits := hfits }
  constructor
  · exact hplanes
  · exact .cons hsized .nil
  · simpa using alignUp_dvd halign
  · exact List.pairwise_singleton _ _
  · simpa using hle
  · simp [hcursor]
  · omega

theorem appendPlane_extends {dtype : DType} {leading head : Int} {r : PlanCursor}
    (h : appendPlane pageTokens dtype leading head label out = .ok r) :
    (∃ planes, Extends pageTokens [⟨dtype, leading, head⟩] out r planes) ∧
      r.storageDtypes = out.storageDtypes ++ [dtype] := by
  obtain ⟨hpos, h⟩ := check_ok h
  rw [not_or] at hpos
  obtain ⟨cursor, halign, h⟩ := bind_ok h
  obtain ⟨lead, hlead, h⟩ := bind_ok h
  obtain ⟨headBytes, hhead, h⟩ := bind_ok h
  obtain ⟨pageBytes, hpage, h⟩ := bind_ok h
  obtain ⟨next, hnext, h⟩ := bind_ok h
  cases h
  exact ⟨⟨_, extends_one ⟨dtype, leading, head⟩ (by simpa using hpos.1) (by simpa using hpos.2)
    halign hlead hhead hpage hnext rfl rfl⟩, rfl⟩

theorem appendNativePlane_extends (geometry : KVPageGeometry) (out : PlanCursor)
    (plane : KVPlaneGeometry × DType) (r : PlanCursor)
    (h : appendNativePlane geometry out plane = .ok r) : ∃ planes, Extends geometry.pageTokens
      [⟨plane.2, plane.1.leadingExtent, plane.1.headExtent⟩] out r planes := by
  obtain ⟨hpos, h⟩ := check_ok h
  rw [not_or] at hpos
  obtain ⟨-, -, h⟩ := bind_ok h
  obtain ⟨cursor, halign, h⟩ := bind_ok h
  obtain ⟨lead, hlead, h⟩ := bind_ok h
  obtain ⟨headBytes, hhead, h⟩ := bind_ok h
  obtain ⟨pageBytes, hpage, h⟩ := bind_ok h
  obtain ⟨next, hnext, h⟩ := bind_ok h
  cases h
  exact ⟨_, extends_one ⟨plane.2, plane.1.leadingExtent, plane.1.headExtent⟩
    (by simpa using hpos.1) (by simpa using hpos.2) halign hlead hhead hpage hnext rfl rfl⟩

/-! ## The branches -/

section
variable (geometry : KVPageGeometry) (out : PlanCursor) (layer : Nat) (r : PlanCursor)

theorem appendL1Layer_extends (h : appendL1Layer geometry out layer = .ok r) :
    ∃ planes, Extends geometry.pageTokens (l1Planes geometry layer) out r planes := by
  obtain ⟨_, -, h⟩ := bind_ok h
  obtain ⟨a, ha, h⟩ := bind_ok h
  obtain ⟨b, hb, h⟩ := bind_ok h
  obtain ⟨c, hc, h⟩ := bind_ok h
  obtain ⟨⟨p₁, e₁⟩, -⟩ := appendPlane_extends ha
  obtain ⟨⟨p₂, e₂⟩, -⟩ := appendPlane_extends hb
  obtain ⟨⟨p₃, e₃⟩, -⟩ := appendPlane_extends hc
  obtain ⟨⟨p₄, e₄⟩, -⟩ := appendPlane_extends h
  exact ⟨_, ((e₁.trans e₂).trans e₃).trans e₄⟩

theorem appendL2Layer_extends (h : appendL2Layer geometry out layer = .ok r) :
    ∃ planes, Extends geometry.pageTokens (l2Planes geometry layer) out r planes := by
  obtain ⟨a, ha, h⟩ := bind_ok h
  obtain ⟨⟨p₁, e₁⟩, -⟩ := appendPlane_extends ha
  obtain ⟨⟨p₂, e₂⟩, -⟩ := appendPlane_extends h
  exact ⟨_, e₁.trans e₂⟩

end

/-- Where the planes of a record lie. -/
structure Placed (layout : HostKVPageLayout) : Prop where
  sized : List.Forall₂ (Sized layout.geometry.pageTokens) (hostPlanes layout) layout.planes
  aligned : ∀ p ∈ layout.planes, kHostKVAlignment ∣ p.offset
  ordered : layout.planes.Pairwise fun p q => p.offset + p.pagePayloadBytes ≤ q.offset
  disjoint : layout.planes.Pairwise fun p q => Disjoint p.bytes q.bytes
  within : ∀ p ∈ layout.planes, p.offset + p.pagePayloadBytes ≤ layout.pageStride
  stride : kHostKVAlignment ∣ layout.pageStride
  fits : layout.pageStride ≤ sizeMax

/-- The bytes of the L1 section. -/
def HostKVPageLayout.l1Bytes (layout : HostKVPageLayout) : Set Nat :=
  Set.Ico layout.l1Offset (layout.l1Offset + layout.l1PagePayloadBytes)

/-- The bytes of the L2 section. -/
def HostKVPageLayout.l2Bytes (layout : HostKVPageLayout) : Set Nat :=
  Set.Ico layout.l2Offset (layout.l2Offset + layout.l2PagePayloadBytes)

/-- The sections of the hierarchical record: the four L1 planes of every layer, which come
    first, lie in the one and the two L2 planes of every layer in the other. -/
structure Sectioned (layout : HostKVPageLayout) : Prop where
  disjoint : Disjoint layout.l1Bytes layout.l2Bytes
  l1 : ∀ p ∈ layout.planes.take layout.geometry.planes.length, p.bytes ⊆ layout.l1Bytes
  l2 : ∀ p ∈ layout.planes.drop layout.geometry.planes.length, p.bytes ⊆ layout.l2Bytes
  within : layout.l1Bytes ∪ layout.l2Bytes ⊆ Set.Iio layout.pageStride

theorem bytes_disjoint {p q : HostKVPlaneLayout} (h : p.offset + p.pagePayloadBytes ≤ q.offset) :
    Disjoint p.bytes q.bytes := by
  rw [Set.disjoint_left]
  intro x hx hy
  have h₁ := hx.2
  have h₂ := hy.1
  omega

theorem placed_of_extends {layout : HostKVPageLayout} {r : PlanCursor}
    (h : Extends layout.geometry.pageTokens (hostPlanes layout) {} r layout.planes)
    (hstride : alignUp r.cursor kHostKVAlignment label = .ok layout.pageStride) :
    Placed layout where
  sized := h.sized
  aligned := h.aligned
  ordered := h.ordered
  disjoint := h.ordered.imp bytes_disjoint
  within := by
    intro p hp
    exact (h.before p hp).trans (alignUp_le hstride)
  stride := alignUp_dvd hstride
  fits := alignUp_le_max hstride

section
variable (h : planNativeLayout geometry storageDtypes = .ok r)
include h

theorem planNativeLayout_ok :
    ∃ out, (storageDtypes ≠ [] → storageDtypes.length = geometry.planes.length) ∧
      (geometry.planes.zip (if storageDtypes = [] then geometry.planes.map (·.dtype)
        else storageDtypes)).foldlM (appendNativePlane geometry) {} = .ok out ∧
      alignUp out.cursor kHostKVAlignment "Host KV page record" = .ok r.pageStride ∧
      r.geometry = geometry ∧ r.storageDtypes = storageDtypes ∧
      r.storageFormat ≠ .OscarQ4AndFp16 ∧ r.planes = out.planes := by
  obtain ⟨hinventory, h⟩ := check_ok h
  rw [not_and, not_not] at hinventory
  obtain ⟨out, hout, h⟩ := bind_ok h
  obtain ⟨stride, hstride, h⟩ := bind_ok h
  have hr := Except.ok.inj h
  subst hr
  refine ⟨out, hinventory, hout, hstride, rfl, rfl, ?_, rfl⟩
  by_cases hconverted : storageDtypes ≠ [] ∧
      (if storageDtypes = [] then geometry.planes.map (·.dtype) else storageDtypes) ≠ geometry.planes.map (·.dtype)
  · simp only [if_pos hconverted]
    decide
  simp only [if_neg hconverted]
  decide

theorem planNativeLayout_placed : Placed r := by
  obtain ⟨out, -, hout, hstride, hgeometry, hdtypes, hformat, hplanes⟩ := planNativeLayout_ok h
  obtain ⟨planes, hext⟩ := extends_foldlM (appendNativePlane_extends geometry) _ hout
  refine placed_of_extends ?_ hstride
  rw [hostPlanes, if_neg hformat, hgeometry, hdtypes, hplanes, hext.appended, List.nil_append]
  rw [← List.flatMap_pure_eq_map]
  exact hext

end

theorem planOscarLayout_ok (h : planOscarLayout geometry storageDtypes = .ok r) :
    ∃ l1 l2, geometry.planes.length % 4 = 0 ∧
      (List.range (geometry.planes.length / 4)).foldlM (appendL1Layer geometry) {} = .ok l1 ∧
      alignUp l1.cursor kHostKVAlignment "Hierarchical OSCAR FP16 section" = .ok r.l2Offset ∧
      (List.range (geometry.planes.length / 4)).foldlM (appendL2Layer geometry)
        { l1 with cursor := r.l2Offset } = .ok l2 ∧
      alignUp l2.cursor kHostKVAlignment "Hierarchical OSCAR host page record" =
        .ok r.pageStride ∧
      r.geometry = geometry ∧ r.storageFormat = .OscarQ4AndFp16 ∧ r.planes = l2.planes ∧
      r.l1Offset = 0 ∧ r.l1PagePayloadBytes = l1.cursor ∧
      r.l2PagePayloadBytes = l2.cursor - r.l2Offset := by
  obtain ⟨hgroups, h⟩ := check_ok h
  rw [not_or] at hgroups
  obtain ⟨l1, hl1, h⟩ := bind_ok h
  obtain ⟨l2Offset, hoffset, h⟩ := bind_ok h
  obtain ⟨l2, hl2, h⟩ := bind_ok h
  obtain ⟨stride, hstride, h⟩ := bind_ok h
  obtain ⟨-, -, h⟩ := bind_ok h
  have hr := Except.ok.inj h
  subst hr
  exact ⟨l1, l2, not_not.mp hgroups.2, hl1, hoffset, hl2, hstride, rfl, rfl, rfl, rfl, rfl, rfl⟩

theorem length_l1Planes (geometry : KVPageGeometry) (layers : List Nat) :
    (layers.flatMap (l1Planes geometry)).length = layers.length * 4 := by
  induction layers with
  | nil => rfl
  | cons layer layers ih =>
    simp only [List.flatMap_cons, List.length_append, ih, l1Planes, List.length_cons, List.length_nil]
    omega

theorem planOscarLayout_placed (h : planOscarLayout geometry storageDtypes = .ok r) : Placed r ∧ Sectioned r := by
  obtain ⟨l1, l2, hgroups, hl1, hoffset, hl2, hstride, hgeometry, hformat, hplanes, hl1Offset,
    hl1Bytes, hl2Bytes⟩ := planOscarLayout_ok h
  obtain ⟨planes₁, e₁⟩ := extends_foldlM (appendL1Layer_extends geometry) _ hl1
  obtain ⟨planes₂, e₂⟩ := extends_foldlM (appendL2Layer_extends geometry) _ hl2
  have hle := alignUp_le hoffset
  have hend := alignUp_le hstride
  have hall : r.planes = planes₁ ++ planes₂ := by
    rw [hplanes, e₂.appended]
    simp only [e₁.appended, List.nil_append]
  have hlength : planes₁.length = r.geometry.planes.length := by
    have hsized := e₁.sized.length_eq
    rw [length_l1Planes, List.length_range] at hsized
    rw [hgeometry]
    omega
  have hcursor : r.l2Offset ≤ l2.cursor := e₂.le
  refine ⟨?_, ?_, ?_, ?_, ?_⟩
  · refine placed_of_extends ?_ hstride
    rw [hostPlanes, if_pos hformat, hgeometry, hall]
    exact e₁.trans (e₂.raise hle)
  · rw [Set.disjoint_left]
    intro x hx hy
    have h₁ := hx.2
    have h₂ := hy.1
    omega
  · intro p hp x hx
    rw [hall, ← hlength, List.take_left] at hp
    have hbefore := e₁.before p hp
    have hlt := hx.2
    constructor
    · rw [hl1Offset]
      exact Nat.zero_le x
    · omega
  · intro p hp x hx
    rw [hall, ← hlength, List.drop_left] at hp
    have hafter : r.l2Offset ≤ p.offset := e₂.after p hp
    have hbefore := e₂.before p hp
    have hge := hx.1
    have hlt := hx.2
    constructor
    · omega
    · omega
  · intro x hx
    rw [Set.mem_Iio]
    rcases hx with hx | hx
    · have hlt := hx.2
      omega
    have hlt := hx.2
    omega

/-! ## Planning again -/

theorem planOscarLayout_replan (h : planOscarLayout geometry storageDtypes = .ok r) :
    planOscarLayout geometry r.storageDtypes = .ok r := by
  obtain ⟨_, hgroups, h⟩ := bind_ok h
  obtain ⟨l1, hl1, h⟩ := bind_ok h
  obtain ⟨l2Offset, hoffset, h⟩ := bind_ok h
  obtain ⟨l2, hl2, h⟩ := bind_ok h
  obtain ⟨stride, hstride, h⟩ := bind_ok h
  obtain ⟨-, -, h⟩ := bind_ok h
  cases h
  have hcheck : throwIf (l2.storageDtypes ≠ [] ∧ l2.storageDtypes ≠ l2.storageDtypes)
      (.invalidArgument "Hierarchical OSCAR host storage dtype inventory is inconsistent") =
        .ok () := throwIf_ok.mpr (by simp)
  simp only [planOscarLayout]
  rw [hgroups]
  simp only [bind, Except.bind, hl1, hoffset, hl2, hstride, hcheck]
  rfl

theorem PlannedLayout.impl {layout : HostKVPageLayout} (h : PlannedLayout layout) :
    ∃ geometry storageDtypes format, planHostKVPageLayoutImpl geometry storageDtypes format = .ok layout := by
  cases h with
  | native h => exact ⟨_, _, _, h⟩
  | dtype h => exact ⟨_, _, _, h⟩
  | format h =>
    unfold planHostKVPageLayoutFor at h
    split at h
    · exact ⟨_, _, _, h⟩
    · exact ⟨_, _, _, h⟩

theorem planHostKVPageLayoutImpl_placed {format : HostKVStorageFormat}
    (h : planHostKVPageLayoutImpl geometry storageDtypes format = .ok r) :
    Placed r ∧ (r.storageFormat = .OscarQ4AndFp16 → Sectioned r) ∧
      planHostKVPageLayoutImpl r.geometry r.storageDtypes r.storageFormat = .ok r := by
  unfold planHostKVPageLayoutImpl at h
  split at h
  · cases h
  next hne =>
  split at h
  · obtain ⟨-, -, -, -, -, -, -, hgeometry, hformat, -⟩ := planOscarLayout_ok h
    obtain ⟨hplaced, hsections⟩ := planOscarLayout_placed h
    refine ⟨hplaced, fun _ => hsections, ?_⟩
    rw [hgeometry, hformat, planHostKVPageLayoutImpl, if_neg hne, if_pos rfl]
    exact planOscarLayout_replan h
  obtain ⟨-, -, -, -, hgeometry, hdtypes, hformat, -⟩ := planNativeLayout_ok h
  refine ⟨planNativeLayout_placed h, fun hoscar => absurd hoscar hformat, ?_⟩
  rw [hgeometry, hdtypes, planHostKVPageLayoutImpl, if_neg hne, if_neg hformat]
  exact h

/-! ## The arena's constructor -/

namespace HostKVArena

theorem checkLayouts_ok (layouts seen : List HostKVPageLayout)
    (hplan : ∀ l ∈ layouts, planHostKVPageLayoutImpl l.geometry l.storageDtypes l.storageFormat = .ok l)
    (hdistinct : layouts.Pairwise fun a b => a.geometry ≠ b.geometry)
    (hseen : ∀ a ∈ seen, ∀ b ∈ layouts, a.geometry ≠ b.geometry) :
    checkLayouts seen layouts = .ok () := by
  induction layouts generalizing seen with
  | nil => rfl
  | cons layout rest ih =>
    obtain ⟨hhead, hrest⟩ := List.pairwise_cons.mp hdistinct
    have hnew : ¬ ∃ previous ∈ seen, previous.geometry = layout.geometry := by
      rintro ⟨previous, hmem, heq⟩
      exact hseen previous hmem layout (List.mem_cons_self) heq
    simp only [checkLayouts, hplan layout List.mem_cons_self, bind, Except.bind, throwIf,
      ne_eq, not_true_eq_false, if_false, if_neg hnew]
    apply ih
    · intro l hl
      exact hplan l (List.mem_cons_of_mem _ hl)
    · exact hrest
    · intro a ha b hb
      rcases List.mem_append.mp ha with ha | ha
      · exact hseen a ha b (List.mem_cons_of_mem _ hb)
      rw [List.mem_singleton.mp ha]
      exact hhead b hb

theorem make_ok_iff {self capacityBytes : Nat} {layouts : List HostKVPageLayout}
    (hcheck : checkLayouts [] layouts = .ok ()) :
    (∃ arena, make self capacityBytes layouts = .ok arena) ↔
      capacityBytes = 0 ∨ layouts ≠ [] ∧ capacityBytes / smallestStride layouts ≤ uint32Max := by
  simp only [make, hcheck, bind, Except.bind]
  by_cases hzero : capacityBytes = 0
  · simp [hzero, pure, Except.pure]
  by_cases hempty : layouts = []
  · simp [hzero, hempty, throwIf]
  by_cases hmany : capacityBytes / smallestStride layouts > uint32Max
  · simp [hzero, hempty, throwIf, hmany]
  · simp [hzero, hempty, throwIf, hmany, pure, Except.pure, Nat.not_lt.mp hmany]

end HostKVArena

/-- Planned records are well placed, plan to themselves, and are accepted by the arena in any
    selection with one layout per geometry. -/
theorem plannedLayouts_accepted :
    (∀ layout, PlannedLayout layout →
      Placed layout ∧ (layout.storageFormat = .OscarQ4AndFp16 → Sectioned layout) ∧
        planHostKVPageLayoutImpl layout.geometry layout.storageDtypes layout.storageFormat =
          .ok layout) ∧
    ∀ layouts : List HostKVPageLayout, (∀ layout ∈ layouts, PlannedLayout layout) →
      layouts.Pairwise (fun a b => a.geometry ≠ b.geometry) → ∀ self capacityBytes,
        (∃ arena, HostKVArena.make self capacityBytes layouts = .ok arena) ↔
          capacityBytes = 0 ∨
            layouts ≠ [] ∧ capacityBytes / HostKVArena.smallestStride layouts ≤ uint32Max := by
  have hplanned : ∀ layout, PlannedLayout layout → Placed layout ∧
      (layout.storageFormat = .OscarQ4AndFp16 → Sectioned layout) ∧
        planHostKVPageLayoutImpl layout.geometry layout.storageDtypes layout.storageFormat = .ok layout := by
    intro layout h
    obtain ⟨geometry, storageDtypes, format, himpl⟩ := h.impl
    exact planHostKVPageLayoutImpl_placed himpl
  refine ⟨hplanned, ?_⟩
  intro layouts hall hdistinct self capacityBytes
  apply HostKVArena.make_ok_iff
  apply HostKVArena.checkLayouts_ok
  · intro layout hmem
    exact (hplanned layout (hall layout hmem)).2.2
  · exact hdistinct
  · simp

/-- One OSCAR layer with two heads. -/
def oneLayerGeometry : KVPageGeometry :=
  { planes := [⟨.U8, 64, 2, 256⟩, ⟨.U8, 64, 2, 256⟩, ⟨.BF16, 2, 2, 256⟩, ⟨.BF16, 2, 2, 256⟩] }

/-- Its hierarchical record: the Q4 section ends at byte 33792. -/
def oneLayerRecord : HostKVPageLayout :=
  { geometry := oneLayerGeometry, storageDtypes := [.U8, .U8, .BF16, .BF16, .FP16, .FP16],
    planes := [⟨0, 16384, 8192⟩, ⟨16384, 16384, 8192⟩, ⟨32768, 512, 256⟩, ⟨33280, 512, 256⟩,
      ⟨33792, 65536, 32768⟩, ⟨99328, 65536, 32768⟩],
    pageStride := 164864, storageFormat := .OscarQ4AndFp16, l1PagePayloadBytes := 33792,
    l2Offset := 33792, l2PagePayloadBytes := 131072 }

theorem plannedLayouts_accepted_oneLayer :
    Sectioned oneLayerRecord ∧ ∃ arena, HostKVArena.make 1 329728 [oneLayerRecord] = .ok arena := by
  have hplan : planHostKVPageLayoutFor oneLayerGeometry .OscarQ4AndFp16 = .ok oneLayerRecord := by
    decide +kernel
  have hplanned : PlannedLayout oneLayerRecord := .format hplan
  refine ⟨(plannedLayouts_accepted.1 _ hplanned).2.1 rfl, ?_⟩
  refine (plannedLayouts_accepted.2 [oneLayerRecord] ?_ (List.pairwise_singleton _ _) 1 329728).mpr ?_
  · simpa using hplanned
  decide

end VoidInfer.HostKV
