import VoidInfer.Base
import Mathlib.Tactic.Common

/-
  Host page layouts (`src/core/host_kv_arena.{h,cpp}`, `src/core/dtype.cpp`): the planes of one host page record and
  their stride, planned from a page geometry in the native form, with BF16 planes stored as FP16, or as the hierarchical
  OSCAR record (Q4 section followed by the FP16 section).

  The arena rests on one fact of the planner: a planned stride is positive (`planHostKVPageLayoutImpl_stride_pos`).
-/

namespace VoidInfer.HostKV

inductive DType where
  | BF16 | FP32 | I32 | U8 | I64 | I8 | FP16 | FP8_E4M3FN
deriving DecidableEq

def dtypeSize : DType → Nat
  | .BF16 => 2
  | .FP32 => 4
  | .I32 => 4
  | .U8 => 1
  | .I64 => 8
  | .I8 => 1
  | .FP16 => 2
  | .FP8_E4M3FN => 1

theorem dtypeSize_pos (d : DType) : 0 < dtypeSize d := by cases d <;> decide

inductive PagedKVPlaneOrder where
  | PageMajor | HeadMajor
deriving DecidableEq

inductive OscarKVLayout where
  | Contiguous | TransposedQ2
deriving DecidableEq

/-- `KVPlaneGeometry`. The extents are signed 32-bit in the source. -/
structure KVPlaneGeometry where
  dtype : DType := .BF16
  leadingExtent : Int := 0
  headExtent : Int := 0
  alignment : Nat := 256
deriving DecidableEq

structure KVPageGeometry where
  pageTokens : Nat := 64
  devicePlaneOrder : PagedKVPlaneOrder := .PageMajor
  planes : List KVPlaneGeometry := []
  oscarLayout : OscarKVLayout := .Contiguous
deriving DecidableEq

structure HostKVPlaneLayout where
  offset : Nat := 0
  pagePayloadBytes : Nat := 0
  headPayloadBytes : Nat := 0
deriving DecidableEq

inductive HostKVStorageFormat where
  | Native | BFloat16AsFp16 | OscarQ4AndFp16
deriving DecidableEq

structure HostKVPageLayout where
  geometry : KVPageGeometry := {}
  storageDtypes : List DType := []
  planes : List HostKVPlaneLayout := []
  pageStride : Nat := 0
  storageFormat : HostKVStorageFormat := .Native
  l1Offset : Nat := 0
  l1PagePayloadBytes : Nat := 0
  l2Offset : Nat := 0
  l2PagePayloadBytes : Nat := 0
deriving DecidableEq

def kPagedKVPageSize : Nat := 64

def kHostKVAlignment : Nat := 256

def kD256OscarCodeExtent : Int := 64

def kD256OscarScaleExtent : Int := 2

def kD256KVCacheHeadDim : Int := 256

/-! ## Checked arithmetic -/

def checkedAdd (a b : Nat) (label : String) : Except Exn Nat :=
  if b > sizeMax - a then .error (.overflowError label) else .ok (a + b)

def checkedMul (a b : Nat) (label : String) : Except Exn Nat :=
  if b ≠ 0 ∧ a > sizeMax / b then .error (.overflowError label) else .ok (a * b)

/-- `align_up`. For a power of two, `& ~mask` rounds down to a multiple of `alignment`. -/
def alignUp (value alignment : Nat) (label : String) : Except Exn Nat :=
  if alignment = 0 ∨ alignment &&& (alignment - 1) ≠ 0 then
    .error (.invalidArgument (label ++ " alignment must be a power of two"))
  else if value > sizeMax - (alignment - 1) then
    .error (.overflowError (label ++ " alignment overflow"))
  else .ok ((value + (alignment - 1)) / alignment * alignment)

variable {a b : Nat} {label : String} {r : HostKVPageLayout} {out : PlanCursor}
  {geometry : KVPageGeometry} {storageDtypes : List DType}

theorem checkedAdd_ok {r : Nat} (h : checkedAdd a b label = .ok r) : r = a + b := by
  unfold checkedAdd at h
  split at h
  · cases h
  · exact (Except.ok.inj h).symm

theorem checkedMul_ok {r : Nat} (h : checkedMul a b label = .ok r) : r = a * b := by
  unfold checkedMul at h
  split at h
  · cases h
  · exact (Except.ok.inj h).symm

theorem checkedAdd_of_le (label : String) (h : a + b ≤ sizeMax) : checkedAdd a b label = .ok (a + b) := by
  unfold checkedAdd
  rw [if_neg (by omega)]

theorem checkedMul_of_le (label : String) (h : a * b ≤ sizeMax) : checkedMul a b label = .ok (a * b) := by
  unfold checkedMul
  rw [if_neg]
  rintro ⟨hb, hgt⟩
  have := (Nat.le_div_iff_mul_le (Nat.pos_of_ne_zero hb)).mpr h
  omega

theorem alignUp_le {value alignment : Nat} {r : Nat} (h : alignUp value alignment label = .ok r) : value ≤ r := by
  unfold alignUp at h
  split at h
  · cases h
  split at h
  · cases h
  next hpow _ =>
  rw [← Except.ok.inj h, Nat.mul_comm]
  have ha : 0 < alignment := by omega
  have hlt := Nat.mod_lt (value + (alignment - 1)) ha
  have e := Nat.div_add_mod (value + (alignment - 1)) alignment
  omega

/-! ## Planning -/

/-- The planner's running state: the byte cursor and the planes laid out so far. -/
structure PlanCursor where
  cursor : Nat := 0
  planes : List HostKVPlaneLayout := []
  storageDtypes : List DType := []

/-- `append_plane` of the hierarchical branch. -/
def appendPlane (pageTokens : Nat) (dtype : DType) (leadingExtent headExtent : Int)
    (label : String) (out : PlanCursor) : Except Exn PlanCursor := do
  throwIf (leadingExtent ≤ 0 ∨ headExtent ≤ 0) (.invalidArgument "Hierarchical OSCAR host plane geometry is invalid")
  let cursor ← alignUp out.cursor kHostKVAlignment label
  let leading ← checkedMul leadingExtent.toNat pageTokens
    "Hierarchical OSCAR host head payload overflow"
  let headBytes ← checkedMul leading (dtypeSize dtype)
    "Hierarchical OSCAR host head payload overflow"
  let pageBytes ← checkedMul headBytes headExtent.toNat
    "Hierarchical OSCAR host plane payload overflow"
  let next ← checkedAdd cursor pageBytes "Hierarchical OSCAR host page payload overflow"
  return ⟨next, out.planes ++ [⟨cursor, pageBytes, headBytes⟩], out.storageDtypes ++ [dtype]⟩

section
variable (geometry : KVPageGeometry)

/-- One layer of the L1 (Q4) section: four source planes become packed codes and affine metadata for K and V. -/
def appendL1Layer (out : PlanCursor) (layer : Nat) : Except Exn PlanCursor := do
  let codeK := geometry.planes.getD (layer * 4) {}
  let codeV := geometry.planes.getD (layer * 4 + 1) {}
  let scaleK := geometry.planes.getD (layer * 4 + 2) {}
  let scaleV := geometry.planes.getD (layer * 4 + 3) {}
  throwIf (codeK.dtype ≠ .U8 ∨ codeV.dtype ≠ .U8 ∨ scaleK.dtype ≠ .BF16 ∨ scaleV.dtype ≠ .BF16 ∨
      codeK.leadingExtent ≠ kD256OscarCodeExtent ∨ codeV.leadingExtent ≠ kD256OscarCodeExtent ∨
      scaleK.leadingExtent ≠ kD256OscarScaleExtent ∨
      scaleV.leadingExtent ≠ kD256OscarScaleExtent ∨
      codeK.headExtent ≠ codeV.headExtent ∨ codeK.headExtent ≠ scaleK.headExtent ∨
      codeK.headExtent ≠ scaleV.headExtent)
    (.invalidArgument "Hierarchical OSCAR host layout requires Q2 U8/BF16 source planes")
  let heads := codeK.headExtent
  let out ← appendPlane geometry.pageTokens .U8 (kD256OscarCodeExtent * 2) heads
    "Hierarchical OSCAR Q4 code plane" out
  let out ← appendPlane geometry.pageTokens .U8 (kD256OscarCodeExtent * 2) heads
    "Hierarchical OSCAR Q4 code plane" out
  let out ← appendPlane geometry.pageTokens .BF16 kD256OscarScaleExtent heads
    "Hierarchical OSCAR Q4 scale plane" out
  appendPlane geometry.pageTokens .BF16 kD256OscarScaleExtent heads
    "Hierarchical OSCAR Q4 scale plane" out

/-- One layer of the L2 (FP16) section. -/
def appendL2Layer (out : PlanCursor) (layer : Nat) : Except Exn PlanCursor := do
  let heads := (geometry.planes.getD (layer * 4) {}).headExtent
  let out ← appendPlane geometry.pageTokens .FP16 kD256KVCacheHeadDim heads
    "Hierarchical OSCAR FP16 plane" out
  appendPlane geometry.pageTokens .FP16 kD256KVCacheHeadDim heads
    "Hierarchical OSCAR FP16 plane" out

/-- The hierarchical branch of `plan_host_kv_page_layout_impl`. -/
def planOscarLayout (storageDtypes : List DType) : Except Exn HostKVPageLayout := do
  throwIf (geometry.pageTokens ≠ kPagedKVPageSize ∨ geometry.planes.length % 4 ≠ 0)
    (.invalidArgument "Hierarchical OSCAR host layout has invalid plane groups")
  let layers := List.range (geometry.planes.length / 4)
  let l1 ← layers.foldlM (appendL1Layer geometry) {}
  let l2Offset ← alignUp l1.cursor kHostKVAlignment "Hierarchical OSCAR FP16 section"
  let l2 ← layers.foldlM (appendL2Layer geometry) { l1 with cursor := l2Offset }
  let stride ← alignUp l2.cursor kHostKVAlignment "Hierarchical OSCAR host page record"
  throwIf (storageDtypes ≠ [] ∧ storageDtypes ≠ l2.storageDtypes)
    (.invalidArgument "Hierarchical OSCAR host storage dtype inventory is inconsistent")
  return { geometry, storageDtypes := l2.storageDtypes, planes := l2.planes, pageStride := stride,
           storageFormat := .OscarQ4AndFp16, l1Offset := 0, l1PagePayloadBytes := l1.cursor,
           l2Offset, l2PagePayloadBytes := l2.cursor - l2Offset }

/-- One plane of the native branch; `dtype` is the plane's storage dtype. -/
def appendNativePlane (out : PlanCursor) (plane : KVPlaneGeometry × DType) : Except Exn PlanCursor := do
  throwIf (plane.1.leadingExtent ≤ 0 ∨ plane.1.headExtent ≤ 0)
    (.invalidArgument "Host KV plane geometry must be positive")
  throwIf (plane.2 ≠ plane.1.dtype ∧ ¬ (plane.1.dtype = .BF16 ∧ plane.2 = .FP16))
    (.invalidArgument "Host KV only supports BF16-to-FP16 authoritative storage conversion")
  let cursor ← alignUp out.cursor kHostKVAlignment "Host KV plane"
  let leading ← checkedMul plane.1.leadingExtent.toNat geometry.pageTokens
    "Host KV head payload overflow"
  let headBytes ← checkedMul leading (dtypeSize plane.2) "Host KV head payload overflow"
  let pageBytes ← checkedMul headBytes plane.1.headExtent.toNat "Host KV plane payload overflow"
  let next ← checkedAdd cursor pageBytes "Host KV page payload overflow"
  return { out with cursor := next, planes := out.planes ++ [⟨cursor, pageBytes, headBytes⟩] }

/-- The native branch: the source's storage dtypes default to the planes' own. -/
def planNativeLayout (storageDtypes : List DType) : Except Exn HostKVPageLayout := do
  throwIf (storageDtypes ≠ [] ∧ storageDtypes.length ≠ geometry.planes.length)
    (.invalidArgument "Host KV storage dtype inventory is inconsistent")
  let native := geometry.planes.map (·.dtype)
  let dtypes := if storageDtypes = [] then native else storageDtypes
  let format := if storageDtypes ≠ [] ∧ dtypes ≠ native then HostKVStorageFormat.BFloat16AsFp16
    else .Native
  let out ← (geometry.planes.zip dtypes).foldlM (appendNativePlane geometry) {}
  let stride ← alignUp out.cursor kHostKVAlignment "Host KV page record"
  return { geometry, storageDtypes, planes := out.planes, pageStride := stride,
           storageFormat := format }

def planHostKVPageLayoutImpl (storageDtypes : List DType)
    (storageFormat : HostKVStorageFormat) : Except Exn HostKVPageLayout :=
  if geometry.pageTokens = 0 ∨ geometry.planes = [] then
    .error (.invalidArgument "Host KV page geometry is empty")
  else if storageFormat = .OscarQ4AndFp16 then planOscarLayout geometry storageDtypes
  else planNativeLayout geometry storageDtypes

end

/-! ## A planned stride is positive -/

theorem checkedMul_pos {r : Nat} (h : checkedMul a b label = .ok r) (ha : 0 < a) (hb : 0 < b) : 0 < r := by
  rw [checkedMul_ok h]
  exact Nat.mul_pos ha hb

theorem appendPlane_pos {pageTokens : Nat} {dtype : DType} {leading head : Int} {r : PlanCursor} (ht : 0 < pageTokens)
    (h : appendPlane pageTokens dtype leading head label out = .ok r) : 0 < r.cursor := by
  obtain ⟨hpos, h⟩ := check_ok h
  obtain ⟨cursor, -, h⟩ := bind_ok h
  obtain ⟨lead, hlead, h⟩ := bind_ok h
  obtain ⟨headBytes, hhead, h⟩ := bind_ok h
  obtain ⟨pageBytes, hpage, h⟩ := bind_ok h
  obtain ⟨next, hnext, h⟩ := bind_ok h
  cases h
  have h1 := checkedMul_pos hlead (by omega) ht
  have h2 := checkedMul_pos hhead h1 (dtypeSize_pos dtype)
  have h3 := checkedMul_pos hpage h2 (by omega)
  have h4 := checkedAdd_ok hnext
  simp only
  omega

theorem appendL2Layer_pos {r : PlanCursor} {layer : Nat} (ht : 0 < geometry.pageTokens)
    (h : appendL2Layer geometry out layer = .ok r) : 0 < r.cursor := by
  obtain ⟨_, _, h⟩ := bind_ok h
  exact appendPlane_pos ht h

theorem appendNativePlane_pos {r : PlanCursor} {plane : KVPlaneGeometry × DType} (ht : 0 < geometry.pageTokens)
    (h : appendNativePlane geometry out plane = .ok r) : 0 < r.cursor := by
  obtain ⟨hpos, h⟩ := check_ok h
  obtain ⟨-, -, h⟩ := bind_ok h
  obtain ⟨cursor, -, h⟩ := bind_ok h
  obtain ⟨lead, hlead, h⟩ := bind_ok h
  obtain ⟨headBytes, hhead, h⟩ := bind_ok h
  obtain ⟨pageBytes, hpage, h⟩ := bind_ok h
  obtain ⟨next, hnext, h⟩ := bind_ok h
  cases h
  have h1 := checkedMul_pos hlead (by omega) ht
  have h2 := checkedMul_pos hhead h1 (dtypeSize_pos plane.2)
  have h3 := checkedMul_pos hpage h2 (by omega)
  have h4 := checkedAdd_ok hnext
  simp only
  omega

theorem foldlM_last {α σ : Type} {f : σ → α → Except Exn σ} {P : σ → Prop}
    (hf : ∀ s x r, f s x = .ok r → P r) {l : List α} (hl : l ≠ []) {s r : σ}
    (h : l.foldlM f s = .ok r) : P r := by
  induction l generalizing s with
  | nil => exact absurd rfl hl
  | cons x l ih =>
    obtain ⟨s', hx, h⟩ := bind_ok h
    cases l with
    | nil =>
      cases h
      exact hf s x _ hx
    | cons y l => exact ih (by simp) h

section
variable (ht : 0 < geometry.pageTokens) (hp : geometry.planes ≠ [])
include ht hp

theorem planOscarLayout_stride_pos (h : planOscarLayout geometry storageDtypes = .ok r) : 0 < r.pageStride := by
  obtain ⟨hgroups, h⟩ := check_ok h
  obtain ⟨l1, -, h⟩ := bind_ok h
  obtain ⟨l2Offset, -, h⟩ := bind_ok h
  obtain ⟨l2, hl2, h⟩ := bind_ok h
  obtain ⟨stride, hstride, h⟩ := bind_ok h
  obtain ⟨-, -, h⟩ := bind_ok h
  cases h
  have hlayers : List.range (geometry.planes.length / 4) ≠ [] := by
    have : geometry.planes.length ≠ 0 := by simpa using hp
    simp only [ne_eq, List.range_eq_nil]
    omega
  have hpos : 0 < l2.cursor :=
    foldlM_last (P := fun s => 0 < s.cursor) (fun s x r hr => appendL2Layer_pos ht hr) hlayers hl2
  have hle := alignUp_le hstride
  simp only
  omega

theorem planNativeLayout_stride_pos (h : planNativeLayout geometry storageDtypes = .ok r) : 0 < r.pageStride := by
  obtain ⟨hinv, h⟩ := check_ok h
  obtain ⟨out, hout, h⟩ := bind_ok h
  obtain ⟨stride, hstride, h⟩ := bind_ok h
  cases h
  have hne : geometry.planes.zip (if storageDtypes = [] then geometry.planes.map (·.dtype)
      else storageDtypes) ≠ [] := by
    have hlen : geometry.planes.length ≠ 0 := by simpa using hp
    rw [ne_eq, ← List.length_eq_zero_iff, List.length_zip]
    split
    · simpa using hp
    next hs =>
    have : storageDtypes.length = geometry.planes.length := by
      by_contra hne
      exact hinv ⟨hs, hne⟩
    omega
  have hpos : 0 < out.cursor :=
    foldlM_last (P := fun s => 0 < s.cursor) (fun s x r hr => appendNativePlane_pos ht hr) hne hout
  have hle := alignUp_le hstride
  simp only
  omega

end

theorem planHostKVPageLayoutImpl_stride_pos {storageFormat : HostKVStorageFormat}
    (h : planHostKVPageLayoutImpl geometry storageDtypes storageFormat = .ok r) :
    0 < r.pageStride := by
  unfold planHostKVPageLayoutImpl at h
  split at h
  · cases h
  next hne =>
  simp only [not_or] at hne
  split at h
  · exact planOscarLayout_stride_pos (by omega) hne.2 h
  · exact planNativeLayout_stride_pos (by omega) hne.2 h

end VoidInfer.HostKV
