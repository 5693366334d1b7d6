import VoidInfer.HostKV.LayoutPlanes
import VoidInfer.DeviceKV.PagePool
import Mathlib.Algebra.BigOperators.Ring.List

/-
  Device-to-host page copies and the planner that prices them
  (`src/core/paged_kv_cache.cpp`, `src/core/host_kv_arena.cpp`): `copy_to_host` issues one
  2D copy per run of consecutive pages and plane, or per head of the plane when the device
  stores it head-major; `plan_host_kv_transfer_work` counts copies and bytes on its own.

  `copyPages_length` and `copyPages_bytes` say what the loops issue. The planner agrees with them except for a
  hierarchical record of head-major planes with several heads (`planHostKVTransferWork_counts_iff`).
-/

namespace VoidInfer.DeviceKV
open List

open HostKV

structure TransferWork where
  payloadBytes : Nat := 0
  copyOperations : Nat := 0
deriving DecidableEq

/-! ## The planner -/

/-- One plane of the hierarchical branch, added to `source_bytes_per_page`. The extents are
    positive in every planned geometry. -/
def addSourcePlane (pageTokens sourceBytesPerPage : Nat) (plane : KVPlaneGeometry) : Except Exn Nat := do
  let leading ← checkedMul plane.leadingExtent.toNat pageTokens "Host KV source payload overflow"
  let headBytes ← checkedMul leading (dtypeSize plane.dtype) "Host KV source payload overflow"
  let pageBytes ← checkedMul headBytes plane.headExtent.toNat "Host KV source payload overflow"
  checkedAdd sourceBytesPerPage pageBytes "Host KV source payload overflow"

/-- 2D copies of one plane and one run. -/
def planeOperations (order : PagedKVPlaneOrder) (plane : KVPlaneGeometry) : Nat :=
  if order = .PageMajor then 1 else plane.headExtent.toNat

/-- One plane of the other branch, added to `bytes_per_page` and `operations_per_run`. -/
def addHostPlane (order : PagedKVPlaneOrder) (sum : Nat × Nat)
    (plane : HostKVPlaneLayout × KVPlaneGeometry) : Except Exn (Nat × Nat) := do
  let bytes ← checkedAdd sum.1 plane.1.pagePayloadBytes "Host KV transfer payload overflow"
  let operations ← checkedAdd sum.2 (planeOperations order plane.2)
    "Host KV transfer operation count overflow"
  return (bytes, operations)

def planHostKVTransferWork (layout : HostKVPageLayout) (pages contiguousRuns : Nat) : Except Exn TransferWork :=
  if pages = 0 then .ok {}
  else if contiguousRuns = 0 ∨ contiguousRuns > pages ∨ layout.planes = [] then
    .error (.invalidArgument "Host KV transfer geometry is invalid")
  else if layout.storageFormat = .OscarQ4AndFp16 then do
    let sourceBytesPerPage ←
      layout.geometry.planes.foldlM (addSourcePlane layout.geometry.pageTokens) 0
    let payload ← checkedMul sourceBytesPerPage pages
      "Host KV hierarchical transfer payload overflow"
    let operations ← checkedMul layout.geometry.planes.length contiguousRuns
      "Host KV hierarchical transfer operation count overflow"
    throwIf (operations > uint32Max) (.overflowError "Host KV transfer operation count exceeds uint32")
    return ⟨payload, operations⟩
  else do
    throwIf (layout.planes.length ≠ layout.geometry.planes.length)
      (.invalidArgument "Host KV transfer geometry is invalid")
    let perRun ← (layout.planes.zip layout.geometry.planes).foldlM
      (addHostPlane layout.geometry.devicePlaneOrder) (0, 0)
    let payload ← checkedMul perRun.1 pages "Host KV transfer payload overflow"
    let operations ← checkedMul perRun.2 contiguousRuns "Host KV transfer operation count overflow"
    throwIf (operations > uint32Max) (.overflowError "Host KV transfer operation count exceeds uint32")
    return ⟨payload, operations⟩

/-! ## The copies -/

/-- A run of consecutive physical pages: its position in the list and its first page. -/
structure PageRun where
  start : Nat
  first : Nat
  count : Nat

/-- The two loops over the pages, fused: `run` has reached the page `previous`. -/
def pageRunsFrom (run : PageRun) (previous : Nat) : List Nat → List PageRun
  | [] => [run]
  | page :: rest =>
    if page = previous + 1 then pageRunsFrom { run with count := run.count + 1 } page rest
    else run :: pageRunsFrom ⟨run.start + run.count, page, 1⟩ page rest

/-- The runs that the copy loops step through. -/
def pageRuns : List Nat → List PageRun
  | [] => []
  | page :: rest => pageRunsFrom ⟨0, page, 1⟩ page rest

/-- One `cudaMemcpy2DAsync`: the offset and pitch on the host, the plane, head and first page
    on the device, and the extent. -/
structure Copy2D where
  hostOffset : Nat
  hostPitch : Nat
  plane : Nat
  head : Option Nat
  first : Nat
  width : Nat
  height : Nat
deriving DecidableEq

/-- The bytes a copy moves. -/
def Copy2D.bytes (c : Copy2D) : Nat := c.width * c.height

/-- The copies of one run of one plane, the `index`-th. -/
def planeCopies (order : PagedKVPlaneOrder) (pageStride : Nat) (run : PageRun)
    (plane : (KVPlaneGeometry × HostKVPlaneLayout) × Nat) : List Copy2D :=
  let hostBase := run.start * pageStride + plane.1.2.offset
  if order = .PageMajor then
    [⟨hostBase, pageStride, plane.2, none, run.first, plane.1.2.pagePayloadBytes, run.count⟩]
  else (List.range plane.1.1.headExtent.toNat).map fun head =>
    ⟨hostBase + head * plane.1.2.headPayloadBytes, pageStride, plane.2, some head, run.first,
      plane.1.2.headPayloadBytes, run.count⟩

/-- `copy_device_pages_to_native`, which `copy_to_host` repeats inline for the other records:
    the device planes are those of the geometry. -/
def copyDevicePagesToNative (physicalPages : List Nat) (native : HostKVPageLayout)
    (geometry : KVPageGeometry) : List Copy2D :=
  (pageRuns physicalPages).flatMap fun run =>
    (geometry.planes.zip native.planes).zipIdx.flatMap
      (planeCopies geometry.devicePlaneOrder native.pageStride run)

def hostUsesFp16ForBf16 (host : HostKVPageLayout) (geometry : KVPageGeometry) : Except Exn Bool := do
  if host.storageDtypes = [] then return false
  throwIf (host.storageDtypes.length ≠ geometry.planes.length ∨ host.planes.length ≠ geometry.planes.length)
    (.invalidArgument "Paged KV host storage dtype inventory is inconsistent")
  let differing := (geometry.planes.zip host.storageDtypes).filter fun p => p.1.dtype ≠ p.2
  throwIf (∃ p ∈ differing, p.1.dtype ≠ .BF16 ∨ p.2 ≠ .FP16)
    (.invalidArgument "Paged KV only supports BF16-to-FP16 host storage conversion")
  return differing ≠ []

/-- `HostKVAllocationView`: page records inside the arena's memory. -/
structure HostKVAllocationView where
  valid : Bool
  pageCount : Nat
  layout : HostKVPageLayout
  counted : pageCount ≤ uint32Max
  extent : layout.pageStride * pageCount ≤ sizeMax

namespace DeviceKVPagePool

/-- `contiguous_run_count`; `previous` starts at -2. -/
def contiguousRunCount (p : DeviceKVPagePool) (pages : List DeviceKVPageHandle) : Except Exn Nat := do
  let counted ← pages.foldlM (fun (s : Nat × Int) page => do
    let current ← p.physicalIndex page
    return (if s.1 = 0 ∨ (current : Int) ≠ s.2 + 1 then s.1 + 1 else s.1, (current : Int))) (0, -2)
  return counted.1

/-- `copy_to_host`, up to the copies it issues; `geometry` is the pool's own. -/
def copyToHost (p : DeviceKVPagePool) (geometry : KVPageGeometry)
    (source : List DeviceKVPageHandle) (destination : HostKVAllocationView) :
    Except Exn (List Copy2D) := do
  throwIf (destination.valid = false ∨ destination.pageCount ≠ source.length ∨
      destination.layout.geometry ≠ geometry)
    (.invalidArgument "Paged KV D2H geometry or extent is inconsistent")
  if source = [] then return []
  let physicalPages ← source.mapM p.physicalIndex
  let host := destination.layout
  if host.storageFormat = .OscarQ4AndFp16 then do
    let native ← planHostKVPageLayout geometry
    throwIf (native.geometry ≠ host.geometry ∨ source.length > uint32Max ∨
        native.pageStride > sizeMax / source.length)
      (.invalidArgument "Paged KV hierarchical host conversion geometry is invalid")
    return copyDevicePagesToNative physicalPages native geometry
  else do
    let _ ← hostUsesFp16ForBf16 host geometry
    return copyDevicePagesToNative physicalPages host geometry

end DeviceKVPagePool

/-! ## Runs -/

theorem pageRunsFrom_count (pages : List Nat) (run : PageRun) (previous : Nat) :
    ((pageRunsFrom run previous pages).map (·.count)).sum = run.count + pages.length := by
  induction pages generalizing run previous with
  | nil => simp [pageRunsFrom]
  | cons page rest ih =>
    simp only [pageRunsFrom]
    split
    · rw [ih]
      simp only [length_cons]
      omega
    simp only [map_cons, sum_cons, ih, length_cons]
    omega

theorem pageRuns_count (pages : List Nat) : ((pageRuns pages).map (·.count)).sum = pages.length := by
  cases pages with
  | nil => rfl
  | cons page rest =>
    rw [pageRuns, pageRunsFrom_count, length_cons, Nat.add_comm]

variable {p : DeviceKVPagePool} {α β : Type} {geometry : KVPageGeometry}
  {host layout : HostKVPageLayout} {pages runs : Nat}

theorem contiguousRunCount_from (handles : List DeviceKVPageHandle)
    (pages : List Nat) (hpages : handles.mapM p.physicalIndex = .ok pages) (run : PageRun)
    (previous runs : Nat) (hruns : runs ≠ 0) :
    ∃ last, handles.foldlM (fun s page => do
        let current ← p.physicalIndex page
        return (if s.1 = 0 ∨ (current : Int) ≠ s.2 + 1 then s.1 + 1 else s.1, (current : Int)))
      (runs, (previous : Int)) = .ok (runs + (pageRunsFrom run previous pages).length - 1, last) := by
  induction handles generalizing pages run previous runs with
  | nil =>
    cases hpages
    exact ⟨previous, by simp [pageRunsFrom, pure, Except.pure]⟩
  | cons handle handles ih =>
    rw [mapM_cons] at hpages
    obtain ⟨page, hpage, hpages⟩ := bind_ok hpages
    obtain ⟨rest, hrest, hpages⟩ := bind_ok hpages
    cases hpages
    rw [foldlM_cons, hpage]
    simp only [bind, Except.bind, pure, Except.pure, pageRunsFrom]
    by_cases hnext : page = previous + 1
    · rw [if_neg (by omega), if_pos hnext]
      exact ih rest hrest _ page runs hruns
    rw [if_pos (by omega), if_neg hnext]
    obtain ⟨last, hlast⟩ := ih rest hrest ⟨run.start + run.count, page, 1⟩ page (runs + 1) (by omega)
    refine ⟨last, ?_⟩
    simp only [bind, Except.bind, pure, Except.pure] at hlast
    rw [hlast]
    simp only [length_cons]
    congr 2
    omega

variable {handles : List DeviceKVPageHandle} {storageDtypes : List DType}
  {r native : HostKVPageLayout} {planes : List KVPlaneGeometry} {ps : List HostKVPlaneLayout}

theorem contiguousRunCount_eq {pages : List Nat} (hpages : handles.mapM p.physicalIndex = .ok pages) :
    p.contiguousRunCount handles = .ok (pageRuns pages).length := by
  cases handles with
  | nil =>
    cases hpages
    rfl
  | cons handle handles =>
    rw [mapM_cons] at hpages
    obtain ⟨page, hpage, hpages⟩ := bind_ok hpages
    obtain ⟨rest, hrest, hpages⟩ := bind_ok hpages
    cases hpages
    obtain ⟨last, hlast⟩ := contiguousRunCount_from handles rest hrest ⟨0, page, 1⟩ page 1 (by omega)
    unfold DeviceKVPagePool.contiguousRunCount
    rw [foldlM_cons, hpage]
    simp only [bind, Except.bind, pure, Except.pure, true_or, if_true] at hlast ⊢
    rw [hlast]
    simp only [pageRuns]
    congr 1
    omega

/-! ## What the loops issue -/

/-- The host record holds one plane for each plane of the geometry, head by head. -/
def Matches (geometry : KVPageGeometry) (host : HostKVPageLayout) : Prop :=
  List.Forall₂ (fun (plane : KVPlaneGeometry) (p : HostKVPlaneLayout) => 0 < plane.headExtent ∧
    p.pagePayloadBytes = p.headPayloadBytes * plane.headExtent.toNat) geometry.planes host.planes

/-- 2D copies of one run: the sum over the planes. -/
def operationsPerRun (geometry : KVPageGeometry) : Nat :=
  (geometry.planes.map (planeOperations geometry.devicePlaneOrder)).sum

/-- Payload bytes of one page record. -/
def bytesPerPage (host : HostKVPageLayout) : Nat := (host.planes.map (·.pagePayloadBytes)).sum

section
variable (order : PagedKVPlaneOrder) (stride : Nat) (run : PageRun) (plane : (KVPlaneGeometry × HostKVPlaneLayout) × Nat)

theorem planeCopies_length : (planeCopies order stride run plane).length = planeOperations order plane.1.1 := by
  unfold planeCopies planeOperations
  split <;> simp

theorem planeCopies_bytes (h : plane.1.2.pagePayloadBytes = plane.1.2.headPayloadBytes * plane.1.1.headExtent.toNat) :
    ((planeCopies order stride run plane).map Copy2D.bytes).sum = plane.1.2.pagePayloadBytes * run.count := by
  unfold planeCopies
  split
  · simp [Copy2D.bytes]
  simp only [List.map_map, Function.comp_def, Copy2D.bytes, map_const', length_range, sum_replicate_nat, h]
  rw [← Nat.mul_assoc, Nat.mul_comm plane.1.1.headExtent.toNat]

end

theorem map_zipIdx (f : α → β) (xs : List α) : xs.zipIdx.map (fun x => f x.1) = xs.map f := by
  rw [show (fun x => f x.1) = f ∘ Prod.fst from rfl, ← List.map_map, zipIdx_map_fst]

theorem sum_flatMap_nat (f : α → List Nat) (xs : List α) : (xs.flatMap f).sum = (xs.map fun x => (f x).sum).sum := by
  rw [flatMap_def, sum_flatten, List.map_map]
  rfl

/-- The copies that one run issues. -/
def runCopies (geometry : KVPageGeometry) (host : HostKVPageLayout) (run : PageRun) : List Copy2D :=
  (geometry.planes.zip host.planes).zipIdx.flatMap
    (planeCopies geometry.devicePlaneOrder host.pageStride run)

section
variable (h : Matches geometry host)
include h

theorem runCopies_length (run : PageRun) : (runCopies geometry host run).length = operationsPerRun geometry := by
  have hplanes : (geometry.planes.zip host.planes).map
      (fun x => planeOperations geometry.devicePlaneOrder x.1) =
        geometry.planes.map (planeOperations geometry.devicePlaneOrder) := by
    rw [show (fun x =>
        planeOperations geometry.devicePlaneOrder x.1) =
          planeOperations geometry.devicePlaneOrder ∘ Prod.fst from rfl, ← List.map_map,
      map_fst_zip h.length_eq.le]
  simp only [runCopies, length_flatMap, planeCopies_length, operationsPerRun]
  rw [map_zipIdx (fun x : KVPlaneGeometry × HostKVPlaneLayout =>
    planeOperations geometry.devicePlaneOrder x.1), hplanes]

theorem runCopies_bytes (run : PageRun) :
    ((runCopies geometry host run).map Copy2D.bytes).sum = bytesPerPage host * run.count := by
  have hplane : ∀ x ∈ (geometry.planes.zip host.planes).zipIdx,
      ((planeCopies geometry.devicePlaneOrder host.pageStride run x).map Copy2D.bytes).sum =
        x.1.2.pagePayloadBytes * run.count := by
    intro x hx
    apply planeCopies_bytes
    have hmem : x.1 ∈ geometry.planes.zip host.planes := by
      have := List.mem_map_of_mem (f := Prod.fst) hx
      rwa [zipIdx_map_fst] at this
    exact (forall₂_zip h hmem).2
  have hplanes : (geometry.planes.zip host.planes).map (fun x => x.2.pagePayloadBytes * run.count) =
      host.planes.map fun p => p.pagePayloadBytes * run.count := by
    rw [show (fun x => x.2.pagePayloadBytes * run.count) =
        (fun p : HostKVPlaneLayout => p.pagePayloadBytes * run.count) ∘ Prod.snd from rfl,
      ← List.map_map, map_snd_zip h.length_eq.ge]
  rw [runCopies, map_flatMap, sum_flatMap_nat, map_congr_left hplane,
    map_zipIdx (fun x : KVPlaneGeometry × HostKVPlaneLayout => x.2.pagePayloadBytes * run.count),
    hplanes, bytesPerPage, ← sum_map_mul_right]

theorem copyPages_length (pages : List Nat) :
    (copyDevicePagesToNative pages host geometry).length = (pageRuns pages).length * operationsPerRun geometry := by
  have heach : ∀ run ∈ pageRuns pages, (runCopies geometry host run).length = operationsPerRun geometry :=
    fun run _ => runCopies_length h run
  show ((pageRuns pages).flatMap (runCopies geometry host)).length = _
  rw [length_flatMap, map_congr_left heach, map_const', sum_replicate_nat]

theorem copyPages_bytes (pages : List Nat) :
    ((copyDevicePagesToNative pages host geometry).map Copy2D.bytes).sum = bytesPerPage host * pages.length := by
  have heach : ∀ run ∈ pageRuns pages,
      ((runCopies geometry host run).map Copy2D.bytes).sum = bytesPerPage host * run.count :=
    fun run _ => runCopies_bytes h run
  show (((pageRuns pages).flatMap (runCopies geometry host)).map Copy2D.bytes).sum = _
  rw [map_flatMap, sum_flatMap_nat, map_congr_left heach, sum_map_mul_left, pageRuns_count]

end

/-! ## Planned records -/

theorem sum_payload_le {planes : List HostKVPlaneLayout} {lo hi : Nat} (hle : lo ≤ hi)
    (hordered : planes.Pairwise fun p q => p.offset + p.pagePayloadBytes ≤ q.offset)
    (hafter : ∀ p ∈ planes, lo ≤ p.offset)
    (hbefore : ∀ p ∈ planes, p.offset + p.pagePayloadBytes ≤ hi) :
    lo + (planes.map (·.pagePayloadBytes)).sum ≤ hi := by
  induction planes generalizing lo with
  | nil => simpa using hle
  | cons p planes ih =>
    obtain ⟨hnext, hrest⟩ := pairwise_cons.mp hordered
    have hp := hafter p mem_cons_self
    have htail := ih (hbefore p mem_cons_self) hrest hnext fun q hq => hbefore q (mem_cons_of_mem _ hq)
    simp only [map_cons, sum_cons]
    omega

theorem bytesPerPage_le (h : HostKV.Placed layout) : bytesPerPage layout ≤ layout.pageStride := by
  have := sum_payload_le (Nat.zero_le layout.pageStride) h.ordered (fun p _ => Nat.zero_le p.offset) h.within
  simpa [bytesPerPage] using this

theorem forall₂_of_zip {γ : Type} {R : α → β → γ → Prop} {as : List α} {bs : List β}
    {cs : List γ} (hlen : bs.length = as.length)
    (h : List.Forall₂ (fun x c => R x.1 x.2 c) (as.zip bs) cs) :
    List.Forall₂ (fun a c => ∃ b, (a, b) ∈ as.zip bs ∧ R a b c) as cs := by
  induction as generalizing bs cs with
  | nil =>
    cases h
    exact .nil
  | cons a as ih =>
    cases bs with
    | nil => simp at hlen
    | cons b bs =>
      cases h with
      | cons hhead htail =>
        refine .cons ⟨b, mem_cons_self, hhead⟩ ?_
        refine (ih (by simpa using hlen) htail).imp ?_
        intro a' c ⟨b', hmem, hr⟩
        exact ⟨b', mem_cons_of_mem _ hmem, hr⟩

section
variable (h : planNativeLayout geometry storageDtypes = .ok r)
include h

theorem planNativeLayout_sized :
    List.Forall₂ (fun plane p =>
      ∃ dtype, (storageDtypes = [] → dtype = plane.dtype) ∧
        Sized geometry.pageTokens ⟨dtype, plane.leadingExtent, plane.headExtent⟩ p)
      geometry.planes r.planes := by
  obtain ⟨out, hinventory, -, -, hgeometry, hdtypes, hformat, -⟩ := planNativeLayout_ok h
  have hsized := (planNativeLayout_placed h).sized
  rw [hostPlanes, if_neg hformat, hgeometry, hdtypes] at hsized
  rw [forall₂_map_left_iff] at hsized
  have hlen : (if storageDtypes = [] then geometry.planes.map (·.dtype)
      else storageDtypes).length = geometry.planes.length := by
    split
    · simp
    · next hne => exact hinventory hne
  refine (forall₂_of_zip (R := fun plane dtype p => Sized geometry.pageTokens
    ⟨dtype, plane.leadingExtent, plane.headExtent⟩ p) hlen hsized).imp ?_
  rintro plane p ⟨dtype, hmem, hp⟩
  refine ⟨dtype, ?_, hp⟩
  intro hempty
  rw [if_pos hempty] at hmem
  have : ∀ x ∈ geometry.planes.zip (geometry.planes.map (·.dtype)), x.2 = x.1.dtype := by
    intro x hx
    rw [← map_prod_left_eq_zip] at hx
    obtain ⟨y, -, rfl⟩ := List.mem_map.mp hx
    rfl
  exact this _ hmem

theorem planNativeLayout_matches : Matches geometry r :=
  (planNativeLayout_sized h).imp fun _ _ ⟨_, _, hp⟩ => ⟨hp.heads, hp.page⟩

end

/-! ## What the planner counts -/

theorem addSourcePlane_foldlM {pageTokens : Nat}
    (h : List.Forall₂ (fun plane p =>
      Sized pageTokens ⟨plane.dtype, plane.leadingExtent, plane.headExtent⟩ p) planes ps)
    (sum : Nat) (hfit : sum + (ps.map (·.pagePayloadBytes)).sum ≤ sizeMax) :
    planes.foldlM (addSourcePlane pageTokens) sum = .ok (sum + (ps.map (·.pagePayloadBytes)).sum) := by
  induction h generalizing sum with
  | nil => rfl
  | @cons plane p planes ps hp _ ih =>
    simp only [map_cons, sum_cons] at hfit ⊢
    have hheads := hp.heads
    have hhead := hp.head
    have hpage := hp.page
    simp only at hheads hhead hpage
    have hhead_le : p.headPayloadBytes ≤ p.pagePayloadBytes := by
      rw [hpage]
      exact Nat.le_mul_of_pos_right _ (by omega)
    have hlead_le : plane.leadingExtent.toNat * pageTokens ≤ p.headPayloadBytes := by
      rw [hhead]
      exact Nat.le_mul_of_pos_right _ (dtypeSize_pos _)
    have hstep : addSourcePlane pageTokens sum plane = .ok (sum + p.pagePayloadBytes) := by
      unfold addSourcePlane
      rw [checkedMul_of_le _ (by omega)]
      simp only [bind, Except.bind]
      rw [checkedMul_of_le _ (by omega)]
      simp only
      rw [← hhead, checkedMul_of_le _ (by omega)]
      simp only
      rw [← hpage, checkedAdd_of_le _ (by omega)]
    rw [foldlM_cons, hstep]
    simp only [bind, Except.bind]
    rw [ih _ (by omega), Nat.add_assoc]

theorem addHostPlane_foldlM (order : PagedKVPlaneOrder) (hlen : ps.length = planes.length)
    (sum : Nat × Nat) (hbytes : sum.1 + (ps.map (·.pagePayloadBytes)).sum ≤ sizeMax)
    (hoperations : sum.2 + (planes.map (planeOperations order)).sum ≤ sizeMax) :
    (ps.zip planes).foldlM (addHostPlane order) sum =
      .ok (sum.1 + (ps.map (·.pagePayloadBytes)).sum, sum.2 + (planes.map (planeOperations order)).sum) := by
  induction ps generalizing planes sum with
  | nil =>
    have hnil : planes = [] := length_eq_zero_iff.mp hlen.symm
    subst hnil
    rfl
  | cons p ps ih =>
    cases planes with
    | nil => simp at hlen
    | cons plane planes =>
      simp only [map_cons, sum_cons] at hbytes hoperations ⊢
      have hstep : addHostPlane order sum (p, plane) =
          .ok (sum.1 + p.pagePayloadBytes, sum.2 + planeOperations order plane) := by
        simp only [addHostPlane]
        rw [checkedAdd_of_le _ (by omega)]
        rw [checkedAdd_of_le _ (by omega)]
        rfl
      rw [zip_cons_cons, foldlM_cons, hstep]
      simp only [bind, Except.bind]
      rw [ih (by simpa using hlen) _ (by omega) (by omega)]
      simp only [Nat.add_assoc]

theorem planHostKVTransferWork_ok {work : TransferWork}
    (hpages : pages ≠ 0) (h : planHostKVTransferWork layout pages runs = .ok work) :
    work.copyOperations ≤ uint32Max ∧ (layout.storageFormat = .OscarQ4AndFp16 →
      work.copyOperations = layout.geometry.planes.length * runs) := by
  unfold planHostKVTransferWork at h
  rw [if_neg hpages] at h
  split at h
  · cases h
  split at h
  · obtain ⟨bytes, -, h⟩ := bind_ok h
    obtain ⟨payload, -, h⟩ := bind_ok h
    obtain ⟨operations, hoperations, h⟩ := bind_ok h
    obtain ⟨hfit, h⟩ := check_ok h
    cases h
    exact ⟨Nat.not_lt.mp hfit, fun _ => checkedMul_ok hoperations⟩
  next hformat =>
  obtain ⟨_, -, h⟩ := bind_ok h
  obtain ⟨perRun, -, h⟩ := bind_ok h
  obtain ⟨payload, -, h⟩ := bind_ok h
  obtain ⟨operations, -, h⟩ := bind_ok h
  obtain ⟨hfit, h⟩ := check_ok h
  cases h
  exact ⟨Nat.not_lt.mp hfit, fun hoscar => absurd hoscar hformat⟩

section
variable (hruns : runs ≠ 0) (hle : runs ≤ pages) (hplanes : layout.planes ≠ [])
include hruns hle hplanes

theorem planHostKVTransferWork_oscar (hformat : layout.storageFormat = .OscarQ4AndFp16)
    (hnative : planNativeLayout layout.geometry [] = .ok native)
    (hbytes : bytesPerPage native * pages ≤ sizeMax)
    (hoperations : layout.geometry.planes.length * runs ≤ uint32Max) :
    planHostKVTransferWork layout pages runs =
      .ok ⟨bytesPerPage native * pages, layout.geometry.planes.length * runs⟩ := by
  have hsized : List.Forall₂ (fun plane p =>
      Sized layout.geometry.pageTokens ⟨plane.dtype, plane.leadingExtent, plane.headExtent⟩ p)
      layout.geometry.planes native.planes := by
    refine (planNativeLayout_sized hnative).imp ?_
    intro plane p ⟨dtype, hdtype, hp⟩
    rw [hdtype rfl] at hp
    exact hp
  have hpage : bytesPerPage native ≤ sizeMax :=
    (Nat.le_mul_of_pos_right _ (by omega)).trans hbytes
  have hsum := addSourcePlane_foldlM hsized 0 (by rw [Nat.zero_add]; exact hpage)
  have hmax : uint32Max ≤ sizeMax := by decide
  have hbad : ¬ (runs = 0 ∨ runs > pages ∨ layout.planes = []) := by
    simp only [not_or, not_lt]
    exact ⟨hruns, hle, hplanes⟩
  unfold planHostKVTransferWork
  rw [if_neg (by omega), if_neg hbad, if_pos hformat, hsum, Nat.zero_add]
  simp only [bind, Except.bind]
  rw [show (native.planes.map (·.pagePayloadBytes)).sum = bytesPerPage native from rfl, checkedMul_of_le _ hbytes]
  rw [checkedMul_of_le _ (hoperations.trans hmax)]
  simp only [throwIf, if_neg (Nat.not_lt.mpr hoperations)]
  rfl

theorem planHostKVTransferWork_direct (hformat : layout.storageFormat ≠ .OscarQ4AndFp16)
    (hlen : layout.planes.length = layout.geometry.planes.length)
    (hbytes : bytesPerPage layout * pages ≤ sizeMax)
    (hoperations : operationsPerRun layout.geometry * runs ≤ uint32Max) :
    planHostKVTransferWork layout pages runs =
      .ok ⟨bytesPerPage layout * pages, operationsPerRun layout.geometry * runs⟩ := by
  have hpage : bytesPerPage layout ≤ sizeMax :=
    (Nat.le_mul_of_pos_right _ (by omega)).trans hbytes
  have hmax : uint32Max ≤ sizeMax := by decide
  have hrun : operationsPerRun layout.geometry ≤ sizeMax :=
    (Nat.le_mul_of_pos_right _ (by omega)).trans (hoperations.trans hmax)
  have hsum := addHostPlane_foldlM layout.geometry.devicePlaneOrder hlen (0, 0)
    (by rw [Nat.zero_add]; exact hpage) (by rw [Nat.zero_add]; exact hrun)
  have hbad : ¬ (runs = 0 ∨ runs > pages ∨ layout.planes = []) := by
    simp only [not_or, not_lt]
    exact ⟨hruns, hle, hplanes⟩
  unfold planHostKVTransferWork
  rw [if_neg (by omega), if_neg hbad, if_neg hformat, hsum]
  simp only [bind, Except.bind, throwIf, ne_eq, hlen, not_true_eq_false, if_false, Nat.zero_add]
  rw [show (layout.planes.map (·.pagePayloadBytes)).sum = bytesPerPage layout from rfl,
    show (layout.geometry.planes.map (planeOperations layout.geometry.devicePlaneOrder)).sum =
      operationsPerRun layout.geometry from rfl, checkedMul_of_le _ hbytes]
  rw [checkedMul_of_le _ (hoperations.trans hmax)]
  simp only [if_neg (Nat.not_lt.mpr hoperations)]
  rfl

end

theorem operationsPerRun_eq_iff (hheads : ∀ plane ∈ geometry.planes, 0 < plane.headExtent) :
    operationsPerRun geometry = geometry.planes.length ↔
      geometry.devicePlaneOrder = .PageMajor ∨ ∀ plane ∈ geometry.planes, plane.headExtent = 1 := by
  by_cases horder : geometry.devicePlaneOrder = .PageMajor
  · have hone : planeOperations .PageMajor = fun _ => 1 := by
      funext plane
      rw [planeOperations, if_pos rfl]
    simp [operationsPerRun, horder, hone]
  simp only [operationsPerRun, horder, false_or]
  generalize geometry.planes = planes at hheads
  induction planes with
  | nil => simp
  | cons plane planes ih =>
    have hpos := hheads plane mem_cons_self
    have hrest : ∀ q ∈ planes, 0 < q.headExtent :=
      fun q hq => hheads q (mem_cons_of_mem _ hq)
    have hge : planes.length ≤ (planes.map (planeOperations geometry.devicePlaneOrder)).sum := by
      rw [← length_map _]
      apply length_le_sum_of_one_le
      intro n hn
      obtain ⟨q, hq, rfl⟩ := List.mem_map.mp hn
      have := hrest q hq
      rw [planeOperations, if_neg horder]
      omega
    have ih := ih hrest
    simp only [map_cons, sum_cons, length_cons, forall_mem_cons]
    rw [← ih, planeOperations, if_neg horder]
    omega

theorem pageRunsFrom_length (pages : List Nat) (run : PageRun) (previous : Nat) :
    0 < (pageRunsFrom run previous pages).length ∧ (pageRunsFrom run previous pages).length ≤ pages.length + 1 := by
  induction pages generalizing run previous with
  | nil => simp [pageRunsFrom]
  | cons page rest ih =>
    simp only [pageRunsFrom]
    split
    · have := ih { run with count := run.count + 1 } page
      simp only [length_cons]
      omega
    have := ih ⟨run.start + run.count, page, 1⟩ page
    simp only [length_cons]
    omega

theorem pageRuns_length {pages : List Nat} (hne : pages ≠ []) :
    (pageRuns pages).length ≠ 0 ∧ (pageRuns pages).length ≤ pages.length := by
  cases pages with
  | nil => exact absurd rfl hne
  | cons page rest =>
    have := pageRunsFrom_length rest ⟨0, page, 1⟩ page
    simp only [pageRuns, length_cons]
    omega

theorem plannedLayout_branch (h : PlannedLayout layout) :
    layout.geometry.planes ≠ [] ∧
      (layout.storageFormat = .OscarQ4AndFp16 ∧ planOscarLayout layout.geometry layout.storageDtypes = .ok layout ∨
        layout.storageFormat ≠ .OscarQ4AndFp16 ∧
          planNativeLayout layout.geometry layout.storageDtypes = .ok layout) := by
  have hreplan := (plannedLayouts_accepted.1 layout h).2.2
  unfold planHostKVPageLayoutImpl at hreplan
  split at hreplan
  · cases hreplan
  next hne =>
  rw [not_or] at hne
  refine ⟨hne.2, ?_⟩
  split at hreplan
  · next hformat => exact .inl ⟨hformat, hreplan⟩
  · next hformat => exact .inr ⟨hformat, hreplan⟩

theorem planHostKVPageLayout_native (h : planHostKVPageLayout geometry = .ok native) :
    planNativeLayout geometry [] = .ok native := by
  unfold planHostKVPageLayout planHostKVPageLayoutImpl at h
  split at h
  · cases h
  · rwa [if_neg (by decide)] at h

theorem mapM_length {f : α → Except Exn β} {xs : List α} {ys : List β}
    (h : xs.mapM f = .ok ys) : ys.length = xs.length := by
  induction xs generalizing ys with
  | nil =>
    cases h
    rfl
  | cons x xs ih =>
    rw [mapM_cons] at h
    obtain ⟨y, -, h⟩ := bind_ok h
    obtain ⟨rest, hrest, h⟩ := bind_ok h
    cases h
    simp only [length_cons, ih hrest]

variable {destination : HostKVAllocationView}

theorem copyToHost_ok {copies : List Copy2D}
    (hne : handles ≠ []) (h : p.copyToHost geometry handles destination = .ok copies) :
    ∃ pages host, handles.mapM p.physicalIndex = .ok pages ∧ copies = copyDevicePagesToNative pages host geometry ∧
      destination.layout.geometry = geometry ∧ destination.pageCount = handles.length ∧
      (destination.layout.storageFormat = .OscarQ4AndFp16 ∧
          planHostKVPageLayout geometry = .ok host ∧ host.pageStride ≤ sizeMax / handles.length ∨
        destination.layout.storageFormat ≠ .OscarQ4AndFp16 ∧ host = destination.layout) := by
  obtain ⟨hfits, h⟩ := check_ok h
  simp only [not_or, not_not] at hfits
  rw [if_neg hne] at h
  obtain ⟨pages, hpages, h⟩ := bind_ok h
  simp only at h
  split at h
  · next hformat =>
    obtain ⟨native, hnative, h⟩ := bind_ok h
    obtain ⟨hroom, h⟩ := check_ok h
    simp only [not_or, not_lt] at hroom
    cases h
    exact ⟨pages, native, hpages, rfl, hfits.2.2, hfits.2.1, .inl ⟨hformat, hnative, hroom.2.2⟩⟩
  next hformat =>
  obtain ⟨_, -, h⟩ := bind_ok h
  cases h
  exact ⟨pages, _, hpages, rfl, hfits.2.2, hfits.2.1, .inr ⟨hformat, rfl⟩⟩

theorem plannedLayout_planes_ne (h : PlannedLayout layout) : layout.planes ≠ [] := by
  obtain ⟨hne, hbranch⟩ := plannedLayout_branch h
  have hlength : layout.geometry.planes.length ≠ 0 := by simpa using hne
  intro hempty
  rcases hbranch with ⟨hformat, hplan⟩ | ⟨-, hplan⟩
  · obtain ⟨-, -, hgroups, -⟩ := planOscarLayout_ok hplan
    have hsized := (planOscarLayout_placed hplan).1.sized.length_eq
    rw [hostPlanes, if_pos hformat, hempty, length_append, length_l1Planes, length_range, length_nil] at hsized
    omega
  have hmatches := (planNativeLayout_matches hplan).length_eq
  rw [hempty, length_nil] at hmatches
  omega

/-- The planner counts the copies that `copy_to_host` issues and the bytes they move exactly when their number fits 32
    bits and the record is not hierarchical over head-major planes of several heads: there it counts one copy per plane
    and run, and the loop issues one per head. -/
theorem planHostKVTransferWork_counts_iff {p : DeviceKVPagePool} {geometry : KVPageGeometry}
    {handles : List DeviceKVPageHandle} {destination : HostKVAllocationView}
    {copies : List Copy2D} {runs : Nat} (hplanned : PlannedLayout destination.layout)
    (hne : handles ≠ []) (hcopy : p.copyToHost geometry handles destination = .ok copies)
    (hruns : p.contiguousRunCount handles = .ok runs) :
    planHostKVTransferWork destination.layout handles.length runs =
        .ok ⟨(copies.map Copy2D.bytes).sum, copies.length⟩ ↔
      runs * operationsPerRun geometry ≤ uint32Max ∧
        (destination.layout.storageFormat ≠ .OscarQ4AndFp16 ∨ geometry.devicePlaneOrder = .PageMajor ∨
            ∀ plane ∈ geometry.planes, plane.headExtent = 1) := by
  obtain ⟨pages, host, hpages, rfl, rfl, hcount, hbranch⟩ := copyToHost_ok hne hcopy
  rw [contiguousRunCount_eq hpages] at hruns
  cases hruns
  have hlength := mapM_length hpages
  have hpages_ne : pages ≠ [] := by
    rw [ne_eq, ← length_eq_zero_iff, hlength]
    simpa using hne
  obtain ⟨hruns_ne, hruns_le⟩ := pageRuns_length hpages_ne
  rw [hlength] at hruns_le
  have hplanes := plannedLayout_planes_ne hplanned
  have hhandles : handles.length ≠ 0 := by simpa using hne
  obtain ⟨-, hplan⟩ := plannedLayout_branch hplanned
  rcases hbranch with ⟨hformat, hnative, hroom⟩ | ⟨hformat, rfl⟩
  · -- the copies go to a native staging record of the same geometry
    have hnative := planHostKVPageLayout_native hnative
    have hmatches := planNativeLayout_matches hnative
    have hheads := ((forall₂_and_left _ _).mp hmatches).1
    have hbytes : bytesPerPage host * handles.length ≤ sizeMax := by
      have hstride := bytesPerPage_le (planNativeLayout_placed hnative)
      exact (Nat.le_div_iff_mul_le (by omega)).mp (hstride.trans hroom)
    rw [copyPages_length hmatches, copyPages_bytes hmatches, hlength]
    constructor
    · intro h
      obtain ⟨hfit, hoperations⟩ := planHostKVTransferWork_ok hhandles h
      refine ⟨hfit, .inr ((operationsPerRun_eq_iff hheads).mp ?_)⟩
      have heq : (pageRuns pages).length * operationsPerRun destination.layout.geometry =
          destination.layout.geometry.planes.length * (pageRuns pages).length :=
        hoperations hformat
      rw [Nat.mul_comm] at heq
      exact Nat.eq_of_mul_eq_mul_right (Nat.pos_of_ne_zero hruns_ne) heq
    · rintro ⟨hfit, hshape⟩
      have hone := (operationsPerRun_eq_iff hheads).mpr (hshape.resolve_left (not_not.mpr hformat))
      rw [hone, Nat.mul_comm] at hfit
      rw [hone, Nat.mul_comm (pageRuns pages).length]
      exact planHostKVTransferWork_oscar hruns_ne hruns_le hplanes hformat hnative hbytes hfit
  obtain ⟨-, hdirect⟩ := hplan.resolve_left fun h => hformat h.1
  have hmatches := planNativeLayout_matches hdirect
  have hbytes : bytesPerPage destination.layout * handles.length ≤ sizeMax := by
    have hstride := bytesPerPage_le (planNativeLayout_placed hdirect)
    have hextent := destination.extent
    rw [hcount] at hextent
    exact (Nat.mul_le_mul_right _ hstride).trans hextent
  rw [copyPages_length hmatches, copyPages_bytes hmatches, hlength]
  constructor
  · intro h
    exact ⟨(planHostKVTransferWork_ok hhandles h).1, .inl hformat⟩
  · rintro ⟨hfit, -⟩
    rw [Nat.mul_comm] at hfit
    rw [Nat.mul_comm (pageRuns pages).length]
    exact planHostKVTransferWork_direct hruns_ne hruns_le hplanes hformat hmatches.length_eq.symm
      hbytes hfit

/-- A pool with one live page. -/
def onePagePool : DeviceKVPagePool :=
  { self := 1, capacityPages := 1, freePageRuns := [], pageGenerations := [1],
    pageAllocated := [true], allocatedPages := 1 }

/-- Its page. -/
def livePage : DeviceKVPageHandle := ⟨some 1, 0, 1⟩

/-- A view of one page record under `layout`. -/
def onePageView (layout : HostKVPageLayout) (h : layout.pageStride * 1 ≤ sizeMax) :
    HostKVAllocationView := ⟨true, 1, layout, by decide, h⟩

/-- Page-major planes of two heads: four copies of one page, counted as four. -/
theorem planHostKVTransferWork_counts_oneLayer : planHostKVTransferWork oneLayerRecord 1 1 = .ok ⟨17408, 4⟩ := by
  have hplan : planHostKVPageLayoutFor oneLayerGeometry .OscarQ4AndFp16 = .ok oneLayerRecord := by
    decide +kernel
  have hcopy : onePagePool.copyToHost oneLayerGeometry [livePage]
      (onePageView oneLayerRecord (by decide)) =
        .ok [⟨0, 17408, 0, none, 0, 8192, 1⟩, ⟨8192, 17408, 1, none, 0, 8192, 1⟩,
          ⟨16384, 17408, 2, none, 0, 512, 1⟩, ⟨16896, 17408, 3, none, 0, 512, 1⟩] := by
    decide +kernel
  exact (planHostKVTransferWork_counts_iff (.format hplan) (by decide) hcopy
    (show onePagePool.contiguousRunCount [livePage] = .ok 1 by rfl)).mpr
      ⟨by decide, .inr (.inl rfl)⟩

/-- The same planes stored head-major. -/
def headMajorRecord : HostKVPageLayout :=
  { oneLayerRecord with geometry := { oneLayerGeometry with devicePlaneOrder := .HeadMajor } }

/-- One page of two heads, stored head-major: eight copies are issued and four counted. -/
theorem headMajor_miscounted :
    PlannedLayout headMajorRecord ∧
      (∃ copies, onePagePool.copyToHost headMajorRecord.geometry [livePage]
        (onePageView headMajorRecord (by decide)) = .ok copies ∧ copies.length = 8) ∧
      onePagePool.contiguousRunCount [livePage] = .ok 1 ∧
      planHostKVTransferWork headMajorRecord 1 1 = .ok ⟨17408, 4⟩ := by
  have hplan : planHostKVPageLayoutFor headMajorRecord.geometry .OscarQ4AndFp16 =
      .ok headMajorRecord := by decide +kernel
  refine ⟨.format hplan, ⟨_, rfl, ?_⟩, rfl, ?_⟩
  · decide +kernel
  · decide +kernel

end VoidInfer.DeviceKV
