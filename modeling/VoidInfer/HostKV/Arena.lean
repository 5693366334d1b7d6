import VoidInfer.HostKV.Layout
import VoidInfer.Lib.SpanList

/-
  The host KV arena (`src/core/host_kv_arena.{h,cpp}`): a byte range handed out as descriptors with generations, a
  first-fit list of free extents, and a stack of free descriptors. Lists are ordered as the source's vectors, except
  `freeDescriptors`, whose head is the back of `free_descriptors_`.

  An arena is identified by `self`, the address that `owner_` fields hold; `none` is the null pointer. The pinned buffer
  behind the arena is left out: no operation modelled here reads it.
-/

namespace VoidInfer.HostKV

open SpanList

/-- `HostKVArena::FreeExtent`: `start` is `offset`, `size` is `bytes`. -/
abbrev FreeExtent := Span

structure Descriptor where
  offset : Nat := 0
  bytes : Nat := 0
  layout : Nat := 0
  pages : Nat := 0
  generation : Nat := 1
  active : Bool := false

structure HostKVAllocationHandle where
  owner : Option Nat := none
  descriptor : Nat := 0
  generation : Nat := 0
deriving DecidableEq

/-- `HostKVAllocation`: the move-only owner of a handle. -/
structure HostKVAllocation where
  owner : Option Nat := none
  descriptor : Nat := 0
  generation : Nat := 0
deriving DecidableEq

def HostKVAllocation.valid (al : HostKVAllocation) : Bool := al.owner.isSome

def HostKVAllocation.handle (al : HostKVAllocation) : HostKVAllocationHandle :=
  if al.valid then ⟨al.owner, al.descriptor, al.generation⟩ else {}

def HostKVAllocation.disarm (_ : HostKVAllocation) : HostKVAllocation := {}

/-- `HostKVAllocationRequest`; `layout` is a nullable pointer. -/
structure HostKVAllocationRequest where
  layout : Option HostKVPageLayout := none
  pages : Nat := 0

structure HostKVArena where
  self : Nat
  capacityBytes : Nat
  occupiedBytes : Nat := 0
  layouts : List HostKVPageLayout
  descriptors : List Descriptor := []
  freeDescriptors : List Nat := []
  freeExtents : List FreeExtent := []
  revision : Nat := 1

namespace HostKVArena

/-! ## Construction -/

/-- The constructor's loop over the layouts; `seen` are those before. -/
def checkLayouts (seen : List HostKVPageLayout) : List HostKVPageLayout → Except Exn Unit
  | [] => .ok ()
  | layout :: rest => do
    let planned ← planHostKVPageLayoutImpl layout.geometry layout.storageDtypes
      layout.storageFormat
    throwIf (planned ≠ layout) (.invalidArgument "Host KV arena received an inconsistent page layout")
    throwIf (∃ previous ∈ seen, previous.geometry = layout.geometry)
      (.invalidArgument "Host KV arena contains a duplicate page layout")
    checkLayouts (seen ++ [layout]) rest

/-- The smallest page stride, as `std::min_element` finds it. -/
def smallestStride (layouts : List HostKVPageLayout) : Nat :=
  (layouts.map (·.pageStride)).min?.getD 0

/-- `HostKVArena::HostKVArena`. -/
def make (self capacityBytes : Nat) (layouts : List HostKVPageLayout) : Except Exn HostKVArena := do
  checkLayouts [] layouts
  if capacityBytes = 0 then return { self, capacityBytes, layouts }
  else
    throwIf (layouts = []) (.invalidArgument "Non-empty Host KV arena requires supported page layouts")
    let maximumDescriptors := capacityBytes / smallestStride layouts
    throwIf (maximumDescriptors > uint32Max) (.overflowError "Host KV arena descriptor capacity exceeds uint32")
    return { self, capacityBytes, layouts,
             descriptors := List.replicate maximumDescriptors {},
             freeDescriptors := List.range maximumDescriptors,
             freeExtents := [⟨0, capacityBytes⟩] }

/-! ## Operations -/

/-- `find_layout`: the source compares every field of the two layouts. -/
def findLayout (a : HostKVArena) (layout : HostKVPageLayout) : Option Nat :=
  a.layouts.findIdx? (· == layout)

/-- `find_free_extent`: the first extent with room. -/
def findFreeExtent (extents : List FreeExtent) (bytes : Nat) : Option Nat :=
  extents.findIdx? (fun e => decide (e.size ≥ bytes))

/-- The first-fit cut of `allocate`, which `plan_after_releases` and
    `can_allocate_after_suballocation_releases` repeat on a copy of the free list: the
    offset of the cut and the extents left. -/
def takeExtent (extents : List FreeExtent) (bytes : Nat) : Option (Nat × List FreeExtent) :=
  match findFreeExtent extents bytes with
  | none => none
  | some i => some ((extents.getD i ⟨0, 0⟩).start, carveFront extents i bytes)

def bumpRevision (revision : Nat) : Nat :=
  let next := (revision + 1) % 2 ^ 64
  if next = 0 then next + 1 else next

def validHandle (a : HostKVArena) (h : HostKVAllocationHandle) : Bool :=
  if h.owner ≠ some a.self then false
  else match a.descriptors[h.descriptor]? with
    | none => false
    | some d => d.active && d.generation == h.generation

/-- `take_descriptor`: `none` is the sentinel `UINT32_MAX`, which is no descriptor's index
    because the constructor makes at most `UINT32_MAX` of them. -/
def takeDescriptor (a : HostKVArena) : Option (Nat × HostKVArena) :=
  match a.freeDescriptors with
  | [] => none
  | d :: rest => some (d, { a with freeDescriptors := rest })

/-- `stride > SIZE_MAX / pages`. -/
def strideOverflows (stride pages : Nat) : Prop := stride > sizeMax / pages

instance (stride pages : Nat) : Decidable (strideOverflows stride pages) :=
  inferInstanceAs (Decidable (_ > _))

section
variable (a : HostKVArena)

def canAllocate (layout : HostKVPageLayout) (pages : Nat) : Bool :=
  if pages = 0 ∨ a.freeDescriptors = [] ∨ a.findLayout layout = none ∨
      strideOverflows layout.pageStride pages then false
  else (findFreeExtent a.freeExtents (layout.pageStride * pages)).isSome

/-- `allocate`. On `none` the arena is unchanged. -/
def allocate (layout : HostKVPageLayout) (pages : Nat) : Option (HostKVAllocation × HostKVArena) :=
  match a.findLayout layout with
  | none => none
  | some layoutIndex =>
    if pages = 0 ∨ a.freeDescriptors = [] ∨ strideOverflows layout.pageStride pages then none
    else
      match takeExtent a.freeExtents (layout.pageStride * pages) with
      | none => none
      | some (offset, extents) =>
        match a.takeDescriptor with
        | none => none
        | some (index, a) =>
          let generation := (a.descriptors.getD index {}).generation
          some (⟨some a.self, index, generation⟩, { a with
              freeExtents := extents
              descriptors := a.descriptors.set index
                ⟨offset, layout.pageStride * pages, layoutIndex, pages, generation, true⟩
              occupiedBytes := a.occupiedBytes + layout.pageStride * pages
              revision := bumpRevision a.revision })

/-- `split`. A throw leaves the arena and the allocation unchanged. -/
def split (al : HostKVAllocation) (pageOffset : Nat) :
    Except Exn ((HostKVAllocation × HostKVAllocation) × HostKVArena) :=
  if a.validHandle al.handle = false then
    .error (.invalidArgument "Cannot split a stale Host KV allocation")
  else
    let original := a.descriptors.getD al.descriptor {}
    if pageOffset = 0 ∨ pageOffset ≥ original.pages then
      .error (.outOfRange "Host KV split must leave two non-empty allocations")
    else
      match a.takeDescriptor with
      | none => .error (.logicError "Host KV descriptor capacity invariant was violated")
      | some (rightIndex, a) =>
        let stride := (a.layouts.getD original.layout {}).pageStride
        let rightPages := original.pages - pageOffset
        let rightGeneration := (a.descriptors.getD rightIndex {}).generation
        let right : Descriptor := ⟨original.offset + pageOffset * stride, rightPages * stride,
          original.layout, rightPages, rightGeneration, true⟩
        let leftGeneration := incrementGeneration original.generation
        let left := { original with
          generation := leftGeneration, pages := pageOffset, bytes := pageOffset * stride }
        .ok ((⟨some a.self, al.descriptor, leftGeneration⟩, ⟨some a.self, rightIndex, rightGeneration⟩),
          { a with
            descriptors := (a.descriptors.set rightIndex right).set al.descriptor left
            revision := bumpRevision a.revision })

/-- `release_descriptor`; `none` is the `false` return, which changes nothing. -/
def releaseDescriptor (index generation : Nat) : Option HostKVArena :=
  match a.descriptors[index]? with
  | none => none
  | some d =>
    if d.active = false ∨ d.generation ≠ generation then none
    else some { a with
      occupiedBytes := a.occupiedBytes - d.bytes
      descriptors := a.descriptors.set index
        ⟨0, 0, d.layout, 0, incrementGeneration d.generation, false⟩
      freeDescriptors := index :: a.freeDescriptors
      freeExtents := insertSpan a.freeExtents ⟨d.offset, d.bytes⟩
      revision := bumpRevision a.revision }

/-- `HostKVAllocation::release` on an allocation of this arena; the allocation is left disarmed. An allocation that
    belongs elsewhere, or to no arena, does not reach this one. -/
def release (al : HostKVAllocation) : Option HostKVArena :=
  if al.owner = some a.self then a.releaseDescriptor al.descriptor al.generation else none

end

end HostKVArena
end VoidInfer.HostKV
