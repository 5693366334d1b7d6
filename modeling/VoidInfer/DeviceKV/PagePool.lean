import VoidInfer.Base
import VoidInfer.Lib.SpanList
import VoidInfer.Lib.ListUpdate

/-
  The device page pool (`DeviceKVPagePool`, `src/core/paged_kv_cache.cpp`): physical pages handed out as leases with
  generations, a list of free runs, and reservations, which are credit for pages not yet chosen.

  A pool is identified by `self`, the address that `owner_` fields hold. Page indices are naturals: the `-1` of a
  disarmed lease is never read, since only `owner_` is tested first. Planes and the copy routines are left out; they do
  not touch the page tables.
-/

namespace VoidInfer.DeviceKV

open SpanList

structure DeviceKVPageHandle where
  owner : Option Nat := none
  index : Nat := 0
  generation : Nat := 0

/-- `DeviceKVPageLease`: the move-only owner of one page. -/
structure DeviceKVPageLease where
  owner : Option Nat := none
  index : Nat := 0
  generation : Nat := 0

def DeviceKVPageLease.handle (l : DeviceKVPageLease) : DeviceKVPageHandle :=
  if l.owner.isSome then ⟨l.owner, l.index, l.generation⟩ else {}

/-- `DeviceKVPageReservation`: move-only credit for pages. -/
structure DeviceKVPageReservation where
  owner : Option Nat := none
  pages : Nat := 0

/-- `DeviceKVPagePool::FreePageRun`: `start` is `begin`, `size` is `count`. -/
abbrev FreePageRun := Span

structure DeviceKVPagePool where
  self : Nat
  capacityPages : Nat
  freePageRuns : List FreePageRun
  pageGenerations : List Nat
  pageAllocated : List Bool
  allocatedPages : Nat := 0
  reservedPages : Nat := 0

namespace DeviceKVPagePool

/-- The page tables as the constructor leaves them; `checked_i32` bounds the page count. -/
def make (self pageGroupCount : Nat) : Except Exn DeviceKVPagePool := do
  throwIf (pageGroupCount = 0 ∨ pageGroupCount > int32Max)
    (.invalidArgument "Paged KV physical page count must fit positive int32")
  return { self, capacityPages := pageGroupCount, freePageRuns := [⟨0, pageGroupCount⟩],
           pageGenerations := List.replicate pageGroupCount 1,
           pageAllocated := List.replicate pageGroupCount false }

def availablePages (p : DeviceKVPagePool) : Nat :=
  p.capacityPages - p.allocatedPages - p.reservedPages

def validHandle (p : DeviceKVPagePool) (h : DeviceKVPageHandle) : Bool :=
  decide (h.owner = some p.self) && decide (h.index < p.capacityPages) &&
    p.pageAllocated.getD h.index false &&
    decide (p.pageGenerations.getD h.index 0 = h.generation)

def physicalIndex (p : DeviceKVPagePool) (h : DeviceKVPageHandle) : Except Exn Nat :=
  if p.validHandle h then .ok h.index
  else .error (.invalidArgument "Paged KV page handle is stale")

/-! ## Reservations -/

section
variable (p : DeviceKVPagePool)

def reserve (pages : Nat) : Option (DeviceKVPageReservation × DeviceKVPagePool) :=
  if pages = 0 ∨ pages > p.availablePages then none
  else some (⟨some p.self, pages⟩, { p with reservedPages := p.reservedPages + pages })

def makeEmptyReservation : DeviceKVPageReservation := ⟨some p.self, 0⟩

def canResizeReservation (r : DeviceKVPageReservation) (newReservedPages : Nat) : Bool :=
  if r.owner ≠ some p.self ∨ r.pages > p.reservedPages then false
  else decide (p.allocatedPages + (p.reservedPages - r.pages) + newReservedPages ≤ p.capacityPages)

def resizeReservation (r : DeviceKVPageReservation)
    (newReservedPages : Nat) : Except Exn (DeviceKVPageReservation × DeviceKVPagePool) :=
  if p.canResizeReservation r newReservedPages then
    .ok ({ r with pages := newReservedPages },
      { p with reservedPages := p.reservedPages - r.pages + newReservedPages })
  else .error .badAlloc

def releaseReservation (pages : Nat) : Except Exn DeviceKVPagePool :=
  if pages > p.reservedPages then .error .terminate
  else .ok { p with reservedPages := p.reservedPages - pages }

end

/-! ## Free runs -/

section
variable (runs : List FreePageRun)

/-- The run that holds `preferred` and has room for `count` pages from there, as
    `std::upper_bound` finds it, with the page to begin at. -/
def preferredRun (preferred count : Nat) : Option (Nat × Nat) :=
  let before := runs.takeWhile fun run => decide (run.start ≤ preferred)
  match before.getLast? with
  | none => none
  | some run =>
    if preferred ≥ run.start ∧ preferred + count ≤ run.start + run.size then
      some (before.length - 1, preferred)
    else none

/-- The first run with room for `count` pages. -/
def contiguousRun (count : Nat) : Option (Nat × Nat) :=
  match runs.findIdx? (fun run => decide (run.size ≥ count)) with
  | none => none
  | some i => some (i, (runs.getD i ⟨0, 0⟩).start)

def consumeFreeRun (i first count : Nat) : Except Exn (List FreePageRun) :=
  match runs[i]? with
  | none => .error .terminate
  | some run =>
    if count = 0 ∨ first < run.start ∨ first + count > run.start + run.size then .error .terminate
    else if first = run.start ∧ first + count = run.start + run.size then .ok (runs.eraseIdx i)
    else if first = run.start then .ok (runs.set i ⟨run.start + count, run.size - count⟩)
    else if first + count = run.start + run.size then .ok (runs.set i ⟨run.start, first - run.start⟩)
    else .ok ((runs.set i ⟨run.start, first - run.start⟩).insertIdx (i + 1)
      ⟨first + count, run.start + run.size - (first + count)⟩)

end

/-- The fallback of `materialize`: pages from the front runs, and the runs left. The empty
    list is never reached with pages still to take. -/
def takeFromRuns : List FreePageRun → Nat → List Nat × List FreePageRun
  | [], _ => ([], [])
  | run :: rest, remaining =>
    if remaining = 0 then ([], run :: rest)
    else
      let take := min remaining run.size
      if take = run.size then
        let (pages, runs) := takeFromRuns rest (remaining - take)
        (List.range' run.start take ++ pages, runs)
      else (List.range' run.start take, ⟨run.start + take, run.size - take⟩ :: rest)

def releaseFreePage (runs : List FreePageRun) (index : Nat) : List FreePageRun :=
  let before := runs.takeWhile fun run => decide (run.start < index)
  let after := runs.dropWhile fun run => decide (run.start < index)
  match before.getLast?, after with
  | some left, next :: rest =>
    if left.start + left.size = index then
      if index + 1 = next.start then
        before.dropLast ++ ⟨left.start, left.size + (1 + next.size)⟩ :: rest
      else before.dropLast ++ ⟨left.start, left.size + 1⟩ :: next :: rest
    else if index + 1 = next.start then before ++ ⟨index, next.size + 1⟩ :: rest
    else before ++ ⟨index, 1⟩ :: next :: rest
  | some left, [] =>
    if left.start + left.size = index then before.dropLast ++ [⟨left.start, left.size + 1⟩]
    else before ++ [⟨index, 1⟩]
  | none, next :: rest =>
    if index + 1 = next.start then ⟨index, next.size + 1⟩ :: rest else ⟨index, 1⟩ :: next :: rest
  | none, [] => [⟨index, 1⟩]

/-! ## Leases -/

section
variable (p : DeviceKVPagePool)

def releasePage (index generation : Nat) : DeviceKVPagePool :=
  if index ≥ p.capacityPages then p
  else if p.pageAllocated.getD index false = false ∨ p.pageGenerations.getD index 0 ≠ generation
    then p
  else { p with
    pageAllocated := p.pageAllocated.set index false
    pageGenerations := p.pageGenerations.set index
      (incrementGeneration (p.pageGenerations.getD index 0))
    freePageRuns := releaseFreePage p.freePageRuns index
    allocatedPages := p.allocatedPages - 1 }

/-- `DeviceKVPageLease::release` on a lease whose `owner_` is this pool: the pool and the
    result. The lease is left disarmed. -/
def releaseLease (l : DeviceKVPageLease) : Bool × DeviceKVPagePool :=
  if p.validHandle ⟨l.owner, l.index, l.generation⟩ then (true, p.releasePage l.index l.generation)
  else (false, p)

/-- The check that every lease of a vector belongs to the pool and is current. -/
def leasesCurrent (leases : List DeviceKVPageLease) : Bool :=
  leases.all fun l => decide (l.owner = some p.self) && p.validHandle l.handle

/-- `append_page` for each page: the leases pushed and the pages marked. -/
def appendPages (pages : List Nat) : List DeviceKVPageLease × List Bool :=
  (pages.map fun page => ⟨some p.self, page, p.pageGenerations.getD page 0⟩,
    pages.foldl (fun marks page => marks.set page true) p.pageAllocated)

/-- The page after the predecessor, or after the last lease of the destination. -/
def preferredPage (preferredPredecessor : Option DeviceKVPageHandle)
    (destination : List DeviceKVPageLease) : Except Exn (Option Nat) :=
  match preferredPredecessor with
  | some h => do
    let index ← p.physicalIndex h
    return some (index + 1)
  | none => .ok (destination.getLast?.map fun l => l.index + 1)

end

/-- The choice of pages in `materialize`, and the runs left. -/
def choosePages (runs : List FreePageRun) (preferred : Option Nat) (count : Nat) :
    Except Exn (List Nat × List FreePageRun) :=
  match (preferred.bind fun page => preferredRun runs page count).or (contiguousRun runs count) with
  | some (i, first) => do
    let runs ← consumeFreeRun runs i first count
    return (List.range' first count, runs)
  | none => .ok (takeFromRuns runs count)

section
variable (p : DeviceKVPagePool)

/-- `materialize`; `capacity` is `destination.capacity()`. -/
def materialize (r : DeviceKVPageReservation) (targetPageCount : Nat)
    (destination : List DeviceKVPageLease) (capacity : Nat)
    (preferredPredecessor : Option DeviceKVPageHandle) :
    Except Exn (DeviceKVPagePool × DeviceKVPageReservation × List DeviceKVPageLease) := do
  throwIf (r.owner ≠ some p.self ∨ targetPageCount < destination.length)
    (.invalidArgument "Paged KV materialization has an invalid owner or extent")
  let count := targetPageCount - destination.length
  throwIf (count > r.pages ∨ targetPageCount > capacity)
    (.invalidArgument "Paged KV materialization exceeds reserved capacity")
  throwIf (p.leasesCurrent destination = false) (.invalidArgument "Paged KV materialization destination is stale")
  if count = 0 then return (p, r, destination)
  else
    throwIf (count > p.capacityPages - p.allocatedPages) (.logicError "Paged KV reservation invariant was violated")
    let preferred ← p.preferredPage preferredPredecessor destination
    let (pages, runs) ← choosePages p.freePageRuns preferred count
    let (leases, marks) := p.appendPages pages
    return ({ p with
        freePageRuns := runs
        pageAllocated := marks
        allocatedPages := p.allocatedPages + count
        reservedPages := p.reservedPages - count },
      { r with pages := r.pages - count }, destination ++ leases)

def materializeOne (r : DeviceKVPageReservation) :
    Except Exn (DeviceKVPagePool × DeviceKVPageReservation × DeviceKVPageLease) := do
  throwIf (r.owner ≠ some p.self ∨ r.pages = 0)
    (.invalidArgument "Paged KV single-page materialization exceeds reservation")
  match p.freePageRuns with
  | [] => throw (.logicError "Paged KV reservation invariant was violated")
  | run :: _ =>
    return ({ p with
        freePageRuns := carveFront p.freePageRuns 0 1
        pageAllocated := p.pageAllocated.set run.start true
        allocatedPages := p.allocatedPages + 1
        reservedPages := p.reservedPages - 1 },
      { r with pages := r.pages - 1 }, ⟨some p.self, run.start, p.pageGenerations.getD run.start 0⟩)

/-- The destructors of the leases dropped by `source.resize`, from the first on. -/
def releaseLeases (leases : List DeviceKVPageLease) : DeviceKVPagePool :=
  leases.foldl (fun p l => (p.releaseLease l).2) p

def dematerialize (r : DeviceKVPageReservation) (targetPageCount : Nat) (source : List DeviceKVPageLease) :
    Except Exn (DeviceKVPagePool × DeviceKVPageReservation × List DeviceKVPageLease) := do
  throwIf (r.owner ≠ some p.self ∨ targetPageCount > source.length)
    (.invalidArgument "Paged KV dematerialization has an invalid owner or extent")
  throwIf (p.leasesCurrent source = false) (.invalidArgument "Paged KV dematerialization source is stale")
  let released := source.length - targetPageCount
  if released = 0 then return (p, r, source)
  else
    throwIf (released > uint32Max - r.pages) (.overflowError "Paged KV reservation size overflow")
    let p := p.releaseLeases (source.drop targetPageCount)
    return ({ p with reservedPages := p.reservedPages + released },
      { r with pages := r.pages + released }, source.take targetPageCount)

def dematerializeOne (r : DeviceKVPageReservation)
    (page : DeviceKVPageLease) : Except Exn (DeviceKVPagePool × DeviceKVPageReservation) := do
  throwIf (r.owner ≠ some p.self ∨ page.owner ≠ some p.self ∨ p.validHandle page.handle = false ∨
      r.pages = uint32Max)
    (.invalidArgument "Paged KV single-page dematerialization is invalid")
  match p.releaseLease page with
  | (false, _) => throw (.logicError "Paged KV single-page dematerialization lost its lease")
  | (true, p) =>
    return ({ p with reservedPages := p.reservedPages + 1 }, { r with pages := r.pages + 1 })

end

end DeviceKVPagePool
end VoidInfer.DeviceKV
