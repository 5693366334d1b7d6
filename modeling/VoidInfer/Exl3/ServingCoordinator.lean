import VoidInfer.Exl3.VeriCacheRequest
import VoidInfer.Lib.Throwing

/-
  `Exl3VeriCacheServingCoordinator`: admission, leases and publication of requests. Every call runs under the
  coordinator's mutex, so a call is one step; what it throws leaves the state reached so far.

  `replace_resident_locked` reads the entries and changes the resident set and the prefix
  cache, never the state below: it either returns or throws (`Outside.residency`). The same
  holds of allocations and of the scratch vectors a call borrows. The
  64-bit counters that the source increments without a check are natural numbers. High-water
  marks and residency statistics, which nothing reads back, are left out.
-/

namespace VoidInfer.Exl3
open MonadExcept (ofExcept)

open Throwing

structure Policy where
  logicalCapacity : Nat := 1
  physicalCapacity : Nat := 1
  maximumResidentPageBytes : Nat := 0
  physicalReserveBytes : Nat := 0
deriving DecidableEq

structure Ticket where
  requestId : Nat := 0
  generation : Nat := 0
deriving DecidableEq

structure Lease where
  ticket : Ticket := {}
  root : Option Nat := none
  acquisition : Nat := 0
deriving DecidableEq

/-- A `shared_ptr<const void>`: the address and the control block that owns it. -/
structure PhysicalOwner where
  address : Nat
  block : Nat
deriving DecidableEq

structure DeviceLogicalLease where
  ticket : Ticket := {}
  initialRoot : Option Nat := none
  physicalOwner : Option PhysicalOwner := none
  acquisition : Nat := 0
  frontier : Int := 0
deriving DecidableEq

structure DeviceLogicalPublication where
  lease : DeviceLogicalLease
  committedTokens : Nat
  sequence : Nat

structure Retirement where
  ticket : Ticket := {}
  acquisition : Nat := 0
  execution : Nat := 0
  finalUseGeneration : Nat := 0
  retirementGeneration : Nat := 0
deriving DecidableEq

def Retirement.valid (r : Retirement) : Prop :=
  r.ticket.requestId ≠ 0 ∧ r.ticket.generation ≠ 0 ∧ r.acquisition ≠ 0 ∧ r.execution ≠ 0 ∧
    r.finalUseGeneration ≠ 0 ∧ r.retirementGeneration ≠ 0

instance (r : Retirement) : Decidable r.valid := inferInstanceAs (Decidable (_ ∧ _))

structure Publication where
  lease : Lease
  token : Int
  sequence : Nat

structure WindowPublication where
  lease : Lease
  tokens : List Int
  sequence : Nat

structure Turnover where
  completed : Ticket
  admitted : Ticket

/-- `Entry`; its root is never null. -/
structure Entry where
  id : Nat
  generation : Nat
  active : Bool := false
  publications : Nat := 0
  root : Nat
  acquisition : Nat := 0
  deviceMode : Bool := false
  deviceOwner : Option PhysicalOwner := none
  deviceInitialFrontier : Int := 0
  deviceCapacity : Nat := 0
  deviceSuffix : List Int := []
deriving DecidableEq

/-- The coordinator. -/
structure ServingCoordinator where
  policy : Policy
  entries : List Entry := []
  queue : List Nat := []
  queueCapacity : Nat := 0
  modelIdentity : Option Nat := none
  nextRequestId : Nat := 1
  nextPublicationSequence : Nat := 1
  publications : Nat := 0
  cancellations : Nat := 0
  completions : Nat := 0
  active : Nat := 0
  closed : Bool := false
  closingStarted : Bool := false
  allocating : Bool := false
  startupRetirementFailed : Bool := false
deriving DecidableEq

/-- What a call meets outside the coordinator. -/
structure Outside where
  /-- The calling thread is inside the runtime allocation factory. -/
  runtimeFactory : Bool := false
  /-- What the call's allocations throw. -/
  storage : Option Exn := none
  /-- What borrowing the scratch vectors throws. -/
  scratch : Option Exn := none
  /-- What `replace_resident_locked` throws, or `resident_.close()`. -/
  residency : Option Exn := none

/-- Code under the coordinator's mutex. -/
abbrev CoordExec := EStateM Exn ServingCoordinator

/-- `if (bad) { throw e; }` in a call. -/
def refuseIf (bad : Prop) [Decidable bad] (e : Exn) : CoordExec Unit :=
  if bad then throw e else pure ()

/-- A step outside the coordinator that may throw. -/
def outcome (thrown : Option Exn) : CoordExec Unit :=
  match thrown with
  | some e => throw e
  | none => pure ()

namespace ServingCoordinator

variable (R : Requests)

/-- The constructor. -/
def make (policy : Policy) : Except Exn ServingCoordinator := do
  throwIf (policy.logicalCapacity = 0 ∨ policy.physicalCapacity = 0 ∨
      policy.physicalCapacity > policy.logicalCapacity ∨ policy.maximumResidentPageBytes = 0 ∨
      policy.physicalReserveBytes < 2 ^ 30)
    (.invalidArgument "serving coordinator policy extent")
  return { policy }

/-- `validate_root`; the address when it is not null. -/
def validateRoot (root : Option Nat) : Except Exn Nat :=
  match root with
  | none => .error (.invalidArgument "serving coordinator exact root missing")
  | some r => do
    throwIf ((R r).state.isNone = true) (.invalidArgument "serving coordinator exact root missing")
    let tokens ← (R r).tokenSuffix 0
    throwIf (tokens = [] ∨ (tokens.length : Int) ≠ (R r).position)
      (.invalidArgument "serving coordinator token/state extent")
    return r

def validateChild (parent : Nat) (child : Option Nat) (token : Int) : Except Exn Nat := do
  let c ← validateRoot R child
  throwIf (¬ (R c).isChildOf (R parent) ∨ (R c).modelIdentity ≠ (R parent).modelIdentity ∨
      (R c).position ≠ (R parent).position + 1)
    (.invalidArgument "serving coordinator publication lineage")
  let suffix ← (R c).tokenSuffix (R parent).position
  throwIf (suffix ≠ [token]) (.invalidArgument "serving coordinator publication token")
  return c

/-- `require_open`, once no other thread allocates. -/
def requireOpen (out : Outside) (closing : Bool) : CoordExec Unit := do
  let s ← get
  refuseIf (out.runtimeFactory = true) (.logicError "runtime allocation factory attempted coordinator mutation")
  refuseIf (s.closed = true) (.logicError "serving coordinator closed")
  refuseIf (closing = false ∧ s.closingStarted = true) (.logicError "serving coordinator close in progress")
  refuseIf (s.allocating = true) (.logicError "serving coordinator startup allocation in flight")
  refuseIf (closing = false ∧ s.startupRetirementFailed = true)
    (.logicError "serving coordinator sealed after failed startup retirement")

/-- `std::find_if` for the entry of an id, with its place. -/
def find (id : Nat) : List Entry → Option (Nat × Entry)
  | [] => none
  | e :: rest => if e.id = id then some (0, e) else (find id rest).map fun p => (p.1 + 1, p.2)

def findLocked (id : Nat) : CoordExec (Nat × Entry) := do
  let s ← get
  match find id s.entries with
  | some found => pure found
  | none => throw (.invalidArgument "serving coordinator request missing")

def requireLeaseLocked (lease : Lease) : CoordExec (Nat × Entry) := do
  let (i, entry) ← findLocked lease.ticket.requestId
  refuseIf (entry.deviceMode = true ∨ entry.active = false ∨
      entry.generation ≠ lease.ticket.generation ∨ some entry.root ≠ lease.root ∨
      entry.acquisition ≠ lease.acquisition)
    (.invalidArgument "serving coordinator stale lease")
  return (i, entry)

def requireDeviceLogicalLeaseLocked (lease : DeviceLogicalLease) : CoordExec (Nat × Entry) := do
  let (i, entry) ← findLocked lease.ticket.requestId
  refuseIf (entry.deviceMode = false ∨ entry.active = false ∨
      entry.generation ≠ lease.ticket.generation ∨ entry.acquisition ≠ lease.acquisition ∨
      some entry.root ≠ lease.initialRoot ∨ lease.physicalOwner = none ∨
      entry.deviceOwner = none ∨ lease.physicalOwner ≠ entry.deviceOwner ∨
      lease.frontier ≠ entry.deviceInitialFrontier + entry.deviceSuffix.length)
    (.invalidArgument "serving coordinator stale device logical lease")
  return (i, entry)

def requireRetirement (lease : Lease) (retirement : Retirement) : Except Exn Unit :=
  throwIf (¬ retirement.valid ∨ retirement.ticket.requestId ≠ lease.ticket.requestId ∨
      retirement.ticket.generation ≠ lease.ticket.generation ∨
      retirement.acquisition ≠ lease.acquisition)
    (.invalidArgument "serving coordinator stale/missing physical retirement")

/-! ## Admission -/

/-- `queue().reserve(extent)`. -/
def reserveQueue (s : ServingCoordinator) (extent : Nat) : ServingCoordinator :=
  { s with queueCapacity := max s.queueCapacity extent }

/-- The commit of one admission. -/
def admitEntry (s : ServingCoordinator) (root : Nat) : ServingCoordinator :=
  { s with
    entries := s.entries ++ [{ id := s.nextRequestId, generation := 1, root }]
    queue := s.queue ++ [s.nextRequestId]
    nextRequestId := s.nextRequestId + 1
    modelIdentity := if s.modelIdentity.isSome then s.modelIdentity else some (R root).modelIdentity }

/-- `admit`. -/
def admitOne (out : Outside) (root : Option Nat) : CoordExec Ticket := do
  let root ← ofExcept (validateRoot R root)
  requireOpen out false
  let s ← get
  refuseIf (s.entries.length ≥ s.policy.logicalCapacity)
    (.runtimeError "serving coordinator logical capacity exhausted")
  let identity := (R root).modelIdentity
  refuseIf (s.modelIdentity.isSome = true ∧ s.modelIdentity ≠ some identity)
    (.invalidArgument "serving coordinator model identity mismatch")
  let id := s.nextRequestId
  outcome out.storage
  modify fun s => s.reserveQueue (s.entries.length + 1)
  outcome out.residency
  modify fun s => s.admitEntry R root
  return { requestId := id, generation := 1 }

/-- `admit_batch_into`; `outputs` is the extent of the ticket span. -/
def admitBatchInto (out : Outside) (roots : List (Option Nat)) (outputs : Nat) : CoordExec (List Ticket) := do
  refuseIf (roots = []) (.invalidArgument "serving coordinator empty admission batch")
  refuseIf (roots.length ≠ outputs) (.invalidArgument "serving coordinator admission output extent")
  let roots ← ofExcept (roots.mapM (validateRoot R))
  requireOpen out false
  let s ← get
  refuseIf (roots.length > s.policy.logicalCapacity - s.entries.length)
    (.runtimeError "serving coordinator logical capacity exhausted")
  let identity := (R (roots.headD 0)).modelIdentity
  refuseIf (s.modelIdentity.isSome = true ∧ s.modelIdentity ≠ some identity)
    (.invalidArgument "serving coordinator model identity mismatch")
  refuseIf (∃ root ∈ roots, (R root).modelIdentity ≠ identity)
    (.invalidArgument "serving coordinator batch identity mismatch")
  outcome out.storage
  modify fun s => s.reserveQueue (s.entries.length + roots.length)
  outcome out.scratch
  outcome out.residency
  modify fun s => roots.foldl (admitEntry R) s
  return (List.range roots.length).map fun index =>
    { requestId := s.nextRequestId + index, generation := 1 }

/-! ## Leases -/

/-- The commit of `acquire`. -/
def acquireEntry (s : ServingCoordinator) (i : Nat) (entry : Entry) (rest : List Nat) :
    ServingCoordinator :=
  { s with
    queue := rest
    entries := s.entries.set i { entry with acquisition := entry.acquisition + 1, active := true }
    active := s.active + 1 }

def acquire (out : Outside) : CoordExec (Option Lease) := do
  requireOpen out false
  let s ← get
  if s.active ≥ s.policy.physicalCapacity then return none
  else
    match s.queue with
    | [] => return none
    | id :: rest => do
      let (i, entry) ← findLocked id
      refuseIf (entry.active = true) (.logicError "serving coordinator queued active entry")
      refuseIf (entry.acquisition = uint64Max) (.overflowError "serving coordinator acquisition exhausted")
      modify fun s => s.acquireEntry i entry rest
      return some { ticket := ⟨entry.id, entry.generation⟩, root := some entry.root
                    acquisition := entry.acquisition + 1 }

/-- The commit of `yield`. -/
def yieldEntry (s : ServingCoordinator) (i : Nat) (entry : Entry) : ServingCoordinator :=
  { s with
    queue := s.queue ++ [entry.id]
    entries := s.entries.set i { entry with active := false }
    active := s.active - 1 }

def yield (out : Outside) (lease : Lease) : CoordExec Unit := do
  requireOpen out false
  let (i, entry) ← requireLeaseLocked lease
  let s ← get
  refuseIf (s.queue.length = s.queueCapacity) (.logicError "serving coordinator yield exceeds reserved queue")
  modify fun s => s.yieldEntry i entry

/-! ## Device mode -/

/-- The commit of `enter_device_logical`. -/
def enterEntry (s : ServingCoordinator) (i : Nat) (entry : Entry) (owner : Option PhysicalOwner)
    (frontier : Int) (capacity : Nat) : ServingCoordinator :=
  { s with
    entries := s.entries.set i { entry with
      deviceSuffix := [], deviceOwner := owner, deviceInitialFrontier := frontier
      deviceCapacity := capacity, deviceMode := true, generation := entry.generation + 1 } }

def enterDeviceLogical (out : Outside) (lease : Lease) (physicalOwner : Option PhysicalOwner)
    (initialFrontier : Int) (outputTokenCapacity : Nat) (maxContext : Int) :
    CoordExec DeviceLogicalLease := do
  requireOpen out false
  let (i, entry) ← requireLeaseLocked lease
  refuseIf (physicalOwner = none ∨ maxContext ≤ 0 ∨ (R entry.root).nativeExtentValid maxContext = false ∨
      initialFrontier ≠ (R entry.root).position ∨ initialFrontier < 0 ∨
      initialFrontier > maxContext ∨ outputTokenCapacity = 0 ∨
      (outputTokenCapacity : Int) > maxContext - initialFrontier)
    (.invalidArgument "serving coordinator device logical entry extent/owner")
  refuseIf (entry.generation = uint64Max) (.overflowError "serving coordinator device logical generation exhausted")
  outcome out.storage
  modify fun s => s.enterEntry i entry physicalOwner initialFrontier outputTokenCapacity
  return { ticket := ⟨entry.id, entry.generation + 1⟩, initialRoot := some entry.root
           physicalOwner, acquisition := entry.acquisition, frontier := initialFrontier }

/-- The counters that the device path checks before it increments them. -/
def deviceCountersExhausted (s : ServingCoordinator) (entry : Entry) : Prop :=
  entry.generation = uint64Max ∨ entry.publications = uint64Max ∨ s.publications = uint64Max ∨
    s.nextPublicationSequence = uint64Max

instance (s : ServingCoordinator) (entry : Entry) : Decidable (s.deviceCountersExhausted entry) :=
  inferInstanceAs (Decidable (_ ∨ _))

/-- The commit of `publish_device_logical_window`. -/
def publishDeviceEntry (s : ServingCoordinator) (i : Nat) (entry : Entry) (tokens : List Int) :
    ServingCoordinator :=
  { s with
    entries := s.entries.set i { entry with
      deviceSuffix := entry.deviceSuffix ++ tokens, generation := entry.generation + 1
      publications := entry.publications + 1 }
    publications := s.publications + 1
    nextPublicationSequence := s.nextPublicationSequence + 1 }

def publishDeviceLogicalWindow (out : Outside) (lease : DeviceLogicalLease) (tokens : List Int) :
    CoordExec DeviceLogicalPublication := do
  requireOpen out false
  let (i, entry) ← requireDeviceLogicalLeaseLocked lease
  refuseIf (tokens = [] ∨ tokens.length > 128 ∨
      tokens.length > entry.deviceCapacity - entry.deviceSuffix.length ∨
      ∃ token ∈ tokens, token < 0)
    (.invalidArgument "serving coordinator device logical window tokens/extent")
  let s ← get
  refuseIf (s.deviceCountersExhausted entry)
    (.overflowError "serving coordinator device logical publication exhausted")
  modify fun s => s.publishDeviceEntry i entry tokens
  return {
    lease := { ticket := ⟨entry.id, entry.generation + 1⟩, initialRoot := some entry.root
               physicalOwner := entry.deviceOwner, acquisition := entry.acquisition
               frontier := lease.frontier + tokens.length }
    committedTokens := entry.deviceSuffix.length + tokens.length
    sequence := s.nextPublicationSequence }

/-- The commit of `materialize_device_logical`. -/
def materializeEntry (s : ServingCoordinator) (i : Nat) (entry : Entry) (child : Nat) :
    ServingCoordinator :=
  { s with
    entries := s.entries.set i { entry with
      root := child, deviceOwner := none, deviceSuffix := [], deviceInitialFrontier := 0
      deviceCapacity := 0, deviceMode := false, generation := entry.generation + 1
      publications := entry.publications + 1 }
    publications := s.publications + 1
    nextPublicationSequence := s.nextPublicationSequence + 1 }

def materializeDeviceLogical (out : Outside) (lease : DeviceLogicalLease) (child : Option Nat) : CoordExec Lease := do
  let child ← ofExcept (validateRoot R child)
  requireOpen out false
  let (i, entry) ← requireDeviceLogicalLeaseLocked lease
  let s ← get
  refuseIf (s.deviceCountersExhausted entry)
    (.overflowError "serving coordinator device logical materialization exhausted")
  refuseIf (entry.deviceSuffix = [] ∨ ¬ (R child).isChildOf (R entry.root) ∨
      (R child).modelIdentity ≠ (R entry.root).modelIdentity ∨
      (R child).position ≠ lease.frontier)
    (.invalidArgument "serving coordinator device logical child lineage/tokens")
  let suffix ← ofExcept ((R child).tokenSuffix entry.deviceInitialFrontier)
  refuseIf (suffix ≠ entry.deviceSuffix) (.invalidArgument "serving coordinator device logical child lineage/tokens")
  outcome out.residency
  modify fun s => s.materializeEntry i entry child
  return { ticket := ⟨entry.id, entry.generation + 1⟩, root := some child
           acquisition := entry.acquisition }

/-! ## Publication -/

/-- The commit of one child: the new root and what counts it. -/
def publishEntry (s : ServingCoordinator) (i : Nat) (entry : Entry) (root : Nat) :
    ServingCoordinator :=
  { s with
    entries := s.entries.set i { entry with
      root, generation := entry.generation + 1, publications := entry.publications + 1 }
    publications := s.publications + 1
    nextPublicationSequence := s.nextPublicationSequence + 1 }

/-- A lease that `publish_batch_into` has checked: its entry and the child to publish. -/
structure Selected where
  index : Nat
  entry : Entry
  root : Nat
  token : Int

/-- The checking loop of `publish_batch_into`. -/
def selectLeases : List (Lease × Option Nat × Int) → List Selected → CoordExec (List Selected)
  | [], selected => return selected
  | (lease, root, token) :: rest, selected => do
    let (i, entry) ← requireLeaseLocked lease
    refuseIf (∃ x ∈ selected, x.index = i) (.invalidArgument "serving coordinator duplicate publication lease")
    let root ← ofExcept (validateChild R entry.root root token)
    selectLeases rest (selected ++ [⟨i, entry, root, token⟩])

/-- The committing loop of `publish_batch_into`. -/
def commitSelected : List Selected → CoordExec (List Publication)
  | [] => return []
  | x :: rest => do
    let s ← get
    modify fun s => s.publishEntry x.index x.entry x.root
    let output ← commitSelected rest
    return { lease := { ticket := ⟨x.entry.id, x.entry.generation + 1⟩, root := some x.root
                        acquisition := x.entry.acquisition }
             token := x.token, sequence := s.nextPublicationSequence } :: output

/-- `publish_batch_into`; `outputs` is the extent of the output span. -/
def publishBatchInto (out : Outside) (leases : List Lease) (roots : List (Option Nat))
    (tokens : List Int) (outputs : Nat) : CoordExec (List Publication) := do
  refuseIf (leases = [] ∨ leases.length ≠ roots.length ∨ leases.length ≠ tokens.length ∨
      leases.length ≠ outputs) (.invalidArgument "serving coordinator publication extent")
  requireOpen out false
  let s ← get
  refuseIf (leases.length > s.policy.physicalCapacity)
    (.invalidArgument "serving coordinator publication exceeds physical capacity")
  outcome out.scratch
  let selected ← selectLeases R (leases.zip (roots.zip tokens)) []
  outcome out.residency
  commitSelected selected

def publish (out : Outside) (lease : Lease) (root : Option Nat) (token : Int) : CoordExec (List Publication) :=
  publishBatchInto R out [lease] [root] [token] 1

def publishWindow (out : Outside) (lease : Lease) (root : Option Nat) (tokens : List Int) :
    CoordExec WindowPublication := do
  let root ← ofExcept (validateRoot R root)
  refuseIf (tokens = [] ∨ tokens.length > 128) (.invalidArgument "serving coordinator window extent")
  requireOpen out false
  let (i, entry) ← requireLeaseLocked lease
  refuseIf (¬ (R root).isChildOf (R entry.root) ∨ (R root).modelIdentity ≠ (R entry.root).modelIdentity ∨
      (R root).position ≠ (R entry.root).position + tokens.length)
    (.invalidArgument "serving coordinator window lineage/tokens")
  let suffix ← ofExcept ((R root).tokenSuffix (R entry.root).position)
  refuseIf (suffix ≠ tokens) (.invalidArgument "serving coordinator window lineage/tokens")
  outcome out.storage
  outcome out.residency
  let s ← get
  modify fun s => s.publishEntry i entry root
  return { lease := { ticket := ⟨entry.id, entry.generation + 1⟩, root := some root
                      acquisition := entry.acquisition }
           tokens, sequence := s.nextPublicationSequence }

/-! ## Removal -/

section
variable (s : ServingCoordinator)

/-- `if (entries().empty()) model_identity_.reset();` -/
def resetIdentity : ServingCoordinator :=
  { s with modelIdentity := if s.entries = [] then none else s.modelIdentity }

/-- The commit of `cancel_device_logical`. -/
def cancelDeviceEntry (i : Nat) : ServingCoordinator :=
  resetIdentity { s with
    active := s.active - 1, entries := s.entries.eraseIdx i, cancellations := s.cancellations + 1 }

/-- The commit of `cancel`. -/
def cancelEntry (i : Nat) (entry : Entry) : ServingCoordinator :=
  resetIdentity { s with
    queue := s.queue.filter (· ≠ entry.id)
    active := if entry.active then s.active - 1 else s.active
    entries := s.entries.eraseIdx i
    cancellations := s.cancellations + 1 }

/-- The commit of `complete`. -/
def completeEntry (i : Nat) : ServingCoordinator :=
  resetIdentity { s with
    active := s.active - 1, entries := s.entries.eraseIdx i, completions := s.completions + 1 }

/-- The commit of `complete_and_admit`: the new request takes the old one's place. -/
def turnOverEntry (i root : Nat) : ServingCoordinator :=
  { s with
    entries := s.entries.set i { id := s.nextRequestId, generation := 1, root }
    queue := s.queue ++ [s.nextRequestId]
    nextRequestId := s.nextRequestId + 1
    active := s.active - 1
    completions := s.completions + 1 }

/-- What `close` clears before it closes the resident set. -/
def clearEntries : ServingCoordinator :=
  { s with closingStarted := true, queue := [], entries := [], modelIdentity := none }

end

section
variable (out : Outside)

def cancelDeviceLogical (lease : DeviceLogicalLease) (workerComplete : Bool) : CoordExec Unit := do
  requireOpen out false
  let (i, _) ← requireDeviceLogicalLeaseLocked lease
  refuseIf (workerComplete = false)
    (.logicError "serving coordinator device logical cancellation needs worker boundary")
  outcome out.residency
  modify fun s => s.cancelDeviceEntry i

def cancel (ticket : Ticket) (workerComplete : Bool) : CoordExec Unit := do
  requireOpen out false
  let s ← get
  match find ticket.requestId s.entries with
  | none => throw (.invalidArgument "serving coordinator stale cancellation")
  | some (i, entry) => do
    refuseIf (entry.generation ≠ ticket.generation) (.invalidArgument "serving coordinator stale cancellation")
    refuseIf (entry.active = true ∧ workerComplete = false)
      (.logicError "serving coordinator active cancellation needs worker boundary")
    outcome out.residency
    modify fun s => s.cancelEntry i entry

section
variable (lease : Lease)

def complete : CoordExec Unit := do
  requireOpen out false
  let (i, _) ← requireLeaseLocked lease
  outcome out.residency
  modify fun s => s.completeEntry i

def completeRetired (retirement : Retirement) : CoordExec Unit := do
  ofExcept (requireRetirement lease retirement)
  complete out lease

def cancelRetired (retirement : Retirement) : CoordExec Unit := do
  ofExcept (requireRetirement lease retirement)
  cancel out lease.ticket true

def yieldRetired (retirement : Retirement) : CoordExec Unit := do
  ofExcept (requireRetirement lease retirement)
  yield out lease

def completeAndAdmit (root : Option Nat) : CoordExec Turnover := do
  let root ← ofExcept (validateRoot R root)
  requireOpen out false
  let (i, retired) ← requireLeaseLocked lease
  let s ← get
  refuseIf (some (R root).modelIdentity ≠ s.modelIdentity)
    (.invalidArgument "serving coordinator turnover identity mismatch")
  refuseIf (s.queue.length = s.queueCapacity) (.logicError "serving coordinator turnover exceeds reserved queue")
  outcome out.residency
  modify fun s => s.turnOverEntry i root
  return { completed := ⟨retired.id, retired.generation⟩
           admitted := ⟨s.nextRequestId, 1⟩ }

end

def close : CoordExec Unit := do
  let s ← get
  if s.closed then return ()
  else do
    requireOpen out true
    refuseIf (s.active ≠ 0) (.logicError "serving coordinator close with active lease")
    modify fun s => s.clearEntries
    outcome out.residency
    modify fun s => { s with closed := true }

end

end ServingCoordinator
end VoidInfer.Exl3
