import VoidInfer.Exl3.ResidentRanges
import VoidInfer.Lib.Throwing

/-
  `Exl3HostResidentSet`: one registry per process owns the page locks on host payloads and the process working-set
  quota.

  The operating system is a set of locked pages and a quota. Every call into it is answered by the next entry of
  `replies`, which any run may choose freely: a refused `VirtualLock` may have locked any part of its range, a refused
  `VirtualUnlock` may have unlocked any part. The same entries say whether the registry's byte accounting
  (`Exl3ResourceInventory` limits, descriptor ledgers, allocation of scratch) refuses at the points where the source
  consults it, all of them before a page is locked.
-/

namespace VoidInfer.Exl3
open MonadExcept (ofExcept)

open Throwing

def chunkBytes : Nat := 16 * 2 ^ 20

def quotaSlack : Nat := 64 * 2 ^ 20

def quotaGrowth : Nat := 256 * 2 ^ 20

/-- `QUOTA_LIMITS_HARDWS_MIN_DISABLE | QUOTA_LIMITS_HARDWS_MAX_DISABLE`. -/
def quotaFlags : Nat := 2 ||| 8

/-! ## Inventories and snapshots -/

inductive Domain where
  | device
  | cudaRegisteredHost
  | hostMetadata
  | graphCount
  | eventCount
deriving DecidableEq

/-- `Exl3ResourceInventory::Allocation`; owners and callbacks are identities. -/
structure Allocation where
  owner : Option Nat := none
  slot : Nat := 0
  domain : Domain := .device
  units : Nat := 0
  lifetimeRetire : Option Nat := none
  deviceLifetimeRetire : Option Nat := none
  registrationLifetimeRetire : Option Nat := none
  retiredOwner : Option Nat := none
  retiredSlot : Nat := 0

namespace Allocation

def validate (a : Allocation) : Except Exn Unit := do
  throwIf (a.owner = none) (.invalidArgument "resource allocation declaration missing owner")
  throwIf (a.units = 0) (.invalidArgument "resource allocation declaration zero extent")
  throwIf (a.lifetimeRetire ≠ none ∧ a.domain ≠ .hostMetadata)
    (.invalidArgument "resource allocation declaration metadata retire domain")
  throwIf (a.deviceLifetimeRetire ≠ none ∧ a.domain ≠ .device)
    (.invalidArgument "resource allocation declaration device retire domain")
  throwIf (a.registrationLifetimeRetire ≠ none ∧ a.domain ≠ .cudaRegisteredHost)
    (.invalidArgument "resource allocation declaration registration retire domain")

def requireSame (prior value : Allocation) : Except Exn Unit :=
  throwIf (prior.domain ≠ value.domain ∨ prior.units ≠ value.units ∨
      prior.lifetimeRetire ≠ value.lifetimeRetire ∨
      prior.deviceLifetimeRetire ≠ value.deviceLifetimeRetire ∨
      prior.registrationLifetimeRetire ≠ value.registrationLifetimeRetire ∨
      prior.retiredSlot ≠ value.retiredSlot ∨ prior.retiredOwner ≠ value.retiredOwner)
    (.invalidArgument "resource owner slot changed extent/domain")

end Allocation

/-- `allocations_`. -/
abbrev Inventory := List Allocation

namespace Inventory

def add (inventory : Inventory) (value : Allocation) : Except Exn Inventory := do
  value.validate
  match inventory.find? fun prior => prior.owner = value.owner ∧ prior.slot = value.slot with
  | some prior => do
    prior.requireSame value
    return inventory
  | none => return inventory ++ [value]

def append (inventory other : Inventory) : Except Exn Inventory := other.foldlM add inventory

def firstLifetimeRetirement (inventory : Inventory) : Option Allocation :=
  inventory.find? fun a => a.lifetimeRetire.isSome || a.deviceLifetimeRetire.isSome ||
    a.registrationLifetimeRetire.isSome

def withoutAllocation (inventory : Inventory) (expected : Allocation) : Except Exn Inventory := do
  throwIf (expected.owner = none ∨ expected.units = 0) (.invalidArgument "resource retirement declaration")
  throwIf (∃ a ∈ inventory, (a.owner = expected.owner ∧ a.slot = expected.slot) ∧
      (a.domain ≠ expected.domain ∨ a.units ≠ expected.units ∨ a.lifetimeRetire ≠ expected.lifetimeRetire ∨
        a.deviceLifetimeRetire ≠ expected.deviceLifetimeRetire ∨
        a.registrationLifetimeRetire ≠ expected.registrationLifetimeRetire))
    (.invalidArgument "resource retirement extent/domain mismatch")
  throwIf (¬ ∃ a ∈ inventory, a.owner = expected.owner ∧ a.slot = expected.slot)
    (.invalidArgument "resource retirement allocation missing")
  return inventory.filter fun a => ¬ (a.owner = expected.owner ∧ a.slot = expected.slot)

end Inventory

/-- `Snapshot::DescriptorBacking`; `object` is its own identity as an owner. -/
structure DescriptorBacking where
  object : Nat := 0
  owners : List (Option Nat) := []
  regions : List ResidentRange := []

structure Snapshot where
  resources : Inventory := []
  owners : List (Option Nat) := []
  ownersCapacity : Nat := 0
  regions : List ResidentRange := []
  regionsCapacity : Nat := 0
  fixedRegions : Bool := false
  descriptorBacking : Option DescriptorBacking := none

def Snapshot.payloadOwners (s : Snapshot) : List (Option Nat) :=
  match s.descriptorBacking with
  | some backing => backing.owners
  | none => s.owners

/-- The configuration of `Snapshot::descriptor_requirement`. -/
def descriptorConfiguration : Nat := 0x534e415044455343

/-- `sizeof(std::shared_ptr<const void>)` and `sizeof(Range)`. -/
def descriptorBytes : Nat := 16

/-- The metadata units of `Snapshot::descriptor_requirement`; `backingBytes` is
    `bounded_shared_allocation_bytes<DescriptorBacking>()`. -/
def descriptorRequirement (backingBytes ownerCapacity rangeCapacity : Nat) : Nat :=
  backingBytes + ownerCapacity * descriptorBytes + rangeCapacity * descriptorBytes

/-! ## The operating system -/

/-- A working-set quota: minimum, maximum and flags. -/
structure Quota where
  min : Nat := 0
  max : Nat := 0
  flags : Nat := 0
deriving DecidableEq

/-- The answer to one call. -/
structure Reply where
  ok : Bool := true
  /-- Of a refused lock or unlock, the pages it changed all the same; of a query, the pages
      in the working set beside the locked ones. -/
  part : Nat → Bool := fun _ => false
  /-- `GetLastError` after a refused call. -/
  code : Nat := 0
  /-- `exl3_available_host_bytes`. -/
  available : Option Nat := some (2 ^ 40)
  /-- What the accounting throws. -/
  refuse : Option Exn := none
  /-- The identity of an object just made. -/
  object : Nat := 0

/-- The operating system, as the registry's process sees it. -/
structure OS where
  /-- `dwPageSize`. -/
  page : Nat
  /-- The pages that hold a lock of the registry's. -/
  locked : Nat → Bool := fun _ => false
  /-- The pages that somebody else locked. -/
  foreign : Nat → Bool := fun _ => false
  quota : Quota := {}
  lastError : Nat := 0
  /-- The answers to the calls to come; past the end every call succeeds. -/
  replies : List Reply := []

/-- Page number `p` has an address in `r`. -/
def touches (page : Nat) (r : ResidentRange) (p : Nat) : Bool :=
  decide (r.1 < (p + 1) * page ∧ p * page < r.2)

/-! ## The registry -/

structure Transition where
  authority : Option Nat := none
  identity : Nat := 0
  revision : Nat := 0
  next : Snapshot := {}
  desired : List ResidentRange := []
  added : List ResidentRange := []
  removed : List ResidentRange := []
  consumed : Bool := false

/-- `Exl3HostResidentSet`; `address` is `this`. -/
structure Exl3HostResidentSet where
  address : Nat := 0
  authorityIdentity : Nat := 0
  budget : Nat
  reserve : Nat
  backingBytes : Nat := 0
  originalQuota : Quota := {}
  currentQuota : Quota := {}
  closed : Bool := false
  healthy : Bool := true
  externalRetirementFailed : Bool := false
  held : Snapshot := {}
  pages : List ResidentRange := []
  revision : Nat := 0
  transitioning : Bool := false
  reserving : Bool := false
  rollbackFaultForTest : Bool := false

/-- The guard with which every operation starts. -/
def Exl3HostResidentSet.unavailable (r : Exl3HostResidentSet) : Bool :=
  r.closed || !r.healthy || r.externalRetirementFailed || r.transitioning || r.reserving

/-- The registry on its machine, with the transitions assessed so far. `completed` (last
    first) and `attempted` are the locals of `commit` that its handler reads. -/
structure Machine where
  os : OS
  reg : Exl3HostResidentSet
  plans : List Transition := []
  completed : List ResidentRange := []
  attempted : Option ResidentRange := none

/-- Code of the registry: it may throw, and what it did stays done. -/
abbrev Exec := EStateM Exn Machine

/-- `if (bad) throw e;`. -/
def check (bad : Prop) [Decidable bad] (e : Exn) : Exec Unit := ofExcept (throwIf bad e)

/-- Code of others runs, and may throw. -/
def callBack : Option Exn → Exec Unit
  | none => pure ()
  | some e => throw e

/-! ## Calls into the operating system -/

/-- The next answer. -/
def reply : Exec Reply := do
  let m ← get
  let answer := m.os.replies.headD {}
  modify fun m => { m with os.replies := m.os.replies.tail }
  if answer.ok then return answer
  else
    modify fun m => { m with os.lastError := answer.code }
    return answer

/-- `throw error(operation)`. -/
def osError {α : Type} (operation : String) : Exec α := do
  let m ← get
  throw (.runtimeError ("host residency " ++ operation ++ " error=" ++ toString m.os.lastError))

/-- The accounting is consulted. -/
def accounting : Exec Unit := do
  let answer ← reply
  callBack answer.refuse

/-- The locked pages after a `VirtualLock` with this answer. -/
def lockPages (os : OS) (r : ResidentRange) (answer : Reply) (p : Nat) : Bool :=
  os.locked p || (touches os.page r p && (answer.ok || answer.part p))

/-- The locked pages after a `VirtualUnlock` with this answer. -/
def unlockPages (os : OS) (r : ResidentRange) (answer : Reply) (p : Nat) : Bool :=
  os.locked p && !(touches os.page r p && (answer.ok || answer.part p))

def virtualLock (r : ResidentRange) : Exec Bool := do
  let answer ← reply
  modify fun m => { m with os.locked := lockPages m.os r answer }
  return answer.ok

def virtualUnlock (r : ResidentRange) : Exec Bool := do
  let answer ← reply
  modify fun m => { m with os.locked := unlockPages m.os r answer }
  return answer.ok

/-- One `PSAPI_WORKING_SET_EX_INFORMATION` as `query` passes it on. -/
structure Record where
  page : Nat
  valid : Bool
  locked : Bool

/-- `QueryWorkingSetEx`. A locked page is in the working set. -/
def queryWorkingSetEx (pages : List Nat) : Exec (Option (List Record)) := do
  let answer ← reply
  let m ← get
  if answer.ok then
    return some (pages.map fun p =>
      let locked := m.os.locked p || m.os.foreign p
      { page := p, valid := locked || answer.part p, locked })
  else return none

/-- The loop of `query` over batches of at most 4096 pages. -/
def queryBatches {β : Type} (callback : β → Record → Exec β) : Nat → List Nat → β → Exec β
  | 0, _, b => pure b
  | fuel + 1, pages, b =>
    if pages = [] then pure b
    else do
      match ← queryWorkingSetEx (pages.take 4096) with
      | none => osError "query"
      | some records => do
        let b ← records.foldlM callback b
        queryBatches callback fuel (pages.drop 4096) b

/-- The pages `query` asks for. -/
def pageNumbers (page : Nat) (r : ResidentRange) : List Nat :=
  List.range' (r.1 / page) ((r.2 - r.1) / page)

/-- `query`; `b` is what its callback has captured. -/
def query {β : Type} (r : ResidentRange) (callback : β → Record → Exec β) (b : β) : Exec β := do
  let m ← get
  let pages := pageNumbers m.os.page r
  queryBatches callback pages.length pages b

def checkReserve (missing : Nat) : Exec Unit := do
  let answer ← reply
  let m ← get
  match answer.available with
  | none => osError "available memory"
  | some available =>
    check (available < m.reg.reserve ∨ missing > available - m.reg.reserve)
      (.runtimeError "host residency physical reserve exhausted")

def setQuota (quota : Quota) : Exec Unit := do
  if (← reply).ok then
    modify fun m => { m with os.quota := quota, reg.currentQuota := quota }
  else osError "working set quota"

/-- The lambda `flush` of `release_partial`. -/
def flush (pending : Option ResidentRange) : Exec (Option ResidentRange) :=
  match pending with
  | none => pure none
  | some r => do
    if ← virtualUnlock r then return none
    else osError "partial rollback"

/-- The callback of `release_partial`. -/
def releasePartialStep (page : Nat) (pending : Option ResidentRange) (record : Record) :
    Exec (Option ResidentRange) :=
  if record.locked then
    let address := record.page * page
    pure (some ((pending.map (·.1)).getD address, address + page))
  else flush pending

def releasePartial (r : ResidentRange) : Exec Unit := do
  let m ← get
  let pending ← query r (releasePartialStep m.os.page) none
  let _ ← flush pending

/-! ## Assessment -/

/-- `x & ~(page_-1)`, `page_` being a power of two. -/
def alignDown (page x : Nat) : Nat := x / page * page

/-- The rounding loop of `assess`. -/
def roundRegions (page : Nat) (regions : List ResidentRange) : Except Exn (List ResidentRange) :=
  regions.mapM fun r => do
    throwIf (r.1 ≥ r.2 ∨ r.2 > uint64Max - (page - 1)) (.invalidArgument "resident rounded range overflow")
    return (alignDown page r.1, alignDown page (r.2 + page - 1))

def retainDescriptors (next : Snapshot) : Exec Snapshot :=
  if next.descriptorBacking.isSome ∨ (next.ownersCapacity = 0 ∧ next.regionsCapacity = 0) then
    pure next
  else do
    let answer ← reply
    let m ← get
    let resources ← ofExcept (Inventory.add next.resources
      { owner := some answer.object, domain := .hostMetadata
        units := descriptorRequirement m.reg.backingBytes next.ownersCapacity
          next.regionsCapacity })
    return { next with
      resources, owners := [], ownersCapacity := 0, regions := [], regionsCapacity := 0
      descriptorBacking := some ⟨answer.object, next.owners, next.regions⟩ }

/-- The text of `Exl3HostResidentBudgetExhausted`. -/
def budgetExhausted : Exn :=
  .runtimeError "resident page budget exhausted including in-flight roots"

/-- `assess`: the new transition is the last of `plans`; its index is returned. -/
def assess (next : Snapshot) : Exec Nat := do
  let m ← get
  check (m.reg.unavailable = true) (.logicError "resident assessment unavailable")
  check (next.descriptorBacking.isSome) (.logicError "resident snapshot descriptors already retained")
  check (next.regions ≠ [] ∧ (next.owners = [] ∨ ∃ owner ∈ next.owners, owner = none))
    (.invalidArgument "resident payload owner missing")
  let regions ← ofExcept (roundRegions m.os.page next.regions)
  let next ← retainDescriptors { next with regions := [], regionsCapacity := 0 }
  accounting
  let desired := mergeResidentRangesInPlace regions
  let added := residentDifference desired m.reg.pages
  let removed := residentDifference m.reg.pages desired
  accounting
  let old ← ofExcept (extent m.reg.pages)
  let addedBytes ← ofExcept (extent added)
  check (old > m.reg.budget ∨ addedBytes > m.reg.budget - old) budgetExhausted
  accounting
  let plan := { authority := some m.reg.address, identity := m.reg.authorityIdentity
                revision := m.reg.revision, next, desired, added, removed : Transition }
  modify fun m => { m with plans := m.plans ++ [plan] }
  return m.plans.length

/-! ## Commit -/

/-- The chunks in which `commit` locks what is left of a range. -/
def chunksFrom : Nat → Nat → Nat → List ResidentRange
  | 0, _, _ => []
  | fuel + 1, first, second =>
    if first < second then
      let stop := first + min chunkBytes (second - first)
      (first, stop) :: chunksFrom fuel stop second
    else []

/-- The chunks of all added ranges, in the order in which they are locked. -/
def lockChunks (added : List ResidentRange) : List ResidentRange :=
  added.flatMap fun r => chunksFrom (rangeChunks chunkBytes r) r.1 r.2

/-- What follows a lock: the witness query, the reserve, and the callback. -/
def witnessChunk (missing : Nat) (callback : Option Exn) (chunk : ResidentRange) : Exec Unit := do
  query chunk (fun _ record => check (record.valid = false ∨ record.locked = false)
    (.runtimeError "new resident lock not witnessed")) ()
  (if missing ≠ 0 then checkReserve 0 else pure ())
  callBack callback

/-- The body of the lock loop. -/
def lockChunk (missing slots : Nat) (afterLock : Nat → Option Exn) (chunk : ResidentRange) : Exec Unit := do
  let m ← get
  check (m.completed.length = slots) (.logicError "resident completed lock reservation exhausted")
  modify fun m => { m with attempted := some chunk }
  if ← virtualLock chunk then
    modify fun m => { m with completed := chunk :: m.completed, attempted := none }
    witnessChunk missing (afterLock (m.completed.length + 1)) chunk
  else osError "VirtualLock"

/-- The quota that `commit` wants for `required` locked bytes. -/
def quotaFor (required : Nat) (current : Quota) : Quota :=
  let minimum := if required + quotaSlack ≤ current.min then current.min
    else required + quotaSlack + quotaGrowth
  { min := minimum, max := max current.max ((minimum + quotaSlack) % 2 ^ 64), flags := quotaFlags }

/-- The growth of the quota to `required` bytes. -/
def growQuota (required : Nat) : Exec Unit := do
  check (required > sizeMax - 2 * quotaSlack - quotaGrowth) (.overflowError "resident quota overflow")
  let m ← get
  let quota := quotaFor required m.reg.currentQuota
  if quota ≠ m.reg.currentQuota then setQuota quota else pure ()

/-- The `try` block of `commit`. -/
def lockAdded (added : List ResidentRange) (addedBytes oldBytes missing slots : Nat)
    (afterLock : Nat → Option Exn) : Exec Unit := do
  (if addedBytes ≠ 0 then growQuota (oldBytes + addedBytes) else pure ())
  (lockChunks added).forM (lockChunk missing slots afterLock)

/-- A `VirtualUnlock` that must succeed. -/
def unlockOrThrow (operation : String) (r : ResidentRange) : Exec Unit := do
  if ← virtualUnlock r then pure ()
  else osError operation

/-- `if(attempted.second) release_partial(attempted);`. -/
def releaseAttempted : Option ResidentRange → Exec Unit
  | none => pure ()
  | some r => releasePartial r

/-- The handler's rollback. -/
def rollback (previous : Quota) : Exec Unit := do
  let m ← get
  modify fun m => { m with reg.rollbackFaultForTest := false }
  check (m.reg.rollbackFaultForTest = true) (.runtimeError "injected resident rollback before unlock")
  releaseAttempted m.attempted
  m.completed.forM (unlockOrThrow "rollback unlock")
  setQuota previous

/-- The lambda `poison`: the old and the new side by side. -/
def poison (pages : List ResidentRange) (owners : List (Option Nat)) (resources : Inventory) : Exec Unit :=
  modify fun m => { m with
    reg.healthy := false
    reg.pages := pages
    reg.held := { m.reg.held with owners, descriptorBacking := none, resources } }

/-- The preflight queries: no foreign lock, and the bytes not yet resident. -/
def preflight (added : List ResidentRange) : Exec Nat :=
  added.foldlM (fun missing r => do
    let m ← get
    query r (fun missing record => do
      check (record.locked = true) (.invalidArgument "resident page has a foreign lock")
      return if record.valid then missing else missing + m.os.page) missing) 0

/-- What `commit` prepares before it locks a page. -/
structure Prepared where
  slots : Nat
  combinedResources : Inventory
  addedBytes : Nat
  oldBytes : Nat
  missing : Nat

/-- The part of `commit` that can still refuse: rollback storage, budget, preflight. -/
def prepareCommit (plan : Transition) : Exec Prepared := do
  let m ← get
  accounting
  check (plan.desired.length > sizeMax - m.reg.pages.length ∨
      plan.next.payloadOwners.length > sizeMax - m.reg.held.payloadOwners.length)
    (.overflowError "resident rollback descriptor count overflow")
  let slots ← ofExcept (residentLockChunkCount chunkBytes plan.added)
  accounting
  let combinedResources ←
    ofExcept (Inventory.append m.reg.held.resources plan.next.resources)
  let addedBytes ← ofExcept (extent plan.added)
  let oldBytes ← ofExcept (extent m.reg.pages)
  check (oldBytes > m.reg.budget ∨ addedBytes > m.reg.budget - oldBytes) budgetExhausted
  accounting
  let missing ← preflight plan.added
  (if missing ≠ 0 then checkReserve missing else pure ())
  return { slots, combinedResources, addedBytes, oldBytes, missing }

/-- `commit` from the point where the transition is consumed. -/
def commitBody (plan : Transition) (afterLock : Nat → Option Exn) : Exec Unit := do
  let m ← get
  let prepared ← prepareCommit plan
  let combinedPages := mergeSortedResidentRanges m.reg.pages plan.desired
  let combinedOwners := m.reg.held.payloadOwners ++ plan.next.payloadOwners
  let poisoned := poison combinedPages combinedOwners prepared.combinedResources
  tryCatch (lockAdded plan.added prepared.addedBytes prepared.oldBytes prepared.missing
      prepared.slots afterLock) fun failure => do
    tryCatch (rollback m.reg.currentQuota) fun e => do
      poisoned
      throw e
    throw failure
  tryCatch (plan.removed.forM (unlockOrThrow "obsolete unlock")) fun failure => do
    poisoned
    throw failure
  let _unlockedBytes ← ofExcept (extent plan.removed)
  let _pageBytes ← ofExcept (extent plan.desired)
  modify fun m => { m with
    reg.pages := plan.desired, reg.held := plan.next, reg.revision := m.reg.revision + 1 }

/-- `commit` of transition `k`; a transition moved away has no authority. -/
def commit (k : Nat) (afterLock : Nat → Option Exn) : Exec Unit := do
  let m ← get
  let plan := (m.plans[k]?).getD {}
  check (m.reg.unavailable = true ∨ plan.authority ≠ some m.reg.address ∨
      plan.identity ≠ m.reg.authorityIdentity ∨ plan.consumed = true ∨
      plan.revision ≠ m.reg.revision)
    (.logicError "resident stale/consumed transition")
  check (m.reg.revision = uint64Max) (.overflowError "resident revision exhausted")
  accounting
  modify fun m => { m with
    plans := m.plans.set k { plan with consumed := true }
    completed := [], attempted := none, reg.transitioning := true }
  finally' (commitBody plan afterLock) fun m => { m with reg.transitioning := false }

def replace (next : Snapshot) (afterLock : Nat → Option Exn) : Exec Unit := do
  let k ← assess next
  commit k afterLock

/-! ## The other operations -/

structure Requirement where
  units : Domain → Nat
  configuration : Nat

def replaceReservedSnapshot (requirement : Requirement) (factory : Nat → Except Exn Snapshot)
    (beforeCommit : Option Exn) (afterLock : Nat → Option Exn) : Exec Unit := do
  let m ← get
  check (m.reg.unavailable = true) (.logicError "resident snapshot reservation unavailable")
  check (requirement.configuration ≠ descriptorConfiguration)
    (.invalidArgument "resident snapshot reservation configuration")
  check (requirement.units .hostMetadata < m.reg.backingBytes)
    (.invalidArgument "resident snapshot reservation extent")
  check (∃ d ∈ [Domain.device, .cudaRegisteredHost, .graphCount, .eventCount], requirement.units d ≠ 0)
    (.invalidArgument "resident snapshot reservation domain")
  check (m.reg.revision ≥ uint64Max - 1) (.overflowError "resident snapshot reservation revision exhausted")
  accounting
  modify fun m => { m with reg.revision := m.reg.revision + 1, reg.reserving := true }
  finally' (do
      let next ← ofExcept (factory requirement.configuration)
      check (next.fixedRegions = false ∨ next.descriptorBacking.isSome ∨
          descriptorRequirement m.reg.backingBytes next.ownersCapacity next.regionsCapacity ≠
            requirement.units .hostMetadata)
        (.invalidArgument "resident snapshot reserved extent mismatch")
      modify fun m => { m with reg.reserving := false }
      let k ← assess next
      modify fun m => { m with reg.reserving := true }
      callBack beforeCommit
      modify fun m => { m with reg.reserving := false }
      commit k afterLock)
    fun m => { m with reg.reserving := false }

def sealExternalRetirementFailure : Exec Unit :=
  modify fun m => { m with reg.externalRetirementFailed := true }

def failNextRollbackForTest : Exec Unit := do
  let m ← get
  check (m.reg.unavailable = true ∨ m.reg.rollbackFaultForTest = true)
    (.logicError "resident rollback fault unavailable")
  modify fun m => { m with reg.rollbackFaultForTest := true }

/-- The three retirements to a lifetime ledger: `name` and `domain` tell them apart. The
    answer says whether the owner's callback took the credit. -/
def retireToLifetime (name : String) (domain : Domain) (a : Allocation) : Exec Bool := do
  let m ← get
  check (m.reg.unavailable = true) (.logicError ("resident " ++ name ++ " lifetime retirement unavailable"))
  check (a.domain ≠ domain) (.invalidArgument ("resident " ++ name ++ " lifetime retirement domain"))
  check (m.reg.revision = uint64Max) (.overflowError "resident revision exhausted")
  let next ← ofExcept (Inventory.withoutAllocation m.reg.held.resources a)
  modify fun m => { m with reg.revision := m.reg.revision + 1, reg.reserving := true }
  finally' (do
      accounting
      if (← reply).ok then
        modify fun m => { m with reg.held.resources := next }
        return true
      else return false)
    fun m => { m with reg.reserving := false }

def retireReservedHostToLifetime : Allocation → Exec Bool := retireToLifetime "host" .hostMetadata

def retireReservedDeviceToLifetime : Allocation → Exec Bool := retireToLifetime "device" .device

def retireReservedRegistrationToLifetime : Allocation → Exec Bool :=
  retireToLifetime "registration" .cudaRegisteredHost

/-- One turn of the loop in `close`. -/
def closeRetire (a : Allocation) : Exec Unit := do
  if a.registrationLifetimeRetire.isSome then
    let taken ← retireReservedRegistrationToLifetime a
    check (taken = false) (.logicError "resident close registration lifetime transfer refused")
  else if a.deviceLifetimeRetire.isSome then
    let taken ← retireReservedDeviceToLifetime a
    check (taken = false) (.logicError "resident close device lifetime transfer refused")
  else
    let taken ← retireReservedHostToLifetime a
    check (taken = false) (.logicError "resident close lifetime transfer refused")

/-- The loop of `close`; every turn takes at least one allocation out of the inventory. -/
def closeRetireAll : Nat → Exec Unit
  | 0 => pure ()
  | fuel + 1 => do
    let m ← get
    match Inventory.firstLifetimeRetirement m.reg.held.resources with
    | none => pure ()
    | some a => do
      closeRetire a
      closeRetireAll fuel

def close : Exec Unit := do
  let m ← get
  if m.reg.closed then pure ()
  else do
    check (m.reg.externalRetirementFailed = true) (.logicError "resident external allocation retirement unresolved")
    closeRetireAll m.reg.held.resources.length
    replace {} fun _ => none
    let m ← get
    setQuota m.reg.originalQuota
    modify fun m => { m with reg.closed := true }

end VoidInfer.Exl3
