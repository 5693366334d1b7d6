/-
  Payload reservations against the page budget (`src/exl3/host_resident_set.h`, `ReservedHostPayloadTracker`):
  reservations, tracked allocations, retirement, assessments and commits of one registry. The owners are the tap blocks
  of requests, each with its ticket; what the resource limits and the operating system answer is an input.

  Locked pages and reservations never exceed the budget together, where a reservation counts only as far as no locked
  page covers its allocation (`payload_within_budget`).
-/
import VoidInfer.Exl3.ReservedHostPayload
import VoidInfer.Exl3.ResidentInv

namespace VoidInfer.Exl3

open PointCount ReservedHostPayload

/-- `ReservedHostPayloadTracker<4096>`. -/
def trackerCapacity : Nat := 4096

/-- `TapBlock`: `credit` is its ticket of the registry's ledger, a plane its address and bytes. A ticket has the bytes of
    the planes, which the construction checks. -/
structure PayloadOwner where
  id : Nat
  credit : Option Nat
  planes : List (Nat × Nat)
  exact : ∀ bytes, credit = some bytes → (planes.map (·.2)).sum = bytes

/-- `ReservedHostPayloadTracker::Entry`. -/
structure TrackedPayload where
  owner : Nat
  plane : Nat
  data : Nat
  bytes : Nat

/-- The entry that a union has of it. -/
def TrackedPayload.entry (t : TrackedPayload) : PayloadEntry := ⟨t.owner, t.plane, t.data, t.data + t.bytes⟩

structure PayloadAccounting where
  ledger : Nat := 0
  slots : List (Option TrackedPayload) := List.replicate trackerCapacity none

/-- `Transition`. -/
structure PayloadPlan where
  revision : Nat := 0
  desired : List ResidentRange := []
  added : List ResidentRange := []
  consumed : Bool := true

/-- The registry, with the tickets and owners that its clients hold. -/
structure PayloadRegistry where
  budget : Nat
  page : Nat
  page_pos : 0 < page
  pages : List ResidentRange := []
  revision : Nat := 0
  healthy : Bool := true
  accounting : Option PayloadAccounting := none
  plans : List PayloadPlan := []
  tickets : List Nat := []
  live : List PayloadOwner := []
  owners : Nat := 0

/-- What a call answers, and the registry after it. -/
abbrev PayloadAnswer := Except Exn Unit × PayloadRegistry

namespace PayloadRegistry

/-! ## The surcharge -/

section
variable (r : PayloadRegistry)

/-- `owner.lock()` succeeds. -/
def alive (id : Nat) : Bool := r.live.any fun o => o.id == id

/-- The tracked allocations with a living owner, in the order of their slots. -/
def tracked (a : PayloadAccounting) : List TrackedPayload :=
  (a.slots.filterMap fun slot => slot).filter fun t => r.alive t.owner

def snapshot (a : PayloadAccounting) : Except Exn (List PayloadEntry) :=
  (r.tracked a).foldlM (fun entries t => add trackerCapacity entries (some t.owner) t.plane t.data t.bytes) []

def additionalBytes (a : PayloadAccounting) (resident incoming : List ResidentRange) : Except Exn Nat := do
  let live ← r.snapshot a
  let total ← bytesOutside live [] []
  let uncovered ← bytesOutside live resident incoming
  throwIf (total > a.ledger) (.logicError "reserved host payload tracking exceeds ledger")
  return a.ledger - (total - uncovered)

def payloadSurcharge (old next : List ResidentRange) : Except Exn Nat :=
  match r.accounting with
  | some a => r.additionalBytes a old next
  | none => return 0

def requirePayloadBudget (pages extra requested : Nat) : Except Exn Unit :=
  throwIf (pages > r.budget ∨ extra > r.budget - pages ∨ requested > r.budget - pages - extra) budgetExhausted

end

/-! ## Reservation -/

section
variable (r : PayloadRegistry)

/-- The budget check of a reservation. -/
def admitPayload (bytes : Nat) : Except Exn Unit := do
  throwIf (r.healthy = false) (.logicError "resident payload lifetime reservation unavailable")
  throwIf (bytes = 0) (.invalidArgument "resident payload lifetime reservation extent")
  let pages ← extent r.pages
  let extra ← r.payloadSurcharge r.pages []
  r.requirePayloadBudget pages extra bytes

/-- The accounting is made with the first reservation: `metadata` is what `reserve_host_metadata_lifetime` throws, `attach`
    what its storage does. -/
def makeAccounting (metadata attach : Option Exn) : PayloadAnswer :=
  match r.accounting with
  | some _ => (.ok (), r)
  | none =>
    match metadata with
    | some e => (.error e, r)
    | none =>
      if r.revision = uint64Max then (.error (.overflowError "resident revision exhausted"), r)
      else
        match attach with
        | some e => (.error e, { r with revision := r.revision + 1 })
        | none => (.ok (), { r with revision := r.revision + 1, accounting := some {} })

/-- `RetainedHostAllocationLedger::acquire`, after the check of the revision. -/
def acquirePayload (bytes : Nat) : PayloadAnswer :=
  if r.revision = uint64Max then (.error (.overflowError "resident revision exhausted"), r)
  else
    match r.accounting with
    | none => (.ok (), r)
    | some a =>
      if bytes > uint64Max - a.ledger then (.error (.overflowError "retained descriptor ledger overflow"), r)
      else (.ok (), { r with
        accounting := some { a with ledger := a.ledger + bytes }, tickets := r.tickets ++ [bytes]
        revision := r.revision + 1 })

def reserveHostPayloadLifetime (bytes : Nat) (metadata attach : Option Exn) : PayloadAnswer :=
  match r.admitPayload bytes with
  | .error e => (.error e, r)
  | .ok _ =>
    match r.makeAccounting metadata attach with
    | (.error e, r) => (.error e, r)
    | (.ok _, r) => r.acquirePayload bytes

end

/-! ## Owners and tracking -/

section
variable (r : PayloadRegistry)

/-- `fetch_sub` on the ledger. -/
def release (bytes : Nat) : PayloadRegistry :=
  { r with accounting := r.accounting.map fun a => { a with ledger := wordSub a.ledger bytes } }

/-- `~Ticket` of a ticket without an owner. -/
def retireTicket (k : Nat) : PayloadRegistry :=
  match r.tickets[k]? with
  | none => r
  | some bytes => { r with tickets := r.tickets.eraseIdx k }.release bytes

/-- An owner dies, and its ticket with it. -/
def retireOwner (id : Nat) : PayloadRegistry :=
  match r.live.find? fun o => o.id == id with
  | none => r
  | some o => { r with live := r.live.filter fun o => o.id != id }.release (o.credit.getD 0)

/-- A tap block is made, with a ticket or without one. -/
def appendBlock (ticket : Option Nat) (planes : List (Nat × Nat)) : PayloadAnswer :=
  match ticket.bind fun k => r.tickets[k]?.map fun bytes => (k, bytes) with
  | none => (.ok (), { r with live := r.live ++ [⟨r.owners, none, planes, by simp⟩], owners := r.owners + 1 })
  | some (k, bytes) =>
    if h : (planes.map (·.2)).sum = bytes then
      (.ok (), { r with
        tickets := r.tickets.eraseIdx k
        live := r.live ++ [⟨r.owners, some bytes, planes, fun _ heq => h.trans (Option.some.inj heq)⟩]
        owners := r.owners + 1 })
    else (.error (.invalidArgument "authoritative tap payload credit extent"), r.retireTicket k)

end

/-- `reserved_tap_payload_matches`. -/
def payloadMatches (o : PayloadOwner) (plane data bytes : Nat) : Bool :=
  o.credit.isSome && decide (o.planes[plane]? = some (data, bytes))

/-- The loop of `track`: the union of the living allocations, or nothing if this one is among them. -/
def checkTracked (t : TrackedPayload) : List PayloadEntry → List TrackedPayload → Except Exn (Option (List PayloadEntry))
  | checked, [] => return some checked
  | checked, prior :: rest => do
    let checked ← add trackerCapacity checked (some prior.owner) prior.plane prior.data prior.bytes
    if prior.owner = t.owner ∧ prior.plane = t.plane then do
      let _ ← add trackerCapacity checked (some t.owner) t.plane t.data t.bytes
      return none
    else checkTracked t checked rest

def track (r : PayloadRegistry) (a : PayloadAccounting) (t : TrackedPayload) : Except Exn PayloadAccounting := do
  match ← checkTracked t [] (r.tracked a) with
  | none => return a
  | some checked => do
    let _ ← add trackerCapacity checked (some t.owner) t.plane t.data t.bytes
    match a.slots.findIdx? fun slot => slot.all fun t => !r.alive t.owner with
    | none => throw (.lengthError "reserved host payload tracker full")
    | some i => return { a with slots := a.slots.set i (some t) }

/-- What `track_host_payload_lifetime` leaves in the tracker. -/
def trackChecked (r : PayloadRegistry) (t : TrackedPayload) : Except Exn PayloadAccounting :=
  match r.accounting with
  | none => throw (.logicError "resident payload lifetime tracking unavailable")
  | some a => do
    throwIf (r.healthy = false) (.logicError "resident payload lifetime tracking unavailable")
    throwIf (t.bytes = 0 ∨ r.live.all (fun o => !(o.id == t.owner && payloadMatches o t.plane t.data t.bytes)) = true)
      (.invalidArgument "resident payload lifetime owner/credit mismatch")
    throwIf (r.revision = uint64Max) (.overflowError "resident revision exhausted")
    r.track a t

def trackHostPayloadLifetime (r : PayloadRegistry) (t : TrackedPayload) : PayloadAnswer :=
  match r.trackChecked t with
  | .error e => (.error e, r)
  | .ok a => (.ok (), { r with accounting := some a, revision := r.revision + 1 })

/-! ## Assessment and commit -/

section
variable (r : PayloadRegistry) (regions : List ResidentRange) (owners : List (Option Nat)) (limits : Option Exn)

/-- The transition that `assess` makes; `limits` is what the resource limits refuse. -/
def assessed : Except Exn PayloadPlan := do
  throwIf (r.healthy = false) (.logicError "resident assessment unavailable")
  throwIf (regions ≠ [] ∧ (owners = [] ∨ none ∈ owners)) (.invalidArgument "resident payload owner missing")
  let rounded ← roundRegions r.page regions
  match limits with
  | some e => throw e
  | none => do
    let desired := mergeResidentRangesInPlace rounded
    let added := residentDifference desired r.pages
    let old ← extent r.pages
    let addedBytes ← extent added
    throwIf (old > r.budget ∨ addedBytes > r.budget - old) budgetExhausted
    let extra ← r.payloadSurcharge r.pages desired
    r.requirePayloadBudget (old + addedBytes) extra 0
    return { revision := r.revision, desired, added, consumed := false }

def assess :
    PayloadAnswer :=
  match r.assessed regions owners limits with
  | .error e => (.error e, r)
  | .ok plan => (.ok (), { r with plans := r.plans ++ [plan] })

end

/-- What becomes of the pages of a commit that passed its checks. -/
inductive LockAnswer where
  | locked
  | rolledBack (e : Exn)
  | poisoned (e : Exn)

section
variable (r : PayloadRegistry)

/-- The transition with this index; one moved away is consumed. -/
def plan (k : Nat) : PayloadPlan := (r.plans[k]?).getD {}

/-- The checks of `commit` before it consumes the transition. -/
def commitUsable (plan : PayloadPlan) (limits : Option Exn) : Except Exn Unit := do
  throwIf (r.healthy = false ∨ plan.consumed = true ∨ plan.revision ≠ r.revision)
    (.logicError "resident stale/consumed transition")
  throwIf (r.revision = uint64Max) (.overflowError "resident revision exhausted")
  match limits with
  | some e => throw e
  | none => return ()

/-- The budget checks of `commit`. -/
def commitFits (plan : PayloadPlan) : Except Exn Unit := do
  let addedBytes ← extent plan.added
  let oldBytes ← extent r.pages
  throwIf (oldBytes > r.budget ∨ addedBytes > r.budget - oldBytes) budgetExhausted
  let extra ← r.payloadSurcharge r.pages plan.desired
  r.requirePayloadBudget (oldBytes + addedBytes) extra 0

/-- The transition is consumed. -/
def consume (k : Nat) : PayloadRegistry :=
  { r with plans := r.plans.set k { r.plan k with consumed := true } }

/-- `commit`; `dying` are the owners that only the old snapshot kept. -/
def commit (k : Nat) (limits : Option Exn) (answer : LockAnswer) (dying : List Nat) : PayloadAnswer :=
  match r.commitUsable (r.plan k) limits with
  | .error e => (.error e, r)
  | .ok _ =>
    match r.commitFits (r.plan k) with
    | .error e => (.error e, r.consume k)
    | .ok _ =>
      match answer with
      | .rolledBack e => (.error e, r.consume k)
      | .poisoned e => (.error e, { r.consume k with
          healthy := false, pages := mergeSortedResidentRanges r.pages (r.plan k).desired })
      | .locked => (.ok (), dying.foldl retireOwner { r.consume k with
          pages := (r.plan k).desired, revision := r.revision + 1 })

end

end PayloadRegistry

/-- An operation on the registry or on what its clients hold. -/
inductive PayloadOp where
  | reserve (bytes : Nat) (metadata attach : Option Exn)
  | appendBlock (ticket : Option Nat) (planes : List (Nat × Nat))
  | track (t : TrackedPayload)
  | retireTicket (k : Nat)
  | retireOwner (id : Nat)
  | assess (regions : List ResidentRange) (owners : List (Option Nat)) (limits : Option Exn)
  | commit (k : Nat) (limits : Option Exn) (answer : PayloadRegistry.LockAnswer) (dying : List Nat)

namespace PayloadRegistry

/-- What an operation answers, and the registry after it. -/
def exec (r : PayloadRegistry) : PayloadOp → PayloadAnswer
  | .reserve bytes metadata attach => r.reserveHostPayloadLifetime bytes metadata attach
  | .appendBlock ticket planes => r.appendBlock ticket planes
  | .track t => r.trackHostPayloadLifetime t
  | .retireTicket k => (.ok (), r.retireTicket k)
  | .retireOwner id => (.ok (), r.retireOwner id)
  | .assess regions owners limits => r.assess regions owners limits
  | .commit k limits answer dying => r.commit k limits answer dying

/-- The registry after a sequence of operations, failed ones included. -/
def runOps (r : PayloadRegistry) (ops : List PayloadOp) : PayloadRegistry := ops.foldl (fun r op => (r.exec op).2) r

end PayloadRegistry
end VoidInfer.Exl3
