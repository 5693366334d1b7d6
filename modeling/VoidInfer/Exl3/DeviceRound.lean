import VoidInfer.Exl3.OuterVerify

/-
  Device-resident rounds (`verify_exl3_outer_device_resident_reference`): one block in a transaction of the live
  context, without a host state. The block may hold sibling rows, alternatives to rows of the chain; the correction of a
  rejected round may be left to the next round, whose seed it is.

  A lane keeps the context from round to round, with a fresh revision for each root, and the seed packets bound so far.
  The payloads and the timeline are left out.
-/

namespace VoidInfer.Exl3.Outer
open MonadExcept (ofExcept)

open Throwing

/-- `Exl3CommittedTapBinding`; 0 is a null pointer or no value. -/
structure TapBinding where
  contextOwner : Nat
  rootRevision : Nat
  rootPosition : Int
  acquisition : Nat
  execution : Nat

/-- `operator bool`. -/
def TapBinding.ok (binding : TapBinding) : Bool :=
  binding.contextOwner != 0 && binding.rootRevision != 0 && decide (0 ≤ binding.rootPosition) &&
    binding.acquisition != 0 && binding.execution != 0

/-- `Exl3OuterDeviceSeedPacket`. -/
structure SeedPacket where
  binding : TapBinding
  requestGeneration : Nat
  numericalPolicy : Nat
  token : Int
  completedStream : Nat
  deviceGreedy : Bool

/-- `Exl3OuterDeviceSettlement`. -/
inductive Settlement
  | eager | deferTargetCommit
deriving DecidableEq

/-- The other arguments of a round, the settings it reads, and the context's address and
    `request_generation`. -/
structure DeviceOptions where
  self : Nat
  requestGeneration : Nat := 0
  stream : Nat := 0
  tapBinding : Option TapBinding := none
  tapConsumer : Bool := false
  readySeed : Option SeedPacket := none
  numericalPolicy : Nat := 0
  settlement : Settlement := .eager
  deviceGreedy : Bool := true
  foldCorrection : Bool := true
  w1 : Bool := false
  deviceKv : Bool := true

/-- `tap_binding && *tap_binding`. -/
def DeviceOptions.bound (o : DeviceOptions) : Bool := o.tapBinding.any TapBinding.ok

/-- The options of the parts shared with the host verifiers. -/
def DeviceOptions.outer (o : DeviceOptions) : OuterOptions :=
  { tapConsumer := o.tapConsumer, tapBinding := o.bound, w1 := o.w1 }

/-- `exl3_outer_device_seed_matches`, with the ready seed there. -/
def seedMatches (o : DeviceOptions) (position : Nat) (binding : TapBinding) (seed : SeedPacket)
    (proposedRoot : Int) : Prop :=
  binding.ok = true ∧ binding.contextOwner = o.self ∧
    seed.binding.contextOwner = binding.contextOwner ∧
    seed.binding.rootRevision = binding.rootRevision ∧
    seed.binding.rootPosition = position ∧
    seed.binding.acquisition = binding.acquisition ∧
    seed.binding.execution = binding.execution ∧
    seed.requestGeneration = o.requestGeneration ∧
    seed.numericalPolicy ≠ 0 ∧ seed.numericalPolicy = o.numericalPolicy ∧
    seed.completedStream = o.stream ∧ seed.deviceGreedy = o.deviceGreedy ∧
    seed.token = proposedRoot ∧ InVocabulary seed.token

instance (o : DeviceOptions) (position : Nat) (binding : TapBinding) (seed : SeedPacket)
    (proposedRoot : Int) : Decidable (seedMatches o position binding seed proposedRoot) :=
  inferInstanceAs (Decidable (_ ∧ _))

/-- The seed that is reused. -/
def reusedSeed (o : DeviceOptions) (position : Nat) (tentative : List Int) : Option Int :=
  match o.tapBinding, o.readySeed, tentative.head? with
  | some binding, some seed, some front =>
    if seedMatches o position binding seed front then some seed.token else none
  | _, _, _ => none

/-! ## The decision -/

/-- The first sibling at this depth with this token; the siblings start at `row`. -/
def siblingAt (depth : Nat) (token : Int) : List (Nat × Int) → Nat → Option Nat
  | [], _ => none
  | sibling :: siblings, row =>
    if sibling = (depth, token) then some row else siblingAt depth token siblings (row + 1)

/-- The decision of a block with siblings, and the row of the promoted one. -/
def siblingDecision (seed : Int) (chain terminal : List Int) (siblings : List (Nat × Int))
    (decisions : List Int) : Except Exn (Decision × Option Nat) := do
  let decision ← decideOuterPrefix (seed :: decisions.take (chain.length - 1)) chain terminal
  let promoted := if decision.rejected && !decision.stopped then
      siblingAt decision.accepted (decision.committedTokens.getLast?.getD (-1)) siblings chain.length
    else none
  match promoted with
  | none => return (decision, none)
  | some row =>
    let next := decisions[row]?.getD (-1)
    return ({ decision with
      committedTokens := decision.committedTokens ++ [next]
      accepted := decision.accepted + 1
      stopped := decide (next ∈ terminal) }, some row)

namespace Machine

variable (m : Machine) (o : DeviceOptions)

/-- The decision of a round, the promoted row, and the choice after the last row. -/
def deviceDecision (seed : Int) (tentative terminal : List Int) (offsets : List Nat) :
    ContextM (Decision × Option Nat × Int) := do
  let chain := tentative.length - offsets.length
  if offsets = [] then
    let (path, bonus) ← m.outerGreedyPath seed tentative.length
    let decision ← ofExcept (decideOuterPrefix path tentative terminal)
    return (decision, none, bonus)
  else
    let decisions ← m.continuationGreedy
    let (decision, promoted) ← ofExcept (siblingDecision seed (tentative.take chain) terminal
      (offsets.zip (tentative.drop chain)) decisions)
    return (decision, promoted, -1)

/-! ## Settlement -/

/-- `stage_taps`. -/
def deviceStageTaps (rootPosition attemptRows : Nat) (result : OuterResult) (rows destinationFirst : Nat)
    (repair correction : Bool) : ContextM OuterResult := do
  let c ← get
  m.emitTapSegment o.outer result rows (rootPosition + destinationFirst) destinationFirst
    rootPosition attemptRows ((c.position : Int) - c.tapRows) c.tapRows repair correction

/-- `promote_sibling_row`, where a sibling was promoted. -/
def promote (promoted : Option Nat) (destination : Nat) : ContextM Unit :=
  match promoted with
  | some row => m.promoteSiblingRow row destination
  | none => pure ()

/-- Folded correction: only the verified prefix is kept. -/
def settleFolded (rootPosition attemptRows : Nat) (terminal : List Int) (promoted : Option Nat)
    (result : OuterResult) : ContextM OuterResult := do
  let accepted := result.accepted
  m.promote promoted (accepted - 1)
  m.retainTransactionPrefix accepted
  let result ← m.deviceStageTaps o rootPosition attemptRows result accepted 0 true false
  let committed := result.committedTokens.dropLast
  whenever (o.settlement = .eager) m.commitTransaction
  return { result with
    committedTokens := committed
    stopped := committed.getLast?.any (· ∈ terminal) }

/-- The correction in a pass of its own. -/
def settleRejected (rootPosition attemptRows : Nat) (result : OuterResult) : ContextM OuterResult := do
  let accepted := result.accepted
  let result ← if 0 < accepted then do
      m.retainTransactionPrefix accepted
      m.deviceStageTaps o rootPosition attemptRows result accepted 0 true false
    else do
      m.rollbackTransaction
      whenever (o.settlement = .deferTargetCommit) m.beginTransaction
      pure result
  m.decode (result.committedTokens.getLast?.getD (-1))
  let result := { result with replayRows := result.replayRows + 1 }
  let result ← m.deviceStageTaps o rootPosition attemptRows result 1 accepted true true
  whenever (decide (0 < accepted) && decide (o.settlement = .eager)) m.commitTransaction
  return result

/-- Nothing was rejected. -/
def settleAccepted (rootPosition attemptRows : Nat) (result : OuterResult) : ContextM OuterResult := do
  let retained := result.committedTokens.length
  let truncated := decide (retained < attemptRows)
  whenever truncated (m.retainTransactionPrefix retained)
  let result ← m.deviceStageTaps o rootPosition attemptRows result retained 0 truncated false
  whenever (o.settlement = .eager) do
    m.commitTransaction
    let c ← get
    whenever (!c.rows.isEmpty) m.finishExactContinuation
  return result

def settle (rootPosition attemptRows : Nat) (terminal : List Int) (promoted : Option Nat)
    (result : OuterResult) : ContextM OuterResult :=
  if result.rejected && decide (0 < result.accepted) && o.foldCorrection then
    m.settleFolded o rootPosition attemptRows terminal promoted result
  else if result.rejected then m.settleRejected o rootPosition attemptRows result
  else m.settleAccepted o rootPosition attemptRows result

/-! ## A round -/

/-- The checks before the round. -/
def checkDevice (tentative terminal : List Int) (offsets : List Nat) : Except Exn Unit := do
  throwIf (¬ (2 ≤ tentative.length ∧ tentative.length ≤ 8 ∧ tentative.length ≤ m.capacity ∧
      m.prepared = true))
    (.invalidArgument "device-resident verifier requires prepared B2..B8 transaction")
  throwIf (¬ (offsets.length + 2 ≤ tentative.length ∧
      (offsets ≠ [] → o.deviceGreedy = true ∧ o.foldCorrection = true)))
    (.invalidArgument "device-resident verifier sibling layout")
  throwIf (¬ ∀ token ∈ tentative, InVocabulary token) (.invalidArgument "device-resident tentative token extent")
  throwIf (¬ ∀ token ∈ terminal, InVocabulary token) (.invalidArgument "device-resident terminal token extent")
  throwIf (o.tapConsumer = true ∧ ¬ o.bound = true) (.invalidArgument "device-resident tap binding")
  throwIf (¬ o.deviceKv = true) (.invalidArgument "device-resident verifier requires its guarded device-KV policy")

/-- The seed: the one that is reused, or the greedy choice. -/
def deviceSeed (reused : Option Int) : ContextM Int :=
  match reused with
  | some token => pure token
  | none => m.branchGreedy

/-- The block of a round. -/
def deviceBody (rootPosition : Nat) (reused : Option Int) (tentative terminal : List Int)
    (offsets : List Nat) : ContextM OuterResult := do
  let c ← get
  whenever c.transaction.isNone m.beginTransaction
  let seed ← m.deviceSeed reused
  m.continueRows tentative offsets
  let (decision, promoted, bonus) ← m.deviceDecision seed tentative terminal offsets
  let result : OuterResult := { decision with verificationRows := tentative.length }
  let result ← ofExcept (w1Bonus o.outer result bonus
    (!decide (decision.committedTokens.length < tentative.length)) "device-resident W+1 bonus extent")
  let result ← m.settle o rootPosition tentative.length terminal promoted result
  let c ← get
  ofExcept (throwIf (o.settlement = .deferTargetCommit ∧ c.transaction = none)
    (.logicError "device-resident pending verifier lost target rollback boundary"))
  return { result with executedRows := result.verificationRows + result.replayRows }

/-- Rollback of the transaction, or nothing left of the context. -/
def rollbackOrReset : ContextM Unit := do
  let c ← get
  if c.transaction ≠ none then m.rollbackTransaction else m.reset

/-- `verify_exl3_outer_device_resident_reference`. -/
def verifyDeviceResident (tentative terminal : List Int) (offsets : List Nat) : ContextM OuterResult := do
  ofExcept (m.checkDevice o tentative terminal offsets)
  let c ← get
  tryCatch (m.deviceBody o c.position (reusedSeed o c.position tentative) tentative terminal offsets)
    fun failure => do
      tryCatch m.rollbackOrReset fun _ => pure ()
      throw failure

end Machine

/-! ## A lane -/

/-- A context from round to round. -/
structure Lane where
  context : Context
  revision : Nat
  packets : List SeedPacket

abbrev LaneM := EStateM Exn Lane

/-- The arguments of a round at this root: its binding, and the packet if there is one. -/
def Lane.options (w : Lane) (o : DeviceOptions) (binding : Option (Nat × Nat × Nat)) (packet : Option Nat) :
    DeviceOptions :=
  { o with
    tapBinding := binding.map fun ⟨owner, acquisition, execution⟩ =>
      ⟨owner, w.revision, w.context.position, acquisition, execution⟩
    readySeed := packet.bind fun i => w.packets[i]? }

/-- A call of the context. -/
def onContext {α : Type} (x : ContextM α) : LaneM α := fun w =>
  match x w.context with
  | .ok a c => .ok a { w with context := c }
  | .error e c => .error e { w with context := c }

/-- What a caller does between rounds, and a round. A round may begin its transaction before the
    call, and may pass any packet bound before. -/
inductive LaneOp
  | bind (acquisition execution numericalPolicy stream requestGeneration self : Nat) (deviceGreedy : Bool)
  | round (o : DeviceOptions) (binding : Option (Nat × Nat × Nat)) (packet : Option Nat) (begun : Bool)
      (tentative terminal : List Int) (offsets : List Nat)

namespace Machine

variable (m : Machine)

/-- The greedy choice read, and `bind_exl3_outer_device_seed`. -/
def bindSeed (acquisition execution numericalPolicy stream requestGeneration self : Nat)
    (deviceGreedy : Bool) : LaneM Unit := do
  let token ← onContext m.branchGreedy
  let w ← get
  let binding : TapBinding := ⟨self, w.revision, w.context.position, acquisition, execution⟩
  ofExcept (throwIf (¬ (binding.ok = true ∧ InVocabulary token ∧ numericalPolicy ≠ 0))
    (.invalidArgument "device seed packet root/policy extent"))
  modify fun w => { w with
    packets := w.packets ++ [⟨binding, requestGeneration, numericalPolicy, token, stream, deviceGreedy⟩] }

/-- A round at the current root. The root after it has a new revision. -/
def laneRound (o : DeviceOptions) (binding : Option (Nat × Nat × Nat)) (packet : Option Nat) (begun : Bool)
    (tentative terminal : List Int) (offsets : List Nat) : LaneM OuterResult := do
  let w ← get
  onContext (whenever begun m.beginTransaction)
  let result ← onContext
    (m.verifyDeviceResident (w.options o binding packet) tentative terminal offsets)
  modify fun w => { w with revision := w.revision + 1 }
  return result

/-- The rounds of a lane: each with its terminal tokens and its result. -/
def laneRun : List LaneOp → LaneM (List (List Int × OuterResult))
  | [] => return []
  | .bind acquisition execution policy stream generation self greedy :: ops => do
    m.bindSeed acquisition execution policy stream generation self greedy
    laneRun ops
  | .round o binding packet begun tentative terminal offsets :: ops => do
    let result ← m.laneRound o binding packet begun tentative terminal offsets
    let results ← laneRun ops
    return (terminal, result) :: results

end Machine

end VoidInfer.Exl3.Outer
