import VoidInfer.Exl3.ExactContext
import VoidInfer.Lib.Chunks

/-
  The verifiers of `exl3/exact_outer_reference.h`: one greedy row at a time, one block with replay, one block in a
  transaction, and windows of the native width. Each restores the root, checks the proposed tokens against the greedy
  choices, and leaves the context after the tokens it committed, or restores the root and throws.

  Numerics, tap payloads and the counters of invocations, bytes and restores are left out.
-/

namespace VoidInfer.Exl3.Outer
open MonadExcept (ofExcept)

open Throwing Chunks

/-- `Exl3OuterDecision`. -/
structure Decision where
  committedTokens : List Int := []
  accepted : Nat := 0
  rejected : Bool := false
  stopped : Bool := false

/-- `Exl3CommittedTapSegmentMetadata`. -/
structure TapSegment where
  sourcePosition : Int
  sourceFirst : Nat
  rows : Nat
  logicalFirst : Nat
  destinationFirst : Nat
  attemptFirst : Nat
  attemptRows : Nat
  sourcePartitionFirst : Int
  sourcePartitionRows : Nat
  repair : Bool
  correction : Bool

/-- `Exl3OuterReferenceResult`. The exported state is its tokens and those its logits are of. -/
structure OuterResult extends Decision where
  committedState : Option (List Int × List Int) := none
  executedRows : Nat := 0
  verificationRows : Nat := 0
  replayRows : Nat := 0
  pending : Option Int := none
  segments : List TapSegment := []

/-- `capture_taps`, whether there is a `tap_consumer`, and whether `*tap_binding`;
    `reuse_resident_root`; `VOIDINFER_EXL3_FAST_MIA_PARITY_W1`. -/
structure OuterOptions where
  captureTaps : Bool := false
  tapConsumer : Bool := false
  tapBinding : Bool := false
  reuseResidentRoot : Bool := false
  w1 : Bool := false

/-! ## The decision -/

/-- The loop of `decide_exl3_outer_prefix`. -/
def decideLoop (terminal : List Int) : List Int → List Int → Decision → Decision
  | authorized :: path, proposal :: tentative, d =>
    let d : Decision :=
      { committedTokens := d.committedTokens ++ [authorized]
        accepted := if proposal = authorized then d.accepted + 1 else d.accepted
        rejected := if proposal = authorized then d.rejected else true
        stopped := decide (authorized ∈ terminal) }
    if d.rejected || d.stopped then d else decideLoop terminal path tentative d
  | _, _, d => d

def decideOuterPrefix (path tentative terminal : List Int) : Except Exn Decision := do
  throwIf (path = [] ∨ path.length ≠ tentative.length) (.invalidArgument "outer decision extent")
  return decideLoop terminal path tentative {}

namespace Machine

variable (m : Machine) (o : OuterOptions)

/-! ## Shared parts -/

/-- The checks before the root is restored, with the texts of this verifier. -/
def checkOuter (extent : Prop) [Decidable extent] (extentText : String) (tokenText terminalText : String)
    (bindingText : String) (tentative terminal : List Int) : Except Exn Unit := do
  throwIf (¬ extent) (.invalidArgument extentText)
  throwIf (¬ ∀ token ∈ tentative, InVocabulary token) (.invalidArgument tokenText)
  throwIf (¬ ∀ token ∈ terminal, InVocabulary token) (.invalidArgument terminalText)
  throwIf (o.tapConsumer = true ∧ ¬ o.tapBinding = true) (.invalidArgument bindingText)

def restoreRoot (root : HostState) : ContextM Unit :=
  if o.reuseResidentRoot = true then m.restoreExactHostStateIfNeeded root
  else m.restoreExactHostState root

/-- The root restored, then `try { body } catch (...) { ... }`: the handler tries `recovery`,
    whatever comes of it, and throws the failure again. -/
def guarded (root : HostState) (body : ContextM OuterResult) (recovery : ContextM Unit) : ContextM OuterResult := do
  m.restoreRoot o root
  tryCatch body fun failure => do
    tryCatch recovery fun _ => pure ()
    throw failure

/-- `exl3_outer_greedy_path`: the path, and the choice after its last row. -/
def outerGreedyPath (seed : Int) (rows : Nat) : ContextM (List Int × Int) := do
  let decisions ← m.continuationGreedy
  ofExcept (throwIf (decisions.length ≠ rows) (.runtimeError "outer nonfinite/invalid logits"))
  return (seed :: decisions.take (rows - 1), decisions.getLast?.getD (-1))

/-- `exact_tap_rows_host`, where taps are captured. -/
def captureHostTaps : ContextM Unit := whenever o.captureTaps m.observe

/-- `exl3_emit_committed_tap_segment`, where taps are captured or consumed. -/
def emitTapSegment (result : OuterResult) (rows logicalFirst destinationFirst attemptFirst attemptRows : Nat)
    (partitionFirst : Int) (partitionRows : Nat) (repair correction : Bool) : ContextM OuterResult := do
  if (o.captureTaps = true ∨ o.tapConsumer = true) ∧ 1 ≤ rows then
    let c ← get
    let result := { result with
      segments := result.segments ++
        [⟨(c.position : Int) - c.tapRows, 0, rows, logicalFirst, destinationFirst, attemptFirst,
          attemptRows, partitionFirst, partitionRows, repair, correction⟩] }
    whenever o.tapConsumer do
      ofExcept (throwIf (¬ o.tapBinding = true) (.invalidArgument "committed tap consumer missing source binding"))
      m.observe
    return result
  else return result

/-- The result with the state exported. -/
def exported (result : OuterResult) : ContextM OuterResult := do
  let state ← m.exportExactHostState
  return { result with committedState := some state }

/-! ## One row at a time -/

/-- The loop of `verify_exl3_outer_reference`. -/
def referenceLoop (root : HostState) (terminal : List Int) :
    List Int → OuterResult → ContextM OuterResult
  | [], result => return result
  | proposal :: tentative, result => do
    let authorized ← m.branchGreedy
    m.decode authorized
    m.captureHostTaps o
    let c ← get
    let committed := result.committedTokens.length
    let result ← m.emitTapSegment o result 1 (root.tokens.length + committed) committed
      (root.tokens.length + committed) 1 ((c.position : Int) - 1) 1 false false
    let result := { result with
      executedRows := result.executedRows + 1
      verificationRows := result.verificationRows + 1
      committedTokens := result.committedTokens ++ [authorized]
      rejected := if proposal = authorized then result.rejected else true
      accepted := if proposal = authorized then result.accepted + 1 else result.accepted
      stopped := decide (authorized ∈ terminal) }
    if result.rejected || result.stopped then return result
    else referenceLoop root terminal tentative result

/-- The block of `verify_exl3_outer_reference`. -/
def referenceBody (root : HostState) (tentative terminal : List Int) : ContextM OuterResult := do
  let result ← m.referenceLoop o root terminal tentative {}
  m.exported result

/-- `verify_exl3_outer_reference`. -/
def verifyReference (root : HostState) (tentative terminal : List Int) : ContextM OuterResult := do
  ofExcept (checkOuter o (1 ≤ tentative.length ∧ tentative.length ≤ 32)
    "outer reference requires 1..32 tentative tokens" "outer reference token extent"
    "outer terminal token extent" "outer reference tap consumer missing source binding"
    tentative terminal)
  m.guarded o root (m.referenceBody o root tentative terminal) (m.restoreExactHostState root)

/-! ## One block, with replay -/

/-- The W+1 row of a round that accepted everything. -/
def w1Bonus (result : OuterResult) (bonus : Int) (full : Bool) (what : String) : Except Exn OuterResult := do
  if o.w1 = true ∧ result.rejected = false ∧ result.stopped = false ∧ full = true then
    throwIf (¬ InVocabulary bonus) (.runtimeError what)
    return { result with pending := some bonus }
  else return result

/-- Replay of the committed tokens from the root. -/
def replay (tokens : List Int) : ContextM Unit :=
  match tokens with
  | [token] => m.decode token
  | tokens => m.continueRows tokens []

/-- The committed rows: their taps, and the state after them. -/
def batchedSettle (root : HostState) (attemptRows : Nat) (result : OuterResult) (repair : Bool) :
    ContextM OuterResult := do
  let committed := result.committedTokens.length
  m.captureHostTaps o
  let result ← m.emitTapSegment o result committed root.tokens.length 0 root.tokens.length
    attemptRows root.tokens.length committed repair false
  whenever (!repair || decide (1 < committed)) m.finishExactContinuation
  m.exported result

/-- The block of `verify_exl3_outer_batched_reference`. -/
def batchedBody (root : HostState) (tentative terminal : List Int) : ContextM OuterResult := do
  let authorized ← m.branchGreedy
  m.continueRows tentative []
  let (path, bonus) ← m.outerGreedyPath authorized tentative.length
  let decision ← ofExcept (decideOuterPrefix path tentative terminal)
  let result : OuterResult := { decision with
    executedRows := tentative.length, verificationRows := tentative.length }
  let committed := decision.committedTokens.length
  let repair := decision.rejected || decide (committed < tentative.length)
  let result ← ofExcept
    (w1Bonus o result bonus (!repair) "FAST_MIA_PARITY W+1 bonus extent")
  let result ← if repair then do
      m.restoreExactHostState root
      m.replay decision.committedTokens
      pure { result with
        executedRows := result.executedRows + committed
        replayRows := result.replayRows + committed }
    else pure result
  m.batchedSettle o root tentative.length result repair

/-- `verify_exl3_outer_batched_reference`. -/
def verifyBatched (root : HostState) (tentative terminal : List Int) : ContextM OuterResult := do
  ofExcept (checkOuter o (2 ≤ tentative.length ∧ tentative.length ≤ 8 ∧ tentative.length ≤ m.capacity)
    "outer batched reference requires prepared2..8rows" "outer batched token extent"
    "outer terminal token extent" "outer batched tap consumer missing source binding"
    tentative terminal)
  m.guarded o root (m.batchedBody o root tentative terminal) (m.restoreExactHostState root)

/-! ## One block, in a transaction -/

section
variable (root : HostState) (attemptRows : Nat) (result : OuterResult)

def stageTaps (rows destinationFirst : Nat) (repair correction : Bool) : ContextM OuterResult := do
  let c ← get
  m.emitTapSegment o result rows (root.tokens.length + destinationFirst) destinationFirst
    root.tokens.length attemptRows ((c.position : Int) - c.tapRows) c.tapRows repair correction

/-- The rejected branch of `verify_exl3_outer_checkpointed_reference`. -/
def checkpointedRejected (correction : Int) : ContextM OuterResult := do
  let accepted := result.accepted
  let result ← if 0 < accepted then do
      m.retainTransactionPrefix accepted
      m.captureHostTaps o
      m.stageTaps o root attemptRows result accepted 0 true false
    else do
      m.rollbackTransaction
      pure result
  m.decode correction
  let result := { result with replayRows := result.replayRows + 1 }
  m.captureHostTaps o
  let result ← m.stageTaps o root attemptRows result 1 accepted true true
  whenever (decide (0 < accepted)) m.commitTransaction
  return result

/-- The other branch. -/
def checkpointedAccepted : ContextM OuterResult := do
  let retained := result.committedTokens.length
  let truncated := decide (retained < attemptRows)
  whenever truncated (m.retainTransactionPrefix retained)
  m.captureHostTaps o
  let result ← m.stageTaps o root attemptRows result retained 0 truncated false
  m.commitTransaction
  let c ← get
  whenever (!c.rows.isEmpty) m.finishExactContinuation
  return result

end

/-- Rollback of the transaction, or the root again. -/
def rollbackOrRestore (root : HostState) : ContextM Unit := do
  let c ← get
  if c.transaction ≠ none then m.rollbackTransaction else m.restoreExactHostState root

/-- The block of `verify_exl3_outer_checkpointed_reference`. -/
def checkpointedBody (root : HostState) (tentative terminal : List Int) : ContextM OuterResult := do
  m.beginTransaction
  let authorized ← m.branchGreedy
  m.continueRows tentative []
  let (path, bonus) ← m.outerGreedyPath authorized tentative.length
  let decision ← ofExcept (decideOuterPrefix path tentative terminal)
  let result : OuterResult := { decision with verificationRows := tentative.length }
  let result ← ofExcept (w1Bonus o result bonus
    (!decide (decision.committedTokens.length < tentative.length))
    "FAST_MIA_PARITY W+1 bonus extent")
  let result ← if result.rejected then
      m.checkpointedRejected o root tentative.length result
        (result.committedTokens.getLast?.getD (-1))
    else m.checkpointedAccepted o root tentative.length result
  m.exported { result with executedRows := result.verificationRows + result.replayRows }

/-- `verify_exl3_outer_checkpointed_reference`. -/
def verifyCheckpointed (root : HostState) (tentative terminal : List Int) : ContextM OuterResult := do
  ofExcept (checkOuter o (2 ≤ tentative.length ∧ tentative.length ≤ 8 ∧
      tentative.length ≤ m.capacity ∧ m.prepared = true)
    "outer checkpointed reference requires prepared B2..B8 transaction"
    "outer checkpointed token extent" "outer checkpointed terminal token extent"
    "outer checkpointed tap binding" tentative terminal)
  m.guarded o root (m.checkpointedBody o root tentative terminal) (m.rollbackOrRestore root)

/-! ## Windows -/

def nativeWidth : Nat := if m.capacity = 16 then 16 else 8

/-- The rows of one window, and the greedy path of it. -/
def windowPath (window : List Int) : ContextM (List Int) := do
  let seed ← m.branchGreedy
  if window.length = 1 then
    m.decode seed
    return [seed]
  else
    m.continueRows window []
    let (path, _) ← m.outerGreedyPath seed window.length
    return path

/-- The first loop of `verify_exl3_outer_windowed_reference`, over the windows of the proposal.
    It returns whether a repair is needed. -/
def windowLoop (root : HostState) (terminal : List Int) :
    List (List Int) → Nat → OuterResult → ContextM (OuterResult × Bool)
  | [], _, result => return (result, false)
  | window :: windows, offset, result => do
    if result.stopped then return (result, false)
    let rows := window.length
    let path ← m.windowPath window
    let decision ← ofExcept (decideOuterPrefix path window terminal)
    let result : OuterResult := { result with
      verificationRows := result.verificationRows + rows
      accepted := result.accepted + decision.accepted
      committedTokens := result.committedTokens ++ decision.committedTokens
      rejected := decision.rejected
      stopped := decision.stopped }
    if decision.rejected || decide (decision.committedTokens.length < rows) then return (result, true)
    m.captureHostTaps o
    let result ← m.emitTapSegment o result rows (root.tokens.length + offset) offset
      (root.tokens.length + offset) rows (root.tokens.length + offset) rows false false
    whenever (decide (1 < rows)) m.finishExactContinuation
    windowLoop root terminal windows (offset + rows) result

/-- The second loop, over the windows of the committed tokens. -/
def repairLoop (root : HostState) (size : Nat) :
    List (List Int) → Nat → OuterResult → ContextM OuterResult
  | [], _, result => return result
  | window :: windows, offset, result => do
    let rows := window.length
    m.replay window
    m.captureHostTaps o
    let attemptOffset := offset / m.nativeWidth * m.nativeWidth
    let attemptRows := min m.nativeWidth (size - attemptOffset)
    let result ← m.emitTapSegment o result rows (root.tokens.length + offset) offset
      (root.tokens.length + attemptOffset) attemptRows (root.tokens.length + offset) rows true false
    whenever (decide (1 < rows)) m.finishExactContinuation
    repairLoop root size windows (offset + rows) { result with replayRows := result.replayRows + rows }

/-- The block of `verify_exl3_outer_windowed_reference`. -/
def windowedBody (root : HostState) (tentative terminal : List Int) : ContextM OuterResult := do
  let (result, repair) ← m.windowLoop o root terminal (chunks m.nativeWidth [] tentative) 0 {}
  let result ← if repair then do
      m.restoreExactHostState root
      m.repairLoop o root tentative.length (chunks m.nativeWidth [] result.committedTokens) 0
        { result with segments := [] }
    else pure result
  m.exported { result with executedRows := result.verificationRows + result.replayRows }

/-- `verify_exl3_outer_windowed_reference`. -/
def verifyWindowed (root : HostState) (tentative terminal : List Int) : ContextM OuterResult := do
  ofExcept (checkOuter o (2 ≤ tentative.length ∧ tentative.length ≤ 64 ∧ 8 ≤ m.capacity)
    "outer windowed reference requires prepared2..64rows" "outer windowed token extent"
    "outer windowed terminal token extent" "outer windowed tap consumer missing source binding"
    tentative terminal)
  m.guarded o root (m.windowedBody o root tentative terminal) (m.restoreExactHostState root)

end Machine

end VoidInfer.Exl3.Outer
