import VoidInfer.Exl3.DeviceRound
import VoidInfer.Exl3.DraftRing

/-
  Rounds of the draft and the exact context (`Exl3FastDeviceRound` of `exl3/fast_device_round.h`). A round proposes
  tokens with the draft, verifies them in the context, and adds the rows of what was committed to the draft's ring. It
  is made at once (`step`) or prepared first: then the context holds the candidate and the ring still ends at the root,
  until the ticket is settled or cancelled. A prepared round keeps host states of both (`preparePending`), or the
  context's transaction stays open (`prepareDevicePending`).

  What the draft proposes, the shape of the verification tree and whether a callback throws are arguments of a call.
  Times, the seed counters and the proposal in a result are left out.
-/

namespace VoidInfer.Exl3.Pending
open MonadExcept (ofExcept)

open Throwing Outer

/-! ## Data -/

/-- The bytes of the five tap planes for one row. -/
def rowBytes : Nat := 5 * 5120 * 2

def coherentPolicy : Nat := 0x434f484552454e54

/-- What a round is built on, and the settings it reads. -/
structure Device where
  machine : Machine
  draft : Draft
  maxContext : Nat
  self : Nat := 1
  acquisition : Nat := 1
  execution : Nat := 1
  requestGeneration : Nat := 0
  stream : Nat := 0
  reuseSeed : Bool := false
  deviceGreedy : Bool := true
  foldCorrection : Bool := true
  w1 : Bool := false
  deviceKv : Bool := true
  siblingCount : Nat := 6

structure Step where
  rootPosition : Nat
  width : Nat
  committedTokens : List Int := []
  verification : OuterResult := {}
  stagedBytes : Nat := 0
  authorizedReplayRows : Nat := 0
  terminal : Bool := false
  singleRow : Bool := false

/-- The result of a round at this root, before it ran. -/
def Step.from (rootPosition : Nat) (width : Int) : Step := { rootPosition, width := width.toNat }

structure Totals where
  rounds : Nat := 0
  verifiedRows : Nat := 0
  replayedRows : Nat := 0
  stagedBytes : Nat := 0

/-- `record_totals`. -/
def Totals.record (totals : Totals) (value : Step) : Totals :=
  let totals := { totals with stagedBytes := totals.stagedBytes + value.stagedBytes }
  if value.singleRow then { totals with replayedRows := totals.replayedRows + 1 }
  else { totals with
    verifiedRows := totals.verifiedRows + value.verification.verificationRows
    replayedRows := totals.replayedRows + (value.verification.replayRows + value.authorizedReplayRows)
    rounds := totals.rounds + 1 }

/-- The arguments of a round, and what the calls it makes return: the width its callback chooses,
    the tokens of the draft with the number of candidates behind them, the tree built from these
    (how many drafts it keeps, and its siblings), and what the callbacks throw. -/
structure Attempt where
  width : Int
  terminal : List Int := []
  chooseWidth : Option (Except Exn Int) := none
  drafted : Except Exn (List Int × Nat) := .ok ([], 0)
  tree : Nat × List (Nat × Int) := (0, [])
  beforeVerify : Option Exn := none
  afterVerify : Option Exn := none

/-- The two numerical owners, and the flags of `settle_device_pending`. -/
structure Owners where
  context : Context
  ring : DraftRing
  ringBeginAttempted : Bool := false
  ringUndoArmed : Bool := false
  irreversible : Bool := false

abbrev OwnersM := EStateM Exn Owners

def onContext {α : Type} (x : ContextM α) : OwnersM α := fun s =>
  match x s.context with
  | .ok a c => .ok a { s with context := c }
  | .error e c => .error e { s with context := c }

def onRing {α : Type} (x : RingM α) : OwnersM α := fun s =>
  match x s.ring with
  | .ok a r => .ok a { s with ring := r }
  | .error e r => .error e { s with ring := r }

/-- A callback that returns or throws. -/
def callback (failure : Option Exn) : OwnersM Unit :=
  match failure with
  | some e => throw e
  | none => pure ()

namespace Device

variable (d : Device)

/-- `check(poll_then_sync(stream_), ...)`. -/
def sync : OwnersM Unit := onContext d.machine.observe

/-- `copy_tap_row_to_device` of the five taps. -/
def copyTapRow : ContextM Unit := d.machine.observe

/-! ## Running a round -/

def runSingle (value : Step) (terminal : List Int) (deferred : Bool) : OwnersM Step := do
  let token ← onContext d.machine.branchGreedy
  onContext (d.machine.decode token)
  onContext d.copyTapRow
  whenever (!deferred) (onRing (d.draft.commitPrefillBlock 1 value.rootPosition))
  return { value with
    stagedBytes := rowBytes
    committedTokens := value.committedTokens ++ [token]
    singleRow := true
    terminal := decide (token ∈ terminal) }

/-- `bind_exl3_outer_device_seed`, where seeds are reused. -/
def boundSeed (binding : TapBinding) (token : Int) : OwnersM (Option SeedPacket) := do
  let s ← get
  ofExcept (throwIf (d.reuseSeed = true ∧
      ¬ (binding.ok = true ∧ binding.contextOwner = d.self ∧ binding.rootPosition = s.context.position ∧
        InVocabulary token))
    (.invalidArgument "device seed packet root/policy extent"))
  return if d.reuseSeed then
      some ⟨binding, d.requestGeneration, coherentPolicy, token, d.stream, d.deviceGreedy⟩
    else none

/-- The width of the round: the callback may choose a smaller one. -/
def chosenWidth (width : Nat) (choice : Option (Except Exn Int)) : Except Exn Nat :=
  match choice with
  | none => .ok width
  | some (.error e) => .error e
  | some (.ok selected) => do
    throwIf (selected < 2 ∨ width < selected) (.invalidArgument "fast device selected horizon")
    return selected.toNat

/-- `propose_cached_view`, and the extents of what it returns. -/
def proposed (width : Nat) (tree : Bool) (drafted : Except Exn (List Int × Nat)) : Except Exn (List Int) := do
  let (tokens, candidates) ← drafted
  throwIf (tokens.length ≠ width - 1 ∨ tree = true ∧ candidates ≠ tokens.length * 16)
    (.runtimeError "fast device round draft proposal extent")
  return tokens

/-- The rows to verify and the offsets of the siblings among them. -/
def layout (seed : Int) (drafts : List Int) (tree : Bool) (shape : Nat × List (Nat × Int)) : List Int × List Nat :=
  if tree then (seed :: (drafts.take shape.1 ++ shape.2.map Prod.snd), shape.2.map Prod.fst)
  else (seed :: drafts, [])

/-- The arguments of the verifier. -/
def options (binding : TapBinding) (seed : Option SeedPacket) (settlement : Settlement) : DeviceOptions where
  self := d.self
  requestGeneration := d.requestGeneration
  stream := d.stream
  tapBinding := some binding
  tapConsumer := true
  readySeed := seed
  numericalPolicy := if d.reuseSeed then coherentPolicy else 0
  settlement := settlement
  deviceGreedy := d.deviceGreedy
  foldCorrection := d.foldCorrection
  w1 := d.w1
  deviceKv := d.deviceKv

/-- The verification of a round, and the checks of its result. -/
def verified (value : Step) (a : Attempt) (options : DeviceOptions) (tentative : List Int)
    (offsets : List Nat) : OwnersM Step := do
  callback a.beforeVerify
  let result ← onContext (d.machine.verifyDeviceResident options tentative a.terminal offsets)
  callback a.afterVerify
  let s ← get
  let useful := result.committedTokens.length
  let staged := (result.segments.map (·.rows)).sum
  ofExcept (throwIf (useful = 0 ∨ tentative.length < useful ∨ staged ≠ useful ∨
      s.context.position ≠ value.rootPosition + useful)
    (.logicError "fast device round verified tap extent"))
  return { value with
    width := tentative.length
    verification := result
    committedTokens := result.committedTokens
    stagedBytes := staged * rowBytes
    terminal := result.stopped }

section
variable (value : Step) (rounds : Nat) (a : Attempt) (deferred : Bool) (settlement : Settlement)

def runBatch : OwnersM Step := do
  let binding : TapBinding := ⟨d.self, rounds + 1, value.rootPosition, d.acquisition, d.execution⟩
  let token ← onContext d.machine.branchGreedy
  let seed ← d.boundSeed binding token
  let width ← ofExcept (chosenWidth value.width a.chooseWidth)
  let s ← get
  whenever (deferred && s.context.transaction.isNone) (onContext d.machine.beginTransaction)
  let tree := deferred && decide (0 < d.siblingCount)
  let drafts ← ofExcept (proposed width tree a.drafted)
  let (tentative, offsets) := layout token drafts tree a.tree
  let value ← d.verified value a (d.options binding seed settlement) tentative offsets
  whenever (!deferred) (onRing (d.draft.commitPrefillBlock value.committedTokens.length value.rootPosition))
  return value

/-- A row alone, or a batch. -/
def runRound : OwnersM Step :=
  if value.width = 1 then d.runSingle value a.terminal deferred
  else d.runBatch value rounds a deferred settlement

end

/-! ## Going back, and replaying -/

/-- `restore_pending_root`, with what it reads. -/
def restoreOwners (root : Option HostState) (ring : Option HostRing) (frontier : Nat) : OwnersM Unit :=
  match root, ring with
  | some root, some ring => do
    onContext (d.machine.restoreExactHostState root)
    onRing (d.draft.restoreHostRing ring)
    d.sync
    let s ← get
    ofExcept (throwIf (s.context.position ≠ frontier ∨ s.ring.position ≠ frontier)
      (.logicError "fast device pending rollback frontier"))
  | _, _ => throw (.logicError "fast device pending root unavailable")

/-- `restore_device_pending_root`, with the frontier it reads. -/
def rollbackOwners (ringUndoArmed : Bool) (frontier : Nat) : OwnersM Unit := do
  whenever ringUndoArmed (onRing d.draft.rollbackPrefillRingUndo)
  let s ← get
  whenever s.context.transaction.isSome (onContext d.machine.rollbackTransaction)
  d.sync
  let s ← get
  ofExcept (throwIf (s.context.position ≠ frontier ∨ s.ring.position ≠ frontier)
    (.logicError "fast device numerical pending rollback frontier"))

/-- One row of a replay: the exact choice must be the token. -/
def replayRow (token : Int) : ContextM Unit := do
  let greedy ← d.machine.branchGreedy
  ofExcept (throwIf (greedy ≠ token) (.runtimeError "fast device pending prefix replay diverged"))
  d.machine.decode token
  d.copyTapRow

/-- The result for a shortened prefix. -/
def shortened (value : Step) (retained : Nat) (verification : OuterResult) : Step :=
  { value with
    committedTokens := value.committedTokens.take retained
    stagedBytes := retained * rowBytes
    authorizedReplayRows := retained
    verification }

/-- The frontend's prefix: a shorter one is replayed after `back`. -/
def retain (back : OwnersM Unit) (verification : OuterResult) (value : Step) (retained : Nat) : OwnersM Step :=
  if retained < value.committedTokens.length then do
    back
    onContext ((value.committedTokens.take retained).forM d.replayRow)
    return shortened value retained verification
  else return value

/-- Whether the last token ends the request. -/
def ends (value : Step) (terminal : List Int) : Bool :=
  value.committedTokens.getLast?.any (· ∈ terminal)

/-- The part of `settle_pending` on the owners. -/
def settleOwners (root : Option HostState) (ring : Option HostRing) (frontier : Nat) (value : Step)
    (terminal : List Int) (retained : Nat) (publish : Option Exn) : OwnersM Step := do
  let value ← d.retain (d.restoreOwners root ring frontier) value.verification value retained
  onRing (d.draft.commitPrefillBlock retained value.rootPosition)
  d.sync
  let s ← get
  ofExcept (throwIf (s.context.position ≠ value.rootPosition + retained ∨
      s.ring.position ≠ s.context.position)
    (.logicError "fast device pending settlement frontier"))
  callback publish
  return { value with terminal := ends value terminal }

/-- The transaction again, from its root. -/
def reopen : OwnersM Unit := do
  onContext d.machine.rollbackTransaction
  onContext d.machine.beginTransaction

/-- The rows of the settled prefix in the ring, to be undone or accepted. -/
def admitRows (value : Step) (retained : Nat) : OwnersM Unit := do
  modify fun s => { s with ringBeginAttempted := true }
  onRing (d.draft.beginPrefillRingUndo retained value.rootPosition)
  modify fun s => { s with ringUndoArmed := true }
  onRing (d.draft.commitPrefillBlock retained value.rootPosition)
  d.sync
  let s ← get
  ofExcept (throwIf (s.ring.position ≠ s.context.position) (.logicError "fast device pending ring frontier"))

/-- The point of no return. -/
def acceptRows : OwnersM Unit := do
  modify fun s => { s with irreversible := true }
  onRing d.draft.acceptPrefillRingUndo
  modify fun s => { s with ringUndoArmed := false }
  onContext d.machine.commitTransaction
  let s ← get
  whenever (!s.context.rows.isEmpty) (onContext d.machine.finishExactContinuation)
  d.sync

/-- The part of `settle_device_pending` on the owners. -/
def settleDeviceOwners (value : Step) (terminal : List Int) (retained : Nat) (beforeCommit : Option Exn) :
    OwnersM Step := do
  let value ← d.retain d.reopen { value.verification with pending := none } value retained
  let s ← get
  ofExcept (throwIf (s.context.transaction = none ∨
      s.context.position ≠ value.rootPosition + retained ∨ s.ring.position ≠ value.rootPosition)
    (.logicError "fast device pending selected frontier"))
  d.admitRows value retained
  callback beforeCommit
  d.acceptRows
  return { value with terminal := ends value terminal }

end Device

/-! ## The round -/

inductive Phase
  | unstarted | ready | executing | pending | devicePending | poisoned | closed
deriving DecidableEq

/-- `Exl3FastDeviceRound`. -/
structure Round where
  owners : Owners
  phase : Phase := .unstarted
  frontier : Nat := 0
  pendingTicket : Nat := 0
  pending : Option Step := none
  pendingRoot : Option HostState := none
  pendingRing : Option HostRing := none
  pendingTerminal : List Int := []
  devicePending : Option Step := none
  devicePendingTerminal : List Int := []
  totals : Totals := {}

abbrev RoundM := EStateM Exn Round

/-- A part of a call that changes the owners only. -/
def onOwners {α : Type} (x : OwnersM α) : RoundM α := fun r =>
  match x r.owners with
  | .ok a s => .ok a { r with owners := s }
  | .error e s => .error e { r with owners := s }

namespace Round

/-- A round on a new context and draft. -/
def new : Round where
  owners := { context := { resident_ok := by simp }, ring := {} }

def inPhase (r : Round) (phase : Phase) : Round := { r with phase }

def clearPending (r : Round) : Round :=
  { r with pending := none, pendingRoot := none, pendingRing := none, pendingTerminal := [] }

def clearDevicePending (r : Round) : Round := { r with devicePending := none, devicePendingTerminal := [] }

/-- `frontier_` and the totals after a settled round. -/
def settled (r : Round) (value : Step) : Round :=
  { r with
    frontier := r.owners.context.position
    totals := r.totals.record value
    phase := if value.terminal then .closed else .ready }

/-- The host state that an export returned. -/
def hostState (state : List Int × List Int) (id : Nat) : Option HostState :=
  if h : state.1 ≠ [] ∧ state.2 = state.1 then some ⟨id, state.1, h.1⟩ else none

end Round

namespace Device

variable (d : Device)

def requireReadyWidth (width : Int) : RoundM Unit := do
  let r ← get
  ofExcept do
    throwIf (r.phase ≠ .ready) (.logicError "fast device round not ready")
    throwIf (width < 1 ∨ 8 < width ∨ (d.maxContext : Int) - r.owners.context.position < width)
      (.invalidArgument "fast device round width/capacity")
    throwIf (r.owners.context.position ≠ r.frontier ∨ r.owners.ring.position ≠ r.frontier)
      (.logicError "fast device round frontier changed")

/-- `phase_=Phase::executing; try { body } catch(...) { ... }`: the handler goes back to the root
    and is ready again, or poisons the round, and throws the failure again. -/
def guarded {α : Type} (body : RoundM α) (back : RoundM Unit) (ready poison : Round → Round) : RoundM α := do
  modify (·.inPhase .executing)
  tryCatch body fun failure => do
    tryCatch (do
      back
      modify fun r => (ready r).inPhase .ready) fun _ => modify fun r => (poison r).inPhase .poisoned
    throw failure

def restorePendingRoot : RoundM Unit := do
  let r ← get
  onOwners (d.restoreOwners r.pendingRoot r.pendingRing r.frontier)

/-- The ticket for the next prepared round. -/
def requireTicketLeft : RoundM Unit := do
  let r ← get
  ofExcept (throwIf (r.pendingTicket = uint64Max) (.overflowError "fast device pending ticket exhausted"))

def prepareBody (a : Attempt) : RoundM (Nat × Step) := do
  let state ← onOwners (onContext d.machine.exportExactHostState)
  modify fun r => { r with pendingRoot := Round.hostState state r.pendingTicket }
  let ring ← onOwners (onRing d.draft.exportHostRing)
  modify fun r => { r with pendingRing := some ring }
  let r ← get
  ofExcept (throwIf (¬ r.pendingRoot.any (·.tokens.length = r.frontier) = true ∨ ring.position ≠ r.frontier)
    (.logicError "fast device pending root snapshot frontier"))
  let value ← onOwners (d.runRound (.from r.frontier a.width) r.totals.rounds a true .eager)
  let r ← get
  ofExcept (throwIf (value.committedTokens = [] ∨
      r.owners.context.position ≠ r.frontier + value.committedTokens.length ∨
      r.owners.ring.position ≠ r.frontier)
    (.logicError "fast device pending candidate frontier"))
  modify fun r => { r with
    pendingTerminal := a.terminal
    pending := some value
    pendingTicket := r.pendingTicket + 1
    phase := .pending }
  return (r.pendingTicket + 1, value)

def preparePending (a : Attempt) : RoundM (Nat × Step) := do
  d.requireReadyWidth a.width
  requireTicketLeft
  guarded (d.prepareBody a) d.restorePendingRoot Round.clearPending id

/-- `require_pending_ticket`; the candidate. -/
def requirePendingTicket (ticket : Nat) : RoundM Step := do
  let r ← get
  match r.pending with
  | some value =>
    ofExcept (throwIf (r.phase ≠ .pending ∨ ticket = 0 ∨ ticket ≠ r.pendingTicket ∨
        r.pendingRoot = none ∨ r.pendingRing = none)
      (.logicError "fast device pending ticket unavailable"))
    return value
  | none => throw (.logicError "fast device pending ticket unavailable")

/-- The prefix is one of the candidate. -/
def requireRetained (value : Step) (retained : Nat) : RoundM Unit :=
  ofExcept (throwIf (retained = 0 ∨ value.committedTokens.length < retained)
    (.invalidArgument "fast device pending retained extent"))

def settleBody (value : Step) (retained : Nat) (publish : Option Exn) : RoundM Step := do
  let r ← get
  let value ← onOwners (d.settleOwners r.pendingRoot r.pendingRing r.frontier value r.pendingTerminal retained publish)
  modify fun r => (r.settled value).clearPending
  return value

def settlePending (ticket retained : Nat) (publish : Option Exn) : RoundM Step := do
  let value ← requirePendingTicket ticket
  requireRetained value retained
  guarded (d.settleBody value retained publish) d.restorePendingRoot Round.clearPending id

/-- `phase_=Phase::executing; try { body } catch(...) { phase_=Phase::poisoned; throw; }`. -/
def poisoning {α : Type} (body : RoundM α) (poison : Round → Round) : RoundM α := do
  modify (·.inPhase .executing)
  tryCatch body fun failure => do
    modify fun r => (poison r).inPhase .poisoned
    throw failure

def cancelPending (ticket : Nat) : RoundM Unit := do
  let _ ← requirePendingTicket ticket
  poisoning (do
    d.restorePendingRoot
    modify fun r => r.clearPending.inPhase .ready) id

/-! ## With the transaction left open -/

def restoreDevicePendingRoot (ringUndoArmed : Bool) : RoundM Unit := do
  let r ← get
  onOwners (d.rollbackOwners ringUndoArmed r.frontier)

/-- A row alone in a transaction, or a batch that leaves its own open. -/
def runDeferred (value : Step) (rounds : Nat) (a : Attempt) : OwnersM Step := do
  whenever (decide (value.width = 1)) (onContext d.machine.beginTransaction)
  d.runRound value rounds a true .deferTargetCommit

def prepareDeviceBody (a : Attempt) : RoundM (Nat × Step) := do
  let r ← get
  let value ← onOwners (d.runDeferred (.from r.frontier a.width) r.totals.rounds a)
  let r ← get
  ofExcept (throwIf (value.committedTokens = [] ∨ value.width < value.committedTokens.length ∨
      r.owners.context.transaction = none ∨
      r.owners.context.position ≠ r.frontier + value.committedTokens.length ∨
      r.owners.ring.position ≠ r.frontier)
    (.logicError "fast device pending candidate frontier"))
  modify fun r => { r with
    devicePendingTerminal := a.terminal
    devicePending := some value
    pendingTicket := r.pendingTicket + 1
    phase := .devicePending }
  return (r.pendingTicket + 1, value)

/-- The extra conditions of `prepare_device_pending`. -/
def requireDevicePending : RoundM Unit := do
  let r ← get
  ofExcept (throwIf (r.owners.ring.count ≠ ringKeep ∨ d.machine.prepared = false ∨
      r.owners.context.transaction ≠ none ∨ d.deviceGreedy = false)
    (.logicError "fast device pending requires saturated ring, prepared transaction and device greedy"))

def prepareDevicePending (a : Attempt) : RoundM (Nat × Step) := do
  d.requireReadyWidth a.width
  d.requireDevicePending
  requireTicketLeft
  guarded (d.prepareDeviceBody a) (d.restoreDevicePendingRoot false) Round.clearDevicePending Round.clearDevicePending

/-- `require_device_pending_ticket`; the candidate. -/
def requireDevicePendingTicket (ticket : Nat) : RoundM Step := do
  let r ← get
  match r.devicePending with
  | some value =>
    ofExcept (throwIf (r.phase ≠ .devicePending ∨ ticket = 0 ∨ ticket ≠ r.pendingTicket ∨
        r.owners.context.transaction = none)
      (.logicError "fast device numerical pending ticket unavailable"))
    return value
  | none => throw (.logicError "fast device numerical pending ticket unavailable")

def settleDeviceBody (value : Step) (retained : Nat) (beforeCommit : Option Exn) : RoundM Step := do
  modify fun r => { r with owners := { r.owners with
    ringBeginAttempted := false, ringUndoArmed := false, irreversible := false } }
  let r ← get
  let value ← onOwners (d.settleDeviceOwners value r.devicePendingTerminal retained beforeCommit)
  modify fun r => (r.settled value).clearDevicePending
  return value

/-- The handler of `settle_device_pending`: no way back once the ring admitted the rows. -/
def undoDevicePending : RoundM Unit := do
  let r ← get
  ofExcept (throwIf (r.owners.irreversible = true ∨
      (r.owners.ringBeginAttempted = true ∧ r.owners.ringUndoArmed = false))
    (.logicError "fast device pending cannot prove rollback after ring admission"))
  d.restoreDevicePendingRoot r.owners.ringUndoArmed

def settleDevicePending (ticket retained : Nat) (beforeCommit : Option Exn) : RoundM Step := do
  let value ← requireDevicePendingTicket ticket
  requireRetained value retained
  guarded (d.settleDeviceBody value retained beforeCommit) d.undoDevicePending Round.clearDevicePending
    Round.clearDevicePending

def cancelDevicePending (ticket : Nat) : RoundM Unit := do
  let _ ← requireDevicePendingTicket ticket
  poisoning (do
    d.restoreDevicePendingRoot false
    modify fun r => r.clearDevicePending.inPhase .ready) Round.clearDevicePending

/-! ## The other calls -/

/-- `begin_fresh`: the whole prompt, here in one call. -/
def beginFresh (input : List Int) : RoundM Unit := do
  let r ← get
  ofExcept do
    throwIf (r.phase ≠ .unstarted) (.logicError "fast device fresh request already began")
    throwIf (r.owners.context.position ≠ 0 ∨ input = [] ∨ d.maxContext < input.length)
      (.invalidArgument "fast device fresh input extent")
  poisoning (do
    onOwners (onRing d.draft.reset)
    onOwners (onContext (d.machine.attempt fun c => c.put input input [] [] 1))
    onOwners (onRing (d.draft.attempt (fun _ ring => ring) fun ring =>
      { DraftRing.fresh 0 input.length with clock := ring.clock }))
    onOwners d.sync
    modify (·.inPhase .unstarted)) id

def beginPrefilled : RoundM Unit := do
  let r ← get
  ofExcept (throwIf (r.phase ≠ .unstarted) (.logicError "fast device round already began"))
  poisoning (do
    modify fun r => { r with frontier := r.owners.context.position }
    let r ← get
    ofExcept (throwIf (r.frontier = 0 ∨ r.owners.ring.count = 0 ∨ r.owners.ring.position ≠ r.frontier)
      (.invalidArgument "fast device round prefill frontier"))
    onOwners (onContext d.machine.observe)
    modify (·.inPhase .ready)) id

def step (a : Attempt) : RoundM Step := do
  d.requireReadyWidth a.width
  poisoning (do
    let r ← get
    let value ← onOwners (d.runRound (.from r.frontier a.width) r.totals.rounds a false .eager)
    let r ← get
    ofExcept (throwIf (value.committedTokens = [] ∨
        r.owners.context.position ≠ value.rootPosition + value.committedTokens.length ∨
        r.owners.ring.position ≠ r.owners.context.position)
      (.logicError "fast device round settlement frontier"))
    let value := { value with terminal := value.terminal || ends value a.terminal }
    modify fun r => r.settled value
    return value) id

def finish : RoundM Unit := do
  let r ← get
  ofExcept (throwIf (r.phase ≠ .ready ∧ r.phase ≠ .closed) (.logicError "fast device round cannot finish"))
  tryCatch (do
    onOwners d.sync
    let r ← get
    ofExcept (throwIf (r.owners.context.position ≠ r.frontier ∨ r.owners.ring.position ≠ r.frontier)
      (.logicError "fast device round final frontier"))
    modify (·.inPhase .closed)) fun failure => do
    modify (·.inPhase .poisoned)
    throw failure

/-- What a call throws, if anything. -/
def caught (x : OwnersM Unit) : OwnersM (Option Exn) :=
  tryCatch (do x; return none) fun failure => return some failure

/-- `reset`: both owners are reset, whatever the first one throws. -/
def reset : RoundM Unit := do
  let r ← get
  ofExcept (throwIf (r.phase = .executing) (.logicError "fast device round executing reset"))
  modify (·.inPhase .poisoned)
  let first ← onOwners (caught (onContext d.machine.reset))
  let second ← onOwners (caught (onRing d.draft.reset))
  match first, second with
  | none, none =>
    modify fun r => { r.clearPending.clearDevicePending with frontier := 0, totals := {}, phase := .unstarted }
  | some failure, _ => throw failure
  | none, some failure => throw failure

end Device

/-! ## Runs -/

/-- The calls of a caller. -/
inductive Call
  | beginFresh (input : List Int)
  | beginPrefilled
  | preparePending (a : Attempt)
  | settlePending (ticket retained : Nat) (publish : Option Exn)
  | cancelPending (ticket : Nat)
  | prepareDevicePending (a : Attempt)
  | settleDevicePending (ticket retained : Nat) (beforeCommit : Option Exn)
  | cancelDevicePending (ticket : Nat)
  | step (a : Attempt)
  | finish
  | reset

/-- What a call returns. -/
inductive Answer
  | done
  | prepared (ticket : Nat) (candidate : Step)
  | settled (value : Step)

def Device.call (d : Device) : Call → RoundM Answer
  | .beginFresh input => do d.beginFresh input; return .done
  | .beginPrefilled => do d.beginPrefilled; return .done
  | .preparePending a => do
    let (ticket, candidate) ← d.preparePending a
    return .prepared ticket candidate
  | .settlePending ticket retained publish => return .settled (← d.settlePending ticket retained publish)
  | .cancelPending ticket => do d.cancelPending ticket; return .done
  | .prepareDevicePending a => do
    let (ticket, candidate) ← d.prepareDevicePending a
    return .prepared ticket candidate
  | .settleDevicePending ticket retained beforeCommit =>
    return .settled (← d.settleDevicePending ticket retained beforeCommit)
  | .cancelDevicePending ticket => do d.cancelDevicePending ticket; return .done
  | .step a => return .settled (← d.step a)
  | .finish => do d.finish; return .done
  | .reset => do d.reset; return .done

/-- One call of a run: the round before and after it, and how it ended. -/
structure Event where
  call : Call
  before : Round
  result : Except Exn Answer
  after : Round

def Device.event (d : Device) (r : Round) (call : Call) : Event :=
  match d.call call r with
  | .ok answer r' => ⟨call, r, .ok answer, r'⟩
  | .error e r' => ⟨call, r, .error e, r'⟩

/-- The calls of a run, one after the other; the caller goes on after an exception. -/
def Device.events (d : Device) : Round → List Call → List Event
  | _, [] => []
  | r, call :: calls => d.event r call :: d.events (d.event r call).after calls

end VoidInfer.Exl3.Pending
