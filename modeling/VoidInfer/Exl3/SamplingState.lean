import VoidInfer.Base
import VoidInfer.Lib.Throwing

/-
  The random numbers of a request (`exl3/request_sampling_state.h`) and the tentative sampling window over them
  (`exl3/sampling_window_transaction.h`). A transaction draws from a counter of its own, which starts at the committed
  one; only a commit moves the committed counter.

  Two worlds run this code. In the first, any code holds transactions of any objects, copies them and calls the objects
  with them. In the second, the windows of one object run: a window keeps its transaction to itself. Each records what
  its calls did (transactions begun, claimed and finished; tokens published).
-/

namespace VoidInfer.Exl3.Sampling
open MonadExcept (ofExcept)

/-! ## The request's state -/

/-- `std::shared_ptr<const void>`: the pointer and what owns it, 0 if there is none. -/
structure Revision where
  get : Nat := 0
  owner : Nat := 0
deriving DecidableEq

/-- What the constructor takes, and checks. -/
structure Identity where
  engineEpoch : UInt64
  requestGeneration : UInt64
  inputFingerprint : UInt64
  seed : UInt64
  nonzero : engineEpoch ≠ 0 ∧ requestGeneration ≠ 0 ∧ inputFingerprint ≠ 0

/-- `Exl3RequestSamplingState`. -/
structure RequestState where
  id : Identity
  acquisition : Nat := 0
  committedCounter : Nat := 0
  nextNonce : Nat := 1
  activeNonce : Nat := 0
  committedPrefix : Nat := 0
  rootRevision : Revision := {}
  cancelled : Bool := false

/-- `Transaction`. An object is known by its number. -/
structure Transaction where
  owner : Option Nat := none
  nonce : Nat := 0
  acquisition : Nat := 0
  baseCounter : Nat := 0
  tentativeCounter : Nat := 0
  acceptedPrefix : Nat := 0
  rootRevision : Revision := {}
  publicationClaimed : Bool := false

def splitmix (value : UInt64) : UInt64 :=
  let value := value + 0x9e3779b97f4a7c15
  let value := (value ^^^ (value >>> 30)) * 0xbf58476d1ce4e5b9
  let value := (value ^^^ (value >>> 27)) * 0x94d049bb133111eb
  value ^^^ (value >>> 31)

/-- The random value at a counter. -/
def Identity.value (id : Identity) (counter : Nat) : UInt64 :=
  splitmix (id.seed ^^^ id.inputFingerprint ^^^ id.requestGeneration ^^^ UInt64.ofNat counter)

/-- `finish`, on the transaction. -/
def Transaction.finish (t : Transaction) : Transaction :=
  { t with owner := none, nonce := 0, publicationClaimed := false, rootRevision := {} }

namespace RequestState

/-- `require_current`, on object `self`. -/
def requireCurrent (self : Nat) (s : RequestState) (t : Transaction)
    (allowClaimedCancellation : Bool) : Except Exn Unit :=
  throwIf ((s.cancelled = true ∧ ¬ (allowClaimedCancellation = true ∧ t.publicationClaimed = true)) ∨
      t.owner ≠ some self ∨ s.activeNonce = 0 ∨ t.nonce ≠ s.activeNonce ∨
      t.acquisition ≠ s.acquisition ∨ t.rootRevision ≠ s.rootRevision)
    (.logicError "stale or foreign sampling transaction")

def bindAcquisition (s : RequestState) (acquisition : Nat) (rootRevision : Revision)
    (acceptedPrefix : Nat) : Except Exn RequestState := do
  throwIf (s.cancelled = true ∨ acquisition = 0 ∨ rootRevision.get = 0 ∨ rootRevision.owner = 0 ∨
    s.activeNonce ≠ 0) (.invalidArgument "sampling acquisition binding")
  return { s with acquisition, rootRevision, committedPrefix := acceptedPrefix }

section
variable (self : Nat) (s : RequestState)

def begin (acceptedPrefix : Nat) : Except Exn (Transaction × RequestState) := do
  throwIf (s.cancelled = true ∨ s.acquisition = 0 ∨ s.rootRevision.get = 0 ∨ s.activeNonce ≠ 0 ∨
    s.nextNonce = 0 ∨ acceptedPrefix ≠ s.committedPrefix)
    (.logicError "sampling transaction unavailable")
  return ({ owner := some self, nonce := s.nextNonce, acquisition := s.acquisition,
            baseCounter := s.committedCounter, tentativeCounter := s.committedCounter,
            acceptedPrefix, rootRevision := s.rootRevision },
    { s with activeNonce := s.nextNonce, nextNonce := (s.nextNonce + 1) % 2 ^ 64 })

def draw (t : Transaction) : Except Exn (UInt64 × Transaction) := do
  s.requireCurrent self t false
  throwIf (t.tentativeCounter = uint64Max) (.overflowError "sampling counter exhausted")
  return (s.id.value t.tentativeCounter, { t with tentativeCounter := t.tentativeCounter + 1 })

def claimPublication (t : Transaction) : Except Exn Transaction := do
  s.requireCurrent self t false
  throwIf (t.publicationClaimed = true) (.logicError "sampling publication already claimed")
  return { t with publicationClaimed := true }

def commit (t : Transaction) (drawsToCommit acceptedPrefix : Nat)
    (newRootRevision : Revision) : Except Exn (Transaction × RequestState) := do
  s.requireCurrent self t true
  let tentative := t.tentativeCounter - t.baseCounter
  throwIf (¬ t.publicationClaimed = true ∨ tentative < drawsToCommit ∨
      acceptedPrefix < t.acceptedPrefix ∨ newRootRevision.get = 0 ∨ newRootRevision.owner = 0 ∨
      uint64Max - s.committedCounter < drawsToCommit)
    (.invalidArgument "sampling transaction commit extent")
  return (t.finish, { s with
      committedCounter := s.committedCounter + drawsToCommit
      committedPrefix := acceptedPrefix
      rootRevision := newRootRevision
      activeNonce := 0 })

def rollback (t : Transaction) : Except Exn (Transaction × RequestState) := do
  s.requireCurrent self t t.publicationClaimed
  return (t.finish, { s with activeNonce := 0 })

end

def advanceForcedControl (s : RequestState) (tokens : Nat) (newRootRevision : Revision)
    (residentCommitted : Bool) : Except Exn RequestState := do
  throwIf (¬ residentCommitted = true ∨ tokens = 0 ∨ s.acquisition = 0 ∨ s.activeNonce ≠ 0 ∨
      newRootRevision.get = 0 ∨ newRootRevision.owner = 0 ∨ sizeMax - s.committedPrefix < tokens)
    (.invalidArgument "forced control sampling-state advancement")
  return { s with committedPrefix := s.committedPrefix + tokens, rootRevision := newRootRevision }

end RequestState

/-! ## Transactions in any hands -/

/-- Objects, and the transactions that some code holds. `begun`, `claimed` and `finished` record object and nonce of
    each `begin`, `claim_publication`, and `commit` or `rollback` that succeeded. -/
structure Holders where
  objects : List RequestState
  held : List Transaction := []
  begun : List (Nat × Nat) := []
  claimed : List (Nat × Nat) := []
  finished : List (Nat × Nat) := []

/-- A call of object `o`. -/
inductive ObjectCall where
  | bind (acquisition : Nat) (rootRevision : Revision) (acceptedPrefix : Nat)
  | advance (tokens : Nat) (newRootRevision : Revision) (residentCommitted : Bool)
  | cancel
  | begin (acceptedPrefix : Nat)

/-- A call of object `o` with a transaction. -/
inductive HolderCall where
  | draw
  | claim
  | commit (drawsToCommit acceptedPrefix : Nat) (newRootRevision : Revision)
  | rollback

inductive HolderEvent where
  | object (o : Nat) (call : ObjectCall)
  | copy (i : Nat)
  | call (o i : Nat) (call : HolderCall)

namespace Holders

/-- A call with transaction `i` of object `o`. -/
def transact (w : Holders) (o i : Nat) (s : RequestState) (t : Transaction) :
    HolderCall → Except Exn Holders
  | .draw => do
    let (_, t') ← s.draw o t
    return { w with held := w.held.set i t' }
  | .claim => do
    let t' ← s.claimPublication o t
    return { w with held := w.held.set i t', claimed := w.claimed ++ [(o, t.nonce)] }
  | .commit drawsToCommit acceptedPrefix newRootRevision => do
    let (t', s') ← s.commit o t drawsToCommit acceptedPrefix newRootRevision
    return { w with
      objects := w.objects.set o s'
      held := w.held.set i t'
      finished := w.finished ++ [(o, t.nonce)] }
  | .rollback => do
    let (t', s') ← s.rollback o t
    return { w with
      objects := w.objects.set o s'
      held := w.held.set i t'
      finished := w.finished ++ [(o, t.nonce)] }

def onObject (w : Holders) (o : Nat) (s : RequestState) : ObjectCall → Except Exn Holders
  | .bind acquisition rootRevision acceptedPrefix => do
    let s' ← s.bindAcquisition acquisition rootRevision acceptedPrefix
    return { w with objects := w.objects.set o s' }
  | .advance tokens newRootRevision residentCommitted => do
    let s' ← s.advanceForcedControl tokens newRootRevision residentCommitted
    return { w with objects := w.objects.set o s' }
  | .cancel => return { w with objects := w.objects.set o { s with cancelled := true } }
  | .begin acceptedPrefix => do
    let (t, s') ← s.begin o acceptedPrefix
    return { w with
      objects := w.objects.set o s'
      held := w.held ++ [t]
      begun := w.begun ++ [(o, t.nonce)] }

/-- A call that throws changes nothing here. -/
def step (w : Holders) : HolderEvent → Holders
  | .object o call =>
    match w.objects[o]? with
    | some s => (w.onObject o s call).toOption.getD w
    | none => w
  | .copy i =>
    match w.held[i]? with
    | some t => { w with held := w.held ++ [t] }
    | none => w
  | .call o i call =>
    match w.objects[o]?, w.held[i]? with
    | some s, some t => (w.transact o i s t call).toOption.getD w
    | _, _ => w

/-- New objects, and then these calls. -/
def run (ids : List Identity) (events : List HolderEvent) : Holders :=
  events.foldl step { objects := ids.map fun id => { id } }

end Holders

/-! ## Windows -/

/-- No vector is larger than the address space. -/
def addressSpace : Nat := 2 ^ 57

/-- `Exl3SamplingWindowTransaction`. `openedAfter` and `offered` record the tokens published before it, as the draws of
    each, and the values it gave: position, place among the draws of that position, value. -/
structure Window where
  acceptedPrefix : Nat
  maximumTokens : Nat
  decisions : List Nat := []
  transaction : Transaction
  active : Bool := true
  pendingProposal : Bool := false
  pendingAcceptance : Bool := false
  sealed : Bool := false
  publicationClaimed : Bool := false
  destroyed : Bool := false
  openedAfter : List Nat := []
  offered : List (Nat × Nat × UInt64) := []

/-- The object a window works on, the window, and the tokens published so far. -/
structure Session where
  state : RequestState
  window : Window
  published : List Nat

abbrev WindowM := EStateM Exn Session

namespace Window

def prepareDecisions (acceptedPrefix maximumTokens : Nat) : Except Exn Unit := do
  throwIf (maximumTokens = 0 ∨ sizeMax - acceptedPrefix < maximumTokens)
    (.invalidArgument "sampling window requires output capacity")
  throwIf (addressSpace < maximumTokens) .badAlloc

def setWindow (f : Window → Window) : WindowM Unit :=
  modify fun σ => { σ with window := f σ.window }

def requireActive : WindowM Unit := do
  let σ ← get
  ofExcept (throwIf (¬ σ.window.active = true) (.logicError "sampling window inactive"))

def requireOpen : WindowM Unit := do
  requireActive
  let σ ← get
  ofExcept (throwIf (σ.window.sealed = true) (.logicError "sampling window already sealed"))

def requirePending : WindowM Unit := do
  requireOpen
  let σ ← get
  ofExcept (throwIf (¬ σ.window.pendingAcceptance = true) (.logicError "sampling acceptance draw missing"))

/-- `state_->draw(transaction_)`, draw `place` of the position at hand. -/
def draw (self place : Nat) : WindowM UInt64 := do
  let σ ← get
  let (value, t) ← ofExcept (σ.state.draw self σ.window.transaction)
  setWindow fun w => { w with
    transaction := t
    offered := w.offered ++ [(w.decisions.length, place, value)] }
  return value

def drawProposal (self : Nat) : WindowM UInt64 := do
  requireOpen
  let σ ← get
  ofExcept (throwIf (σ.window.pendingProposal = true ∨
      σ.window.pendingAcceptance = true ∨ σ.window.maximumTokens ≤ σ.window.decisions.length)
    (.logicError "sampling proposal draw ordering"))
  setWindow fun w => { w with pendingProposal := true }
  draw self 0

def drawAcceptance (self : Nat) : WindowM UInt64 := do
  requireOpen
  let σ ← get
  ofExcept (throwIf (¬ σ.window.pendingProposal = true ∨
      σ.window.pendingAcceptance = true) (.logicError "sampling acceptance draw ordering"))
  setWindow fun w => { w with pendingAcceptance := true }
  draw self 1

def acceptProposal : WindowM Unit := do
  requirePending
  setWindow fun w => { w with
    decisions := w.decisions ++ [2], pendingProposal := false, pendingAcceptance := false }

def rejectAndDrawCorrection (self : Nat) : WindowM UInt64 := do
  requirePending
  let correction ← draw self 2
  setWindow fun w => { w with
    decisions := w.decisions ++ [3], pendingProposal := false, pendingAcceptance := false
    sealed := true }
  return correction

def sealStopBoundary : WindowM Unit := do
  requireOpen
  let σ ← get
  ofExcept (throwIf (σ.window.pendingProposal = true ∨ σ.window.pendingAcceptance = true)
    (.logicError "stop during incomplete sampling decision"))
  setWindow fun w => { w with sealed := true }

def claimPublication (self : Nat) : WindowM Unit := do
  requireActive
  let σ ← get
  ofExcept (throwIf (σ.window.pendingProposal = true ∨ σ.window.pendingAcceptance = true)
    (.logicError "sampling publication has incomplete decision"))
  let t ← ofExcept (σ.state.claimPublication self σ.window.transaction)
  setWindow fun w => { w with transaction := t, publicationClaimed := true }

def commit (self publishedTokens : Nat) (newRootRevision : Revision) : WindowM Unit := do
  requireActive
  let σ ← get
  ofExcept (throwIf (¬ σ.window.publicationClaimed = true ∨
      σ.window.pendingProposal = true ∨ σ.window.pendingAcceptance = true ∨
      σ.window.decisions.length < publishedTokens)
    (.invalidArgument "sampling publication extent"))
  let committedDraws := (σ.window.decisions.take publishedTokens).sum % 2 ^ 64
  let (t, s) ← ofExcept (σ.state.commit self σ.window.transaction committedDraws
    (σ.window.acceptedPrefix + publishedTokens) newRootRevision)
  modify fun σ =>
    { state := s
      window := { σ.window with transaction := t, active := false }
      published := σ.published ++ σ.window.decisions.take publishedTokens }

/-- `state_->rollback(transaction_)`. -/
def rollbackState (self : Nat) : WindowM Unit := do
  let σ ← get
  let (t, s) ← ofExcept (σ.state.rollback self σ.window.transaction)
  modify fun σ => { σ with state := s, window := { σ.window with transaction := t } }

def rollback (self : Nat) : WindowM Unit := do
  requireActive
  setWindow fun w => { w with pendingProposal := false, pendingAcceptance := false }
  rollbackState self
  setWindow fun w => { w with active := false }

/-- The destructor. -/
def destroy (self : Nat) : WindowM Unit := do
  let σ ← get
  if σ.window.active = true ∧ ¬ σ.state.cancelled = true then
    tryCatch (rollbackState self) fun _ => pure ()
  setWindow fun w => { w with destroyed := true }

end Window

inductive WindowCall where
  | drawProposal
  | drawAcceptance
  | acceptProposal
  | rejectAndDrawCorrection
  | sealStopBoundary
  | claimPublication
  | commit (publishedTokens : Nat) (newRootRevision : Revision)
  | rollback
  | destroy

/-- The call, its result dropped. -/
def WindowCall.run (self : Nat) : WindowCall → WindowM Unit
  | .drawProposal => discard (Window.drawProposal self)
  | .drawAcceptance => discard (Window.drawAcceptance self)
  | .acceptProposal => Window.acceptProposal
  | .rejectAndDrawCorrection => discard (Window.rejectAndDrawCorrection self)
  | .sealStopBoundary => Window.sealStopBoundary
  | .claimPublication => Window.claimPublication self
  | .commit publishedTokens newRootRevision => Window.commit self publishedTokens newRootRevision
  | .rollback => Window.rollback self
  | .destroy => Window.destroy self

/-- One object, number 0, its windows, and the tokens published. -/
structure Windows where
  state : RequestState
  windows : List Window := []
  published : List Nat := []

inductive WindowEvent where
  | bind (acquisition : Nat) (rootRevision : Revision) (acceptedPrefix : Nat)
  | advance (tokens : Nat) (newRootRevision : Revision) (residentCommitted : Bool)
  | cancel
  | make (acceptedPrefix maximumTokens : Nat)
  | call (i : Nat) (call : WindowCall)

namespace Windows

/-- The constructor. -/
def make (v : Windows) (acceptedPrefix maximumTokens : Nat) : Except Exn Windows := do
  Window.prepareDecisions acceptedPrefix maximumTokens
  let (transaction, state) ← v.state.begin 0 acceptedPrefix
  return { v with
    state
    windows := v.windows ++
      [{ acceptedPrefix, maximumTokens, transaction, openedAfter := v.published }] }

/-- A call of window `i`; what a call that throws changed stays. -/
def call (v : Windows) (i : Nat) (w : Window) (call : WindowCall) : Windows :=
  match call.run 0 ⟨v.state, w, v.published⟩ with
  | .ok _ σ | .error _ σ => ⟨σ.state, v.windows.set i σ.window, σ.published⟩

def step (v : Windows) : WindowEvent → Windows
  | .bind acquisition rootRevision acceptedPrefix =>
    match v.state.bindAcquisition acquisition rootRevision acceptedPrefix with
    | .ok state => { v with state }
    | .error _ => v
  | .advance tokens newRootRevision residentCommitted =>
    match v.state.advanceForcedControl tokens newRootRevision residentCommitted with
    | .ok state => { v with state }
    | .error _ => v
  | .cancel => { v with state := { v.state with cancelled := true } }
  | .make acceptedPrefix maximumTokens => (v.make acceptedPrefix maximumTokens).toOption.getD v
  | .call i call =>
    match v.windows[i]? with
    | some w => if w.destroyed = true then v else v.call i w call
    | none => v

def run (id : Identity) (events : List WindowEvent) : Windows :=
  events.foldl step { state := { id } }

end Windows

end VoidInfer.Exl3.Sampling
