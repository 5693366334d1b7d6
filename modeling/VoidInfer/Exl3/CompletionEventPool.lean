import Mathlib.Data.List.Infix
import VoidInfer.Exl3.RetirementState
import VoidInfer.Lib.ListUpdate
import VoidInfer.Lib.Throwing

/-
  `Exl3RequestCompletionEventPool`: up to four precreated events that requests take by ticket. A `History` adds what the
  pool does not keep: the tickets it has handed out with their owners, which of them were submitted and notified, and
  whether the device was drained.
-/

namespace VoidInfer.Exl3.CompletionEventPool

open Throwing MonadExcept

/-! ## The class -/

def capacity : Nat := 4

inductive Phase where
  | unavailable
  | retired
  | acquired
  | pending
  | ready
  | failed
deriving DecidableEq

structure Ticket where
  slot : Nat
  authorityGeneration : Nat
  generation : Nat
  acquisition : Nat
  execution : Nat
  retirementGeneration : Nat
  event : Nat
deriving DecidableEq

structure Slot where
  finalUse : FinalUseWitness := {}
  owner : Option Nat := none
  generation : Nat := 0
  acquisition : Nat := 0
  execution : Nat := 0
  retirementGeneration : Nat := 0
  finalUseGeneration : Nat := 0
  event : Nat := 0
  phase : Phase := .unavailable
  cancelled : Bool := false

/-- The configured slots; the others are never read. -/
structure Pool where
  slots : List Slot := []
  authorityGeneration : Nat := 0
  nextGeneration : Nat := 0

abbrev Exec := EStateM Exn Pool

/-- The checks of `configure` on the identities. -/
def checkEvents : List Nat → List Nat → Except Exn Unit
  | _, [] => .ok ()
  | earlier, event :: rest => do
    throwIf (event = 0) (.invalidArgument "completion event identity missing")
    throwIf (event ∈ earlier) (.invalidArgument "completion event identity reused")
    checkEvents (earlier ++ [event]) rest

def configure (events : List Nat) (authorityGeneration : Nat) : Exec Unit := do
  let pool ← get
  MonadExcept.ofExcept (throwIf (pool.slots ≠ [] ∨ events = [] ∨ events.length > capacity ∨ authorityGeneration = 0)
    (.invalidArgument "completion event pool configuration"))
  MonadExcept.ofExcept (checkEvents [] events)
  set { pool with slots := events.map fun event => { event, phase := .retired }, authorityGeneration }

/-- The scope that `acquire` does not take. -/
def badScope (pool : Pool) (acquisition execution retirementGeneration : Nat) (owner : Option Nat) : Prop :=
  pool.slots = [] ∨ pool.authorityGeneration = 0 ∨ acquisition = 0 ∨ execution = 0 ∨ retirementGeneration = 0 ∨
    owner = none

instance (pool : Pool) (acquisition execution retirementGeneration : Nat) (owner : Option Nat) :
    Decidable (badScope pool acquisition execution retirementGeneration owner) := inferInstanceAs (Decidable (_ ∨ _))

/-- The slot of a new ticket. -/
def Slot.take (slot : Slot) (generation acquisition execution retirementGeneration : Nat) (owner : Option Nat) : Slot :=
  { slot with
    owner, acquisition, execution, retirementGeneration, cancelled := false, generation, finalUseGeneration := 0
    finalUse := {}, phase := .acquired }

def acquire (acquisition execution retirementGeneration : Nat) (owner : Option Nat) : Exec (Option Ticket) := do
  let pool ← get
  MonadExcept.ofExcept (throwIf (badScope pool acquisition execution retirementGeneration owner)
    (.invalidArgument "completion event acquisition scope"))
  MonadExcept.ofExcept (throwIf (pool.nextGeneration = uint64Max) (.overflowError "completion event generation exhausted"))
  match (pool.slots.findIdx? fun slot => slot.phase == .retired).bind fun i => (pool.slots[i]?).map fun slot => (i, slot) with
  | none => return none
  | some (i, slot) => do
    let generation := pool.nextGeneration + 1
    set { pool with
      nextGeneration := generation
      slots := pool.slots.set i (slot.take generation acquisition execution retirementGeneration owner) }
    return some { slot := i, authorityGeneration := pool.authorityGeneration, generation, acquisition, execution
                  retirementGeneration, event := slot.event }

/-- `match_any`: the slot of a ticket. -/
def matchAny (pool : Pool) (ticket : Ticket) : Option Slot :=
  (pool.slots[ticket.slot]?).filter fun slot =>
    ticket.authorityGeneration == pool.authorityGeneration && slot.generation == ticket.generation &&
      slot.event == ticket.event && slot.acquisition == ticket.acquisition && slot.execution == ticket.execution &&
      slot.retirementGeneration == ticket.retirementGeneration

/-- `match`. -/
def matchPhase (pool : Pool) (ticket : Ticket) (phase : Phase) : Option Slot :=
  (matchAny pool ticket).filter fun slot => slot.phase == phase

/-- A slot is written. -/
def put (i : Nat) (slot : Slot) : Exec Unit := modify fun pool => { pool with slots := pool.slots.set i slot }

/-- `retire_slot`. -/
def Slot.retire (slot : Slot) : Slot := { slot with owner := none, cancelled := false, phase := .retired }

def submit (ticket : Ticket) : Exec Bool := do
  let pool ← get
  match matchPhase pool ticket .acquired with
  | none => return false
  | some slot =>
    match slot.finalUse.begin slot.acquisition slot.execution slot.event with
    | .error e => do
      put ticket.slot { slot with phase := .failed }
      throw e
    | .ok finalUse => do
      put ticket.slot { slot with finalUse, finalUseGeneration := finalUse.generation, phase := .pending }
      return true

/-- The slot that a notification is for, with the witness after it. -/
def notifies (pool : Pool) (ticket : Ticket) (event : Nat) (error : Int) : Option (Slot × FinalUseWitness) :=
  (matchPhase pool ticket .pending).bind fun slot =>
    if event ≠ slot.event then none
    else (slot.finalUse.finish slot.finalUseGeneration error).map fun finalUse => (slot, finalUse)

def notify (ticket : Ticket) (event : Nat) (error : Int) : Exec Bool := do
  let pool ← get
  match notifies pool ticket event error with
  | none => return false
  | some (slot, finalUse) =>
    if error ≠ 0 then do
      put ticket.slot { slot with finalUse, phase := .failed }
      return false
    else do
      put ticket.slot (if slot.cancelled then { slot with finalUse }.retire else { slot with finalUse, phase := .ready })
      return true

def cancel (ticket : Ticket) : Exec Bool := do
  let pool ← get
  match matchAny pool ticket with
  | none => return false
  | some slot =>
    match slot.phase with
    | .acquired | .ready => do
      put ticket.slot slot.retire
      return true
    | .pending => do
      put ticket.slot { slot with cancelled := true }
      return true
    | _ => return false

def retire (generation : Nat) : Exec Bool := do
  let pool ← get
  match (pool.slots.findIdx? fun slot => slot.generation == generation).bind fun i =>
      (pool.slots[i]?).map fun slot => (i, slot) with
  | none => return false
  | some (i, slot) =>
    if slot.phase = .ready ∧ slot.finalUse.isMatch slot.acquisition slot.execution slot.finalUseGeneration then do
      put i slot.retire
      return true
    else return false

def Pool.firstError (pool : Pool) : Int :=
  pool.slots.foldl (fun result slot => if result = 0 then slot.finalUse.error else result) 0

def retireAllAfterDeviceDrain : Exec Unit :=
  modify fun pool => { pool with
    slots := pool.slots.map fun slot =>
      { slot with owner := none, phase := if slot.phase = .unavailable then .unavailable else .retired } }

/-! ## Runs -/

inductive Op where
  | configure (events : List Nat) (authorityGeneration : Nat)
  | acquire (acquisition execution retirementGeneration : Nat) (owner : Option Nat)
  | submit (ticket : Ticket)
  | notify (ticket : Ticket) (event : Nat) (error : Int)
  | cancel (ticket : Ticket)
  | retire (generation : Nat)
  | drain

/-- The pool with its tickets. -/
structure History where
  pool : Pool := {}
  /-- The tickets handed out, in order, with their owners. -/
  tickets : List (Ticket × Nat) := []
  /-- The generations that were submitted. -/
  submitted : List Nat := []
  /-- The generations that were notified, with the error reported. -/
  notified : List (Nat × Int) := []
  drained : Bool := false

/-- An operation, with the ticket that it hands out. -/
def Op.run : Op → Exec (Option Ticket)
  | .configure events authorityGeneration => do CompletionEventPool.configure events authorityGeneration; return none
  | .acquire acquisition execution retirementGeneration owner =>
    CompletionEventPool.acquire acquisition execution retirementGeneration owner
  | .submit ticket => do discard (CompletionEventPool.submit ticket); return none
  | .notify ticket event error => do discard (CompletionEventPool.notify ticket event error); return none
  | .cancel ticket => do discard (CompletionEventPool.cancel ticket); return none
  | .retire generation => do discard (CompletionEventPool.retire generation); return none
  | .drain => do retireAllAfterDeviceDrain; return none

/-- The pool after an operation, also when it throws, and the ticket handed out. -/
def Op.apply (op : Op) (pool : Pool) : Option Ticket × Pool :=
  match op.run pool with
  | .ok ticket pool' => (ticket, pool')
  | .error _ pool' => (none, pool')

/-- The owner that an acquisition is given. -/
def Op.owner : Op → Nat
  | .acquire _ _ _ owner => owner.getD 0
  | _ => 0

def Op.submits (pool : Pool) : Op → Option Nat
  | .submit ticket => (matchPhase pool ticket .acquired).map fun _ => ticket.generation
  | _ => none

def Op.reports (pool : Pool) : Op → Option (Nat × Int)
  | .notify ticket event error => (notifies pool ticket event error).map fun _ => (ticket.generation, error)
  | _ => none

def Op.isDrain : Op → Bool
  | .drain => true
  | _ => false

/-- An operation on the history. -/
def step (h : History) (op : Op) : History :=
  { pool := (op.apply h.pool).2
    tickets := h.tickets ++ ((op.apply h.pool).1.map fun ticket => (ticket, op.owner)).toList
    submitted := h.submitted ++ (op.submits h.pool).toList
    notified := h.notified ++ (op.reports h.pool).toList
    drained := h.drained || op.isDrain }

/-- The generation was never submitted, or its final use was notified without error. -/
def Settled (h : History) (generation : Nat) : Prop := generation ∉ h.submitted ∨ (generation, 0) ∈ h.notified

/-- The ticket's slot is retired, or it has gone to another ticket. -/
def Dead (h : History) (ticket : Ticket) : Prop :=
  ∀ slot, h.pool.slots[ticket.slot]? = some slot → slot.generation ≠ ticket.generation ∨ slot.phase = .retired

/-- The operation is a use of the ticket. -/
def Op.uses (op : Op) (ticket : Ticket) : Prop :=
  op = .submit ticket ∨ (∃ event error, op = .notify ticket event error) ∨ op = .cancel ticket ∨
    op = .retire ticket.generation

/-- What the pool owes at an operation. -/
structure Owed (h : History) (op : Op) : Prop where
  /-- Nothing is handed out after the drain; an event comes again only when its tickets are
      settled, and none of them has reported an error. -/
  handedOut : ∀ ticket, (op.apply h.pool).1 = some ticket → h.drained = false ∧
    ∀ old ∈ h.tickets, old.1.event = ticket.event →
      Settled h old.1.generation ∧ ∀ error, error ≠ 0 → (old.1.generation, error) ∉ h.notified
  /-- Generations increase. -/
  increasing : ∀ ticket, (op.apply h.pool).1 = some ticket → ∀ old ∈ h.tickets, old.1.generation < ticket.generation
  /-- A dead ticket changes nothing and stays dead. -/
  inert : ∀ ticket ∈ h.tickets, Dead h ticket.1 → Dead (step h op) ticket.1 ∧
    (op.uses ticket.1 → (step h op).pool = h.pool)
  /-- An error once reported stays. -/
  sticky : ∀ generation error, error ≠ 0 → (generation, error) ∈ (step h op).notified →
    (step h op).pool.firstError ≠ 0
  /-- A ticket's owner is held until its slot is retired. -/
  owned : ∀ ticket ∈ (step h op).tickets, ∀ slot, (step h op).pool.slots[ticket.1.slot]? = some slot →
    slot.generation = ticket.1.generation → slot.phase ≠ .retired → slot.owner = some ticket.2

/-- After the drain nothing is acquired: the operation is no acquisition that passes the checks. -/
def Quiet (h : History) (op : Op) : Prop :=
  h.drained = true → ∀ acquisition execution retirementGeneration owner,
    op = .acquire acquisition execution retirementGeneration owner →
      badScope h.pool acquisition execution retirementGeneration owner ∨ h.pool.nextGeneration = uint64Max

/-- The histories that operations with `allowed` lead to. -/
def Reaches (allowed : History → Op → Prop) : History → History → Prop :=
  Relation.ReflTransGen fun h h' => ∃ op, allowed h op ∧ h' = step h op

end VoidInfer.Exl3.CompletionEventPool
