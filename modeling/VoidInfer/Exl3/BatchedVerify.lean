import Mathlib.Data.List.Sort
import VoidInfer.Base
import VoidInfer.Lib.Chunks

/-
  Batched rounds (`exl3/batched_verify_coordinator.h`). Lanes meet at two gates, the target verification
  (`continue_rows`) and the draft (`propose`). The first to arrive opens a group and waits; later ones join. The group
  closes when enough have arrived, or when the opener wakes up and finds that nobody else can come, or when its wait
  ends; the thread that closes it leads it, with the mutex released.

  A step is what one thread does while it holds the mutex, or one forward of a leader, which runs without it. Steps of
  all threads interleave in any order; the outcome of CUDA calls and of forwards, and whether a wake-up is a timeout,
  are data of the step. The two gates do the same but for the order of two statements on arrival and the batches of a
  forward. Counters that no decision reads are left out.
-/

namespace VoidInfer.Exl3.BatchedVerify

open Chunks

/-! ## Data -/

def kMaxGroup : Nat := 8

/-- `max_group()`, the width from which graphs are captured (0 if not set), and
    `max_batched_members()`. -/
structure Config where
  maxGroup : Nat
  graphMinWidth : Nat
  draftChunk : Nat
  maxGroup_range : 2 ≤ maxGroup ∧ maxGroup ≤ kMaxGroup

inductive Kind where
  | verify
  | draft
deriving DecidableEq

/-- `Member`: the call it is on the stack of, and the order of its lane. -/
structure Member where
  call : Nat
  order : Nat
deriving DecidableEq

/-- `Group`. `leaders` and `ran` record who led it and whose rows its forwards ran. -/
structure Group where
  members : List Member := []
  closed : Bool := false
  done : Bool := false
  error : Option Exn := none
  leaders : List Nat := []
  ran : List Nat := []
deriving DecidableEq

/-- One gate: its lanes in the order they registered, `open_`, and every group made. -/
structure Gate where
  lanes : List Nat := []
  opened : Option Nat := none
  groups : List Group := []

/-- Where a call is: it threw on arrival; it runs alone, or did; it waits as the opener of its group; it waits for its
    group to be done; it leads, and is about to choose the batches, or has these left; it returned or threw. -/
inductive Phase where
  | failed (error : Exn)
  | solo
  | soloDone (error : Option Exn)
  | opener
  | waiting
  | lead
  | forward (batches : List (List Member)) (error : Option Exn)
  | returned (error : Option Exn)
deriving DecidableEq

/-- One call of `continue_rows` or `propose`, with the group it is a member of. -/
structure Call where
  kind : Kind
  context : Nat
  group : Option Nat
  phase : Phase
deriving DecidableEq

structure State where
  active : Int := 0
  gate : Kind → Gate := fun _ => {}
  calls : List Call := []

/-! ## Groups -/

namespace Group

/-- The calls of the members. -/
def calls (group : Group) : List Nat := group.members.map Member.call

/-- What `lead` does before it releases the mutex, in call `i`. -/
def close (group : Group) (i : Nat) : Group :=
  { group with
    closed := true
    members := group.members.insertionSort fun a b => a.order ≤ b.order
    leaders := group.leaders ++ [i] }

end Group

/-- `lane_for`: the lanes, and the order of this one. -/
def laneFor (lanes : List Nat) (context : Nat) : List Nat × Nat :=
  if context ∈ lanes then (lanes, lanes.idxOf context) else (lanes ++ [context], lanes.length)

/-- `target` and `now_target`. -/
def target (cfg : Config) (active : Int) : Nat := min cfg.maxGroup (max active 1).toNat

def minGraphWidth (cfg : Config) (n : Nat) : Nat :=
  if 0 < cfg.graphMinWidth then cfg.graphMinWidth else n - 1

/-- The forwards of `lead` and `lead_draft`, for a coordinator of `n` lanes. -/
def batches (cfg : Config) (k : Kind) (n : Nat) (members : List Member) : List (List Member) :=
  match k with
  | .verify =>
    if 4 < n ∧ 1 < members.length ∧ members.length < minGraphWidth cfg n then
      -- no graph for this subset: one forward per half
      [members.filter fun m => m.order < 4, members.filter fun m => ¬ m.order < 4].filter
        fun half => !half.isEmpty
    else [members]
  | .draft => if members.length = 1 then [members] else chunks cfg.draftChunk [] members

/-! ## Steps -/

/-- The other gate. -/
def Kind.other : Kind → Kind
  | .verify => .draft
  | .draft => .verify

namespace State

def setGate (s : State) (k : Kind) (gate : Gate) : State :=
  { s with gate := Function.update s.gate k gate }

def setPhase (s : State) (i : Nat) (call : Call) (phase : Phase) : State :=
  { s with calls := s.calls.set i { call with phase } }

/-- `waiting_verify` and `waiting_draft`. -/
def waitingAt (s : State) (k : Kind) : Nat :=
  match (s.gate k).opened with
  | some g => (s.gate k).groups[g]?.elim 0 fun group => group.members.length
  | none => 0

end State

/-- The group a call joins: the open one, or a new one. -/
def Gate.joined (gate : Gate) : Nat × Group :=
  match gate.opened with
  | some g => (g, gate.groups[g]?.getD {})
  | none => (gate.groups.length, {})

/-- Group `g` replaced, or added as the last one. -/
def Gate.putGroup (gate : Gate) (g : Nat) (group : Group) : Gate :=
  { gate with groups := if g < gate.groups.length then gate.groups.set g group
      else gate.groups ++ [group] }

section
variable (cfg : Config) (s : State)

/-- A call that joins a group, from `group->members.push_back(&mine)` on: it leads the group it completed, or waits. -/
def join (k : Kind) (context order : Nat) : State :=
  let gate := s.gate k
  let i := s.calls.length
  let g := gate.joined.1
  let group := { gate.joined.2 with members := gate.joined.2.members ++ [⟨i, order⟩] }
  if target cfg s.active ≤ group.members.length then
    { s.setGate k { gate.putGroup g (group.close i) with opened := none } with
      calls := s.calls ++ [⟨k, context, some g, .lead⟩] }
  else
    { s.setGate k { gate.putGroup g group with opened := some g } with
      calls := s.calls ++
        [⟨k, context, some g, if gate.opened = none then .opener else .waiting⟩] }

/-- A call arrives. `failure` is what recording its event throws. -/
def arrive (k : Kind) (context : Nat) (failure : Option Exn) : State :=
  let gate := s.gate k
  let registered := s.setGate k { gate with lanes := (laneFor gate.lanes context).1 }
  if s.active < 2 ∧ gate.opened = none then
    -- the draft gate registers lanes only after this
    { (if k = .verify then registered else s) with calls := s.calls ++ [⟨k, context, none, .solo⟩] }
  else
    match failure with
    | some e => { registered with calls := s.calls ++ [⟨k, context, none, .failed e⟩] }
    | none => join cfg registered k context (laneFor gate.lanes context).2

/-- The lanes missing in the group have gone, or wait at the other gate. -/
def complete (k : Kind) (group : Group) : Bool :=
  decide (target cfg s.active ≤ group.members.length) ||
    decide ((s.active % 2 ^ 64).toNat ≤ group.members.length + s.waitingAt k.other)

/-- The opener of group `g` is back from its wait. -/
def wakeOpener (i : Nat) (call : Call) (g : Nat) (group : Group) (timeout : Bool) : State :=
  let gate := s.gate call.kind
  if group.closed then s.setPhase i call .waiting
  else if timeout || complete cfg s call.kind group then
    (s.setGate call.kind { gate.putGroup g (group.close i) with
      opened := if gate.opened = some g then none else gate.opened }).setPhase i call .lead
  else s

end

/-- What the thread of a call in a group does next. -/
inductive Turn where
  | wake (timeout : Bool)
  | plan
  | forward (error : Option Exn)
  | finish

/-- One step of a call that is in a group. -/
def turn (cfg : Config) (s : State) (i : Nat) (call : Call) (g : Nat) (group : Group) :
    Turn → State
  | .wake timeout =>
    match call.phase with
    | .opener => wakeOpener cfg s i call g group timeout
    | .waiting => if group.done then s.setPhase i call (.returned group.error) else s
    | _ => s
  | .plan =>
    match call.phase with
    | .lead => s.setPhase i call (.forward
        (batches cfg call.kind (s.gate call.kind).lanes.length group.members) none)
    | _ => s
  | .forward error =>
    match call.phase with
    | .forward (batch :: rest) none =>
      match error with
      | some e => s.setPhase i call (.forward (batch :: rest) (some e))
      | none =>
        (s.setGate call.kind ((s.gate call.kind).putGroup g
          { group with ran := group.ran ++ batch.map Member.call })).setPhase i call
            (.forward rest none)
    | _ => s
  | .finish =>
    match call.phase with
    | .forward left error =>
      if left = [] ∨ error ≠ none then
        (s.setGate call.kind ((s.gate call.kind).putGroup g
          { group with error, done := true })).setPhase i call (.returned error)
      else s
    | _ => s

inductive Event where
  | setActive (active : Bool)
  | register (context : Nat)
  | arrive (k : Kind) (context : Nat) (failure : Option Exn)
  | soloDone (i : Nat) (error : Option Exn)
  | turn (i : Nat) (turn : Turn)

def step (cfg : Config) (s : State) : Event → State
  | .setActive active => { s with active := s.active + if active then 1 else -1 }
  | .register context =>
    s.setGate .verify { s.gate .verify with lanes := (laneFor (s.gate .verify).lanes context).1 }
  | .arrive k context failure => arrive cfg s k context failure
  | .soloDone i error =>
    match s.calls[i]? with
    | some call => if call.phase = .solo then s.setPhase i call (.soloDone error) else s
    | none => s
  | .turn i t =>
    match s.calls[i]? with
    | some call =>
      match call.group with
      | some g =>
        match (s.gate call.kind).groups[g]? with
        | some group => turn cfg s i call g group t
        | none => s
      | none => s
    | none => s

/-- The state after a sequence of steps from a new coordinator. -/
def run (cfg : Config) (events : List Event) : State := events.foldl (step cfg) {}

end VoidInfer.Exl3.BatchedVerify
