import Mathlib.Data.List.Infix
import Mathlib.Logic.Relation
import VoidInfer.Base

/-
  `Exl3EngineGreedyPacketBatch`: two finished decisions may share one transport over the one device and host buffer. The
  steps of any number of `finish` calls interleave: a step is one section under the mutex, or one of the calls of a
  transport, which runs without it. Any wait may end at any moment, and a cancellation flag may be set at any moment.
-/

namespace VoidInfer.Exl3.GreedyPacketBatch

/-- The rows of the shared buffers. -/
def bufferRows : Nat := 16

/-- `Exl3GreedyBatchSource`, of a pending packet whose execution it owns; `data` are its rows on
    the device. `greedy_batch_source` takes packets of 1 to 16 rows. -/
structure Source where
  context : Nat
  owner : Nat
  model : Nat
  data : List Nat
  rows_pos : 0 < data.length
  rows_le : data.length ≤ bufferRows

/-- How far a transport is. -/
inductive Stage where
  /-- In `single`, before the cancellation flag is read. -/
  | checking
  | claiming
  | copying
  | joining
  | reading
  | delivering
  | over (completed : Bool)

/-- A transport of the caller's own offer, behind the one of `peer`. -/
structure Transport where
  peer : Option Nat := none
  stage : Stage

inductive Outcome where
  | packet (rows : List Nat)
  | threw (exn : Exn)

/-- Where a call is. -/
inductive Phase where
  | start
  /-- In `wait_for`, as the waiting offer at first. -/
  | waiting
  /-- Claimed by another call; waiting for its result. -/
  | held
  /-- Waiting for the buffer. -/
  | queued
  | transporting (transport : Transport)
  | returned (outcome : Outcome)

/-- An `Offer`, with the call it belongs to. -/
structure Offer where
  source : Source
  cancelled : Bool := false
  /-- `source.consumer_claimed`. -/
  consumerClaimed : Bool := false
  claimed : Bool := false
  done : Bool := false
  result : Option (List Nat) := none
  failure : Option Exn := none
  phase : Phase := .start

structure Batch where
  calls : Nat → Option Offer := fun _ => none
  waiting : Option Nat := none
  busy : Bool := false
  failed : Bool := false
  firstFailure : Option Exn := none
  device : List Nat := List.replicate bufferRows 0
  host : List Nat := List.replicate bufferRows 0
  /-- Ghost: the transports that were begun: the peer, if there is one, and the caller. -/
  transports : List (Option Nat × Nat) := []

def upd (s : Batch) (c : Nat) (offer : Offer) : Batch := { s with calls := Function.update s.calls c (some offer) }

/-- `compatible`; the sources own their executions. -/
def compatible (a b : Source) : Bool :=
  a.context != b.context && a.owner != b.owner && a.model == b.model && a.data.length + b.data.length ≤ bufferRows

def cancelledFailure : Exn := .runtimeError "batched greedy packet consumer cancelled before claim"

def claimedFailure : Exn := .runtimeError "batched greedy packet source already claimed"

/-- A copy of rows to an offset of a buffer. -/
def overwrite (buffer : List Nat) (offset : Nat) (data : List Nat) : List Nat :=
  buffer.take offset ++ data ++ buffer.drop (offset + data.length)

/-! ## Sections -/

/-- How a call whose offer is done ends. -/
def outcome (offer : Offer) : Outcome :=
  match offer.failure, offer.result with
  | some exn, _ => .threw exn
  | none, some rows => .packet rows
  | none, none => .threw (.runtimeError "batched greedy packet missing result")

def finishCall (s : Batch) (c : Nat) (offer : Offer) : Batch := upd s c { offer with phase := .returned (outcome offer) }

/-- The wait for the buffer, which ends with a failure or with a transport of the offer alone. -/
def queue (s : Batch) (c : Nat) (offer : Offer) : Batch :=
  if s.busy = true ∧ s.failed = false then upd s c { offer with phase := .queued }
  else if s.failed then upd s c { offer with phase := .returned (.threw (s.firstFailure.getD .terminate)) }
  else upd { s with busy := true } c { offer with phase := .transporting { stage := .checking } }

/-- The peer that a new offer is paired with. -/
def pairing (s : Batch) (offer : Offer) : Option (Nat × Offer) :=
  if s.busy then none
  else (s.waiting.bind fun p => (s.calls p).map fun peer => (p, peer)).filter fun item =>
    compatible item.2.source offer.source && !item.2.cancelled && !offer.cancelled

/-- The first section of a call. -/
def enter (s : Batch) (c : Nat) (offer : Offer) : Batch :=
  if s.failed then upd s c { offer with phase := .returned (.threw (s.firstFailure.getD .terminate)) }
  else
    match pairing s offer with
    | some (p, peer) =>
      upd (upd { s with waiting := none, busy := true, transports := s.transports ++ [(some p, c)] } p
        { peer with claimed := true }) c
        { offer with claimed := true, phase := .transporting { peer := some p, stage := .claiming } }
    | none =>
      if s.busy = false ∧ s.waiting = none ∧ offer.cancelled = false then
        upd { s with waiting := some c } c { offer with phase := .waiting }
      else queue s c offer

/-- A waiting call goes on. -/
def wake (s : Batch) (c : Nat) (offer : Offer) : Batch :=
  if offer.done = false ∧ offer.claimed = false then
    queue (if s.waiting = some c then { s with waiting := none } else s) c offer
  else if offer.done then finishCall s c offer
  else upd s c { offer with phase := .held }

/-! ## Transports -/

/-- The transport's first offer, which is the peer's if there is one. -/
def leading (s : Batch) (offer : Offer) (t : Transport) : Offer :=
  match t.peer.bind s.calls with
  | some peer => peer
  | none => offer

/-- The peer is written, if there is one. -/
def onPeer (s : Batch) (t : Transport) (f : Offer → Offer) : Batch :=
  match t.peer with
  | none => s
  | some p =>
    match s.calls p with
    | none => s
    | some peer => upd s p (f peer)

def atStage (offer : Offer) (t : Transport) (stage : Stage) : Offer :=
  { offer with phase := .transporting { t with stage } }

/-- The handler of a transport. -/
def fail (s : Batch) (c : Nat) (offer : Offer) (t : Transport) (exn : Exn) : Batch :=
  upd (onPeer s t fun peer => { peer with failure := peer.failure.or (some exn) }) c
    (atStage { offer with failure := offer.failure.or (some exn) } t (.over false))

/-- `claim`, of a source that nobody has claimed. -/
def claim (offer : Offer) : Offer := { offer with consumerClaimed := true, claimed := true }

/-- The claims of a transport: the peer's first. -/
def claimBoth (s : Batch) (c : Nat) (offer : Offer) (t : Transport) : Batch :=
  if (leading s offer t).consumerClaimed then fail s c offer t claimedFailure
  else if t.peer.isSome = true ∧ offer.consumerClaimed = true then fail (onPeer s t claim) c offer t claimedFailure
  else upd (onPeer s t claim) c (atStage (claim offer) t .copying)

/-- `finish_one`: the rows, unless the context refuses them. -/
def finishOne (offer : Offer) (rows : List Nat) : Option Exn → Offer
  | none => { offer with result := some rows }
  | some exn => { offer with failure := some exn }

/-- The results of a transport. -/
def deliver (s : Batch) (c : Nat) (offer : Offer) (t : Transport) (first second : Option Exn) : Batch :=
  let rows := (leading s offer t).source.data.length
  match t.peer with
  | none => upd s c (atStage (finishOne offer (s.host.take rows) first) t (.over true))
  | some _ =>
    upd (onPeer s t fun peer => finishOne peer (s.host.take rows) first) c
      (atStage (finishOne offer ((s.host.drop rows).take offer.source.data.length) second) t (.over true))

/-- The section after a transport. -/
def relock (s : Batch) (c : Nat) (offer : Offer) (t : Transport) (completed : Bool) : Batch :=
  let s := onPeer s t fun peer => { peer with done := true }
  let s := if completed then s else { s with failed := true, firstFailure := offer.failure }
  finishCall { s with busy := false } c { offer with done := true }

/-! ## Steps -/

inductive Event where
  | begin (source : Source) (consumerClaimed : Bool)
  | cancel
  | enter
  | wake
  /-- The flag is read; a transport begins. -/
  | check
  | claim
  | copy (error : Option Exn)
  | join (error : Option Exn)
  | read (error : Option Exn)
  | deliver (first second : Option Exn)
  | relock

/-- A step of a transport; a call to the device may fail. -/
def transportStep (s : Batch) (c : Nat) (offer : Offer) (t : Transport) (event : Event) : Option Batch :=
  match t.stage, event with
  | .checking, .check =>
    some (if offer.cancelled then upd s c (atStage { offer with failure := some cancelledFailure } t (.over true))
      else upd { s with transports := s.transports ++ [(none, c)] } c (atStage offer t .claiming))
  | .claiming, .claim => some (claimBoth s c offer t)
  | .copying, .copy none =>
    some (upd { s with device := overwrite s.device 0 (leading s offer t).source.data } c (atStage offer t .joining))
  | .joining, .join none =>
    some (upd (if t.peer.isSome then
        { s with device := overwrite s.device (leading s offer t).source.data.length offer.source.data }
      else s) c (atStage offer t .reading))
  | .reading, .read none =>
    let rows := (leading s offer t).source.data.length + (if t.peer.isSome then offer.source.data.length else 0)
    some (upd { s with host := overwrite s.host 0 (s.device.take rows) } c (atStage offer t .delivering))
  | .copying, .copy (some exn) | .joining, .join (some exn) | .reading, .read (some exn) =>
    some (fail s c offer t exn)
  | .delivering, .deliver first second => some (deliver s c offer t first second)
  | .over completed, .relock => some (relock s c offer t completed)
  | _, _ => none

/-- A step of the call `c`; none where the event is not its next one. -/
def step (s : Batch) (c : Nat) (event : Event) : Option Batch :=
  match s.calls c, event with
  | none, .begin source consumerClaimed => some (upd s c { source, consumerClaimed })
  | some offer, .cancel => some (upd s c { offer with cancelled := true })
  | some offer, event =>
    match offer.phase, event with
    | .start, .enter => some (enter s c offer)
    | .waiting, .wake => some (wake s c offer)
    | .held, .wake => some (if offer.done then finishCall s c offer else s)
    | .queued, .wake => some (queue s c offer)
    | .transporting t, event => transportStep s c offer t event
    | _, _ => none
  | none, _ => none

/-- The states that steps lead to. -/
def Reaches : Batch → Batch → Prop := Relation.ReflTransGen fun s s' => ∃ c event, step s c event = some s'

end VoidInfer.Exl3.GreedyPacketBatch
