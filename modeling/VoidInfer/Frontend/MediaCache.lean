import Mathlib.Logic.Function.Basic
import Mathlib.Logic.Relation
import VoidInfer.Base

/-
  `MediaPreprocessCache`: prepared media by key, flights that build missing ones, and the account of the payloads'
  bytes.

  A step is one section under a mutex, or the return of code that runs without one (the pool's `submit`, a builder).
  Steps of any number of threads interleave. A payload is destroyed by a step of its own, once nothing refers to it.
  Allocations of list and map nodes do not fail.
-/

namespace VoidInfer.Frontend.MediaCache

open Function

variable {κ ε : Type} [DecidableEq κ]

/-- A payload, from the reservation of its bytes to their release. -/
structure Payload where
  id : Nat
  bytes : Nat
deriving DecidableEq

structure Ready where
  payload : Nat
  bytes : Nat

/-- How far a flight is. -/
inductive Phase (ε : Type) where
  /-- In the map, and not submitted yet. -/
  | registered
  | queued
  | building
  /-- Built, and not published yet. -/
  | built (payload : Payload)
  /-- The result is in the cache, or bypassed it. -/
  | published (payload : Payload)
  /-- Refused by the pool, or failed while it was built. -/
  | failed (payload : Option Payload) (error : ε)
  /-- `done`: the result can be awaited. -/
  | done (payload : Option Payload) (error : Option ε)
  /-- Removed from the map. -/
  | removed (payload : Option Payload) (error : Option ε)

structure Flight (κ ε : Type) where
  key : κ
  phase : Phase ε := .registered

structure State (κ ε : Type) where
  capacityBytes : Nat
  limit : Nat
  /-- The most recent key first. -/
  lru : List κ := []
  ready : κ → Option Ready := fun _ => none
  retainedBytes : Nat := 0
  inflight : κ → Option Nat := fun _ => none
  flights : Nat → Option (Flight κ ε) := fun _ => none
  nextFlight : Nat := 0
  live : Nat := 0
  payloads : List Payload := []
  nextPayload : Nat := 0
  /-- References of requests and builders to payloads. -/
  handles : List Payload := []

/-! ## Sections -/

/-- `evict_one_locked`, of a cache that is not empty; nothing otherwise. -/
def evictOne (s : State κ ε) : Except Exn (State κ ε) :=
  match s.lru.getLast? with
  | none => .ok s
  | some key =>
    match s.ready key with
    | none => .error .terminate
    | some entry =>
      if entry.bytes > s.retainedBytes then .error .terminate
      else .ok { s with retainedBytes := s.retainedBytes - entry.bytes, lru := s.lru.dropLast
                        ready := Function.update s.ready key none }

/-- The evictions that make room for `bytes`; there are at most `rounds` keys. -/
def makeRoom (bytes : Nat) : Nat → State κ ε → Except Exn (State κ ε)
  | 0, s => .ok s
  | rounds + 1, s => if s.retainedBytes > s.capacityBytes - bytes then evictOne s >>= makeRoom bytes rounds else .ok s

/-- The section that publishes a payload. -/
def publish (key : κ) (payload : Payload) (s : State κ ε) : Except Exn (State κ ε) := do
  if payload.bytes ≤ s.capacityBytes then
    let s ← makeRoom payload.bytes s.lru.length s
    if s.retainedBytes ≤ s.capacityBytes - payload.bytes then
      -- `emplace` leaves an entry that is there, `push_front` does not look
      return { s with lru := key :: s.lru, retainedBytes := s.retainedBytes + payload.bytes
                      ready := Function.update s.ready key (s.ready key <|> some ⟨payload.id, payload.bytes⟩) }
    else return s
  else return s

/-- `try_reserve`; none where there is no room. -/
def tryReserve (bytes : Nat) (s : State κ ε) : Option (State κ ε) :=
  if bytes > s.limit ∨ s.live > s.limit - bytes then none
  else some { s with live := s.live + bytes, payloads := ⟨s.nextPayload, bytes⟩ :: s.payloads
                     nextPayload := s.nextPayload + 1, handles := ⟨s.nextPayload, bytes⟩ :: s.handles }

/-- `MemoryAccount::release`, from the payload's deleter. -/
def release (payload : Payload) (s : State κ ε) : Except Exn (State κ ε) :=
  if payload.bytes > s.live then .error .terminate
  else .ok { s with live := s.live - payload.bytes, payloads := s.payloads.erase payload }

/-- What `begin_prepare` finds. -/
inductive Disposition where
  | hit (payload : Nat)
  | waiter (flight : Nat)
  | producer (flight : Nat)

/-- The section of `begin_prepare`. -/
def beginPrepare (key : κ) (s : State κ ε) : Disposition × State κ ε :=
  match s.ready key with
  | some entry =>
    (.hit entry.payload, { s with lru := key :: s.lru.erase key, handles := ⟨entry.payload, entry.bytes⟩ :: s.handles })
  | none =>
    match s.inflight key with
    | some flight => (.waiter flight, s)
    | none =>
      (.producer s.nextFlight,
        { s with inflight := Function.update s.inflight key (some s.nextFlight)
                 flights := Function.update s.flights s.nextFlight (some { key }), nextFlight := s.nextFlight + 1 })

/-! ## References -/

/-- The payload that a phase refers to. -/
def Phase.payload? : Phase ε → Option Payload
  | .built payload | .published payload => some payload
  | .failed payload _ | .done payload _ | .removed payload _ => payload
  | .registered | .queued | .building => none

/-- Somebody refers to the payload. -/
def held (s : State κ ε) (payload : Payload) : Bool :=
  s.handles.contains payload || s.lru.any (fun key => (s.ready key).any (·.payload = payload.id)) ||
    (List.range s.nextFlight).any fun f => (s.flights f).any fun flight => flight.phase.payload? = some payload

/-! ## Steps -/

inductive Event (κ ε : Type) where
  | beginPrepare (key : κ)
  /-- The pool takes the task of a flight. -/
  | submit (flight : Nat)
  /-- `submit` throws. -/
  | refuse (flight : Nat) (error : ε)
  /-- A worker takes the task. -/
  | start (flight : Nat)
  /-- The builder returns a payload that it refers to. -/
  | build (flight : Nat) (payload : Payload)
  /-- The builder throws, or what it returned is refused. -/
  | buildFailed (flight : Nat) (payload : Option Payload) (error : ε)
  | publish (flight : Nat)
  /-- The flight is done. -/
  | settle (flight : Nat)
  /-- The flight's key is erased from the map. -/
  | remove (flight : Nat)
  /-- `await` returns the result of a flight. -/
  | await (flight : Nat)
  /-- The last reference to a removed flight goes. -/
  | forget (flight : Nat)
  /-- `allocate_payload`: a reservation, and the eviction after one that failed. -/
  | reserve (bytes : Nat)
  | evict
  | copy (payload : Payload)
  | drop (payload : Payload)
  | destroy (payload : Payload)

def setPhase (s : State κ ε) (f : Nat) (flight : Flight κ ε) (phase : Phase ε) : State κ ε :=
  { s with flights := Function.update s.flights f (some { flight with phase }) }

/-- The next section of a flight's own completion. -/
def advance (s : State κ ε) (f : Nat) (flight : Flight κ ε) (event : Event κ ε) : Option (Except Exn (State κ ε)) :=
  match flight.phase, event with
  | .registered, .submit _ => some (.ok (setPhase s f flight .queued))
  | .registered, .refuse _ error => some (.ok (setPhase s f flight (.failed none error)))
  | .queued, .start _ => some (.ok (setPhase s f flight .building))
  | .building, .build _ payload =>
    if payload ∈ s.handles then
      some (.ok (setPhase { s with handles := s.handles.erase payload } f flight (.built payload)))
    else none
  | .building, .buildFailed _ (some payload) error =>
    if payload ∈ s.handles then
      some (.ok (setPhase { s with handles := s.handles.erase payload } f flight (.failed (some payload) error)))
    else none
  | .building, .buildFailed _ none error => some (.ok (setPhase s f flight (.failed none error)))
  | .built payload, .publish _ =>
    some ((publish flight.key payload s).map fun s => setPhase s f flight (.published payload))
  | .published payload, .settle _ => some (.ok (setPhase s f flight (.done (some payload) none)))
  | .failed payload error, .settle _ => some (.ok (setPhase s f flight (.done payload (some error))))
  | .done payload error, .remove _ =>
    some (.ok (setPhase { s with inflight := Function.update s.inflight flight.key none } f flight (.removed payload error)))
  | _, _ => none

/-- A step; none where the event cannot happen. -/
def step (s : State κ ε) (event : Event κ ε) : Option (Except Exn (State κ ε)) :=
  match event with
  | .beginPrepare key => some (.ok (beginPrepare key s).2)
  | .submit f | .refuse f _ | .start f | .build f _ | .buildFailed f _ _ | .publish f | .settle f | .remove f =>
    (s.flights f).bind fun flight => advance s f flight event
  | .await f =>
    (s.flights f).bind fun flight =>
      match flight.phase with
      | .done (some payload) none | .removed (some payload) none => some (.ok { s with handles := payload :: s.handles })
      | _ => none
  | .forget f =>
    (s.flights f).bind fun flight =>
      match flight.phase with
      | .removed _ _ => some (.ok { s with flights := Function.update s.flights f none })
      | _ => none
  | .reserve bytes => (tryReserve bytes s).map .ok
  | .evict => some (evictOne s)
  | .copy payload => if payload ∈ s.handles then some (.ok { s with handles := payload :: s.handles }) else none
  | .drop payload => if payload ∈ s.handles then some (.ok { s with handles := s.handles.erase payload }) else none
  | .destroy payload => if payload ∈ s.payloads ∧ held s payload = false then some (release payload s) else none

def Reaches (s s' : State κ ε) : Prop :=
  Relation.ReflTransGen (fun s s' => ∃ event, step s event = some (.ok s')) s s'

end VoidInfer.Frontend.MediaCache
