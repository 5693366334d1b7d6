import VoidInfer.Frontend.MediaCacheRun

/-
  `Processor::process`: requests that prepare their media through the cache. A builder runs under the stop flag, the
  deadline and the budget of the request that became the producer, and what it throws is the flight's error, which every
  request that awaits the flight rethrows.

  A cause says whose control or budget an error comes from. Steps of any number of requests and workers interleave with
  those of the cache.
-/

namespace VoidInfer.Frontend.MediaRequests

open MediaCache (State Flight Phase Payload)

/-- Where an error comes from. -/
inductive Cause (κ : Type) where
  /-- The cancellation of a request, at its own checks. -/
  | cancelled (request : Nat)
  | expired (request : Nat)
  /-- `stop_preparation` of a request, at the checks of its builders. -/
  | stopped (request : Nat)
  /-- The aggregate budget of a request. -/
  | budget (request : Nat)
  /-- The item itself. -/
  | item (key : κ)

/-- What a request has of one of its items. -/
inductive Pending where
  | hit
  | flight (flight : Nat)

inductive Stage where
  | beginning
  /-- In `submit`, for its own flight. -/
  | submitting (flight : Nat)
  | awaiting
  /-- Awaiting a flight whose result is discarded. -/
  | draining
  | finished

structure Request (κ : Type) where
  /-- The keys of its parts. -/
  items : List κ
  pending : List Pending := []
  /-- The items that it has awaited. -/
  next : Nat := 0
  /-- `request_budget`: what its builders have claimed. -/
  claimed : Nat := 0
  /-- What its items cost so far. -/
  total : Nat := 0
  cancelled : Bool := false
  expired : Bool := false
  stop : Bool := false
  /-- `preparation_error`. -/
  error : Option (Cause κ) := none
  stage : Stage := .beginning

/-- The cost of an item, the budget of a request, and the items that cannot be prepared. -/
structure Media (κ : Type) where
  cost : κ → Nat
  budget : Nat
  broken : κ → Bool

structure World (κ : Type) where
  cache : State κ (Cause κ)
  requests : Nat → Option (Request κ) := fun _ => none
  /-- The producers of the flights. -/
  owner : Nat → Nat := fun _ => 0
  /-- The flights whose builder has claimed its item. -/
  counted : Nat → Bool := fun _ => false

variable {κ : Type} [DecidableEq κ]

def upd (w : World κ) (r : Nat) (request : Request κ) : World κ :=
  { w with requests := Function.update w.requests r (some request) }

/-- An error is kept if it is the first; either way the builders are stopped. -/
def fail (request : Request κ) (cause : Cause κ) : Request κ :=
  { request with error := request.error.or (some cause), stop := true }

/-! ## The loop over the parts -/

/-- `check_preparation_control(control)`. -/
def check (r : Nat) (request : Request κ) : Option (Cause κ) :=
  if request.cancelled then some (.cancelled r) else if request.expired then some (.expired r) else none

/-- One round, after its checks: the next part is looked up, or the loop ends. -/
def beginPart (w : World κ) (r : Nat) (request : Request κ) : World κ :=
  match request.items[request.pending.length]? with
  | none => upd w r { request with stage := .awaiting }
  | some key =>
    let w' := { w with cache := (MediaCache.beginPrepare key w.cache).2 }
    match (MediaCache.beginPrepare key w.cache).1 with
    | .hit _ => upd w' r { request with pending := request.pending ++ [.hit] }
    | .waiter f => upd w' r { request with pending := request.pending ++ [.flight f] }
    | .producer f => upd { w' with owner := Function.update w.owner f r } r { request with stage := .submitting f }

/-! ## The loop over the results -/

/-- The result of an item; after an error it is only waited for. -/
def take (m : Media κ) (r : Nat) (request : Request κ) : Request κ :=
  let request := { request with next := request.next + 1, stage := .awaiting }
  match request.error, request.items[request.next - 1]? with
  | none, some key =>
    if request.total + m.cost key > m.budget then fail request (.budget r)
    else { request with total := request.total + m.cost key }
  | _, _ => request

/-- What a flight has come to, if it is done. -/
def outcome? (w : World κ) (f : Nat) : Option (Option (Cause κ)) :=
  (w.cache.flights f).bind fun flight =>
    match flight.phase with
    | .done _ error | .removed _ error => some error
    | _ => none

/-- One round of the loop that awaits, once the result is there. -/
def awaitPart (m : Media κ) (w : World κ) (r : Nat) (request : Request κ) : Option (World κ) :=
  match request.pending[request.next]? with
  | none => some (upd w r { request with stage := .finished })
  | some .hit => some (upd w r (take m r request))
  | some (.flight f) =>
    (outcome? w f).map fun error =>
      match error with
      | none => upd w r (take m r request)
      | some cause => upd w r { fail request cause with next := request.next + 1 }

/-- The second `await`, whose result is discarded. -/
def drainPart (w : World κ) (r : Nat) (request : Request κ) : Option (World κ) :=
  match request.pending[request.next]? with
  | some (.flight f) =>
    (outcome? w f).map fun _ => upd w r { request with next := request.next + 1, stage := .awaiting }
  | _ => some (upd w r { request with next := request.next + 1, stage := .awaiting })

/-! ## Builders -/

/-- How a builder of the flight of `key` may fail under its producer; it claims once, before it allocates. -/
def mayFail (m : Media κ) (r : Nat) (request : Request κ) (counted : Bool) (key : κ) : Cause κ → Bool
  | .stopped r' => r' = r && request.stop
  | .expired r' => r' = r && request.expired
  | .budget r' => r' = r && !counted && request.claimed + m.cost key > m.budget
  | .item key' => key' = key && m.broken key
  | .cancelled _ => false

/-- What a failure has claimed: `claim` adds the item before it looks at the limits. -/
def spent (m : Media κ) (key : κ) : Cause κ → Nat
  | .budget _ => m.cost key
  | _ => 0

/-- A step of the cache. -/
def cacheStep (w : World κ) (event : MediaCache.Event κ (Cause κ)) : Option (World κ) :=
  match MediaCache.step w.cache event with
  | some (.ok cache) => some { w with cache }
  | _ => none

/-- A request has the flight among its items. -/
def Awaits (w : World κ) (r f : Nat) : Prop := ∃ request, w.requests r = some request ∧ Pending.flight f ∈ request.pending

/-- A request refers to the flight, which then is not freed. -/
def Refers (w : World κ) (r f : Nat) : Prop :=
  Awaits w r f ∨ ∃ request, w.requests r = some request ∧ request.stage = .submitting f

/-- The steps of the cache that are not calls of a request or returns of a builder. -/
def aloof : MediaCache.Event κ (Cause κ) → Bool
  | .beginPrepare _ | .submit _ | .refuse _ _ | .build _ _ | .buildFailed _ _ _ => false
  | _ => true

/-! ## Steps -/

inductive Label (κ : Type) where
  | arrive (r : Nat)
  | cancel (r : Nat)
  | expire (r : Nat)
  | beginStopped (r : Nat)
  | beginPart (r : Nat)
  | submit (r : Nat)
  | refuse (r f : Nat)
  | awaitStopped (r : Nat)
  | awaitPart (r : Nat)
  | drainPart (r : Nat)
  | claim (f : Nat)
  | build (f : Nat)
  | buildFailed (f : Nat) (cause : Cause κ)
  | cache

/-- The flags may be set between a check and what follows it, so that a check that finds
    something is a step of its own. -/
inductive Step (m : Media κ) : World κ → Label κ → World κ → Prop where
  | arrive {w r} (items : List κ) : w.requests r = none → Step m w (.arrive r) (upd w r { items })
  | cancel {w r request} : w.requests r = some request → Step m w (.cancel r) (upd w r { request with cancelled := true })
  | expire {w r request} : w.requests r = some request → Step m w (.expire r) (upd w r { request with expired := true })
  | beginStopped {w r request cause} : w.requests r = some request → request.stage = .beginning →
    check r request = some cause →
    Step m w (.beginStopped r) (upd w r { fail request cause with stage := .awaiting })
  | beginPart {w r request} : w.requests r = some request → request.stage = .beginning →
    Step m w (.beginPart r) (beginPart w r request)
  | submit {w w' r request f} : w.requests r = some request → request.stage = .submitting f →
    cacheStep w (.submit f) = some w' →
    Step m w (.submit r) (upd w' r { request with pending := request.pending ++ [.flight f], stage := .beginning })
  /-- The checkpoint of `submit` finds that the deadline has passed. -/
  | refuse {w w' r request f} : w.requests r = some request → request.stage = .submitting f → request.expired = true →
    cacheStep w (.refuse f (.expired r)) = some w' →
    Step m w (.refuse r f) (upd w' r { fail request (.expired r) with stage := .awaiting })
  | awaitStopped {w r request cause} : w.requests r = some request → request.stage = .awaiting →
    request.next < request.pending.length → request.error = none → check r request = some cause →
    Step m w (.awaitStopped r) (upd w r { fail request cause with stage := .draining })
  | awaitPart {w w' r request} : w.requests r = some request → request.stage = .awaiting →
    awaitPart m w r request = some w' → Step m w (.awaitPart r) w'
  | drainPart {w w' r request} : w.requests r = some request → request.stage = .draining →
    drainPart w r request = some w' → Step m w (.drainPart r) w'
  | claim {w f flight request} : w.cache.flights f = some flight → flight.phase = .building → w.counted f = false →
    w.requests (w.owner f) = some request → request.claimed + m.cost flight.key ≤ m.budget →
    Step m w (.claim f) (upd { w with counted := Function.update w.counted f true } (w.owner f)
      { request with claimed := request.claimed + m.cost flight.key })
  | build {w w' f payload} : w.counted f = true → cacheStep w (.build f payload) = some w' → Step m w (.build f) w'
  | buildFailed {w w' f flight request} (payload : Option Payload) (cause : Cause κ) : w.cache.flights f = some flight →
    w.requests (w.owner f) = some request → mayFail m (w.owner f) request (w.counted f) flight.key cause = true →
    cacheStep w (.buildFailed f payload cause) = some w' →
    Step m w (.buildFailed f cause)
      (upd w' (w.owner f) { request with claimed := request.claimed + spent m flight.key cause })
  | cache {w w'} (event : MediaCache.Event κ (Cause κ)) : aloof event = true → (∀ f, event = .forget f → ∀ r, ¬ Refers w r f) →
    cacheStep w event = some w' → Step m w .cache w'

/-- Any run from an empty cache. -/
def Reaches (m : Media κ) (w : World κ) : Prop :=
  ∃ capacityBytes limit,
    Relation.ReflTransGen (fun w w' => ∃ label, Step m w label w') { cache := { capacityBytes, limit } } w

/-! ## Isolation -/

/-- The request whose own control or budget a cause is. -/
def Cause.private? : Cause κ → Option Nat
  | .cancelled r | .expired r | .stopped r | .budget r => some r
  | .item _ => none

/-- The reasons for which a request may fail. -/
def Cause.Own (r : Nat) (items : List κ) (cause : Cause κ) : Prop :=
  cause = .cancelled r ∨ cause = .expired r ∨ cause = .budget r ∨ ∃ key ∈ items, cause = .item key

/-- The producer of a flight is being stopped: its preparation has failed, its deadline has passed, or the item of the
    flight does not fit what is left of its budget. -/
def Stopping (m : Media κ) (w : World κ) (f : Nat) (key : κ) : Prop :=
  ∃ producer, w.requests (w.owner f) = some producer ∧ (producer.stop = true ∨ producer.expired = true ∨
    w.counted f = false ∧ m.budget < producer.claimed + m.cost key)

/-- The builder of a flight has not returned. -/
def Unbuilt : Phase (Cause κ) → Prop
  | .registered | .queued | .building => True
  | _ => False

/-- A request that has not failed has the flight among its items. -/
def Exposed (w : World κ) (r f : Nat) : Prop :=
  ∃ request, w.requests r = some request ∧ request.error = none ∧ Pending.flight f ∈ request.pending

/-- The next part of a request is in this flight. -/
def Joins (w : World κ) (r f : Nat) : Prop :=
  ∃ request key, w.requests r = some request ∧ request.items[request.pending.length]? = some key ∧
    w.cache.ready key = none ∧ w.cache.inflight key = some f

/-- Before a step, nobody but the producer is exposed to an unbuilt flight whose producer is being stopped; and the step
    does not join such a flight of another request that has failed already. -/
structure Sheltered (m : Media κ) (w : World κ) (label : Label κ) : Prop where
  awaits : ∀ (f r : Nat) (flight : Flight κ (Cause κ)), w.cache.flights f = some flight → Unbuilt flight.phase →
    Stopping m w f flight.key → Exposed w r f → r = w.owner f
  joins : ∀ (f r : Nat) (flight : Flight κ (Cause κ)), label = .beginPart r → Joins w r f →
    w.cache.flights f = some flight → flight.phase.error? ≠ none → Stopping m w f flight.key → r = w.owner f

/-- A run whose steps are all sheltered. -/
def ReachesSheltered (m : Media κ) (w : World κ) : Prop :=
  ∃ capacityBytes limit, Relation.ReflTransGen (fun w w' => ∃ label, Step m w label w' ∧ Sheltered m w label)
    { cache := { capacityBytes, limit } } w

end VoidInfer.Frontend.MediaRequests
