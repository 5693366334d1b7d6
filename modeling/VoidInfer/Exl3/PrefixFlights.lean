import VoidInfer.Exl3.PrefixIndexLookup

/-
  `prepare_shared_text_prefix`: callers that need the same prefix share one preparation. The first one registers a
  flight and builds; the others join it and wait. Threads are modelled by their callers: a step is one section under
  `service_mutex_`, one call of a progress callback or of the build, or one read of the atomic waiter count, and the
  steps of any number of callers interleave. A result is returned in the section that decides it.
-/

namespace VoidInfer.Exl3.PrefixFlights

open PrefixCache

/-! ## Flights and callers -/

/-- What a preparation throws. An exception of a progress callback has an owner, the caller whose callback it is. -/
inductive Failure where
  | callback (owner : Nat) (exn : Exn)
  | build (exn : Exn)
  /-- Thrown by the index, in the lookup or in the admission. -/
  | index (exn : Exn)
  /-- `"serving prefix preparation epoch changed"`. -/
  | epochChanged
  /-- `"recursive identical prefix preparation"`. -/
  | recursive

/-- A root, with the epoch it was prepared in. -/
structure Built where
  root : Root
  epoch : Nat

/-- How a call ends: with a `PreparedPrefix`, or with an exception. -/
inductive Outcome where
  | returned (prepared : Built) (joined cacheHit : Bool)
  | threw (failure : Failure)

structure PrefixPreparation where
  model : Option Nat := none
  epoch : Nat := 0
  tokens : List Int := []
  /-- `tokens.capacity()` of a pooled flight. -/
  tokenCapacity : Nat := 0
  prefillRows : Int := 0
  producer : Nat := 0
  waiters : Nat := 0
  participants : Nat := 0
  done : Bool := false
  root : Option Built := none
  failure : Option Failure := none

/-- Where a call is. -/
inductive Phase where
  /-- Before its first section. -/
  | start
  /-- Joined a flight; in its progress callback. -/
  | polling (flight : Nat)
  /-- Joined a flight; in `wait_for`. -/
  | blocked (flight : Nat)
  /-- The flight is complete; in the last progress callback. -/
  | declining (flight : Nat)
  /-- Producer, in the build; with what its callback has thrown. -/
  | building (flight : Nat) (failure : Option Failure)
  /-- Producer, in `shared_progress`, before the waiter count is read. -/
  | checking (flight : Nat) (failure : Option Failure)
  /-- Producer, with the root built. -/
  | built (flight : Nat) (failure : Option Failure) (root : Built)
  /-- Producer, with an exception on its way to the handler. -/
  | unwinding (flight : Nat) (failure : Failure)
  /-- Building without a flight. -/
  | alone
  | aloneBuilt (root : Built)
  /-- Decided; the participant's destructor is still to run. -/
  | leaving (flight : Nat) (outcome : Outcome)
  | finished (outcome : Outcome)

namespace Phase

/-- The flight whose participant the caller is. -/
def flight : Phase → Option Nat
  | polling f | blocked f | declining f | building f _ | checking f _ | built f _ _ | unwinding f _
  | leaving f _ => some f
  | start | alone | aloneBuilt _ | finished _ => none

/-- The flight whose result the caller waits for. -/
def waitsFor : Phase → Option Nat
  | polling f | blocked f | declining f => some f
  | _ => none

/-- What the caller, as a producer, has to throw. -/
def failure : Phase → Option Failure
  | building _ failure | checking _ failure | built _ failure _ => failure
  | unwinding _ failure => some failure
  | _ => none

/-- The flight that the caller produces. -/
def produces : Phase → Option Nat
  | building f _ | checking f _ | built f _ _ | unwinding f _ => some f
  | _ => none

def outcome : Phase → Option Outcome
  | leaving _ outcome | finished outcome => some outcome
  | _ => none

end Phase

/-- A call with its arguments; contract and epoch are those read before it. -/
structure Caller where
  thread : Nat
  model : Nat
  tokens : List Int
  contract : List UInt8
  epoch : Nat
  prefillRows : Int
  phase : Phase := .start

/-- `Exl3VeriCacheServingPrefixCache`, as far as preparations use it, and its callers. -/
structure Service where
  index : PrefixIndex
  contract : List UInt8
  epoch : Nat := 0
  /-- The flight objects; a flight is named by its place. -/
  flights : List PrefixPreparation := []
  preparations : List (Option Nat) := List.replicate 8 none
  /-- `preparation_pool_`, once it is enabled. -/
  pool : Option (List Nat) := none
  failPreparationAdmission : Bool := false
  callers : List Caller := []

/-! ## Sections -/

/-- `epoch!=service_epoch_ || contract!=contract_`. -/
def stale (s : Service) (caller : Caller) : Bool :=
  caller.epoch != s.epoch || caller.contract != s.contract

/-- The flight is for the caller's input. -/
def fits (caller : Caller) (flight : PrefixPreparation) : Bool :=
  flight.epoch == caller.epoch && flight.model == some caller.model &&
    flight.prefillRows == caller.prefillRows && flight.tokens == caller.tokens

section
variable (s : Service)

/-- The registered flight for the caller's input. -/
def matching (caller : Caller) : Option Nat :=
  s.preparations.findSome? fun slot => slot.filter fun f => (s.flights[f]?).any (fits caller)

/-- A flight for a new producer, and the flight objects with it; a pool does not grow. -/
def acquire (caller : Caller) : Option (Nat × List PrefixPreparation) :=
  match s.pool with
  | none => some (s.flights.length, s.flights ++ [{}])
  | some pool =>
    (pool.find? fun f => (s.flights[f]?).any fun flight =>
      flight.participants == 0 && flight.tokenCapacity ≥ caller.tokens.length).map fun f => (f, s.flights)

def setPhase (c : Nat) (caller : Caller) (phase : Phase) : Service :=
  { s with callers := s.callers.set c { caller with phase } }

def setFlight (f : Nat) (flight : PrefixPreparation) : Service :=
  { s with flights := s.flights.set f flight }

/-- `slot.reset()` of the slot that holds the flight. -/
def clearSlot (f : Nat) : Service :=
  match s.preparations.findIdx? fun slot => slot == some f with
  | none => s
  | some i => { s with preparations := s.preparations.set i none }

/-- A joiner's call is decided: its waiter is gone, its participation is not yet. -/
def decide (c : Nat) (caller : Caller) (f : Nat) (flight : PrefixPreparation) (outcome : Outcome) : Service :=
  setPhase (setFlight s f { flight with waiters := flight.waiters - 1 }) c caller (.leaving f outcome)

end

/-- `~Participant`: the last one leaves a blank flight. -/
def depart (flight : PrefixPreparation) : PrefixPreparation :=
  if flight.participants - 1 = 0 then
    { flight with participants := 0, root := none, model := none, failure := none, tokens := [], done := false }
  else { flight with participants := flight.participants - 1 }

/-- A flight with its result, out of the registry. -/
def complete (s : Service) (f : Nat) (flight : PrefixPreparation) (root : Option Built)
    (failure : Option Failure) : Service :=
  clearSlot (setFlight s f { flight with root, failure, done := true }) f

/-- The registration of a new producer. -/
def register (s : Service) (c : Nat) (caller : Caller) : Option Service :=
  match s.preparations.findIdx? (·.isNone), acquire s caller with
  | some slot, some (f, flights) =>
    (flights[f]?).map fun flight =>
      setPhase { s with
        preparations := s.preparations.set slot (some f)
        flights := flights.set f { flight with
          model := some caller.model, epoch := caller.epoch, tokens := caller.tokens
          prefillRows := caller.prefillRows, producer := caller.thread
          participants := flight.participants + 1 } } c caller (.building f none)
  | _, _ => none

/-- The first section of a call. -/
def enter (s : Service) (c : Nat) (caller : Caller) : Service :=
  if stale s caller then setPhase s c caller (.finished (.threw .epochChanged))
  else
    match PrefixCache.lookup caller.model caller.tokens caller.contract none s.index with
    | .ok (some root) index =>
      setPhase { s with index } c caller (.finished (.returned ⟨root, caller.epoch⟩ false true))
    | .error exn index => setPhase { s with index } c caller (.finished (.threw (.index exn)))
    | .ok none index =>
      let s := { s with index }
      match (matching s caller).bind fun f => (s.flights[f]?).map fun flight => (f, flight) with
      | some (f, flight) =>
        if flight.producer = caller.thread then setPhase s c caller (.finished (.threw .recursive))
        else setPhase (setFlight s f { flight with
          participants := flight.participants + 1, waiters := flight.waiters + 1 }) c caller (.polling f)
      | none => (register s c caller).getD (setPhase s c caller .alone)

/-! ## Steps -/

inductive Event where
  | spawn (thread model : Nat) (tokens : List Int) (prefillRows : Int)
  | enter (c : Nat)
  | callbackThrows (c : Nat) (exn : Exn)
  | callbackReturns (c : Nat)
  | wake (c : Nat)
  | check (c : Nat)
  | buildFails (c : Nat) (exn : Exn)
  | buildReturns (c : Nat) (root : Root)
  | settle (c : Nat) (byteBudget available reserve : Nat)
  | catch (c : Nat)
  | leave (c : Nat)
  | reload (contract : List UInt8)
  | indexed (op : PrefixCache.Op)
  | failNextPreparationAdmission

section Steps

variable (account : List PrefixCache.Entry → Except Exn StorageStats)

/-- The admission of a built root, as `prepare_concurrent` makes it: the index after it, and what it throws. -/
def admission (s : Service) (caller : Caller) (root : Built) (byteBudget available reserve : Nat) :
    Service × Option Failure :=
  if stale s caller then (s, some .epochChanged)
  else if s.failPreparationAdmission then
    ({ s with failPreparationAdmission := false }, some (.index .badAlloc))
  else
    match PrefixCache.admitRoot account (some root.root) caller.contract byteBudget available reserve none false
      s.index with
    | .ok _ index => ({ s with index }, none)
    | .error exn index => ({ s with index }, some (.index exn))

/-- The caller's own step in its phase; none where the event is not its next one. -/
def callerStep (s : Service) (c : Nat) (caller : Caller) (event : Event) : Option Service :=
  match caller.phase, event with
  | .start, .enter _ => some (enter s c caller)
  | .polling f, .callbackThrows _ exn =>
    (s.flights[f]?).map fun flight => decide s c caller f flight (.threw (.callback c exn))
  | .polling f, .callbackReturns _ =>
    (s.flights[f]?).map fun flight =>
      if stale s caller then decide s c caller f flight (.threw .epochChanged)
      else setPhase s c caller (.blocked f)
  | .blocked f, .wake _ =>
    (s.flights[f]?).map fun flight =>
      if stale s caller then decide s c caller f flight (.threw .epochChanged)
      else if !flight.done then setPhase s c caller (.polling f)
      else
        match flight.failure with
        | some failure => decide s c caller f flight (.threw failure)
        | none => setPhase s c caller (.declining f)
  | .declining f, .callbackThrows _ exn =>
    (s.flights[f]?).map fun flight => decide s c caller f flight (.threw (.callback c exn))
  | .declining f, .callbackReturns _ =>
    (s.flights[f]?).bind fun flight =>
      if stale s caller then some (decide s c caller f flight (.threw .epochChanged))
      else flight.root.map fun root => decide s c caller f flight (.returned root true false)
  | .building f none, .callbackThrows _ exn =>
    some (setPhase s c caller (.checking f (some (.callback c exn))))
  | .building f failure, .callbackReturns _ => some (setPhase s c caller (.checking f failure))
  | .checking f failure, .check _ =>
    (s.flights[f]?).map fun flight =>
      match failure with
      | some e => if flight.waiters = 0 then setPhase s c caller (.unwinding f e)
        else setPhase s c caller (.building f failure)
      | none => setPhase s c caller (.building f failure)
  | .building f _, .buildFails _ exn => some (setPhase s c caller (.unwinding f (.build exn)))
  | .building f failure, .buildReturns _ root =>
    if root.tokens = caller.tokens ∧ root.request.modelIdentity = caller.model then
      some (setPhase s c caller (.built f failure ⟨root, caller.epoch⟩))
    else none
  | .built f failure root, .settle _ byteBudget available reserve =>
    (s.flights[f]?).map fun flight =>
      match admission account s caller root byteBudget available reserve with
      | (s, some e) => setPhase s c caller (.unwinding f e)
      | (s, none) =>
        let s := complete s f flight (some root) flight.failure
        match failure with
        | none => setPhase s c caller (.leaving f (.returned root false false))
        | some e => setPhase s c caller (.unwinding f e)
  | .unwinding f failure, .catch _ =>
    (s.flights[f]?).map fun flight =>
      if flight.done then setPhase s c caller (.leaving f (.threw failure))
      else setPhase (complete s f flight flight.root (some failure)) c caller (.leaving f (.threw failure))
  | .alone, .callbackThrows _ exn => some (setPhase s c caller (.finished (.threw (.callback c exn))))
  | .alone, .buildFails _ exn => some (setPhase s c caller (.finished (.threw (.build exn))))
  | .alone, .buildReturns _ root =>
    if root.tokens = caller.tokens ∧ root.request.modelIdentity = caller.model then
      some (setPhase s c caller (.aloneBuilt ⟨root, caller.epoch⟩))
    else none
  | .aloneBuilt root, .settle _ byteBudget available reserve =>
    match admission account s caller root byteBudget available reserve with
    | (s, some e) => some (setPhase s c caller (.finished (.threw e)))
    | (s, none) => some (setPhase s c caller (.finished (.returned root false false)))
  | .leaving f outcome, .leave _ =>
    (s.flights[f]?).map fun flight => setPhase (setFlight s f (depart flight)) c caller (.finished outcome)
  | _, _ => none

/-- The caller that an event is a step of. -/
def Event.caller : Event → Option Nat
  | enter c | callbackThrows c _ | callbackReturns c | wake c | check c | buildFails c _ | buildReturns c _
  | settle c _ _ _ | .catch c | leave c => some c
  | _ => none

/-- `reset_for_model_reload`. -/
def reload (s : Service) (contract : List UInt8) : Option Service :=
  if s.epoch = uint64Max then none
  else
    match PrefixCache.clear s.index with
    | .ok _ index | .error _ index => some { s with index, contract, epoch := s.epoch + 1 }

/-- A step of the service, which publishes no root without an admission. -/
def step (s : Service) : Event → Option Service
  | .spawn thread model tokens prefillRows => some { s with
      callers := s.callers ++ [{ thread, model, tokens, prefillRows, contract := s.contract, epoch := s.epoch }] }
  | .reload contract => reload s contract
  | .indexed op => if op.isPublish then none else some { s with index := (op.step account s.index).2 }
  | .failNextPreparationAdmission => some { s with failPreparationAdmission := true }
  | event => do
    let c ← event.caller
    let caller ← s.callers[c]?
    callerStep account s c caller event

end Steps

/-- The service at startup, with `slots` pooled flights of that token capacity. -/
def startup (index : PrefixIndex) (contract : List UInt8) (pooled : Option (List Nat)) : Service :=
  { index, contract
    flights := (pooled.getD []).map fun tokenCapacity => { tokenCapacity }
    pool := pooled.map fun capacities => List.range capacities.length }

end VoidInfer.Exl3.PrefixFlights
