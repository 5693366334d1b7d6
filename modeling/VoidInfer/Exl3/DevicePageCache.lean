import VoidInfer.Exl3.DevicePageFill

/-
  `Exl3DevicePageCache`: the lookup of shared device pages. A call that holds the mutex is one step; an eviction takes
  it three times, and is three. What the coordinator answers (leases, reservations, retirements), whether the mutex is
  free, and the quarantine counters of the process are given with each call. The backing of pages may change at any
  time.
-/

namespace VoidInfer.Exl3.DevicePages

open Function

/-- An entry of the lookup. -/
structure Entry where
  /-- `key` and `fill`, which are set and reset together. -/
  page : Option (Key × Nat) := none
  retiring : Bool := false
  reclaimed : Bool := false
  metadataDetached : Bool := false
  /-- `retired_owner`, while `tracking`. -/
  tracking : Option Nat := none

/-- An eviction between two of its phases: `selected` is retained. -/
structure Eviction where
  key : Key
  selected : Nat
  /-- The second phase is over. -/
  wasSealed : Bool

structure State where
  geometry : Nat → Geometry
  fills : List Fill := []
  entries : List Entry := List.replicate 64 {}
  victimCursor : Nat := 0
  evictions : Nat → Option Eviction := fun _ => none

namespace State

variable (s : State)

def current (key : Key) : Bool := s.geometry key.identity == key.geometry

def same (key other : Key) : Bool := s.current key && s.current other && key.identity == other.identity

def setFill (f : Nat) (fill : Fill) : State := { s with fills := s.fills.set f fill }

def setEntry (i : Nat) (entry : Entry) : State := { s with entries := s.entries.set i entry }

/-- An entry holds the fill. -/
def listed (f : Nat) : Bool := s.entries.any fun entry => entry.page.any fun page => page.2 == f

/-- Somebody holds the fill. -/
def alive (f : Nat) : Bool := s.listed f || s.fills[f]?.any fun fill => 0 < fill.owners

/-- One more owner, or one less. -/
def retain (f : Nat) : State :=
  match s.fills[f]? with
  | none => s
  | some fill => if s.alive f then s.setFill f { fill with owners := fill.owners + 1 } else s

def release (f : Nat) : State :=
  match s.fills[f]? with
  | none => s
  | some fill => s.setFill f { fill with owners := fill.owners - 1 }

/-- A call of a fill, by one who holds it; a call that throws leaves it. -/
def onFill (f : Nat) (call : Bool → Fill → Option Fill) : State :=
  match s.fills[f]? with
  | none => s
  | some fill =>
    if s.alive f then
      match call (s.current fill.key) fill with
      | none => s
      | some after => s.setFill f after
    else s

end State

/-! ## Looking up -/

/-- The first entry with a fill, that a loop is after. -/
def findEntry (p : Entry → Key → Nat → Bool) (entries : List Entry) : Option Nat :=
  entries.findIdx? fun entry => entry.page.any fun page => p entry page.1 page.2

/-- How the loop of `acquire` ends. -/
inductive Lookup where
  | threw
  /-- The entry is retiring, or its fill failed. -/
  | refused
  | hit (f : Nat)
  /-- The first empty entry. -/
  | miss (empty : Option Nat)

/-- A round of the loop of `acquire`. -/
inductive Visit where
  | stop (entry : Entry) (found : Lookup)
  | next (entry : Entry) (isEmpty : Bool)

def visitPage (s : State) (key : Key) (valid : Bool) (entry : Entry) : Visit :=
  match entry.page with
  | none => .next entry true
  | some (other, f) =>
    if other.geometry.first = key.geometry.first ∧ s.same other key = true then
      .stop entry
        (if entry.retiring || (s.fills[f]?.any fun fill => fill.failed) then .refused
         else if valid then .hit f else .threw)
    else .next entry false

/-- An entry is free again when the fill that it tracks has expired. -/
def visit (s : State) (key : Key) (valid : Bool) (entry : Entry) : Visit :=
  match entry.tracking with
  | none => visitPage s key valid entry
  | some f =>
    if s.alive f then .next entry false
    else if valid then visitPage s key valid {}
    else .stop entry .threw

/-- The loop of `acquire`, from an index on: the entries after it, and its end. `valid` is what
the checks of the lease and of the key give at an entry. -/
def lookup (s : State) (key : Key) (valid : Nat → Bool) : Nat → Option Nat → List Entry → List Entry × Lookup
  | _, empty, [] => ([], .miss empty)
  | i, empty, entry :: rest =>
    match visit s key (valid i) entry with
    | .stop entry found => (entry :: rest, found)
    | .next entry isEmpty =>
      let (after, found) := lookup s key valid (i + 1) (if isEmpty then empty.or (some i) else empty) rest
      (entry :: after, found)

/-- What the coordinator and the mutex give to a call: the lease is current at entry, the mutex
is free, and the checks after it was taken succeed. -/
structure Gate where
  leased : Bool
  locked : Bool
  unchanged : Bool

def Gate.opens (gate : Gate) : Bool := gate.leased && gate.locked && gate.unchanged

/-- How `create_runtime` ends. -/
inductive Creation where
  | exhausted
  | throws
  | made

structure AcquireAnswers where
  leased : Bool
  locked : Bool
  valid : Nat → Bool
  creation : Creation
  /-- `bind_runtime_host_source` does not throw. -/
  binds : Bool
  /-- The lease and the key are current after the allocation. -/
  unchanged : Bool

def acquire (s : State) (key : Key) (answers : AcquireAnswers) : State :=
  if answers.leased = false ∨ s.current key = false ∨ answers.locked = false then s
  else
    let (entries, found) := lookup s key answers.valid 0 none s.entries
    let s := { s with entries }
    match found with
    | .threw | .refused | .miss none => s
    | .hit f => s.retain f
    | .miss (some i) =>
      match answers.creation with
      | .exhausted | .throws => s
      | .made =>
        let f := s.fills.length
        if answers.binds && answers.unchanged then
          { s with
            fills := s.fills ++ [{ key, owners := 2, history := [.produced] }]
            entries := s.entries.set i { page := some (key, f) } }
        else
          { s with
            fills := s.fills ++ [Fill.abandonProducer { key }]
            entries := s.entries.set i { page := some (key, f), retiring := true } }

/-! ## Retirement -/

def retireLookup (s : State) (key : Key) (gate : Gate) : State :=
  if gate.opens = false ∨ s.current key = false then s
  else
    match findEntry (fun _ other _ => s.same other key) s.entries with
    | none => s
    | some i => { s with entries := s.entries.modify i fun entry => { entry with retiring := true } }

/-- The fill of the first retiring entry with the key. -/
def findRetiring (s : State) (key : Key) : Option (Nat × Entry × Nat × Fill) := do
  let i ← findEntry (fun entry other _ => entry.retiring && s.same other key) s.entries
  let entry ← s.entries[i]?
  let page ← entry.page
  let fill ← s.fills[page.2]?
  return (i, entry, page.2, fill)

/-- `seal_retired`: the fill that is returned, if one is. -/
def sealRetired (s : State) (key : Key) (gate : Gate) : State × Option Nat :=
  if gate.opens = false ∨ s.current key = false then (s, none)
  else
    match findRetiring s key with
    | none => (s, none)
    | some (_, _, f, fill) =>
      if fill.sealed then (s, some f)
      else match fill.sealForRetirement with
        | none => (s, none)
        | some fill => (s.setFill f fill, some f)

/-- How a retirement ends at the authority: it refuses (or throws), or it asks for the release,
which succeeds or not. -/
inductive Authority where
  | refuses
  | asks (released : Bool)

structure ReclaimAnswers where
  gate : Gate
  metadata : Bool
  authority : Authority
  /-- `retained_host_bytes` does not throw. -/
  accounted : Bool

/-- `reclaim_retired`: the result. -/
def reclaimRetired (s : State) (key : Key) (answers : ReclaimAnswers) : State × Bool :=
  if answers.gate.opens = false ∨ s.current key = false then (s, false)
  else
    match findRetiring s key with
    | none => (s, false)
    | some (i, entry, f, fill) =>
      if entry.metadataDetached = false ∧ answers.metadata = false then (s, false)
      else
        let entry := { entry with metadataDetached := true }
        let tracked (entry : Entry) : Entry :=
          if answers.accounted then { entry with page := none, tracking := some f } else entry
        if entry.reclaimed then (s.setEntry i (tracked entry), answers.accounted)
        else match answers.authority with
          | .refuses => (s.setEntry i entry, false)
          | .asks released =>
            match fill.retireSealedStorage released with
            | (fill, false) => ((s.setFill f fill).setEntry i entry, false)
            | (fill, true) =>
              ((s.setFill f fill).setEntry i (tracked { entry with reclaimed := true }), answers.accounted)

/-! ## Eviction -/

/-- The fill can be evicted: it is ready or sealed, or was abandoned before its submission. -/
def evictable (s : State) (entry : Entry) : Bool :=
  entry.page.any fun page => s.current page.1 && s.fills[page.2]?.any fun fill =>
    !((fill.failed && !fill.abandonedBeforeSubmission) ||
      (!fill.isReady (s.current page.1) && !fill.sealed && !fill.abandonedBeforeSubmission))

section
variable (s : State) (thread : Nat)

/-- The first phase of `evict_one`, of a thread: a fill is selected, from the cursor on. -/
def evictSelect (quarantined : Bool) (gate : Gate) : State :=
  if quarantined = true ∨ gate.opens = false ∨ (s.evictions thread).isSome then s
  else
    let indices := (List.range s.entries.length).map fun offset => (s.victimCursor + offset) % s.entries.length
    match indices.find? fun index => s.entries[index]?.any (evictable s) with
    | none => s
    | some i =>
      match s.entries[i]?.bind (·.page) with
      | none => s
      | some (key, f) =>
        { s with
          entries := s.entries.modify i fun entry => { entry with retiring := true }
          victimCursor := (i + 1) % s.entries.length
          evictions := Function.update s.evictions thread (some { key, selected := f, wasSealed := false }) }.retain f

/-- The thread is done with the eviction, and releases its fill. -/
def endEviction (eviction : Eviction) : State :=
  { s with evictions := Function.update s.evictions thread none }.release eviction.selected

def evictSeal (gate : Gate) : State :=
  match s.evictions thread with
  | none => s
  | some eviction =>
    if eviction.wasSealed then s
    else match sealRetired s eviction.key gate with
      | (s, none) => endEviction s thread eviction
      | (s, some _) =>
        { s with evictions := Function.update s.evictions thread (some { eviction with wasSealed := true }) }

def evictReclaim (answers : ReclaimAnswers) : State :=
  match s.evictions thread with
  | none => s
  | some eviction =>
    if eviction.wasSealed = false then s
    else endEviction (reclaimRetired s eviction.key answers).1 thread eviction

end

/-! ## Runs -/

inductive Event where
  | acquire (key : Key) (answers : AcquireAnswers)
  | begin (f acquisition execution event : Nat) (owned valid : Bool)
  | planeSubmitted (f generation : Nat) (bank : Int) (key : Bool)
  | finish (f generation : Nat) (error : Int)
  | abandonProducer (f : Nat)
  | view (f : Nat)
  | readyHandle (f : Nat)
  /-- A reader of the fill. -/
  | reader (f : Nat) (move : Fill.ReaderStep)
  /-- An owner of the fill. -/
  | retain (f : Nat)
  | release (f : Nat)
  | retireLookup (key : Key) (gate : Gate)
  | sealRetired (key : Key) (gate : Gate)
  | reclaimRetired (key : Key) (answers : ReclaimAnswers)
  | evictSelect (thread : Nat) (quarantined : Bool) (gate : Gate)
  | evictSeal (thread : Nat) (gate : Gate)
  | evictReclaim (thread : Nat) (answers : ReclaimAnswers)
  /-- The backing of a page changes. -/
  | move (identity : Nat) (geometry : Geometry)

def step (s : State) : Event → State
  | .acquire key answers => acquire s key answers
  | .begin f acquisition execution event owned valid =>
    s.onFill f fun current fill => fill.begin current acquisition execution event owned valid
  | .planeSubmitted f generation bank key => s.onFill f fun current fill => fill.planeSubmitted current generation bank key
  | .finish f generation error => s.onFill f fun _ fill => fill.finish generation error
  | .abandonProducer f => s.onFill f fun _ fill => some fill.abandonProducer
  | .view f => s.onFill f fun current fill => fill.view current
  | .readyHandle f => s.onFill f fun current fill => fill.readyHandle current
  | .reader f move =>
    match s.fills[f]? with
    | none => s
    | some fill => s.setFill f ((fill.readerStep move).getD fill)
  | .retain f => s.retain f
  | .release f => s.release f
  | .retireLookup key gate => retireLookup s key gate
  | .sealRetired key gate =>
    match sealRetired s key gate with
    | (s, none) => s
    | (s, some f) => s.retain f
  | .reclaimRetired key answers => (reclaimRetired s key answers).1
  | .evictSelect thread quarantined gate => evictSelect s thread quarantined gate
  | .evictSeal thread gate => evictSeal s thread gate
  | .evictReclaim thread answers => evictReclaim s thread answers
  | .move identity geometry => { s with geometry := Function.update s.geometry identity geometry }

def run (s : State) (events : List Event) : State := events.foldl step s

end VoidInfer.Exl3.DevicePages
