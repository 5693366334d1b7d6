import Mathlib.Logic.Function.Basic
import VoidInfer.Base
import VoidInfer.Lib.Throwing

/-
  The exact line shared by the lanes (`Exl3ExactLinePool` of `exl3/fast_device_round.h`), and the leases an
  `Exl3FastDeviceRound` takes of it. A lease holds the pool's mutex, so leases of different lanes follow each other in
  some order.

  The state of the line is a value of an arbitrary type; a slot keeps one. The logits of the line are those of its last
  forward, which is known by its number. Streams, events, the sampler and the drafting context's own state are left out.
-/

namespace VoidInfer.Exl3.LinePool

/-- The line. `bound` is the lane whose planes it points to, `window` the one whose rows its window
    holds; `outputs` numbers the forward its logits and taps are of. -/
structure Line (S : Type) where
  state : S
  bound : Option Nat := none
  window : Option Nat := none
  outputs : Nat := 0
  forwards : Nat := 0

/-- `Exl3ExactLinePool::Lane`. -/
structure Slots (S : Type) where
  root : Option S := none
  pending : Option S := none
  pendingParked : Bool := false

/-- What the line holds of its owner. -/
inductive Holds
  | other | root | pass | stale
deriving DecidableEq

/-- `Exl3ExactLinePool`, with the lanes' slots. -/
structure Pool (S : Type) where
  line : Line S
  owner : Option Nat := none
  holds : Holds := .other
  freshOutputs : Bool := false
  slots : Nat → Slots S := fun _ => {}

abbrev PoolM (S : Type) := EStateM Exn (Pool S)

variable {S : Type}

namespace Pool

def setSlots (pool : Pool S) (lane : Nat) (slots : Slots S) : Pool S :=
  { pool with slots := Function.update pool.slots lane slots }

def holdsPassOf (pool : Pool S) (lane : Nat) : Bool :=
  pool.owner == some lane && pool.holds == .pass

/-- `save_exact_line_root` into a lane's root. -/
def saveRoot (pool : Pool S) (lane : Nat) : Pool S :=
  pool.setSlots lane { pool.slots lane with root := some pool.line.state }

end Pool

/-! ## The lease -/

/-- The rows of `f` are run on the line. -/
def forwardRows (f : S → S) : PoolM S Unit :=
  modify fun pool => { pool with
    line := { pool.line with
      state := f pool.line.state, outputs := pool.line.forwards + 1, forwards := pool.line.forwards + 1 } }

def restoreExactLineRoot (slot : Option S) (rebuildWindow : Bool) : PoolM S Unit :=
  match slot with
  | none => throw (.runtimeError "exact line restore needs an exact line and a saved slot")
  | some state => modify fun pool => { pool with
      line := { pool.line with
        state, window := if rebuildWindow = true then pool.line.bound else pool.line.window } }

/-- `sync_exact_line_from` of the line, from a drafting context in state `s`. -/
def syncExactLineFrom (s : S) : PoolM S Unit :=
  modify fun pool => { pool with line := { pool.line with state := s, window := pool.line.bound } }

/-- The owner's unsaved pass goes into its pending slot. -/
def Pool.park (pool : Pool S) : Pool S :=
  match pool.owner with
  | some owner =>
    if pool.holds = Holds.pass then
      pool.setSlots owner { pool.slots owner with pending := some pool.line.state, pendingParked := true }
    else pool
  | none => pool

/-- The pool after `take`. -/
def Pool.taken (pool : Pool S) (lane : Nat) : Pool S :=
  let pool := if pool.owner = some lane then pool
    else { pool.park with owner := some lane, holds := Holds.other, freshOutputs := false }
  { pool with line := { pool.line with bound := some lane } }

/-- `take`: whether the line moved. -/
def take (lane : Nat) : PoolM S Bool := do
  let pool ← get
  modify fun pool => pool.taken lane
  return pool.owner != some lane

def bind (lane : Nat) : PoolM S Unit := do
  let _ ← take lane
  modify fun pool => { pool with holds := .other, freshOutputs := false }

/-- The restore of `at_root`, unless the line is at the root of its owner. -/
def restoreUnlessAtRoot (lane : Nat) (moved : Bool) : PoolM S Unit := do
  let pool ← get
  if moved = true ∨ pool.holds ≠ Holds.root then
    restoreExactLineRoot (pool.slots lane).root moved
    modify fun pool => { pool with holds := Holds.root, freshOutputs := false }

/-- `at_root`: the line it returns. -/
def atRoot (lane : Nat) : PoolM S (Line S) := do
  let moved ← take lane
  restoreUnlessAtRoot lane moved
  return (← get).line

def ranPass : PoolM S Unit := modify fun pool => { pool with holds := .pass, freshOutputs := true }

def ranToRoot : PoolM S Unit := modify fun pool => { pool with holds := .root, freshOutputs := true }

def syncedToRoot : PoolM S Unit := modify fun pool => { pool with holds := .root }

/-- The two ways of `accept_pass`: from the line, or from the pending slot. -/
def acceptRoot (lane : Nat) : PoolM S Unit := do
  let pool ← get
  if pool.holdsPassOf lane = true then
    modify fun pool => { pool.saveRoot lane with holds := Holds.root }
  else
    MonadExcept.ofExcept (throwIf (¬ (pool.slots lane).pendingParked = true)
      (.logicError "exact line pass neither held nor parked"))
    modify fun pool => pool.setSlots lane
      { pool.slots lane with root := (pool.slots lane).pending, pending := (pool.slots lane).root }

def acceptPass (lane : Nat) : PoolM S Unit := do
  acceptRoot lane
  modify fun pool => pool.setSlots lane { pool.slots lane with pendingParked := false }

/-- The pool after `discard_pass`. -/
def Pool.discarded (pool : Pool S) (lane : Nat) : Pool S :=
  let pool := if pool.holdsPassOf lane = true then { pool with holds := Holds.stale } else pool
  pool.setSlots lane { pool.slots lane with pendingParked := false }

def discardPass (lane : Nat) : PoolM S Unit := modify fun pool => pool.discarded lane

def releaseLane (lane : Nat) : PoolM S Unit :=
  modify fun pool =>
    if pool.owner = some lane then { pool with owner := none, holds := Holds.other, freshOutputs := false }
    else pool

/-! ## What a round does with its leases -/

/-- The leases of an `Exl3FastDeviceRound`. The rows run on the line are functions of its state;
    none where there are no rows. -/
inductive Use (S : Type)
  /-- `begin_async_verification`, from a drafting context in this state. -/
  | begin (s : S)
  /-- `AsyncLine::run`. -/
  | pass (f : S → S)
  /-- The rescoring of `settle_async`: whether the line still holds the pass. -/
  | rescore
  /-- `rewind_async`. -/
  | rewind
  /-- `commit_async` of the whole block. -/
  | accept
  /-- `commit_async` of a part of a block, that was corrected or not. -/
  | commitPart (corrected : Bool) (f : Option (S → S))
  /-- The block in flight at `end_async`. -/
  | drop
  /-- `end_async`, up to its last lease. -/
  | finish (f : Option (S → S))
  | release

/-- What a lease showed: the line that `at_root` returned, and the answer of `holds_pass_of`. -/
structure Seen (S : Type) where
  line : Option (Line S) := none
  held : Option Bool := none

/-- The rows, if there are any, and `ran_to_root`. -/
def runToRoot (f : Option (S → S)) : PoolM S Unit :=
  match f with
  | none => pure ()
  | some f => do
    forwardRows f
    ranToRoot

def discardUnless (corrected : Bool) (lane : Nat) : PoolM S Unit :=
  if corrected = true then pure () else discardPass lane

def Use.run (lane : Nat) : Use S → PoolM S (Seen S)
  | .begin s => do
    bind lane
    syncExactLineFrom s
    modify fun pool => pool.saveRoot lane
    syncedToRoot
    return {}
  | .pass f => do
    let line ← atRoot lane
    forwardRows f
    ranPass
    return { line := some line }
  | .rescore => do
    let pool ← get
    return { held := some (pool.holdsPassOf lane) }
  | .rewind => do
    discardPass lane
    let line ← atRoot lane
    return { line := some line }
  | .accept => do
    acceptPass lane
    return {}
  | .commitPart corrected f => do
    discardUnless corrected lane
    let line ← atRoot lane
    runToRoot f
    modify fun pool => pool.saveRoot lane
    syncedToRoot
    return { line := some line }
  | .drop => do
    discardPass lane
    return {}
  | .finish f => do
    let line ← atRoot lane
    runToRoot f
    return { line := some line }
  | .release => do
    releaseLane lane
    return {}

end VoidInfer.Exl3.LinePool
