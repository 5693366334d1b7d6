import VoidInfer.Base
import VoidInfer.Lib.Custody
import VoidInfer.Lib.MappedRanges

/-
  Growable device regions: an address range whose backing grows and shrinks by chunks, a second range (the window) that
  maps the same chunks, and the process-wide pool where host regions leave their chunks for the next one. `step` is one
  step of one thread: what a thread does between two uses of another thread's data (the pool mutex, a region's mutex) is
  one step, and the driver's answers come with the action.
-/

namespace VoidInfer.Exl3.GrowableRegion

open MappedRanges Function

/-! ## The driver -/

inductive LocationType where
  | device
  | host
  | hostNuma
deriving DecidableEq

/-- `CUmemLocation`. -/
structure Location where
  type : LocationType
  id : Int
deriving DecidableEq

/-- A physical chunk: which allocation it is, and its size. -/
structure Handle where
  allocation : Nat
  bytes : Nat
deriving DecidableEq

/-- What the driver keeps: every allocation it made, every release, the reserved ranges and the mappings. -/
structure Cuda where
  created : List Handle := []
  released : List Handle := []
  reserved : List (Nat × Nat) := []
  maps : List (Mapping Handle) := []

/-- A chunk that was made and not released. -/
def Cuda.Live (c : Cuda) (h : Handle) : Prop := h ∈ c.created ∧ h ∉ c.released

instance (c : Cuda) (h : Handle) : Decidable (c.Live h) := inferInstanceAs (Decidable (_ ∧ _))

section
variable (c : Cuda)

def Cuda.nextHandle (size : Nat) : Handle := { allocation := c.created.length, bytes := size }

/-- `cuMemCreate`, where it succeeds. -/
def Cuda.cuMemCreate (size : Nat) : Cuda :=
  { c with created := c.created ++ [c.nextHandle size] }

def Cuda.cuMemRelease (h : Handle) : Cuda := { c with released := c.released ++ [h] }

/-- `cuMemMap`: the range is reserved and nothing is mapped in it yet. It may also fail for
    reasons of its own (`success`). -/
def Cuda.cuMemMap (success : Bool) (address size : Nat) (handle : Handle) : Option Cuda :=
  if success = true ∧ c.Live handle ∧ (∃ e ∈ c.reserved, e.1 ≤ address ∧ address + size ≤ e.1 + e.2) ∧
      ∀ m ∈ c.maps, m.address + m.size ≤ address ∨ address + size ≤ m.address then
    some { c with maps := c.maps ++ [{ address, size, handle }] }
  else none

/-- `cuMemUnmap`: the mappings of the range go. -/
def Cuda.cuMemUnmap (address size : Nat) : Cuda :=
  { c with maps := clear address size c.maps }

/-- `cuMemAddressReserve`: some range that meets no reserved one, or nothing. -/
def Cuda.cuMemAddressReserve (address size : Nat) : Option Cuda :=
  if 0 < address ∧ ∀ e ∈ c.reserved, e.1 + e.2 ≤ address ∨ address + size ≤ e.1 then
    some { c with reserved := c.reserved ++ [(address, size)] }
  else none

def Cuda.cuMemAddressFree (address size : Nat) : Cuda :=
  { c with reserved := c.reserved.filter fun e => ¬ e = (address, size) }

end

/-! ## Regions and the pool -/

/-- `Exl3GrowableDeviceRegion`, the mutex apart. Address 0 is no range. -/
structure Region where
  base : Nat := 0
  window : Nat := 0
  capacity : Nat := 0
  granularity : Nat := 0
  mapped : Nat := 0
  location : Location
  handles : List Handle := []

def Region.hostBacked (region : Region) : Bool := decide (region.location.type ≠ .device)

/-- `round_up`, in `size_t`. -/
def Region.roundUp (region : Region) (bytes : Nat) : Nat :=
  if region.granularity = 0 then bytes
  else (bytes + region.granularity - 1) % 2 ^ 64 / region.granularity * region.granularity

/-- `HostPool`; `refilling` says that `refill` is valid and not ready. -/
structure HostPool where
  handles : List Handle := []
  granularity : Nat := 0
  location : Location := ⟨.device, 0⟩
  refilling : Bool := false

def HostPool.matches (pool : HostPool) (granularity : Nat) (location : Location) : Bool :=
  decide (pool.granularity = granularity ∧ pool.location = location)

/-- The head of `give_back` and of the refill's push: an empty pool takes on the chunk's granularity and location. -/
def HostPool.adopt (pool : HostPool) (granularity : Nat) (location : Location) : HostPool :=
  if pool.handles = [] then { pool with granularity, location } else pool

def kExl3HostReserveBytes : Nat := 8 * 2 ^ 30

/-- Host bytes that must be available for a chunk to be pooled: the reserve and 2 GiB. -/
def kExl3HostReliefBytes : Nat := kExl3HostReserveBytes + 2 * 2 ^ 30

/-! ## Threads -/

/-- Where a thread is. In `creating`, `mapping`, `shrink` and `reset` it holds the region's mutex. -/
inductive Thread (ρ : Type) where
  | idle
  | threw (what : String)
  /-- At the head of the loop of `ensure`. -/
  | ensure (r : ρ) (bytes : Nat)
  /-- The pool had no chunk: `cuMemCreate` is next. -/
  | creating (r : ρ) (bytes mapped : Nat)
  /-- A chunk in hand, to be mapped. -/
  | mapping (r : ρ) (bytes mapped : Nat) (handle : Handle)
  /-- `shrink` found a range and waits for the mutex. -/
  | shrinkLock (r : ρ) (bytes : Nat)
  /-- At the head of the loop of `shrink`. -/
  | shrink (r : ρ) (bytes mapped : Nat)
  /-- `reset` found a range and waits for the mutex. -/
  | resetLock (r : ρ)
  /-- At the head of the loop of `reset`. -/
  | reset (r : ρ) (mapped : Nat)
  /-- `release_host_pool`, with the chunks it took out. -/
  | release (handles : List Handle)
  /-- The worker of a refill, before it has a scratch range. -/
  | refillStart (granularity : Nat) (location : Location) (goal : Nat)
  /-- At the head of the worker's loop. -/
  | refill (granularity : Nat) (location : Location) (goal scratch : Nat)
  /-- A new chunk, to be mapped once at the scratch range. -/
  | touching (granularity : Nat) (location : Location) (goal scratch : Nat) (handle : Handle)
  /-- A chunk to be pushed. -/
  | pushing (granularity : Nat) (location : Location) (goal scratch : Nat) (handle : Handle)

variable {ρ τ : Type}

/-- The region whose mutex the thread holds. -/
def Thread.section? : Thread ρ → Option ρ
  | .creating r _ _ => some r
  | .mapping r _ _ _ => some r
  | .shrink r _ _ => some r
  | .reset r _ => some r
  | _ => none

/-- The chunks that only the thread's own variables name. -/
def Thread.inHand : Thread ρ → List Handle
  | .mapping _ _ _ h => [h]
  | .release hs => hs
  | .touching _ _ _ _ h => [h]
  | .pushing _ _ _ _ h => [h]
  | _ => []

/-- The process: the regions with their mutexes, the pool, the driver, the ledger and the threads. -/
structure World (ρ τ : Type) where
  regions : ρ → Region
  mutex : ρ → Option τ := fun _ => none
  pool : HostPool := {}
  cuda : Cuda := {}
  plane_bytes : Int := 0
  plane_pool_bytes : Int := 0
  threads : τ → Thread ρ := fun _ => .idle

variable [DecidableEq ρ] [DecidableEq τ]

namespace World

section
variable (w : World ρ τ)

def goTo (t : τ) (thread : Thread ρ) : World ρ τ :=
  { w with threads := Function.update w.threads t thread }

def lock (t : τ) (r : ρ) : World ρ τ :=
  { w with mutex := Function.update w.mutex r (some t) }

def unlock (r : ρ) : World ρ τ :=
  { w with mutex := Function.update w.mutex r none }

def setRegion (r : ρ) (region : Region) : World ρ τ :=
  { w with regions := Function.update w.regions r region }

def releaseHandle (h : Handle) : World ρ τ := { w with cuda := w.cuda.cuMemRelease h }

/-- `Exl3HostMemoryLedger::get().plane_bytes += bytes`, for host-backed regions. -/
def addPlaneBytes (region : Region) (bytes : Int) : World ρ τ :=
  { w with plane_bytes := if region.hostBacked then w.plane_bytes + bytes else w.plane_bytes }

end

/-! ## `ensure` -/

section
variable (w : World ρ τ) (t : τ) (r : ρ)

/-- The head of `ensure`: `bytes` up to whole chunks, at most the capacity. -/
def callEnsure (bytes : Nat) : World ρ τ :=
  let region := w.regions r
  if region.base = 0 then w.goTo t (.threw "growable region not reserved")
  else w.goTo t (.ensure r (min (region.roundUp bytes) region.capacity))

/-- A round's lock, second test and `take_pooled`. -/
def take (bytes : Nat) : World ρ τ :=
  let region := w.regions r
  if bytes ≤ region.mapped then w.goTo t .idle
  else
    let w := w.lock t r
    match w.pool.handles.getLast? with
    | some h =>
      if region.hostBacked = true ∧ w.pool.matches region.granularity region.location = true then
        { w with
          pool := { w.pool with handles := w.pool.handles.dropLast }
          plane_pool_bytes := w.plane_pool_bytes - region.granularity }.goTo t (.mapping r bytes region.mapped h)
      else w.goTo t (.creating r bytes region.mapped)
    | none => w.goTo t (.creating r bytes region.mapped)

def create (bytes mapped : Nat) (success : Bool) : World ρ τ :=
  let granularity := (w.regions r).granularity
  if success then
    { w with cuda := w.cuda.cuMemCreate granularity }.goTo t
      (.mapping r bytes mapped (w.cuda.nextHandle granularity))
  else (w.unlock r).goTo t (.threw "growable region create")

end

/-- The driver's answers to one round's calls. -/
structure MapAnswers where
  map : Bool := true
  access : Bool := true
  windowMap : Bool := true
  windowAccess : Bool := true

/-- A failed round: `cuMemRelease`, then the throw. -/
def mapFails (w : World ρ τ) (t : τ) (r : ρ) (cuda : Cuda) (handle : Handle) (what : String) : World ρ τ :=
  (({ w with cuda }.releaseHandle handle).unlock r).goTo t (.threw what)

/-- The round's window calls: the driver afterwards, or the failure. -/
def mapWindow (cuda : Cuda) (region : Region) (mapped : Nat) (handle : Handle) (answers : MapAnswers) : Cuda × Bool :=
  if region.window = 0 then (cuda, true)
  else
    match cuda.cuMemMap answers.windowMap (region.window + mapped) region.granularity handle with
    | none => (cuda, false)
    | some cuda => (cuda, answers.windowAccess)

/-- The rest of a round, with the chunk in hand. -/
def map (w : World ρ τ) (t : τ) (r : ρ) (bytes mapped : Nat) (handle : Handle) (answers : MapAnswers) : World ρ τ :=
  let region := w.regions r
  let granularity := region.granularity
  match w.cuda.cuMemMap answers.map (region.base + mapped) granularity handle with
  | none => w.mapFails t r w.cuda handle "growable region map"
  | some cuda =>
    if answers.access = false then
      w.mapFails t r (cuda.cuMemUnmap (region.base + mapped) granularity) handle "growable region access"
    else
      let windowed := mapWindow cuda region mapped handle answers
      if windowed.2 = false then
        w.mapFails t r ((windowed.1.cuMemUnmap (region.window + mapped) granularity).cuMemUnmap
          (region.base + mapped) granularity) handle "growable region window map"
      else
        (((({ w with cuda := windowed.1 }.setRegion r
          { region with handles := region.handles ++ [handle], mapped := mapped + granularity }).addPlaneBytes
            region granularity).unlock r)).goTo t (.ensure r bytes)

/-! ## `shrink` and `reset` -/

section
variable (w : World ρ τ)

/-- `give_back`, of region `r`'s chunk: to the pool where it fits, else released. -/
def giveBack (cap : Nat) (region : Region) (handle : Handle) (available : Option Nat) : World ρ τ :=
  let pool := w.pool.adopt region.granularity region.location
  if region.hostBacked = true ∧ kExl3HostReliefBytes ≤ available.getD 0 then
    if pool.matches region.granularity region.location = true ∧
        (pool.handles.length + 1) * region.granularity ≤ cap then
      { w with
        pool := { pool with handles := pool.handles ++ [handle] }
        plane_pool_bytes := w.plane_pool_bytes + region.granularity }
    else { w with pool }.releaseHandle handle
  else w.releaseHandle handle

def callShrink (t : τ) (r : ρ) (bytes : Nat) : World ρ τ :=
  if (w.regions r).base = 0 then w else w.goTo t (.shrinkLock r bytes)

def lockShrink (t : τ) (r : ρ) (bytes : Nat) : World ρ τ :=
  let region := w.regions r
  (w.lock t r).goTo t (.shrink r (min (region.roundUp bytes) region.capacity) region.mapped)

/-- A round of `shrink`, or its end. -/
def shrink (cap : Nat) (t : τ) (r : ρ) (bytes mapped : Nat) (available : Option Nat) : World ρ τ :=
  let region := w.regions r
  match region.handles.getLast? with
  | some h =>
    if bytes < mapped then
      let mapped := mapped - region.granularity
      let cuda := if region.window = 0 then w.cuda
        else w.cuda.cuMemUnmap (region.window + mapped) region.granularity
      let cuda := cuda.cuMemUnmap (region.base + mapped) region.granularity
      (((({ w with cuda }.setRegion r { region with handles := region.handles.dropLast }).giveBack cap region h
        available).addPlaneBytes region (-region.granularity))).goTo t (.shrink r bytes mapped)
    else ((w.setRegion r { region with mapped }).unlock r).goTo t .idle
  | none => ((w.setRegion r { region with mapped }).unlock r).goTo t .idle

def callReset (t : τ) (r : ρ) : World ρ τ :=
  if (w.regions r).base = 0 then w else w.goTo t (.resetLock r)

def lockReset (t : τ) (r : ρ) : World ρ τ :=
  let region := w.regions r
  let cuda := if region.window ≠ 0 ∧ region.mapped ≠ 0 then w.cuda.cuMemUnmap region.window region.mapped
    else w.cuda
  (({ w with cuda }.setRegion r { region with window := 0 }).lock t r).goTo t (.reset r region.mapped)

/-- A round of `reset`, or its end. -/
def reset (cap : Nat) (t : τ) (r : ρ) (mapped : Nat) (available : Option Nat) : World ρ τ :=
  let region := w.regions r
  match region.handles.getLast? with
  | some h =>
    let mapped := mapped - region.granularity
    let cuda := w.cuda.cuMemUnmap (region.base + mapped) region.granularity
    (((({ w with cuda }.setRegion r { region with handles := region.handles.dropLast }).giveBack cap region h
      available).addPlaneBytes region (-region.granularity))).goTo t (.reset r mapped)
  | none =>
    (({ w with cuda := w.cuda.cuMemAddressFree region.base region.capacity }.setRegion r
      { region with base := 0, mapped := 0 }).unlock r).goTo t .idle

end

/-! ## Windows -/

/-- The loop of `attach_window`: the driver after the maps that succeeded, and the index of the first that failed. -/
def attachLoop (answers : Nat → Bool) (window granularity : Nat) (cuda : Cuda) :
    Nat → List Handle → Cuda × Option Nat
  | _, [] => (cuda, none)
  | index, h :: rest =>
    match cuda.cuMemMap (answers index) (window + index * granularity) granularity h with
    | none => (cuda, some index)
    | some cuda => attachLoop answers window granularity cuda (index + 1) rest

def attachWindow (w : World ρ τ) (t : τ) (r : ρ) (window : Nat) (answers : Nat → Bool) (access : Bool) : World ρ τ :=
  let region := w.regions r
  if region.window ≠ 0 then w.goTo t (.threw "growable region window already attached")
  else
    match attachLoop answers window region.granularity w.cuda 0 region.handles with
    | (cuda, some index) =>
      { w with cuda := if index = 0 then cuda else cuda.cuMemUnmap window (index * region.granularity) }.goTo t
        (.threw "growable region window map")
    | (cuda, none) =>
      if region.mapped ≠ 0 ∧ access = false then
        { w with cuda := cuda.cuMemUnmap window region.mapped }.goTo t (.threw "growable region window access")
      else { w with cuda }.setRegion r { region with window }

def detachWindow (w : World ρ τ) (r : ρ) : World ρ τ :=
  let region := w.regions r
  if region.window = 0 then w
  else
    { w with cuda := if region.mapped = 0 then w.cuda else w.cuda.cuMemUnmap region.window region.mapped }.setRegion
      r { region with window := 0 }

/-! ## The pool -/

section
variable (w : World ρ τ)

/-- `release_host_pool`: every pooled chunk is taken out under the pool's mutex. -/
def callRelease (t : τ) : World ρ τ :=
  { w with
    pool := { w.pool with handles := [] }
    plane_pool_bytes := w.plane_pool_bytes - (w.pool.handles.length * w.pool.granularity : Nat) }.goTo t
      (.release w.pool.handles)

/-- `top_up_host_pool_async`; `t` is the worker it starts. -/
def topUp (cap : Nat) (t : τ) (r : ρ) (target : Nat) (available : Option Nat) (context : Bool) : World ρ τ :=
  let region := w.regions r
  if region.hostBacked = false ∨ region.base = 0 then w
  else if available.getD 0 < kExl3HostReliefBytes + target ∨ context = false then w
  else if w.pool.refilling = true then w
  else if w.pool.handles ≠ [] ∧ w.pool.matches region.granularity region.location = false then w
  else
    let goal := min target cap / region.granularity
    if goal ≤ w.pool.handles.length then w
    else { w with pool := { w.pool with refilling := true } }.goTo t
      (.refillStart region.granularity region.location goal)

/-- The worker returns. -/
def refillEnds (t : τ) (granularity scratch : Nat) : World ρ τ :=
  { w with
    pool := { w.pool with refilling := false }
    cuda := w.cuda.cuMemAddressFree scratch granularity }.goTo t .idle

section
variable (t : τ) (granularity : Nat) (location : Location)

def refillStart (goal : Nat) (context : Bool) (scratch : Nat) : World ρ τ :=
  match if context then w.cuda.cuMemAddressReserve scratch granularity else none with
  | none => { w with pool := { w.pool with refilling := false } }.goTo t .idle
  | some cuda => { w with cuda }.goTo t (.refill granularity location goal scratch)

def refill (goal scratch : Nat) (success : Bool) : World ρ τ :=
  if goal ≤ w.pool.handles.length ∨ success = false then w.refillEnds t granularity scratch
  else { w with cuda := w.cuda.cuMemCreate granularity }.goTo t
    (.touching granularity location goal scratch (w.cuda.nextHandle granularity))

/-- The scratch mapping, made and undone. -/
def touch (goal scratch : Nat) (handle : Handle) (mapped touched : Bool) : World ρ τ :=
  match w.cuda.cuMemMap mapped scratch granularity handle with
  | none => (w.releaseHandle handle).refillEnds t granularity scratch
  | some cuda =>
    let w := { w with cuda := cuda.cuMemUnmap scratch granularity }
    if touched then w.goTo t (.pushing granularity location goal scratch handle)
    else (w.releaseHandle handle).refillEnds t granularity scratch

def push (goal scratch : Nat) (handle : Handle) : World ρ τ :=
  let pool := w.pool.adopt granularity location
  if pool.matches granularity location = true then
    { w with
      pool := { pool with handles := pool.handles ++ [handle] }
      plane_pool_bytes := w.plane_pool_bytes + granularity }.goTo t (.refill granularity location goal scratch)
  else ({ w with pool }.releaseHandle handle).refillEnds t granularity scratch

end

end

end World

/-! ## Steps -/

/-- What a thread does next. An idle thread calls; any other goes on where it is, with the
    driver's and the system's answers. -/
inductive Action (ρ : Type) where
  | ensure (r : ρ) (bytes : Nat)
  | shrink (r : ρ) (bytes : Nat)
  | attachWindow (r : ρ) (window : Nat) (answers : Nat → Bool) (access : Bool)
  | detachWindow (r : ρ)
  | reset (r : ρ)
  | releaseHostPool
  | topUp (r : ρ) (target : Nat) (available : Option Nat) (context : Bool)
  | goOn (available : Option Nat) (success : Bool) (answers : World.MapAnswers) (scratch : Nat)

/-- One step of thread `t`; `none` where it cannot take it (it waits for a mutex, or is not at
    that point). `cap` is `host_pool_cap()`. -/
def step (cap : Nat) (w : World ρ τ) (t : τ) (a : Action ρ) : Option (World ρ τ) :=
  match w.threads t, a with
  | .idle, .ensure r bytes => some (w.callEnsure t r bytes)
  | .idle, .shrink r bytes => some (w.callShrink t r bytes)
  | .idle, .attachWindow r window answers access =>
    if w.mutex r = none then some (w.attachWindow t r window answers access) else none
  | .idle, .detachWindow r => if w.mutex r = none then some (w.detachWindow r) else none
  | .idle, .reset r => some (w.callReset t r)
  | .idle, .releaseHostPool => some (w.callRelease t)
  | .idle, .topUp r target available context => some (w.topUp cap t r target available context)
  | .threw _, .goOn .. => some (w.goTo t .idle)
  | .ensure r bytes, .goOn .. =>
    if bytes ≤ (w.regions r).mapped then some (w.goTo t .idle)
    else if w.mutex r = none then some (w.take t r bytes) else none
  | .creating r bytes mapped, .goOn _ success _ _ => some (w.create t r bytes mapped success)
  | .mapping r bytes mapped h, .goOn _ _ answers _ => some (w.map t r bytes mapped h answers)
  | .shrinkLock r bytes, .goOn .. => if w.mutex r = none then some (w.lockShrink t r bytes) else none
  | .resetLock r, .goOn .. => if w.mutex r = none then some (w.lockReset t r) else none
  | .shrink r bytes mapped, .goOn available _ _ _ => some (w.shrink cap t r bytes mapped available)
  | .reset r mapped, .goOn available _ _ _ => some (w.reset cap t r mapped available)
  | .release [], .goOn .. => some (w.goTo t .idle)
  | .release (h :: rest), .goOn .. => some ((w.releaseHandle h).goTo t (.release rest))
  | .refillStart g l goal, .goOn _ context _ scratch => some (w.refillStart t g l goal context scratch)
  | .refill g l goal scratch, .goOn _ success _ _ => some (w.refill t g l goal scratch success)
  | .touching g l goal scratch h, .goOn _ touched answers _ =>
    some (w.touch t g l goal scratch h answers.map touched)
  | .pushing g l goal scratch h, .goOn .. => some (w.push t g l goal scratch h)
  | _, _ => none

end VoidInfer.Exl3.GrowableRegion
