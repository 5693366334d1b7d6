import Mathlib.Data.List.Dedup
import Mathlib.Data.List.Sort
import VoidInfer.Base
import VoidInfer.Lib.Chunks
import VoidInfer.Lib.Throwing
import VoidInfer.Lib.Window

/-
  Lane-backed exact KV pages (`exl3/lane_kv_source.h`, `exl3/exact_kv_extent.h`, `exl3/kv_spill_store.h`). The rows of
  an exported page are at first only in the planes of the lane that wrote them. Before those rows change, the lane's
  source fills the page: it packs the rows against their codes, spills them to disk, or copies them out. A restore
  copies them into other planes and re-homes the page there.

  A row is the K and V words of one position in every bank, as one value of `Row`. The packer, and what the host answers
  when asked about memory, disk and pins, are parameters (`Host`): every question is asked at its own time and may be
  answered in any way. CUDA calls and host allocations succeed. A page's `source` and `source_id`, which the code sets
  together, are one field.
-/

namespace VoidInfer.Exl3.LaneKv

open Window Chunks Function

/-! ## Data -/

/-- `kRowWords`: FP16 words of one row and bank. -/
def rowWords : Nat := 1024

/-- `kStageRows`. -/
def stageRows : Nat := 8192

/-- `kSpillPages`: pages of one spill window. -/
def spillPages : Nat := 16

/-- `kBatch` of `spill_filled`. -/
def spillBatch : Nat := 32

/-- `kSlotBytes`. -/
def slotBytes : Nat := 64 * 1024 * 2 * 2 * 16

def sector : Nat := 4096

/-- `Exl3ExactKVPage`. `spill` is `none` for the slot -1. -/
structure Page (Row Codes : Type) where
  first : Nat
  rows : Nat
  payload : List Row := []
  source : Option Nat := none
  deferred : Bool := false
  spill : Option Nat := none
  codes : Option Codes := none
  packed : List UInt8 := []
  packedRam : Bool := false
  spillPackedBytes : Nat := 0
deriving DecidableEq

/-- What a spill slot was last written with; a failed write leaves anything. -/
inductive SlotData (Row : Type) where
  | torn
  | rows (rows : List Row)
  | blob (blob : List UInt8)

/-- `Exl3KvSpillStore`: `free_` (its back first), `next_`, and the file. -/
structure Store (Row : Type) where
  free : List Nat := []
  next : Nat := 0
  slots : Nat → SlotData Row := fun _ => .torn

/-- Who binds a plane set: a context, the relief pass, or the release of idle rows. -/
inductive Owner where
  | context (id : Nat)
  | relief
  | idle

/-- `Exl3LaneKvSource`: the pages it tracks, and its plane set. The rows in its planes are in `State.planes`. -/
structure Source where
  pages : List Nat := []
  liveHint : Nat := 0
  backing : Bool := false
  releaseRows : Bool := false
  bound : Option Owner := none

/-- The pages alive, the rows in the planes of each source, the sources, those registered,
    the spill store, and the number of questions asked so far. -/
structure State (Row Codes : Type) where
  pages : Nat → Option (Page Row Codes) := fun _ => none
  planes : Nat → Nat → Row
  sources : Nat → Source := fun _ => {}
  registry : List Nat := []
  store : Store Row := {}
  clock : Nat := 0

/-- The process: its configuration, the packer (`l0_kv_pack.cuh`, lossless), and the answers
    of the host. The first argument of an answer is the time of the question. -/
structure Host (Row Codes : Type) where
  banks : Nat
  packEnabled : Bool
  spillStore : Bool
  codesBanks : Codes → Nat
  pack : Codes → List Row → List UInt8
  unpack : Codes → Nat → List UInt8 → List Row
  lossless : ∀ codes rows, pack codes rows ≠ [] →
    unpack codes rows.length (pack codes rows) = rows
  underPressure : Nat → Nat → Bool
  memoryShort : Nat → Nat → Bool
  hasRoom : Nat → Nat → Bool
  written : Nat → Nat → Bool
  readable : Nat → Nat → Bool
  pins : Nat → Nat → Nat
  released : Nat → Nat → Row

variable {Row Codes : Type}

/-- Code over the state that may throw. -/
abbrev M (Row Codes : Type) := EStateM Exn (State Row Codes)

/-- One question to the host. -/
def ask {α : Type} (answer : Nat → α) : M Row Codes α := do
  let σ ← get
  modify fun σ => { σ with clock := σ.clock + 1 }
  return answer σ.clock

/-! ## Pages -/

namespace Page

section
variable (page : Page Row Codes)

def spilled : Bool := page.spill.isSome

/-- The rows still live only in the planes of `s`. -/
def holds (s : Nat) : Bool :=
  page.source == some s && page.deferred && !page.spilled && !page.packedRam

/-- The rows live only in the packed blob, owned by `s`. -/
def packedHere (s : Nat) : Bool :=
  page.source == some s && page.deferred && page.packedRam

/-- The rows live only in the spill slot, owned by `s`. -/
def spilledHere (s : Nat) : Bool :=
  page.source == some s && page.deferred && page.spilled

def sized : Bool := page.payload.length == page.rows

def dropPacked : Page Row Codes :=
  { page with packed := [], packedRam := false }

def releasePayload : Page Row Codes := { page with payload := [] }.dropPacked

/-- The page names row `row`. -/
def Covers (row : Nat) : Prop :=
  page.first ≤ row ∧ row < page.first + page.rows

end

end Page

namespace State

section
variable (σ : State Row Codes)

/-- The page with every field as given. -/
def put (p : Nat) (page : Page Row Codes) : State Row Codes :=
  { σ with pages := Function.update σ.pages p (some page) }

def setSource (s : Nat) (source : Source) : State Row Codes :=
  { σ with sources := Function.update σ.sources s source }

/-- `rows` over the planes of `s` from row `first` on. -/
def writePlanes (s first : Nat) (rows : List Row) : State Row Codes :=
  { σ with planes := Function.update σ.planes s (overwrite (σ.planes s) first rows) }

/-- The rows the page names, in the planes of `s`. -/
def planeRows (s : Nat) (page : Page Row Codes) : List Row :=
  window (σ.planes s) page.first page.rows

def first (p : Nat) : Nat := (σ.pages p).elim 0 Page.first

def rows (p : Nat) : Nat := (σ.pages p).elim 0 Page.rows

/-- The page is alive and `pred` holds of it. -/
def satisfies (p : Nat) (pred : Page Row Codes → Bool) : Bool :=
  (σ.pages p).any pred

end

end State

/-- `unique_pages`: each page once, in address order. -/
def uniquePages (pages : List Nat) : List Nat := (pages.insertionSort (· ≤ ·)).dedup

/-- The tracked pages of `s` that are alive and satisfy `pred`, each once. -/
def State.collect (σ : State Row Codes) (s : Nat) (pred : Nat → Page Row Codes → Bool) : List Nat :=
  uniquePages ((σ.sources s).pages.filter fun p => σ.satisfies p (pred p))

def State.pruneLocked (σ : State Row Codes) (s : Nat) : State Row Codes :=
  let live := σ.collect s fun _ page => page.source == some s
  σ.setSource s { σ.sources s with pages := live, liveHint := live.length }

def State.trackLocked (σ : State Row Codes) (s p : Nat) : State Row Codes :=
  let σ := if 2 * (σ.sources s).liveHint + 256 ≤ (σ.sources s).pages.length then σ.pruneLocked s
    else σ
  σ.setSource s { σ.sources s with pages := (σ.sources s).pages ++ [p] }

/-! ## Spill slots -/

namespace Store

def release (store : Store Row) (slot : Nat) : Store Row := { store with free := slot :: store.free }

def allocate (store : Store Row) : Nat × Store Row :=
  match store.free with
  | slot :: free => (slot, { store with free })
  | [] => (store.next, { store with next := store.next + 1 })

end Store

/-- `reset_spill`: the slot of the page returns to the store. -/
def resetSpill (page : Page Row Codes) (store : Store Row) : Page Row Codes × Store Row :=
  ({ page with spill := none, spillPackedBytes := 0 },
    match page.spill with
    | some slot => store.release slot
    | none => store)

def allocate : M Row Codes Nat := do
  let σ ← get
  modify fun σ => { σ with store := σ.store.allocate.2 }
  return σ.store.allocate.1

def release (slot : Nat) : M Row Codes Unit :=
  modify fun σ => { σ with store := σ.store.release slot }

variable (host : Host Row Codes)

/-- `Exl3KvSpillStore::write`, true if it returned. A write of more than a slot throws. -/
def write (slot : Nat) (data : SlotData Row) (bytes : Nat) : M Row Codes Bool := do
  let ok ← ask fun t =>
    decide ((bytes + sector - 1) / sector * sector ≤ slotBytes) && host.written t slot
  modify fun σ => { σ with store := { σ.store with
    slots := Function.update σ.store.slots slot (if ok then data else .torn) } }
  return ok

def read (slot : Nat) : M Row Codes (SlotData Row) := do
  let ok ← ask fun t => host.readable t slot
  let σ ← get
  if ok then return σ.store.slots slot else throw (.runtimeError "KV spill read")

/-- The slot read as the FP16 rows of a page. -/
def SlotData.asRows : SlotData Row → List Row
  | .rows l => l
  | _ => []

/-- The first `bytes` of the slot, read as a packed blob. -/
def SlotData.asBlob (bytes : Nat) : SlotData Row → List UInt8
  | .blob l => l.take bytes
  | _ => []

def pageBytes (page : Page Row Codes) : Nat := page.rows * rowWords * 2 * 2 * host.banks

def bytesOf (σ : State Row Codes) (pages : List Nat) : Nat :=
  (pages.map fun p => (σ.pages p).elim 0 (pageBytes host)).sum

/-! ## Re-homing -/

/-- The page's copy and slot are released and its rows are those in the planes of `s`. -/
def State.rehome (σ : State Row Codes) (s p : Nat) (page : Page Row Codes) : State Row Codes :=
  let (page, store) := resetSpill page.releasePayload σ.store
  ({ σ with store }.put p { page with source := some s, deferred := true }).trackLocked s p

def defer (s p : Nat) : M Row Codes Unit :=
  modify fun σ => match σ.pages p with
    | some page => σ.rehome s p { page with codes := none }
    | none => σ

def assignCodes (s p : Nat) (codes : Option Codes) : M Row Codes Unit :=
  modify fun σ => match σ.pages p with
    | some page => if page.holds s then σ.put p { page with codes } else σ
    | none => σ

/-- One page of `adopt`. -/
def adoptOne (s p : Nat) : M Row Codes Unit := do
  let σ ← get
  match σ.pages p with
  | none => pure ()
  | some page =>
    if page.source = none ∨ (page.deferred && !page.spilled && !page.packedRam) = true then pure ()
    else do
      -- another restore still reads this page's payload
      let busy ← ask fun t => !page.deferred && decide (1 < host.pins t p)
      if busy then pure () else modify fun σ => σ.rehome s p page

def adopt (s : Nat) (pages : List Nat) : M Row Codes Unit := pages.forM (adoptOne host s)

/-! ## Filling -/

def packable (page : Page Row Codes) : Bool :=
  host.packEnabled && page.codes.any fun codes => host.codesBanks codes == host.banks

/-- The blob of the page's rows in the planes of `s`; empty if they would not shrink. -/
def packJob (σ : State Row Codes) (s : Nat) (page : Page Row Codes) : List UInt8 :=
  match page.codes with
  | some codes => host.pack codes (σ.planeRows s page)
  | none => []

/-- `pack_locked`; returns the pages it adds to `rest`. -/
def packLocked (s : Nat) : List Nat → M Row Codes (List Nat)
  | [] => return []
  | p :: pages => do
    let σ ← get
    match σ.pages p with
    | none => packLocked s pages
    | some page =>
      let blob := packJob host σ s page
      if blob.isEmpty then do
        let rest ← packLocked s pages
        return p :: rest
      else do
        modify fun σ => σ.put p { page with packed := blob, packedRam := true }
        packLocked s pages

def spillPackedLocked (p : Nat) : M Row Codes Unit := do
  let σ ← get
  match σ.pages p with
  | none => pure ()
  | some page => do
    let bytes := page.packed.length
    let room ← ask fun t => host.hasRoom t bytes
    if room then do
      let slot ← allocate
      let ok ← write host slot (.blob page.packed) bytes
      if ok then
        modify fun σ => σ.put p
          { page.dropPacked with spill := some slot, spillPackedBytes := bytes % 2 ^ 32 }
      else release slot
    else pure ()  -- stays packed in RAM

/-- A slot for each page of the window. -/
def allocateAll : List Nat → M Row Codes (List Nat)
  | [] => return []
  | _ :: pages => do
    let slot ← allocate
    let slots ← allocateAll pages
    return slot :: slots

/-- The pages' rows in the planes of `s`, each written to its slot, and which writes returned. -/
def writeAll (s : Nat) : List (Nat × Nat) → M Row Codes (List (Nat × Nat × Bool))
  | [] => return []
  | (p, slot) :: pages => do
    let σ ← get
    match σ.pages p with
    | none => do
      let written ← writeAll s pages
      return (p, slot, false) :: written
    | some page => do
      let ok ← write host slot (.rows (σ.planeRows s page)) (pageBytes host page)
      let written ← writeAll s pages
      return (p, slot, ok) :: written

/-- The pages whose write returned leave the planes; the others are returned. -/
def settleAll : List (Nat × Nat × Bool) → M Row Codes (List Nat)
  | [] => return []
  | (p, slot, ok) :: pages => do
    let σ ← get
    match σ.pages p, ok with
    | some page, true => do
      modify fun σ => σ.put p
        { page.releasePayload with spill := some slot, spillPackedBytes := 0 }
      settleAll pages
    | _, _ => do
      release slot
      let rest ← settleAll pages
      return p :: rest

/-- The windows of `spill_from_planes_locked`. -/
def spillWindows (s : Nat) : List (List Nat) → M Row Codes (List Nat)
  | [] => return []
  | pages :: rest => do
    let σ ← get
    let room ← ask fun t => host.hasRoom t (bytesOf host σ pages)
    if room then do
      let slots ← allocateAll pages
      let written ← writeAll host s (pages.zip slots)
      let unspilled ← settleAll written
      let more ← spillWindows s rest
      return unspilled ++ more
    else return (pages :: rest).flatten

/-- `spill_from_planes_locked`: the pages left in the planes. -/
def spillFromPlanesLocked (s : Nat) (pages : List Nat) : M Row Codes (List Nat) :=
  spillWindows host s (chunks spillPages [] pages)

/-- The page's rows copied out of the planes of `s`, the end of `fill_locked`. -/
def fillOne (s p : Nat) : M Row Codes Unit :=
  modify fun σ => match σ.pages p with
    | some page => σ.put p { page with payload := σ.planeRows s page, deferred := false }
    | none => σ

/-- By first row. -/
def State.sorted (σ : State Row Codes) (pages : List Nat) : List Nat :=
  pages.insertionSort fun a b => σ.first a ≤ σ.first b

section
variable (s : Nat) (pages : List Nat)

/-- The packing half of `fill_locked`: the pages left in the planes. -/
def packFirst : M Row Codes (List Nat) := do
  let σ ← get
  let packing := pages.filter fun p => σ.satisfies p (packable host)
  let rest := pages.filter fun p => !σ.satisfies p (packable host)
  if packing.isEmpty then return pages
  else do
    let more ← packLocked host s packing
    let σ ← get
    let packed := packing.filter fun p => σ.satisfies p Page.packedRam
    let bytes := (packed.map fun p => (σ.pages p).elim 0 fun page => page.packed.length).sum
    let short ← ask fun t => host.memoryShort t bytes
    if host.spillStore && !packed.isEmpty && short then packed.forM (spillPackedLocked host)
    else pure ()
    return σ.sorted (rest ++ more)

/-- The spilling half of `fill_locked`: the pages left in the planes. -/
def spillNext : M Row Codes (List Nat) := do
  let σ ← get
  let short ← ask fun t => host.memoryShort t (bytesOf host σ pages)
  let room ← ask fun t => host.hasRoom t (bytesOf host σ pages)
  if host.spillStore && short && room then spillFromPlanesLocked host s pages
  else return pages

def fillLocked (maySpill : Bool) : M Row Codes Unit := do
  let σ ← get
  let pages := σ.sorted pages
  let pages ← if maySpill then packFirst host s pages else pure pages
  let pages ← if maySpill then spillNext host s pages else pure pages
  pages.forM (fillOne s)

end

def fillWhere (s : Nat) (pred : Nat → Page Row Codes → Bool) : M Row Codes Unit := do
  let σ ← get
  fillLocked host s (σ.collect s fun p page => page.holds s && pred p page) true
  modify fun σ => σ.pruneLocked s

def materializeFrom (s row : Nat) : M Row Codes Unit :=
  fillWhere host s fun _ page => decide (row < page.first + page.rows)

def materializeExcept (s : Nat) (keep : List Nat) : M Row Codes Unit :=
  fillWhere host s fun p _ => !keep.contains p

/-! ## Reading back -/

def unpackToPayloadLocked (p : Nat) (page : Page Row Codes) (blob : List UInt8) : M Row Codes Unit :=
  match page.codes with
  | none => throw (.logicError "lane KV packed page without codes")
  | some codes => modify fun σ =>
    let page := { page with payload := host.unpack codes page.rows blob }.dropPacked
    let (page, store) := resetSpill page σ.store
    { σ with store }.put p { page with deferred := false }

/-- `unspill_locked`, with the page's slot. -/
def unspillLocked (p : Nat) (page : Page Row Codes) (slot : Nat) : M Row Codes Unit := do
  let data ← read host slot
  if page.spillPackedBytes ≠ 0 then
    unpackToPayloadLocked host p page (data.asBlob page.spillPackedBytes)
  else modify fun σ =>
    let (page, store) := resetSpill { page with payload := data.asRows } σ.store
    { σ with store }.put p { page with deferred := false }

def materialize (s p : Nat) : M Row Codes Unit := do
  let σ ← get
  match σ.pages p with
  | none => pure ()
  | some page =>
    if page.spilledHere s then unspillLocked host p page (page.spill.getD 0)
    else if page.packedHere s then unpackToPayloadLocked host p page page.packed
    else if page.holds s then fillLocked host s [p] false
    else pure ()

/-! ## Exchange -/

/-- A page of the restored history and the page of these planes it trades places with. -/
structure Pair where
  incoming : Nat
  outgoing : Nat

def byRows (σ : State Row Codes) (a b : Nat) : Bool :=
  if σ.first a ≠ σ.first b then decide (σ.first a < σ.first b) else decide (σ.rows a < σ.rows b)

/-- The page is filled, lane-backed, of full size, and no other reader pins it. -/
def exchangeable (t : Nat) (σ : State Row Codes) (p : Nat) : Bool :=
  σ.satisfies p fun page =>
    page.source.isSome && !page.deferred && !decide (1 < host.pins t p) && page.sized

/-- The first outgoing page not below `incoming` that is not paired yet, if its rows are those of `incoming`. -/
def partnerOf (σ : State Row Codes) (outgoing paired : List Nat) (incoming : Nat) : Option Nat :=
  match (outgoing.dropWhile fun out => byRows σ out incoming).dropWhile (paired.contains ·) with
  | out :: _ =>
    if σ.first out = σ.first incoming ∧ σ.rows out = σ.rows incoming then some out else none
  | [] => none

/-- The pairs, in the order of `incoming`; `paired` are the outgoing pages taken. -/
def pairUp (t : Nat) (σ : State Row Codes) (outgoing : List Nat) : List Nat → List Nat → List Pair
  | _, [] => []
  | paired, p :: incoming =>
    if exchangeable host t σ p then
      match partnerOf σ outgoing paired p with
      | some out => ⟨p, out⟩ :: pairUp t σ outgoing (out :: paired) incoming
      | none => pairUp t σ outgoing paired incoming
    else pairUp t σ outgoing paired incoming

/-- The contiguous runs of pairs, of at most one stage of rows each. `run` is the run being
    built, over rows `lo` to `hi`. -/
def runsFrom (σ : State Row Codes) (lo hi : Nat) (run : List Pair) : List Pair → List (List Pair)
  | [] => [run]
  | pair :: pairs =>
    if σ.first pair.incoming = hi ∧ hi + σ.rows pair.incoming - lo ≤ stageRows then
      runsFrom σ lo (hi + σ.rows pair.incoming) (run ++ [pair]) pairs
    else
      run :: runsFrom σ (σ.first pair.incoming) (σ.first pair.incoming + σ.rows pair.incoming)
        [pair] pairs

def runs (σ : State Row Codes) : List Pair → List (List Pair)
  | [] => []
  | pair :: pairs =>
    runsFrom σ (σ.first pair.incoming) (σ.first pair.incoming + σ.rows pair.incoming) [pair] pairs

/-- `exchange_run_locked`, one pair: the plane rows and the buffers of the incoming page trade places. -/
def swapRows (s : Nat) (pair : Pair) : M Row Codes Unit :=
  modify fun σ => match σ.pages pair.incoming with
    | some page =>
      (σ.writePlanes s page.first page.payload).put pair.incoming
        { page with payload := σ.planeRows s page }
    | none => σ

/-- The outgoing page takes the buffers, and the incoming page is re-homed here. -/
def handOver (s : Nat) (pair : Pair) : M Row Codes Unit :=
  modify fun σ => match σ.pages pair.incoming, σ.pages pair.outgoing with
    | some incoming, some outgoing =>
      let σ := σ.put pair.outgoing { outgoing with payload := incoming.payload, deferred := false }
      let incoming := incoming.releasePayload
      (σ.put pair.incoming { incoming with source := some s, deferred := true }).trackLocked s
        pair.incoming
    | _, _ => σ

/-- One run of `exchange`. -/
def exchangeRun (s : Nat) (run : List Pair) : M Row Codes Unit := do
  let σ ← get
  let valid ← ask fun t => run.all fun pair =>
    exchangeable host t σ pair.incoming && σ.satisfies pair.outgoing (·.holds s)
  if valid then do
    run.forM (swapRows s)
    run.forM (handOver s)
  else
    -- the planes stay unchanged for these rows: keep the outgoing rows
    fillLocked host s
      ((run.map Pair.outgoing).filter fun p => σ.satisfies p (·.holds s)) true

def exchange (s : Nat) (incoming : List Nat) : M Row Codes Unit := do
  let σ ← get
  let outgoing := (σ.collect s fun p page => page.holds s && !incoming.contains p).insertionSort
    fun a b => ¬ byRows σ b a
  if outgoing.isEmpty then pure ()
  else do
    let pairs ← ask fun t => pairUp host t σ outgoing [] incoming
    let pairs := pairs.insertionSort fun a b => σ.first a.incoming ≤ σ.first b.incoming
    -- unpaired outgoing pages keep their rows before the planes change
    fillLocked host s (outgoing.filter fun p => !(pairs.map Pair.outgoing).contains p) true
    (runs σ pairs).forM (exchangeRun host s)

/-! ## Memory pressure -/

/-- One page of `spill_filled`. -/
def spillOne (s p : Nat) : M Row Codes Unit := do
  let σ ← get
  match σ.pages p with
  | none => pure ()
  | some page => do
    let pinned ← ask fun t => decide (host.pins t p ≠ 0)
    if pinned then pure ()
    else if page.packedHere s then spillPackedLocked host p
    else if page.source ≠ some s ∨ page.deferred = true ∨ page.sized = false then pure ()
    else do
      let room ← ask fun t => host.hasRoom t (pageBytes host page)
      if room then do
        let slot ← allocate
        let ok ← write host slot (.rows page.payload) (pageBytes host page)
        if ok then
          modify fun σ => σ.put p
            { page.releasePayload with spill := some slot, spillPackedBytes := 0, deferred := true }
        else release slot
      else pure ()  -- stays filled in RAM

/-- The batches of `spill_filled`. -/
def spillBatches (s extra : Nat) : List (List Nat) → M Row Codes Unit
  | [] => pure ()
  | pages :: rest => do
    let pressure ← ask fun t => host.underPressure t extra
    if pressure then do
      pages.forM (spillOne host s)
      spillBatches s extra rest
    else pure ()

def spillFilled (s extra : Nat) : M Row Codes Unit := do
  let σ ← get
  spillBatches host s extra (chunks spillBatch []
    (σ.collect s fun _ page => page.source == some s && (!page.deferred || page.packedHere s)))

def State.deferredBeyond (σ : State Row Codes) (s row : Nat) : Bool :=
  (σ.sources s).pages.any fun p =>
    σ.satisfies p fun page => page.holds s && decide (row < page.first + page.rows)

/-- `release_rows_`: rows from `keep` on are no longer backed. -/
def releaseRows (s keep : Nat) : M Row Codes Unit := do
  let rows ← ask fun t => host.released t
  modify fun σ => { σ with
    planes := Function.update σ.planes s fun row => if row < keep then σ.planes s row else rows row }

def bind (s : Nat) (owner : Option Owner) : M Row Codes Unit :=
  modify fun σ => σ.setSource s { σ.sources s with bound := owner }

/-- The relief of one idle plane set. -/
def relieveIdle (s extra : Nat) : M Row Codes Unit := do
  let σ ← get
  if (σ.sources s).backing = true ∧ (σ.sources s).bound = none then do
    bind s (some .relief)
    Throwing.finally' (do
      let unpinned ← ask fun t p => decide (host.pins t p = 0)
      fillWhere host s fun p _ => unpinned p
      spillFilled host s extra
      let σ ← get
      if σ.deferredBeyond s 0 = false ∧ (σ.sources s).releaseRows = true then releaseRows host s 0
      else pure ()) fun σ => σ.setSource s { σ.sources s with bound := none }
  else pure ()

/-- One source after the other while the pressure lasts; false once it is gone. -/
def whilePressed (extra : Nat) (relieve : Nat → M Row Codes Unit) : List Nat → M Row Codes Bool
  | [] => return true
  | s :: sources => do
    relieve s
    let pressure ← ask fun t => host.underPressure t extra
    if pressure then whilePressed extra relieve sources else return false

/-- `relieve_now`, up to its evictions: those destroy pages. -/
def relieveNow (extra : Nat) : M Row Codes Unit := do
  let pressure ← ask fun t => host.underPressure t extra
  let σ ← get
  if pressure && host.spillStore then do
    let pressed ← whilePressed host extra (fun s => spillFilled host s extra) σ.registry
    if pressed then do
      let _ ← whilePressed host extra (fun s => relieveIdle host s extra) σ.registry
    else pure ()
  else pure ()

def releaseUnreferencedRows (s : Nat) : M Row Codes Unit := do
  let σ ← get
  if (σ.sources s).backing = true ∧ (σ.sources s).releaseRows = true ∧ (σ.sources s).bound = none
  then do
    bind s (some .idle)
    let held := (σ.sources s).pages.filter fun p => σ.satisfies p (·.holds s)
    releaseRows host s ((held.map fun p => σ.first p + σ.rows p).foldl max 0)
    bind s none
  else pure ()

def releaseIdleUnreferencedRows : M Row Codes Unit := do
  let σ ← get
  σ.registry.forM (releaseUnreferencedRows host)

/-! ## Copies to other planes -/

/-- `par_each`: every element runs, and the first exception is thrown at the end. -/
def parEach (f : Nat → M Row Codes Unit) (error : Option Exn) : List Nat → M Row Codes Unit
  | [] => match error with
    | some e => throw e
    | none => pure ()
  | p :: pages => do
    let error ← tryCatch (do f p; return error) fun e => return error.or (some e)
    parEach f error pages

/-- `unpack_to_planes`, one page: its blob decoded into the planes of `d`. -/
def unpackToPlanes (d : Nat) (page : Page Row Codes) (blob : List UInt8) : M Row Codes Unit :=
  match page.codes with
  | none => throw (.logicError "lane KV packed page without codes")
  | some codes => modify fun σ => σ.writePlanes d page.first (host.unpack codes page.rows blob)

def readSlotToPlanes (d : Nat) (page : Page Row Codes) : M Row Codes Unit := do
  let data ← read host (page.spill.getD 0)
  if page.spillPackedBytes ≠ 0 then
    unpackToPlanes host d page (data.asBlob page.spillPackedBytes)
  else modify fun σ => σ.writePlanes d page.first data.asRows

/-- `copy_run_to`: rows of a run of pages of `s` into the planes of `d`. -/
def copyRunTo (s : Nat) (run : List Nat) (d : Nat) : M Row Codes Bool := do
  let σ ← get
  if run.all fun p => σ.satisfies p fun page =>
      page.packedHere s || page.spilledHere s || page.holds s then do
    let packed := run.filter fun p => σ.satisfies p (·.packedHere s)
    if packed.any fun p => σ.satisfies p fun page => page.codes.isNone then
      throw (.logicError "lane KV packed page without codes")
    else pure ()
    packed.forM fun p => match σ.pages p with
      | some page => unpackToPlanes host d page page.packed
      | none => pure ()
    if !packed.isEmpty || run.any fun p => σ.satisfies p (·.spilledHere s) then
      parEach (fun p => match σ.pages p with
        | some page =>
          if page.packedHere s then pure ()
          else if page.spilledHere s then readSlotToPlanes host d page
          else modify fun σ => σ.writePlanes d page.first (σ.planeRows s page)
        | none => pure ()) none run
    else match run.head?, run.getLast? with
      | some front, some back =>
        modify fun σ => σ.writePlanes d (σ.first front)
          (window (σ.planes s) (σ.first front) (σ.first back + σ.rows back - σ.first front))
      | _, _ => pure ()
    return true
  else return false

end VoidInfer.Exl3.LaneKv
