import VoidInfer.Lib.Throwing
import VoidInfer.Exl3.VeriCacheRequest

/-
  The draft partitions of `Exl3VeriCacheRequest`: the row ranges in which the draft's conditioning was committed, and
  the tap blocks of a request that is not compact. The exact context and the drafter are their positions, which advance
  by the rows they are given; the storage of a result is planned from a row count before it is filled. A call that
  throws makes no request.
-/

namespace VoidInfer.Exl3.DraftPartitions
open MonadExcept (ofExcept)

open Throwing

/-! ## Data -/

def ringCapacity : Nat := 2048

/-- Rows `first`, …, `first + rows - 1`: an entry of `partitions_`, and the extent of a block. -/
structure Range where
  first : Int
  rows : Int
deriving DecidableEq

def Range.stop (range : Range) : Int := range.first + range.rows

/-- A request with its draft descriptors. `projected` is the position of the retained draft ring
    of a compact request. -/
structure Request extends Exl3VeriCacheRequest where
  partitions : List Range := []
  blocks : List Range := []
  projected : Option Int := none
  /-- Whether there is a `prepared_identity_`. -/
  prepared : Bool := false

/-- The exact context: its position, its limits, whether its metadata is credited, and the prompt rows it has run. -/
structure TextContext where
  position : Int
  maxContext : Int
  continuationCapacity : Int
  modelIdentity : Nat
  credited : Bool
  executed : Nat := 0
  maxContext_range : 0 < maxContext ∧ maxContext ≤ int32Max

/-- The context and the position of the drafter. -/
structure Devices where
  exact : TextContext
  draft : Int

abbrev Exec := EStateM Exn Devices

/-- `if (bad) throw e;`. -/
def check (bad : Prop) [Decidable bad] (e : Exn) : Exec Unit := ofExcept (throwIf bad e)

/-! ## Descriptors -/

/-- The descriptors of a result that is being filled, with the capacities of its vectors. -/
structure Builder where
  blocks : List Range
  partitions : List Range
  blockCapacity : Nat
  partitionCapacity : Nat
  /-- `descriptor_capacity_locked_`. -/
  locked : Bool

def plannedDescriptorCount (existing incomingRows : Nat) : Except Exn Nat := do
  throwIf (existing > ringCapacity + 1) (.logicError "request descriptor ring extent")
  return existing + min incomingRows (ringCapacity + 1 - existing)

def createPlanned (credited : Bool) (source : Option Request) (incomingRows : Nat) (retainBlocks : Bool) :
    Except Exn Builder := do
  let blocks := if retainBlocks then (source.map (·.blocks)).getD [] else []
  let partitions := (source.map (·.partitions)).getD []
  let blockCapacity ← plannedDescriptorCount blocks.length incomingRows
  let partitionCapacity ← plannedDescriptorCount partitions.length incomingRows
  return { blocks, partitions, blockCapacity, partitionCapacity, locked := credited }

/-- The ranges before `oldest` are dropped, all but the last. -/
def evict (oldest : Int) : List Range → List Range
  | front :: next :: rest => if front.stop ≤ oldest then evict oldest (next :: rest) else front :: next :: rest
  | ranges => ranges

/-- A range behind the others. -/
def push (ranges : List Range) (first rows : Int) : List Range :=
  evict (first + rows - ringCapacity) (ranges ++ [⟨first, rows⟩])

/-- The range is empty, too long, out of range or not next. -/
def Discontinuous (partitions : List Range) (first rows : Int) : Prop :=
  rows < 1 ∨ rows > 16 ∨ first < 0 ∨ first > int32Max - rows ∨
    ((partitions.getLast?).any fun last => last.stop != first) = true

instance (partitions : List Range) (first rows : Int) : Decidable (Discontinuous partitions first rows) :=
  inferInstanceAs (Decidable (_ ∨ _))

/-- `"authoritative draft block continuity"`. -/
def continuityRefusal : Exn := .invalidArgument "authoritative draft block continuity"

/-- `"credited request partition capacity exhausted"`. -/
def partitionRefusal : Exn := .logicError "credited request partition capacity exhausted"

/-- `"credited request tap descriptor capacity exhausted"`. -/
def descriptorRefusal : Exn := .logicError "credited request tap descriptor capacity exhausted"

/-- One of the refusals of a range. -/
def Refusal (e : Exn) : Prop := e = continuityRefusal ∨ e = partitionRefusal ∨ e = descriptorRefusal

instance (e : Exn) : Decidable (Refusal e) := inferInstanceAs (Decidable (_ ∨ _))

def appendPartition (b : Builder) (first rows : Int) : Except Exn Builder := do
  throwIf (b.locked = true ∧ b.partitions.length = b.partitionCapacity) partitionRefusal
  throwIf (Discontinuous b.partitions first rows) continuityRefusal
  return { b with partitions := push b.partitions first rows }

/-- `append`, with taps of the right extent. -/
def append (b : Builder) (first rows : Int) : Except Exn Builder := do
  throwIf (b.locked = true ∧
    (b.blocks.length = b.blockCapacity ∨ b.partitions.length = b.partitionCapacity)) descriptorRefusal
  throwIf (Discontinuous b.partitions first rows) continuityRefusal
  appendPartition { b with blocks := push b.blocks first rows } first rows

/-! ## The context -/

def requirePrefillWidth (width : Nat) : Except Exn Unit :=
  throwIf (width ≠ 8 ∧ width ≠ 16 ∧ width ≠ 32 ∧ width ≠ 128 ∧ width ≠ 1024)
    (.invalidArgument "request prefill width must be8/16/32/128/1024")

/-- `exl3_next_prefill_rows`, for rows that remain. -/
def nextPrefillRows (width remaining : Nat) : Nat :=
  let available := min width remaining
  if 1024 ≤ available then 1024
  else if 128 ≤ available then 128
  else if 32 ≤ available then 32
  else if 16 ≤ available then 16
  else min 8 available

/-- The rows of `exl3_prefill_chunk_step`. -/
def prefillChunkStep (width remaining : Nat) (position capacity : Int) (actualTail : Bool) : Except Exn Nat := do
  throwIf (position < 1 ∨ capacity < position ∨ remaining > capacity - position)
    (.invalidArgument "prefill suffix exceeds live context position/capacity")
  requirePrefillWidth width
  return if actualTail = true ∧ width ≥ 32 ∧ remaining ≥ 17 ∧ remaining ≤ 31 then remaining
    else nextPrefillRows width remaining

/-- Rows are run. -/
def runRows (rows : Nat) : Exec Unit :=
  modify fun s => { s with exact := { s.exact with
    position := s.exact.position + rows, executed := s.exact.executed + rows } }

/-- `restore_exact_host_state`, of a state of this model within the context's extent. -/
def restoreExactHostState (state : Option Exl3ExactHostState) : Exec Unit := do
  let s ← get
  match state with
  | none => throw (.runtimeError "exact host restore identity/extent/execution mismatch")
  | some state =>
    check (state.modelIdentity ≠ s.exact.modelIdentity ∨ state.position < 1 ∨ state.position > s.exact.maxContext)
      (.runtimeError "exact host restore identity/extent/execution mismatch")
    set { s with exact := { s.exact with position := state.position } }

def exportExactHostState : Exec (Option Exl3ExactHostState) := do
  let s ← get
  return some { position := s.exact.position, modelIdentity := s.exact.modelIdentity
                nativeExtentValid := fun maximum => Decidable.decide (s.exact.position ≤ maximum) }

def commitPrefillBlock (first rows : Int) : Exec Unit := modify fun s => { s with draft := first + rows }

/-- `for (offset = 0; offset < rows; offset += size)`, from `first` on. -/
def inPieces (size : Nat) (f : Int → Nat → Builder → Exec Builder) : Nat → Int → Nat → Builder → Exec Builder
  | 0, _, _, b => return b
  | fuel + 1, first, rows, b =>
    if rows = 0 then return b
    else do
      let count := min size rows
      let b ← f first count b
      inPieces size f fuel (first + count) (rows - count) b

/-- `retain`; a compact extension commits the fresh rows to the drafter. -/
def retain (fresh : Bool) (first : Int) (rows : Nat) (b : Builder) : Exec Builder := do
  if fresh then commitPrefillBlock first rows
  ofExcept (append b first rows)

/-- The rows of one forward call are retained at once, or eight by eight. -/
def retainChunk (fresh : Bool) (first : Int) (rows : Nat) (b : Builder) : Exec Builder :=
  if rows ≤ 8 then retain fresh first rows b else inPieces 8 (retain fresh) rows first rows b

/-- `ingest_prompt_suffix`; every chunk has a row, so the rows are fuel enough. -/
def ingestPromptSuffix (width : Nat) (fresh actualTail : Bool) : Nat → List Int → Builder → Exec Builder
  | 0, _, b => return b
  | fuel + 1, suffix, b =>
    if suffix = [] then return b
    else do
      let s ← get
      let first := s.exact.position
      let rows ← ofExcept (prefillChunkStep width suffix.length first s.exact.maxContext actualTail)
      runRows rows
      let b ← retainChunk fresh first rows b
      ingestPromptSuffix width fresh actualTail fuel (suffix.drop rows) b

/-- Tokens of the vocabulary. -/
def InVocabulary (tokens : List Int) : Prop := ∀ token ∈ tokens, 0 ≤ token ∧ token < 248320

instance (tokens : List Int) : Decidable (InVocabulary tokens) :=
  inferInstanceAs (Decidable (∀ token ∈ tokens, _))

/-- `tokens.size()>static_cast<std::size_t>(room)`: no list is as long as a negative room wraps to. -/
def exceeds (tokens : List Int) (room : Int) : Prop := 0 ≤ room ∧ tokens.length > room

instance (tokens : List Int) (room : Int) : Decidable (exceeds tokens room) := inferInstanceAs (Decidable (_ ∧ _))

/-! ## Requests from the host -/

/-- The result with its descriptors. -/
def Builder.finish (b : Builder) (request : Exl3VeriCacheRequest) : Request :=
  { request with partitions := b.partitions, blocks := b.blocks }

/-- `create_planned` under the context's credit. -/
def plan (source : Option Request) (incomingRows : Nat) (retainBlocks : Bool) : Exec Builder := do
  let s ← get
  ofExcept (createPlanned s.exact.credited source incomingRows retainBlocks)

/-- `initialize`. -/
def initializeRequest (revision : Nat) (prompt : List Int) (width : Nat) (actualTail : Bool) : Exec Request := do
  ofExcept (requirePrefillWidth width)
  let s ← get
  check (prompt = [] ∨ exceeds prompt s.exact.maxContext ∨ s.exact.continuationCapacity < 8)
    (.invalidArgument "request initialization needs prompt and prepared8")
  check (¬ InVocabulary prompt) (.invalidArgument "request prompt token extent")
  let b ← plan none prompt.length true
  set { s with exact := { s.exact with position := 0 } }
  let initial := min 16 prompt.length
  runRows initial
  let b ← ofExcept (append b 0 initial)
  let suffix := prompt.drop initial
  let b ← ingestPromptSuffix width false actualTail suffix.length suffix b
  let state ← exportExactHostState
  return b.finish (Exl3VeriCacheRequest.initializeRoot revision prompt state)

/-- A call with a handler that puts the devices back, and throws on. -/
def recovering {α : Type} (recover : Devices → Devices) (body : Exec α) : Exec α := fun s =>
  match body s with
  | .ok a s' => .ok a s'
  | .error e s' => .error e (recover s')

section
variable (request : Request)

/-- The handlers' restore of the exact state. -/
def backAt (s : Devices) : Devices :=
  { s with exact := { s.exact with position := request.position } }

def appendPrompt (revision : Nat) (suffix : List Int) (width : Nat) : Exec Request := do
  check (request.projected.isSome = true)
    (.logicError "compact prompt extension requires an explicit draft streaming path")
  check (request.prepared = true) (.logicError "prepared root needs typed control suffix execution")
  ofExcept (requirePrefillWidth width)
  let s ← get
  check (suffix = [] ∨ s.exact.continuationCapacity < 8 ∨ request.position > s.exact.maxContext ∨
    exceeds suffix (s.exact.maxContext - request.position)) (.invalidArgument "request prompt suffix extent")
  check (¬ InVocabulary suffix) (.invalidArgument "request suffix token extent")
  let b ← plan (some request) suffix.length true
  restoreExactHostState request.state
  recovering (backAt request) do
    let b ← ingestPromptSuffix width false false suffix.length suffix b
    let state ← exportExactHostState
    return b.finish (request.toExl3VeriCacheRequest.append revision suffix state)

def restoreDraft : Exec Unit :=
  match request.projected with
  | some position => do
    check (position ≠ request.position) (.logicError "compact draft target position mismatch")
    modify fun s => { s with draft := position }
  | none => do
    modify fun s => { s with draft := 0 }
    request.blocks.forM fun block => commitPrefillBlock block.first block.rows
    let s ← get
    check (s.draft ≠ request.position) (.runtimeError "restored draft ownership mismatch")

/-- The handlers' restore of the exact state and of the draft ring. -/
def bothBackAt (s : Devices) : Devices :=
  { backAt request s with draft := request.projected.getD s.draft }

/-- `append_prompt_compact`, with all staging buffers there. -/
def appendPromptCompact (revision : Nat) (suffix : List Int) (width : Nat) : Exec Request := do
  check (request.prepared = true) (.logicError "prepared root needs typed control suffix execution")
  if request.projected.isNone then appendPrompt request revision suffix width
  else do
    ofExcept (requirePrefillWidth width)
    let s ← get
    check (suffix = [] ∨ s.exact.continuationCapacity < 8 ∨ request.position > s.exact.maxContext ∨
      exceeds suffix (s.exact.maxContext - request.position)) (.invalidArgument "compact prompt suffix extent")
    check (¬ InVocabulary suffix) (.invalidArgument "compact prompt token extent")
    let b ← plan (some request) suffix.length false
    restoreExactHostState request.state
    restoreDraft request
    recovering (bothBackAt request) do
      let b ← ingestPromptSuffix width true false suffix.length suffix b
      let state ← exportExactHostState
      let s ← get
      return { b.finish (request.toExl3VeriCacheRequest.append revision suffix state) with
        projected := some s.draft, blocks := [] }

/-- `append_control_compact`; a clone keeps its source's revision. -/
def appendControlCompact (revision : Nat) (tokens : List Int) : Exec Request := do
  if request.prepared then do
    let executed ← appendPromptCompact { request with prepared := false } revision tokens 8
    return { executed with prepared := true }
  else appendPromptCompact request revision tokens 8

def compactDraft : Exec Request := do
  if request.projected.isSome then return request
  else do
    restoreDraft request
    let s ← get
    return { request with projected := some s.draft, blocks := [] }

end

def composeVerifiedChild (request parent intermediate : Request) (revision : Nat) : Exec Request := do
  check (¬ request.isChildOf intermediate.toExl3VeriCacheRequest ∨
      ¬ intermediate.isChildOf parent.toExl3VeriCacheRequest ∨
      request.state.isNone = true ∨ intermediate.state.isNone = true ∨ parent.state.isNone = true ∨
      request.modelIdentity ≠ parent.modelIdentity ∨ intermediate.position ≤ parent.position ∨
      request.position ≤ intermediate.position)
    (.invalidArgument "composed verified child lineage")
  return { request with
    toExl3VeriCacheRequest :=
      request.toExl3VeriCacheRequest.composeVerifiedChild parent.toExl3VeriCacheRequest revision }

/-! ## Verification -/

/-- What a host verifier returns for a proposal at a position: at least one row is committed, at
    most the proposal's, and the context holds them. -/
structure Verified (position maxContext : Int) (tentative : List Int) where
  committedTokens : List Int
  some_row : 0 < committedTokens.length
  in_proposal : committedTokens.length ≤ tentative.length
  in_context : position + committedTokens.length ≤ maxContext

/-- A host verifier, in a context of any extent. What it throws is not a refusal of a range. -/
structure Verifier (position : Int) (tentative : List Int) where
  call : ∀ maxContext, Except Exn (Verified position maxContext tentative)
  other : ∀ maxContext e, call maxContext = .error e → ¬ Refusal e

/-- A call of a host verifier; it leaves the context behind the committed tokens. -/
def Verifier.run {position : Int} {tentative : List Int} (verifier : Verifier position tentative) :
    Exec (List Int) := do
  let s ← get
  let verified ← ofExcept (verifier.call s.exact.maxContext)
  modify fun s => { s with exact := { s.exact with position := position + verified.committedTokens.length } }
  return verified.committedTokens

def verify (request : Request) (revision : Nat) (tentative : List Int)
    (verifier : Verifier request.position tentative) : Exec Request := do
  check (request.projected.isSome = true) (.logicError "compact request needs verify_compact with its resident drafter")
  let b ← plan (some request) tentative.length true
  let committed ← verifier.run
  let b ← ofExcept (append b request.position committed.length)
  let state ← exportExactHostState
  return { b.finish (request.toExl3VeriCacheRequest.verify revision committed state) with
    prepared := request.prepared }

/-- One block of `verify_compact`'s loop. -/
def verifyBlock (directStaging : Bool) (first : Int) (rows : Nat) (b : Builder) : Exec Builder := do
  let b ← ofExcept (if directStaging then appendPartition b first rows else append b first rows)
  commitPrefillBlock first rows
  return b

/-- `verify_compact`, with the environment's settings and staging as it requires. -/
def verifyCompact (request : Request) (revision : Nat) (tentative : List Int) (directStaging : Bool)
    (verifier : Verifier request.position tentative) : Exec Request := do
  let s ← get
  check (request.projected.isNone = true ∨ s.exact.modelIdentity ≠ request.modelIdentity)
    (.invalidArgument "compact verification reference mismatch")
  let b ← plan (some request) tentative.length false
  modify fun s => { s with draft := request.projected.getD s.draft }
  recovering (bothBackAt request) do
    let committed ← verifier.run
    let b ← inPieces 16 (verifyBlock directStaging) committed.length request.position committed.length b
    let s ← get
    check (s.draft ≠ s.exact.position) (.logicError "compact committed draft position mismatch")
    let state ← exportExactHostState
    return { b.finish (request.toExl3VeriCacheRequest.verify revision committed state) with
      projected := some s.draft, blocks := [], prepared := request.prepared }

/-! ## Requests from the device -/

/-- The state and the ring of a terminal boundary, in a request that adds no rows. -/
def deviceResult (source : Option Request) (frontier : String)
    (request : Option Exl3ExactHostState → Exl3VeriCacheRequest) : Exec Request := do
  let state ← exportExactHostState
  let s ← get
  check (s.draft ≠ s.exact.position) (.logicError frontier)
  let b ← plan source 0 false
  return { b.finish (request state) with projected := some s.draft }

def initializeDeviceRoot (revision : Nat) (prompt : List Int) : Exec Request := do
  let s ← get
  check (prompt = [] ∨ exceeds prompt s.exact.maxContext ∨ s.exact.position ≠ prompt.length ∨
    s.draft ≠ s.exact.position) (.invalidArgument "device root target/draft/prompt frontier")
  check (¬ InVocabulary prompt) (.invalidArgument "device root prompt token extent")
  deviceResult none "device root snapshot frontier changed"
    (Exl3VeriCacheRequest.initializeRoot revision prompt)

def appendDeviceTerminal (request : Request) (revision : Nat) (committedSuffix : List Int) : Exec Request := do
  let s ← get
  check (request.state.isNone = true ∨ request.projected.isNone = true ∨ request.prepared = true ∨
      committedSuffix = [] ∨ s.exact.modelIdentity ≠ request.modelIdentity ∨
      s.exact.position ≠ request.position + committedSuffix.length ∨ s.draft ≠ s.exact.position)
    (.invalidArgument "device terminal target/draft lineage")
  check (¬ InVocabulary committedSuffix) (.invalidArgument "device terminal token extent")
  deviceResult (some request) "device terminal snapshot frontier changed"
    (request.toExl3VeriCacheRequest.append revision committedSuffix)

/-- `append_device_prompt`; `ingested` is where the caller's ingestion leaves the context and the drafter. -/
def appendDevicePrompt (request : Request) (revision : Nat) (suffix : List Int) (ingested : Int × Int)
    (resident : Bool) : Exec Request := do
  let s ← get
  check (request.state.isNone = true ∨ request.projected.isNone = true ∨ request.prepared = true ∨ suffix = [] ∨
      s.exact.modelIdentity ≠ request.modelIdentity ∨ exceeds suffix (s.exact.maxContext - request.position))
    (.invalidArgument "device prompt root/suffix extent")
  check (¬ InVocabulary suffix) (.invalidArgument "device prompt token extent")
  if resident then
    check (s.exact.position ≠ request.position ∨ s.draft ≠ s.exact.position)
      (.logicError "device prompt resident root frontier")
  else do
    restoreExactHostState request.state
    restoreDraft request
  modify fun s => { s with exact := { s.exact with position := ingested.1 }, draft := ingested.2 }
  check (ingested.1 ≠ request.position + suffix.length ∨ ingested.2 ≠ ingested.1)
    (.logicError "device prompt ingestion frontier")
  deviceResult (some request) "device prompt ingestion frontier"
    (request.toExl3VeriCacheRequest.append revision suffix)

/-! ## Operations -/

/-- The operations that make a request, with the requests they are called on. -/
inductive Op where
  | initializeRequest (revision : Nat) (prompt : List Int) (width : Nat) (actualTail : Bool)
  | appendPrompt (request : Request) (revision : Nat) (suffix : List Int) (width : Nat)
  | appendPromptCompact (request : Request) (revision : Nat) (suffix : List Int) (width : Nat)
  | appendControlCompact (request : Request) (revision : Nat) (tokens : List Int)
  | verify (request : Request) (revision : Nat) (tentative : List Int) (verifier : Verifier request.position tentative)
  | verifyCompact (request : Request) (revision : Nat) (tentative : List Int) (directStaging : Bool)
      (verifier : Verifier request.position tentative)
  | compactDraft (request : Request)
  | composeVerifiedChild (request parent intermediate : Request) (revision : Nat)
  | initializeDeviceRoot (revision : Nat) (prompt : List Int)
  | appendDevicePrompt (request : Request) (revision : Nat) (suffix : List Int) (ingested : Int × Int) (resident : Bool)
  | appendDeviceTerminal (request : Request) (revision : Nat) (committedSuffix : List Int)

namespace Op

def run : Op → Exec Request
  | initializeRequest revision prompt width actualTail =>
    DraftPartitions.initializeRequest revision prompt width actualTail
  | appendPrompt request revision suffix width => DraftPartitions.appendPrompt request revision suffix width
  | appendPromptCompact request revision suffix width =>
    DraftPartitions.appendPromptCompact request revision suffix width
  | appendControlCompact request revision tokens => DraftPartitions.appendControlCompact request revision tokens
  | verify request revision tentative verifier => DraftPartitions.verify request revision tentative verifier
  | verifyCompact request revision tentative directStaging verifier =>
    DraftPartitions.verifyCompact request revision tentative directStaging verifier
  | compactDraft request => DraftPartitions.compactDraft request
  | composeVerifiedChild request parent intermediate revision =>
    DraftPartitions.composeVerifiedChild request parent intermediate revision
  | initializeDeviceRoot revision prompt => DraftPartitions.initializeDeviceRoot revision prompt
  | appendDevicePrompt request revision suffix ingested resident =>
    DraftPartitions.appendDevicePrompt request revision suffix ingested resident
  | appendDeviceTerminal request revision committedSuffix =>
    DraftPartitions.appendDeviceTerminal request revision committedSuffix

/-- The requests an operation reads. -/
def sources : Op → List Request
  | initializeRequest _ _ _ _ | initializeDeviceRoot _ _ => []
  | appendPrompt request _ _ _ | appendPromptCompact request _ _ _ | appendControlCompact request _ _
  | verify request _ _ _ | verifyCompact request _ _ _ _ | compactDraft request
  | appendDevicePrompt request _ _ _ _ | appendDeviceTerminal request _ _ => [request]
  | composeVerifiedChild request parent intermediate _ => [request, parent, intermediate]

end Op

/-- The requests that `allowed` operations make, on devices in any state. -/
inductive Reachable (allowed : Op → Prop) : Request → Prop
  | made {op : Op} {s s' : Devices} {request : Request} (hsources : ∀ source ∈ op.sources, Reachable allowed source)
      (hallowed : allowed op) (hrun : op.run s = .ok request s') : Reachable allowed request

end VoidInfer.Exl3.DraftPartitions
