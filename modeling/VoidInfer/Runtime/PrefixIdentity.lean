import VoidInfer.Lib.InPlace
import Mathlib.Data.Fin.VecNotation
import Mathlib.Data.List.FinRange

/-
  `prefix_identity.cpp`: what identifies the inputs behind a resident state, and a rolling digest for each of its
  frontiers. Generated tokens are appended to both, and both are truncated together.
-/

namespace VoidInfer.Runtime

/-- `std::numeric_limits<std::int32_t>::min()`. -/
def int32Min : Int := -2 ^ 31

abbrev TokenId := Int

/-- `max_size()` of a vector of elements of `width` bytes. -/
def maxSize (width : Nat) : Nat := (2 ^ 63 - 1) / width

/-! ## Prompts -/

/-- An IEEE double, by its bits. -/
structure Double where
  bits : Nat
deriving DecidableEq

namespace Double

def magnitude (d : Double) : Nat := d.bits % 2 ^ 63

def isNaN (d : Double) : Bool := d.magnitude > 2047 * 2 ^ 52

/-- `==`: a NaN equals nothing, and the zeros are equal. -/
def same (left right : Double) : Bool :=
  !left.isNaN && !right.isNaN &&
    (left.bits == right.bits || (left.magnitude == 0 && right.magnitude == 0))

end Double

inductive VisionPatchStorage where
  | bFloat16
  | float16
deriving DecidableEq

inductive PromptModality where
  | image
  | video
deriving DecidableEq

structure VisionGrid where
  temporal : Int := 0
  height : Int := 0
  width : Int := 0
deriving DecidableEq

structure TokenSpan where
  first : Nat := 0
  count : Nat := 0
deriving DecidableEq

structure MediaPreprocessIdentity where
  schemaRevision : Nat := 0
  minimumPixels : Nat := 0
  maximumPixels : Nat := 0
  spatialPatch : Nat := 0
  temporalPatch : Nat := 0
  merge : Nat := 0
  normalizationRevision : Nat := 0
  videoFps : Double := ⟨0⟩
  videoMinFrames : Int := 0
  videoMaxFrames : Int := 0

def MediaPreprocessIdentity.same (left right : MediaPreprocessIdentity) : Bool :=
  left.schemaRevision == right.schemaRevision && left.minimumPixels == right.minimumPixels &&
    left.maximumPixels == right.maximumPixels && left.spatialPatch == right.spatialPatch &&
    left.temporalPatch == right.temporalPatch && left.merge == right.merge &&
    left.normalizationRevision == right.normalizationRevision &&
    left.videoFps.same right.videoFps && left.videoMinFrames == right.videoMinFrames &&
    left.videoMaxFrames == right.videoMaxFrames

structure VisionItem where
  modality : PromptModality := .image
  grid : VisionGrid := {}
  patchBegin : Nat := 0
  patchCount : Nat := 0
  contentDigest : List Nat := List.replicate 32 0
  preprocess : MediaPreprocessIdentity := {}
  timestamps : List Double := []
  tokenSpans : List TokenSpan := []
  patchStorage : VisionPatchStorage := .bFloat16

/-- `sizeof(VisionItem)`. -/
def visionItemBytes : Nat := 176

/-- What the identities read of `PreparedPromptData`; `positions` holds one axis after the other. -/
structure PreparedPromptData where
  tokenIds : List TokenId := []
  tokenTypes : List Nat := []
  positions : List Int := []
  visionItems : List VisionItem := []
  /-- `identity.rewrite_execution_frontiers`. -/
  rewriteExecutionFrontiers : List Nat := []

instance neZeroAxes : NeZero (3 : Nat) := ⟨by decide⟩

def PreparedPromptData.axis (prompt : PreparedPromptData) (axis : Fin 3) : List Int :=
  (prompt.positions.drop (axis.val * prompt.tokenIds.length)).take prompt.tokenIds.length

/-! ## Comparisons -/

def sameSpans (left right : List TokenSpan) : Bool := left == right

def sameItem (left right : VisionItem) : Bool :=
  left.modality == right.modality && left.patchStorage == right.patchStorage &&
    left.grid == right.grid && left.patchBegin == right.patchBegin &&
    left.patchCount == right.patchCount && left.contentDigest == right.contentDigest &&
    left.preprocess.same right.preprocess &&
    (left.timestamps.length == right.timestamps.length &&
      (left.timestamps.zip right.timestamps).all fun times => times.1.same times.2) &&
    sameSpans left.tokenSpans right.tokenSpans

/-- `prefix_item_count`: how many items end by token `tokens`; none where it returns false. -/
def prefixItemCount (tokens : Nat) : List VisionItem → Nat → Bool → Option Nat
  | [], count, _ => some count
  | item :: items, count, sawSuffix =>
    match item.tokenSpans.head?, item.tokenSpans.getLast? with
    | some first, some last =>
      if first.count = 0 ∨ last.count = 0 ∨ last.first > sizeMax - last.count then none
      else if last.first + last.count ≤ tokens then
        if sawSuffix then none else prefixItemCount tokens items (count + 1) sawSuffix
      else if first.first ≥ tokens then prefixItemCount tokens items count true
      -- a reusable frontier may not divide the consumers of one item
      else none
    | _, _ => none

/-- The loop that compares the first `count` items of two lists. -/
def sameItems (left right : List VisionItem) (count : Nat) : Bool :=
  ((left.take count).zip (right.take count)).all fun items => sameItem items.1 items.2

/-- The frontiers before `std::upper_bound`'s end for `count`; they are sorted. -/
def frontiersUpTo (frontiers : List Nat) (count : Nat) : List Nat :=
  frontiers.takeWhile (· ≤ count)

def checkGeneratedExtent (first count : Nat) (delta : Int) : Except Exn Unit := do
  throwIf (count > sizeMax - first) (.overflowError "generated identity length overflows size_t")
  if count = 0 then .ok () else do
    let last := first + count - 1
    throwIf (last > int32Max) (.overflowError "generated identity position exceeds int32")
    throwIf ((first : Int) + delta < int32Min ∨ (last : Int) + delta > int32Max)
      (.overflowError "generated identity MRoPE position exceeds int32")

def appendCapacity (capacity maximum required : Nat) : Except Exn Nat := do
  throwIf (required > maximum) (.lengthError "prefix identity append capacity")
  .ok (if required ≤ capacity then capacity
    else max required (if capacity ≤ maximum / 2 then capacity * 2 else maximum))

/-- `reserve_append`: the capacity of the vector after it. -/
def reserveAppend (grants : Grants) (width capacity required : Nat) (log : List Nat) : Except Exn (Nat × List Nat) :=
  if required ≤ capacity then .ok (capacity, log)
  else do
    let room ← appendCapacity capacity (maxSize width) required
    let log ← allocate grants (room * width) log
    .ok (room, log)

/-! ## `ResidentPrefixIdentity` -/

@[ext] structure ResidentPrefixIdentity where
  tokenTypes : Vec Nat
  positions : Fin 3 → Vec Int
  visionItems : Vec VisionItem
  rewriteExecutionFrontiers : Vec Nat
  shape : ∀ axis, (positions axis).items.length = tokenTypes.items.length

/-- An object with the allocations of the current call. -/
abbrev Logged (σ : Type) := σ × List Nat

namespace ResidentPrefixIdentity

def size (identity : ResidentPrefixIdentity) : Nat := identity.tokenTypes.items.length

def empty : ResidentPrefixIdentity := ⟨Vec.empty, fun _ => Vec.empty, Vec.empty, Vec.empty, fun _ => rfl⟩

/-- A vector after `assign`, which keeps the room it has. -/
def reassigned {α : Type} (values : Vec α) (items : List α) : Vec α :=
  ⟨items, max values.capacity items.length, by omega⟩

@[simp] theorem reassigned_items {α : Type} (values : Vec α) (items : List α) :
    (reassigned values items).items = items := rfl

def assign (identity : ResidentPrefixIdentity) (prompt : PreparedPromptData) : Except Exn ResidentPrefixIdentity :=
  if h : prompt.tokenTypes.length = prompt.tokenIds.length ∧
      prompt.positions.length = 3 * prompt.tokenIds.length then
    .ok ⟨reassigned identity.tokenTypes prompt.tokenTypes,
      fun axis => reassigned (identity.positions axis) (prompt.axis axis),
      reassigned identity.visionItems prompt.visionItems,
      reassigned identity.rewriteExecutionFrontiers prompt.rewriteExecutionFrontiers,
      fun axis => by
        have hlt := axis.isLt
        simp only [reassigned_items, PreparedPromptData.axis, List.length_take, List.length_drop, h.1, h.2]
        have hmul : axis.val * prompt.tokenIds.length ≤ 2 * prompt.tokenIds.length :=
          Nat.mul_le_mul_right _ (by omega)
        omega⟩
  else .error (.invalidArgument "prepared prompt identity metadata has an invalid shape")

def reserveTypes (grants : Grants) (required : Nat) (s : Logged ResidentPrefixIdentity) :
    Except Exn (Logged ResidentPrefixIdentity) := do
  let (room, log) ← reserveAppend grants 1 s.1.tokenTypes.capacity required s.2
  .ok ({ s.1 with tokenTypes := s.1.tokenTypes.grown room }, log)

def reserveAxis (grants : Grants) (required : Nat) (axis : Fin 3) (s : Logged ResidentPrefixIdentity) :
    Except Exn (Logged ResidentPrefixIdentity) := do
  let (room, log) ← reserveAppend grants 4 (s.1.positions axis).capacity required s.2
  .ok ({ s.1 with
    positions := fun other =>
      if other = axis then (s.1.positions other).grown room else s.1.positions other
    shape := fun other => by have := s.1.shape other; split <;> simpa using this }, log)

/-- The four `push_back`s of a generated token; the room was reserved. -/
def pushToken (identity : ResidentPrefixIdentity) (position : Int) : ResidentPrefixIdentity :=
  { identity with
    tokenTypes := identity.tokenTypes.push 0
    positions := fun axis => (identity.positions axis).push position
    shape := fun axis => by simp [identity.shape axis] }

/-- One round of the loop of `append_generated`. -/
def pushGenerated (index : Nat) (delta : Int) (s : Logged ResidentPrefixIdentity) :
    Except Exn (Logged ResidentPrefixIdentity) := do
  throwIf (index > int32Max) (.overflowError "generated prefix position exceeds int32")
  throwIf ((index : Int) + delta < int32Min ∨ (index : Int) + delta > int32Max)
    (.overflowError "generated MRoPE position exceeds int32")
  .ok (s.1.pushToken ((index : Int) + delta), s.2)

def appendGenerated (grants : Grants) (count : Nat) (delta : Int) (s : Logged ResidentPrefixIdentity) :
    Logged ResidentPrefixIdentity × Except Exn Unit :=
  let first := s.1.size
  match checkGeneratedExtent first count delta with
  | .error e => (s, .error e)
  | .ok () =>
    inPlace ((reserveTypes grants (first + count) ::
        (List.finRange 3).map (reserveAxis grants (first + count))) ++
      (List.range count).map fun offset => pushGenerated (first + offset) delta) s

/-- The copy constructor: the vectors have room for what they hold. -/
def copy (identity : ResidentPrefixIdentity) : ResidentPrefixIdentity :=
  { tokenTypes := identity.tokenTypes.copy
    positions := fun axis => (identity.positions axis).copy
    visionItems := identity.visionItems.copy
    rewriteExecutionFrontiers := identity.rewriteExecutionFrontiers.copy
    shape := identity.shape }

/-- The identity with room for so many elements in its growing vectors. -/
def roomy (identity : ResidentPrefixIdentity) (types : Nat) (axes : Fin 3 → Nat) : ResidentPrefixIdentity :=
  { identity with
    tokenTypes := identity.tokenTypes.grown types
    positions := fun axis => (identity.positions axis).grown (axes axis)
    shape := fun axis => by simp [identity.shape axis] }

section
variable (grants : Grants)

/-- `copy_growing`: the room of a copied vector; its elements are those of `source`. -/
def copyGrowing {α : Type} (width : Nat) (source : Vec α) (required : Nat)
    (log : List Nat) : Except Exn (Nat × List Nat) := do
  let room ← appendCapacity source.items.length (maxSize width) required
  let log ← allocate grants (room * width) log
  .ok (room, log)

/-- The vectors inside a copied item. -/
def copyItem (log : List Nat) (item : VisionItem) : Except Exn (List Nat) := do
  let log ← allocate grants (item.timestamps.length * 8) log
  allocate grants (item.tokenSpans.length * 16) log

/-- The append to a copy, which a throw discards. -/
def appendedTo (count : Nat) (delta : Int) (s : Logged ResidentPrefixIdentity) :
    Except Exn (Logged ResidentPrefixIdentity) :=
  match appendGenerated grants count delta s with
  | (copied, .ok ()) => .ok copied
  | (_, .error e) => .error e

/-- `appended_copy`, with its allocations. -/
def appendedCopy (identity : ResidentPrefixIdentity) (count : Nat) (delta : Int) :
    Except Exn (Logged ResidentPrefixIdentity) := do
  checkGeneratedExtent identity.size count delta
  let (types, log) ← copyGrowing grants 1 identity.tokenTypes (identity.size + count) []
  let (axis0, log) ← copyGrowing grants 4 (identity.positions 0) (identity.size + count) log
  let (axis1, log) ← copyGrowing grants 4 (identity.positions 1) (identity.size + count) log
  let (axis2, log) ← copyGrowing grants 4 (identity.positions 2) (identity.size + count) log
  let log ← allocate grants (identity.visionItems.items.length * visionItemBytes) log
  let log ← identity.visionItems.items.foldlM (copyItem grants) log
  let log ← allocate grants (identity.rewriteExecutionFrontiers.items.length * 4) log
  appendedTo grants count delta (identity.copy.roomy types ![axis0, axis1, axis2], log)

end

/-- The lambda `add` of `copied_append_allocation_bytes`. -/
def addBytes (bytes n width : Nat) : Except Exn Nat := do
  throwIf (n > uint64Max / width ∨ n * width > uint64Max - bytes)
    (.overflowError "prefix identity copied allocation bytes")
  .ok (bytes + n * width)

def copiedAppendAllocationBytes (identity : ResidentPrefixIdentity) (count : Nat) (delta : Int) : Except Exn Nat := do
  checkGeneratedExtent identity.size count delta
  let room ← appendCapacity identity.tokenTypes.items.length (maxSize 1) (identity.size + count)
  let bytes ← addBytes 0 room 1
  let bytes ← (List.finRange 3).foldlM (fun bytes axis => do
    let room ← appendCapacity (identity.positions axis).items.length (maxSize 4) (identity.size + count)
    addBytes bytes room 4) bytes
  let bytes ← addBytes bytes identity.visionItems.items.length visionItemBytes
  let bytes ← identity.visionItems.items.foldlM (fun bytes item => do
    let bytes ← addBytes bytes item.timestamps.length 8
    addBytes bytes item.tokenSpans.length 16) bytes
  addBytes bytes identity.rewriteExecutionFrontiers.items.length 4

def truncate (identity : ResidentPrefixIdentity) (tokens : Nat) : Except Exn ResidentPrefixIdentity := do
  throwIf (tokens > identity.size) (.outOfRange "cannot extend resident prefix identity by truncation")
  match prefixItemCount tokens identity.visionItems.items 0 false with
  | none => .error (.logicError "resident prefix truncation divides a Vision item")
  | some retained => .ok {
      tokenTypes := identity.tokenTypes.shrink tokens
      positions := fun axis => (identity.positions axis).shrink tokens
      visionItems := identity.visionItems.shrink retained
      rewriteExecutionFrontiers := identity.rewriteExecutionFrontiers.shrink
        (frontiersUpTo identity.rewriteExecutionFrontiers.items tokens).length
      shape := fun axis => by simp [identity.shape axis] }

/-- `matches` from the test of the shapes on, and `prefix_equals`: both compare one prefix of all that is held. -/
def samePrefix (types types' : List Nat) (axes axes' : Fin 3 → List Int) (items items' : List VisionItem)
    (frontiers frontiers' : List Nat) (count : Nat) : Bool :=
  types.take count == types'.take count &&
    (List.finRange 3).all (fun axis => (axes axis).take count == (axes' axis).take count) &&
    (match prefixItemCount count items 0 false, prefixItemCount count items' 0 false with
      | some incoming, some resident => incoming == resident && sameItems items items' incoming
      | _, _ => false) &&
    frontiersUpTo frontiers count == frontiersUpTo frontiers' count

def «matches» (identity : ResidentPrefixIdentity) (prompt : PreparedPromptData) (count : Nat) : Bool :=
  decide (¬ (count > prompt.tokenIds.length ∨ count > identity.size ∨
    prompt.tokenTypes.length ≠ prompt.tokenIds.length ∨
    prompt.positions.length ≠ 3 * prompt.tokenIds.length)) &&
  samePrefix prompt.tokenTypes identity.tokenTypes.items prompt.axis
    (fun axis => (identity.positions axis).items) prompt.visionItems identity.visionItems.items
    prompt.rewriteExecutionFrontiers identity.rewriteExecutionFrontiers.items count

def prefixEquals (identity other : ResidentPrefixIdentity) (count : Nat) : Bool :=
  decide (¬ (count > identity.size ∨ count > other.size)) &&
  samePrefix identity.tokenTypes.items other.tokenTypes.items
    (fun axis => (identity.positions axis).items) (fun axis => (other.positions axis).items)
    identity.visionItems.items other.visionItems.items
    identity.rewriteExecutionFrontiers.items other.rewriteExecutionFrontiers.items count

end ResidentPrefixIdentity

/-! ## `PrefixShortlistDigests` -/

def kDigestOffset : UInt64 := 1469598103934665603
def kDigestPrime : UInt64 := 1099511628211
def kTokenDigestDomain : UInt64 := 0x6e696e6665722d74
def kRewriteDigestDomain : UInt64 := 0x6e696e6665722d72

def mixDigest (digest value : UInt64) : UInt64 :=
  (List.range 8).foldl (fun digest byte =>
    (digest ^^^ ((value >>> UInt64.ofNat (8 * byte)) &&& 0xff)) * kDigestPrime) digest

/-- `static_cast<std::uint32_t>` of a token or a position. -/
def lowWord (value : Int) : UInt64 := UInt64.ofNat (value % 2 ^ 32).toNat

/-- The loop over the rewrite frontiers that end at `frontier`, with those left. -/
def mixRewrites (frontier : Nat) : UInt64 → List Nat → UInt64 × List Nat
  | digest, [] => (digest, [])
  | digest, rewrite :: rest =>
    if rewrite = frontier then
      mixRewrites frontier (mixDigest (mixDigest digest kRewriteDigestDomain) (UInt64.ofNat rewrite)) rest
    else (digest, rewrite :: rest)

/-- What a frontier adds to the digest. -/
structure DigestInput where
  token : TokenId
  tokenType : Nat
  positions : Fin 3 → Int

/-- The part of a digest that does not depend on the rewrite frontiers. -/
def mixInput (digest : UInt64) (input : DigestInput) : UInt64 :=
  let digest := mixDigest digest kTokenDigestDomain
  let digest := mixDigest digest (lowWord input.token)
  let digest := mixDigest digest (UInt64.ofNat input.tokenType)
  (List.finRange 3).foldl (fun digest axis => mixDigest digest (lowWord (input.positions axis))) digest

/-- `append_digest`, with the rewrite frontiers from `next_rewrite` on. -/
def appendDigest (digests : Vec UInt64) (input : DigestInput) (rewrites : List Nat) : Vec UInt64 × List Nat :=
  let (digest, left) := mixRewrites digests.items.length
    (mixInput (digests.items.getLastD 0) input) rewrites
  (digests.push (if digest = 0 then 1 else digest), left)

namespace PreparedPromptData

/-- What each token of a prompt adds. -/
def inputs (prompt : PreparedPromptData) : List DigestInput :=
  (List.range prompt.tokenIds.length).map fun index =>
    ⟨prompt.tokenIds.getD index 0, prompt.tokenTypes.getD index 0,
      fun axis => prompt.positions.getD (axis.val * prompt.tokenIds.length + index) 0⟩

/-- The check that the rewrite frontiers are ordered unique positions, from `previous` on. -/
def rewritesOrdered (tokens : Nat) : Nat → List Nat → Bool
  | _, [] => true
  | previous, frontier :: rest =>
    !(frontier == 0 || decide (frontier > tokens) || decide (frontier ≤ previous)) &&
      rewritesOrdered tokens frontier rest

end PreparedPromptData

abbrev PrefixShortlistDigests := Vec UInt64

namespace PrefixShortlistDigests

def size (digests : PrefixShortlistDigests) : Nat :=
  if digests.items.isEmpty then 0 else digests.items.length - 1

/-- The loop of `assign`, with the rewrite frontiers left. -/
def appendInputs (inputs : List DigestInput) (digests : PrefixShortlistDigests) (rewrites : List Nat) :
    PrefixShortlistDigests × List Nat :=
  inputs.foldl (fun state input => appendDigest state.1 input state.2) (digests, rewrites)

def assign (digests : PrefixShortlistDigests) (prompt : PreparedPromptData) : Except Exn PrefixShortlistDigests := do
  throwIf (prompt.tokenTypes.length ≠ prompt.tokenIds.length ∨
      prompt.positions.length ≠ 3 * prompt.tokenIds.length)
    (.invalidArgument "prepared prompt shortlist metadata has an invalid shape")
  throwIf (PreparedPromptData.rewritesOrdered prompt.tokenIds.length 0 prompt.rewriteExecutionFrontiers = false)
    (.invalidArgument "rewrite execution frontiers must be ordered unique prompt positions")
  -- a size is never past `SIZE_MAX`
  throwIf (prompt.tokenIds.length ≥ sizeMax) (.overflowError "prefix shortlist capacity overflows size_t")
  let built := appendInputs prompt.inputs
    (((digests.shrink 0).grown (prompt.tokenIds.length + 1)).push kDigestOffset) prompt.rewriteExecutionFrontiers
  throwIf (built.2 ≠ []) (.invalidArgument "rewrite execution frontier exceeds the prompt")
  .ok built.1

def reserveDigests (grants : Grants) (required : Nat) (s : Logged PrefixShortlistDigests) :
    Except Exn (Logged PrefixShortlistDigests) := do
  let (room, log) ← reserveAppend grants 8 s.1.capacity required s.2
  .ok (s.1.grown room, log)

/-- One token of the loop of `append_generated`. -/
def pushGenerated (index : Nat) (token : TokenId) (delta : Int) (s : Logged PrefixShortlistDigests) :
    Except Exn (Logged PrefixShortlistDigests) := do
  throwIf (index > int32Max) (.overflowError "generated shortlist position exceeds int32")
  throwIf ((index : Int) + delta < int32Min ∨ (index : Int) + delta > int32Max)
    (.overflowError "generated shortlist MRoPE position exceeds int32")
  .ok ((appendDigest s.1 ⟨token, 0, fun _ => (index : Int) + delta⟩ []).1, s.2)

def appendGenerated (grants : Grants) (tokens : List TokenId) (delta : Int)
    (s : Logged PrefixShortlistDigests) : Logged PrefixShortlistDigests × Except Exn Unit :=
  if s.1.items.isEmpty then
    (s, .error (.logicError "generated shortlist append has no resident prefix"))
  else
    let first := size s.1
    match checkGeneratedExtent first tokens.length delta with
    | .error e => (s, .error e)
    | .ok () =>
      if first + tokens.length ≥ sizeMax then
        (s, .error (.overflowError "prefix shortlist capacity overflows size_t"))
      else
        inPlace (reserveDigests grants (first + tokens.length + 1) ::
          tokens.mapIdx fun offset token => pushGenerated (first + offset) token delta) s

def truncate (digests : PrefixShortlistDigests) (tokens : Nat) : Except Exn PrefixShortlistDigests := do
  throwIf (digests.items.isEmpty = true ∨ tokens > size digests)
    (.outOfRange "cannot extend prefix shortlist by truncation")
  .ok (digests.shrink (tokens + 1))

def «at» (digests : PrefixShortlistDigests) (frontier : Nat) : Except Exn UInt64 := do
  throwIf (digests.items.isEmpty = true ∨ frontier > size digests)
    (.outOfRange "prefix shortlist frontier exceeds resident identity")
  .ok (digests.items.getD frontier 0)

end PrefixShortlistDigests

def prefixMatches (prompt : PreparedPromptData) (residentTokens : List TokenId)
    (identity : ResidentPrefixIdentity) (count : Nat) : Bool :=
  decide (¬ (count > prompt.tokenIds.length ∨ count > residentTokens.length)) &&
    prompt.tokenIds.take count == residentTokens.take count &&
    identity.«matches» prompt count

end VoidInfer.Runtime
