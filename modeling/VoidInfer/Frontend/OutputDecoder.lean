import VoidInfer.Base
import VoidInfer.Lib.Bytes
import VoidInfer.Frontend.Utf8Replace

/-
  The output side of `frontend.cpp`: sampled tokens become text on two channels. A round of tokens is previewed on
  copies of the decoder's and the thinking tracker's state, and the copies are taken over by `commit_preview` or dropped
  by `discard_preview`.

  The scratch strings are empty between two calls and are locals here. Capacities are read only once
  `preallocate_pending_storage` has fixed them, for all states alike.
-/

namespace VoidInfer.Frontend
open Bytes Utf8

abbrev TokenId := Int

def kThinkClose : List UInt8 := ascii "</think>"

inductive OutputChannel where
  | content
  | reasoning
deriving DecidableEq

inductive FinishReason where
  | none
  | outputLimit
  | contextCapacity
  | stopToken
  | stopString
  | cancelled
deriving DecidableEq

structure StopString where
  text : List UInt8
  channel : OutputChannel := .content
  includeInOutput : Bool := false
deriving DecidableEq

structure StopPolicy where
  tokenIds : List TokenId := []
  strings : List StopString := []
  includeModelDefaults : Bool := true
  publishStopToken : Bool := false

structure DecodedToken where
  bytes : List UInt8
  special : Bool

/-- What the output side reads of a `Tokenizer`: the bytes of the valid token ids. -/
structure Tokenizer where
  tokens : List (Option DecodedToken)
  defaultStopTokenIds : List TokenId := []

namespace Tokenizer

def isValidToken (tokenizer : Tokenizer) (id : TokenId) : Bool :=
  0 ≤ id && (tokenizer.tokens.getD id.toNat none).isSome

def decodedToken (tokenizer : Tokenizer) (id : TokenId) : Except Exn DecodedToken :=
  if id < 0 then .error (.invalidArgument "Tokenizer::decode received negative token id")
  else
    match tokenizer.tokens.getD id.toNat none with
    | none => .error (.outOfRange "Tokenizer::decode token id is outside loaded vocabulary")
    | some token => .ok token

/-- The length of the longest valid token. -/
def maximumDecodedTokenBytes (tokenizer : Tokenizer) : Nat :=
  tokenizer.tokens.foldr (fun token width => max (token.elim 0 fun t => t.bytes.length) width) 0

end Tokenizer

/-- A stop string is UTF-8 (`utf8_codepoints` throws otherwise). -/
def isUtf8 (text : List UInt8) : Bool := decodeReplace text == text

def appendStopToken (tokenizer : Tokenizer) (ids : List TokenId) (token : TokenId) : Except Exn (List TokenId) := do
  throwIf (tokenizer.isValidToken token = false)
    (.invalidArgument "stop token id is outside the checkpoint vocabulary")
  .ok (if token ∈ ids then ids else ids ++ [token])

def appendStopString (strings : List StopString) (stop : StopString) : Except Exn (List StopString) := do
  throwIf (stop.text = []) (.invalidArgument "stop string must not be empty")
  throwIf (isUtf8 stop.text = false) (.invalidArgument "invalid UTF-8 in stop string")
  .ok (if stop ∈ strings then strings else strings ++ [stop])

def mergeStopPolicy (tokenizer : Tokenizer) (caller : StopPolicy) : Except Exn StopPolicy := do
  let defaults := if caller.includeModelDefaults then tokenizer.defaultStopTokenIds else []
  let ids ← (defaults ++ caller.tokenIds).foldlM (appendStopToken tokenizer) []
  let strings ← caller.strings.foldlM appendStopString []
  .ok { tokenIds := ids, strings := strings, publishStopToken := caller.publishStopToken }

/-! ## Published text -/

/-- At most two deltas; neighbours on one channel are one delta. -/
structure PublishedOutput where
  deltas : List (OutputChannel × List UInt8) := []
  textLimit : Option Nat := none

namespace PublishedOutput

section
variable (output : PublishedOutput)

/-- The delta that a text on this channel goes on, and the deltas before it. -/
def openDelta (channel : OutputChannel) : List (OutputChannel × List UInt8) × List UInt8 :=
  match output.deltas.getLast? with
  | some last => if last.1 = channel then (output.deltas.dropLast, last.2) else (output.deltas, [])
  | none => ([], [])

def append (channel : OutputChannel) (text : List UInt8) : Except Exn PublishedOutput :=
  if text = [] then .ok output
  else do
    let (before, used) := output.openDelta channel
    throwIf (before.length = 2) (.logicError "output decoder produced more than two channel transitions")
    throwIf (∃ limit ∈ output.textLimit, limit < used.length + text.length)
      (.logicError "published output exceeds preallocated slot")
    .ok { output with deltas := before ++ [(channel, used ++ text)] }

def clear : PublishedOutput := { output with deltas := [] }

/-- The text published on one channel. -/
def textOn (channel : OutputChannel) : List UInt8 :=
  ((output.deltas.filter fun delta => delta.1 = channel).map Prod.snd).flatten

end

end PublishedOutput

/-! ## The decoder -/

structure DecoderState where
  utf8Pending : List UInt8 := []
  thinkMarkerPending : List UInt8 := []
  stopPending : OutputChannel → List UInt8 := fun _ => []
  inReasoning : Bool := false
  stripContentLeading : Bool := false
  terminal : Bool := false
  decodedBytes : Nat := 0
  reasoningTokens : Nat := 0

structure SemanticThinkingState where
  budget : Option Nat := none
  closePending : List UInt8 := []
  modelThinkingTokens : Nat := 0
  injectedTokens : Nat := 0
  inReasoning : Bool := false
  controlPending : Bool := false
  applied : Bool := false

/-- The capacities of the strings once they are fixed. -/
structure PendingStorage where
  decodedScratch : Nat
  channelScratch : Nat
  utf8Pending : Nat
  thinkMarkerPending : Nat
  stopPending : OutputChannel → Nat
  closePending : Nat

/-- A check that is made only while storage is fixed. -/
def requireStorage (storage : Option PendingStorage) (fits : PendingStorage → Bool) (what : String) :
    Except Exn Unit :=
  match storage with
  | none => .ok ()
  | some caps => throwIf (fits caps = false) (.logicError what)

def pendingAppendError : String := "output pending append exceeds preallocated capacity"
def decoderSnapshotError : String := "decoder snapshot exceeds preallocated capacity"
def semanticSnapshotError : String := "semantic snapshot exceeds fixed storage policy"
def stopScratchError : String := "output stop scratch exceeds preallocated capacity"
def stopSuffixError : String := "output stop suffix exceeds preallocated capacity"
def decodedScratchError : String := "decoded output scratch exceeds preallocated capacity"

/-- `copy_decoder_state` into a state whose storage is `storage`. -/
def copyDecoderState (storage : Option PendingStorage) (source : DecoderState) : Except Exn DecoderState := do
  requireStorage storage (fun caps =>
    source.utf8Pending.length ≤ caps.utf8Pending &&
    source.thinkMarkerPending.length ≤ caps.thinkMarkerPending &&
    (source.stopPending .reasoning).length ≤ caps.stopPending .reasoning &&
    (source.stopPending .content).length ≤ caps.stopPending .content) decoderSnapshotError
  .ok source

def copySemanticState (storage : Option PendingStorage) (source : SemanticThinkingState) :
    Except Exn SemanticThinkingState := do
  requireStorage storage (fun caps => source.closePending.length ≤ caps.closePending)
    semanticSnapshotError
  .ok source

/-- The longest suffix of `text`, at most `size` long, that begins `marker`. -/
def longestSuffixPrefixFrom (text marker : List UInt8) (allowComplete : Bool) : Nat → Nat
  | 0 => 0
  | size + 1 =>
    if (allowComplete = true ∨ size + 1 ≠ marker.length) ∧
        text.drop (text.length - (size + 1)) = marker.take (size + 1) then size + 1
    else longestSuffixPrefixFrom text marker allowComplete size

def longestSuffixPrefix (text marker : List UInt8) (allowComplete : Bool) : Nat :=
  longestSuffixPrefixFrom text marker allowComplete (min text.length marker.length)

def feedSemanticThinking (storage : Option PendingStorage) (state : SemanticThinkingState)
    (bytes : List UInt8) : Except Exn SemanticThinkingState :=
  if state.inReasoning = false ∨ bytes = [] then .ok state
  else do
    requireStorage storage (fun caps =>
      state.closePending.length + bytes.length ≤ caps.closePending) pendingAppendError
    let pending := state.closePending ++ bytes
    if (cut kThinkClose pending).isSome then
      .ok { state with closePending := [], inReasoning := false, controlPending := false }
    else
      let hold := longestSuffixPrefix pending kThinkClose true
      .ok { state with closePending := pending.drop (pending.length - hold) }

structure StopMatch where
  committedTokens : Nat
  byteCut : Nat
  declarationOrder : Nat
  output : PublishedOutput

/-- `stop_match_precedes`, with no match yet for `!current.found`. -/
def stopMatchPrecedes (committedTokens byteCut declarationOrder : Nat) : Option StopMatch → Bool
  | none => true
  | some current =>
    if committedTokens ≠ current.committedTokens then committedTokens < current.committedTokens
    else if byteCut ≠ current.byteCut then byteCut < current.byteCut
    else declarationOrder < current.declarationOrder

def stopHoldSize (text : List UInt8) (channel : OutputChannel) (policy : StopPolicy) : Nat :=
  (policy.strings.filter fun stop => stop.channel = channel).foldl
    (fun hold stop => max hold (longestSuffixPrefix text stop.text false)) 0

/-- What the feeding functions change: the decoder, the output so far, and the best match. -/
structure Feed where
  state : DecoderState
  emitted : PublishedOutput
  best : Option StopMatch := none

def Feed.withUtf8 (feed : Feed) (waiting : List UInt8) : Feed :=
  { feed with state := { feed.state with utf8Pending := waiting } }

/-- One declared stop string against the text of its channel. -/
def considerStop (channel : OutputChannel) (combined : List UInt8) (combinedStart : Nat)
    (emitted : PublishedOutput) (committedTokens : Nat) (best : Option StopMatch)
    (declared : StopString × Nat) : Except Exn (Option StopMatch) :=
  let (stop, order) := declared
  if stop.channel ≠ channel then .ok best
  else
    match cut stop.text combined with
    | none => .ok best
    | some (before, _) =>
      let byteCut := combinedStart + before.length
      if stopMatchPrecedes committedTokens byteCut order best = false then .ok best
      else do
        let candidate ← emitted.append channel before
        let candidate ← (if stop.includeInOutput then candidate.append channel stop.text
          else .ok candidate)
        .ok (some ⟨committedTokens, byteCut, order, candidate⟩)

/-- What stays the same while one token is fed. `matching` is `best_match != nullptr`. -/
structure FeedContext where
  storage : Option PendingStorage
  policy : StopPolicy
  committedTokens : Nat
  matching : Bool

def feedChannel (ctx : FeedContext) (channel : OutputChannel) (text : List UInt8) (feed : Feed) : Except Exn Feed :=
  if text = [] then .ok feed
  else do
    let pending := feed.state.stopPending channel
    requireStorage ctx.storage (fun caps =>
      pending.length + text.length ≤ caps.channelScratch) stopScratchError
    let combined := pending ++ text
    let combinedStart := feed.state.decodedBytes - pending.length
    let best ← (if ctx.matching then
        ctx.policy.strings.zipIdx.foldlM
          (considerStop channel combined combinedStart feed.emitted ctx.committedTokens) feed.best
      else .ok feed.best)
    let hold := stopHoldSize combined channel ctx.policy
    requireStorage ctx.storage (fun caps => hold ≤ caps.stopPending channel) stopSuffixError
    let emitted ← feed.emitted.append channel (combined.take (combined.length - hold))
    .ok {
      state := { feed.state with
        stopPending := Function.update feed.state.stopPending channel
          (combined.drop (combined.length - hold))
        decodedBytes := feed.state.decodedBytes + text.length }
      emitted := emitted
      best := best }

def closeChannel (channel : OutputChannel) (feed : Feed) : Except Exn Feed := do
  let emitted ← feed.emitted.append channel (feed.state.stopPending channel)
  .ok { feed with
    state := { feed.state with stopPending := Function.update feed.state.stopPending channel [] }
    emitted := emitted }

section
variable (ctx : FeedContext)

def feedContent (text : List UInt8) (feed : Feed) : Except Exn Feed :=
  if feed.state.stripContentLeading then
    let text := text.dropWhile isSpace
    feedChannel ctx .content text { feed with
      state := { feed.state with stripContentLeading := text.isEmpty } }
  else feedChannel ctx .content text feed

/-- The marker is complete: the rest of the text is content. -/
def closeThinking (reasoning content : List UInt8) (feed : Feed) : Except Exn Feed := do
  let feed ← feedChannel ctx .reasoning reasoning feed
  let feed ← closeChannel .reasoning feed
  let feed ← feedContent ctx content
    { feed with state := { feed.state with inReasoning := false, stripContentLeading := true } }
  .ok { feed with state := { feed.state with thinkMarkerPending := [] } }

/-- No marker yet: what may begin one is held back. -/
def holdThinking (pending : List UInt8) (feed : Feed) : Except Exn Feed := do
  let safe := pending.length - longestSuffixPrefix pending kThinkClose true
  let feed ← feedChannel ctx .reasoning (pending.take safe) feed
  .ok { feed with state := { feed.state with thinkMarkerPending := pending.drop safe } }

/-- The text of an open thinking phase, searched for the marker that closes it. -/
def feedThinking (pending : List UInt8) (feed : Feed) : Except Exn Feed :=
  match cut kThinkClose pending with
  | some (reasoning, content) => closeThinking ctx reasoning content feed
  | none => holdThinking ctx pending feed

def feedDecodedText (text : List UInt8) (feed : Feed) : Except Exn Feed :=
  if feed.state.inReasoning = false then feedContent ctx text feed
  else do
    requireStorage ctx.storage (fun caps =>
      feed.state.thinkMarkerPending.length + text.length ≤ caps.thinkMarkerPending) pendingAppendError
    feedThinking ctx (feed.state.thinkMarkerPending ++ text) feed

def feedTokenBytes (bytes : List UInt8) (feed : Feed) : Except Exn Feed := do
  requireStorage ctx.storage (fun caps =>
    feed.state.utf8Pending.length + bytes.length ≤ caps.utf8Pending) pendingAppendError
  let pending := feed.state.utf8Pending ++ bytes
  requireStorage ctx.storage (fun caps => pending.length ≤ caps.decodedScratch / 3) decodedScratchError
  let (consumed, text) := decodeUtf8Prefix pending
  let feed := feed.withUtf8 (pending.drop consumed)
  if consumed = 0 then .ok feed else feedDecodedText ctx text feed

end

def clearPending (state : DecoderState) : DecoderState :=
  { state with stopPending := fun _ => [], terminal := true }

/-- The held-back bytes are published, and no stop string is looked for in them. -/
def terminalize (storage : Option PendingStorage) (policy : StopPolicy) (committedTokens : Nat)
    (state : DecoderState) (emitted : PublishedOutput) :
    Except Exn (DecoderState × PublishedOutput) := do
  let ctx : FeedContext := ⟨storage, policy, committedTokens, false⟩
  let feed : Feed := ⟨state, emitted, none⟩
  let feed ← (if state.utf8Pending = [] then .ok feed
    else feedDecodedText ctx replacement (feed.withUtf8 []))
  let feed ← (if feed.state.inReasoning then do
      let feed ← feedChannel ctx .reasoning feed.state.thinkMarkerPending feed
      closeChannel .reasoning { feed with state := { feed.state with thinkMarkerPending := [] } }
    else closeChannel .content feed)
  .ok (clearPending feed.state, feed.emitted)

/-- The state behind a stop string: what was held back is not published. -/
def terminalState (state : DecoderState) : DecoderState :=
  clearPending { state with utf8Pending := [], thinkMarkerPending := [] }

end VoidInfer.Frontend
