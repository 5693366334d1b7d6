import VoidInfer.Frontend.OutputDecoder

/-
  `OutputSession` of `frontend.cpp`: rounds of model tokens, the control suffix that closes a thinking phase whose
  budget is used up, and the end between two rounds.
-/

namespace VoidInfer.Frontend
open Bytes Utf8

inductive ContinuationAction where
  | decode
  | applyTargetControl

structure OutputDecision where
  acceptedTokens : Nat := 0
  finishReason : FinishReason := .none
  continuation : ContinuationAction := .decode

structure OutputOptions where
  raw : Bool := false
  preserveSpecialTokens : Bool := false

/-- The `preview_` members, present while `preview_ready`. -/
structure Preview where
  state : DecoderState
  semantic : SemanticThinkingState
  output : PublishedOutput
  completedChatTurn : Bool

/-- `OutputSession::Impl`. The frontend's control suffix is never null here. -/
structure OutputSession where
  tokenizer : Tokenizer
  policy : StopPolicy
  thinkingControlTokens : List TokenId
  preserveSpecial : Bool
  splitReasoning : Bool
  captureOnly : Bool
  state : DecoderState
  semantic : SemanticThinkingState
  preview : Option Preview := none
  generationStarted : Bool := false
  completedChatTurn : Bool := false
  storage : Option PendingStorage := none
  fixedOutputLimit : Option Nat := none

namespace OutputSession

/-- The constructor of `OutputSession::Impl`. `captureOnly` is read from the environment. -/
def make (tokenizer : Tokenizer) (policy : StopPolicy) (output : OutputOptions)
    (startsInReasoning : Bool) (budget : Option Nat) (thinkingControlTokens : List TokenId)
    (captureOnly : Bool) : Except Exn OutputSession := do
  throwIf (budget = some 0) (.invalidArgument "thinking budget must be positive")
  .ok {
    tokenizer := tokenizer
    policy := policy
    thinkingControlTokens := thinkingControlTokens
    preserveSpecial := output.raw || output.preserveSpecialTokens
    splitReasoning := startsInReasoning && !output.raw
    captureOnly := captureOnly
    state := { inReasoning := startsInReasoning && !output.raw }
    semantic := { budget := budget, inReasoning := startsInReasoning && budget.isSome } }

/-- `Frontend::make_output_session` for a prepared prompt. -/
def makeOutputSession (tokenizer : Tokenizer) (callerStop : StopPolicy) (output : OutputOptions)
    (startsInReasoning : Bool) (budget : Option Nat) (thinkingControlTokens : List TokenId)
    (captureOnly : Bool) : Except Exn OutputSession := do
  let policy ← mergeStopPolicy tokenizer callerStop
  let policy := if output.raw then { policy with publishStopToken := true } else policy
  make tokenizer policy output startsInReasoning budget thinkingControlTokens captureOnly

/-- The preview's output slot when nothing has been published. -/
def emptyOutput (session : OutputSession) : PublishedOutput :=
  { textLimit := session.fixedOutputLimit }

/-- What a round of tokens changes. -/
structure Round where
  state : DecoderState
  semantic : SemanticThinkingState
  output : PublishedOutput
  completedChatTurn : Bool

/-- One token of a round: the round goes on, or it ends with the token. -/
inductive Outcome where
  | next (round : Round)
  | finish (round : Round) (count : Nat) (reason : FinishReason)

/-- The accounting of the thinking tracker for one model token. -/
def previewThinking (session : OutputSession) (semantic : SemanticThinkingState)
    (bytes : List UInt8) : Except Exn SemanticThinkingState :=
  if semantic.inReasoning = false then .ok semantic
  else do
    let semantic := { semantic with modelThinkingTokens := semantic.modelThinkingTokens + 1 }
    throwIf (∃ budget ∈ semantic.budget, budget < semantic.modelThinkingTokens)
      (.logicError "model output exceeded the licensed thinking budget")
    feedSemanticThinking session.storage semantic bytes

/-- `reasoning_tokens` counts the tokens that arrive while reasoning is presented. -/
def countReasoning (state : DecoderState) : DecoderState :=
  { state with reasoningTokens := state.reasoningTokens + if state.inReasoning then 1 else 0 }

/-- The bytes of a token that are presented: none of a special token, except where special
    tokens are kept or the token stops generation. -/
def presentedBytes (session : OutputSession) (token : DecodedToken) (stopToken : Bool) : List UInt8 :=
  if session.preserveSpecial = false ∧ token.special = true ∧ stopToken = false then []
  else token.bytes

def previewToken (session : OutputSession) (round : Round) (count : Nat) (token : TokenId) : Except Exn Outcome := do
  let decoded ← session.tokenizer.decodedToken token
  if session.captureOnly then .ok (.next round)
  else do
    let state := countReasoning round.state
    let semantic ← previewThinking session round.semantic decoded.bytes
    let stopToken := decide (token ∈ session.policy.tokenIds)
    let hidden := stopToken && !session.policy.publishStopToken
    let beforeStop ← (if hidden then copyDecoderState session.storage state else .ok state)
    let feed ← feedTokenBytes ⟨session.storage, session.policy, count, true⟩
      (presentedBytes session decoded stopToken) ⟨state, round.output, none⟩
    match feed.best with
    | some found =>
      .ok (.finish ⟨terminalState feed.state, semantic, found.output, round.completedChatTurn⟩
        found.committedTokens .stopString)
    | none =>
      if stopToken then do
        let (state, output) ← terminalize session.storage session.policy count
          (if hidden then beforeStop else feed.state) (if hidden then round.output else feed.emitted)
        .ok (.finish ⟨state, semantic, output,
          decoded.special && decoded.bytes == ascii "<|im_end|>"⟩ count .stopToken)
      else .ok (.next ⟨feed.state, semantic, feed.emitted, round.completedChatTurn⟩)

/-- The tokens of a round in order, `count` of them accepted before these. -/
def previewTokens (session : OutputSession) (round : Round) (count : Nat) :
    List TokenId → Except Exn Outcome
  | [] => .ok (.next round)
  | token :: tokens => do
    match ← previewToken session round (count + 1) token with
    | .next round => previewTokens session round (count + 1) tokens
    | .finish round count reason => .ok (.finish round count reason)

section
variable (session : OutputSession)

/-- The checks every preview makes first. -/
def requireOpen : Except Exn Unit := do
  throwIf (session.state.terminal = true) (.logicError "output session is already terminal")
  throwIf (session.preview.isSome = true) (.logicError "output session already has a preview")

/-- The preview's copies of the committed members. -/
def openRound : Except Exn Round := do
  let state ← copyDecoderState session.storage session.state
  let semantic ← copySemanticState session.storage session.semantic
  .ok ⟨state, semantic, session.emptyOutput, session.completedChatTurn⟩

/-- `complete`: the preview is ready. -/
def complete (round : Round) (count : Nat) (reason : FinishReason)
    (continuation : ContinuationAction) : OutputDecision × OutputSession :=
  (⟨count, reason, continuation⟩, { session with
      generationStarted := true
      preview := some {
        state := round.state
        semantic := { round.semantic with
          controlPending := round.semantic.controlPending && decide (reason = .none) }
        output := round.output
        completedChatTurn := round.completedChatTurn } })

def previewModel (tokens : List TokenId) (totalBudgetRemaining : Nat)
    (limitReason : FinishReason) : Except Exn (OutputDecision × OutputSession) := do
  requireOpen session
  throwIf (session.semantic.controlPending = true)
    (.logicError "model output cannot advance while thinking control is pending")
  throwIf (tokens = []) (.invalidArgument "cannot preview an empty generated-token round")
  throwIf (totalBudgetRemaining < tokens.length)
    (.invalidArgument "generated-token round exceeds the remaining budget")
  throwIf (limitReason ≠ .outputLimit ∧ limitReason ≠ .contextCapacity)
    (.invalidArgument "generated-token budget has an invalid limit reason")
  let round ← openRound session
  match ← previewTokens session round 0 tokens with
  | .finish round count reason => .ok (complete session round count reason .decode)
  | .next round =>
    if tokens.length = totalBudgetRemaining then do
      let (state, output) ←
        terminalize session.storage session.policy tokens.length round.state round.output
      .ok (complete session { round with state := state, output := output } tokens.length limitReason .decode)
    else if round.semantic.inReasoning = true ∧
        round.semantic.budget = some round.semantic.modelThinkingTokens then
      .ok (complete session { round with semantic := { round.semantic with controlPending := true } }
        tokens.length .none .applyTargetControl)
    else .ok (complete session round tokens.length .none .decode)

def modelTokenBudgetRemaining (totalBudgetRemaining : Nat) : Nat :=
  match session.semantic.budget with
  | none => totalBudgetRemaining
  | some budget =>
    if session.semantic.inReasoning = false ∨ session.semantic.applied = true then totalBudgetRemaining
    else if session.semantic.controlPending = true ∨ budget ≤ session.semantic.modelThinkingTokens then 0
    else min totalBudgetRemaining (budget - session.semantic.modelThinkingTokens)

def pendingControlTokens : List TokenId :=
  if session.semantic.controlPending then session.thinkingControlTokens else []

/-- One token of the control suffix. No stop string is looked for. -/
def previewControlToken (round : Round) (count : Nat) (token : TokenId) : Except Exn Round := do
  let decoded ← session.tokenizer.decodedToken token
  let state := countReasoning round.state
  let semantic ← feedSemanticThinking session.storage round.semantic decoded.bytes
  let feed ← feedTokenBytes ⟨session.storage, session.policy, count, false⟩
    (presentedBytes session decoded false) ⟨state, round.output, none⟩
  .ok ⟨feed.state, semantic, feed.emitted, round.completedChatTurn⟩

end

def previewControlTokens (session : OutputSession) (round : Round) (count : Nat) :
    List TokenId → Except Exn Round
  | [] => .ok round
  | token :: tokens => do
    let round ← previewControlToken session round (count + 1) token
    previewControlTokens session round (count + 1) tokens

section
variable (session : OutputSession)

def previewControl (tokens : List TokenId) (totalBudgetRemaining : Nat) :
    Except Exn (OutputDecision × OutputSession) := do
  requireOpen session
  throwIf (session.pendingControlTokens = [] ∨ tokens ≠ session.pendingControlTokens)
    (.invalidArgument "thinking control preview requires the exact pending span")
  throwIf (totalBudgetRemaining < tokens.length)
    (.invalidArgument "thinking control span exceeds the remaining output budget")
  let round ← openRound session
  let round ← previewControlTokens session round 0 tokens
  throwIf (round.semantic.inReasoning = true)
    (.logicError "canonical thinking control did not close the thinking phase")
  throwIf (session.splitReasoning = true ∧ round.state.inReasoning = true)
    (.logicError "canonical thinking control did not close the reasoning channel")
  .ok (complete session { round with
      semantic := { round.semantic with
        controlPending := false
        applied := true
        injectedTokens := tokens.length } } tokens.length .none .decode)

def validateGenerationCapacity (effectiveOutputTokens : Nat) : Except Exn Unit :=
  match session.semantic.budget with
  | none => .ok ()
  | some budget =>
    if session.semantic.inReasoning = false ∨ effectiveOutputTokens ≤ budget then .ok ()
    else throwIf (effectiveOutputTokens - budget < session.thinkingControlTokens.length + 1)
      (.invalidArgument "effective output capacity after the thinking budget must fit the complete control suffix and one post-close model token")

def previewTerminal (reason : FinishReason) : Except Exn (OutputDecision × OutputSession) := do
  requireOpen session
  throwIf (reason = .none ∨ reason = .stopString ∨ reason = .stopToken)
    (.invalidArgument "invalid between-round terminal decoder reason")
  let round ← openRound session
  let (state, output) ← terminalize session.storage session.policy 0 round.state round.output
  .ok (complete session { round with state := state, output := output } 0 reason .decode)

/-- `commit_preview`, with the text it publishes; without a preview the process terminates. -/
def commitPreview : Option (PublishedOutput × OutputSession) :=
  session.preview.map fun preview =>
    (preview.output, { session with
      state := preview.state
      semantic := preview.semantic
      completedChatTurn := preview.completedChatTurn
      preview := none })

def discardPreview : OutputSession := { session with preview := none }

/-- `preallocate_pending_storage`: the capacities `std::string::reserve` is asked for. -/
def requestedStorage : PendingStorage :=
  let width := session.tokenizer.maximumDecodedTokenBytes
  let utf8 := width + 3
  let marker := utf8 + kThinkClose.length
  let stopBytes := fun channel => (session.policy.strings.filter fun stop => stop.channel = channel).foldl
    (fun bytes stop => max bytes stop.text.length) 0
  { decodedScratch := utf8 + utf8 + utf8
    channelScratch := max (stopBytes .reasoning) (stopBytes .content) + marker
    utf8Pending := utf8
    thinkMarkerPending := marker
    stopPending := stopBytes
    closePending := marker }

/-- `output_text_byte_bound` for the session's tokenizer. -/
def outputTextByteBound (tokenAllowance : Nat) : Nat :=
  session.tokenizer.maximumDecodedTokenBytes * tokenAllowance + 3

end

/-! ## What a preview that does not throw has done -/

variable {session : OutputSession}

/-- The copies a preview begins with. -/
def startRound (session : OutputSession) : Round :=
  ⟨session.state, session.semantic, session.emptyOutput, session.completedChatTurn⟩

theorem copyDecoderState_ok {storage : Option PendingStorage} {source copy : DecoderState}
    (h : copyDecoderState storage source = .ok copy) : copy = source := by
  obtain ⟨_, -, h⟩ := bind_ok h
  exact (Except.ok.inj h).symm

theorem openRound_ok {round : Round} (h : openRound session = .ok round) : round = startRound session := by
  obtain ⟨state, hstate, h⟩ := bind_ok h
  obtain ⟨semantic, hsemantic, h⟩ := bind_ok h
  obtain ⟨_, -, hsemantic⟩ := bind_ok hsemantic
  obtain rfl := copyDecoderState_ok hstate
  cases hsemantic
  exact (Except.ok.inj h).symm

theorem requireOpen_ok {u : Unit} (h : requireOpen session = .ok u) :
    session.state.terminal = false ∧ session.preview = none := by
  obtain ⟨_, hterminal, h⟩ := bind_ok h
  rw [throwIf_ok] at hterminal h
  exact ⟨by simpa using hterminal, by simpa using h⟩

/-- The four ways a round of model tokens is previewed. -/
inductive ModelPreview (session : OutputSession) (tokens : List TokenId) (total : Nat)
    (limitReason : FinishReason) : OutputDecision × OutputSession → Prop where
  | finished {round count reason}
      (htokens : previewTokens session session.startRound 0 tokens = .ok (.finish round count reason)) :
      ModelPreview session tokens total limitReason (complete session round count reason .decode)
  | limited {round state output}
      (htokens : previewTokens session session.startRound 0 tokens = .ok (.next round))
      (hlimit : tokens.length = total)
      (hflush : terminalize session.storage session.policy tokens.length round.state round.output =
        .ok (state, output)) :
      ModelPreview session tokens total limitReason
        (complete session { round with state := state, output := output } tokens.length limitReason .decode)
  | control {round}
      (htokens : previewTokens session session.startRound 0 tokens = .ok (.next round))
      (hlimit : tokens.length ≠ total)
      (hopen : round.semantic.inReasoning = true)
      (hbudget : round.semantic.budget = some round.semantic.modelThinkingTokens) :
      ModelPreview session tokens total limitReason
        (complete session { round with semantic := { round.semantic with controlPending := true } }
          tokens.length .none .applyTargetControl)
  | decode {round}
      (htokens : previewTokens session session.startRound 0 tokens = .ok (.next round))
      (hlimit : tokens.length ≠ total) :
      ModelPreview session tokens total limitReason (complete session round tokens.length .none .decode)

variable {result : OutputDecision × OutputSession}

theorem previewModel_ok {tokens : List TokenId} {total : Nat} {limitReason : FinishReason}
    (h : previewModel session tokens total limitReason = .ok result) :
    session.state.terminal = false ∧ session.semantic.controlPending = false ∧ tokens.length ≤ total ∧
      (limitReason = .outputLimit ∨ limitReason = .contextCapacity) ∧
      ModelPreview session tokens total limitReason result := by
  obtain ⟨_, hopen, h⟩ := bind_ok h
  obtain ⟨hcontrol, h⟩ := check_ok h
  obtain ⟨_, -, h⟩ := bind_ok h
  obtain ⟨htotal, h⟩ := check_ok h
  obtain ⟨hreason, h⟩ := check_ok h
  obtain ⟨round, hround, h⟩ := bind_ok h
  obtain ⟨outcome, htokens, h⟩ := bind_ok h
  obtain rfl := openRound_ok hround
  refine ⟨(requireOpen_ok hopen).1, by simpa using hcontrol, not_lt.mp htotal, by tauto, ?_⟩
  cases outcome with
  | finish round count reason =>
    cases h
    exact .finished htokens
  | next round =>
    simp only at h
    split at h
    · next hlimit =>
      obtain ⟨⟨state, output⟩, hflush, h⟩ := bind_ok h
      cases h
      exact .limited htokens hlimit hflush
    next hlimit =>
    split at h
    · next hbudget =>
      cases h
      exact .control htokens hlimit hbudget.1 hbudget.2
    cases h
    exact .decode htokens hlimit

theorem previewControl_ok {tokens : List TokenId} {total : Nat}
    (h : previewControl session tokens total = .ok result) :
    session.state.terminal = false ∧ tokens = session.pendingControlTokens ∧ tokens.length ≤ total ∧
      ∃ round, previewControlTokens session session.startRound 0 tokens = .ok round ∧
        round.semantic.inReasoning = false ∧
        (session.splitReasoning = true → round.state.inReasoning = false) ∧
        result = complete session { round with
          semantic := { round.semantic with
            controlPending := false
            applied := true
            injectedTokens := tokens.length } } tokens.length .none .decode := by
  obtain ⟨_, hopen, h1⟩ := bind_ok h
  obtain ⟨hpending, h2⟩ := check_ok h1
  obtain ⟨htotal, h3⟩ := check_ok h2
  obtain ⟨round, hround, h4⟩ := bind_ok h3
  obtain rfl := openRound_ok hround
  obtain ⟨last, htokens, h5⟩ := bind_ok h4
  obtain ⟨hclosed, h6⟩ := check_ok h5
  obtain ⟨hsplit, h7⟩ := check_ok h6
  refine ⟨(requireOpen_ok hopen).1, by tauto, not_lt.mp htotal, last, htokens, by simpa using hclosed, ?_,
    (Except.ok.inj h7).symm⟩
  intro hs
  by_contra hr
  exact hsplit ⟨hs, by simpa using hr⟩

theorem previewTerminal_ok {reason : FinishReason} (h : previewTerminal session reason = .ok result) :
    session.state.terminal = false ∧ reason ≠ .none ∧
      ∃ state output, terminalize session.storage session.policy 0 session.state session.emptyOutput =
          .ok (state, output) ∧
        result = complete session { session.startRound with state := state, output := output } 0 reason .decode := by
  obtain ⟨_, hopen, h⟩ := bind_ok h
  obtain ⟨hreason, h⟩ := check_ok h
  obtain ⟨round, hround, h⟩ := bind_ok h
  obtain ⟨⟨state, output⟩, hflush, h⟩ := bind_ok h
  obtain rfl := openRound_ok hround
  exact ⟨(requireOpen_ok hopen).1, by tauto, state, output, hflush, (Except.ok.inj h).symm⟩

end OutputSession

end VoidInfer.Frontend
