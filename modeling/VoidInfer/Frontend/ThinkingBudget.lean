import VoidInfer.Frontend.OutputRun
import VoidInfer.Lib.Fallible

/-
  The thinking budget over a whole generation. The tracker counts the model tokens of an open thinking phase; while the
  phase is open these are all the tokens accepted so far, so the tokens left and the tokens counted add up to the
  validated total.
-/

namespace VoidInfer.Frontend
open Bytes Utf8 Fallible List Option Relation

def licensedBudgetError : Exn := .logicError "model output exceeded the licensed thinking budget"

/-! ## What the decoder throws -/

/-- The exceptions of the decoder and of the published text. -/
def DecoderError (e : Exn) : Prop :=
  e ∈ [Exn.logicError pendingAppendError, .logicError decoderSnapshotError,
    .logicError semanticSnapshotError, .logicError stopScratchError, .logicError stopSuffixError,
    .logicError decodedScratchError,
    .logicError "output decoder produced more than two channel transitions",
    .logicError "published output exceeds preallocated slot",
    .invalidArgument "Tokenizer::decode received negative token id",
    .outOfRange "Tokenizer::decode token id is outside loaded vocabulary"]

variable {e : Exn}

theorem DecoderError.ne (h : DecoderError e) : e ≠ licensedBudgetError := by
  rintro rfl
  revert h
  unfold DecoderError licensedBudgetError
  decide

theorem ends_throwIf {bad : Prop} [Decidable bad] {Q : Unit → Prop} {E : Exn → Prop}
    (hok : ¬ bad → Q ()) (he : bad → E e) : ends (throwIf bad e) Q E := by
  exact ends_ite he hok

theorem ends_requireStorage {storage : Option PendingStorage} {fits : PendingStorage → Bool}
    {what : String} (h : DecoderError (.logicError what) := by simp [DecoderError]) :
    ends (requireStorage storage fits what) (fun _ => True) DecoderError := by
  unfold requireStorage
  split
  · trivial
  · exact ends_throwIf (fun _ => trivial) fun _ => h

theorem append_throws (output : PublishedOutput) (channel : OutputChannel) (text : List UInt8) :
    ends (output.append channel text) (fun _ => True) DecoderError := by
  refine ends_ite (fun _ => trivial) fun _ => ?_
  refine ends_bind (ends_throwIf (Q := fun _ => True) (fun _ => trivial) fun _ => ?_) fun _ _ _ => ?_
  · simp [DecoderError]
  refine ends_bind (ends_throwIf (Q := fun _ => True) (fun _ => trivial) fun _ => ?_) fun _ _ _ => trivial
  simp [DecoderError]

theorem considerStop_throws (channel : OutputChannel) (combined : List UInt8) (start : Nat)
    (emitted : PublishedOutput) (count : Nat) (best : Option StopMatch) (declared : StopString × Nat) :
    ends (considerStop channel combined start emitted count best declared) (fun _ => True)
      DecoderError := by
  refine ends_ite (fun _ => trivial) fun _ => ?_
  split
  · trivial
  refine ends_ite (fun _ => trivial) fun _ => ?_
  refine ends_bind (append_throws _ _ _) fun _ _ _ => ?_
  refine ends_bind (ends_ite (fun _ => append_throws _ _ _) fun _ => trivial) fun _ _ _ => trivial

theorem feedChannel_throws (ctx : FeedContext) (channel : OutputChannel) (text : List UInt8)
    (feed : Feed) : ends (feedChannel ctx channel text feed)
      (fun feed' => feed'.state.terminal = feed.state.terminal) DecoderError := by
  refine ends_ite (fun _ => rfl) fun _ => ?_
  refine ends_bind ends_requireStorage fun _ _ _ => ?_
  refine ends_bind (Q := fun _ => True) ?_ fun _ _ _ => ?_
  · refine ends_ite (fun _ => ?_) fun _ => trivial
    exact ends_foldlM (I := fun _ _ => True) (fun c _ best _ => considerStop_throws channel _ _ _ _ best c) trivial
  refine ends_bind ends_requireStorage fun _ _ _ => ?_
  exact ends_bind (append_throws _ _ _) fun _ _ _ => rfl

theorem closeChannel_throws (channel : OutputChannel) (feed : Feed) :
    ends (closeChannel channel feed) (fun _ => True) DecoderError :=
  ends_bind (append_throws _ _ _) fun _ _ _ => trivial

theorem feedContent_throws (ctx : FeedContext) (text : List UInt8) (feed : Feed) :
    ends (feedContent ctx text feed) (fun _ => True) DecoderError := by
  exact ends_ite (fun _ => ends_imp (feedChannel_throws ctx _ _ _) fun _ _ _ => trivial)
    (fun _ => ends_imp (feedChannel_throws ctx _ _ _) fun _ _ _ => trivial)

theorem feedDecodedText_throws (ctx : FeedContext) (text : List UInt8) (feed : Feed) :
    ends (feedDecodedText ctx text feed) (fun _ => True) DecoderError := by
  refine ends_ite (fun _ => feedContent_throws ctx text feed) fun _ => ?_
  refine ends_bind ends_requireStorage fun _ _ _ => ?_
  unfold feedThinking
  split
  · refine ends_bind (feedChannel_throws ctx _ _ _) fun _ _ _ => ?_
    refine ends_bind (closeChannel_throws _ _) fun _ _ _ => ?_
    exact ends_bind (feedContent_throws ctx _ _) fun _ _ _ => trivial
  · exact ends_bind (feedChannel_throws ctx _ _ _) fun _ _ _ => trivial

theorem feedTokenBytes_throws (ctx : FeedContext) (bytes : List UInt8) (feed : Feed) :
    ends (feedTokenBytes ctx bytes feed) (fun _ => True) DecoderError := by
  refine ends_bind ends_requireStorage fun _ _ _ => ?_
  refine ends_bind ends_requireStorage fun _ _ _ => ?_
  exact ends_ite (fun _ => trivial) fun _ => feedDecodedText_throws ctx _ _

section
variable (storage : Option PendingStorage)

theorem terminalize_throws (policy : StopPolicy) (count : Nat)
    (state : DecoderState) (emitted : PublishedOutput) :
    ends (terminalize storage policy count state emitted) (fun result => result.1.terminal = true)
      DecoderError := by
  refine ends_bind (Q := fun _ => True) ?_ fun feed _ _ => ?_
  · exact ends_ite (fun _ => trivial) fun _ => feedDecodedText_throws _ _ _
  refine ends_bind (Q := fun _ => True) ?_ fun _ _ _ => rfl
  refine ends_ite (fun _ => ?_) fun _ => closeChannel_throws _ _
  exact ends_bind (feedChannel_throws _ _ _ _) fun _ _ _ => closeChannel_throws _ _

theorem copyDecoderState_throws (state : DecoderState) :
    ends (copyDecoderState storage state) (fun copy => copy = state) DecoderError :=
  ends_bind ends_requireStorage fun _ _ _ => rfl

theorem copySemanticState_throws (semantic : SemanticThinkingState) :
    ends (copySemanticState storage semantic) (fun copy => copy = semantic) DecoderError :=
  ends_bind ends_requireStorage fun _ _ _ => rfl

end

theorem decodedToken_throws (tokenizer : Tokenizer) (id : TokenId) :
    ends (tokenizer.decodedToken id) (fun _ => True) DecoderError := by
  refine ends_ite (fun _ => ?_) fun _ => ?_
  · simp [DecoderError]
  split
  · simp [DecoderError]
  · trivial

/-! ## One round -/

namespace OutputSession

variable {session : OutputSession}

/-- What `n` model tokens do to the thinking tracker. -/
structure Advance (session : OutputSession) (before after : SemanticThinkingState) (n : Nat) : Prop where
  budget : after.budget = before.budget
  applied : after.applied = before.applied
  tokens_le : after.modelThinkingTokens ≤ before.modelThinkingTokens + n
  licensed : ∀ budget, before.budget = some budget → before.modelThinkingTokens ≤ budget →
    after.modelThinkingTokens ≤ budget
  opened : after.inReasoning = true → before.inReasoning = true
  counted : after.inReasoning = true → session.captureOnly = false →
    after.modelThinkingTokens = before.modelThinkingTokens + n
  captured : session.captureOnly = true → after = before
  pending : before.controlPending = false → after.controlPending = false

theorem Advance.refl (session : OutputSession) (semantic : SemanticThinkingState) :
    Advance session semantic semantic 0 where
  budget := rfl
  applied := rfl
  tokens_le := le_refl _
  licensed := fun _ _ h => h
  opened := id
  counted := fun _ _ => rfl
  captured := fun _ => rfl
  pending := id

variable {n count : Nat} {continuation : ContinuationAction}

theorem Advance.trans {a b c : SemanticThinkingState} {m : Nat} (h : Advance session a b m)
    (h' : Advance session b c n) : Advance session a c (m + n) where
  budget := h'.budget.trans h.budget
  applied := h'.applied.trans h.applied
  tokens_le := by have := h.tokens_le; have := h'.tokens_le; omega
  licensed := fun budget hb hle => h'.licensed budget (h.budget.trans hb) (h.licensed budget hb hle)
  opened := fun ho => h.opened (h'.opened ho)
  counted := fun ho hc => by
    have := h'.counted ho hc
    have := h.counted (h'.opened ho) hc
    omega
  captured := fun hc => (h'.captured hc).trans (h.captured hc)
  pending := fun hp => h'.pending (h.pending hp)

theorem feedSemanticThinking_spec (storage : Option PendingStorage) (semantic : SemanticThinkingState)
    (bytes : List UInt8) :
    ends (feedSemanticThinking storage semantic bytes) (fun after =>
      after.budget = semantic.budget ∧ after.applied = semantic.applied ∧
      after.modelThinkingTokens = semantic.modelThinkingTokens ∧
      (after.inReasoning = true → semantic.inReasoning = true) ∧
      (semantic.controlPending = false → after.controlPending = false)) DecoderError := by
  refine ends_ite (fun _ => ⟨rfl, rfl, rfl, id, id⟩) fun hopen => ?_
  refine ends_bind ends_requireStorage fun _ _ _ => ?_
  exact ends_ite (fun _ => ⟨rfl, rfl, rfl, nofun, fun _ => rfl⟩) fun _ => ⟨rfl, rfl, rfl, id, id⟩

theorem previewThinking_spec (hcapture : session.captureOnly = false) (semantic : SemanticThinkingState)
    (bytes : List UInt8) :
    ends (previewThinking session semantic bytes) (fun after => Advance session semantic after 1)
      (fun e => e = licensedBudgetError → semantic.inReasoning = true ∧
        ∃ budget, semantic.budget = some budget ∧ budget ≤ semantic.modelThinkingTokens) := by
  refine ends_ite (fun hclosed => ?_) fun hopen => ?_
  · exact {
      budget := rfl
      applied := rfl
      tokens_le := Nat.le_succ _
      licensed := fun _ _ h => h
      opened := id
      counted := fun h => absurd h (by simp [hclosed])
      captured := fun _ => rfl
      pending := id }
  have hopen' : semantic.inReasoning = true := by simpa using hopen
  refine ends_bind (ends_throwIf (Q := fun _ => ∀ budget, semantic.budget = some budget →
    semantic.modelThinkingTokens + 1 ≤ budget) (fun h => ?_) fun h _ => ?_) fun _ _ hb => ?_
  · intro budget hbudget
    by_contra hlt
    exact h ⟨budget, hbudget, not_le.mp hlt⟩
  · obtain ⟨budget, hbudget, hlt⟩ := h
    exact ⟨hopen', budget, hbudget, Nat.lt_succ_iff.mp hlt⟩
  refine ends_mono (feedSemanticThinking_spec _ _ _) (fun after _ h => ?_)
    fun e he heq => absurd heq he.ne
  exact {
    budget := h.1
    applied := h.2.1
    tokens_le := h.2.2.1.le
    licensed := fun budget hbudget _ => h.2.2.1.trans_le (hb budget hbudget)
    opened := fun _ => hopen'
    counted := fun _ _ => h.2.2.1
    captured := fun hc => absurd hc (by simp [hcapture])
    pending := h.2.2.2.2 }

/-- The round goes on after one more token, or it has ended for good. -/
def Previews (session : OutputSession) (round : Round) (n : Nat) : Outcome → Prop
  | .next round' => Advance session round.semantic round'.semantic n
  | .finish round' _ reason => (∃ k ≤ n, Advance session round.semantic round'.semantic k) ∧
      round'.state.terminal = true ∧ reason ≠ .none

/-- The budget has room for the next tokens. -/
def Licensed (session : OutputSession) (semantic : SemanticThinkingState) (n : Nat) : Prop :=
  session.captureOnly = false → semantic.inReasoning = true → ∀ budget, semantic.budget = some budget →
    semantic.modelThinkingTokens + n ≤ budget

variable {round : Round} {budget total : Nat} {p q : Point} {reason : FinishReason}
  {decision : OutputDecision} {committed previewed : OutputSession} {output : PublishedOutput}
  {tokens : List TokenId}

theorem previewToken_spec (count : Nat) (token : TokenId)
    (hroom : Licensed session round.semantic 1) :
    ends (previewToken session round count token) (Previews session round 1)
      (fun e => e ≠ licensedBudgetError) := by
  refine ends_bind (Q := fun _ => True)
    (ends_fail (decodedToken_throws _ _) fun _ h => h.ne) fun decoded _ _ => ?_
  refine ends_ite (fun hcapture => ?_) fun hcapture => ?_
  · exact {
      budget := rfl
      applied := rfl
      tokens_le := Nat.le_succ _
      licensed := fun _ _ h => h
      opened := id
      counted := fun _ h => absurd hcapture (by simp [h])
      captured := fun _ => rfl
      pending := id }
  have hcapture' : session.captureOnly = false := by simpa using hcapture
  refine ends_bind (Q := fun after => Advance session round.semantic after 1)
    (ends_fail (previewThinking_spec hcapture' _ _) fun e h heq => ?_)
    fun semantic _ hadv => ?_
  · obtain ⟨hopen, budget, hbudget, hle⟩ := h heq
    have := hroom hcapture' hopen budget hbudget
    omega
  refine ends_bind (Q := fun _ => True) ?_ fun beforeStop _ _ => ?_
  · refine ends_ite (fun _ => ?_) fun _ => trivial
    exact ends_mono (copyDecoderState_throws _ _) (fun _ _ _ => trivial) fun _ h => h.ne
  refine ends_bind (Q := fun _ => True)
    (ends_fail (feedTokenBytes_throws _ _ _) fun _ h => h.ne) fun feed _ _ => ?_
  split
  · exact ⟨⟨1, le_refl _, hadv⟩, rfl, by simp⟩
  refine ends_ite (fun _ => ?_) fun _ => hadv
  refine ends_bind (ends_fail (terminalize_throws _ _ _ _ _) fun _ h => h.ne)
    fun result _ hterminal => ?_
  exact ⟨⟨1, le_refl _, hadv⟩, hterminal, by simp⟩

theorem previewTokens_spec (tokens : List TokenId) (round : Round) (count : Nat)
    (hroom : Licensed session round.semantic tokens.length) :
    ends (previewTokens session round count tokens) (Previews session round tokens.length)
      (fun e => e ≠ licensedBudgetError) := by
  induction tokens generalizing round count with
  | nil => exact Advance.refl session _
  | cons token tokens ih =>
    have hone : Licensed session round.semantic 1 := fun hc ho budget hb => by
      have := hroom hc ho budget hb
      simp only [length_cons] at this
      omega
    refine ends_bind (previewToken_spec _ token hone) fun outcome _ hout => ?_
    cases outcome with
    | finish round' count' reason =>
      obtain ⟨⟨k, hk, hadv⟩, hterminal, hreason⟩ := hout
      exact ⟨⟨k, by simp only [length_cons]; omega, hadv⟩, hterminal, hreason⟩
    | next round' =>
      have hadv : Advance session round.semantic round'.semantic 1 := hout
      refine ends_imp (ih round' _ ?_) fun rest _ hrest => ?_
      · intro hc ho budget hb
        have := hroom hc (hadv.opened ho) budget (hadv.budget ▸ hb)
        have := hadv.tokens_le
        simp only [length_cons] at *
        omega
      cases rest with
      | next last =>
        have := hadv.trans hrest
        rwa [Nat.add_comm] at this
      | finish last count' reason =>
        obtain ⟨⟨k, hk, hlast⟩, hterminal, hreason⟩ := hrest
        exact ⟨⟨1 + k, by simp only [length_cons]; omega, hadv.trans hlast⟩, hterminal, hreason⟩

/-! ## Runs -/

/-- A session between two rounds, the tokens left of the total budget, and how often the control suffix was injected. -/
structure Point where
  session : OutputSession
  remaining : Nat
  injections : Nat

/-- The rounds of a generation. A call that throws leaves the point as it is. -/
inductive Step : Point → Point → Prop where
  | modelCommit (p : Point) (tokens limitReason decision previewed output committed)
      (hlicensed : tokens.length ≤ p.session.modelTokenBudgetRemaining p.remaining)
      (hpreview : p.session.previewModel tokens p.remaining limitReason = .ok (decision, previewed))
      (hcommit : previewed.commitPreview = some (output, committed)) :
      Step p ⟨committed, p.remaining - decision.acceptedTokens, p.injections⟩
  | modelDiscard (p : Point) (tokens limitReason decision previewed)
      (hlicensed : tokens.length ≤ p.session.modelTokenBudgetRemaining p.remaining)
      (hpreview : p.session.previewModel tokens p.remaining limitReason = .ok (decision, previewed)) :
      Step p ⟨previewed.discardPreview, p.remaining, p.injections⟩
  | controlCommit (p : Point) (decision previewed output committed)
      (hpending : p.session.pendingControlTokens ≠ [])
      (hpreview : p.session.previewControl p.session.pendingControlTokens p.remaining =
        .ok (decision, previewed))
      (hcommit : previewed.commitPreview = some (output, committed)) :
      Step p ⟨committed, p.remaining - decision.acceptedTokens, p.injections + 1⟩
  | controlDiscard (p : Point) (decision previewed)
      (hpending : p.session.pendingControlTokens ≠ [])
      (hpreview : p.session.previewControl p.session.pendingControlTokens p.remaining =
        .ok (decision, previewed)) :
      Step p ⟨previewed.discardPreview, p.remaining, p.injections⟩
  | terminalCommit (p : Point) (reason decision previewed output committed)
      (hpreview : p.session.previewTerminal reason = .ok (decision, previewed))
      (hcommit : previewed.commitPreview = some (output, committed)) :
      Step p ⟨committed, p.remaining - decision.acceptedTokens, p.injections⟩
  | terminalDiscard (p : Point) (reason decision previewed)
      (hpreview : p.session.previewTerminal reason = .ok (decision, previewed)) :
      Step p ⟨previewed.discardPreview, p.remaining, p.injections⟩

/-- A session made with `budget`, its capacity validated for `total` tokens, after some rounds. -/
structure Begins (budget total : Nat) (p : Point) : Prop where
  made : ∃ tokenizer callerStop output startsInReasoning control captureOnly,
    makeOutputSession tokenizer callerStop output startsInReasoning (some budget) control captureOnly =
      .ok p.session
  validated : p.session.validateGenerationCapacity total = .ok ()
  remaining : p.remaining = total
  injections : p.injections = 0

/-- Holds at every point of a run. -/
structure Budgeted (budget total : Nat) (p : Point) : Prop where
  positive : 0 < budget
  configured : p.session.semantic.budget = some budget
  tokens_le : p.session.semantic.modelThinkingTokens ≤ budget
  captured : p.session.captureOnly = true → p.session.semantic.modelThinkingTokens = 0
  /-- An open phase has not been closed by the suffix, and the validated room is behind it. -/
  opened : p.session.semantic.inReasoning = true → p.session.semantic.applied = false ∧
    (total ≤ budget ∨ budget + p.session.thinkingControlTokens.length + 1 ≤ total)
  /-- While the phase is open, every accepted token was counted. -/
  counted : p.session.semantic.inReasoning = true → p.session.captureOnly = false →
    p.session.state.terminal = false →
    p.remaining + p.session.semantic.modelThinkingTokens = total
  pending : p.session.semantic.controlPending = true → p.session.semantic.inReasoning = true ∧
    p.session.semantic.modelThinkingTokens = budget ∧ p.session.captureOnly = false ∧
    0 < p.remaining ∧ p.remaining + budget = total
  injected : p.injections = if p.session.semantic.applied then 1 else 0

theorem Begins.budgeted (h : Begins budget total p) : Budgeted budget total p := by
  obtain ⟨tokenizer, callerStop, output, starts, control, captureOnly, hmade⟩ := h.made
  have hvalid := h.validated
  obtain ⟨policy, -, hmake⟩ := bind_ok hmade
  obtain ⟨hpositive, hsession⟩ := check_ok hmake
  obtain ⟨session, remaining, injections⟩ := p
  obtain rfl := h.remaining
  obtain rfl := h.injections
  cases hsession
  refine {
    positive := Nat.pos_of_ne_zero fun h0 => hpositive (by rw [h0])
    configured := rfl
    tokens_le := Nat.zero_le _
    captured := fun _ => rfl
    opened := fun hopen => ⟨rfl, ?_⟩
    counted := fun _ _ _ => rfl
    pending := nofun
    injected := rfl }
  simp only [validateGenerationCapacity] at hvalid
  split at hvalid
  · next hcase =>
    rcases hcase with hclosed | hle
    · cases hopen.symm.trans hclosed
    · exact .inl hle
  next hcase =>
  rw [throwIf_ok] at hvalid
  right
  change budget + control.length + 1 ≤ remaining
  omega

section
variable (h : Budgeted budget total p)
include h

theorem Budgeted.licensed (hn : tokens.length ≤ p.session.modelTokenBudgetRemaining p.remaining) :
    Licensed p.session p.session.semantic tokens.length := by
  intro hc ho b hb
  obtain rfl : budget = b := mem_unique h.configured hb
  have happlied := (h.opened ho).1
  simp only [modelTokenBudgetRemaining, h.configured] at hn
  rw [if_neg (by simp [ho, happlied])] at hn
  have := h.tokens_le
  split at hn <;> omega

theorem Budgeted.advance {remaining : Nat} {semantic : SemanticThinkingState} {pending : Bool}
    (hadv : Advance p.session p.session.semantic semantic n)
    (hsem : committed.semantic = { semantic with controlPending := pending })
    (hsetup : SameSetup p.session committed)
    (hcounted : semantic.inReasoning = true → p.session.captureOnly = false →
      committed.state.terminal = false → remaining + semantic.modelThinkingTokens = total)
    (hpending : pending = true → semantic.inReasoning = true ∧ semantic.modelThinkingTokens = budget ∧
      p.session.captureOnly = false ∧ 0 < remaining ∧ remaining + budget = total) :
    Budgeted budget total ⟨committed, remaining, p.injections⟩ where
  positive := h.positive
  configured := by rw [hsem]; exact hadv.budget.trans h.configured
  tokens_le := by rw [hsem]; exact hadv.licensed budget h.configured h.tokens_le
  captured := fun hc => by
    rw [hsetup.captureOnly] at hc
    rw [hsem]
    exact (congrArg SemanticThinkingState.modelThinkingTokens (hadv.captured hc)).trans (h.captured hc)
  opened := fun ho => by
    rw [hsem] at ho ⊢
    rw [hsetup.control]
    exact ⟨hadv.applied.trans (h.opened (hadv.opened ho)).1, (h.opened (hadv.opened ho)).2⟩
  counted := fun ho hc ht => by
    rw [hsem] at ho ⊢
    rw [hsetup.captureOnly] at hc
    exact hcounted ho hc ht
  pending := fun hp => by
    rw [hsem] at hp ⊢
    rw [hsetup.captureOnly]
    exact hpending hp
  injected := by
    have := h.injected
    rw [hsem]
    rw [hadv.applied]
    exact this

theorem Budgeted.modelCommit {limitReason : FinishReason}
    (hn : tokens.length ≤ p.session.modelTokenBudgetRemaining p.remaining)
    (hpreview : p.session.previewModel tokens p.remaining limitReason = .ok (decision, previewed))
    (hcommit : previewed.commitPreview = some (output, committed)) :
    Budgeted budget total ⟨committed, p.remaining - decision.acceptedTokens, p.injections⟩ := by
  obtain ⟨hterminal, hpending, hle, hreason, hway⟩ := previewModel_ok hpreview
  have hspec := previewTokens_spec tokens p.session.startRound 0 (h.licensed hn)
  have hclosedReason : limitReason ≠ .none := by rintro rfl; simp at hreason
  -- tokens of an open phase are taken from the tokens left and counted
  have hcount : ∀ semantic, Advance p.session p.session.semantic semantic tokens.length →
      semantic.inReasoning = true → p.session.captureOnly = false →
      p.remaining - tokens.length + semantic.modelThinkingTokens = total := fun semantic hadv ho hc => by
    have := hadv.counted ho hc
    have := h.counted (hadv.opened ho) hc hterminal
    omega
  generalize hres : (decision, previewed) = result at hway
  cases hway with
  | finished htokens =>
    obtain ⟨⟨k, -, hadv⟩, hend, hnone⟩ := ends_val hspec htokens
    obtain ⟨-, -, hstate, hsem, hsetup⟩ := complete_commit hres hcommit
    refine h.advance hadv hsem hsetup (fun _ _ ht => ?_) fun hp => ?_
    · rw [hstate, hend] at ht
      cases ht
    · simp [hnone] at hp
  | @limited round state flushed htokens hlimit hflush =>
    have hnext := ends_val hspec htokens
    have hadv : Advance p.session p.session.semantic round.semantic tokens.length := hnext
    have hend := ends_val (terminalize_throws _ _ _ _ _) hflush
    obtain ⟨-, -, hstate, hsem, hsetup⟩ := complete_commit hres hcommit
    refine h.advance hadv hsem hsetup (fun _ _ ht => ?_) fun hp => ?_
    · rw [hstate] at ht
      cases hend.symm.trans ht
    · simp [hclosedReason] at hp
  | @control round htokens hlimit hopen hbudget =>
    have hnext := ends_val hspec htokens
    have hadv : Advance p.session p.session.semantic round.semantic tokens.length := hnext
    obtain ⟨rfl, -, hstate, hsem, hsetup⟩ := complete_commit hres hcommit
    dsimp only
    have hused : budget = round.semantic.modelThinkingTokens :=
      mem_unique h.configured (hadv.budget.symm.trans hbudget)
    have hc : p.session.captureOnly = false := by
      by_contra hc
      have hzero := h.captured (by simpa using hc)
      rw [← hadv.captured (by simpa using hc)] at hzero
      have := h.positive
      omega
    refine h.advance hadv hsem hsetup (fun ho hc _ => hcount _ hadv ho hc) fun _ => ?_
    have := hcount _ hadv hopen hc
    exact ⟨hopen, hused.symm, hc, by omega, by omega⟩
  | @decode round htokens hlimit =>
    have hnext := ends_val hspec htokens
    have hadv : Advance p.session p.session.semantic round.semantic tokens.length := hnext
    obtain ⟨rfl, -, hstate, hsem, hsetup⟩ := complete_commit hres hcommit
    dsimp only
    refine h.advance hadv hsem hsetup (fun ho hc _ => hcount _ hadv ho hc) fun hp => ?_
    simp [hadv.pending hpending] at hp

end

/-! ## The control suffix and the end -/

theorem previewControlTokens_spec (tokens : List TokenId) (count : Nat) :
    ends (previewControlTokens session round count tokens) (fun last =>
      last.semantic.budget = round.semantic.budget ∧
      last.semantic.modelThinkingTokens = round.semantic.modelThinkingTokens) DecoderError := by
  induction tokens generalizing round count with
  | nil => exact ⟨rfl, rfl⟩
  | cons token tokens ih =>
    refine ends_bind (Q := fun next => next.semantic.budget = round.semantic.budget ∧
      next.semantic.modelThinkingTokens = round.semantic.modelThinkingTokens) ?_ fun next _ hnext => ?_
    · refine ends_bind (decodedToken_throws _ _) fun decoded _ _ => ?_
      refine ends_bind (feedSemanticThinking_spec _ _ _) fun semantic _ hsem => ?_
      exact ends_bind (feedTokenBytes_throws _ _ _) fun feed _ _ => ⟨hsem.1, hsem.2.2.1⟩
    exact ends_imp (ih _) fun last _ h => ⟨h.1.trans hnext.1, h.2.trans hnext.2⟩

section
variable (h : Budgeted budget total p)
include h

theorem Budgeted.discard
    (hres : complete p.session round count reason continuation = (decision, previewed)) :
    Budgeted budget total ⟨previewed.discardPreview, p.remaining, p.injections⟩ := by
  cases hres
  exact ⟨h.positive, h.configured, h.tokens_le, h.captured, h.opened, h.counted, h.pending, h.injected⟩

theorem Budgeted.controlCommit
    (hpending : p.session.pendingControlTokens ≠ [])
    (hpreview : p.session.previewControl p.session.pendingControlTokens p.remaining =
      .ok (decision, previewed))
    (hcommit : previewed.commitPreview = some (output, committed)) :
    Budgeted budget total ⟨committed, p.remaining - decision.acceptedTokens, p.injections + 1⟩ ∧
      committed.semantic.inReasoning = false := by
  obtain ⟨-, -, -, round, htokens, hclosed, -, hres⟩ := previewControl_ok hpreview
  obtain ⟨hb, hm⟩ := ends_val (previewControlTokens_spec _ 0) htokens
  obtain ⟨-, -, hstate, hsem, hsetup⟩ := complete_commit hres hcommit
  have hclosed' : committed.semantic.inReasoning = false := by rw [hsem]; exact hclosed
  have hp : p.session.semantic.controlPending = true := by
    by_contra hp
    exact hpending (by simp [pendingControlTokens, hp])
  refine ⟨?_, hclosed'⟩
  exact {
    positive := h.positive
    configured := by rw [hsem]; exact hb.trans h.configured
    tokens_le := by rw [hsem]; exact hm.trans_le h.tokens_le
    captured := fun hc => by
      rw [hsetup.captureOnly] at hc
      cases hc.symm.trans (h.pending hp).2.2.1
    opened := fun ho => nomatch ho.symm.trans hclosed'
    counted := fun ho => nomatch ho.symm.trans hclosed'
    pending := fun hp => by rw [hsem] at hp; simp at hp
    injected := by
      have hnot := (h.opened (h.pending hp).1).1
      have := h.injected
      rw [hnot] at this
      rw [hsem]
      simpa using this }

theorem Budgeted.terminalCommit
    (hpreview : p.session.previewTerminal reason = .ok (decision, previewed))
    (hcommit : previewed.commitPreview = some (output, committed)) :
    Budgeted budget total ⟨committed, p.remaining - decision.acceptedTokens, p.injections⟩ := by
  obtain ⟨-, hreason, state, flushed, hflush, hres⟩ := previewTerminal_ok hpreview
  have hend := ends_val (terminalize_throws _ _ _ _ _) hflush
  obtain ⟨-, -, hstate, hsem, hsetup⟩ := complete_commit hres hcommit
  refine h.advance (Advance.refl p.session p.session.semantic) hsem hsetup (fun _ _ ht => ?_) fun hp => ?_
  · rw [hstate] at ht
    cases hend.symm.trans ht
  · simp [hreason] at hp

theorem Step.budgeted (hstep : Step p q) : Budgeted budget total q := by
  cases hstep with
  | modelCommit tokens limitReason decision previewed output committed hlicensed hpreview hcommit =>
    exact h.modelCommit hlicensed hpreview hcommit
  | modelDiscard tokens limitReason decision previewed hlicensed hpreview =>
    obtain ⟨-, -, -, -, hway⟩ := previewModel_ok hpreview
    generalize hres : (decision, previewed) = result at hway
    cases hway <;> exact h.discard hres.symm
  | controlCommit decision previewed output committed hpending hpreview hcommit =>
    exact (h.controlCommit hpending hpreview hcommit).1
  | controlDiscard decision previewed hpending hpreview =>
    obtain ⟨-, -, -, round, -, -, -, hres⟩ := previewControl_ok hpreview
    exact h.discard hres.symm
  | terminalCommit reason decision previewed output committed hpreview hcommit =>
    exact h.terminalCommit hpreview hcommit
  | terminalDiscard reason decision previewed hpreview =>
    obtain ⟨-, -, state, flushed, -, hres⟩ := previewTerminal_ok hpreview
    exact h.discard hres.symm

theorem run_budgeted (hrun : ReflTransGen Step p q) : Budgeted budget total q := by
  induction hrun with
  | refl => exact h
  | tail _ hstep ih => exact hstep.budgeted ih

end

theorem Step.injections_le (hstep : Step p q) : p.injections ≤ q.injections := by
  cases hstep <;> first | exact le_refl _ | exact Nat.le_succ _

theorem run_injections_le (hrun : ReflTransGen Step p q) : p.injections ≤ q.injections := by
  induction hrun with
  | refl => exact le_refl _
  | tail _ hstep ih => exact ih.trans hstep.injections_le

theorem Budgeted.previewModel_ne (h : Budgeted budget total p)
    (hn : tokens.length ≤ p.session.modelTokenBudgetRemaining p.remaining)
    (limitReason : FinishReason) :
    p.session.previewModel tokens p.remaining limitReason ≠ .error licensedBudgetError := by
  have hcheck : ∀ {bad : Prop} [Decidable bad] {e : Exn}, e ≠ licensedBudgetError →
      ends (throwIf bad e) (fun _ => True) (fun e => e ≠ licensedBudgetError) :=
    fun he => ends_throwIf (fun _ => trivial) fun _ => he
  have hends : ends (p.session.previewModel tokens p.remaining limitReason) (fun _ => True)
      (fun e => e ≠ licensedBudgetError) := by
    refine ends_bind (Q := fun _ => True) ?_ fun _ _ _ => ?_
    · exact ends_bind (hcheck (by decide)) fun _ _ _ => hcheck (by decide)
    refine ends_bind (hcheck (by decide)) fun _ _ _ => ?_
    refine ends_bind (hcheck (by decide)) fun _ _ _ => ?_
    refine ends_bind (hcheck (by decide)) fun _ _ _ => ?_
    refine ends_bind (hcheck (by decide)) fun _ _ _ => ?_
    refine ends_bind (Q := fun _ => True) ?_ fun round hround _ => ?_
    · refine ends_bind (ends_fail (copyDecoderState_throws _ _) fun _ h => h.ne) fun _ _ _ => ?_
      exact ends_bind (ends_fail (copySemanticState_throws _ _) fun _ h => h.ne) fun _ _ _ => trivial
    obtain rfl := openRound_ok hround
    refine ends_bind (previewTokens_spec tokens p.session.startRound 0 (h.licensed hn)) fun outcome _ _ => ?_
    cases outcome with
    | finish round count reason => trivial
    | next round =>
      refine ends_ite (fun _ => ?_) fun _ => ends_ite (fun _ => trivial) fun _ => trivial
      exact ends_bind (ends_fail (terminalize_throws _ _ _ _ _) fun _ h => h.ne) fun _ _ _ => trivial
  exact fun herr => ends_exn hends herr rfl

/-- The thinking budget protocol, at every point of every run: the licensed budget is never exceeded; the control suffix
    is due only when the budget is exactly used up in an open phase, fits the tokens left with one to spare, and is
    injected at most once; after that thinking stays closed. -/
theorem thinking_budget_protocol {budget total : Nat} {start p : Point} (hstart : Begins budget total start)
    (hrun : Relation.ReflTransGen Step start p) :
    p.session.semantic.modelThinkingTokens ≤ budget ∧
    (∀ tokens limitReason, tokens.length ≤ p.session.modelTokenBudgetRemaining p.remaining →
      p.session.previewModel tokens p.remaining limitReason ≠ .error licensedBudgetError) ∧
    (p.session.semantic.controlPending = true → p.session.semantic.inReasoning = true ∧
      p.session.semantic.modelThinkingTokens = budget) ∧
    p.injections ≤ 1 ∧
    (p.session.pendingControlTokens ≠ [] → p.session.pendingControlTokens.length + 1 ≤ p.remaining) ∧
    (0 < p.injections → ∀ q, Relation.ReflTransGen Step p q →
      q.session.semantic.inReasoning = false ∧ q.session.pendingControlTokens = []) := by
  have h := run_budgeted hstart.budgeted hrun
  refine ⟨h.tokens_le, fun tokens limitReason hn => h.previewModel_ne hn limitReason,
    fun hp => ⟨(h.pending hp).1, (h.pending hp).2.1⟩, ?_, fun hne => ?_, fun hinj q hq => ?_⟩
  · rw [h.injected]
    split <;> simp
  · have hp : p.session.semantic.controlPending = true := by
      by_contra hp
      exact hne (by simp [pendingControlTokens, hp])
    obtain ⟨ho, -, -, hpos, htotal⟩ := h.pending hp
    have hroom := (h.opened ho).2
    simp only [pendingControlTokens, hp, if_true]
    omega
  · have hqb := run_budgeted h hq
    have hle := run_injections_le hq
    have happlied : q.session.semantic.applied = true := by
      by_contra ha
      have := hqb.injected
      simp only [ha, if_false] at this
      omega
    have hclosed : q.session.semantic.inReasoning = false := by
      by_contra ho
      exact absurd ((hqb.opened (by simpa using ho)).1.symm.trans happlied) (by simp)
    refine ⟨hclosed, ?_⟩
    have hp : q.session.semantic.controlPending ≠ true := fun hp =>
      nomatch (hqb.pending hp).1.symm.trans hclosed
    simp [pendingControlTokens, hp]

/-- A session in reasoning whose suffix is the marker token. -/
def markerSession : OutputSession where
  tokenizer := ⟨[some ⟨ascii "a", false⟩, some ⟨ascii "</think>", false⟩], []⟩
  policy := {}
  thinkingControlTokens := [1]
  preserveSpecial := false
  splitReasoning := true
  captureOnly := false
  state := { inReasoning := true }
  semantic := { budget := some 2, inReasoning := true }

theorem Step.ofModel {session committed : OutputSession} {tokens : List TokenId} {remaining : Nat}
    {limitReason : FinishReason} {decision : OutputDecision} {output : PublishedOutput} (injections : Nat)
    (h : (OutputCall.model tokens remaining limitReason).commit session = some (decision, output, committed))
    (hlicensed : tokens.length ≤ session.modelTokenBudgetRemaining remaining) :
    Step ⟨session, remaining, injections⟩ ⟨committed, remaining - decision.acceptedTokens, injections⟩ := by
  obtain ⟨previewed, hperform, hcommit⟩ := OutputCall.commit_eq_some h
  exact .modelCommit _ tokens limitReason decision previewed output committed hlicensed hperform hcommit

/-- Two rounds use the budget up, the suffix is injected, and the answer goes on after it. -/
theorem thinking_budget_protocol_injected : ∃ p q : Point, Begins 2 5 ⟨markerSession, 5, 0⟩ ∧
    Relation.ReflTransGen Step ⟨markerSession, 5, 0⟩ p ∧ p.session.pendingControlTokens = [1] ∧
    p.session.semantic.modelThinkingTokens = 2 ∧ [1].length + 1 ≤ p.remaining ∧
    Relation.ReflTransGen Step p q ∧ q.remaining = 1 ∧ q.injections = 1 ∧
    q.session.semantic.inReasoning = false ∧ q.session.pendingControlTokens = [] := by
  have hrounds : ((OutputCall.model [0] 5 .outputLimit).commit markerSession).any
      (fun (decision₁, _, session₁) => ((OutputCall.model [0] 4 .outputLimit).commit session₁).any
        fun (decision₂, _, session₂) => ((OutputCall.control [1] 3).commit session₂).any
          fun (decision₃, _, session₃) => ((OutputCall.model [0] 2 .outputLimit).commit session₃).any
            fun (decision₄, _, _) => decide (decision₁.acceptedTokens = 1 ∧ decision₂.acceptedTokens = 1 ∧
              decision₃.acceptedTokens = 1 ∧ decision₄.acceptedTokens = 1 ∧
              1 ≤ session₁.modelTokenBudgetRemaining 4 ∧ session₂.semantic.controlPending = true ∧
              session₂.pendingControlTokens = [1] ∧ 1 ≤ session₃.modelTokenBudgetRemaining 2)) = true := by
    decide +kernel
  obtain ⟨⟨decision₁, output₁, session₁⟩, hfirst, hrounds⟩ := (Option.any_eq_true _ _).mp hrounds
  obtain ⟨⟨decision₂, output₂, session₂⟩, hsecond, hrounds⟩ := (Option.any_eq_true _ _).mp hrounds
  obtain ⟨⟨decision₃, output₃, session₃⟩, hcontrol, hrounds⟩ := (Option.any_eq_true _ _).mp hrounds
  obtain ⟨⟨decision₄, output₄, session₄⟩, hlast, hrounds⟩ := (Option.any_eq_true _ _).mp hrounds
  obtain ⟨hone₁, hone₂, hone₃, hone₄, hlicensed₂, hdue, hpending, hlicensed₄⟩ := of_decide_eq_true hrounds
  have hstart : Begins 2 5 ⟨markerSession, 5, 0⟩ :=
    ⟨⟨markerSession.tokenizer, {}, {}, true, [1], false, rfl⟩, rfl, rfl, rfl⟩
  have hopen : Relation.ReflTransGen Step ⟨markerSession, 5, 0⟩ ⟨session₂, 3, 0⟩ := by
    have hstep := Step.ofModel 0 hfirst (by decide)
    rw [hone₁] at hstep
    have hstep' := Step.ofModel 0 hsecond hlicensed₂
    rw [hone₂] at hstep'
    exact .tail (.single hstep) hstep'
  have hclose : Relation.ReflTransGen Step ⟨session₂, 3, 0⟩ ⟨session₄, 1, 1⟩ := by
    obtain ⟨previewed, hperform, hcommit⟩ := OutputCall.commit_eq_some hcontrol
    have hstep := Step.controlCommit ⟨session₂, 3, 0⟩ decision₃ previewed output₃ session₃
      (by simp [hpending]) (by rw [hpending]; exact hperform) hcommit
    rw [hone₃] at hstep
    have hstep' := Step.ofModel 1 hlast hlicensed₄
    rw [hone₄] at hstep'
    exact .tail (.single hstep) hstep'
  obtain ⟨-, -, hused, -, hroom, -⟩ := thinking_budget_protocol hstart hopen
  obtain ⟨-, -, -, -, -, hclosed⟩ := thinking_budget_protocol hstart (hopen.trans hclose)
  have hended := hclosed Nat.one_pos _ .refl
  refine ⟨_, _, hstart, hopen, hpending, (hused hdue).2, ?_, hclose, rfl, rfl, hended.1, hended.2⟩
  have hfits := hroom (by simp [hpending])
  rwa [hpending] at hfits

end OutputSession

end VoidInfer.Frontend
