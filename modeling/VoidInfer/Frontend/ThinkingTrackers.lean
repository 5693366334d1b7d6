import VoidInfer.Frontend.HeldText
import VoidInfer.Frontend.ThinkingBudget

/-
  The two trackers of a thinking phase. The semantic tracker searches the raw bytes of all tokens for the marker, the
  decoder the presented text. Decoding hides no ASCII marker, so they agree as long as a token that only one of them
  takes in leaves the search where it is.
-/

namespace VoidInfer.Frontend
open Bytes Utf8 StreamMatch Fallible List

/-- Both trackers are open and have searched the same bytes `seen`, or both are closed. -/
def Agree (state : DecoderState) (semantic : SemanticThinkingState) : Prop :=
  (state.inReasoning = false ∧ semantic.inReasoning = false) ∨
  (state.inReasoning = true ∧ semantic.inReasoning = true ∧ ∃ seen,
    NoMatch [kThinkClose] seen ∧ Keeps [kThinkClose] seen semantic.closePending ∧
    state.utf8Pending = seen.drop (decodeUtf8Prefix seen).1 ∧
    Keeps [kThinkClose] (decodeUtf8Prefix seen).2 state.thinkMarkerPending)

variable {state : DecoderState} {semantic : SemanticThinkingState}

theorem Agree.inReasoning (h : Agree state semantic) : semantic.inReasoning = state.inReasoning := by
  rcases h with ⟨hs, hm⟩ | ⟨hs, hm, -⟩
  · rw [hs, hm]
  · rw [hs, hm]

theorem agree_start (hopen : state.inReasoning = semantic.inReasoning)
    (hutf8 : state.utf8Pending = []) (hmarker : state.thinkMarkerPending = [])
    (hclose : semantic.closePending = []) : Agree state semantic := by
  cases hs : state.inReasoning with
  | false => exact .inl ⟨hs, by rw [← hopen, hs]⟩
  | true =>
    refine .inr ⟨hs, by rw [← hopen, hs], [], ?_, ?_, by simp [hutf8], ?_⟩
    · intro w hw
      obtain rfl := mem_singleton.mp hw
      decide
    · rw [hclose]
      exact keeps_nil _
    rw [hmarker, decodeUtf8Prefix]
    exact keeps_nil _

/-! ## One text -/

theorem kThinkClose_ne : kThinkClose ≠ [] := by decide

theorem feedChannel_keeps (ctx : FeedContext) (channel : OutputChannel) (text : List UInt8) (feed : Feed) :
    ends (feedChannel ctx channel text feed) (fun after =>
      after.state.inReasoning = feed.state.inReasoning ∧ after.state.utf8Pending = feed.state.utf8Pending ∧
      after.state.thinkMarkerPending = feed.state.thinkMarkerPending ∧
      after.state.reasoningTokens = feed.state.reasoningTokens) (fun _ => True) := by
  refine ends_of_ok fun after h => ?_
  unfold feedChannel at h
  split at h
  · cases h
    exact ⟨rfl, rfl, rfl, rfl⟩
  obtain ⟨_, -, h1⟩ := bind_ok h
  obtain ⟨_, -, h2⟩ := bind_ok h1
  obtain ⟨_, -, h3⟩ := bind_ok h2
  obtain ⟨_, -, h4⟩ := bind_ok h3
  cases h4
  exact ⟨rfl, rfl, rfl, rfl⟩

theorem closeChannel_keeps (channel : OutputChannel) (feed : Feed) :
    ends (closeChannel channel feed) (fun after =>
      after.state.inReasoning = feed.state.inReasoning ∧ after.state.utf8Pending = feed.state.utf8Pending ∧
      after.state.reasoningTokens = feed.state.reasoningTokens) (fun _ => True) := by
  refine ends_of_ok fun after h => ?_
  obtain ⟨_, -, h1⟩ := bind_ok h
  cases h1
  exact ⟨rfl, rfl, rfl⟩

theorem feedContent_keeps (ctx : FeedContext) (text : List UInt8) (feed : Feed) :
    ends (feedContent ctx text feed) (fun after =>
      after.state.inReasoning = feed.state.inReasoning ∧ after.state.utf8Pending = feed.state.utf8Pending ∧
      after.state.reasoningTokens = feed.state.reasoningTokens) (fun _ => True) := by
  refine ends_ite (fun _ => ?_) fun _ => ?_
  · exact ends_imp (feedChannel_keeps ctx _ _ _) fun _ _ h => ⟨h.1, h.2.1, h.2.2.2⟩
  · exact ends_imp (feedChannel_keeps ctx _ _ _) fun _ _ h => ⟨h.1, h.2.1, h.2.2.2⟩

theorem feedDecodedText_search (ctx : FeedContext) (text : List UInt8) (feed : Feed) :
    ends (feedDecodedText ctx text feed) (fun after =>
      after.state.utf8Pending = feed.state.utf8Pending ∧
      after.state.reasoningTokens = feed.state.reasoningTokens ∧
      (feed.state.inReasoning = false → after.state.inReasoning = false) ∧
      (feed.state.inReasoning = true → cut kThinkClose (feed.state.thinkMarkerPending ++ text) ≠ none →
        after.state.inReasoning = false) ∧
      (feed.state.inReasoning = true → cut kThinkClose (feed.state.thinkMarkerPending ++ text) = none →
        after.state.inReasoning = true ∧ Keeps [kThinkClose] (feed.state.thinkMarkerPending ++ text)
          after.state.thinkMarkerPending)) (fun _ => True) := by
  refine ends_ite (fun hclosed => ?_) fun hopen => ?_
  · refine ends_imp (feedContent_keeps ctx text feed) fun after _ h => ?_
    exact ⟨h.2.1, h.2.2, fun _ => h.1.trans hclosed, fun ho => absurd (ho.symm.trans hclosed) (by simp),
      fun ho => nomatch ho.symm.trans hclosed⟩
  have hopen' : feed.state.inReasoning = true := by simpa using hopen
  refine ends_skip fun _ _ => ?_
  unfold feedThinking
  split
  · next reasoning content hcut =>
    refine ends_bind (feedChannel_keeps ctx _ _ _) fun f _ hf => ?_
    refine ends_bind (closeChannel_keeps _ _) fun g _ hg => ?_
    refine ends_bind (feedContent_keeps ctx _ _) fun c _ hc => ?_
    refine ⟨hc.2.1.trans (hg.2.1.trans hf.2.1), hc.2.2.trans (hg.2.2.trans hf.2.2.2), fun _ => hc.1,
      fun _ _ => hc.1, fun _ hnone => ?_⟩
    rw [hcut] at hnone
    cases hnone
  next hcut =>
  refine ends_bind (feedChannel_keeps ctx _ _ _) fun f _ hf => ?_
  refine ⟨hf.2.1, hf.2.2.2, fun ho => absurd (ho.symm.trans hopen') (by simp), fun _ hsome => absurd hcut hsome,
    fun _ _ => ⟨hf.1.trans hopen', keeps_longestSuffixPrefix _ _⟩⟩

theorem feedSemanticThinking_search (storage : Option PendingStorage) (semantic : SemanticThinkingState)
    (bytes : List UInt8) :
    ends (feedSemanticThinking storage semantic bytes) (fun after =>
      after.modelThinkingTokens = semantic.modelThinkingTokens ∧
      (semantic.inReasoning = false → after.inReasoning = false) ∧
      (semantic.inReasoning = true → bytes ≠ [] → cut kThinkClose (semantic.closePending ++ bytes) ≠ none →
        after.inReasoning = false ∧ after.controlPending = false) ∧
      (semantic.inReasoning = true → cut kThinkClose (semantic.closePending ++ bytes) = none →
        after.inReasoning = true ∧ after.controlPending = semantic.controlPending ∧
        (bytes = [] → after.closePending = semantic.closePending) ∧
        (bytes ≠ [] → after.closePending = (semantic.closePending ++ bytes).drop
          ((semantic.closePending ++ bytes).length -
            longestSuffixPrefix (semantic.closePending ++ bytes) kThinkClose true)))) (fun _ => True) := by
  refine ends_ite (fun hskip => ?_) fun hfeed => ?_
  · refine ⟨rfl, id, fun ho hne => ?_, fun ho _ => ⟨ho, rfl, fun _ => rfl, fun hne => ?_⟩⟩
    · exact absurd (hskip.resolve_left (by simp [ho])) hne
    · exact absurd (hskip.resolve_left (by simp [ho])) hne
  obtain ⟨hopen, hne⟩ := not_or.mp hfeed
  refine ends_skip fun _ _ => ?_
  refine ends_ite (fun hsome => ?_) fun hnone => ?_
  · refine ⟨rfl, fun _ => rfl, fun _ _ _ => ⟨rfl, rfl⟩, fun _ hcut => ?_⟩
    rw [hcut] at hsome
    cases hsome
  have hcut : cut kThinkClose (semantic.closePending ++ bytes) = none := by simpa using hnone
  exact ⟨rfl, id, fun _ _ hsome => absurd hcut hsome, fun ho _ => ⟨ho, rfl, fun he => absurd he hne, fun _ => rfl⟩⟩

/-! ## One token -/

theorem decodeUtf8Prefix_nothing {bytes : List UInt8} (h : (decodeUtf8Prefix bytes).1 = 0) :
    (decodeUtf8Prefix bytes).2 = [] := by
  have hrest := decodeUtf8Prefix_rest bytes
  rw [h, drop_zero] at hrest
  rw [hrest]

theorem Agree.congr {semantic' : SemanticThinkingState}
    (h : Agree state semantic) (hopen : semantic'.inReasoning = semantic.inReasoning)
    (hclose : semantic'.closePending = semantic.closePending) : Agree state semantic' := by
  unfold Agree at h ⊢
  rwa [hopen, hclose]

/-- Both trackers take the same bytes. -/
theorem agree_feed {ctx : FeedContext} (feed : Feed) (h : Agree feed.state semantic) (bytes : List UInt8) :
    ends (feedTokenBytes ctx bytes feed) (fun after =>
      after.state.reasoningTokens = feed.state.reasoningTokens ∧
      ∀ storage semantic', feedSemanticThinking storage semantic bytes = .ok semantic' →
        Agree after.state semantic') (fun _ => True) := by
  refine ends_skip fun _ _ => ?_
  refine ends_skip fun _ _ => ?_
  generalize hdec : decodeUtf8Prefix (feed.state.utf8Pending ++ bytes) = dec
  rcases h with ⟨hclosed, hsem⟩ | ⟨hopen, hsem, seen, hno, hkeeps, hutf8, hmarker⟩
  · -- closed trackers stay closed
    have hstays : ∀ storage semantic', feedSemanticThinking storage semantic bytes = .ok semantic' →
        semantic'.inReasoning = false := fun storage semantic' hs =>
      (ends_val (feedSemanticThinking_search storage semantic bytes) hs).2.1 hsem
    refine ends_ite (fun _ => ⟨rfl, fun storage semantic' hs => .inl ⟨hclosed, hstays _ _ hs⟩⟩) fun _ => ?_
    refine ends_imp (feedDecodedText_search ctx dec.2 _) fun after _ ha => ?_
    exact ⟨ha.2.1, fun storage semantic' hs => .inl ⟨ha.2.2.1 hclosed, hstays _ _ hs⟩⟩
  have happ := decodeUtf8Prefix_append seen bytes
  rw [← hutf8, hdec] at happ
  have htext : (decodeUtf8Prefix (seen ++ bytes)).2 = (decodeUtf8Prefix seen).2 ++ dec.2 := by rw [happ]
  have hwait : (feed.state.utf8Pending ++ bytes).drop dec.1 =
      (seen ++ bytes).drop (decodeUtf8Prefix (seen ++ bytes)).1 := by
    rw [happ, hutf8, ← drop_drop, drop_append_of_le_length (decodeUtf8Prefix_le seen)]
  have hnoText : NoMatch [kThinkClose] (decodeUtf8Prefix seen).2 := (noMatch_decode_iff seen).mpr hno
  have hsemantic : cut kThinkClose (semantic.closePending ++ bytes) = none ↔ NoMatch [kThinkClose] (seen ++ bytes) :=
    (cut_eq_none_iff_noMatch kThinkClose_ne).trans (hkeeps.noMatch_append hno bytes).symm
  have hdecoder : cut kThinkClose (feed.state.thinkMarkerPending ++ dec.2) = none ↔
      NoMatch [kThinkClose] (seen ++ bytes) := by
    rw [cut_eq_none_iff_noMatch kThinkClose_ne, ← hmarker.noMatch_append hnoText, ← htext, noMatch_decode_iff]
  -- what both do when the marker is still incomplete
  have hagree : ∀ state, NoMatch [kThinkClose] (seen ++ bytes) → state.inReasoning = true →
      state.utf8Pending = (feed.state.utf8Pending ++ bytes).drop dec.1 →
      Keeps [kThinkClose] (feed.state.thinkMarkerPending ++ dec.2) state.thinkMarkerPending →
      ∀ storage semantic', feedSemanticThinking storage semantic bytes = .ok semantic' → Agree state semantic' := by
    intro state hnone hstate hstateUtf8 hstateMarker storage semantic' hs
    have hsearch := (ends_val (feedSemanticThinking_search storage semantic bytes) hs).2.2.2 hsem
      (hsemantic.mpr hnone)
    refine .inr ⟨hstate, hsearch.1, seen ++ bytes, hnone, ?_, hstateUtf8.trans hwait, ?_⟩
    · by_cases hb : bytes = []
      · rw [hsearch.2.2.1 hb, hb, append_nil]
        exact hkeeps
      · rw [hsearch.2.2.2 hb]
        exact hkeeps.append (keeps_longestSuffixPrefix _ _)
    rw [htext]
    exact hmarker.append hstateMarker
  refine ends_ite (fun hnothing => ?_) fun _ => ?_
  · have hempty : dec.2 = [] := by
      rw [← hdec] at hnothing ⊢
      exact decodeUtf8Prefix_nothing hnothing
    have hnone : NoMatch [kThinkClose] (seen ++ bytes) := by
      rw [← noMatch_decode_iff, htext, hempty, append_nil]
      exact hnoText
    have hself : Keeps [kThinkClose] (feed.state.thinkMarkerPending ++ dec.2) feed.state.thinkMarkerPending := by
      rw [hempty, append_nil]
      exact ⟨suffix_refl _, fun h hs _ => hs.length_le⟩
    exact ⟨rfl, hagree _ hnone hopen rfl hself⟩
  refine ends_imp (feedDecodedText_search ctx dec.2 _) fun after _ ha => ?_
  obtain ⟨hutf, hcount, -, hclose, hhold⟩ := ha
  refine ⟨hcount, ?_⟩
  by_cases hnone : NoMatch [kThinkClose] (seen ++ bytes)
  · obtain ⟨hstays, hkeep⟩ := hhold hopen (hdecoder.mpr hnone)
    exact hagree _ hnone hstays hutf hkeep
  intro storage semantic' hs
  have hne : bytes ≠ [] := by
    rintro rfl
    rw [append_nil] at hnone
    exact hnone hno
  exact .inl ⟨hclose hopen (fun hc => hnone (hdecoder.mp hc)),
    ((ends_val (feedSemanticThinking_search storage semantic bytes) hs).2.2.1 hsem hne
      fun hc => hnone (hsemantic.mp hc)).1⟩

theorem terminalize_keeps {storage : Option PendingStorage} {policy : StopPolicy} {count : Nat}
    {emitted : PublishedOutput} (h : Agree state semantic) :
    ends (terminalize storage policy count state emitted) (fun result =>
      result.1.terminal = true ∧ result.1.inReasoning = state.inReasoning ∧
      result.1.reasoningTokens = state.reasoningTokens) (fun _ => True) := by
  refine ends_bind (Q := fun f => f.state.inReasoning = state.inReasoning ∧
    f.state.reasoningTokens = state.reasoningTokens) ?_ fun f _ hf => ?_
  · refine ends_ite (fun _ => ⟨rfl, rfl⟩) fun _ => ?_
    refine ends_imp (feedDecodedText_search _ replacement _) fun after _ ha => ⟨?_, ha.2.1⟩
    rcases h with ⟨hclosed, -⟩ | ⟨hopen, -, seen, hno, -, -, hmarker⟩
    · exact (ha.2.2.1 hclosed).trans hclosed.symm
    -- a replacement completes no ASCII marker
    have hnone : cut kThinkClose (state.thinkMarkerPending ++ replacement) = none := by
      rw [cut_eq_none_iff_noMatch kThinkClose_ne, ← hmarker.noMatch_append ((noMatch_decode_iff seen).mpr hno)]
      intro w hw
      obtain rfl := mem_singleton.mp hw
      rw [infix_append_nonAscii kThinkClose_ascii kThinkClose_ne replacement_nonAscii]
      exact (noMatch_decode_iff seen).mpr hno _ (mem_singleton.mpr rfl)
    exact ((ha.2.2.2.2 hopen hnone).1).trans hopen.symm
  refine ends_bind (Q := fun g => g.state.inReasoning = f.state.inReasoning ∧
    g.state.reasoningTokens = f.state.reasoningTokens) ?_ fun g _ hg =>
      ⟨rfl, hg.1.trans hf.1, hg.2.trans hf.2⟩
  refine ends_ite (fun _ => ?_) fun _ => ?_
  · refine ends_bind (feedChannel_keeps _ _ _ _) fun g _ hg => ?_
    exact ends_imp (closeChannel_keeps _ _) fun _ _ hc => ⟨hc.1.trans hg.1, hc.2.2.trans hg.2.2.2⟩
  · exact ends_imp (closeChannel_keeps _ _) fun _ _ hc => ⟨hc.1, hc.2.2⟩

namespace OutputSession

variable {session : OutputSession}

/-- The bytes neither complete the marker nor change what the semantic tracker holds of it. -/
def Passive (semantic : SemanticThinkingState) (bytes : List UInt8) : Prop :=
  cut kThinkClose (semantic.closePending ++ bytes) = none ∧
    (semantic.closePending ++ bytes).drop ((semantic.closePending ++ bytes).length -
      longestSuffixPrefix (semantic.closePending ++ bytes) kThinkClose true) = semantic.closePending

/-- A token met while thinking is open: if it is not presented, the semantic tracker passes over
    it; if it is a hidden stop token, it does not complete the marker. -/
def TokenAligned (session : OutputSession) (semantic : SemanticThinkingState) (token : TokenId)
    (stopToken : Bool) : Prop :=
  ∀ decoded, session.tokenizer.decodedToken token = .ok decoded → semantic.inReasoning = true →
    (presentedBytes session decoded stopToken ≠ decoded.bytes → Passive semantic decoded.bytes) ∧
    (stopToken = true → session.policy.publishStopToken = false →
      cut kThinkClose (semantic.closePending ++ decoded.bytes) = none)

def TokensAligned (session : OutputSession) (round : Round) (count : Nat) : List TokenId → Prop
  | [] => True
  | token :: tokens =>
    TokenAligned session round.semantic token (decide (token ∈ session.policy.tokenIds)) ∧
      ∀ next, previewToken session round (count + 1) token = .ok (.next next) →
        TokensAligned session next (count + 1) tokens

def ControlAligned (session : OutputSession) (round : Round) (count : Nat) : List TokenId → Prop
  | [] => True
  | token :: tokens =>
    TokenAligned session round.semantic token false ∧
      ∀ next, previewControlToken session round (count + 1) token = .ok next →
        ControlAligned session next (count + 1) tokens

def CallAligned (session : OutputSession) : OutputCall → Prop
  | .model tokens _ _ => session.captureOnly = true ∨ TokensAligned session session.startRound 0 tokens
  | .control tokens _ => ControlAligned session session.startRound 0 tokens
  | .terminal _ => True

/-- The trackers after some tokens: they agree, or agree for good at the end, and have counted
    the same tokens, up to the `seen` control tokens that only the decoder counts. -/
structure Counted (before : Round) (seen : Nat) (after : Round) : Prop where
  agree : after.state.terminal = true ∧ after.semantic.inReasoning = after.state.inReasoning ∨
    Agree after.state after.semantic
  tokens : after.state.reasoningTokens + before.semantic.modelThinkingTokens =
    after.semantic.modelThinkingTokens + before.state.reasoningTokens + seen
  pending : before.semantic.controlPending = false → after.semantic.controlPending = false

theorem previewThinking_search (session : OutputSession) (semantic : SemanticThinkingState) (bytes : List UInt8) :
    ends (previewThinking session semantic bytes) (fun after =>
      (semantic.inReasoning = false → after = semantic) ∧
      (semantic.inReasoning = true → after.modelThinkingTokens = semantic.modelThinkingTokens + 1 ∧
        feedSemanticThinking session.storage
          { semantic with modelThinkingTokens := semantic.modelThinkingTokens + 1 } bytes = .ok after) ∧
      (semantic.controlPending = false → after.controlPending = false))
      (fun _ => True) := by
  refine ends_ite (fun hclosed => ⟨fun _ => rfl, fun ho => absurd (ho.symm.trans hclosed) (by simp), id⟩)
    fun hopen => ?_
  refine ends_skip fun _ _ => ?_
  refine ends_of_ok fun after hafter => ⟨fun hclosed => absurd hclosed hopen, fun _ => ?_,
    (ends_val (feedSemanticThinking_spec _ _ _) hafter).2.2.2.2⟩
  exact ⟨(ends_val (feedSemanticThinking_search _ _ _) hafter).1, hafter⟩

theorem agree_token {ctx : FeedContext} {state : DecoderState} {output : PublishedOutput}
    {semantic after : SemanticThinkingState} (storage : Option PendingStorage) (h : Agree state semantic)
    {presented bytes : List UInt8} (hbytes : presented = bytes ∨ presented = [])
    (hpassive : presented ≠ bytes → semantic.inReasoning = true → Passive semantic bytes)
    (hafter : feedSemanticThinking storage semantic bytes = .ok after) :
    ends (feedTokenBytes ctx presented ⟨state, output, none⟩) (fun feed =>
      Agree feed.state after ∧ feed.state.reasoningTokens = state.reasoningTokens) (fun _ => True) := by
  refine ends_imp (agree_feed ⟨state, output, none⟩ h presented) fun feed _ hf => ⟨?_, hf.1⟩
  by_cases hsame : presented = bytes
  · subst hsame
    exact hf.2 storage after hafter
  have hempty := hbytes.resolve_left hsame
  subst hempty
  have hself := hf.2 storage semantic (by exact if_pos (.inr rfl))
  have hsearch := ends_val (feedSemanticThinking_search storage semantic bytes) hafter
  cases hopen : semantic.inReasoning with
  | false =>
    rcases hself with ⟨hs, -⟩ | ⟨-, hs, -⟩
    · exact .inl ⟨hs, hsearch.2.1 hopen⟩
    · cases hs.symm.trans hopen
  | true =>
    obtain ⟨hnone, hkeep⟩ := hpassive hsame hopen
    obtain ⟨hin, -, -, hclose⟩ := hsearch.2.2.2 hopen hnone
    exact hself.congr (hin.trans hopen.symm) ((hclose (Ne.symm hsame)).trans hkeep)

theorem presentedBytes_cases (token : DecodedToken) (stopToken : Bool) :
    presentedBytes session token stopToken = token.bytes ∨ presentedBytes session token stopToken = [] := by
  unfold presentedBytes
  split
  · exact .inr rfl
  · exact .inl rfl

variable {round : Round} {p : TrackedPoint}

theorem previewToken_agree (h : Agree round.state round.semantic) (count : Nat)
    {token : TokenId} (haligned : session.captureOnly = true ∨
      TokenAligned session round.semantic token (decide (token ∈ session.policy.tokenIds))) :
    ends (previewToken session round count token)
      (fun outcome => match outcome with
        | .next after => Agree after.state after.semantic ∧ Counted round 0 after
        | .finish after _ reason => reason ≠ .none ∧ Counted round 0 after)
      (fun _ => True) := by
  refine ends_skip fun decoded hdecoded => ?_
  refine ends_ite (fun _ => ⟨h, .inr h, by omega, id⟩) fun hcapture => ?_
  obtain ⟨hpassive, hhidden⟩ : (round.semantic.inReasoning = true →
      presentedBytes session decoded (decide (token ∈ session.policy.tokenIds)) ≠ decoded.bytes →
        Passive round.semantic decoded.bytes) ∧ (round.semantic.inReasoning = true →
      decide (token ∈ session.policy.tokenIds) = true → session.policy.publishStopToken = false →
        cut kThinkClose (round.semantic.closePending ++ decoded.bytes) = none) :=
    ⟨fun ho => ((haligned.resolve_left hcapture) decoded hdecoded ho).1,
      fun ho => ((haligned.resolve_left hcapture) decoded hdecoded ho).2⟩
  refine ends_bind (previewThinking_search session round.semantic decoded.bytes) fun semantic _ hthink => ?_
  have hsync := h.inReasoning
  -- the tracker's next state, as the feed of some state that agrees with the decoder
  obtain ⟨start, hstart, hcount, hfed, hopen⟩ : ∃ start, Agree (countReasoning round.state) start ∧
      (countReasoning round.state).reasoningTokens + round.semantic.modelThinkingTokens =
        semantic.modelThinkingTokens + round.state.reasoningTokens ∧
      feedSemanticThinking session.storage start decoded.bytes = .ok semantic ∧
      start.inReasoning = round.semantic.inReasoning ∧
      start.closePending = round.semantic.closePending := by
    cases ho : round.semantic.inReasoning with
    | false =>
      have hs : round.state.inReasoning = false := hsync.symm.trans ho
      obtain rfl := hthink.1 ho
      refine ⟨round.semantic, h, ?_, by exact if_pos (.inl ho), ho, rfl⟩
      simp only [countReasoning, hs]
      simp [Nat.add_comm]
    | true =>
      have hs : round.state.inReasoning = true := hsync.symm.trans ho
      obtain ⟨hmodel, hfeed⟩ := hthink.2.1 ho
      refine ⟨{ round.semantic with modelThinkingTokens := round.semantic.modelThinkingTokens + 1 },
        h.congr rfl rfl, ?_, hfeed, ho, rfl⟩
      simp only [countReasoning, hs, hmodel]
      simp
      omega
  refine ends_bind (Q := fun copy => copy = countReasoning round.state) ?_ fun beforeStop _ hbefore => ?_
  · refine ends_ite (fun _ => ends_of_ok fun copy hcopy => copyDecoderState_ok hcopy) fun _ => rfl
  refine ends_bind (agree_token session.storage hstart (presentedBytes_cases decoded _)
    (fun hne ho => ?_) hfed) fun feed _ hfeed => ?_
  · have := hpassive (hopen.1 ▸ ho) hne
    unfold Passive at this ⊢
    rwa [hopen.2]
  obtain ⟨hagree, htokens⟩ := hfeed
  have htotal : feed.state.reasoningTokens + round.semantic.modelThinkingTokens =
      semantic.modelThinkingTokens + round.state.reasoningTokens + 0 := by omega
  split
  · exact ⟨by simp, .inl ⟨rfl, hagree.inReasoning⟩, htotal, hthink.2.2⟩
  refine ends_ite (fun hstop => ?_) fun _ => ⟨hagree, .inr hagree, htotal, hthink.2.2⟩
  cases hpublish : session.policy.publishStopToken with
  | true =>
    simp only [Bool.not_true, Bool.and_false, Bool.false_eq_true, if_false]
    refine ends_bind (terminalize_keeps hagree) fun result _ hresult => ?_
    obtain ⟨hend, hin, hcnt⟩ := hresult
    exact ⟨by simp, .inl ⟨hend, hagree.inReasoning.trans hin.symm⟩, by simp only; omega, hthink.2.2⟩
  | false =>
    simp only [hstop, Bool.not_false, Bool.and_true, if_true]
    subst hbefore
    refine ends_bind (terminalize_keeps hstart) fun result _ hresult => ?_
    obtain ⟨hend, hin, hcnt⟩ := hresult
    have hsem : semantic.inReasoning = start.inReasoning := by
      have hsearch := ends_val (feedSemanticThinking_search _ _ _) hfed
      cases ho : start.inReasoning with
      | false => exact hsearch.2.1 ho
      | true =>
        have hcut := hhidden (hopen.1 ▸ ho) hstop hpublish
        rw [← hopen.2] at hcut
        exact (hsearch.2.2.2 ho hcut).1
    exact ⟨by simp, .inl ⟨hend, hsem.trans (hstart.inReasoning.trans hin.symm)⟩, by simp only; omega, hthink.2.2⟩

theorem Counted.trans {a b c : Round} {m n : Nat} (h : Counted a m b) (h' : Counted b n c) : Counted a (m + n) c where
  agree := h'.agree
  tokens := by have := h.tokens; have := h'.tokens; omega
  pending := fun hp => h'.pending (h.pending hp)

theorem previewTokens_agree (tokens : List TokenId) (h : Agree round.state round.semantic) (count : Nat)
    (haligned : session.captureOnly = true ∨ TokensAligned session round count tokens) :
    ends (previewTokens session round count tokens)
      (fun outcome => match outcome with
        | .next after => Agree after.state after.semantic ∧ Counted round 0 after
        | .finish after _ reason => reason ≠ .none ∧ Counted round 0 after)
      (fun _ => True) := by
  induction tokens generalizing round count with
  | nil => exact ⟨h, .inr h, by omega, id⟩
  | cons token tokens ih =>
    refine ends_bind (previewToken_agree h _ (haligned.imp_right fun ha => ha.1)) fun outcome hout hnext => ?_
    cases outcome with
    | finish after count' reason => exact hnext
    | next after =>
      obtain ⟨hagree, hcounted⟩ := hnext
      refine ends_imp (ih hagree _ (haligned.imp_right fun ha => ha.2 after hout)) fun rest _ hrest => ?_
      cases rest with
      | next last => exact ⟨hrest.1, hcounted.trans hrest.2⟩
      | finish last count' reason => exact ⟨hrest.1, hcounted.trans hrest.2⟩

/-- The control tokens that arrive while the tracker is open. -/
def seenInReasoning (session : OutputSession) (round : Round) (count : Nat) : List TokenId → Nat
  | [] => 0
  | token :: tokens =>
    (if round.semantic.inReasoning then 1 else 0) +
      match previewControlToken session round (count + 1) token with
      | .ok next => seenInReasoning session next (count + 1) tokens
      | .error _ => 0

theorem previewControlTokens_agree (tokens : List TokenId) (h : Agree round.state round.semantic)
    (count : Nat) (haligned : ControlAligned session round count tokens) :
    ends (previewControlTokens session round count tokens) (fun after =>
      Agree after.state after.semantic ∧
      Counted round (seenInReasoning session round count tokens) after) (fun _ => True) := by
  induction tokens generalizing round count with
  | nil => exact ⟨h, .inr h, by simp only [seenInReasoning]; omega, id⟩
  | cons token tokens ih =>
    refine ends_bind (Q := fun next => Agree next.state next.semantic ∧
      Counted round (if round.semantic.inReasoning then 1 else 0) next) ?_ fun next hout hnext => ?_
    · refine ends_skip fun decoded hdecoded => ?_
      refine ends_bind (Q := fun semantic => feedSemanticThinking session.storage round.semantic decoded.bytes =
        .ok semantic) (ends_of_ok fun _ hs => hs) fun semantic _ hsemantic => ?_
      have hstart : Agree (countReasoning round.state) round.semantic := h
      refine ends_bind (agree_token session.storage hstart (presentedBytes_cases decoded false)
        (fun hne ho => (haligned.1 decoded hdecoded ho).1 hne) hsemantic) fun feed _ hfeed => ?_
      obtain ⟨hagree, htokens⟩ := hfeed
      have hmodel := (ends_val (feedSemanticThinking_search _ _ _) hsemantic).1
      refine ⟨hagree, .inr hagree, ?_, (ends_val (feedSemanticThinking_spec _ _ _) hsemantic).2.2.2.2⟩
      simp only [countReasoning, ← h.inReasoning] at htokens
      simp only
      omega
    rw [seenInReasoning, hout]
    obtain ⟨hagree, hcounted⟩ := hnext
    exact ends_imp (ih hagree _ (haligned.2 next hout)) fun last _ hlast => ⟨hlast.1, hcounted.trans hlast.2⟩

/-! ## Runs -/

/-- A session between two previews, and the control tokens committed so far that arrived while thinking was open. -/
structure TrackedPoint where
  session : OutputSession
  injectedSeen : Nat

def callSeen (session : OutputSession) : OutputCall → Nat
  | .control tokens _ => seenInReasoning session session.startRound 0 tokens
  | _ => 0

inductive TrackedStep : TrackedPoint → TrackedPoint → Prop where
  | commit {p : TrackedPoint} {call decision previewed output committed} (hcall : CallAligned p.session call)
      (hperform : call.perform p.session = .ok (decision, previewed))
      (hcommit : previewed.commitPreview = some (output, committed)) :
      TrackedStep p ⟨committed, p.injectedSeen + callSeen p.session call⟩
  | discard {p : TrackedPoint} {call decision previewed} (hcall : CallAligned p.session call)
      (hperform : call.perform p.session = .ok (decision, previewed)) :
      TrackedStep p ⟨previewed.discardPreview, p.injectedSeen⟩

/-- A non-raw session that starts in reasoning with a budget. -/
structure StartsThinking (p : TrackedPoint) : Prop where
  made : ∃ tokenizer callerStop preserveSpecial budget control captureOnly session,
    makeOutputSession tokenizer callerStop ⟨false, preserveSpecial⟩ true (some budget) control captureOnly =
      .ok session ∧
    ∃ storage limit, p.session = { session with storage := storage, fixedOutputLimit := limit }
  injectedSeen : p.injectedSeen = 0

/-- Holds at every point of a run. -/
structure Tracked (p : TrackedPoint) : Prop where
  agree : p.session.state.terminal = true ∧
      p.session.semantic.inReasoning = p.session.state.inReasoning ∨
    Agree p.session.state p.session.semantic
  tokens : p.session.state.reasoningTokens = p.session.semantic.modelThinkingTokens + p.injectedSeen
  pending : p.session.semantic.controlPending = true → p.session.semantic.inReasoning = true

theorem Tracked.inReasoning (h : Tracked p) : p.session.semantic.inReasoning = p.session.state.inReasoning :=
  h.agree.elim And.right Agree.inReasoning

theorem Tracked.open_ (h : Tracked p) (hopen : p.session.state.terminal = false) :
    Agree p.session.state p.session.semantic :=
  h.agree.resolve_left fun hend => nomatch hend.1.symm.trans hopen

theorem StartsThinking.tracked (h : StartsThinking p) : Tracked p := by
  obtain ⟨tokenizer, callerStop, preserveSpecial, budget, control, captureOnly, session, hmade, storage,
    limit, hsession⟩ := h.made
  obtain ⟨policy, -, hmake⟩ := bind_ok hmade
  obtain ⟨_, -, hfields⟩ := bind_ok hmake
  cases hfields
  refine ⟨.inr ?_, ?_, ?_⟩
  · rw [hsession]
    exact agree_start rfl rfl rfl rfl
  · rw [hsession, h.injectedSeen]
  · rw [hsession]
    exact nofun

theorem Tracked.commit (h : Tracked p) {count : Nat}
    {reason : FinishReason} {continuation : ContinuationAction} {decision : OutputDecision}
    {previewed committed : OutputSession} {output : PublishedOutput} {seen : Nat}
    (hres : (decision, previewed) = complete p.session round count reason continuation)
    (hcommit : previewed.commitPreview = some (output, committed))
    (hagree : round.state.terminal = true ∧ round.semantic.inReasoning = round.state.inReasoning ∨
      Agree round.state round.semantic)
    (htokens : round.state.reasoningTokens + p.session.semantic.modelThinkingTokens =
      round.semantic.modelThinkingTokens + p.session.state.reasoningTokens + seen)
    (hpending : reason = .none → round.semantic.controlPending = true → round.semantic.inReasoning = true) :
    Tracked ⟨committed, p.injectedSeen + seen⟩ := by
  obtain ⟨-, -, hstate, hsem, -⟩ := complete_commit hres hcommit
  have hcount := h.tokens
  refine ⟨?_, ?_, fun hp => ?_⟩
  · simp only [hstate, hsem]
    exact hagree.imp_right fun ha => ha.congr rfl rfl
  · simp only [hstate, hsem]
    omega
  · simp only [hsem, Bool.and_eq_true, decide_eq_true_eq] at hp ⊢
    exact hpending hp.2 hp.1

theorem Tracked.step {q : TrackedPoint} (h : Tracked p) (hstep : TrackedStep p q) : Tracked q := by
  cases hstep with
  | @commit call decision previewed output committed haligned hperform hcommit =>
    cases call with
    | model tokens total limitReason =>
      obtain ⟨hopen, hpending, -, hreason, hway⟩ := previewModel_ok hperform
      have hstart : Agree p.session.startRound.state p.session.startRound.semantic := h.open_ hopen
      have hspec := previewTokens_agree tokens hstart 0 haligned
      have hclosedReason : limitReason ≠ .none := by rintro rfl; simp at hreason
      generalize hres : (decision, previewed) = result at hway
      cases hway with
      | finished htokens =>
        obtain ⟨hnone, hcounted⟩ := ends_val hspec htokens
        exact h.commit hres hcommit hcounted.agree hcounted.tokens fun hn => absurd hn hnone
      | limited htokens hlimit hflush =>
        obtain ⟨hagree, hcounted⟩ := ends_val hspec htokens
        obtain ⟨hend, hin, hcnt⟩ := ends_val (terminalize_keeps hagree) hflush
        have hsum := hcounted.tokens
        refine h.commit hres hcommit (.inl ⟨hend, hagree.inReasoning.trans hin.symm⟩) ?_
          fun hn => absurd hn hclosedReason
        simp only [startRound, callSeen] at hsum hcnt ⊢
        omega
      | control htokens hlimit hopen' hbudget =>
        obtain ⟨hagree, hcounted⟩ := ends_val hspec htokens
        exact h.commit hres hcommit (.inr (hagree.congr rfl rfl)) hcounted.tokens fun _ _ => hopen'
      | decode htokens hlimit =>
        obtain ⟨hagree, hcounted⟩ := ends_val hspec htokens
        exact h.commit hres hcommit (.inr hagree) hcounted.tokens
          fun _ hp => nomatch hp.symm.trans (hcounted.pending hpending)
    | control tokens total =>
      obtain ⟨hopen, -, -, round, htokens, -, -, hres⟩ := previewControl_ok hperform
      have hstart : Agree p.session.startRound.state p.session.startRound.semantic := h.open_ hopen
      obtain ⟨hagree, hcounted⟩ := ends_val (previewControlTokens_agree tokens hstart 0 haligned) htokens
      exact h.commit hres hcommit (.inr (hagree.congr rfl rfl)) hcounted.tokens fun _ hp => nomatch hp
    | terminal reason =>
      obtain ⟨hopen, hreason, state, flushed, hflush, hres⟩ := previewTerminal_ok hperform
      have hagree := h.open_ hopen
      obtain ⟨hend, hin, hcnt⟩ := ends_val (terminalize_keeps hagree) hflush
      refine h.commit hres hcommit (.inl ⟨hend, hagree.inReasoning.trans hin.symm⟩) ?_ fun hn => absurd hn hreason
      simp only [startRound, callSeen] at hcnt ⊢
      omega
  | discard haligned hperform =>
    obtain ⟨round, count, reason, continuation, hres⟩ := perform_complete hperform
    obtain ⟨hstate, hsem, -⟩ := complete_discard hres
    refine ⟨?_, ?_, ?_⟩
    · simpa only [hstate, hsem] using h.agree
    · simpa only [hstate, hsem] using h.tokens
    · simpa only [hsem] using h.pending

theorem Tracked.run {q : TrackedPoint} (h : Tracked p) (hrun : Relation.ReflTransGen TrackedStep p q) :
    Tracked q := by
  induction hrun with
  | refl => exact h
  | tail _ hstep ih => exact ih.step hstep

/-- In a run whose tokens are aligned the trackers agree after every token, the control suffix is
    due only while reasoning is presented, and the decoder's count is the tracker's and the
    control tokens that arrived in reasoning. -/
theorem trackers_agree {start p : TrackedPoint} (hstart : StartsThinking start)
    (hrun : Relation.ReflTransGen TrackedStep start p) :
    p.session.semantic.inReasoning = p.session.state.inReasoning ∧
    p.session.state.reasoningTokens = p.session.semantic.modelThinkingTokens + p.injectedSeen ∧
    (p.session.pendingControlTokens ≠ [] → p.session.state.inReasoning = true) ∧
    (p.session.state.terminal = false → ∀ tokens outcome,
      (p.session.captureOnly = true ∨ TokensAligned p.session p.session.startRound 0 tokens) →
      previewTokens p.session p.session.startRound 0 tokens = .ok outcome → match outcome with
        | .next after => after.semantic.inReasoning = after.state.inReasoning
        | .finish after _ _ => after.semantic.inReasoning = after.state.inReasoning) ∧
    (p.session.state.terminal = false → ∀ tokens after,
      ControlAligned p.session p.session.startRound 0 tokens →
      previewControlTokens p.session p.session.startRound 0 tokens = .ok after →
        after.semantic.inReasoning = after.state.inReasoning) := by
  have h := hstart.tracked.run hrun
  refine ⟨h.inReasoning, h.tokens, fun hne => ?_, fun hopen tokens outcome haligned hout => ?_,
    fun hopen tokens after haligned hout => ?_⟩
  · rw [← h.inReasoning]
    refine h.pending ?_
    by_contra hp
    exact hne (by simp [pendingControlTokens, hp])
  · have hstart' : Agree p.session.startRound.state p.session.startRound.semantic := h.open_ hopen
    have hspec := ends_val (previewTokens_agree tokens hstart' 0 haligned) hout
    cases outcome with
    | next after => exact hspec.1.inReasoning
    | finish after count reason => exact hspec.2.agree.elim And.right Agree.inReasoning
  · have hstart' : Agree p.session.startRound.state p.session.startRound.semantic := h.open_ hopen
    exact (ends_val (previewControlTokens_agree tokens hstart' 0 haligned) hout).1.inReasoning

/-- Tokens 0 and 2 make the marker; token 1, a special one, comes between them. -/
def splitMarkerSession : OutputSession where
  tokenizer := ⟨[some ⟨ascii "</thi", false⟩, some ⟨ascii "<|x|>", true⟩, some ⟨ascii "nk>", false⟩,
    some ⟨ascii "</think>", false⟩], []⟩
  policy := {}
  thinkingControlTokens := [3]
  preserveSpecial := false
  splitReasoning := true
  captureOnly := false
  state := { inReasoning := true }
  semantic := { budget := some 9, inReasoning := true }

theorem splitMarkerSession_starts : StartsThinking ⟨splitMarkerSession, 0⟩ :=
  ⟨⟨splitMarkerSession.tokenizer, {}, false, 9, [3], false, splitMarkerSession, rfl, none, none, rfl⟩, rfl⟩

def onlySemanticInReasoning : Except Exn Outcome → Bool
  | .ok (.next after) => after.semantic.inReasoning && !after.state.inReasoning
  | _ => false

/-- The presented text has the marker and the raw bytes do not. -/
theorem trackers_disagree : ∃ after, previewTokens splitMarkerSession splitMarkerSession.startRound 0 [0, 1, 2] =
    .ok (.next after) ∧ after.semantic.inReasoning = true ∧ after.state.inReasoning = false := by
  have hrun : onlySemanticInReasoning (previewTokens splitMarkerSession splitMarkerSession.startRound 0 [0, 1, 2]) =
      true := by decide +kernel
  unfold onlySemanticInReasoning at hrun
  split at hrun
  · next after hafter => exact ⟨after, hafter, by simpa using hrun⟩
  · cases hrun

instance (semantic : SemanticThinkingState) (bytes : List UInt8) : Decidable (Passive semantic bytes) :=
  inferInstanceAs (Decidable (_ ∧ _))

instance TokenAligned.decidable (session : OutputSession) (semantic : SemanticThinkingState) (token : TokenId)
    (stopToken : Bool) : Decidable (TokenAligned session semantic token stopToken) :=
  match h : session.tokenizer.decodedToken token with
  | .ok decoded => decidable_of_iff (semantic.inReasoning = true →
      (presentedBytes session decoded stopToken ≠ decoded.bytes → Passive semantic decoded.bytes) ∧
      (stopToken = true → session.policy.publishStopToken = false →
        cut kThinkClose (semantic.closePending ++ decoded.bytes) = none)) (by simp [TokenAligned, h])
  | .error _ => isTrue (by simp [TokenAligned, h])

instance TokensAligned.decidable (session : OutputSession) : ∀ round count tokens,
    Decidable (TokensAligned session round count tokens)
  | _, _, [] => isTrue trivial
  | round, count, token :: tokens =>
    match h : previewToken session round (count + 1) token with
    | .ok (.next next) =>
      have := TokensAligned.decidable session next (count + 1) tokens
      decidable_of_iff (TokenAligned session round.semantic token (decide (token ∈ session.policy.tokenIds)) ∧
        TokensAligned session next (count + 1) tokens) (by simp [TokensAligned, h])
    | .ok (.finish ..) | .error _ =>
      decidable_of_iff (TokenAligned session round.semantic token (decide (token ∈ session.policy.tokenIds)))
        (by simp [TokensAligned, h])

/-- The special token passes before the marker, whose halves come in two rounds; thinking is over for both. -/
theorem trackers_agree_split : ∃ p q : TrackedPoint, Relation.ReflTransGen TrackedStep ⟨splitMarkerSession, 0⟩ p ∧
    p.session.state.inReasoning = true ∧ p.session.semantic.closePending = ascii "</thi" ∧
    Relation.ReflTransGen TrackedStep p q ∧ q.session.state.inReasoning = false ∧
    q.session.semantic.inReasoning = q.session.state.inReasoning ∧
    q.session.state.reasoningTokens = q.session.semantic.modelThinkingTokens ∧
    q.session.semantic.modelThinkingTokens = 3 := by
  have hrounds : ((OutputCall.model [1, 0] 9 .outputLimit).commit splitMarkerSession).any
      (fun (_, _, session) => ((OutputCall.model [2] 7 .outputLimit).commit session).any
        fun (_, _, session') => decide (session.state.inReasoning = true ∧
          session.semantic.closePending = ascii "</thi" ∧
          TokensAligned session session.startRound 0 [2] ∧ session'.state.inReasoning = false ∧
          session'.semantic.modelThinkingTokens = 3)) = true := by decide +kernel
  obtain ⟨⟨decision, output, session⟩, hfirst, hrounds⟩ := (Option.any_eq_true _ _).mp hrounds
  obtain ⟨⟨decision', output', session'⟩, hsecond, hrounds⟩ := (Option.any_eq_true _ _).mp hrounds
  obtain ⟨hopen, hheld, haligned, hclosed, hcounted⟩ := of_decide_eq_true hrounds
  obtain ⟨previewed, hperform, hcommit⟩ := OutputCall.commit_eq_some hfirst
  obtain ⟨previewed', hperform', hcommit'⟩ := OutputCall.commit_eq_some hsecond
  have hmeets : CallAligned splitMarkerSession (.model [1, 0] 9 .outputLimit) := Or.inr (by decide +kernel)
  have hmeets' : CallAligned session (.model [2] 7 .outputLimit) := Or.inr haligned
  have hstep := TrackedStep.commit (p := ⟨splitMarkerSession, 0⟩) hmeets hperform hcommit
  have hstep' := TrackedStep.commit (p := ⟨session, 0⟩) hmeets' hperform' hcommit'
  obtain ⟨hagree, htokens, -⟩ := trackers_agree splitMarkerSession_starts (.tail (.single hstep) hstep')
  exact ⟨_, _, .single hstep, hopen, hheld, .single hstep', hclosed, hagree, htokens, hcounted⟩

end OutputSession

end VoidInfer.Frontend
