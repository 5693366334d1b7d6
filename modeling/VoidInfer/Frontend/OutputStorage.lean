import VoidInfer.Frontend.OutputRun
import VoidInfer.Frontend.ThinkingBudget
import Mathlib.Order.MinMax

/-
  The preallocated strings of an output session. Their sizes are derived from the longest token, and a replacement makes
  three bytes of text out of one. As long as what a token comes to fits the string reserved for the marker, each buffer
  holds what the one before it passes on; as long as it is no more than the longest token adds, what is published adds
  up to the byte bound.
-/

namespace VoidInfer.Frontend
open Bytes Utf8 Fallible List Function

/-- The exceptions of a string that outgrows its fixed capacity. -/
def CapacityError (e : Exn) : Prop :=
  e ∈ [Exn.logicError pendingAppendError, .logicError decoderSnapshotError,
    .logicError semanticSnapshotError, .logicError stopScratchError, .logicError stopSuffixError,
    .logicError decodedScratchError]

instance (e : Exn) : Decidable (CapacityError e) := inferInstanceAs (Decidable (e ∈ _))

/-! ## What the decoder leaves -/

theorem length_rest_le (bytes : List UInt8) : (bytes.drop (decodeUtf8Prefix bytes).1).length ≤ 3 := by
  induction bytes using decodeUtf8Prefix.induct with
  | case1 => simp
  | case2 lead rest hlead ih => rwa [decode_ascii hlead, drop_succ_cons]
  | case3 lead rest hlead hshape ih => rwa [decode_stray hlead hshape, drop_succ_cons]
  | case4 lead rest hlead length bits minimum hshape run hwait =>
    have hlen : length ≤ 4 := by
      unfold leadShape at hshape
      split_ifs at hshape <;> cases hshape <;> decide
    rw [decode_wait hlead hshape hwait]
    simp only [drop_zero, length_cons]
    omega
  | case5 lead rest hlead length bits minimum hshape run hwait hill ih =>
    rw [decode_ill hlead hshape hwait hill]
    simp only [length_drop, length_cons] at ih ⊢
    change rest.length + 1 - ((decodeUtf8Prefix (rest.drop run.1)).1 + (run.1 + 1)) ≤ 3
    omega
  | case6 lead rest hlead length bits minimum hshape run hwait hill ih =>
    have hlen := two_le_leadShape hshape
    rw [decode_well hlead hshape hill]
    simp only [length_drop, length_cons] at ih ⊢
    omega

instance (length minimum : Nat) (run : Nat × Nat) : Decidable (IllFormed length minimum run) :=
  inferInstanceAs (Decidable (_ ∨ _))

/-- What bytes come to as text: three for each sequence that is replaced, their number for the
    others and for an incomplete one that waits. -/
def replacedSize : List UInt8 → Nat
  | [] => 0
  | lead :: rest =>
    if lead.toNat ≤ 0x7f then replacedSize rest + 1
    else
      match leadShape lead.toNat with
      | none => replacedSize rest + replacement.length
      | some (length, bits, minimum) =>
        let run := continuations (length - 1) bits rest
        if run.1 + 1 < length ∧ run.1 = rest.length then rest.length + 1
        else if IllFormed length minimum run then replacedSize (rest.drop run.1) + replacement.length
        else replacedSize (rest.drop (length - 1)) + length
termination_by bytes => bytes.length
decreasing_by all_goals simp only [length_cons, length_drop]; omega

theorem replacedSize_eq (bytes : List UInt8) : replacedSize bytes =
    (decodeUtf8Prefix bytes).2.length + (bytes.drop (decodeUtf8Prefix bytes).1).length := by
  induction bytes using decodeUtf8Prefix.induct with
  | case1 => simp [replacedSize, decodeUtf8Prefix]
  | case2 lead rest hlead ih =>
    rw [replacedSize, if_pos hlead, ih, decode_ascii hlead, drop_succ_cons, length_cons]
    omega
  | case3 lead rest hlead hshape ih =>
    rw [replacedSize, if_neg hlead, hshape, decode_stray hlead hshape, drop_succ_cons, length_append]
    dsimp only
    omega
  | case4 lead rest hlead length bits minimum hshape run hwait =>
    rw [replacedSize, if_neg hlead, hshape, decode_wait hlead hshape hwait]
    exact (if_pos hwait).trans (by simp)
  | case5 lead rest hlead length bits minimum hshape run hwait hill ih =>
    rw [replacedSize, if_neg hlead, hshape, decode_ill hlead hshape hwait hill]
    refine (if_neg hwait).trans ((if_pos hill).trans ?_)
    rw [ih]
    simp only [length_drop, length_append, length_cons]
    change (decodeUtf8Prefix (rest.drop run.1)).2.length + _ + _ = replacement.length +
      (decodeUtf8Prefix (rest.drop run.1)).2.length + (rest.length + 1 - ((decodeUtf8Prefix (rest.drop run.1)).1 + (run.1 + 1)))
    omega
  | case6 lead rest hlead length bits minimum hshape run hwait hill ih =>
    have hlen := two_le_leadShape hshape
    have hfull : length - 1 ≤ rest.length := by
      have := continuations_le_bytes (length - 1) bits rest
      have : ¬ (continuations (length - 1) bits rest).1 + 1 < length := fun h => hill (.inl h)
      omega
    rw [replacedSize, if_neg hlead, hshape, decode_well hlead hshape hill]
    refine (if_neg hwait).trans ((if_neg hill).trans ?_)
    rw [ih]
    simp only [length_drop, length_append, length_cons, length_take_of_le hfull]
    omega

theorem longestSuffixPrefixFrom_le (text marker : List UInt8) (allowComplete : Bool) (size : Nat) :
    longestSuffixPrefixFrom text marker allowComplete size ≤ size := by
  induction size with
  | zero => exact le_refl _
  | succ size ih =>
    unfold longestSuffixPrefixFrom
    split
    · exact le_refl _
    · exact ih.trans (Nat.le_succ _)

theorem longestSuffixPrefix_le (text marker : List UInt8) (allowComplete : Bool) :
    longestSuffixPrefix text marker allowComplete ≤ text.length ∧
      longestSuffixPrefix text marker allowComplete ≤ marker.length :=
  le_min_iff.mp (longestSuffixPrefixFrom_le text marker allowComplete _)

/-- The longest stop string of a channel. -/
def stopBytes (policy : StopPolicy) (channel : OutputChannel) : Nat :=
  (policy.strings.filter fun stop => stop.channel = channel).foldl
    (fun bytes stop => max bytes stop.text.length) 0

theorem stopHoldSize_le (text : List UInt8) (channel : OutputChannel) (policy : StopPolicy) :
    stopHoldSize text channel policy ≤ text.length ∧ stopHoldSize text channel policy ≤ stopBytes policy channel := by
  suffices h : ∀ (stops : List StopString) a b, a ≤ text.length → a ≤ b →
      stops.foldl (fun hold stop => max hold (longestSuffixPrefix text stop.text false)) a ≤ text.length ∧
        stops.foldl (fun hold stop => max hold (longestSuffixPrefix text stop.text false)) a ≤
          stops.foldl (fun bytes stop => max bytes stop.text.length) b from
    h _ 0 0 (Nat.zero_le _) (le_refl _)
  intro stops
  induction stops with
  | nil => exact fun a b ha hab => ⟨ha, hab⟩
  | cons stop stops ih =>
    intro a b ha hab
    have hhold := longestSuffixPrefix_le text stop.text false
    exact ih _ _ (max_le ha hhold.1) (max_le_max hab hhold.2)

/-! ## Accounts of bytes -/

section
variable (output : PublishedOutput)

/-- The bytes in an output slot. -/
def PublishedOutput.size : Nat :=
  (output.deltas.map fun delta => delta.2.length).sum

theorem append_size (channel : OutputChannel) (text : List UInt8) :
    ends (output.append channel text) (fun after => after.size = output.size + text.length)
      (fun e => ¬ CapacityError e) := by
  refine ends_ite (fun h => by simp [h]) fun _ => ?_
  refine ends_bind (ends_throwIf (Q := fun _ => True) (fun _ => trivial) fun _ => by decide) fun _ _ _ => ?_
  refine ends_bind (ends_throwIf (Q := fun _ => True) (fun _ => trivial) fun _ => by decide) fun _ _ _ => ?_
  simp only [ends_ok, PublishedOutput.size]
  split
  · next last hlast =>
    obtain ⟨before, hbefore⟩ := getLast?_eq_some_iff.mp hlast
    split
    · simp [hbefore, Nat.add_assoc]
    · simp
  next hnone =>
  rw [getLast?_eq_none_iff] at hnone
  simp [hnone]

theorem textOn_length_le (channel : OutputChannel) : (output.textOn channel).length ≤ output.size := by
  unfold PublishedOutput.textOn PublishedOutput.size
  induction output.deltas with
  | nil => simp
  | cons delta deltas ih =>
    simp only [filter_cons, map_cons, sum_cons]
    split
    · simp only [map_cons, flatten_cons, length_append]
      omega
    · omega

end

/-- The bytes a channel's text holds back. -/
def heldBytes (state : DecoderState) : Nat :=
  (state.stopPending .reasoning).length + (state.stopPending .content).length

/-- Everything the decoder holds back. -/
def pendingBytes (state : DecoderState) : Nat :=
  state.utf8Pending.length + state.thinkMarkerPending.length + heldBytes state

variable {text bytes : List UInt8}

variable {channel : OutputChannel}

variable {state after : DecoderState}

theorem heldBytes_update (h : after.stopPending = update state.stopPending channel text) :
    heldBytes after + (state.stopPending channel).length = heldBytes state + text.length := by
  cases channel <;> simp [heldBytes, h] <;> omega

/-! ## The feeding functions -/

/-- Storage with at least the capacities `preallocate_pending_storage` asks for, for tokens of at most `width` bytes. -/
structure Roomy (width : Nat) (policy : StopPolicy) (caps : PendingStorage) : Prop where
  decodedScratch : 3 * (width + 3) ≤ caps.decodedScratch
  channelScratch : ∀ channel, stopBytes policy channel + (width + 11) ≤ caps.channelScratch
  utf8Pending : width + 3 ≤ caps.utf8Pending
  thinkMarkerPending : width + 11 ≤ caps.thinkMarkerPending
  stopPending : ∀ channel, stopBytes policy channel ≤ caps.stopPending channel
  closePending : width + 11 ≤ caps.closePending

theorem ends_requireRoomy {width : Nat} {policy : StopPolicy} {storage : Option PendingStorage}
    (hroomy : ∀ caps ∈ storage, Roomy width policy caps) {fits : PendingStorage → Bool} {what : String}
    (hfits : ∀ caps, Roomy width policy caps → fits caps = true) :
    ends (requireStorage storage fits what) (fun _ => True) (fun e => ¬ CapacityError e) := by
  unfold requireStorage
  split
  · trivial
  next caps =>
  exact ends_throwIf (fun _ => trivial) fun hbad => absurd (hfits caps (hroomy caps rfl)) (by simp [hbad])

section Feeding

variable {width N : Nat} (ctx : FeedContext) (feed : Feed)

/-- No channel holds back more than its longest stop string. -/
def StopsFit (policy : StopPolicy) (state : DecoderState) : Prop :=
  ∀ channel, (state.stopPending channel).length ≤ stopBytes policy channel

/-- A match found while this token is fed, with at most `N` bytes of output. -/
def BestFits (N : Nat) (ctx : FeedContext) (best : Option StopMatch) : Prop :=
  ∀ found ∈ best, found.output.size ≤ N ∧ found.committedTokens = ctx.committedTokens

/-- What a call that feeds a channel may do: of the bytes it had, and `gain` more, each is published or held. -/
structure Fed (N gain : Nat) (ctx : FeedContext) (feed after : Feed) : Prop where
  bytes : after.emitted.size + heldBytes after.state ≤ feed.emitted.size + heldBytes feed.state + gain
  best : BestFits N ctx after.best
  stops : StopsFit ctx.policy after.state
  utf8 : after.state.utf8Pending = feed.state.utf8Pending
  marker : after.state.thinkMarkerPending = feed.state.thinkMarkerPending

variable {ctx} in
theorem considerStop_spec {combined : List UInt8} {start : Nat}
    {emitted : PublishedOutput} (hN : emitted.size + combined.length ≤ N) {best : Option StopMatch}
    (hbest : BestFits N ctx best) (declared : StopString × Nat) :
    ends (considerStop channel combined start emitted ctx.committedTokens best declared)
      (BestFits N ctx) (fun e => ¬ CapacityError e) := by
  unfold considerStop
  refine ends_ite (fun _ => hbest) fun _ => ?_
  split
  · exact hbest
  next before rest hcut =>
  have hlen := congrArg List.length (cut_eq hcut)
  simp only [length_append] at hlen
  refine ends_ite (fun _ => hbest) fun _ => ?_
  refine ends_bind (append_size _ _ _) fun candidate _ hcandidate => ?_
  refine ends_bind (Q := fun o : PublishedOutput => o.size ≤ N) ?_ fun candidate' _ hsize => ?_
  · refine ends_ite (fun _ => ?_) fun _ => ?_
    · exact ends_imp (append_size _ _ _) fun _ _ h => by omega
    · change candidate.size ≤ N
      omega
  intro found hfound
  cases hfound
  exact ⟨hsize, rfl⟩

variable {ctx feed} in
theorem StopsFit.update (h : StopsFit ctx.policy feed.state) (htext : text.length ≤ stopBytes ctx.policy channel)
    (hafter : after.stopPending = update feed.state.stopPending channel text) :
    StopsFit ctx.policy after := by
  intro c
  rw [hafter]
  by_cases hc : c = channel
  · rw [hc, update_self]
    exact htext
  rw [update_of_ne hc]
  exact h c

theorem feedChannel_spec (hroomy : ∀ caps ∈ ctx.storage, Roomy width ctx.policy caps)
    (hstops : StopsFit ctx.policy feed.state)
    (htext : text.length ≤ width + 11)
    (hN : feed.emitted.size + heldBytes feed.state + text.length ≤ N) (hbest : BestFits N ctx feed.best) :
    ends (feedChannel ctx channel text feed) (Fed N text.length ctx feed) (fun e => ¬ CapacityError e) := by
  refine ends_ite (fun _ => ⟨by omega, hbest, hstops, rfl, rfl⟩) fun _ => ?_
  refine ends_bind (ends_requireRoomy hroomy fun caps h => ?_) fun _ _ _ => ?_
  · have := h.channelScratch channel
    have := hstops channel
    simp only [decide_eq_true_eq]
    omega
  generalize hcomb : feed.state.stopPending channel ++ text = combined
  have hlen : combined.length = (feed.state.stopPending channel).length + text.length := by
    rw [← hcomb, length_append]
  have hheld : (feed.state.stopPending channel).length ≤ heldBytes feed.state := by
    cases channel <;> simp [heldBytes]
  have hcombined : feed.emitted.size + combined.length ≤ N := by omega
  refine ends_bind (Q := BestFits N ctx) ?_ fun best _ hbest' => ?_
  · refine ends_ite (fun _ => ?_) fun _ => hbest
    exact ends_foldlM (I := fun _ => BestFits N ctx)
      (fun declared _ best h => considerStop_spec hcombined h declared) hbest
  have hhold := stopHoldSize_le combined channel ctx.policy
  refine ends_bind (ends_requireRoomy hroomy fun caps h => ?_) fun _ _ _ => ?_
  · simpa using hhold.2.trans (h.stopPending channel)
  refine ends_bind (append_size _ _ _) fun emitted _ hsize => ?_
  have hdrop : (combined.drop (combined.length - stopHoldSize combined channel ctx.policy)).length =
      stopHoldSize combined channel ctx.policy := by
    rw [length_drop]
    omega
  have hbytes : ∀ after, after.stopPending = update feed.state.stopPending channel
      (combined.drop (combined.length - stopHoldSize combined channel ctx.policy)) →
      emitted.size + heldBytes after ≤ feed.emitted.size + heldBytes feed.state + text.length := by
    intro after hafter
    have := heldBytes_update hafter
    rw [length_take] at hsize
    omega
  exact ⟨hbytes _ rfl, hbest', hstops.update (hdrop.trans_le hhold.2) rfl, rfl, rfl⟩

theorem closeChannel_spec (hstops : StopsFit ctx.policy feed.state) (channel : OutputChannel)
    (hbest : BestFits N ctx feed.best) :
    ends (closeChannel channel feed) (Fed N 0 ctx feed) (fun e => ¬ CapacityError e) := by
  refine ends_bind (append_size _ _ _) fun emitted _ hsize => ?_
  have hbytes : ∀ after, after.stopPending = update feed.state.stopPending channel [] →
      emitted.size + heldBytes after ≤ feed.emitted.size + heldBytes feed.state + 0 := by
    intro after hafter
    have := heldBytes_update hafter
    simp only [length_nil] at this
    omega
  exact ⟨hbytes _ rfl, hbest, hstops.update (Nat.zero_le _) rfl, rfl, rfl⟩

theorem feedContent_spec (hroomy : ∀ caps ∈ ctx.storage, Roomy width ctx.policy caps)
    (hstops : StopsFit ctx.policy feed.state) (htext : text.length ≤ width + 11)
    (hN : feed.emitted.size + heldBytes feed.state + text.length ≤ N) (hbest : BestFits N ctx feed.best) :
    ends (feedContent ctx text feed) (Fed N text.length ctx feed) (fun e => ¬ CapacityError e) := by
  have hdrop : (text.dropWhile isSpace).length ≤ text.length := (dropWhile_sublist _).length_le
  refine ends_ite (fun _ => ?_) fun _ => feedChannel_spec ctx feed hroomy hstops htext hN hbest
  exact ends_imp (feedChannel_spec ctx { feed with state := { feed.state with
      stripContentLeading := (text.dropWhile isSpace).isEmpty } } hroomy hstops
      (hdrop.trans htext) (le_trans (Nat.add_le_add_left hdrop _) hN) hbest)
    fun after _ h => ⟨h.bytes.trans (Nat.add_le_add_left hdrop _), h.best, h.stops, h.utf8, h.marker⟩

/-- The same for the text of the decoder, whose marker buffer it passes through: `gain` counts
    what that buffer held, too. -/
structure FedText (N gain : Nat) (ctx : FeedContext) (feed after : Feed) : Prop where
  bytes : after.emitted.size + heldBytes after.state + after.state.thinkMarkerPending.length ≤
    feed.emitted.size + heldBytes feed.state + gain
  best : BestFits N ctx after.best
  stops : StopsFit ctx.policy after.state
  utf8 : after.state.utf8Pending = feed.state.utf8Pending
  marker : after.state.thinkMarkerPending.length ≤ 8

section
variable (hroomy : ∀ caps ∈ ctx.storage, Roomy width ctx.policy caps) (hstops : StopsFit ctx.policy feed.state)
include hroomy hstops

theorem closeThinking_spec {reasoning content : List UInt8} (htext : reasoning.length + content.length ≤ width + 11)
    (hN : feed.emitted.size + heldBytes feed.state + (reasoning.length + content.length) ≤ N)
    (hbest : BestFits N ctx feed.best) :
    ends (closeThinking ctx reasoning content feed)
      (FedText N (reasoning.length + content.length) ctx feed) (fun e => ¬ CapacityError e) := by
  refine ends_bind (feedChannel_spec ctx feed hroomy hstops (by omega) (by omega) hbest) fun f _ hf => ?_
  refine ends_bind (closeChannel_spec ctx f hf.stops _ hf.best) fun g _ hg => ?_
  have hbytes := hf.bytes
  have hbytes' := hg.bytes
  refine ends_bind (feedContent_spec ctx { g with state := { g.state with
    inReasoning := false, stripContentLeading := true } } hroomy hg.stops (by omega)
    (by change g.emitted.size + heldBytes g.state + content.length ≤ N; omega) hg.best) fun c _ hc => ?_
  have hbytes'' : c.emitted.size + heldBytes c.state ≤ g.emitted.size + heldBytes g.state + content.length :=
    hc.bytes
  refine ⟨?_, hc.best, hc.stops, hc.utf8.trans (hg.utf8.trans hf.utf8), by simp⟩
  change c.emitted.size + heldBytes c.state + 0 ≤ _
  omega

theorem holdThinking_spec {pending : List UInt8} (htext : pending.length ≤ width + 11)
    (hN : feed.emitted.size + heldBytes feed.state + pending.length ≤ N) (hbest : BestFits N ctx feed.best) :
    ends (holdThinking ctx pending feed) (FedText N pending.length ctx feed) (fun e => ¬ CapacityError e) := by
  have hhold := longestSuffixPrefix_le pending kThinkClose true
  have hmarker : kThinkClose.length = 8 := rfl
  refine ends_bind (feedChannel_spec ctx feed (N := N) hroomy hstops (by rw [length_take]; omega)
    (by rw [length_take]; omega) hbest) fun f _ hf => ?_
  have hbytes := hf.bytes
  rw [length_take] at hbytes
  refine ⟨?_, hf.best, hf.stops, hf.utf8, ?_⟩
  · change f.emitted.size + heldBytes f.state + (pending.drop _).length ≤ _
    rw [length_drop]
    omega
  · simp only [length_drop]
    omega

theorem feedDecodedText_spec (hmarker : feed.state.thinkMarkerPending.length ≤ 8)
    (htext : feed.state.thinkMarkerPending.length + text.length ≤ width + 11)
    (hN : feed.emitted.size + heldBytes feed.state +
      (feed.state.thinkMarkerPending.length + text.length) ≤ N) (hbest : BestFits N ctx feed.best) :
    ends (feedDecodedText ctx text feed) (FedText N (feed.state.thinkMarkerPending.length + text.length) ctx feed)
      (fun e => ¬ CapacityError e) := by
  refine ends_ite (fun _ => ?_) fun _ => ?_
  · refine ends_imp (feedContent_spec ctx feed hroomy hstops (by omega) (by omega) hbest) fun after _ h => ?_
    have := h.bytes
    exact ⟨by rw [h.marker]; omega, h.best, h.stops, h.utf8, by rw [h.marker]; exact hmarker⟩
  refine ends_bind (ends_requireRoomy hroomy fun caps h => ?_) fun _ _ _ => ?_
  · have := h.thinkMarkerPending
    simp only [decide_eq_true_eq]
    omega
  rw [← length_append] at hN ⊢
  have hlen : (feed.state.thinkMarkerPending ++ text).length ≤ width + 11 := by
    rw [length_append]
    omega
  unfold feedThinking
  split
  · next reasoning content hcut =>
    have hparts := congrArg List.length (cut_eq hcut)
    simp only [length_append] at hparts hN hlen
    refine ends_imp (closeThinking_spec ctx feed hroomy hstops (by omega) (by omega) hbest) fun after _ h => ?_
    have := h.bytes
    exact ⟨by rw [length_append]; omega, h.best, h.stops, h.utf8, h.marker⟩
  · exact holdThinking_spec ctx feed hroomy hstops hlen hN hbest

end

/-- Between two tokens every string has room for the next one. -/
structure Fits (policy : StopPolicy) (state : DecoderState) : Prop where
  utf8 : state.utf8Pending.length ≤ 3
  marker : state.thinkMarkerPending.length ≤ 8
  stops : StopsFit policy state

/-- A token whose text fits the reserved strings and is at most `gain` bytes more than what waited. -/
structure Takes (width gain : Nat) (state : DecoderState) (bytes : List UInt8) : Prop where
  room : state.thinkMarkerPending.length + replacedSize (state.utf8Pending ++ bytes) ≤ width + 11
  gained : replacedSize (state.utf8Pending ++ bytes) ≤ state.utf8Pending.length + gain

/-- What feeding such a token leaves. -/
structure FedToken (N gain : Nat) (bytes : List UInt8) (ctx : FeedContext) (feed after : Feed) : Prop where
  gained : after.emitted.size + pendingBytes after.state ≤
    feed.emitted.size + pendingBytes feed.state + gain
  best : BestFits N ctx after.best
  fits : Fits ctx.policy after.state
  utf8 : after.state.utf8Pending = (feedUtf8 feed.state.utf8Pending bytes).1

theorem feedTokenBytes_spec {gain : Nat} (hroomy : ∀ caps ∈ ctx.storage, Roomy width ctx.policy caps)
    (hfits : Fits ctx.policy feed.state) (hbytes : bytes.length ≤ width) (htakes : Takes width gain feed.state bytes)
    (hN : feed.emitted.size + pendingBytes feed.state + gain ≤ N) (hbest : BestFits N ctx feed.best) :
    ends (feedTokenBytes ctx bytes feed) (FedToken N gain bytes ctx feed) (fun e => ¬ CapacityError e) := by
  have hutf8 := hfits.utf8
  have hrest := length_rest_le (feed.state.utf8Pending ++ bytes)
  have hroom := htakes.room
  have hgained := htakes.gained
  rw [replacedSize_eq] at hroom hgained
  unfold pendingBytes at hN
  refine ends_bind (ends_requireRoomy hroomy fun caps h => ?_) fun _ _ _ => ?_
  · have := h.utf8Pending
    simp only [decide_eq_true_eq]
    omega
  refine ends_bind (ends_requireRoomy hroomy fun caps h => ?_) fun _ _ _ => ?_
  · have := h.decodedScratch
    simp only [decide_eq_true_eq, length_append]
    omega
  refine ends_ite (fun hnone => ?_) fun _ => ?_
  · refine ⟨?_, hbest, ⟨hrest, hfits.marker, hfits.stops⟩, rfl⟩
    rw [hnone, drop_zero] at hgained
    simp only [pendingBytes, Feed.withUtf8, hnone, drop_zero]
    change feed.emitted.size + (_ + _ + heldBytes feed.state) ≤ _
    omega
  have hfed : feed.emitted.size + heldBytes feed.state + (feed.state.thinkMarkerPending.length +
      (decodeUtf8Prefix (feed.state.utf8Pending ++ bytes)).2.length) ≤ N := by omega
  have hlen : feed.state.thinkMarkerPending.length +
      (decodeUtf8Prefix (feed.state.utf8Pending ++ bytes)).2.length ≤ width + 11 := by omega
  refine ends_imp (feedDecodedText_spec ctx (feed.withUtf8 ((feed.state.utf8Pending ++ bytes).drop
    (decodeUtf8Prefix _).1)) hroomy hfits.stops hfits.marker
    hlen hfed hbest)
    fun after _ h => ⟨?_, h.best, ⟨?_, h.marker, h.stops⟩, h.utf8⟩
  · have hsum : after.emitted.size + heldBytes after.state + after.state.thinkMarkerPending.length ≤
        feed.emitted.size + heldBytes feed.state + (feed.state.thinkMarkerPending.length +
          (decodeUtf8Prefix (feed.state.utf8Pending ++ bytes)).2.length) := h.bytes
    have hwait := congrArg List.length h.utf8
    simp only [Feed.withUtf8] at hwait
    unfold pendingBytes
    omega
  rw [h.utf8]
  exact hrest

/-- The flush at the end turns an incomplete sequence of at least one byte into three. -/
theorem terminalize_spec {storage : Option PendingStorage} {policy : StopPolicy} {count : Nat}
    {emitted : PublishedOutput} (hroomy : ∀ caps ∈ storage, Roomy width policy caps)
    (hfits : Fits policy state) :
    ends (terminalize storage policy count state emitted)
      (fun result => result.2.size ≤ emitted.size + pendingBytes state + 3 ∧ result.1.terminal = true)
      (fun e => ¬ CapacityError e) := by
  have hmarker := hfits.marker
  have hreplacement : replacement.length = 3 := rfl
  generalize hN : emitted.size + pendingBytes state + 3 = N
  unfold pendingBytes at hN
  refine ends_bind (Q := fun f => FedText N (state.thinkMarkerPending.length + 3)
    ⟨storage, policy, count, false⟩ ⟨state, emitted, none⟩ { f with state := { f.state with utf8Pending := state.utf8Pending } }) ?_ fun f _ hf => ?_
  · refine ends_ite (fun _ => ?_) fun _ => ?_
    · refine ⟨?_, by simp [BestFits], hfits.stops, rfl, hmarker⟩
      change emitted.size + heldBytes state + state.thinkMarkerPending.length ≤
        emitted.size + heldBytes state + (state.thinkMarkerPending.length + 3)
      omega
    · have hroom : emitted.size + heldBytes state + (state.thinkMarkerPending.length +
          replacement.length) ≤ N := by omega
      have hspec := feedDecodedText_spec ⟨storage, policy, count, false⟩
        (Feed.withUtf8 ⟨state, emitted, none⟩ []) hroomy hfits.stops hmarker
        (by change state.thinkMarkerPending.length + _ ≤ _; omega) hroom
        (by simp [BestFits, Feed.withUtf8])
      exact ends_imp hspec fun after _ h => ⟨h.bytes, h.best, h.stops, rfl, h.marker⟩
  have hbytes : f.emitted.size + heldBytes f.state + f.state.thinkMarkerPending.length ≤
    emitted.size + heldBytes state + (state.thinkMarkerPending.length + 3) := hf.bytes
  have hmark : f.state.thinkMarkerPending.length ≤ 8 := hf.marker
  refine ends_bind (Q := fun g => g.emitted.size ≤ N) ?_ fun g _ hg => ⟨hg, rfl⟩
  refine ends_ite (fun _ => ?_) fun _ => ?_
  · refine ends_bind (feedChannel_spec ⟨storage, policy, count, false⟩ f hroomy hf.stops
      (by omega) (by omega) hf.best) fun g _ hg => ?_
    have := hg.bytes
    refine ends_imp (closeChannel_spec ⟨storage, policy, count, false⟩
      { g with state := { g.state with thinkMarkerPending := [] } } hg.stops _ hg.best)
      fun c _ hc => ?_
    have hc' : c.emitted.size + heldBytes c.state ≤ g.emitted.size + heldBytes g.state + 0 := hc.bytes
    omega
  refine ends_imp (closeChannel_spec ⟨storage, policy, count, false⟩ f hf.stops .content hf.best) fun c _ hc => ?_
  have hc' : c.emitted.size + heldBytes c.state ≤ f.emitted.size + heldBytes f.state + 0 := hc.bytes
  omega

end Feeding

/-! ## Rounds -/

theorem decodedToken_length {tokenizer : Tokenizer} {id : TokenId} {token : DecodedToken}
    (h : tokenizer.decodedToken id = .ok token) :
    token.bytes.length ≤ tokenizer.maximumDecodedTokenBytes := by
  have hmax : ∀ tokens : List (Option DecodedToken), some token ∈ tokens → token.bytes.length ≤
      tokens.foldr (fun token width => max (token.elim 0 fun t => t.bytes.length) width) 0 := by
    intro tokens
    induction tokens with
    | nil => intro hmem; cases hmem
    | cons head tokens ih =>
      intro hmem
      rcases mem_cons.mp hmem with rfl | hmem
      · exact le_max_left _ _
      · exact (ih hmem).trans (le_max_right _ _)
  unfold Tokenizer.decodedToken at h
  split at h
  · cases h
  split at h
  · cases h
  next found hget =>
  cases h
  refine hmax _ (mem_of_getElem? (i := id.toNat) ?_)
  cases hi : tokenizer.tokens[id.toNat]? with
  | none => simp [hi] at hget
  | some entry => simpa [hi] using hget

namespace OutputSession

variable {session : OutputSession}

/-- The bytes a token is presented with; a stop token's are looked at even when it is hidden. -/
def presentedOf (session : OutputSession) (token : TokenId) (stopToken : Bool) : List UInt8 :=
  match session.tokenizer.decodedToken token with
  | .ok decoded => presentedBytes session decoded stopToken
  | .error _ => []

/-- What the token comes to fits the string reserved for the marker, behind what that one holds. -/
def Reserved (session : OutputSession) (state : DecoderState) (bytes : List UInt8) : Prop :=
  state.thinkMarkerPending.length + replacedSize (state.utf8Pending ++ bytes) ≤
    session.requestedStorage.thinkMarkerPending

/-- It comes to no more than the longest token adds to what waits. -/
def Spared (session : OutputSession) (state : DecoderState) (bytes : List UInt8) : Prop :=
  replacedSize (state.utf8Pending ++ bytes) ≤
    state.utf8Pending.length + session.tokenizer.maximumDecodedTokenBytes

instance (state : DecoderState) (bytes : List UInt8) : Decidable (Reserved session state bytes) :=
  inferInstanceAs (Decidable (_ ≤ _))

instance (state : DecoderState) (bytes : List UInt8) : Decidable (Spared session state bytes) :=
  inferInstanceAs (Decidable (_ ≤ _))

section
variable (C : OutputSession → DecoderState → List UInt8 → Prop) (session : OutputSession)

/-- Each token of a round meets `C` when its turn comes, as far as the round goes. -/
def TokensMeet (round : Round) (count : Nat) : List TokenId → Prop
  | [] => True
  | token :: tokens =>
    C session round.state (presentedOf session token (decide (token ∈ session.policy.tokenIds))) ∧
      match previewToken session round (count + 1) token with
      | .ok (.next next) => TokensMeet next (count + 1) tokens
      | _ => True

def ControlMeets (round : Round) (count : Nat) : List TokenId → Prop
  | [] => True
  | token :: tokens =>
    C session round.state (presentedOf session token false) ∧
      match previewControlToken session round (count + 1) token with
      | .ok next => ControlMeets next (count + 1) tokens
      | .error _ => True

/-- Every token that the call decodes meets `C`. -/
def CallMeets : OutputCall → Prop
  | .model tokens _ _ => session.captureOnly = true ∨ TokensMeet C session session.startRound 0 tokens
  | .control tokens _ => ControlMeets C session session.startRound 0 tokens
  | .terminal _ => True

end

section
variable {C : OutputSession → DecoderState → List UInt8 → Prop}
  [∀ session state bytes, Decidable (C session state bytes)]

instance TokensMeet.decidable (session : OutputSession) : ∀ round count tokens,
    Decidable (TokensMeet C session round count tokens)
  | _, _, [] => inferInstanceAs (Decidable True)
  | round, count, token :: tokens =>
    have : Decidable (match previewToken session round (count + 1) token with
        | .ok (.next next) => TokensMeet C session next (count + 1) tokens
        | _ => True) :=
      match previewToken session round (count + 1) token with
      | .ok (.next next) => TokensMeet.decidable session next (count + 1) tokens
      | .ok (.finish ..) | .error _ => inferInstanceAs (Decidable True)
    inferInstanceAs (Decidable (_ ∧ _))

instance ControlMeets.decidable (session : OutputSession) : ∀ round count tokens,
    Decidable (ControlMeets C session round count tokens)
  | _, _, [] => inferInstanceAs (Decidable True)
  | round, count, token :: tokens =>
    have : Decidable (match previewControlToken session round (count + 1) token with
        | .ok next => ControlMeets C session next (count + 1) tokens
        | .error _ => True) :=
      match previewControlToken session round (count + 1) token with
      | .ok next => ControlMeets.decidable session next (count + 1) tokens
      | .error _ => inferInstanceAs (Decidable True)
    inferInstanceAs (Decidable (_ ∧ _))

instance CallMeets.decidable (session : OutputSession) : ∀ call, Decidable (CallMeets C session call)
  | .model .. => inferInstanceAs (Decidable (_ ∨ _))
  | .control .. => ControlMeets.decidable session _ _ _
  | .terminal _ => inferInstanceAs (Decidable True)

end

/-- The session's storage holds what `preallocate_pending_storage` asks for. -/
def Prepared (session : OutputSession) : Prop :=
  ∀ caps ∈ session.storage, Roomy session.tokenizer.maximumDecodedTokenBytes session.policy caps

/-- Both trackers between two tokens. -/
def RoundFits (session : OutputSession) (round : Round) : Prop :=
  Fits session.policy round.state ∧ round.semantic.closePending.length ≤ 8

/-- After `count` tokens, of at most `gain` bytes of text each, of a round that began with `start`
    bytes: each byte is published or held back, and the flush at the end may add three. -/
structure Accounted (gain : Nat) (session : OutputSession) (start count : Nat) (round : Round) : Prop where
  live : round.state.terminal = true ∨ RoundFits session round ∧ round.output.size +
    pendingBytes round.state ≤ start + gain * count
  size : round.output.size ≤ start + gain * count + 3

theorem decodedToken_fits (tokenizer : Tokenizer) (token : TokenId) :
    ends (tokenizer.decodedToken token) (fun _ => True) (fun e => ¬ CapacityError e) := by
  refine ends_ite (fun _ => ?_) fun _ => ?_
  · simp [CapacityError]
  split
  · simp [CapacityError]
  · trivial

theorem presentedBytes_length (token : DecodedToken) (stopToken : Bool) :
    (presentedBytes session token stopToken).length ≤ token.bytes.length := by
  unfold presentedBytes
  split <;> simp

section
variable (hprepared : Prepared session)
include hprepared

theorem feedSemanticThinking_fits (semantic : SemanticThinkingState) (hclose : semantic.closePending.length ≤ 8)
    (hbytes : bytes.length ≤ session.tokenizer.maximumDecodedTokenBytes) :
    ends (feedSemanticThinking session.storage semantic bytes)
      (fun after => after.closePending.length ≤ 8) (fun e => ¬ CapacityError e) := by
  refine ends_ite (fun _ => hclose) fun _ => ?_
  refine ends_bind (ends_requireRoomy hprepared fun caps h => ?_) fun _ _ _ => ?_
  · have := h.closePending
    simp only [decide_eq_true_eq]
    omega
  refine ends_ite (fun _ => Nat.zero_le _) fun _ => ?_
  have hhold := longestSuffixPrefix_le (semantic.closePending ++ bytes) kThinkClose true
  have hmarker : kThinkClose.length = 8 := rfl
  simp only [ends_ok, length_drop]
  omega

theorem previewThinking_fits {semantic : SemanticThinkingState} (hclose : semantic.closePending.length ≤ 8)
    (hbytes : bytes.length ≤ session.tokenizer.maximumDecodedTokenBytes) :
    ends (previewThinking session semantic bytes)
      (fun after => after.closePending.length ≤ 8) (fun e => ¬ CapacityError e) := by
  refine ends_ite (fun _ => hclose) fun _ => ?_
  refine ends_bind (ends_throwIf (Q := fun _ => True) (fun _ => trivial) fun _ => by decide) fun _ _ _ => ?_
  exact feedSemanticThinking_fits hprepared
    { semantic with modelThinkingTokens := semantic.modelThinkingTokens + 1 } hclose hbytes

theorem copyDecoderState_fits (hfits : Fits session.policy state) :
    ends (copyDecoderState session.storage state) (fun copy => copy = state) (fun e => ¬ CapacityError e) := by
  refine ends_bind (ends_requireRoomy hprepared fun caps h => ?_) fun _ _ _ => rfl
  have := hfits.utf8
  have := h.utf8Pending
  have := hfits.marker
  have := h.thinkMarkerPending
  simp only [Bool.and_eq_true, decide_eq_true_eq]
  exact ⟨⟨⟨by omega, by omega⟩, (hfits.stops _).trans (h.stopPending _)⟩, (hfits.stops _).trans (h.stopPending _)⟩

section
variable {gain : Nat} {C : OutputSession → DecoderState → List UInt8 → Prop}
  (hC : ∀ state bytes, Fits session.policy state → C session state bytes →
    Takes session.tokenizer.maximumDecodedTokenBytes gain state bytes)
include hC

/-- The token and its count: a match found in a token is at this token. -/
theorem previewToken_fits {round : Round} (hfits : RoundFits session round)
    (count : Nat) {token : TokenId} (hmeets : session.captureOnly = true ∨ C session round.state
      (presentedOf session token (decide (token ∈ session.policy.tokenIds)))) :
    ends (previewToken session round count token)
      (fun outcome => match outcome with
        | .next after => RoundFits session after ∧ after.output.size + pendingBytes after.state ≤
            round.output.size + pendingBytes round.state + gain
        | .finish after count' _ => count' = count ∧ after.state.terminal = true ∧ after.output.size ≤
            round.output.size + pendingBytes round.state + gain + 3)
      (fun e => ¬ CapacityError e) := by
  refine ends_bind (decodedToken_fits _ _) fun decoded hdecoded _ => ?_
  refine ends_ite (fun _ => ⟨hfits, Nat.le_add_right _ _⟩) fun hcapture => ?_
  have hwidth := decodedToken_length hdecoded
  refine ends_bind (previewThinking_fits hprepared hfits.2 hwidth) fun semantic _ hclose => ?_
  refine ends_bind (Q := fun copy => copy = countReasoning round.state) ?_ fun beforeStop _ hbefore => ?_
  · exact ends_ite (fun _ => copyDecoderState_fits hprepared ⟨hfits.1.utf8, hfits.1.marker, hfits.1.stops⟩)
      fun _ => rfl
  have hpresented : presentedOf session token (decide (token ∈ session.policy.tokenIds)) =
      presentedBytes session decoded (decide (token ∈ session.policy.tokenIds)) := by
    rw [presentedOf, hdecoded]
  have htakes := hC _ _ hfits.1 (hmeets.resolve_left hcapture)
  rw [hpresented] at htakes
  generalize hbytes : presentedBytes session decoded (decide (token ∈ session.policy.tokenIds)) = bytes at htakes
  have hlen : bytes.length ≤ session.tokenizer.maximumDecodedTokenBytes := by
    rw [← hbytes]
    exact (presentedBytes_length _ _).trans hwidth
  generalize hstart : round.output.size + pendingBytes round.state = start
  have hstart' : round.output.size + pendingBytes (countReasoning round.state) = start := hstart
  refine ends_bind (feedTokenBytes_spec ⟨session.storage, session.policy, count, true⟩
    ⟨countReasoning round.state, round.output, none⟩ hprepared
    ⟨hfits.1.utf8, hfits.1.marker, hfits.1.stops⟩ hlen ⟨htakes.room, htakes.gained⟩
    (N := start + gain) (by simp only; omega)
    (by simp [BestFits])) fun feed _ hfeed => ?_
  have hgained := hfeed.gained
  simp only at hgained
  split
  · next found hfound =>
    obtain ⟨hsize, hcount⟩ := hfeed.best found hfound
    exact ⟨hcount, rfl, by simp only; omega⟩
  refine ends_ite (fun _ => ?_) fun _ => ⟨⟨hfeed.fits, hclose⟩, by simp only; omega⟩
  generalize (decide (token ∈ session.policy.tokenIds) && !session.policy.publishStopToken) = hidden
  subst hbefore
  cases hidden with
  | false =>
    refine ends_bind (terminalize_spec hprepared hfeed.fits) fun result _ hresult => ?_
    have hsize := hresult.1
    simp only [Bool.false_eq_true, if_false] at hsize
    exact ⟨rfl, hresult.2, by simp only; omega⟩
  | true =>
    refine ends_bind (terminalize_spec hprepared ⟨hfits.1.utf8, hfits.1.marker, hfits.1.stops⟩)
      fun result _ hresult => ?_
    have hsize := hresult.1
    simp only [if_true] at hsize
    exact ⟨rfl, hresult.2, by simp only; omega⟩

section
variable (tokens : List TokenId) (round : Round) (count : Nat) (hfits : RoundFits session round)
include tokens round count hfits

theorem previewTokens_fits {start : Nat} (hsum : round.output.size + pendingBytes round.state ≤ start + gain * count)
    (hmeets : session.captureOnly = true ∨ TokensMeet C session round count tokens) :
    ends (previewTokens session round count tokens)
      (fun outcome => match outcome with
        | .next after => RoundFits session after ∧ after.output.size + pendingBytes after.state ≤
            start + gain * (count + tokens.length)
        | .finish after count' _ => Accounted gain session start count' after)
      (fun e => ¬ CapacityError e) := by
  induction tokens generalizing round count with
  | nil => exact ⟨hfits, hsum⟩
  | cons token tokens ih =>
    refine ends_bind (previewToken_fits hprepared hC hfits _ (hmeets.imp_right fun h => h.1))
      fun outcome hout hnext => ?_
    cases outcome with
    | finish after count' reason =>
      obtain ⟨rfl, hterminal, hsize⟩ := hnext
      exact ⟨.inl hterminal, by rw [Nat.mul_succ]; omega⟩
    | next after =>
      obtain ⟨hfits', hsum'⟩ := hnext
      have hlen : count + (token :: tokens).length = count + 1 + tokens.length := by
        simp only [length_cons]
        omega
      rw [hlen]
      have hmeets' : session.captureOnly = true ∨ TokensMeet C session after (count + 1) tokens :=
        hmeets.imp_right fun h => by simpa only [hout] using h.2
      exact ih after _ hfits' (by rw [Nat.mul_succ]; omega) hmeets'

theorem previewControlTokens_fits {start : Nat}
    (hsum : round.output.size + pendingBytes round.state ≤ start + gain * count)
    (hmeets : ControlMeets C session round count tokens) :
    ends (previewControlTokens session round count tokens)
      (fun after => RoundFits session after ∧ after.output.size + pendingBytes after.state ≤
        start + gain * (count + tokens.length))
      (fun e => ¬ CapacityError e) := by
  induction tokens generalizing round count with
  | nil => exact ⟨hfits, hsum⟩
  | cons token tokens ih =>
    refine ends_bind (Q := fun next => RoundFits session next ∧
      next.output.size + pendingBytes next.state ≤
        start + gain * (count + 1)) ?_ fun next hout hnext => ?_
    · refine ends_bind (decodedToken_fits _ _) fun decoded hdecoded _ => ?_
      have hwidth := decodedToken_length hdecoded
      refine ends_bind (feedSemanticThinking_fits hprepared _ hfits.2 hwidth) fun semantic _ hclose => ?_
      have hpresented : presentedOf session token false = presentedBytes session decoded false := by
        rw [presentedOf, hdecoded]
      have hlen : (presentedBytes session decoded false).length ≤
          session.tokenizer.maximumDecodedTokenBytes := (presentedBytes_length decoded false).trans hwidth
      have htakes := hC _ _ hfits.1 hmeets.1
      rw [hpresented] at htakes
      have hstart : round.output.size + pendingBytes (countReasoning round.state) ≤
        start + gain * count := hsum
      refine ends_bind (feedTokenBytes_spec ⟨session.storage, session.policy, count + 1, false⟩
        ⟨countReasoning round.state, round.output, none⟩ hprepared
        ⟨hfits.1.utf8, hfits.1.marker, hfits.1.stops⟩ hlen ⟨htakes.room, htakes.gained⟩ le_rfl (by simp [BestFits]))
        fun feed _ hfeed => ?_
      have hgained := hfeed.gained
      simp only at hgained
      exact ⟨⟨hfeed.fits, hclose⟩, by rw [Nat.mul_succ]; simp only; omega⟩
    have hlen : count + (token :: tokens).length = count + 1 + tokens.length := by
      simp only [length_cons]
      omega
    rw [hlen]
    exact ih next _ hnext.1 hnext.2 (by simpa only [hout] using hmeets.2)

end

end

end

/-! ## Runs -/

/-- Holds at every point of a run whose tokens come to at most `gain` bytes each: these are published or held back. -/
structure Stored (gain : Tokenizer → Nat) (p : OutputPoint) : Prop where
  prepared : Prepared p.session
  live : p.session.state.terminal = true ∨
    (Fits p.session.policy p.session.state ∧ p.session.semantic.closePending.length ≤ 8) ∧
    ∀ channel, (p.published channel).length + pendingBytes p.session.state ≤
      gain p.session.tokenizer * p.accepted
  published : ∀ channel, (p.published channel).length ≤ gain p.session.tokenizer * p.accepted + 3

variable {p q : OutputPoint} {gain : Tokenizer → Nat}

section
variable {C : OutputSession → DecoderState → List UInt8 → Prop}
  (hC : ∀ session state bytes, Fits session.policy state → C session state bytes →
    Takes session.tokenizer.maximumDecodedTokenBytes (gain session.tokenizer) state bytes)
include hC

/-- A call at such a point throws no capacity error, and its preview keeps the accounts. -/
theorem Stored.perform (h : Stored gain p) {call : OutputCall} (hmeets : CallMeets C p.session call) :
    ends (call.perform p.session) (fun result => ∃ round count reason continuation,
      result = complete p.session round count reason continuation ∧
      Accounted (gain p.session.tokenizer) p.session (pendingBytes p.session.state) count round) (fun e => ¬ CapacityError e) := by
  have hcheck : ∀ {bad : Prop} [Decidable bad] {e : Exn}, ¬ CapacityError e →
      ends (throwIf bad e) (fun _ => ¬ bad) (fun e => ¬ CapacityError e) :=
    fun he => ends_throwIf id fun _ => he
  have hopen : ends p.session.requireOpen (fun _ => p.session.state.terminal = false)
      (fun e => ¬ CapacityError e) := by
    refine ends_bind (hcheck (by decide)) fun _ _ hterminal => ?_
    exact ends_imp (hcheck (by decide)) fun _ _ _ => by simpa using hterminal
  cases hterminal : p.session.state.terminal with
  | true =>
    -- nothing but the first check is reached
    have hthrow : ends p.session.requireOpen (fun _ => False) (fun e => ¬ CapacityError e) :=
      ends_imp hopen fun _ _ h => nomatch h.symm.trans hterminal
    cases call <;> exact ends_bind hthrow fun _ _ h => h.elim
  | false =>
  obtain ⟨⟨hfits, hclose⟩, -⟩ := h.live.resolve_left (by simp [hterminal])
  have hround : ends p.session.openRound (fun round => round = p.session.startRound)
      (fun e => ¬ CapacityError e) := by
    refine ends_bind (copyDecoderState_fits h.prepared hfits) fun state _ hstate => ?_
    refine ends_bind (Q := fun copy => copy = p.session.semantic) ?_ fun semantic _ hsemantic => ?_
    · refine ends_bind (ends_requireRoomy h.prepared fun caps hcaps => ?_) fun _ _ _ => rfl
      have := hcaps.closePending
      simp only [decide_eq_true_eq]
      omega
    rw [hstate, hsemantic]
    exact rfl
  have hfitsStart : RoundFits p.session p.session.startRound := ⟨hfits, hclose⟩
  have hsum : p.session.startRound.output.size + pendingBytes p.session.startRound.state ≤
      pendingBytes p.session.state + gain p.session.tokenizer * 0 := by
    simp [startRound, emptyOutput, PublishedOutput.size]
  cases call with
  | model tokens total limitReason =>
    refine ends_bind hopen fun _ _ _ => ?_
    refine ends_bind (hcheck (by decide)) fun _ _ _ => ?_
    refine ends_bind (hcheck (by decide)) fun _ _ _ => ?_
    refine ends_bind (hcheck (by decide)) fun _ _ _ => ?_
    refine ends_bind (hcheck (by decide)) fun _ _ _ => ?_
    refine ends_bind hround fun round _ hstart => ?_
    subst hstart
    refine ends_bind (previewTokens_fits h.prepared (hC _) tokens _ 0 hfitsStart hsum hmeets) fun outcome _ hout => ?_
    cases outcome with
    | finish round count reason => exact ⟨_, _, _, _, rfl, hout⟩
    | next round =>
      obtain ⟨hnext, hbytes⟩ := hout
      rw [Nat.zero_add] at hbytes
      have hlive : Accounted (gain p.session.tokenizer) p.session (pendingBytes p.session.state) tokens.length round :=
        ⟨.inr ⟨hnext, hbytes⟩, by omega⟩
      refine ends_ite (fun _ => ?_) fun _ => ends_ite (fun _ => ?_) fun _ => ⟨_, _, _, _, rfl, hlive⟩
      · refine ends_bind (terminalize_spec h.prepared hnext.1) fun result _ hresult => ?_
        exact ⟨_, _, _, _, rfl, .inl hresult.2, hresult.1.trans (Nat.add_le_add_right hbytes 3)⟩
      · exact ⟨_, _, _, _, rfl, .inr ⟨hnext, hbytes⟩, hlive.size⟩
  | control tokens total =>
    refine ends_bind hopen fun _ _ _ => ?_
    refine ends_bind (hcheck (by decide)) fun _ _ _ => ?_
    refine ends_bind (hcheck (by decide)) fun _ _ _ => ?_
    refine ends_bind hround fun round _ hstart => ?_
    subst hstart
    refine ends_bind (previewControlTokens_fits h.prepared (hC _) tokens _ 0 hfitsStart hsum hmeets) fun round _ hout => ?_
    obtain ⟨hnext, hbytes⟩ := hout
    rw [Nat.zero_add] at hbytes
    refine ends_bind (hcheck (by decide)) fun _ _ _ => ?_
    refine ends_bind (hcheck (by decide)) fun _ _ _ => ?_
    exact ⟨_, _, _, _, rfl, .inr ⟨hnext, hbytes⟩, (Nat.le_add_right _ _).trans (hbytes.trans (Nat.le_add_right _ 3))⟩
  | terminal reason =>
    refine ends_bind hopen fun _ _ _ => ?_
    refine ends_bind (hcheck (by decide)) fun _ _ _ => ?_
    refine ends_bind hround fun round _ hstart => ?_
    subst hstart
    refine ends_bind (terminalize_spec h.prepared hfitsStart.1) fun result _ hresult => ?_
    exact ⟨_, _, _, _, rfl, .inl hresult.2, hresult.1.trans (Nat.add_le_add_right hsum 3)⟩

theorem Stored.step (h : Stored gain p) (hstep : OutputStep (CallMeets C) p q) : Stored gain q := by
  cases hstep with
  | commit hmeets hperform hcommit =>
    obtain ⟨round, count, reason, continuation, hres, hacc⟩ := ends_val (h.perform hC hmeets) hperform
    obtain ⟨rfl, rfl, hstate, hsem, hsetup⟩ := complete_commit hres hcommit
    have hbefore : p.session.state.terminal = false := by
      cases hcall : p.session.state.terminal with
      | false => rfl
      | true => exact absurd hperform (perform_of_terminal hcall)
    obtain ⟨-, hbytes⟩ := h.live.resolve_left (by simp [hbefore])
    have hmul := Nat.mul_add (gain p.session.tokenizer) p.accepted count
    have htext := fun channel => textOn_length_le round.output channel
    refine ⟨?_, ?_, fun channel => ?_⟩
    · intro caps hcaps
      rw [OutputPoint.commit, hsetup.storage] at hcaps
      rw [OutputPoint.commit, hsetup.tokenizer, hsetup.policy]
      exact h.prepared caps hcaps
    · simp only [OutputPoint.commit, hstate, hsem, hsetup.tokenizer, hsetup.policy]
      refine hacc.live.imp_right fun ⟨hfits, hsum⟩ => ⟨hfits, fun channel => ?_⟩
      have := hbytes channel
      have := htext channel
      rw [length_append]
      omega
    · have := hbytes channel
      have := htext channel
      have := hacc.size
      simp only [OutputPoint.commit, hsetup.tokenizer, length_append]
      omega
  | discard hmeets hperform =>
    obtain ⟨round, count, reason, continuation, hres, -⟩ := ends_val (h.perform hC hmeets) hperform
    obtain ⟨hstate, hsem, hsetup⟩ := complete_discard hres
    refine ⟨?_, ?_, ?_⟩
    · intro caps hcaps
      simp only [hsetup.storage] at hcaps
      simp only [hsetup.tokenizer, hsetup.policy]
      exact h.prepared caps hcaps
    · simpa only [hstate, hsem, hsetup.tokenizer, hsetup.policy] using h.live
    · simpa only [hsetup.tokenizer] using h.published

theorem Stored.run (h : Stored gain p) (hrun : OutputRun (CallMeets C) p q) : Stored gain q := by
  induction hrun with
  | refl => exact h
  | tail _ hstep ih => exact ih.step hC hstep

end

theorem Reserved.takes {session : OutputSession} {state : DecoderState} {bytes : List UInt8}
    (h : Reserved session state bytes) : Takes session.tokenizer.maximumDecodedTokenBytes
      (session.tokenizer.maximumDecodedTokenBytes + 11) state bytes where
  room := h
  gained := by
    have hroom : _ + _ ≤ session.tokenizer.maximumDecodedTokenBytes + 11 := h
    omega

theorem Spared.takes {session : OutputSession} {state : DecoderState} {bytes : List UInt8}
    (h : Spared session state bytes) (hfits : Fits session.policy state) :
    Takes session.tokenizer.maximumDecodedTokenBytes session.tokenizer.maximumDecodedTokenBytes state bytes where
  room := by
    have := hfits.utf8
    have := hfits.marker
    unfold Spared at h
    omega
  gained := h

/-- A fresh session prepared with `preallocate_pending_storage`; `reserve` may give more than it is asked for. -/
structure Preallocated (p : OutputPoint) : Prop where
  fresh : p.Fresh
  storage : ∃ caps, p.session.storage = some caps ∧
    p.session.requestedStorage.decodedScratch ≤ caps.decodedScratch ∧
    p.session.requestedStorage.channelScratch ≤ caps.channelScratch ∧
    p.session.requestedStorage.utf8Pending ≤ caps.utf8Pending ∧
    p.session.requestedStorage.thinkMarkerPending ≤ caps.thinkMarkerPending ∧
    (∀ channel, p.session.requestedStorage.stopPending channel ≤ caps.stopPending channel) ∧
    p.session.requestedStorage.closePending ≤ caps.closePending

theorem Preallocated.stored (h : Preallocated p) : Stored gain p := by
  obtain ⟨tokenizer, callerStop, output, starts, budget, control, captureOnly, session, hmade, storage,
    limit, hsession⟩ := h.fresh.made
  obtain ⟨policy, -, hmake⟩ := bind_ok hmade
  obtain ⟨_, -, hfields⟩ := bind_ok hmake
  cases hfields
  obtain ⟨caps, hcaps, hdecoded, hchannel, hutf8, hmarker, hstop, hclose⟩ := h.storage
  refine ⟨?_, .inr ⟨⟨?_, ?_⟩, fun channel => ?_⟩, fun channel => ?_⟩
  · intro caps' hcaps'
    obtain rfl : caps = caps' := Option.mem_unique hcaps hcaps'
    have hstops : ∀ channel, stopBytes p.session.policy channel + (p.session.tokenizer.maximumDecodedTokenBytes +
        11) ≤ p.session.requestedStorage.channelScratch := by
      intro channel
      change stopBytes p.session.policy channel + _ ≤ max (stopBytes p.session.policy .reasoning)
        (stopBytes p.session.policy .content) + (p.session.tokenizer.maximumDecodedTokenBytes + 3 + 8)
      cases channel <;> omega
    exact {
      decodedScratch := le_trans (by simp only [requestedStorage]; omega) hdecoded
      channelScratch := fun channel => (hstops channel).trans hchannel
      utf8Pending := hutf8
      thinkMarkerPending := hmarker
      stopPending := hstop
      closePending := hclose }
  · rw [hsession]
    exact ⟨Nat.zero_le _, Nat.zero_le _, fun _ => Nat.zero_le _⟩
  · rw [hsession]
    exact Nat.zero_le _
  · rw [hsession, h.fresh.published]
    exact Nat.zero_le _
  · rw [h.fresh.published]
    exact Nat.zero_le _

/-- As long as what each token comes to fits the reserved strings, no capacity is exceeded; as long
    as it is no more than the longest token adds, the byte bound holds. -/
theorem preallocated_suffices {start : OutputPoint} (hstart : Preallocated start) :
    (∀ p, OutputRun (CallMeets Reserved) start p → ∀ call e, CallMeets Reserved p.session call →
      call.perform p.session = .error e → ¬ CapacityError e) ∧
    ∀ p, OutputRun (CallMeets Spared) start p →
      ∀ channel, (p.published channel).length ≤ p.session.outputTextByteBound p.accepted := by
  refine ⟨fun p hrun call e hmeets he => ?_, fun p hrun => ?_⟩
  · have hC : ∀ session state bytes, Fits session.policy state → Reserved session state bytes → Takes
        session.tokenizer.maximumDecodedTokenBytes (session.tokenizer.maximumDecodedTokenBytes + 11) state bytes :=
      fun _ _ _ _ h => h.takes
    have h : Stored (fun tokenizer => tokenizer.maximumDecodedTokenBytes + 11) p := hstart.stored.run hC hrun
    have hne := ends_exn (h.perform hC hmeets) he
    exact hne
  · have h : Stored Tokenizer.maximumDecodedTokenBytes p :=
      hstart.stored.run (fun _ _ _ hfits h => h.takes hfits) hrun
    exact h.published

/-- A session for some tokens, with exactly the storage it asks for. -/
def preallocatedSession (tokens : List (List UInt8)) : OutputSession :=
  let session : OutputSession := {
    tokenizer := ⟨tokens.map fun bytes => some ⟨bytes, false⟩, []⟩
    policy := {}
    thinkingControlTokens := []
    preserveSpecial := false
    splitReasoning := true
    captureOnly := false
    state := { inReasoning := true }
    semantic := {} }
  { session with storage := some session.requestedStorage }

theorem preallocatedSession_preallocated (tokens : List (List UInt8)) :
    Preallocated ⟨preallocatedSession tokens, 0, fun _ => []⟩ where
  fresh := ⟨⟨⟨tokens.map fun bytes => some ⟨bytes, false⟩, []⟩, {}, {}, true, none, [], false, _, rfl, _, none, rfl⟩,
    rfl, rfl⟩
  storage := ⟨_, rfl, le_rfl, le_rfl, le_rfl, le_rfl, fun _ => le_rfl, le_rfl⟩

/-- The second of these tokens is a stray byte, and the last two are the halves of one character. -/
def strayTokens : List (List UInt8) := [ascii "thinking", [0x80], [0xE2, 0x82], [0xAC]]

/-- All of them in two rounds, after which the stray byte comes twice more. -/
theorem preallocated_suffices_stray : ∃ p : OutputPoint,
    OutputRun (CallMeets Spared) ⟨preallocatedSession strayTokens, 0, fun _ => []⟩ p ∧
    p.accepted = 4 ∧ p.published .reasoning = ascii "thinking" ++ replacement ++ [0xE2, 0x82, 0xAC] ∧
    (p.published .reasoning).length ≤ p.session.outputTextByteBound p.accepted ∧
    ∀ e, (OutputCall.model [1, 1] 5 .outputLimit).perform p.session = .error e → ¬ CapacityError e := by
  have hrounds : ((OutputCall.model [0, 1] 9 .outputLimit).commit (preallocatedSession strayTokens)).any
      (fun (decision, output, session) => ((OutputCall.model [2, 3] 7 .outputLimit).commit session).any
        fun (decision', output', session') => decide (decision.acceptedTokens + decision'.acceptedTokens = 4 ∧
          output.textOn .reasoning ++ output'.textOn .reasoning =
            ascii "thinking" ++ replacement ++ [0xE2, 0x82, 0xAC] ∧
          CallMeets Spared session (.model [2, 3] 7 .outputLimit) ∧
          CallMeets Reserved session (.model [2, 3] 7 .outputLimit) ∧
          CallMeets Reserved session' (.model [1, 1] 5 .outputLimit))) = true := by decide +kernel
  obtain ⟨⟨decision, output, session⟩, hfirst, hrounds⟩ := (Option.any_eq_true _ _).mp hrounds
  obtain ⟨⟨decision', output', session'⟩, hsecond, hrounds⟩ := (Option.any_eq_true _ _).mp hrounds
  obtain ⟨haccepted, htext, hspared, hreserved, hfurther⟩ := of_decide_eq_true hrounds
  obtain ⟨previewed, hperform, hcommit⟩ := OutputCall.commit_eq_some hfirst
  obtain ⟨previewed', hperform', hcommit'⟩ := OutputCall.commit_eq_some hsecond
  have hrun : ∀ C : OutputSession → DecoderState → List UInt8 → Prop,
      CallMeets C (preallocatedSession strayTokens) (.model [0, 1] 9 .outputLimit) →
      CallMeets C session (.model [2, 3] 7 .outputLimit) →
      OutputRun (CallMeets C) ⟨preallocatedSession strayTokens, 0, fun _ => []⟩
        ((OutputPoint.commit ⟨preallocatedSession strayTokens, 0, fun _ => []⟩ decision output session).commit
          decision' output' session') :=
    fun C h h' => .tail (.single (.commit h hperform hcommit)) (.commit h' hperform' hcommit')
  have hfits := preallocated_suffices (preallocatedSession_preallocated strayTokens)
  have hruns := hrun Spared (by decide +kernel) hspared
  refine ⟨_, hruns, by simpa [OutputPoint.commit] using haccepted, by simpa [OutputPoint.commit] using htext,
    hfits.2 _ hruns .reasoning, fun e => hfits.1 _ (hrun Reserved (by decide +kernel) hreserved) _ e hfurther⟩

/-- Sixty-four stray continuation bytes in one token become 192 bytes of text, and the marker
    buffer was reserved for 75. -/
theorem preallocated_overflows :
    Preallocated ⟨preallocatedSession [List.replicate 64 0x80], 0, fun _ => []⟩ ∧
    (OutputCall.model [0] 2 .outputLimit).perform (preallocatedSession [List.replicate 64 0x80]) =
      .error (.logicError pendingAppendError) ∧ CapacityError (.logicError pendingAppendError) :=
  ⟨preallocatedSession_preallocated _, eq_error_of_thrown (by decide +kernel), by decide⟩

end OutputSession

end VoidInfer.Frontend
