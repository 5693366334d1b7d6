import VoidInfer.Serve.ResponsesSchema

/-
  Replaying the output Items of a response, against continuing by `previous_response_id`. The Items of a message and of
  calls become two turns, where the history has one.
-/

namespace VoidInfer.Serve.Responses
open Bytes List

variable {encodesObject : List UInt8 → Bool} {newItemId : String → Nat → List UInt8} {s s' : Parser}
  {id text : List UInt8} {index : Nat} {call : ToolCall}

/-- The calls that an input may have. -/
def Acceptable (encodesObject : List UInt8 → Bool) (call : ToolCall) : Prop :=
  call.id ≠ [] ∧ validFunctionName call.name = true ∧ encodesObject call.argumentsJson = true

instance : Decidable (Acceptable encodesObject call) :=
  inferInstanceAs (Decidable (call.id ≠ [] ∧ validFunctionName call.name = true ∧ encodesObject call.argumentsJson = true))

/-- Ids are not empty, and not repeated. -/
structure ItemIds.Fresh (ids : ItemIds) : Prop where
  reasoning : ids.reasoning ≠ []
  message : ids.message ≠ []
  functionCalls : ∀ i, ids.functionCalls i ≠ []
  apart : ids.message ≠ ids.reasoning
  calls_reasoning : ∀ i, ids.functionCalls i ≠ ids.reasoning
  calls_message : ∀ i, ids.functionCalls i ≠ ids.message
  calls : ∀ i j, ids.functionCalls i = ids.functionCalls j → i = j

/-! ## Items -/

/-- The turn of a message of the assistant. -/
def messageTurn (reasoning text : List UInt8) : ChatTurn :=
  { role := .assistant, reasoningContent := reasoning, content := [(textPart text (ascii "output_text")).1] }

/-- The turn of adjacent calls. -/
def callTurn (reasoning : List UInt8) (calls : List ToolCall) : ChatTurn :=
  { role := .assistant, reasoningContent := reasoning, toolCalls := calls }

variable {status : String} {canonical item : Json} {before : List ChatTurn} {reasoning : List UInt8}
  {ids : ItemIds} {outcome : GenerationOutcome}

section
variable (hid : id ≠ [])
include hid

theorem parseReasoningItem_output :
    ∃ canonical, canonical.at? "id" = some (.string id) ∧
      parseReasoningItem newItemId (reasoningItem id text status) index = .ok (text, canonical) := by
  obtain ⟨c, rest, rfl⟩ := exists_cons_of_ne_nil hid
  have hflat : [text].flatten = text := by simp
  refine ⟨_, ?_, Eq.trans (b := Except.ok ([text].flatten, _)) rfl (by rw [hflat])⟩
  rfl

theorem parseItem_reasoning (hpending : s.pending = none) :
    ∃ canonical, canonical.at? "id" = some (.string id) ∧
      parseItem encodesObject newItemId s (reasoningItem id text status) index =
        .ok ({ s with pending := some text, canGroup := false }, canonical) := by
  obtain ⟨canonical, hcanonical, hitem⟩ :
      ∃ canonical, canonical.at? "id" = some (.string id) ∧
        parseReasoningItem newItemId (reasoningItem id text status) index = .ok (text, canonical) :=
    parseReasoningItem_output hid
  refine ⟨canonical, hcanonical, ?_⟩
  obtain ⟨turns, items, ids, pending, canGroup⟩ := s
  obtain rfl : pending = none := hpending
  show (parseReasoningItem newItemId _ index).bind _ = _
  rw [hitem]
  rfl

theorem parseItem_message :
    ∃ canonical, canonical.at? "id" = some (.string id) ∧
      parseItem encodesObject newItemId s (messageItem id text "completed") index =
        .ok ({ s with turns := s.turns ++ [messageTurn (s.pending.getD []) text], pending := none
                      canGroup := false }, canonical) := by
  obtain ⟨c, rest, rfl⟩ := exists_cons_of_ne_nil hid
  obtain ⟨turns, items, ids, pending, canGroup⟩ := s
  cases pending with
  | none => exact ⟨_, rfl, rfl⟩
  | some reasoning => exact ⟨_, rfl, rfl⟩

theorem parseFunctionCallItem_output (hcall : Acceptable encodesObject call) :
    parseFunctionCallItem encodesObject newItemId (functionCallItem id call) index =
      .ok (call, functionCallItem id call) := by
  obtain ⟨c, rest, rfl⟩ := exists_cons_of_ne_nil hid
  obtain ⟨callId, name, arguments⟩ := call
  obtain ⟨hcallId, hname, harguments⟩ := hcall
  obtain ⟨d, more, rfl⟩ := exists_cons_of_ne_nil hcallId
  show (if validFunctionName name then _ else _ : Checked (List UInt8)).bind _ = _
  rw [if_pos hname]
  show (if encodesObject arguments = false then _ else _) = _
  rw [if_neg (by simpa using harguments)]
  rfl

end

theorem acceptable_of_parseFunctionCallItem {result : ToolCall × Json}
    (h : parseFunctionCallItem encodesObject newItemId (functionCallItem id call) index = .ok result) :
    Acceptable encodesObject call := by
  obtain ⟨callId, name, arguments⟩ := call
  cases callId with
  | nil => cases h
  | cons d more =>
    refine ⟨cons_ne_nil _ _, ?_⟩
    change (if validFunctionName name then _ else _ : Checked (List UInt8)).bind _ = _ at h
    by_cases hname : validFunctionName name = true
    · rw [if_pos hname] at h
      change (if encodesObject arguments = false then _ else _) = _ at h
      by_cases harguments : encodesObject arguments = false
      · rw [if_pos harguments] at h
        cases h
      · exact ⟨hname, by simpa using harguments⟩
    rw [if_neg hname] at h
    cases h

theorem parseItem_functionCall :
    parseItem encodesObject newItemId s (functionCallItem id call) index =
      (parseFunctionCallItem encodesObject newItemId (functionCallItem id call) index).bind
        fun result => .ok (addCall s result.1, result.2) := by
  rfl

/-! ## Rounds -/

section
variable (hid : canonical.at? "id" = some (.string id)) (h : parseItem encodesObject newItemId s item index = .ok (s', canonical)) (hnew : id ∉ s'.ids)
include hid h hnew

theorem parseNext_of_item :
    parseNext encodesObject newItemId s item index =
      .ok { s' with ids := id :: s'.ids, items := s'.items ++ [canonical] } := by
  unfold parseNext
  rw [h]
  show (if ((canonical.at? "id").bind Json.string?).getD [] ∈ s'.ids then _ else _) = _
  rw [hid]
  exact if_neg hnew

theorem parseItems_one :
    parseItems encodesObject newItemId s index [item] =
      .ok { s' with ids := id :: s'.ids, items := s'.items ++ [canonical] } := by
  rw [parseItems, parseNext_of_item hid h hnew]
  rfl

end

@[simp] theorem addCall_ids : (addCall s call).ids = s.ids := by
  unfold addCall
  split
  · split <;> rfl
  · rfl

theorem addCall_first (call : ToolCall) (hgroup : s.canGroup = false) :
    (addCall s call).turns = s.turns ++ [callTurn (s.pending.getD []) [call]] ∧ (addCall s call).pending = none ∧
      (addCall s call).canGroup = true := by
  unfold addCall
  split
  · rw [if_neg (by simp [hgroup])]
    exact ⟨rfl, rfl, rfl⟩
  · exact ⟨rfl, rfl, rfl⟩

theorem addCall_next (call : ToolCall) {calls : List ToolCall} (hgroup : s.canGroup = true)
    (hpending : s.pending = none) (hturns : s.turns = before ++ [callTurn reasoning calls]) (hcalls : calls ≠ []) :
    (addCall s call).turns = before ++ [callTurn reasoning (calls ++ [call])] ∧ (addCall s call).pending = none ∧
      (addCall s call).canGroup = true := by
  have hlast : s.turns.getLast? = some (callTurn reasoning calls) := by simp [hturns]
  have hadd : addCall s call = { s with turns := s.turns.dropLast ++ [callTurn reasoning (calls ++ [call])]
                                        canGroup := true } := by
    unfold addCall
    rw [hlast]
    exact if_pos ⟨hgroup, hpending, rfl, rfl, hcalls⟩
  rw [hadd]
  exact ⟨by simp [hturns], hpending, rfl⟩

theorem parseNext_functionCall (hid : id ≠ []) (hnew : id ∉ s.ids) (hcall : Acceptable encodesObject call) :
    parseNext encodesObject newItemId s (functionCallItem id call) index =
      .ok { addCall s call with ids := id :: s.ids, items := (addCall s call).items ++ [functionCallItem id call] } := by
  have h : parseItem encodesObject newItemId s (functionCallItem id call) index =
      .ok (addCall s call, functionCallItem id call) := by
    rw [parseItem_functionCall, parseFunctionCallItem_output hid hcall]
    rfl
  have hnew' : id ∉ (addCall s call).ids := by simpa using hnew
  rw [parseNext_of_item rfl h hnew', addCall_ids]

theorem parseItems_calls (hids : ids.Fresh) :
    ∀ {calls done : List ToolCall} {s : Parser} {index k : Nat}, (∀ call ∈ calls, Acceptable encodesObject call) →
      (∀ i, k ≤ i → ids.functionCalls i ∉ s.ids) → s.canGroup = true → s.pending = none →
      s.turns = before ++ [callTurn reasoning done] → done ≠ [] →
      ∃ s', parseItems encodesObject newItemId s index
          ((calls.zipIdx k).map fun call => functionCallItem (ids.functionCalls call.2) call.1) = .ok s' ∧
        s'.turns = before ++ [callTurn reasoning (done ++ calls)] ∧ s'.pending = none := by
  intro calls
  induction calls with
  | nil =>
    intro done s index k _ _ _ hpending hturns _
    exact ⟨s, rfl, by simpa using hturns, hpending⟩
  | cons call rest ih =>
    intro done s index k hcalls hnew hgroup hpending hturns hdone
    obtain ⟨hturns', hpending', hgroup'⟩ := addCall_next call hgroup hpending hturns hdone
    have hnew' : ∀ i, k + 1 ≤ i → ids.functionCalls i ∉ ids.functionCalls k :: s.ids := by
      intro i hi hmem
      rcases mem_cons.mp hmem with heq | hmem
      · have := hids.calls _ _ heq
        omega
      · exact hnew i (by omega) hmem
    rw [zipIdx_cons, map_cons, parseItems,
      parseNext_functionCall (hids.functionCalls k) (hnew k (Nat.le_refl k)) (hcalls call mem_cons_self)]
    let t : Parser := { addCall s call with
      ids := ids.functionCalls k :: s.ids
      items := (addCall s call).items ++ [functionCallItem (ids.functionCalls k) call] }
    obtain ⟨s', hrest, hturns', hpending'⟩ := ih (s := t) (fun next hmem => hcalls next (mem_cons_of_mem _ hmem))
      hnew' hgroup' hpending' hturns' (by simp)
    exact ⟨s', hrest, by simpa using hturns', hpending'⟩

theorem parseItems_append (front back : List Json) :
    ∀ s index, parseItems encodesObject newItemId s index (front ++ back) =
      (parseItems encodesObject newItemId s index front).bind
        fun s' => parseItems encodesObject newItemId s' (index + front.length) back := by
  induction front with
  | nil => exact fun s index => rfl
  | cons item rest ih =>
    intro s index
    rw [cons_append, parseItems, parseItems]
    cases parseNext encodesObject newItemId s item index with
    | error e => rfl
    | ok s' =>
      show parseItems encodesObject newItemId s' _ _ = _
      rw [ih, length_cons, Nat.add_assoc, Nat.add_comm 1]
      rfl

theorem acceptable_of_parseItems :
    ∀ {calls : List ToolCall} {s s' : Parser} {index k : Nat}, parseItems encodesObject newItemId s index
        ((calls.zipIdx k).map fun call => functionCallItem (ids.functionCalls call.2) call.1) = .ok s' →
      ∀ call ∈ calls, Acceptable encodesObject call := by
  intro calls
  induction calls with
  | nil =>
    intro s s' index k _ call hmem
    cases hmem
  | cons first rest ih =>
    intro s s' index k h
    obtain ⟨s₁, hnext, hrest⟩ := bind_ok h
    unfold parseNext at hnext
    rw [parseItem_functionCall] at hnext
    obtain ⟨_, hitem, _⟩ := bind_ok hnext
    obtain ⟨result, hcall, _⟩ := bind_ok hitem
    intro call hmem
    rcases mem_cons.mp hmem with rfl | hmem
    · exact acceptable_of_parseFunctionCallItem hcall
    · exact ih hrest call hmem

/-! ## The whole output -/

/-- The state after the reasoning of an output. -/
structure AfterReasoning (ids : ItemIds) (reasoning : List UInt8) (s : Parser) : Prop where
  turns : s.turns = []
  reasoning : s.pending.getD [] = reasoning
  canGroup : s.canGroup = false
  ids : ∀ id ∈ s.ids, id = ids.reasoning

theorem parseItems_reasoning (hids : ids.Fresh) :
    ∃ s, parseItems encodesObject newItemId {} 0
        (if reasoning ≠ [] then [reasoningItem ids.reasoning reasoning status] else []) = .ok s ∧
      AfterReasoning ids reasoning s := by
  by_cases hempty : reasoning = []
  · subst hempty
    exact ⟨{}, rfl, rfl, rfl, rfl, by simp⟩
  rw [if_pos hempty]
  obtain ⟨canonical, hcanonical, hitem⟩ : ∃ canonical, canonical.at? "id" = some (.string ids.reasoning) ∧
      parseItem encodesObject newItemId {} (reasoningItem ids.reasoning reasoning status) 0 =
        .ok ({ pending := some reasoning }, canonical) := parseItem_reasoning hids.reasoning rfl
  exact ⟨_, parseItems_one hcanonical hitem (by simp), rfl, rfl, rfl, by simp⟩

/-- The turns that an output becomes again. -/
def replayTurns (outcome : GenerationOutcome) : List ChatTurn :=
  (if outcome.text ≠ [] ∨ outcome.toolCalls = [] then [messageTurn outcome.reasoning outcome.text] else []) ++
  if outcome.toolCalls = [] then []
  else [callTurn (if outcome.text ≠ [] then [] else outcome.reasoning) outcome.toolCalls]

/-- The state before the calls of an output. -/
structure BeforeCalls (ids : ItemIds) (outcome : GenerationOutcome) (s : Parser) : Prop where
  turns : s.turns =
    if outcome.text ≠ [] ∨ outcome.toolCalls = [] then [messageTurn outcome.reasoning outcome.text] else []
  reasoning : s.pending.getD [] = if outcome.text ≠ [] ∨ outcome.toolCalls = [] then [] else outcome.reasoning
  pending : outcome.text ≠ [] ∨ outcome.toolCalls = [] → s.pending = none
  canGroup : s.canGroup = false
  ids : ∀ id ∈ s.ids, id = ids.reasoning ∨ id = ids.message

theorem parseItems_message (hids : ids.Fresh) (hs : AfterReasoning ids outcome.reasoning s) :
    ∃ s', parseItems encodesObject newItemId s index
        (if outcome.text ≠ [] ∨ outcome.toolCalls = [] then [messageItem ids.message outcome.text "completed"] else []) =
          .ok s' ∧ BeforeCalls ids outcome s' := by
  by_cases hmessage : outcome.text ≠ [] ∨ outcome.toolCalls = []
  · rw [if_pos hmessage]
    obtain ⟨canonical, hcanonical, hitem⟩ : ∃ canonical, canonical.at? "id" = some (.string ids.message) ∧
        parseItem encodesObject newItemId s (messageItem ids.message outcome.text "completed") index =
          .ok ({ s with turns := s.turns ++ [messageTurn (s.pending.getD []) outcome.text], pending := none
                        canGroup := false }, canonical) := parseItem_message hids.message
    refine ⟨_, parseItems_one hcanonical hitem fun hmem => hids.apart (hs.ids _ hmem), ?_⟩
    refine ⟨?_, ?_, fun _ => rfl, rfl, ?_⟩
    · rw [if_pos hmessage, hs.turns, hs.reasoning]
      rfl
    · rw [if_pos hmessage]
      rfl
    · intro id hmem
      rcases mem_cons.mp hmem with rfl | hmem
      · exact .inr rfl
      · exact .inl (hs.ids id hmem)
  rw [if_neg hmessage]
  refine ⟨s, rfl, ?_, ?_, fun h => absurd h hmessage, hs.canGroup, fun id hmem => .inl (hs.ids id hmem)⟩
  · rw [if_neg hmessage, hs.turns]
  · rw [if_neg hmessage, hs.reasoning]

theorem parseItems_outputCalls (hids : ids.Fresh)
    (hs : BeforeCalls ids outcome s) (hcalls : ∀ call ∈ outcome.toolCalls, Acceptable encodesObject call) :
    ∃ s', parseItems encodesObject newItemId s index
        (outcome.toolCalls.zipIdx.map fun call => functionCallItem (ids.functionCalls call.2) call.1) = .ok s' ∧
      s'.turns = replayTurns outcome ∧ s'.pending = none := by
  have hnew : ∀ i, ids.functionCalls i ∉ s.ids := by
    intro i hmem
    rcases hs.ids _ hmem with heq | heq
    · exact hids.calls_reasoning i heq
    · exact hids.calls_message i heq
  unfold replayTurns
  cases hlist : outcome.toolCalls with
  | nil =>
    refine ⟨s, rfl, ?_, hs.pending (.inr hlist)⟩
    rw [hs.turns, hlist]
    simp
  | cons call rest =>
    rw [hlist] at hcalls
    obtain ⟨hturns, hpending, hgroup⟩ := addCall_first call hs.canGroup
    have hnew' : ∀ i, 1 ≤ i → ids.functionCalls i ∉ ids.functionCalls 0 :: s.ids := by
      intro i hi hmem
      rcases mem_cons.mp hmem with heq | hmem
      · have := hids.calls _ _ heq
        omega
      · exact hnew i hmem
    rw [zipIdx_cons, map_cons, parseItems,
      parseNext_functionCall (hids.functionCalls 0) (hnew 0) (hcalls call mem_cons_self)]
    let t : Parser := { addCall s call with
      ids := ids.functionCalls 0 :: s.ids
      items := (addCall s call).items ++ [functionCallItem (ids.functionCalls 0) call] }
    obtain ⟨s', hrest, hturns', hpending'⟩ := parseItems_calls hids (s := t)
      (fun next hmem => hcalls next (mem_cons_of_mem _ hmem)) hnew' hgroup hpending hturns (by simp)
    refine ⟨s', hrest, ?_, hpending'⟩
    rw [hturns', hs.turns, hs.reasoning, hlist]
    by_cases htext : outcome.text = [] <;> simp [htext]

theorem outputItems_ne_nil (ids : ItemIds) (outcome : GenerationOutcome) : outputItems ids outcome ≠ [] := by
  unfold outputItems
  by_cases hcalls : outcome.toolCalls = [] <;> simp [hcalls]

theorem parseInput_output (hids : ids.Fresh) (hdone : responseStatus outcome.finishReason = "completed")
    (hcalls : ∀ call ∈ outcome.toolCalls, Acceptable encodesObject call) :
    ∃ items, parseInput encodesObject newItemId (.array (outputItems ids outcome)) = .ok (replayTurns outcome, items) := by
  obtain ⟨s₁, hreasoning, hs₁⟩ := parseItems_reasoning hids
  obtain ⟨s₂, hmessage, hs₂⟩ := parseItems_message hids hs₁
  obtain ⟨s₃, hlast, hturns, hpending⟩ := parseItems_outputCalls hids hs₂ hcalls
  have hall : parseItems encodesObject newItemId {} 0 (outputItems ids outcome) = .ok s₃ := by
    unfold outputItems
    rw [if_pos hdone, parseItems_append, parseItems_append, hreasoning]
    show ((parseItems encodesObject newItemId s₁ _ _).bind _) = _
    rw [hmessage]
    exact hlast
  refine ⟨s₃.items, ?_⟩
  show (if (outputItems ids outcome).isEmpty = true then _ else _) = _
  rw [if_neg (by simpa using outputItems_ne_nil ids outcome), hall]
  show (if s₃.pending.isSome = true then _ else _) = _
  rw [hpending, hturns]
  rfl

theorem acceptable_of_parseInput {result : List ChatTurn × List Json}
    (h : parseInput encodesObject newItemId (.array (outputItems ids outcome)) = .ok result) :
    ∀ call ∈ outcome.toolCalls, Acceptable encodesObject call := by
  change (if (outputItems ids outcome).isEmpty = true then _ else _) = _ at h
  rw [if_neg (by simpa using outputItems_ne_nil ids outcome)] at h
  obtain ⟨s, hall, _⟩ := bind_ok h
  unfold outputItems at hall
  rw [parseItems_append] at hall
  obtain ⟨s', _, hcalls⟩ := bind_ok hall
  exact acceptable_of_parseItems hcalls

/-! ## Messages -/

theorem toMessage_callTurn (reasoning : List UInt8) (calls : List ToolCall) :
    toMessage (callTurn reasoning calls) = { role := .assistant, reasoning, text := [], toolCalls := calls } := rfl

theorem toMessage_messageTurn (reasoning text : List UInt8) :
    toMessage (messageTurn reasoning text) = { role := .assistant, reasoning, text, toolCalls := [] } := by
  show ({ role := .assistant, reasoning, text := text ++ [], toolCalls := [] } : Message) = _
  rw [append_nil]

theorem toMessage_outputHistory (outcome : GenerationOutcome) :
    (outputHistory outcome).map toMessage =
      [{ role := .assistant, reasoning := outcome.reasoning, text := outcome.text, toolCalls := outcome.toolCalls }] := by
  by_cases htext : outcome.text = [] <;> simp [outputHistory, toMessage, htext, renderedText]

theorem replayTurns_agree_iff (outcome : GenerationOutcome) :
    (replayTurns outcome).map toMessage = (outputHistory outcome).map toMessage ↔
      outcome.text = [] ∨ outcome.toolCalls = [] := by
  rw [toMessage_outputHistory]
  unfold replayTurns
  by_cases htext : outcome.text = []
  · by_cases hcalls : outcome.toolCalls = []
    · simp [htext, hcalls, toMessage_messageTurn]
    · simp [htext, hcalls, toMessage_callTurn]
  by_cases hcalls : outcome.toolCalls = []
  · simp [htext, hcalls, toMessage_messageTurn]
  · simp [htext, hcalls]

/-- Replaying the output Items of a completed response gives the messages of its history exactly
if it has a message or calls, and not both, and an input may have its calls. -/
theorem replay_agrees_iff {ids : ItemIds} (hids : ids.Fresh) {outcome : GenerationOutcome}
    (hdone : responseStatus outcome.finishReason = "completed") :
    (∃ turns items, parseInput encodesObject newItemId (.array (outputItems ids outcome)) = .ok (turns, items) ∧
        turns.map toMessage = (outputHistory outcome).map toMessage) ↔
      (outcome.text = [] ∨ outcome.toolCalls = []) ∧ ∀ call ∈ outcome.toolCalls, Acceptable encodesObject call := by
  constructor
  · intro h
    obtain ⟨turns, items, hparse, hturns⟩ := h
    have hcalls := acceptable_of_parseInput hparse
    obtain ⟨items', hreplay⟩ : ∃ items', parseInput encodesObject newItemId (.array (outputItems ids outcome)) =
        .ok (replayTurns outcome, items') := parseInput_output hids hdone hcalls
    rw [hparse] at hreplay
    cases hreplay
    exact ⟨(replayTurns_agree_iff outcome).mp hturns, hcalls⟩
  · intro h
    obtain ⟨items, hreplay⟩ := parseInput_output hids hdone h.2
    exact ⟨_, items, hreplay, (replayTurns_agree_iff outcome).mpr h.1⟩

/-! ## A message and a call -/

def sampleIds : ItemIds where
  reasoning := ascii "rs_0"
  message := ascii "msg_0"
  functionCalls i := ascii "fc_" ++ List.replicate i 48

theorem sampleIds_fresh : sampleIds.Fresh where
  reasoning := by decide
  message := by decide
  functionCalls i := by simp [sampleIds, ascii]
  apart := by decide
  calls_reasoning i := by simp [sampleIds, ascii]
  calls_message i := by simp [sampleIds, ascii]
  calls i j h := by simpa [sampleIds] using h

/-- A call of a tool without arguments, after a text. -/
def sampleOutcome (text : List UInt8) : GenerationOutcome where
  text
  reasoning := ascii "The time is needed."
  toolCalls := [{ id := ascii "call_1", name := ascii "get_time", argumentsJson := ascii "\x7b\x7d" }]
  finishReason := .stopToken

/-- Without a text, the replay has the one turn of the history. -/
theorem call_replays_as_its_turn :
    ∃ turns items, parseInput (fun text => text == ascii "\x7b\x7d") (fun kind _ => ascii kind)
        (.array (outputItems sampleIds (sampleOutcome []))) = .ok (turns, items) ∧
      turns.map toMessage = (outputHistory (sampleOutcome [])).map toMessage :=
  (replay_agrees_iff sampleIds_fresh rfl).mpr ⟨.inl rfl, by decide⟩

/-- With one, it has two. -/
theorem message_and_call_replay_apart :
    ¬ ∀ outcome : GenerationOutcome, responseStatus outcome.finishReason = "completed" →
      ∃ turns items, parseInput (fun text => text == ascii "\x7b\x7d") (fun kind _ => ascii kind)
          (.array (outputItems sampleIds outcome)) = .ok (turns, items) ∧
        turns.map toMessage = (outputHistory outcome).map toMessage := by
  intro h
  obtain ⟨turns, items, hparse, hturns⟩ := h (sampleOutcome (ascii "One moment.")) rfl
  obtain ⟨items', hreplay⟩ := parseInput_output sampleIds_fresh rfl (acceptable_of_parseInput hparse)
  rw [hparse] at hreplay
  cases hreplay
  cases hturns

end VoidInfer.Serve.Responses
