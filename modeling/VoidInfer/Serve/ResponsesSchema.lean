import VoidInfer.Serve.ChatTurns

/-
  `responses_schema.cpp`: the Items of the Responses protocol. A finished generation becomes output Items and one
  history turn; input Items become turns. `Json::parse`, which checks the arguments of a call, is a parameter, as are
  the random ids of Items without one.
-/

namespace VoidInfer.Serve.Responses
open Bytes

/-- A `nlohmann::json` value; an object has each key once. -/
inductive Json where
  | null
  | boolean (value : Bool)
  | number (text : List UInt8)
  | string (text : List UInt8)
  | array (values : List Json)
  | object (fields : List (String × Json))

namespace Json

/-- `contains`, and `at`. -/
def at? (key : String) : Json → Option Json
  | object fields => fields.lookup key
  | _ => none

def isNull : Json → Bool
  | null => true
  | _ => false

/-- The field is there, and not null. -/
def given? (key : String) (value : Json) : Option Json := (value.at? key).filter fun field => !field.isNull

def string? : Json → Option (List UInt8)
  | string text => some text
  | _ => none

def isObject : Json → Bool
  | object _ => true
  | _ => false

/-- A string of the program's own. -/
def literal (text : String) : Json := string (ascii text)

end Json

/-- A 400 of type `invalid_request_error`. -/
structure BadRequest where
  message : List UInt8
  param : String
  code : String

abbrev Checked := Except BadRequest

def badRequest {α : Type} (message : List UInt8) (code : String := "") : Checked α :=
  .error { message, param := "input", code }

def validFunctionName (name : List UInt8) : Bool :=
  name ≠ [] && name.length ≤ 64 && name.all fun c => isAlnum c || c == 95 || c == 45

section Parsing

-- `Json::parse(text, nullptr, false)` gives an object; `new_response_item_id`, of the Item at an
-- index
variable (encodesObject : List UInt8 → Bool) (newItemId : String → Nat → List UInt8)

def requireFunctionName (item : Json) : Checked (List UInt8) :=
  match (item.at? "name").bind Json.string? with
  | none => badRequest (ascii "function name must be a string")
  | some name =>
    if validFunctionName name then .ok name else badRequest (ascii "function name must match [A-Za-z0-9_-]\x7b1,64\x7d")

def itemId (item : Json) (kind : String) (index : Nat) : Checked (List UInt8) :=
  match item.given? "id" with
  | none => .ok (newItemId kind index)
  | some (.string (c :: text)) => .ok (c :: text)
  | some _ => badRequest (ascii "input Item id must be a non-empty string")

/-! ## Messages -/

def urlKind (url : List UInt8) (refused : String) : Checked SourceKind :=
  if (ascii "data:").isPrefixOf url then .ok .data
  else if (ascii "http://").isPrefixOf url || (ascii "https://").isPrefixOf url then .ok .url
  else badRequest (ascii refused)

def parseImageSource (part : Json) : Checked (SourceKind × List UInt8) := do
  if (part.given? "file_id").isSome then
    badRequest (ascii "input_image.file_id is not supported; use image_url") "file_inputs_not_supported"
  match (part.at? "image_url").bind Json.string? with
  | none | some [] => badRequest (ascii "input_image must contain a non-empty image_url")
  | some url =>
    match part.given? "detail" with
    | none => pure ()
    | some (.string detail) =>
      if detail ≠ ascii "auto" then
        badRequest (ascii "only input_image detail 'auto' is supported") "image_detail_not_supported"
    | some _ => badRequest (ascii "input_image.detail must be a string")
    return (← urlKind url "input_image.image_url must use HTTP(S) or a data URI", url)

def parseVideoSource (part : Json) : Checked (SourceKind × List UInt8) := do
  match (part.at? "video_url").bind Json.string? with
  | none | some [] => badRequest (ascii "input_video must contain a non-empty video_url")
  | some url => return (← urlKind url "input_video.video_url must use HTTP(S) or a data URI", url)

def parseRole (role : List UInt8) : Checked ChatRole :=
  if role = ascii "user" then .ok .user
  else if role = ascii "assistant" then .ok .assistant
  else if role = ascii "system" then .ok .system
  else if role = ascii "developer" then .ok .developer
  else badRequest (ascii "unsupported input message role: " ++ role) "unsupported_role"

/-- `append_text`: a part, and its canonical form. -/
def textPart (text wireType : List UInt8) : ContentPart × Json :=
  ({ kind := .text, text, typeRaw := wireType },
    .object ([("type", .string wireType), ("text", .string text)] ++
      if wireType = ascii "output_text" then [("annotations", .array [])] else []))

def mediaPart (kind : ContentKind) (type : List UInt8) (source : SourceKind × List UInt8) : ContentPart :=
  { kind, typeRaw := type, sourceKind := source.1, value := source.2 }

def parseContentPart (role : ChatRole) (value : Json) : Checked (ContentPart × Json) := do
  match (value.at? "type").bind Json.string? with
  | none => badRequest (ascii "input message content parts must have a string type")
  | some type =>
    if type = ascii "input_text" ∨ type = ascii "output_text" then
      match (value.at? "text").bind Json.string? with
      | none => badRequest (type ++ ascii " must contain a string text")
      | some text =>
        if type = ascii "output_text" ∧ role ≠ .assistant then
          badRequest (ascii "output_text is only valid on assistant messages")
        return textPart text type
    else if type = ascii "input_image" then
      if role ≠ .user then badRequest (ascii "input_image is only supported on user messages")
      let source ← parseImageSource value
      return (mediaPart .image type source,
        .object [("type", .literal "input_image"), ("image_url", .string source.2), ("detail", .literal "auto")])
    else if type = ascii "input_video" then
      if role ≠ .user then badRequest (ascii "input_video is only supported on user messages")
      let source ← parseVideoSource value
      return (mediaPart .video type source, .object [("type", .literal "input_video"), ("video_url", .string source.2)])
    else if type = ascii "input_file" then
      badRequest (ascii "input_file is not supported") "file_inputs_not_supported"
    else if type = ascii "input_audio" then
      badRequest (ascii "input_audio is not supported") "audio_inputs_not_supported"
    else badRequest (ascii "unsupported message content type: " ++ type) "modality_not_supported"

/-- The status of an Item, if it has one, is `completed`. -/
def checkStatus (item : Json) (message : String) : Checked Unit :=
  match item.given? "status" with
  | none => .ok ()
  | some (.string status) => if status = ascii "completed" then .ok () else badRequest (ascii message)
  | some _ => badRequest (ascii message)

def messageContent (role : ChatRole) (index : Nat) (item : Json) : Checked (List (ContentPart × Json)) := do
  match item.given? "content" with
  | none => badRequest (ascii "input message " ++ ascii (toString index) ++ ascii " must contain content")
  | some (.string text) => return [textPart text (ascii (if role = .assistant then "output_text" else "input_text"))]
  | some (.array values) => values.mapM (parseContentPart role)
  | some _ => badRequest (ascii "input message content must be a string or array")

def parseMessageItem (item : Json) (index : Nat) : Checked (ChatTurn × Json) := do
  match (item.at? "role").bind Json.string? with
  | none => badRequest (ascii "input message " ++ ascii (toString index) ++ ascii " must contain a string role")
  | some name =>
    let role ← parseRole name
    if (item.given? "phase").isSome then badRequest (ascii "message phase is not supported") "phase_not_supported"
    checkStatus item "input message status must be 'completed'"
    let parts ← messageContent role index item
    if parts.isEmpty then badRequest (ascii "input message content must not be empty")
    let id ← itemId newItemId item "msg" index
    return ({ role, content := parts.map (·.1) },
      .object [("id", .string id), ("type", .literal "message"), ("role", .string name),
        ("content", .array (parts.map (·.2)))])

/-! ## Other Items -/

def parseReasoningPart (part : Json) : Checked (List UInt8) :=
  match (part.at? "type").bind Json.string?, (part.at? "text").bind Json.string? with
  | some type, some text =>
    if type = ascii "reasoning_text" then .ok text
    else badRequest (ascii "reasoning content only supports reasoning_text parts")
  | _, _ => badRequest (ascii "reasoning content only supports reasoning_text parts")

def parseReasoningItem (item : Json) (index : Nat) : Checked (List UInt8 × Json) := do
  if (item.given? "encrypted_content").isSome then
    badRequest (ascii "encrypted reasoning content is not supported") "encrypted_reasoning_not_supported"
  match item.given? "summary" with
  | none | some (.array []) => pure ()
  | some (.array _) =>
    badRequest (ascii "reasoning summaries are not supported; replay raw reasoning_text") "reasoning_summary_not_supported"
  | some _ => badRequest (ascii "reasoning summary must be an array")
  match item.at? "content" with
  | some (.array parts) =>
    let texts ← parts.mapM parseReasoningPart
    let id ← itemId newItemId item "rs" index
    return (texts.flatten, .object [("id", .string id), ("type", .literal "reasoning"), ("summary", .array []),
      ("content", .array (texts.map fun text => .object [("type", .literal "reasoning_text"), ("text", .string text)]))])
  | _ => badRequest (ascii "reasoning Item must contain a content array")

def parseFunctionCallItem (item : Json) (index : Nat) : Checked (ToolCall × Json) := do
  match (item.at? "call_id").bind Json.string? with
  | none | some [] => badRequest (ascii "function_call must contain a non-empty call_id")
  | some callId =>
    let name ← requireFunctionName item
    match (item.at? "arguments").bind Json.string? with
    | none => badRequest (ascii "function_call arguments must be a JSON string")
    | some arguments =>
      if encodesObject arguments = false then badRequest (ascii "function_call arguments must encode a JSON object")
      checkStatus item "function_call status must be 'completed'"
      let id ← itemId newItemId item "fc" index
      return ({ id := callId, name, argumentsJson := arguments },
        .object [("id", .string id), ("type", .literal "function_call"), ("status", .literal "completed"),
          ("call_id", .string callId), ("name", .string name), ("arguments", .string arguments)])

def parseFunctionCallOutputItem (item : Json) (index : Nat) : Checked (ChatTurn × Json) := do
  match (item.at? "call_id").bind Json.string? with
  | none | some [] => badRequest (ascii "function_call_output must contain a non-empty call_id")
  | some callId =>
    match (item.at? "output").bind Json.string? with
    | none => badRequest (ascii "function_call_output output must be a string")
    | some output =>
      checkStatus item "function_call_output status must be 'completed'"
      let id ← itemId newItemId item "fco" index
      return ({ role := .tool, toolCallId := callId, content := [{ text := output, typeRaw := ascii "input_text" }] },
        .object [("id", .string id), ("type", .literal "function_call_output"), ("status", .literal "completed"),
          ("call_id", .string callId), ("output", .string output)])

/-! ## The input -/

/-- What the loop over the Items keeps. -/
structure Parser where
  turns : List ChatTurn := []
  items : List Json := []
  ids : List (List UInt8) := []
  /-- `pending_reasoning`, if it is present. -/
  pending : Option (List UInt8) := none
  canGroup : Bool := false

def orphanReasoning {α : Type} : Checked α :=
  badRequest (ascii "a reasoning Item must be followed by an assistant output Item")

/-- A call joins the calls of the turn before, or begins a turn. -/
def addCall (s : Parser) (call : ToolCall) : Parser :=
  match s.turns.getLast? with
  | some last =>
    if s.canGroup = true ∧ s.pending = none ∧ last.role = .assistant ∧ last.content = [] ∧ last.toolCalls ≠ [] then
      { s with turns := s.turns.dropLast ++ [{ last with toolCalls := last.toolCalls ++ [call] }], canGroup := true }
    else { s with
      turns := s.turns ++ [{ role := .assistant, reasoningContent := s.pending.getD [], toolCalls := [call] }]
      pending := none, canGroup := true }
  | none => { s with
      turns := s.turns ++ [{ role := .assistant, reasoningContent := s.pending.getD [], toolCalls := [call] }]
      pending := none, canGroup := true }

/-- The type of an Item. -/
def itemType (item : Json) : Checked (List UInt8) :=
  match item.given? "type" with
  | some (.string type) => .ok type
  | some _ => badRequest (ascii "input Item type must be a string")
  | none => if (item.at? "role").isSome then .ok (ascii "message") else badRequest (ascii "input Item must contain type")

/-- An Item, with its canonical form. -/
def parseItem (s : Parser) (item : Json) (index : Nat) : Checked (Parser × Json) := do
  if item.isObject = false then
    badRequest (ascii "input Item " ++ ascii (toString index) ++ ascii " must be an object")
  let type ← itemType item
  if type = ascii "message" then
    let (turn, canonical) ← parseMessageItem newItemId item index
    match s.pending with
    | none => return ({ s with turns := s.turns ++ [turn], canGroup := false }, canonical)
    | some reasoning =>
      if turn.role ≠ .assistant then orphanReasoning
      return ({ s with turns := s.turns ++ [{ turn with reasoningContent := reasoning }], pending := none
                       canGroup := false }, canonical)
  else if type = ascii "reasoning" then
    if s.pending.isSome then badRequest (ascii "adjacent reasoning Items are not supported")
    let (reasoning, canonical) ← parseReasoningItem newItemId item index
    return ({ s with pending := some reasoning, canGroup := false }, canonical)
  else if type = ascii "function_call" then
    let (call, canonical) ← parseFunctionCallItem encodesObject newItemId item index
    return (addCall s call, canonical)
  else if type = ascii "function_call_output" then
    if s.pending.isSome then orphanReasoning
    let (turn, canonical) ← parseFunctionCallOutputItem newItemId item index
    return ({ s with turns := s.turns ++ [turn], canGroup := false }, canonical)
  else if type = ascii "input_file" then
    badRequest (ascii "input_file is not supported") "file_inputs_not_supported"
  else badRequest (ascii "unsupported input Item type: " ++ type) "item_type_not_supported"

/-- One round of the loop: ids are not repeated. -/
def parseNext (s : Parser) (item : Json) (index : Nat) : Checked Parser := do
  let (s, canonical) ← parseItem encodesObject newItemId s item index
  let id := ((canonical.at? "id").bind Json.string?).getD []
  if id ∈ s.ids then badRequest (ascii "duplicate input Item id: " ++ id)
  return { s with ids := id :: s.ids, items := s.items ++ [canonical] }

def parseItems (s : Parser) (index : Nat) : List Json → Checked Parser
  | [] => .ok s
  | item :: rest => do
    let s ← parseNext encodesObject newItemId s item index
    parseItems s (index + 1) rest

/-- `parse_input`: the turns, and the canonical Items. -/
def parseInput (input : Json) : Checked (List ChatTurn × List Json) := do
  let values ← match input with
    | .string text =>
      pure [.object [("type", .literal "message"), ("role", .literal "user"), ("content", .string text)]]
    | .array values => pure values
    | _ => badRequest (ascii "input must be a string or an array of Items")
  if values.isEmpty then badRequest (ascii "input must not be empty")
  let s ← parseItems encodesObject newItemId {} 0 values
  if s.pending.isSome then orphanReasoning
  return (s.turns, s.items)

end Parsing

/-! ## The output -/

inductive FinishReason where
  | none
  | stopToken
  | stopString
  | outputLimit
  | contextCapacity
  | cancelled

structure GenerationOutcome where
  text : List UInt8
  reasoning : List UInt8
  toolCalls : List ToolCall
  finishReason : FinishReason

def responseStatus : FinishReason → String
  | .outputLimit | .contextCapacity => "incomplete"
  | .cancelled => "cancelled"
  | .none | .stopToken | .stopString => "completed"

/-- The ids of the output Items. -/
structure ItemIds where
  reasoning : List UInt8
  message : List UInt8
  functionCalls : Nat → List UInt8

def reasoningItem (id text : List UInt8) (status : String) : Json :=
  .object [("id", .string id), ("type", .literal "reasoning"), ("status", .literal status), ("summary", .array []),
    ("content", .array [.object [("type", .literal "reasoning_text"), ("text", .string text)]])]

def messageItem (id text : List UInt8) (status : String) : Json :=
  .object [("id", .string id), ("type", .literal "message"), ("status", .literal status), ("role", .literal "assistant"),
    ("content", .array [.object [("type", .literal "output_text"), ("annotations", .array []), ("text", .string text)]])]

def functionCallItem (id : List UInt8) (call : ToolCall) : Json :=
  .object [("id", .string id), ("type", .literal "function_call"), ("status", .literal "completed"),
    ("call_id", .string call.id), ("name", .string call.name), ("arguments", .string call.argumentsJson)]

/-- The output Items of `build_response`. -/
def outputItems (ids : ItemIds) (outcome : GenerationOutcome) : List Json :=
  let itemStatus := if responseStatus outcome.finishReason = "completed" then "completed" else "incomplete"
  (if outcome.reasoning ≠ [] then
    [reasoningItem ids.reasoning outcome.reasoning
      (if outcome.text ≠ [] ∨ outcome.toolCalls ≠ [] then "completed" else itemStatus)] else []) ++
  (if outcome.text ≠ [] ∨ outcome.toolCalls = [] then [messageItem ids.message outcome.text itemStatus] else []) ++
  outcome.toolCalls.zipIdx.map fun call => functionCallItem (ids.functionCalls call.2) call.1

/-- The history turn of `build_response`. -/
def outputHistory (outcome : GenerationOutcome) : List ChatTurn :=
  [{ role := .assistant, reasoningContent := outcome.reasoning, toolCalls := outcome.toolCalls
     content := if outcome.text ≠ [] then [{ text := outcome.text, typeRaw := ascii "output_text" }] else [] }]

/-! ## Rendering -/

/-- The text of a message: adjacent texts are on lines of their own. -/
def renderedText : List ContentPart → List UInt8
  | [] => []
  | part :: rest => part.text ++ (rest.flatMap fun next => if next.text ≠ [] then 10 :: next.text else [])

/-- What a turn of texts contributes to the prompt. -/
structure Message where
  role : ChatRole
  reasoning : List UInt8
  text : List UInt8
  toolCalls : List ToolCall
deriving DecidableEq

def toMessage (turn : ChatTurn) : Message :=
  { role := turn.role, reasoning := turn.reasoningContent, text := renderedText turn.content, toolCalls := turn.toolCalls }

end VoidInfer.Serve.Responses
