import VoidInfer.Base
import VoidInfer.Lib.Bytes

/-
  `tool_call_parser.cpp`: the parser of a finished response, and the filter that streams the same response while it is
  generated. A position in a text is modelled by the text from that position on. The JSON library builds the arguments
  of a call and is a parameter, as are the random identifiers of the calls.
-/

namespace VoidInfer.Serve
open Bytes List Option

/-- What the parser uses of `nlohmann::json`. -/
structure JsonLibrary where
  Json : Type
  /-- `Json::parse(text, nullptr, false)`; no value is the discarded one. -/
  parse : List UInt8 → Option Json
  /-- `Json(text)`. -/
  ofString : List UInt8 → Json
  object : Json
  /-- `args[key] = value`. -/
  set : Json → List UInt8 → Json → Json
  /-- `dump()`, which throws on a string that is no UTF-8. -/
  dump : Json → Except Exn (List UInt8)
  /-- The values whose strings, keys included, are UTF-8. -/
  WellFormed : Json → Prop

/-- The library's promise about encodings: it parses to values whose strings are UTF-8, and
    dumps every value whose strings are. -/
structure JsonLibrary.Encodes (lib : JsonLibrary) : Prop where
  parse : ∀ text value, lib.parse text = some value → lib.WellFormed value
  ofString : ∀ text, Utf8 text → lib.WellFormed (lib.ofString text)
  object : lib.WellFormed lib.object
  set : ∀ args key value, lib.WellFormed args → Utf8 key → lib.WellFormed value →
    lib.WellFormed (lib.set args key value)
  dump : ∀ value, lib.WellFormed value → ∃ text, lib.dump value = .ok text

structure ToolCall where
  id : List UInt8
  name : List UInt8
  argumentsJson : List UInt8
deriving DecidableEq

structure ParsedToolCallOutput where
  isToolCallResponse : Bool := false
  content : List UInt8 := []
  toolCalls : List ToolCall := []
deriving DecidableEq

/-! ## The parser -/

def kToolOpen : List UInt8 := ascii "<tool_call>"
def kToolClose : List UInt8 := ascii "</tool_call>"
def kFunctionOpen : List UInt8 := ascii "<function="
def kFunctionClose : List UInt8 := ascii "</function>"
def kParamOpen : List UInt8 := ascii "<parameter="
def kParamClose : List UInt8 := ascii "</parameter>"
def kNameEnd : List UInt8 := ascii ">"

/-- `starts_with_at`, with the text after the prefix. -/
def startsWithAt (text pattern : List UInt8) : Option (List UInt8) :=
  if pattern.isPrefixOf text then some (text.drop pattern.length) else none

def validFunctionName (name : List UInt8) (maxNameLength : Nat) : Bool :=
  !(name.isEmpty || name.length > maxNameLength) &&
    name.all fun c => isAlnum c || c == 95 || c == 45

/-- A name up to `>`, and the text after it. -/
def readName (text : List UInt8) : Option (List UInt8 × List UInt8) :=
  (cut kNameEnd text).filter fun parts => !parts.1.isEmpty

variable {rest text : List UInt8}

theorem startsWithAt_eq {pattern : List UInt8} (h : startsWithAt text pattern = some rest) :
    text = pattern ++ rest := by
  unfold startsWithAt at h
  split at h
  · next hp =>
    rw [← some.inj h]
    exact (prefix_iff_eq_append.mp <| isPrefixOf_iff_prefix.mp hp).symm
  · simp at h

theorem readName_eq {name : List UInt8} (h : readName text = some (name, rest)) :
    text = name ++ kNameEnd ++ rest := by
  exact cut_eq (filter_eq_some_iff.mp h).1

section Parser

variable (lib : JsonLibrary)

/-- `parse_parameter`: the text after the parameter, and the arguments with it. -/
def parseParameter (inner : List UInt8) (args : lib.Json) : Option (List UInt8 × lib.Json) := do
  let opened ← startsWithAt inner kParamOpen
  let (key, value) ← readName opened
  let (raw, rest) ← cut kParamClose value
  let rawValue := trimAscii raw
  let parsed := (lib.parse rawValue).getD (lib.ofString rawValue)
  some (rest, lib.set args key parsed)

variable {lib}

variable {inner rest id text : List UInt8} {args args' : lib.Json} {maxNameLength : Nat}
  {call : ToolCall}

section
variable (h : parseParameter lib inner args = some (rest, args'))
include h

theorem parseParameter_eq :
    ∃ key raw, inner = kParamOpen ++ (key ++ kNameEnd ++ (raw ++ kParamClose ++ rest)) ∧
      args' = lib.set args key ((lib.parse (trimAscii raw)).getD (lib.ofString (trimAscii raw))) := by
  unfold parseParameter at h
  obtain ⟨opened, hopened, h⟩ := bind_eq_some_iff.mp h
  obtain ⟨⟨key, value⟩, hkey, h⟩ := bind_eq_some_iff.mp h
  obtain ⟨⟨raw, rest'⟩, hraw, h⟩ := bind_eq_some_iff.mp h
  simp only [Option.some.injEq, Prod.mk.injEq] at h
  refine ⟨key, raw, ?_, h.2.symm⟩
  rw [← h.1, ← cut_eq hraw, ← readName_eq hkey, ← startsWithAt_eq hopened]

theorem parseParameter_shorter : rest.length < inner.length := by
  obtain ⟨key, raw, rfl, -⟩ := parseParameter_eq h
  have hopen : kParamOpen.length = 11 := rfl
  simp only [length_append, hopen]
  omega

end

theorem skipWs_length (text : List UInt8) : (skipWs text).length ≤ text.length :=
  length_dropWhile_le isSpace text

variable (lib)

/-- The parameters of a call, up to the end of the text. -/
def parseParameters (params : List UInt8) (args : lib.Json) : Option lib.Json :=
  if (skipWs params).isEmpty then some args
  else
    match h : parseParameter lib (skipWs params) args with
    | none => none
    | some (rest, args') =>
      have : rest.length < params.length :=
        lt_of_lt_of_le (parseParameter_shorter h) (skipWs_length params)
      parseParameters rest args'
termination_by params.length

/-- `parse_one_tool_call`; no value is the source's `false`. -/
def parseOneToolCall (block : List UInt8) (maxNameLength : Nat) (id : List UInt8) : Except Exn (Option ToolCall) :=
  let call : Option (List UInt8 × lib.Json) := do
    let opened ← startsWithAt (skipWs block) kFunctionOpen
    let (name, body) ← readName opened
    guard (validFunctionName name maxNameLength)
    let (params, tail) ← cut kFunctionClose body
    let args ← parseParameters lib params lib.object
    guard (skipWs tail).isEmpty
    some (name, args)
  match call with
  | none => .ok none
  | some (name, args) =>
    match lib.dump args with
    | .ok text => .ok (some { id, name, argumentsJson := text })
    | .error e => .error e

def fallback (text : List UInt8) : ParsedToolCallOutput := { content := text }

variable (newToolCallId : Nat → List UInt8)

/-- A call between its markers, and the text after it; no value is the source's fallback. -/
def parseBlock (text : List UInt8) (maxNameLength : Nat) (id : List UInt8) :
    Except Exn (Option (ToolCall × List UInt8)) :=
  match (startsWithAt text kToolOpen).bind (cut kToolClose) with
  | none => .ok none
  | some (block, rest) => do
    let call ← parseOneToolCall lib block maxNameLength id
    pure (call.map fun call => (call, rest))

variable {lib}

section
variable (h : parseBlock lib text maxNameLength id = .ok (some (call, rest)))
include h

theorem parseBlock_eq : ∃ block, text = kToolOpen ++ (block ++ kToolClose ++ rest) := by
  unfold parseBlock at h
  split at h
  · simp at h
  next block rest' hcut =>
  obtain ⟨opened, hopened, hclose⟩ := bind_eq_some_iff.mp hcut
  have hrest : rest' = rest := by
    cases hcall : parseOneToolCall lib block maxNameLength id with
    | error e => simp [hcall, bind, Except.bind] at h
    | ok found =>
      cases found with
      | none => simp [hcall, bind, Except.bind, pure, Except.pure] at h
      | some found =>
        simp only [hcall, bind, Except.bind, pure, Except.pure, map_some, Except.ok.injEq,
          Option.some.injEq, Prod.mk.injEq] at h
        exact h.2
  exact ⟨block, by rw [← hrest, ← cut_eq hclose, ← startsWithAt_eq hopened]⟩

theorem parseBlock_shorter : rest.length < text.length := by
  obtain ⟨block, rfl⟩ := parseBlock_eq h
  have hopen : kToolOpen.length = 11 := rfl
  simp only [length_append, hopen]
  omega

end

variable (lib)

/-- The loop over the calls, from the first marker on; `toolCalls` are the ones read so far. -/
def parseToolCalls (maxToolNameLength : Nat) (text : List UInt8) (toolCalls : List ToolCall) :
    Except Exn (Option (List ToolCall)) :=
  if (skipWs text).isEmpty then .ok (some toolCalls)
  else
    match h : parseBlock lib (skipWs text) maxToolNameLength (newToolCallId toolCalls.length) with
    | .error e => .error e
    | .ok none => .ok none
    | .ok (some (call, rest)) =>
      have : rest.length < text.length := lt_of_lt_of_le (parseBlock_shorter h) (skipWs_length text)
      parseToolCalls maxToolNameLength rest (toolCalls ++ [call])
termination_by text.length

def parseQwenToolCallOutput (text : List UInt8) (maxToolNameLength : Nat) : Except Exn ParsedToolCallOutput :=
  match cut kToolOpen text with
  | none => .ok (fallback text)
  | some (before, after) =>
    match parseToolCalls lib newToolCallId maxToolNameLength (kToolOpen ++ after) [] with
    | .error e => .error e
    | .ok none => .ok (fallback text)
    | .ok (some toolCalls) =>
      if toolCalls.isEmpty then .ok (fallback text)
      else .ok { isToolCallResponse := true, content := rtrimAscii before, toolCalls }

end Parser

/-! ## The stream filter -/

structure ToolCallStreamFilter where
  trailingWhitespace : List UInt8 := []
  toolRegion : List UInt8 := []
  markerPrefixBytes : Nat := 0
  emittedBytes : Nat := 0
  sawToolMarker : Bool := false
  finished : Bool := false

namespace ToolCallStreamFilter

/-- A byte outside a partial marker: what it makes visible, and the filter after it. -/
def ordinaryByte (filter : ToolCallStreamFilter) (byte : UInt8) : List UInt8 × ToolCallStreamFilter :=
  if kToolOpen.head? = some byte then ([], { filter with markerPrefixBytes := 1 })
  else if isSpace byte then
    ([], { filter with trailingWhitespace := filter.trailingWhitespace ++ [byte] })
  else (filter.trailingWhitespace ++ [byte], { filter with trailingWhitespace := [] })

/-- The byte loop of `feed`. -/
def feedBytes (filter : ToolCallStreamFilter) (visible : List UInt8) :
    List UInt8 → List UInt8 × ToolCallStreamFilter
  | [] => (visible, filter)
  | byte :: rest =>
    if filter.markerPrefixBytes ≠ 0 then
      if kToolOpen[filter.markerPrefixBytes]? = some byte then
        if filter.markerPrefixBytes + 1 = kToolOpen.length then
          (visible, { filter with
            toolRegion := filter.trailingWhitespace ++ kToolOpen ++ rest
            trailingWhitespace := []
            markerPrefixBytes := 0
            sawToolMarker := true })
        else feedBytes { filter with markerPrefixBytes := filter.markerPrefixBytes + 1 } visible rest
      else
        -- the mismatching byte is replayed through the ordinary path
        let held := filter.trailingWhitespace ++ kToolOpen.take filter.markerPrefixBytes
        let next := ordinaryByte { filter with trailingWhitespace := [], markerPrefixBytes := 0 } byte
        feedBytes next.2 (visible ++ held ++ next.1) rest
    else
      let next := ordinaryByte filter byte
      feedBytes next.2 (visible ++ next.1) rest

def alreadyFinished : Exn := .logicError "tool-call stream filter is already finished"

/-- `feed`: what `text` makes visible. -/
def feed (filter : ToolCallStreamFilter) (text : List UInt8) : Except Exn (List UInt8 × ToolCallStreamFilter) :=
  if filter.finished then .error alreadyFinished
  else if text.isEmpty then .ok ([], filter)
  else if filter.sawToolMarker then
    .ok ([], { filter with toolRegion := filter.toolRegion ++ text })
  else
    let (visible, after) := feedBytes filter [] text
    .ok (visible, { after with emittedBytes := after.emittedBytes + visible.length })

/-- `finish`: the tail of the response. -/
def finish (filter : ToolCallStreamFilter) (isToolCallResponse : Bool) :
    Except Exn (List UInt8 × ToolCallStreamFilter) :=
  if filter.finished then .error alreadyFinished
  else if isToolCallResponse then
    .ok ([], { filter with
      trailingWhitespace := [], toolRegion := [], markerPrefixBytes := 0, finished := true })
  else
    let tail := filter.trailingWhitespace ++ kToolOpen.take filter.markerPrefixBytes ++ filter.toolRegion
    .ok (tail, { filter with
      trailingWhitespace := []
      toolRegion := []
      markerPrefixBytes := 0
      emittedBytes := filter.emittedBytes + tail.length
      finished := true })

/-- A response streamed in `deltas`: what each of them makes visible. -/
def feedAll (filter : ToolCallStreamFilter) :
    List (List UInt8) → Except Exn (List (List UInt8) × ToolCallStreamFilter)
  | [] => .ok ([], filter)
  | text :: deltas => do
    let (visible, after) ← feed filter text
    let (shown, last) ← feedAll after deltas
    pure (visible :: shown, last)

end ToolCallStreamFilter

end VoidInfer.Serve
