import VoidInfer.Base
import VoidInfer.Lib.Bytes

/-
  `chat_template.cpp`: how a template renders the tool calls of a message. The ordered JSON values are their own type
  here; parsing the arguments of a call is a parameter.
-/

namespace VoidInfer.Frontend
open Bytes

/-- A byte of a JSON number. -/
def isNumberByte (b : UInt8) : Bool :=
  (48 ≤ b && b ≤ 57) || b == 43 || b == 45 || b == 46 || b == 69 || b == 101

/-- A number, by the text `dump` gives it. -/
structure NumberText where
  text : List UInt8
  nonempty : text ≠ []
  bytes : ∀ b ∈ text, isNumberByte b = true

inductive OrderedJson where
  | null
  | boolean (value : Bool)
  | number (value : NumberText)
  | string (text : List UInt8)
  | array (values : List OrderedJson)
  | object (members : List (List UInt8 × OrderedJson))

/-- A digit of `%04x`. -/
def hexDigit (n : UInt8) : UInt8 := if n < 10 then 48 + n else 87 + n

/-- What `dump_escaped` writes for a byte; bytes of longer characters stay. -/
def escapeByte (b : UInt8) : List UInt8 :=
  if b = 8 then [92, 98]
  else if b = 9 then [92, 116]
  else if b = 10 then [92, 110]
  else if b = 12 then [92, 102]
  else if b = 13 then [92, 114]
  else if b = 34 then [92, 34]
  else if b = 92 then [92, 92]
  else if b ≤ 31 then [92, 117, 48, 48, hexDigit (b / 16), hexDigit (b % 16)]
  else [b]

/-- `dump` of a string; a parsed string is UTF-8, so it does not throw. -/
def dumpString (text : List UInt8) : List UInt8 := [34] ++ text.flatMap escapeByte ++ [34]

def kSeparator : List UInt8 := [44, 32]
def kColon : List UInt8 := [58, 32]

mutual

def tojsonText : OrderedJson → List UInt8
  | .array values => [91] ++ elementsText 0 values ++ [93]
  | .object members => [123] ++ membersText 0 members ++ [125]
  | .null => ascii "null"
  | .boolean value => if value then ascii "true" else ascii "false"
  | .number value => value.text
  | .string text => dumpString text

/-- The elements of an array from `index` on. -/
def elementsText (index : Nat) : List OrderedJson → List UInt8
  | [] => []
  | value :: values =>
    (if index ≠ 0 then kSeparator else []) ++ tojsonText value ++ elementsText (index + 1) values

/-- The members of an object from `index` on. -/
def membersText (index : Nat) : List (List UInt8 × OrderedJson) → List UInt8
  | [] => []
  | (key, value) :: members =>
    (if index ≠ 0 then kSeparator else []) ++ dumpString key ++ kColon ++ tojsonText value ++
      membersText (index + 1) members

end

def parameterText : OrderedJson → List UInt8
  | .string text => text
  | value => tojsonText value

structure ToolCall where
  id : List UInt8
  name : List UInt8
  argumentsJson : List UInt8

/-- The parameters of a call. -/
def parametersText (args : List (List UInt8 × OrderedJson)) : List UInt8 :=
  args.flatMap fun arg =>
    ascii "<parameter=" ++ arg.1 ++ ascii ">\n" ++ parameterText arg.2 ++ ascii "\n</parameter>\n"

def renderToolCall (parse : List UInt8 → Except Exn OrderedJson) (call : ToolCall) (allowEmptyArguments : Bool) :
    Except Exn (List UInt8) :=
  if allowEmptyArguments && call.argumentsJson.isEmpty then
    .ok (ascii "<tool_call>\n<function=" ++ call.name ++ ascii ">\n</function>\n</tool_call>")
  else do
    match ← parse call.argumentsJson with
    | .object args =>
      .ok (ascii "<tool_call>\n<function=" ++ call.name ++ ascii ">\n" ++ parametersText args ++
        ascii "</function>\n</tool_call>")
    | _ => .error (.invalidArgument "tool call arguments must be a JSON object")

/-- The loop of `render` over a message's calls, from `callIndex` on, after its body. -/
def renderToolCalls (parse : List UInt8 → Except Exn OrderedJson) (effortTemplate bodyHasText : Bool)
    (callIndex : Nat) (rendered : List UInt8) : List ToolCall → Except Exn (List UInt8)
  | [] => .ok rendered
  | call :: calls => do
    let separator := if callIndex = 0 then (if bodyHasText then ascii "\n\n" else []) else ascii "\n"
    let text ← renderToolCall parse call effortTemplate
    renderToolCalls parse effortTemplate bodyHasText (callIndex + 1) (rendered ++ separator ++ text) calls

/-- What `render` makes of a message's body and its calls. -/
def renderBodyAndCalls (parse : List UInt8 → Except Exn OrderedJson) (effortTemplate : Bool) (body : List UInt8)
    (calls : List ToolCall) : Except Exn (List UInt8) :=
  renderToolCalls parse effortTemplate (!(trimAscii body).isEmpty) 0 body calls

end VoidInfer.Frontend
