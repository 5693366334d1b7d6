import VoidInfer.Serve.ToolCallParser

/-
  `request.h`: the turns of a conversation, as the protocol adapters build them.
-/

namespace VoidInfer.Serve

inductive ChatRole where
  | system
  | developer
  | user
  | assistant
  | tool
deriving DecidableEq

inductive ContentKind where
  | text
  | image
  | video
  | inputAudio
  | unsupported
deriving DecidableEq

inductive SourceKind where
  | path
  | url
  | data
  | bytes
deriving DecidableEq

/-- A `ContentPart`, with the fields of its source. -/
structure ContentPart where
  kind : ContentKind := .text
  text : List UInt8 := []
  typeRaw : List UInt8 := []
  sourceKind : SourceKind := .path
  value : List UInt8 := []
  mediaType : List UInt8 := []
  bytes : List UInt8 := []
deriving DecidableEq

structure ChatTurn where
  role : ChatRole := .user
  content : List ContentPart := []
  toolCalls : List ToolCall := []
  toolCallId : List UInt8 := []
  reasoningContent : List UInt8 := []
deriving DecidableEq

end VoidInfer.Serve
