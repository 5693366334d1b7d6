import Mathlib.Data.List.Infix
import VoidInfer.Lib.Throwing
import VoidInfer.Serve.ChatTurns

/-
  `response_store.cpp`: the bounded store of responses and of the contexts that they continue.

  A `ResponseContext` is a pointer to an immutable node, whose parent is another such pointer. It is modelled by the
  chain of nodes from that node on, the empty one being the null pointer; a node has its address, so that chains are
  equal where the pointers are. Sizes are those of objects in memory, and their sums over one object do not wrap.
  Allocations do not fail.
-/

namespace VoidInfer.Serve

open Function

/-- What the store uses of `nlohmann::json`, and the sizes of its classes. -/
structure StorePlatform where
  Json : Type
  isObject : Json → Bool
  /-- `dump()`, which throws on a string that is no UTF-8. -/
  dump : Json → Except String (List UInt8)
  sizeofNode : Nat
  sizeofTurn : Nat
  sizeofPart : Nat
  sizeofToolCall : Nat
  sizeofResponse : Nat
  sizeofJson : Nat
  node_pos : 0 < sizeofNode
  response_pos : 0 < sizeofResponse

structure ContextNode where
  address : Nat
  turns : List ChatTurn
  ownedBytes : Nat
  cumulativeBytes : Nat
  cumulativeTurns : Nat
deriving DecidableEq

/-- The node that is pointed to, and its ancestors. -/
abbrev ResponseContext := List ContextNode

instance lawfulBEqContext : LawfulBEq ResponseContext := inferInstanceAs (LawfulBEq (List ContextNode))

structure ApiError where
  status : Nat
  type : String
  message : String
  code : String
deriving DecidableEq

inductive StoreError where
  | exn (exn : Exn)
  | api (error : ApiError)
  /-- Of the JSON library. -/
  | json (what : String)
deriving DecidableEq

def storeCapacity : StoreError := .api {
  status := 500
  type := "server_error"
  code := "response_store_capacity_exceeded"
  message := "response exceeds the configured local response store capacity" }

def bytesOverflowed : StoreError := .exn (.overflowError "response store byte accounting overflowed")

/-- `context->cumulative_bytes`, or nothing for the null context. -/
def cumulativeBytes (context : ResponseContext) : Nat := (context.head?.map (·.cumulativeBytes)).getD 0

def cumulativeTurns (context : ResponseContext) : Nat := (context.head?.map (·.cumulativeTurns)).getD 0

/-- `cursor->owned_bytes`. -/
def ownedBytes (context : ResponseContext) : Nat := (context.head?.map (·.ownedBytes)).getD 0

def checkedAdd (left right : Nat) (label : String) : Except StoreError Nat :=
  if right > sizeMax - left then .error (.exn (.overflowError label)) else .ok (left + right)

section Contexts

variable (P : StorePlatform)

def estimatePartBytes (part : ContentPart) : Nat :=
  P.sizeofPart + part.text.length + part.typeRaw.length + part.value.length + part.mediaType.length + part.bytes.length

def estimateCallBytes (call : ToolCall) : Nat :=
  P.sizeofToolCall + call.id.length + call.name.length + call.argumentsJson.length

def estimateTurnBytes (turn : ChatTurn) : Nat :=
  P.sizeofTurn + turn.toolCallId.length + turn.reasoningContent.length +
    (turn.content.map (estimatePartBytes P)).sum + (turn.toolCalls.map (estimateCallBytes P)).sum

/-- `append_response_context`; the new node is at `address`. -/
def appendResponseContext (address : Nat) (parent : ResponseContext) (turns : List ChatTurn) :
    Except StoreError ResponseContext := do
  let ownedBytes := P.sizeofNode + (turns.map (estimateTurnBytes P)).sum
  let bytes ← checkedAdd ownedBytes (cumulativeBytes parent) "response context byte accounting overflowed"
  let count ← checkedAdd turns.length (cumulativeTurns parent) "response context turn accounting overflowed"
  return { address, turns, ownedBytes, cumulativeBytes := bytes, cumulativeTurns := count } :: parent

end Contexts

structure StoredResponse (P : StorePlatform) where
  id : List UInt8
  sessionKey : List UInt8
  response : P.Json
  inputItems : List P.Json
  context : ResponseContext

structure Entry (P : StorePlatform) where
  response : StoredResponse P
  envelopeBytes : Nat

/-- `max_records_` and `max_bytes_`, which the constructor checks. -/
structure Limits where
  maxRecords : Nat
  maxBytes : Nat
  records_pos : 0 < maxRecords
  bytes_pos : 0 < maxBytes
  bytes_le : maxBytes ≤ sizeMax

structure ResponseStore (P : StorePlatform) where
  records : List (Entry P) := []
  lru : List (List UInt8) := []
  /-- `live_context_references_`. -/
  live : ResponseContext → Option Nat := fun _ => none
  currentBytes : Nat := 0

variable {P : StorePlatform}

abbrev StoreM (P : StorePlatform) := EStateM StoreError (ResponseStore P)

def kMaximumContextCacheSessionKeyBytes : Nat := 256

/-- `value.dump().size()`. -/
def dumpSize (value : P.Json) : Except StoreError Nat :=
  match P.dump value with
  | .ok text => .ok text.length
  | .error what => .error (.json what)

def recordEnvelopeBytes (record : StoredResponse P) : Except StoreError Nat := do
  let body ← dumpSize record.response
  let items ← record.inputItems.mapM dumpSize
  return P.sizeofResponse + record.id.length + record.sessionKey.length + body + (items.map (P.sizeofJson + ·)).sum

/-! ## References -/

/-- `rollback_inserted`; the node inserted last comes first. -/
def rollbackInserted (inserted : List ResponseContext) (s : ResponseStore P) : ResponseStore P :=
  inserted.foldl (fun s node =>
    { s with currentBytes := s.currentBytes - ownedBytes node, live := Function.update s.live node none }) s

/-- The nodes that are not alive, up to the first that is. -/
def newNodes (live : ResponseContext → Option Nat) : ResponseContext → List ResponseContext × ResponseContext
  | [] => ([], [])
  | node :: parent =>
    if (live (node :: parent)).isSome then ([], node :: parent)
    else ((node :: parent) :: (newNodes live parent).1, (newNodes live parent).2)

/-- The loop that brings nodes to life; it leaves the ones that it has inserted. -/
def activate (inserted : List ResponseContext) : List ResponseContext → StoreM P (List ResponseContext)
  | [] => pure inserted
  | node :: rest => do
    let s ← get
    if ownedBytes node > sizeMax - s.currentBytes then
      modify (rollbackInserted inserted)
      throw bytesOverflowed
    else if (s.live node).isSome then
      modify (rollbackInserted inserted)
      throw (.exn (.logicError "response context activation raced itself"))
    else
      set { s with live := Function.update s.live node (some 1), currentBytes := s.currentBytes + ownedBytes node }
      activate (node :: inserted) rest

def referencesOverflowed : StoreError := .exn (.overflowError "response context reference count overflowed")

/-- `retain_context_locked`. -/
def retainContext (context : ResponseContext) : StoreM P Unit := do
  if context = [] then return ()
  let s ← get
  match s.live context with
  | some references =>
    if references = sizeMax then throw referencesOverflowed
    else set { s with live := Function.update s.live context (some (references + 1)) }
  | none =>
    let cursor := (newNodes s.live context).2
    let inserted ← activate [] (newNodes s.live context).1
    if cursor = [] then return ()
    let s ← get
    match s.live cursor with
    | none =>
      modify (rollbackInserted inserted)
      throw (.exn (.logicError "response context activation lost its live parent"))
    | some references =>
      if references = sizeMax then
        modify (rollbackInserted inserted)
        throw referencesOverflowed
      else set { s with live := Function.update s.live cursor (some (references + 1)) }

def releaseLost : StoreError := .exn (.logicError "response context release lost its live node")

/-- `release_context_locked`. -/
def releaseContext : ResponseContext → StoreM P Unit
  | [] => pure ()
  | node :: parent => do
    let s ← get
    match s.live (node :: parent) with
    | none | some 0 => throw releaseLost
    | some 1 =>
      if s.currentBytes < node.ownedBytes then
        throw (.exn (.logicError "response context byte accounting underflowed"))
      else
        set { s with currentBytes := s.currentBytes - node.ownedBytes
                     live := Function.update s.live (node :: parent) none }
        releaseContext parent
    | some (references + 2) => set { s with live := Function.update s.live (node :: parent) (some (references + 1)) }

/-! ## Records -/

def ResponseStore.find (s : ResponseStore P) (id : List UInt8) : Option (Entry P) := s.records.find? (·.response.id = id)

def eraseRecord (id : List UInt8) (records : List (Entry P)) : List (Entry P) := records.eraseP (·.response.id = id)

def eraseLocked (id : List UInt8) : StoreM P Unit := do
  let s ← get
  match s.find id with
  | none => return ()
  | some entry =>
    if s.currentBytes < entry.envelopeBytes then
      throw (.exn (.logicError "response envelope byte accounting underflowed"))
    else
      set { s with currentBytes := s.currentBytes - entry.envelopeBytes }
      releaseContext entry.response.context
      modify fun s => { s with lru := s.lru.erase id, records := eraseRecord id s.records }

/-- The victim of an eviction for the record `id`: the last, or the one before it. -/
def victim (id : List UInt8) (lru : List (List UInt8)) : Except StoreError (List UInt8) :=
  match lru.reverse with
  | [] => .error (.exn (.logicError "response store LRU is empty"))
  | last :: before =>
    if last = id then
      match before with
      | [] => .error storeCapacity
      | previous :: _ => .ok previous
    else .ok last

section Limited

variable (limits : Limits)

/-- The loop that evicts records until the rest fits; `fuel` is a bound on the rounds. -/
def evict (id : List UInt8) : Nat → StoreM P Unit
  | 0 => throw (.exn .terminate)
  | fuel + 1 => do
    let s ← get
    if s.records.length > limits.maxRecords ∨ s.currentBytes > limits.maxBytes then
      let victimId ← MonadExcept.ofExcept (victim id s.lru)
      eraseLocked victimId
      evict id fuel

/-- The checks of `put` before it takes the lock. -/
def checkPut (response : StoredResponse P) : Except StoreError Nat := do
  if response.id = [] ∨ response.sessionKey = [] ∨
      response.sessionKey.length > kMaximumContextCacheSessionKeyBytes ∨ P.isObject response.response = false then
    throw (.exn (.invalidArgument "stored response must have an id, bounded session key and object body"))
  let envelopeBytes ← recordEnvelopeBytes response
  if envelopeBytes > limits.maxBytes ∨ cumulativeBytes response.context > limits.maxBytes - envelopeBytes then
    throw storeCapacity
  return envelopeBytes

/-- What a failure takes back. -/
def undoPut (id : List UInt8) (s : ResponseStore P) : ResponseStore P :=
  { s with records := eraseRecord id s.records, lru := s.lru.tail }

def ResponseStore.put (response : StoredResponse P) : StoreM P Unit := do
  let envelopeBytes ← MonadExcept.ofExcept (checkPut limits response)
  let s ← get
  if (s.find response.id).isSome then
    throw (.exn (.logicError "duplicate response id in response store"))
  modify fun s => { s with lru := response.id :: s.lru, records := { response, envelopeBytes } :: s.records }
  if envelopeBytes > sizeMax - s.currentBytes then
    modify (undoPut response.id)
    throw bytesOverflowed
  modify fun s => { s with currentBytes := s.currentBytes + envelopeBytes }
  tryCatch (retainContext response.context) fun error => do
    modify fun s => undoPut response.id { s with currentBytes := s.currentBytes - envelopeBytes }
    throw error
  let s ← get
  evict limits response.id (s.lru.length + 1)

end Limited

def ResponseStore.get (id : List UInt8) : StoreM P (Option (StoredResponse P)) := do
  let s ← MonadState.get
  match s.find id with
  | none => return none
  | some entry =>
    set { s with lru := id :: s.lru.erase id }
    return some entry.response

def ResponseStore.erase (id : List UInt8) : StoreM P Bool := do
  let s ← MonadState.get
  if (s.find id).isSome then
    eraseLocked id
    return true
  else return false

end VoidInfer.Serve
