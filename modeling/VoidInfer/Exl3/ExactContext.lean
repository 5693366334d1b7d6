import Mathlib.Data.List.Basic
import VoidInfer.Base
import VoidInfer.Lib.Throwing

/-
  The exact context (`Exl3TextContext` of `exl3/text_model.cu`) as the verifiers see it: the tokens whose rows it holds,
  and a greedy choice of the next token, an arbitrary function of the tokens the logits were computed for. A forward
  computes one row per token; the rows of the last continuation are kept, each with the tokens it attended to, and its
  logits can be read. A transaction remembers where it began and can keep the first rows of the one continuation after
  it.

  Which call throws, and what, is data of the machine (`fails`). What the device holds after a call that writes to it
  and threw is not known (`torn`) until a restore or a rollback; a call that only reads it leaves it alone.
-/

namespace VoidInfer.Exl3.Outer

/-! ## Data -/

/-- `kVocab`. -/
def vocabulary : Int := 248320

/-- `0 <= token && token < kVocab`. -/
def InVocabulary (token : Int) : Prop := 0 ≤ token ∧ token < vocabulary

instance (token : Int) : Decidable (InVocabulary token) := inferInstanceAs (Decidable (_ ∧ _))

/-- `Exl3ExactHostState`: `residency_id_`, and the tokens it holds rows and logits of. -/
structure HostState where
  id : Nat
  tokens : List Int
  nonempty : tokens ≠ []
deriving DecidableEq

/-- One row of a continuation: its token, and the tokens of the rows before it that it attended
    to, counted from the base of the continuation. -/
structure Row where
  ancestors : List Int
  token : Int

def Row.path (row : Row) : List Int := row.ancestors ++ [row.token]

/-- What `begin_transaction` saves. -/
structure Snapshot where
  tokens : List Int
  head : List Int
  tapRows : Nat

/-- `Exl3TextContext`. `head` is what the logits were computed for, `base` and `rows` belong to
    the last continuation. -/
structure Context where
  tokens : List Int := []
  head : List Int := []
  base : List Int := []
  rows : List Row := []
  transaction : Option Snapshot := none
  fresh : Bool := false
  prefixAvailable : Bool := false
  tapRows : Nat := 0
  torn : Bool := false
  resident : Option HostState := none
  resident_ok : ∀ state, resident = some state →
    tokens = state.tokens ∧ head = state.tokens ∧ rows = [] ∧ torn = false ∧
      ∀ saved, transaction = some saved → saved.tokens = state.tokens ∧ saved.head = state.tokens
  clock : Nat := 0

/-- The model, what was prepared for the context, and the call that throws at a time. -/
structure Machine where
  next : List Int → Int
  next_range : ∀ tokens, InVocabulary (next tokens)
  capacity : Nat
  prepared : Bool
  fails : Nat → Option Exn

abbrev ContextM := EStateM Exn Context

namespace Context

def position (c : Context) : Nat := c.tokens.length

/-- The context after the contents changed. -/
def put (c : Context) (tokens head base : List Int) (rows : List Row) (tapRows : Nat) : Context :=
  { c with
    tokens, head, base, rows, tapRows
    fresh := false, prefixAvailable := false, resident := none, resident_ok := by simp }

/-- A call threw. -/
def tear (c : Context) : Context :=
  { c with torn := true, resident := none, resident_ok := by simp }

end Context

/-! ## Calls -/

namespace Machine

variable (m : Machine)

/-- One call of the context: it throws, or does `f`. -/
def attempt (f : Context → Context) : ContextM Unit := fun c =>
  match m.fails c.clock with
  | some e => .error e { c.tear with clock := c.clock + 1 }
  | none => .ok () { f c with clock := (f c).clock + 1 }

/-- One call that does not write to what the context holds: it throws, or does `f`. -/
def attemptIntact (f : Context → Context) : ContextM Unit := fun c =>
  match m.fails c.clock with
  | some e => .error e { c with clock := c.clock + 1 }
  | none => .ok () { f c with clock := (f c).clock + 1 }

/-- A call that reads. -/
def observe : ContextM Unit := m.attemptIntact fun c => c

def require (condition : Context → Prop) [DecidablePred condition] (what : String) : ContextM Unit := do
  let c ← get
  MonadExcept.ofExcept (throwIf (¬ condition c) (.runtimeError what))

def restoreExactHostState (root : HostState) : ContextM Unit := do
  require (fun c => c.transaction = none) "exact host restore identity/extent/execution mismatch"
  m.attempt fun c =>
    { c.put root.tokens root.tokens [] [] 1 with
      transaction := none, resident := some root, torn := false
      resident_ok := by
        intro state h
        obtain rfl := Option.some.inj h
        exact ⟨rfl, rfl, rfl, rfl, by simp⟩ }

def restoreExactHostStateIfNeeded (root : HostState) : ContextM Unit := do
  let c ← get
  if c.resident = some root then pure () else m.restoreExactHostState root

/-- `export_exact_host_state`: the tokens and what the logits are of. -/
def exportExactHostState : ContextM (List Int × List Int) := do
  require (fun c => c.transaction = none ∧ c.rows = [] ∧ c.tokens ≠ [])
    "exact host export requires ordinary eager target state"
  m.observe
  let c ← get
  return (c.tokens, c.head)

def branchGreedy : ContextM Int := do
  m.observe
  let c ← get
  return m.next c.head

def decode (token : Int) : ContextM Unit :=
  m.attempt fun c => c.put (c.tokens ++ [token]) (c.tokens ++ [token]) c.tokens [] 1

/-- The rows of a continuation: `chain`, and the siblings with their offsets. -/
def layoutRows (chain : List Int) (siblings : List (Nat × Int)) : List Row :=
  (chain.mapIdx fun i token => ⟨chain.take i, token⟩) ++ siblings.map fun sibling => ⟨chain.take sibling.1, sibling.2⟩

/-- `continue_rows`, with the siblings of `set_verifier_siblings`. -/
def continueRows (tokens : List Int) (offsets : List Nat) : ContextM Unit := do
  require (fun c => c.tokens ≠ []) "P2 target continuation requires a completed nonempty prefix"
  require (fun _ => 2 ≤ tokens.length ∧ tokens.length ≤ m.capacity)
    "P2 target continuation row count is outside prepared capacity"
  require (fun _ => ∀ token ∈ tokens, InVocabulary token)
    "P2 target continuation token ID is outside the vocabulary"
  let chain := tokens.length - offsets.length
  require (fun _ => offsets = [] ∨ 2 ≤ chain ∧ offsets.length ≤ 7)
    "verifier sibling layout needs two chain rows"
  MonadExcept.ofExcept (throwIf (¬ ∀ offset ∈ offsets, 1 ≤ offset ∧ offset < chain)
    (.invalidArgument "verifier sibling offset outside the chain"))
  m.attempt fun c =>
    let rows := layoutRows (tokens.take chain) (offsets.zip (tokens.drop chain))
    { c.put (c.tokens ++ tokens) (c.tokens ++ (rows.getLast?.elim [] Row.path)) c.tokens rows
        tokens.length with
      prefixAvailable := c.transaction.isSome && c.fresh }

/-- The greedy choices after each row of the continuation. -/
def continuationGreedy : ContextM (List Int) := do
  m.observe
  let c ← get
  return c.rows.map fun row => m.next (c.base ++ row.path)

def finishExactContinuation : ContextM Unit := do
  require (fun c => c.transaction = none ∧ c.rows ≠ [] ∧ c.tapRows = c.rows.length)
    "finish exact continuation requires ordinary eager completed rows"
  m.attempt fun c => c.put c.tokens c.head c.base [] 1

/-! ## Transactions -/

def beginTransaction : ContextM Unit := do
  require (fun c => m.prepared = true ∧ c.transaction = none)
    "P2 target transaction is already active"
  require (fun c => c.tokens ≠ []) "P2 target transaction requires a completed nonempty forward"
  m.attemptIntact fun c =>
    { c with
      transaction := some ⟨c.tokens, c.head, c.tapRows⟩
      fresh := true, prefixAvailable := false
      resident_ok := by
        intro state h
        obtain ⟨htokens, hhead, hrows, htorn, -⟩ := c.resident_ok state h
        refine ⟨htokens, hhead, hrows, htorn, fun saved hsaved => ?_⟩
        obtain rfl := Option.some.inj hsaved
        exact ⟨htokens, hhead⟩ }

def promoteSiblingRow (source destination : Nat) : ContextM Unit := do
  require (fun c => c.transaction ≠ none ∧ c.prefixAvailable = true)
    "sibling promotion requires the immediate continuation of an active transaction"
  require (fun c => 1 ≤ destination ∧ destination < source ∧ source < c.rows.length)
    "sibling promotion rows"
  m.attempt fun c =>
    match c.rows[source]? with
    | some row =>
      { c.put (c.base ++ (c.rows.set destination row).map Row.token) c.head c.base
          (c.rows.set destination row) c.tapRows with
        prefixAvailable := c.prefixAvailable }
    | none => c

def retainTransactionPrefix (retained : Nat) : ContextM Unit := do
  require (fun c => c.transaction ≠ none ∧ c.prefixAvailable = true)
    "P2 retained prefix has no immediate continuation source"
  require (fun c => 0 < retained ∧ retained ≤ c.rows.length)
    "P2 retained prefix row count is invalid"
  m.attempt fun c =>
    if retained = c.rows.length then { c with prefixAvailable := false, fresh := false }
    else
      c.put (c.base ++ (c.rows.take retained).map Row.token)
        (c.base ++ (c.rows[retained - 1]?.elim [] Row.path)) c.base (c.rows.take retained) retained

def rollbackTransaction : ContextM Unit := do
  require (fun c => c.transaction ≠ none) "P2 target transaction rollback has no active snapshot"
  m.attempt fun c =>
    match c.transaction with
    | some s =>
      { c.put s.tokens s.head [] [] s.tapRows with
        transaction := none, torn := false, resident_ok := by simp [Context.put] }
    | none => c

def commitTransaction : ContextM Unit := do
  require (fun c => c.transaction ≠ none) "P2 target transaction commit has no active snapshot"
  m.attempt fun c =>
    { c with
      transaction := none, fresh := false, prefixAvailable := false
      resident_ok := by
        intro state h
        obtain ⟨htokens, hhead, hrows, htorn, -⟩ := c.resident_ok state h
        exact ⟨htokens, hhead, hrows, htorn, by simp⟩ }

def reset : ContextM Unit :=
  m.attempt fun c =>
    { c.put [] [] [] [] 0 with transaction := none, torn := false, resident_ok := by simp [Context.put] }

end Machine

end VoidInfer.Exl3.Outer
