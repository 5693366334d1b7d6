import VoidInfer.Base
import VoidInfer.Lib.PairMerge

/-
  The merge loop of `append_normalized_bpe_ids`: a word's nodes are linked in a vector, and a queue holds a candidate
  for every pair that had a rule when it was last looked at. Indices are `int`s, for words below 2^31 bytes; an index of
  -1 is `none`.
-/

namespace VoidInfer.Frontend

/-! ## The nodes and the queue -/

structure BpeMergeRule where
  rank : Int := 0
  result : Int := -1

structure BpeNode where
  symbol : Int := -1
  previous : Option Nat := none
  next : Option Nat := none
  finish : Nat := 0
  generation : Nat := 0
  live : Bool := true

structure BpeCandidate where
  rank : Int := 0
  left : Nat
  right : Nat
  result : Int := -1
  leftGeneration : Nat := 0
  rightGeneration : Nat := 0

/-- `merge_rules.find(merge_pair_key(left, right))`; the key is the two 32-bit symbols. -/
abbrev MergeRules := Int → Int → Option BpeMergeRule

/-- The vector of a word's nodes, by their indices. -/
abbrev BpeNodes := Nat → BpeNode

def setNode (nodes : BpeNodes) (index : Nat) (node : BpeNode) : BpeNodes :=
  fun i => if i = index then node else nodes i

def laterBpeCandidate (lhs rhs : BpeCandidate) : Bool :=
  if lhs.rank ≠ rhs.rank then lhs.rank > rhs.rank else lhs.left > rhs.left

/-- `std::priority_queue`, by its candidates: `top` and `pop` take one that is later than no
    other. Among several such the library may take any. -/
structure BpeQueue where
  pop : BpeCandidate → List BpeCandidate → BpeCandidate × List BpeCandidate
  perm : ∀ head tail, ((pop head tail).1 :: (pop head tail).2).Perm (head :: tail)
  first : ∀ head tail, ∀ other ∈ head :: tail, laterBpeCandidate (pop head tail).1 other = false

/-- A candidate of a list that is later than no other, and the rest in order. -/
def leastFirst : BpeCandidate → List BpeCandidate → BpeCandidate × List BpeCandidate
  | head, [] => (head, [])
  | head, next :: tail =>
    if laterBpeCandidate head (leastFirst next tail).1 then
      ((leastFirst next tail).1, head :: (leastFirst next tail).2)
    else (head, next :: tail)

theorem leastFirst_perm (head : BpeCandidate) (tail : List BpeCandidate) :
    ((leastFirst head tail).1 :: (leastFirst head tail).2).Perm (head :: tail) := by
  induction tail generalizing head with
  | nil => exact .refl _
  | cons next tail ih =>
    rw [leastFirst]
    split
    · exact (List.Perm.swap head _ _).trans ((ih next).cons head)
    · exact .refl _

theorem laterBpeCandidate_trans {a b c : BpeCandidate} (hab : laterBpeCandidate a b = false)
    (hbc : laterBpeCandidate b c = false) : laterBpeCandidate a c = false := by
  unfold laterBpeCandidate at *
  grind

theorem laterBpeCandidate_asymm {a b : BpeCandidate} (h : laterBpeCandidate a b = true) :
    laterBpeCandidate b a = false := by
  unfold laterBpeCandidate at *
  grind

theorem leastFirst_first (head : BpeCandidate) (tail : List BpeCandidate) :
    ∀ other ∈ head :: tail, laterBpeCandidate (leastFirst head tail).1 other = false := by
  induction tail generalizing head with
  | nil => simp [leastFirst, laterBpeCandidate]
  | cons next tail ih =>
    intro other hother
    rw [leastFirst]
    split
    · next hlater =>
      rcases List.mem_cons.mp hother with rfl | hother
      · exact laterBpeCandidate_asymm hlater
      · exact ih next other hother
    · next hlater =>
      rcases List.mem_cons.mp hother with rfl | hother
      · simp [laterBpeCandidate]
      · exact laterBpeCandidate_trans (by simpa using hlater) (ih next other hother)

/-- The queue as a plain list, searched at each `top`. -/
def BpeQueue.ofList : BpeQueue := ⟨leastFirst, leastFirst_perm, leastFirst_first⟩

/-- The lambda `push_candidate`. -/
def pushCandidate (rules : MergeRules) (nodes : BpeNodes) (queue : List BpeCandidate) :
    Option Nat → List BpeCandidate
  | none => queue
  | some left =>
    if !(nodes left).live then queue else
    match (nodes left).next with
    | none => queue
    | some right =>
      match rules (nodes left).symbol (nodes right).symbol with
      | none => queue
      | some rule =>
        { rank := rule.rank, left, right, result := rule.result
          leftGeneration := (nodes left).generation
          rightGeneration := (nodes right).generation } :: queue

/-- The test that a candidate is no longer what it was pushed for. -/
def stale (nodes : BpeNodes) (candidate : BpeCandidate) : Bool :=
  !(nodes candidate.left).live || !(nodes candidate.right).live ||
    (nodes candidate.left).next != some candidate.right ||
    (nodes candidate.left).generation != candidate.leftGeneration ||
    (nodes candidate.right).generation != candidate.rightGeneration

/-- The merge of a candidate's nodes into the left one. -/
def mergeNodes (nodes : BpeNodes) (candidate : BpeCandidate) : BpeNodes :=
  let left := nodes candidate.left
  let right := nodes candidate.right
  let nodes := setNode nodes candidate.left
    { left with
      symbol := candidate.result
      finish := right.finish
      generation := left.generation + 1
      next := right.next }
  let nodes := setNode nodes candidate.right
    { right with live := false, generation := right.generation + 1 }
  match right.next with
  | none => nodes
  | some after => setNode nodes after { nodes after with previous := some candidate.left }

/-- The queue after a merge: the pairs on both sides of the merged node. -/
def pushNeighbours (rules : MergeRules) (nodes : BpeNodes) (left : Nat) (queue : List BpeCandidate) :
    List BpeCandidate :=
  pushCandidate rules nodes (pushCandidate rules nodes queue (nodes left).previous) (some left)

/-- The loop over the queue; none when `fuel` rounds do not empty it. -/
def mergeLoop (heap : BpeQueue) (rules : MergeRules) : Nat → BpeNodes → List BpeCandidate → Option BpeNodes
  | _, nodes, [] => some nodes
  | 0, _, _ :: _ => none
  | fuel + 1, nodes, head :: tail =>
    let (candidate, queue) := heap.pop head tail
    if stale nodes candidate then mergeLoop heap rules fuel nodes queue
    else
      let nodes := mergeNodes nodes candidate
      mergeLoop heap rules fuel nodes (pushNeighbours rules nodes candidate.left queue)

/-- A token of a word, and where it ends in the word. -/
structure BpePiece where
  symbol : Int
  finish : Nat

/-- The walk over the links that are left. -/
def emit (nodes : BpeNodes) : Nat → Option Nat → List BpePiece
  | 0, _ => []
  | _, none => []
  | fuel + 1, some node => ⟨(nodes node).symbol, (nodes node).finish⟩ :: emit nodes fuel (nodes node).next

/-- The symbols of a word's bytes. -/
def byteSymbols (byteTokenIds : UInt8 → Int) (word : List UInt8) : Except Exn (List Int) :=
  word.mapM fun byte =>
    if byteTokenIds byte < 0 then
      .error (.invalidArgument "Tokenizer::encode produced byte symbol outside vocabulary")
    else .ok (byteTokenIds byte)

/-- The nodes of a word before any merge. -/
def startNodes (symbols : List Int) : BpeNodes := fun index =>
  { symbol := symbols.getD index (-1)
    previous := if index = 0 then none else some (index - 1)
    next := if index + 1 = symbols.length then none else some (index + 1)
    finish := index + 1 }

/-- The candidates of a word before any merge. -/
def startQueue (rules : MergeRules) (nodes : BpeNodes) (count : Nat) : List BpeCandidate :=
  (List.range (count - 1)).foldl (fun queue index => pushCandidate rules nodes queue (some index)) []

/-- A word's tokens as the loop gives them. -/
def mergeWord (heap : BpeQueue) (rules : MergeRules) (symbols : List Int) (fuel : Nat) : Option (List BpePiece) :=
  let nodes := startNodes symbols
  (mergeLoop heap rules fuel nodes (startQueue rules nodes symbols.length)).map fun nodes =>
    emit nodes symbols.length (if symbols.isEmpty then none else some 0)

/-- A word's tokens, or the exception of a byte without a symbol. -/
def encodeWord (heap : BpeQueue) (rules : MergeRules) (byteTokenIds : UInt8 → Int) (word : List UInt8)
    (fuel : Nat) : Except Exn (Option (List BpePiece)) := do
  let symbols ← byteSymbols byteTokenIds word
  .ok (mergeWord heap rules symbols fuel)

/-! ## Plain byte-pair encoding -/

/-- The rule of two adjacent pieces: the merged piece ends where the right one does. -/
def pieceRule (rules : MergeRules) (left right : BpePiece) : Option (Int × BpePiece) :=
  (rules left.symbol right.symbol).map fun rule => (rule.rank, ⟨rule.result, right.finish⟩)

/-- The byte symbols of a word, each with its end. -/
def bytePieces (symbols : List Int) : List BpePiece := symbols.mapIdx fun index symbol => ⟨symbol, index + 1⟩

/-! ## The merge of two nodes -/

section MergeNodes

variable {nodes : BpeNodes} {candidate : BpeCandidate}

section
variable (hne : candidate.left ≠ candidate.right)
include hne

theorem mergeNodes_symbol (i : Nat) :
    (mergeNodes nodes candidate i).symbol = if i = candidate.left then candidate.result else (nodes i).symbol := by
  unfold mergeNodes setNode
  split <;> grind

theorem mergeNodes_finish (i : Nat) :
    (mergeNodes nodes candidate i).finish =
      if i = candidate.left then (nodes candidate.right).finish else (nodes i).finish := by
  unfold mergeNodes setNode
  split <;> grind

theorem mergeNodes_generation (i : Nat) :
    (mergeNodes nodes candidate i).generation =
      if i = candidate.left ∨ i = candidate.right then (nodes i).generation + 1 else (nodes i).generation := by
  unfold mergeNodes setNode
  split <;> grind

end

theorem mergeNodes_live (i : Nat) :
    (mergeNodes nodes candidate i).live = if i = candidate.right then false else (nodes i).live := by
  unfold mergeNodes setNode
  split <;> grind

theorem mergeNodes_next (i : Nat) :
    (mergeNodes nodes candidate i).next =
      if i = candidate.left then (nodes candidate.right).next else (nodes i).next := by
  unfold mergeNodes setNode
  split <;> grind

theorem mergeNodes_previous (i : Nat) :
    (mergeNodes nodes candidate i).previous =
      if (nodes candidate.right).next = some i then some candidate.left else (nodes i).previous := by
  unfold mergeNodes setNode
  split <;> grind

end MergeNodes

/-! ## What the queue gains -/

section PushCandidate

variable {rules : MergeRules} {nodes : BpeNodes} {queue : List BpeCandidate} {candidate : BpeCandidate}

/-- The candidate of a pair as the nodes are now. -/
def current (nodes : BpeNodes) (rule : BpeMergeRule) (left right : Nat) : BpeCandidate where
  rank := rule.rank
  left := left
  right := right
  result := rule.result
  leftGeneration := (nodes left).generation
  rightGeneration := (nodes right).generation

theorem pushCandidate_subset (left : Option Nat) (h : candidate ∈ queue) :
    candidate ∈ pushCandidate rules nodes queue left := by
  unfold pushCandidate
  grind

theorem length_pushCandidate (left : Option Nat) : (pushCandidate rules nodes queue left).length ≤ queue.length + 1 := by
  unfold pushCandidate
  grind

theorem mem_pushCandidate {left : Option Nat} (h : candidate ∈ pushCandidate rules nodes queue left) :
    candidate ∈ queue ∨ ∃ l r rule, left = some l ∧ (nodes l).next = some r ∧
      rules (nodes l).symbol (nodes r).symbol = some rule ∧ candidate = current nodes rule l r := by
  unfold pushCandidate at h
  unfold current
  grind

theorem current_mem_pushCandidate {l r : Nat} {rule : BpeMergeRule} (hlive : (nodes l).live = true)
    (hnext : (nodes l).next = some r) (hrule : rules (nodes l).symbol (nodes r).symbol = some rule) :
    current nodes rule l r ∈ pushCandidate rules nodes queue (some l) := by
  unfold pushCandidate current
  grind

end PushCandidate

end VoidInfer.Frontend
