import VoidInfer.Base
import VoidInfer.Lib.Throwing

/-
  `Exl3TokenHistory`: token lists that share their pages. A history is a root in a store of immutable nodes: pages of 64
  tokens under index nodes of 32 edges. Appending makes new nodes for the tail page and its path and keeps every other
  node, so that all forks of a history live side by side.

  Nodes are named by their place in the store; two `shared_ptr` are equal when they name the same node. No node is ever
  changed. Making one may throw: the allocator, the metadata reservation and the test hook's countdown all can.
-/

namespace VoidInfer.Exl3

open Throwing MonadExcept

/-- `Exl3TokenHistory::Node`: a `Page` with its rows and all 64 entries, or the `Edges`. -/
inductive Node where
  | page (rows : Nat) (tokens : List Int)
  | edges (edges : List (Option Nat))

/-- The store, and what the next node constructions will meet. -/
structure NodeStore where
  nodes : List Node := []
  allocationFaultCountdown : Nat := 0
  /-- What the reservation, the allocator or the attachment of the credit throws, if
      anything, at each construction to come. -/
  refusals : List (Option Exn) := []

/-- Code that makes nodes. -/
abbrev NodeExec := EStateM Exn NodeStore

/-- `64 << (5 * level)`: the tokens under a node of that level. -/
def nodeRows (level : Nat) : Nat := 64 <<< (5 * level)

/-- `Page{}.tokens`. -/
def emptyPage : List Int := List.replicate 64 0

/-- `Edges{}`. -/
def emptyEdges : List (Option Nat) := List.replicate 32 none

def makeNode (value : Node) : NodeExec Nat := do
  let s ← get
  modify fun s => { s with
    allocationFaultCountdown := s.allocationFaultCountdown - 1, refusals := s.refusals.tail }
  if s.allocationFaultCountdown = 1 then throw .badAlloc
  else
    match s.refusals.headD none with
    | some e => throw e
    | none => do
      modify fun s => { s with nodes := s.nodes ++ [value] }
      return s.nodes.length

/-- The page that `append_pages` starts from at level 0. -/
def pageOf (nodes : List Node) (node : Option Nat) : Except Exn (List Int) :=
  match node with
  | none => .ok emptyPage
  | some id =>
    match nodes[id]? with
    | some (.page _ tokens) => .ok tokens
    | _ => .error .terminate

/-- The edges that `append_pages` starts from above level 0. -/
def edgesOf (nodes : List Node) (promotedRoot : Bool) (node : Option Nat) : Except Exn (List (Option Nat)) :=
  if promotedRoot then .ok (emptyEdges.set 0 node)
  else
    match node with
    | none => .ok emptyEdges
    | some id =>
      match nodes[id]? with
      | some (.edges edges) => .ok edges
      | _ => .error .terminate

/-- `std::copy_n` of `part` into `page` from entry `at` on. -/
def copyInto (page part : List Int) (start : Nat) : List Int :=
  page.take start ++ part ++ page.drop (start + part.length)

def appendPages (first stop : Nat) (tokens : List Int) :
    Nat → Option Nat → Nat → Bool → NodeExec Nat
  | 0, node, base, _ => do
    let start := max base first
    let limit := min (base + nodeRows 0) stop
    let s ← get
    let page ← MonadExcept.ofExcept (pageOf s.nodes node)
    let part := (tokens.drop (start - first)).take (limit - start)
    makeNode (.page (limit - base) (copyInto page part (start - base)))
  | level + 1, node, base, promotedRoot => do
    let start := max base first
    let limit := min (base + nodeRows (level + 1)) stop
    let s ← get
    let edges ← MonadExcept.ofExcept (edgesOf s.nodes promotedRoot node)
    let childRows := nodeRows level
    let firstSlot := (start - base) / childRows
    let lastSlot := (limit - 1 - base) / childRows
    let edges ← (List.range' firstSlot (lastSlot + 1 - firstSlot)).foldlM (fun edges slot => do
      let child ← appendPages first stop tokens level (edges.getD slot none)
        (base + slot * childRows) false
      return edges.set slot (some child)) edges
    makeNode (.edges edges)

structure Exl3TokenHistory where
  root : Option Nat := none
  level : Nat := 0
  position : Nat := 0
  fingerprint : Nat := 1469598103934665603

/-- The byte loop of `extend_fingerprint` for one token. -/
def extendToken (value : Nat) (token : Int) : Nat :=
  (List.range 8).foldl (fun value i =>
    (value ^^^ ((token % 2 ^ 64).toNat >>> (8 * i)) % 2 ^ 8) * 1099511628211 % 2 ^ 64) value

def extendFingerprint (value : Nat) (tokens : List Int) : Nat := tokens.foldl extendToken value

namespace Exl3TokenHistory

/-- The loop of `append` that raises the level: root, level and `promoted_root` after it.
    Five levels above the pages are enough for every 32-bit length. -/
def promote (stop : Nat) : Nat → Option Nat → Nat → Bool → NodeExec (Option Nat × Nat × Bool)
  | 0, root, level, promotedRoot => pure (root, level, promotedRoot)
  | fuel + 1, root, level, promotedRoot =>
    if stop > nodeRows level then
      if root.isSome ∧ stop > nodeRows (level + 1) then do
        let node ← makeNode (.edges (emptyEdges.set 0 root))
        promote stop fuel (some node) (level + 1) promotedRoot
      else promote stop fuel root (level + 1) root.isSome
    else pure (root, level, promotedRoot)

def append (h : Exl3TokenHistory) (tokens : List Int) : NodeExec Exl3TokenHistory := do
  MonadExcept.ofExcept (throwIf (tokens.length > int32Max - h.position) (.invalidArgument "token history extent"))
  MonadExcept.ofExcept (throwIf (∃ token ∈ tokens, token < 0 ∨ token ≥ 248320)
    (.invalidArgument "token history token extent"))
  if tokens = [] then return h
  else
    let stop := h.position + tokens.length
    let (root, level, promotedRoot) ← promote stop 6 h.root h.level false
    let root ← appendPages h.position stop tokens level root 0 promotedRoot
    return { root := some root, level, position := stop
             fingerprint := extendFingerprint h.fingerprint tokens }

/-- `page_node` from a node of the given level. -/
def pageNode (nodes : List Node) (index : Nat) : Nat → Option Nat → Option Node
  | 0, node => node.bind fun id => nodes[id]?
  | level + 1, node =>
    match node.bind fun id => nodes[id]? with
    | some (.edges edges) => pageNode nodes index level
        (edges.getD ((index >>> (5 * level)) % 32) none)
    | _ => none

/-- `std::get<Page>(page_node(index)->data)`. -/
def pageAt (h : Exl3TokenHistory) (nodes : List Node) (index : Nat) : Except Exn (Nat × List Int) :=
  match pageNode nodes index h.level h.root with
  | some (.page rows tokens) => .ok (rows, tokens)
  | _ => .error .terminate

/-- `same_nodes`; the recursion is no deeper than the tree. -/
def sameNodes (nodes : List Node) : Nat → Option Nat → Option Nat → Bool
  | 0, _, _ => false
  | depth + 1, left, right =>
    if left = right then true
    else
      match left.bind (fun id => nodes[id]?), right.bind (fun id => nodes[id]?) with
      | some (.page rows tokens), some (.page rows' tokens') =>
        rows = rows' && tokens.take rows = tokens'.take rows
      | some (.edges edges), some (.edges edges') =>
        (List.range 32).all fun i =>
          sameNodes nodes depth (edges.getD i none) (edges'.getD i none)
      | _, _ => false

def sameTokens (h : Exl3TokenHistory) (nodes : List Node) (other : Exl3TokenHistory) : Bool :=
  h.position = other.position && sameNodes nodes (h.level + 1) h.root other.root

/-- The loop of `equals`. -/
def equalsFrom (h : Exl3TokenHistory) (nodes : List Node) (tokens : List Int) :
    Nat → Nat → Except Exn Bool
  | 0, offset => .ok (offset = tokens.length)
  | fuel + 1, offset =>
    if offset < tokens.length then do
      let (rows, page) ← h.pageAt nodes (offset / 64)
      if page.take rows = (tokens.drop offset).take rows then
        equalsFrom h nodes tokens fuel (offset + rows)
      else return false
    else .ok (offset = tokens.length)

def equals (h : Exl3TokenHistory) (nodes : List Node) (tokens : List Int) : Except Exn Bool :=
  if tokens.length ≠ h.position then .ok false
  else h.equalsFrom nodes tokens tokens.length 0

/-- `std::mismatch`: how many entries agree from the start. -/
def mismatch : List Int → List Int → Nat
  | x :: xs, y :: ys => if x = y then mismatch xs ys + 1 else 0
  | _, _ => 0

/-- The loop of `common_prefix`. -/
def commonPrefixFrom (h : Exl3TokenHistory) (nodes : List Node) (tokens : List Int) (limit : Nat) :
    Nat → Nat → Except Exn Nat
  | 0, offset => .ok offset
  | fuel + 1, offset =>
    if offset < limit then do
      let (rows, page) ← h.pageAt nodes (offset / 64)
      let rows := min rows (limit - offset)
      let same := mismatch (page.take rows) (tokens.drop offset)
      if same < rows then return offset + same
      else commonPrefixFrom h nodes tokens limit fuel (offset + same)
    else .ok offset

def commonPrefix (h : Exl3TokenHistory) (nodes : List Node) (tokens : List Int) : Except Exn Nat :=
  let limit := min tokens.length h.position
  h.commonPrefixFrom nodes tokens limit limit 0

def suffix (h : Exl3TokenHistory) (nodes : List Node) (first : Int) : Except Exn (List Int) := do
  throwIf (first < 0 ∨ first > h.position) (.invalidArgument "token replay suffix extent")
  let start := first.toNat
  let count := (h.position + 63) / 64
  (List.range' (start / 64) (count - start / 64)).foldlM (fun result index => do
    let (rows, page) ← h.pageAt nodes index
    let skip := start - index * 64
    return result ++ (page.take rows).drop skip) []

end Exl3TokenHistory
end VoidInfer.Exl3
