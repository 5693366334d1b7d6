import VoidInfer.Exl3.TokenHistory
import VoidInfer.Exl3.VeriCacheRequest
import VoidInfer.Lib.BinarySearch

/-
  `Exl3VeriCachePrefixIndex`: the bounded set of retained request roots. `entries_` is in order of publication or last
  refresh; `length_order_` lists the entries by length, for the search of the longest prefix. Every operation holds the
  index's mutex, so an operation is a step. How many bytes a set of roots retains is a parameter.
-/

namespace VoidInfer.Exl3.PrefixCache
open MonadExcept (ofExcept)

open Throwing

/-! ## Prepared identities -/

structure TokenSpan where
  first : Nat
  count : Nat
deriving DecidableEq

/-- `VisionItem`; `content` stands for everything that `same_item` compares besides the spans. -/
structure VisionItem where
  content : Nat
  tokenSpans : List TokenSpan
deriving DecidableEq

/-- `prefix_item_count`: the items before token `tokens`; none when one of them is divided. -/
def prefixItemCount (tokens : Nat) : List VisionItem → Nat → Bool → Option Nat
  | [], count, _ => some count
  | item :: items, count, sawSuffix =>
    match item.tokenSpans.head?, item.tokenSpans.getLast? with
    | some first, some last =>
      if first.count = 0 ∨ last.count = 0 ∨ last.first > sizeMax - last.count then none
      else if last.first + last.count ≤ tokens then
        if sawSuffix then none else prefixItemCount tokens items (count + 1) sawSuffix
      else if first.first ≥ tokens then prefixItemCount tokens items count true
      else none
    | _, _ => none

structure ResidentPrefixIdentity where
  tokenTypes : List Nat
  /-- One list of positions for each of the three axes. -/
  positions : List (List Int)
  visionItems : List VisionItem
  rewriteExecutionFrontiers : List Nat

namespace ResidentPrefixIdentity

def size (identity : ResidentPrefixIdentity) : Nat := identity.tokenTypes.length

/-- `prefix_equals`. The rewrite frontiers are sorted, so `upper_bound` ends the ones up to
    `count`. -/
def prefixEquals (left right : ResidentPrefixIdentity) (count : Nat) : Bool :=
  decide (count ≤ left.size ∧ count ≤ right.size ∧
    left.tokenTypes.take count = right.tokenTypes.take count ∧
    left.positions.map (·.take count) = right.positions.map (·.take count) ∧
    (prefixItemCount count left.visionItems 0 false).isSome ∧
    prefixItemCount count left.visionItems 0 false = prefixItemCount count right.visionItems 0 false ∧
    left.visionItems.take ((prefixItemCount count left.visionItems 0 false).getD 0) =
      right.visionItems.take ((prefixItemCount count right.visionItems 0 false).getD 0) ∧
    left.rewriteExecutionFrontiers.takeWhile (· ≤ count) =
      right.rewriteExecutionFrontiers.takeWhile (· ≤ count))

theorem prefixEquals_comm (left right : ResidentPrefixIdentity) (count : Nat) :
    left.prefixEquals right count = right.prefixEquals left count := by
  unfold prefixEquals
  rw [decide_eq_decide]
  constructor
  · rintro ⟨h1, h2, h3, h4, h5, h6, h7, h8⟩
    exact ⟨h2, h1, h3.symm, h4.symm, h6 ▸ h5, h6.symm, h7.symm, h8.symm⟩
  · rintro ⟨h1, h2, h3, h4, h5, h6, h7, h8⟩
    exact ⟨h2, h1, h3.symm, h4.symm, h6 ▸ h5, h6.symm, h7.symm, h8.symm⟩

theorem prefixEquals_trans {a b c : ResidentPrefixIdentity} {count : Nat}
    (hab : a.prefixEquals b count = true) (hbc : b.prefixEquals c count = true) :
    a.prefixEquals c count = true := by
  unfold prefixEquals at *
  rw [decide_eq_true_eq] at *
  obtain ⟨h1, h2, h3, h4, h5, h6, h7, h8⟩ := hab
  obtain ⟨g1, g2, g3, g4, g5, g6, g7, g8⟩ := hbc
  exact ⟨h1, g2, h3.trans g3, h4.trans g4, h5, h6.trans g6, h7.trans g7, h8.trans g8⟩

end ResidentPrefixIdentity

structure Exl3PreparedIdentity where
  identity : ResidentPrefixIdentity
  ropeDelta : Int
  reusable : Bool

namespace Exl3PreparedIdentity

def size (prepared : Exl3PreparedIdentity) : Nat := prepared.identity.size

def prefixPositionsEqual (left right : Exl3PreparedIdentity) (count : Nat) : Bool :=
  left.reusable && right.reusable && left.identity.prefixEquals right.identity count

def prefixEquals (left right : Exl3PreparedIdentity) (count : Nat) : Bool :=
  left.reusable && right.reusable && left.ropeDelta == right.ropeDelta &&
    left.identity.prefixEquals right.identity count

def equals (left right : Exl3PreparedIdentity) : Bool :=
  left.size == right.size && left.prefixEquals right left.size

theorem equals_comm (left right : Exl3PreparedIdentity) : left.equals right = right.equals left := by
  rw [Bool.eq_iff_iff]
  simp only [equals, prefixEquals, Bool.and_eq_true, beq_iff_eq]
  constructor
  · rintro ⟨hsize, ⟨⟨h1, h2⟩, h3⟩, h4⟩
    exact ⟨hsize.symm, ⟨⟨h2, h1⟩, h3.symm⟩, by rw [ResidentPrefixIdentity.prefixEquals_comm, ← hsize, h4]⟩
  · rintro ⟨hsize, ⟨⟨h1, h2⟩, h3⟩, h4⟩
    exact ⟨hsize.symm, ⟨⟨h2, h1⟩, h3.symm⟩, by rw [ResidentPrefixIdentity.prefixEquals_comm, ← hsize, h4]⟩

theorem equals_trans {a b c : Exl3PreparedIdentity} (hab : a.equals b = true) (hbc : b.equals c = true) :
    a.equals c = true := by
  simp only [equals, prefixEquals, Bool.and_eq_true, beq_iff_eq] at *
  obtain ⟨hsize, ⟨⟨h1, h2⟩, h3⟩, h4⟩ := hab
  obtain ⟨hsize', ⟨⟨g1, g2⟩, g3⟩, g4⟩ := hbc
  rw [← hsize] at g4
  exact ⟨hsize.trans hsize', ⟨⟨h1, g2⟩, h3.trans g3⟩, ResidentPrefixIdentity.prefixEquals_trans h4 g4⟩

end Exl3PreparedIdentity

/-! ## Roots and entries -/

/-- A shared root: its address, the request there, and what else the index reads of it. -/
structure Root where
  address : Nat
  request : Exl3VeriCacheRequest
  preparedIdentity : Option Exl3PreparedIdentity := none
  /-- `state()->rope_offset()`. -/
  ropeOffset : Int := 0

namespace Root

/-- The tokens of `history_`, which `same_tokens`, `matches_tokens` and the hashes read. -/
def tokens (root : Root) : List Int := root.request.history

def tokenCount (root : Root) : Nat := root.tokens.length

def sameInputIdentity (left right : Root) : Bool :=
  match left.preparedIdentity, right.preparedIdentity with
  | some a, some b => a.equals b
  | none, none => true
  | _, _ => false

end Root

structure Entry where
  hash : Nat
  generation : Nat
  modelIdentity : Nat
  contract : List UInt8
  root : Root
  preparationMicroseconds : Option Nat := none
  observedAccesses : Option Nat := none
  lookupSelections : Nat := 0
  shared : Bool := false

/-- `StorageStats`, without the constant size of the inline order. -/
structure StorageStats where
  entries : Nat
  payloadAllocatedBytes : Nat
  identityAllocatedBytes : Nat
  laneBackedBytes : Nat
  accountedBytes : Nat

structure RetentionDecision where
  root : Nat
  generation : Nat
  required : Bool := true
  valuePerByte : Option Nat := none

def maximumEntries : Nat := 64

structure PrefixIndex where
  capacity : Nat
  sharedCapacity : Nat
  hasher : Option (List Int → List UInt8 → Nat)
  demand : Option (Root → Option Nat) := none
  entries : List Entry := []
  lengthOrder : List Nat := List.replicate maximumEntries 0
  nextGeneration : Nat := 1
  failPublicationGrowth : Bool := false
  failPolicyCommit : Bool := false

/-- Code that holds the index's mutex. -/
abbrev Exec := EStateM Exn PrefixIndex

/-- The constructor. -/
def create (capacity : Nat) (hasher : Option (List Int → List UInt8 → Nat)) (sharedCapacity : Nat) :
    Except Exn PrefixIndex := do
  throwIf (capacity = 0) (.invalidArgument "prefix index capacity must be positive")
  throwIf (sharedCapacity > maximumEntries ∨ capacity > maximumEntries - sharedCapacity)
    (.invalidArgument "prefix index capacity exceeds bounded range index")
  return { capacity, sharedCapacity, hasher }

/-! ## Helpers -/

def hashContract (value : Nat) (contract : List UInt8) : Nat :=
  let byte (value : Nat) (input : UInt8) := (value ^^^ input.toNat) * 1099511628211 % 2 ^ 64
  byte (contract.foldl byte value) 0xff

/-- The hash of a token list under a contract. A root's `token_fingerprint()` is the
    fingerprint of its tokens, so roots and queries are hashed alike. -/
def hashOf (index : PrefixIndex) (tokens : List Int) (contract : List UInt8) : Nat :=
  match index.hasher with
  | some hasher => hasher tokens contract
  | none => hashContract (extendFingerprint 1469598103934665603 tokens) contract

def sameIdentity (left right : Entry) : Bool :=
  left.hash == right.hash && left.modelIdentity == right.modelIdentity &&
    left.contract == right.contract && left.root.tokens == right.root.tokens &&
    left.root.sameInputIdentity right.root

/-- `matches_prepared`; `asPrefix` is its argument `prefix`. -/
def matchesPrepared (entry : Entry) (incoming : Option Exl3PreparedIdentity) (asPrefix : Bool) : Bool :=
  match entry.root.preparedIdentity, incoming with
  | some resident, some incoming =>
    if asPrefix then resident.prefixEquals incoming entry.root.tokenCount else resident.equals incoming
  | none, none => true
  | _, _ => false

def classCount (shared : Bool) (entries : List Entry) : Nat :=
  entries.countP fun entry => entry.shared == shared

/-- The comparison of `rebuild_lengths`: longer first, then newer. -/
def orderedBefore (entries : List Entry) (a b : Nat) : Bool :=
  let left : Nat := ((entries[a]?).map (·.root.tokenCount)).getD 0
  let right : Nat := ((entries[b]?).map (·.root.tokenCount)).getD 0
  if left ≠ right then left > right else a > b

/-- What `std::sort` makes of the positions; the comparison is a total order on them. -/
def sortedOrder (entries : List Entry) : List Nat :=
  (List.range entries.length).mergeSort fun a b => !orderedBefore entries b a

/-- `rebuild_lengths`. Writing past the array is undefined, which ends the run here. -/
def rebuildLengths : Exec Unit := do
  let index ← get
  if index.entries.length ≤ maximumEntries then
    set { index with lengthOrder := sortedOrder index.entries ++ index.lengthOrder.drop index.entries.length }
  else throw .terminate

/-- Replaces the entries and rebuilds the order. -/
def setEntries (entries : List Entry) : Exec Unit := do
  modify fun index => { index with entries }
  rebuildLengths

def takeGeneration : Exec Nat := do
  let index ← get
  if index.nextGeneration = uint64Max then throw (.overflowError "prefix index generation exhausted")
  else do
    set { index with nextGeneration := index.nextGeneration + 1 }
    return index.nextGeneration

/-- The checks of `publish` and `make_entry` on a root, with the model identity it has. -/
def checkRoot (root : Option Root) (contract : List UInt8) : Except Exn (Root × Nat) :=
  match root.bind fun root => root.request.state.map fun state => (root, state) with
  | none => .error (.invalidArgument "prefix index root missing")
  | some (root, state) => do
    throwIf (contract = []) (.invalidArgument "prefix index compatibility contract missing")
    throwIf (root.tokenCount = 0 ∨ (root.tokenCount : Int) ≠ state.position % 2 ^ 64)
      (.invalidArgument "prefix index token/state extent mismatch")
    return (root, state.modelIdentity)

def makeEntry (root : Option Root) (contract : List UInt8) : Exec Entry := do
  let (root, modelIdentity) ← ofExcept (checkRoot root contract)
  let index ← get
  let generation ← takeGeneration
  return { hash := hashOf index root.tokens contract, generation, modelIdentity, contract, root }

/-- `demand_victim`: the first eligible entry nobody waits for, else the one needed last;
    `best` is the entry needed last so far, with its rank. -/
def demandVictimFrom (demand : Option (Root → Option Nat)) (eligible : Entry → Bool) :
    Nat → Option (Nat × Nat) → List Entry → Option Nat
  | _, best, [] => best.map (·.1)
  | i, best, entry :: rest =>
    if eligible entry then
      match demand.bind fun demand => demand entry.root with
      | none => some i
      | some rank =>
        let next := if best.all fun best => rank > best.2 then some (i, rank) else best
        demandVictimFrom demand eligible (i + 1) next rest
    else demandVictimFrom demand eligible (i + 1) best rest

def demandVictim (demand : Option (Root → Option Nat)) (eligible : Entry → Bool) (entries : List Entry) :
    Option Nat :=
  demandVictimFrom demand eligible 0 none entries

/-- The oldest conversation root, or else the oldest root, in the order of `demand_victim`. -/
def oldestVictim (demand : Option (Root → Option Nat)) (entries : List Entry) : Option Nat :=
  (demandVictim demand (fun entry => !entry.shared) entries).or
    (demandVictim demand (fun _ => true) entries)

/-- The victim of a retention policy: the first eligible entry, or the one of least value when
    the value of every eligible entry is known. -/
def policyVictimFrom (measured : Bool) (eligible : RetentionDecision × Entry → Bool) :
    Nat → Option (Nat × Nat) → List (RetentionDecision × Entry) → Option Nat
  | _, best, [] => best.map (·.1)
  | i, best, item :: rest =>
    let value := item.1.valuePerByte.getD 0
    let next := if eligible item && best.all (fun best => measured && value < best.2) then some (i, value)
      else best
    policyVictimFrom measured eligible (i + 1) next rest

def policyVictim (eligible : RetentionDecision × Entry → Bool) (items : List (RetentionDecision × Entry)) :
    Option Nat :=
  policyVictimFrom (items.all fun item => !eligible item || item.1.valuePerByte.isSome) eligible 0 none items

/-! ## Lookups -/

/-- Whether an entry answers a query: the hash is only a filter. -/
def answers (hash model : Nat) (contract : List UInt8) (prepared : Option Exl3PreparedIdentity)
    (tokens : List Int) (entry : Entry) : Bool :=
  entry.hash == hash && entry.modelIdentity == model && entry.contract == contract &&
    entry.root.tokenCount == tokens.length && matchesPrepared entry prepared false &&
    entry.root.tokens == tokens.take entry.root.tokenCount

/-- `selected_root`: the selection is counted, up to the counter's limit. -/
def selectedRoot (position : Nat) (entry : Entry) : Exec Root := do
  modify fun index => { index with
    entries := index.entries.set position
      { entry with lookupSelections := min (entry.lookupSelections + 1) uint64Max } }
  return entry.root

/-- The position of the newest entry that `accept` takes. -/
def newest (accept : Entry → Bool) (entries : List Entry) : Option Nat :=
  (entries.reverse.findIdx? accept).map fun i => entries.length - 1 - i

def lookup (model : Nat) (tokens : List Int) (contract : List UInt8)
    (prepared : Option Exl3PreparedIdentity) : Exec (Option Root) := do
  if tokens = [] ∨ contract = [] then return none
  else do
    let index ← get
    let hash := hashOf index tokens contract
    match newest (answers hash model contract prepared tokens) index.entries with
    | none => return none
    | some position =>
      match index.entries[position]? with
      | none => return none
      | some entry => some <$> selectedRoot position entry

/-- The loop over the candidates of `length_order_`, from the longest that fits on. -/
def firstAccepted (entries : List Entry) (minimumTokens : Nat) (accept : Entry → Bool) :
    List Nat → Option (Nat × Entry)
  | [] => none
  | position :: rest =>
    match entries[position]? with
    | none => none
    | some entry =>
      if entry.root.tokenCount < minimumTokens then none
      else if accept entry then some (position, entry)
      else firstAccepted entries minimumTokens accept rest

/-- The candidate loop after `std::lower_bound`. -/
def longestAccepted (index : PrefixIndex) (tokens minimumTokens : Nat) (accept : Entry → Bool) :
    Option (Nat × Entry) :=
  let order := index.lengthOrder.take index.entries.length
  let longer (i : Nat) : Bool :=
    (((order[i]?).bind fun position => index.entries[position]?).map (·.root.tokenCount)).getD 0 > tokens
  firstAccepted index.entries minimumTokens accept
    (order.drop (BinarySearch.lowerBound longer 0 index.entries.length))

/-- What `lookup_longest` accepts of an entry short enough for the query. -/
def continues (model : Nat) (contract : List UInt8) (prepared : Option Exl3PreparedIdentity)
    (tokens : List Int) (entry : Entry) : Bool :=
  entry.modelIdentity == model && entry.contract == contract && matchesPrepared entry prepared true &&
    entry.root.tokens == tokens.take entry.root.tokenCount

/-- What `lookup_longest_prepared_positions` accepts. -/
def continuesPositions (model : Nat) (contract : List UInt8) (incoming : Exl3PreparedIdentity)
    (tokens : List Int) (entry : Entry) : Bool :=
  entry.modelIdentity == model && entry.contract == contract &&
    (match entry.root.preparedIdentity with
      | none => false
      | some resident =>
        entry.root.request.state.isSome && entry.root.ropeOffset == resident.ropeDelta &&
          resident.prefixPositionsEqual incoming entry.root.tokenCount) &&
    entry.root.tokens == tokens.take entry.root.tokenCount

/-- The common part of the two searches for the longest prefix. -/
def lookupLongestBy (tokens : List Int) (contract : List UInt8) (minimumTokens : Nat)
    (accept : Entry → Bool) : Exec (Option Root) := do
  if tokens = [] ∨ contract = [] ∨ minimumTokens > tokens.length then return none
  else do
    let index ← get
    match longestAccepted index tokens.length minimumTokens accept with
    | none => return none
    | some (position, entry) => some <$> selectedRoot position entry

def lookupLongest (model : Nat) (tokens : List Int) (contract : List UInt8) (minimumTokens : Nat)
    (prepared : Option Exl3PreparedIdentity) : Exec (Option Root) :=
  lookupLongestBy tokens contract minimumTokens (continues model contract prepared tokens)

def lookupLongestPreparedPositions (model : Nat) (tokens : List Int) (contract : List UInt8)
    (incoming : Exl3PreparedIdentity) (minimumTokens : Nat) : Exec (Option Root) :=
  lookupLongestBy tokens contract minimumTokens (continuesPositions model contract incoming tokens)

/-! ## Changes -/

def refresh (address : Nat) : Exec Bool := do
  let index ← get
  match index.entries.findIdx? fun entry => entry.root.address == address with
  | none => return false
  | some i => do
    setEntries (index.entries.eraseIdx i ++ (index.entries[i]?).toList)
    return true

/-- `publish`; `full` says whether `entries_` has no reserved slot left. -/
def publish (full : Bool) (root : Option Root) (contract : List UInt8) : Exec Unit := do
  let (root, modelIdentity) ← ofExcept (checkRoot root contract)
  let index ← get
  if index.entries.length < index.capacity + index.sharedCapacity ∧ full ∧ index.failPublicationGrowth then do
    set { index with failPublicationGrowth := false }
    throw .badAlloc
  else do
    let generation ← takeGeneration
    let entry : Entry :=
      { hash := hashOf index root.tokens contract, generation, modelIdentity, contract, root }
    match index.entries.findIdx? fun old => sameIdentity old entry with
    | some i => setEntries (index.entries.eraseIdx i ++ [entry])
    | none =>
      let kept := if classCount false index.entries = index.capacity then
          index.entries.eraseP fun old => !old.shared
        else index.entries
      setEntries (kept ++ [entry])

def erase (model : Nat) (tokens : List Int) (contract : List UInt8)
    (prepared : Option Exl3PreparedIdentity) : Exec Bool := do
  if tokens = [] ∨ contract = [] then return false
  else do
    let index ← get
    let hash := hashOf index tokens contract
    match index.entries.findIdx? (answers hash model contract prepared tokens) with
    | none => return false
    | some i => do
      setEntries (index.entries.eraseIdx i)
      return true

/-- `clear`, which leaves the order as it is. -/
def clear : Exec Unit := modify fun index => { index with entries := [] }

def setDemand (demand : Option (Root → Option Nat)) : Exec Unit :=
  modify fun index => { index with demand }

def evictOldest : Exec (Option Root) := do
  let index ← get
  match (oldestVictim index.demand index.entries).bind fun i => (index.entries[i]?).map fun e => (i, e) with
  | none => return none
  | some (i, victim) => do
    setEntries (index.entries.eraseIdx i)
    return some victim.root

def supplyRetentionObservation (address generation : Nat)
    (preparationMicroseconds observedAccesses : Option Nat) : Exec Bool := do
  if generation = 0 then return false
  else do
    let index ← get
    match index.entries.findIdx? fun entry =>
        entry.root.address == address && entry.generation == generation with
    | none => return false
    | some i => do
      set { index with
        entries := index.entries.modify i fun entry =>
          { entry with preparationMicroseconds, observedAccesses } }
      return true

section Budgets

-- `account`, the bytes that a list of entries retains
variable (account : List Entry → Except Exn StorageStats)

/-- The bytes a cache may keep under a budget, and under what memory leaves beyond the reserve. -/
def effectiveBudget (byteBudget physical reserve : Nat) : Nat :=
  if physical > reserve then min byteBudget (physical - reserve) else 0

/-- The loop of `trim_to_budget`; every turn removes an entry, so that `fuel` is their number. -/
def trimLoop (effective : Nat) : Nat → Nat → Exec (Nat × StorageStats)
  | 0, count => do
    let index ← get
    let stats ← ofExcept (account index.entries)
    return (count, stats)
  | fuel + 1, count => do
    let index ← get
    let stats ← ofExcept (account index.entries)
    match oldestVictim index.demand index.entries with
    | none => return (count, stats)
    | some i =>
      if stats.accountedBytes > effective then do
        setEntries (index.entries.eraseIdx i)
        trimLoop effective fuel (count + 1)
      else return (count, stats)

def trimToBudget (byteBudget availablePhysicalBytes physicalReserveBytes : Nat) : Exec (Nat × StorageStats) := do
  if byteBudget = 0 then throw (.invalidArgument "prefix index byte budget must be positive")
  else do
    let index ← get
    trimLoop account (effectiveBudget byteBudget availablePhysicalBytes physicalReserveBytes)
      index.entries.length 0

/-- Whether the decisions are a snapshot of the entries. -/
def snapshotCurrent (entries : List Entry) (decisions : List RetentionDecision) : Bool :=
  entries.length ≤ 64 && decisions.length == entries.length &&
    (decisions.zip entries).all fun item =>
      item.1.root == item.2.root.address && item.1.generation == item.2.generation

structure PolicyTrim where
  inputsCurrent : Bool := false
  budgetMet : Bool := false
  evicted : Nat := 0
  storage : StorageStats

/-- The loop of `trim_with_retention_policy` over the entries that are not removed yet. -/
def policyTrimLoop (effective : Nat) :
    Nat → List (RetentionDecision × Entry) → StorageStats → Except Exn (List (RetentionDecision × Entry) × StorageStats)
  | 0, items, stats => .ok (items, stats)
  | fuel + 1, items, stats =>
    if stats.accountedBytes ≤ effective then .ok (items, stats)
    else
      match policyVictim (fun item => !item.1.required) items with
      | none => .ok (items, stats)
      | some i => do
        let stats ← account ((items.eraseIdx i).map (·.2))
        policyTrimLoop effective fuel (items.eraseIdx i) stats

def trimWithRetentionPolicy (byteBudget availablePhysicalBytes physicalReserveBytes : Nat)
    (decisions : List RetentionDecision) : Exec PolicyTrim := do
  if byteBudget = 0 then throw (.invalidArgument "prefix policy byte budget must be positive")
  else do
    let index ← get
    let storage ← ofExcept (account index.entries)
    let effective := effectiveBudget byteBudget availablePhysicalBytes physicalReserveBytes
    if snapshotCurrent index.entries decisions then do
      let (items, stats) ← ofExcept
        (policyTrimLoop account effective index.entries.length (decisions.zip index.entries) storage)
      let result : PolicyTrim :=
        { inputsCurrent := true, budgetMet := stats.accountedBytes ≤ effective
          evicted := index.entries.length - items.length, storage := stats }
      if result.evicted = 0 then return result
      else if index.failPolicyCommit then do
        set { index with failPolicyCommit := false }
        throw .badAlloc
      else do
        setEntries (items.map (·.2))
        return result
    else return { budgetMet := storage.accountedBytes ≤ effective, storage }

/-! ## Admission -/

structure Admission where
  admitted : Bool := false
  replaced : Bool := false
  generation : Nat := 0
  evicted : Nat := 0
  /-- Ghost: how many of the evictions the byte bound forced. -/
  byteEvicted : Nat := 0
  configuredBudgetBytes : Nat
  effectiveBudgetBytes : Nat := 0
  storage : StorageStats

/-- The limits a candidate is admitted under. -/
structure Bounds where
  shared : Bool
  classCapacity : Nat
  effective : Nat

/-- The class bound is exceeded by `kept` and the candidate. -/
def classFull (bounds : Bounds) (kept : List Entry) : Bool :=
  classCount bounds.shared kept + 1 > bounds.classCapacity

/-- The eviction loop under retention decisions, over the old entries; the candidate is last
    and never a victim. An exceeded class bound evicts only within the class. -/
def policyLoop (bounds : Bounds) (candidate : Entry) :
    Nat → List (RetentionDecision × Entry) → Nat → Except Exn (Option (List (RetentionDecision × Entry) × Nat))
  | fuel, items, byteEvicted => do
    let stats ← account (items.map (·.2) ++ [candidate])
    let full := classFull bounds (items.map (·.2))
    if full || stats.accountedBytes > bounds.effective then
      let eligible (item : RetentionDecision × Entry) : Bool :=
        !item.1.required && (!full || item.2.shared == bounds.shared)
      match fuel, policyVictim eligible items with
      | fuel + 1, some i =>
        policyLoop bounds candidate fuel (items.eraseIdx i) (if full then byteEvicted else byteEvicted + 1)
      | _, _ => return none
    else return some (items, byteEvicted)

/-- Whether a waiting request restores the root. -/
def demanded (demand : Option (Root → Option Nat)) (entry : Entry) : Bool :=
  (demand.bind fun demand => demand entry.root).isSome

/-- `candidate_idle`: there is a demand, and nobody waits for the candidate. -/
def idle (demand : Option (Root → Option Nat)) (candidate : Entry) : Bool :=
  demand.isSome && !demanded demand candidate

/-- The loop for the class bound. With a positive bound a full class has a victim besides the candidate. -/
def classLoop (demand : Option (Root → Option Nat)) (bounds : Bounds) (candidate : Entry) :
    Nat → List Entry → Option (List Entry)
  | 0, kept => some kept
  | fuel + 1, kept =>
    if classFull bounds kept then
      match demandVictim demand (fun entry => entry.shared == bounds.shared) kept with
      | none => some kept
      | some i =>
        if idle demand candidate && (kept[i]?).any (demanded demand) then none
        else classLoop demand bounds candidate fuel (kept.eraseIdx i)
    else some kept

/-- The loop for the byte bound. -/
def byteLoop (demand : Option (Root → Option Nat)) (bounds : Bounds) (candidate : Entry) :
    Nat → List Entry → Nat → Except Exn (Option (List Entry × Nat × StorageStats))
  | fuel, kept, byteEvicted => do
    let stats ← account (kept ++ [candidate])
    match fuel, oldestVictim demand kept with
    | fuel + 1, some i =>
      if stats.accountedBytes > bounds.effective then
        if idle demand candidate && (kept[i]?).any (demanded demand) then return none
        else byteLoop demand bounds candidate fuel (kept.eraseIdx i) (byteEvicted + 1)
      else return some (kept, byteEvicted, stats)
    | _, _ => return some (kept, byteEvicted, stats)

/-- The entries left by the retention decisions, where there are any. -/
def applyPolicy (bounds : Bounds) (candidate : Entry) (prospective : List Entry) :
    Option (List (RetentionDecision × Entry)) → Except Exn (Option (List Entry × Nat))
  | none => .ok (some (prospective, 0))
  | some items => do
    let left ← policyLoop account bounds candidate items.length items 0
    return left.map fun left => (left.1.map (·.2), left.2)

/-- The old entries that stay beside the candidate, with the byte evictions and the bytes of
    them all; no value declines the candidate. -/
def select (demand : Option (Root → Option Nat)) (bounds : Bounds) (candidate : Entry)
    (prospective : List Entry) (decisions : Option (List (RetentionDecision × Entry))) :
    Except Exn (Option (List Entry × Nat × StorageStats)) := do
  let afterPolicy ← applyPolicy account bounds candidate prospective decisions
  match afterPolicy with
  | none => return none
  | some (kept, byteEvicted) =>
    match classLoop demand bounds candidate kept.length kept with
    | none => return none
    | some kept => byteLoop account demand bounds candidate kept.length kept byteEvicted

/-- The observations a renewed identity carries forward. -/
def carry (entries : List Entry) (candidate : Entry) : Entry :=
  entries.foldl (fun candidate entry =>
    if sameIdentity entry candidate then
      { candidate with
        preparationMicroseconds := entry.preparationMicroseconds
        observedAccesses := entry.observedAccesses
        lookupSelections := entry.lookupSelections }
    else candidate) candidate

/-- `admit`, from the candidate on. -/
def admitCandidate (index : PrefixIndex) (candidate : Entry) (retained : StorageStats)
    (result : Admission) (bounds : Bounds) (retention : Option (List RetentionDecision)) : Exec Admission := do
  let declined : Admission := { result with storage := retained }
  let prospective := index.entries.filter fun entry => !sameIdentity entry candidate
  let decisions := retention.map fun decisions => decisions.zip index.entries
  let renewsRequired := decisions.any fun items =>
    items.any fun item => sameIdentity item.2 candidate && item.1.required
  if renewsRequired then return declined
  else do
    let alone ← ofExcept (account [candidate])
    if alone.accountedBytes > bounds.effective then return declined
    else do
      let selected ← ofExcept (select account index.demand bounds candidate prospective
        (decisions.map fun items => items.filter fun item => !sameIdentity item.2 candidate))
      match selected with
      | none => return declined
      | some (kept, byteEvicted, stats) =>
        if retention.isSome ∧ index.failPolicyCommit then do
          modify fun index => { index with failPolicyCommit := false }
          throw .badAlloc
        else do
          let replaced := index.entries.any fun entry => sameIdentity entry candidate
          setEntries (kept ++ [candidate])
          return { result with
            admitted := true, replaced, byteEvicted, generation := candidate.generation
            evicted := index.entries.length - kept.length - (if replaced then 1 else 0)
            storage := stats }

/-- `admit`. -/
def admitRoot (root : Option Root) (contract : List UInt8)
    (byteBudget availablePhysicalBytes physicalReserveBytes : Nat)
    (retention : Option (List RetentionDecision)) (shared : Bool) : Exec Admission := do
  if byteBudget = 0 then throw (.invalidArgument "prefix index byte budget must be positive")
  else do
    let index ← get
    let retained ← ofExcept (account index.entries)
    if shared ∧ index.sharedCapacity = 0 then
      return { configuredBudgetBytes := byteBudget, storage := retained }
    else do
      let physical := (availablePhysicalBytes + retained.accountedBytes) % 2 ^ 64
      let effective := effectiveBudget byteBudget physical physicalReserveBytes
      let result : Admission :=
        { configuredBudgetBytes := byteBudget, effectiveBudgetBytes := effective, storage := retained }
      if retention.any fun decisions => !snapshotCurrent index.entries decisions then return result
      else do
        let made ← makeEntry root contract
        let candidate := carry index.entries { made with shared }
        let classCapacity := if shared then index.sharedCapacity else index.capacity
        admitCandidate account index candidate retained result { shared, classCapacity, effective } retention

end Budgets

end VoidInfer.Exl3.PrefixCache
