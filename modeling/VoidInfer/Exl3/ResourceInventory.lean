import VoidInfer.Exl3.ResidentSet
import VoidInfer.Lib.OrderedMap
import Mathlib.Algebra.BigOperators.Group.List.Basic

/-
  `Exl3ResourceInventory` (`src/exl3/resource_inventory.h`): the indexed `append` beside the scan of `add`, removal and
  metadata transfer, and the per-domain totals.

  `appendIndexed_eq_addAll`: the index behaves as the scan, to the state left behind by a conflict. Every inventory the
  class can build has unique (owner, slot) keys (`Built.unique`), so a removal lowers one total by one extent
  (`withoutAllocation_totals`).
-/

namespace VoidInfer.Exl3
open List

/-! ## The index of `append` -/

/-- `SlotKey`: the control block of the owner, none for an empty pointer, and the slot. -/
structure SlotKey where
  owner : Option Nat
  slot : Nat
deriving DecidableEq

/-- `std::shared_ptr::owner_before`: control blocks by address, the empty pointer first. -/
def ownerBefore : Option Nat → Option Nat → Bool
  | none, some _ => true
  | some a, some b => decide (a < b)
  | _, none => false

def slotKeyLess (a b : SlotKey) : Bool :=
  if ownerBefore a.owner b.owner then true
  else if ownerBefore b.owner a.owner then false
  else decide (a.slot < b.slot)

/-- The key of an allocation. -/
def Allocation.key (a : Allocation) : SlotKey := ⟨a.owner, a.slot⟩

variable {a b : Option Nat}

theorem owner_eq_of_not_before (h₁ : ownerBefore a b = false) (h₂ : ownerBefore b a = false) : a = b := by
  cases a <;> cases b <;> simp_all [ownerBefore]
  omega

theorem ownerBefore_irrefl (a : Option Nat) : ownerBefore a a = false := by
  cases a <;> simp [ownerBefore]

theorem ownerBefore_trans {c : Option Nat} (h₁ : ownerBefore a b = true)
    (h₂ : ownerBefore b c = true) : ownerBefore a c = true := by
  cases a <;> cases b <;> cases c <;> simp_all [ownerBefore]
  omega

theorem slotKeyLess_strictOrder : OrderedMap.StrictOrder slotKeyLess where
  irrefl := by
    intro a
    simp [slotKeyLess, ownerBefore_irrefl]
  trans := by
    intro a b c hab hbc
    unfold slotKeyLess at hab hbc ⊢
    by_cases h₁ : ownerBefore a.owner b.owner = true
    · by_cases h₂ : ownerBefore b.owner c.owner = true
      · simp [ownerBefore_trans h₁ h₂]
      · by_cases h₃ : ownerBefore c.owner b.owner = true
        · simp [h₂, h₃] at hbc
        · have heq := owner_eq_of_not_before (by simpa using h₂) (by simpa using h₃)
          rw [← heq, if_pos h₁]
    by_cases h₁' : ownerBefore b.owner a.owner = true
    · simp [h₁, h₁'] at hab
    have heq := owner_eq_of_not_before (by simpa using h₁) (by simpa using h₁')
    rw [heq] at hab ⊢
    by_cases h₂ : ownerBefore b.owner c.owner = true
    · simp [h₂]
    by_cases h₃ : ownerBefore c.owner b.owner = true
    · simp [h₂, h₃] at hbc
    simp only [ownerBefore_irrefl, h₂, h₃, Bool.false_eq_true, if_false, decide_eq_true_eq] at hab hbc ⊢
    omega
  eq_of_not_less := by
    intro a b hab hba
    unfold slotKeyLess at hab hba
    by_cases h₁ : ownerBefore a.owner b.owner = true
    · simp [h₁] at hab
    by_cases h₂ : ownerBefore b.owner a.owner = true
    · simp [h₂] at hba
    have heq := owner_eq_of_not_before (by simpa using h₁) (by simpa using h₂)
    simp only [h₁, h₂, Bool.false_eq_true, if_false, decide_eq_false_iff_not] at hab hba
    have hslot : a.slot = b.slot := by omega
    cases a
    simp_all

namespace Inventory

/-- The index: the position of the first allocation under each key. -/
abbrev Index := List (SlotKey × Nat)

/-- The loop that indexes the allocations present, from position `i` on. -/
def indexFrom (i : Nat) (index : Index) : List Allocation → Index
  | [] => index
  | a :: rest => indexFrom (i + 1) (OrderedMap.tryEmplace slotKeyLess a.key i index).1 rest

/-- The loop of `append`: the inventory as it stands when the loop ends or throws. -/
def appendLoop (inventory : Inventory) (index : Index) :
    List Allocation → Inventory × Option Exn
  | [] => (inventory, none)
  | value :: rest =>
    match value.validate with
    | .error e => (inventory, some e)
    | .ok _ =>
      let emplaced := OrderedMap.tryEmplace slotKeyLess value.key inventory.length index
      match emplaced.2 with
      | some found =>
        match (inventory.getD found {}).requireSame value with
        | .error e => (inventory, some e)
        | .ok _ => appendLoop inventory emplaced.1 rest
      | none => appendLoop (inventory ++ [value]) emplaced.1 rest

/-- `Exl3ResourceInventory::append`. -/
def appendIndexed (inventory other : Inventory) : Inventory × Option Exn :=
  if other = [] then (inventory, none) else appendLoop inventory (indexFrom 0 [] inventory) other

/-- `add` for every allocation in order, up to the first that throws. -/
def addAll (inventory : Inventory) : List Allocation → Inventory × Option Exn
  | [] => (inventory, none)
  | value :: rest =>
    match inventory.add value with
    | .error e => (inventory, some e)
    | .ok next => addAll next rest

/-- The index holds exactly the first position of every key. -/
structure Indexes (index : Index) (inventory : Inventory) : Prop where
  sorted : OrderedMap.Sorted slotKeyLess index
  first : ∀ key i, (key, i) ∈ index ↔ inventory.findIdx? (fun a => a.key = key) = some i

theorem Indexes.nil : Indexes [] [] where
  sorted := .nil
  first := by simp

variable {index : Index} {value expected : Allocation}

section
variable {inventory next : Inventory}

theorem Indexes.absent (h : Indexes index inventory) {key : SlotKey}
    (hnone : inventory.findIdx? (fun a => a.key = key) = none) (v : Nat) : (key, v) ∉ index := by
  intro hv
  rw [h.first, hnone] at hv
  cases hv

theorem Indexes.snoc (h : Indexes index inventory) (value : Allocation) :
    Indexes (OrderedMap.tryEmplace slotKeyLess value.key inventory.length index).1 (inventory ++ [value]) := by
  have hlast : ∀ key, (inventory ++ [value]).findIdx? (fun a => a.key = key) =
      (inventory.findIdx? fun a => a.key = key).or (if value.key = key then some inventory.length else none) := by
    intro key
    by_cases hkey : value.key = key
    · simp [hkey]
    · simp [hkey]
  cases hfound : inventory.findIdx? (fun a => a.key = value.key) with
  | some j =>
    have hmem := (h.first _ _).mpr hfound
    rw [OrderedMap.tryEmplace_of_mem slotKeyLess_strictOrder h.sorted _ hmem]
    refine ⟨h.sorted, ?_⟩
    intro key i
    rw [h.first, hlast]
    by_cases hkey : value.key = key
    · subst hkey
      simp [hfound]
    · simp [hkey]
  | none =>
    obtain ⟨-, hsorted, hmem⟩ := OrderedMap.tryEmplace_of_not_mem slotKeyLess_strictOrder h.sorted
      inventory.length (h.absent hfound)
    refine ⟨hsorted, ?_⟩
    intro key i
    rw [hmem, h.first, hlast]
    by_cases hkey : value.key = key
    · subst hkey
      rw [hfound, if_pos rfl]
      simp [eq_comm]
    · simp [hkey, Ne.symm hkey]

theorem indexFrom_indexes {done : Inventory} (h : Indexes index done)
    (rest : List Allocation) : Indexes (indexFrom done.length index rest) (done ++ rest) := by
  induction rest generalizing index done with
  | nil => simpa [indexFrom] using h
  | cons a rest ih =>
    have hnext := ih (h.snoc a)
    rw [length_append, length_singleton, append_assoc] at hnext
    exact hnext

theorem find_eq_of_findIdx {i : Nat} (h : inventory.findIdx? (fun a => a.key = value.key) = some i) :
    inventory.find? (fun prior => prior.owner = value.owner ∧ prior.slot = value.slot) =
      some (inventory.getD i {}) := by
  obtain ⟨hi, hkey, hbefore⟩ := findIdx?_eq_some_iff_getElem.mp h
  have hget : inventory.getD i {} = inventory[i] := by simp [List.getD, hi]
  rw [find?_eq_some_iff_getElem, hget]
  simp only [Allocation.key, decide_eq_true_eq, SlotKey.mk.injEq] at hkey hbefore
  refine ⟨by simpa using hkey, i, hi, rfl, ?_⟩
  intro j hj
  have hother := hbefore j hj
  rw [not_and_or] at hother
  simpa using hother

theorem find_eq_none_of_findIdx (h : inventory.findIdx? (fun a => a.key = value.key) = none) :
    inventory.find? (fun prior => prior.owner = value.owner ∧ prior.slot = value.slot) = none := by
  rw [findIdx?_eq_none_iff] at h
  rw [find?_eq_none]
  intro a ha
  simpa [Allocation.key] using h a ha

theorem appendLoop_eq_addAll (h : Indexes index inventory)
    (values : List Allocation) : appendLoop inventory index values = addAll inventory values := by
  induction values generalizing index inventory with
  | nil => rfl
  | cons value rest ih =>
    simp only [appendLoop, addAll, add]
    cases hvalid : value.validate with
    | error e => rfl
    | ok _ =>
      cases hfound : inventory.findIdx? (fun a => a.key = value.key) with
      | some j =>
        have hmem := (h.first _ _).mpr hfound
        simp only [OrderedMap.tryEmplace_of_mem slotKeyLess_strictOrder h.sorted _ hmem,
          find_eq_of_findIdx hfound, bind, Except.bind]
        cases hsame : (inventory.getD j {}).requireSame value with
        | error e => rfl
        | ok _ => exact ih h
      | none =>
        have hnew := (OrderedMap.tryEmplace_of_not_mem slotKeyLess_strictOrder h.sorted
          inventory.length (h.absent hfound)).1
        simp only [hnew, find_eq_none_of_findIdx hfound, bind, Except.bind]
        exact ih (h.snoc value)

theorem appendIndexed_eq_addAll (inventory other : Inventory) :
    appendIndexed inventory other = addAll inventory other := by
  unfold appendIndexed
  split
  · next hempty =>
    rw [hempty]
    rfl
  apply appendLoop_eq_addAll
  simpa using indexFrom_indexes Indexes.nil inventory

/-! ## Unique keys -/

/-- No two allocations share an owner and a slot. -/
def Unique (inventory : Inventory) : Prop := inventory.Pairwise fun a b => a.key ≠ b.key

theorem add_ok (h : inventory.add value = .ok next) :
    next = inventory ∨ next = inventory ++ [value] ∧ ∀ a ∈ inventory, a.key ≠ value.key := by
  obtain ⟨_, -, h⟩ := bind_ok h
  split at h
  · obtain ⟨_, -, h⟩ := bind_ok h
    exact .inl (Except.ok.inj h).symm
  next hnone =>
  refine .inr ⟨(Except.ok.inj h).symm, ?_⟩
  rw [find?_eq_none] at hnone
  intro a ha hkey
  apply hnone a ha
  simpa [Allocation.key] using hkey

theorem Unique.add (hu : Unique inventory) (h : inventory.add value = .ok next) : Unique next := by
  rcases add_ok h with rfl | ⟨rfl, hnew⟩
  · exact hu
  refine pairwise_append.mpr ⟨hu, pairwise_singleton _ _, ?_⟩
  intro a ha b hb
  rw [mem_singleton.mp hb]
  exact hnew a ha

theorem Unique.addAll (hu : Unique inventory) (values : List Allocation) : Unique (addAll inventory values).1 := by
  induction values generalizing inventory with
  | nil => exact hu
  | cons value rest ih =>
    simp only [Inventory.addAll]
    cases hadd : inventory.add value with
    | error e => exact hu
    | ok next => exact ih (hu.add hadd)

theorem withoutAllocation_ok (h : inventory.withoutAllocation expected = .ok next) :
    next = inventory.filter (fun a => a.key ≠ expected.key) ∧
      ∃ a ∈ inventory, a.key = expected.key ∧ a.domain = expected.domain ∧ a.units = expected.units := by
  obtain ⟨_, -, h⟩ := bind_ok h
  obtain ⟨hsame, h⟩ := check_ok h
  obtain ⟨hfound, h⟩ := check_ok h
  rw [not_not] at hfound
  obtain ⟨a, ha, howner, hslot⟩ := hfound
  refine ⟨?_, a, ha, ?_⟩
  · rw [← Except.ok.inj h]
    apply filter_congr
    intro b _
    simp [Allocation.key]
  · by_contra hdiffer
    apply hsame
    refine ⟨a, ha, ⟨howner, hslot⟩, ?_⟩
    simp only [Allocation.key, howner, hslot, true_and] at hdiffer
    tauto

/-! ## Totals -/

abbrev Totals := Domain → Nat

/-- The five domains, in the order of the array. -/
def domains : List Domain := [.device, .cudaRegisteredHost, .hostMetadata, .graphCount, .eventCount]

/-- One round of `totals`. -/
def addUnits (sums : Totals) (a : Allocation) : Except Exn Totals := do
  throwIf (a.units > uint64Max - sums a.domain) (.overflowError "resource inventory extent overflow")
  return fun d => if d = a.domain then sums d + a.units else sums d

def totals (inventory : Inventory) : Except Exn Totals := inventory.foldlM addUnits fun _ => 0

/-- The units charged to a domain. -/
def unitsOf (inventory : Inventory) (d : Domain) : Nat :=
  (inventory.map fun a => if d = a.domain then a.units else 0).sum

def transferMetadata (inventory : Inventory) (expected tracking : Allocation) : Except Exn Inventory := do
  throwIf (expected.domain ≠ .hostMetadata ∨ tracking.domain ≠ .hostMetadata ∨
      expected.units ≠ tracking.units ∨ tracking.owner = none)
    (.invalidArgument "metadata tracking transfer extent/domain")
  throwIf (∃ a ∈ inventory, a.owner = expected.owner ∧ a.domain ≠ .hostMetadata)
    (.invalidArgument "metadata transfer precedes physical retirement")
  throwIf (∃ a ∈ inventory, (a.owner = expected.owner ∧ a.slot = expected.slot) ∧ a.retiredOwner ≠ none)
    (.invalidArgument "metadata tracking identity cannot be rebound")
  let removed ← inventory.withoutAllocation expected
  let next ← removed.add
    { tracking with retiredOwner := expected.owner, retiredSlot := expected.slot }
  let after ← next.totals
  let before ← inventory.totals
  throwIf (∃ d ∈ domains, after d ≠ before d) (.invalidArgument "metadata transfer merged an existing charge")
  return next

theorem mem_domains (d : Domain) : d ∈ domains := by cases d <;> decide

theorem addUnits_foldlM (inventory : Inventory) (sums : Totals) (hsums : ∀ d, sums d ≤ uint64Max) (t : Totals) :
    inventory.foldlM addUnits sums = .ok t ↔
      (∀ d, sums d + unitsOf inventory d ≤ uint64Max) ∧ t = fun d => sums d + unitsOf inventory d := by
  induction inventory generalizing sums with
  | nil =>
    constructor
    · intro h
      exact ⟨hsums, (Except.ok.inj h).symm⟩
    · rintro ⟨-, rfl⟩
      rfl
  | cons a rest ih =>
    have hunits : ∀ d, unitsOf (a :: rest) d = (if d = a.domain then a.units else 0) + unitsOf rest d := by
      intro d
      simp [unitsOf]
    rw [foldlM_cons]
    by_cases hover : a.units > uint64Max - sums a.domain
    · simp only [addUnits, throwIf, if_pos hover, bind, Except.bind]
      constructor
      · intro h
        cases h
      · rintro ⟨hfit, -⟩
        have := hfit a.domain
        rw [hunits, if_pos rfl] at this
        omega
    simp only [addUnits, throwIf, if_neg hover, bind, Except.bind, pure, Except.pure]
    have hnext : ∀ d, (if d = a.domain then sums d + a.units else sums d) ≤ uint64Max := by
      intro d
      have := hsums d
      split
      · next hd =>
        rw [hd] at this ⊢
        omega
      · exact this
    have hsum : ∀ d, (if d = a.domain then sums d + a.units else sums d) + unitsOf rest d =
        sums d + unitsOf (a :: rest) d := by
      intro d
      rw [hunits]
      split <;> omega
    rw [ih _ hnext]
    simp only [hsum]

theorem totals_ok_iff (inventory : Inventory) (t : Totals) :
    inventory.totals = .ok t ↔ (∀ d, unitsOf inventory d ≤ uint64Max) ∧ t = unitsOf inventory := by
  have h := addUnits_foldlM inventory (fun _ => 0) (fun _ => Nat.zero_le _) t
  simp only [Nat.zero_add] at h
  exact h

theorem unitsOf_filter (hu : Unique inventory) {a : Allocation} (ha : a ∈ inventory) (d : Domain) :
    unitsOf inventory d = unitsOf (inventory.filter fun b => b.key ≠ a.key) d +
      if d = a.domain then a.units else 0 := by
  induction inventory with
  | nil => simp at ha
  | cons b rest ih =>
    obtain ⟨hhead, hrest⟩ := pairwise_cons.mp hu
    rcases mem_cons.mp ha with rfl | hmem
    · have hkeep : rest.filter (fun b => b.key ≠ a.key) = rest := by
        rw [filter_eq_self]
        intro b hb
        simpa using (hhead b hb).symm
      rw [filter_cons_of_neg (by simp), hkeep]
      simp only [unitsOf, map_cons, sum_cons]
      omega
    have hkey : b.key ≠ a.key := hhead a hmem
    rw [filter_cons_of_pos (by simpa using hkey)]
    have htail := ih hrest hmem
    simp only [unitsOf, map_cons, sum_cons] at htail ⊢
    omega

theorem withoutAllocation_totals
    (hu : Unique inventory) (h : inventory.withoutAllocation expected = .ok next) {t : Totals}
    (ht : inventory.totals = .ok t) :
    ∃ t', next.totals = .ok t' ∧ t expected.domain = t' expected.domain + expected.units ∧
      ∀ d, d ≠ expected.domain → t d = t' d := by
  obtain ⟨rfl, a, ha, hkey, hdomain, hunits⟩ := withoutAllocation_ok h
  obtain ⟨hfit, rfl⟩ := (totals_ok_iff _ _).mp ht
  rw [← hkey, ← hdomain, ← hunits]
  have hsum := unitsOf_filter hu ha
  refine ⟨_, (totals_ok_iff _ _).mpr ⟨?_, rfl⟩, ?_, ?_⟩
  · intro d
    have := hfit d
    rw [hsum d] at this
    omega
  · simpa using hsum a.domain
  · intro d hd
    simpa [hd] using hsum d

theorem transferMetadata_totals {tracking : Allocation}
    (h : inventory.transferMetadata expected tracking = .ok next) :
    ∃ t, inventory.totals = .ok t ∧ next.totals = .ok t := by
  obtain ⟨_, -, h⟩ := bind_ok h
  obtain ⟨_, -, h⟩ := bind_ok h
  obtain ⟨_, -, h⟩ := bind_ok h
  obtain ⟨removed, -, h⟩ := bind_ok h
  obtain ⟨bound, -, h⟩ := bind_ok h
  obtain ⟨after, hafter, h⟩ := bind_ok h
  obtain ⟨before, hbefore, h⟩ := bind_ok h
  obtain ⟨hsame, h⟩ := check_ok h
  cases h
  have heq : after = before := by
    funext d
    by_contra hne
    exact hsame ⟨d, mem_domains d, hne⟩
  exact ⟨before, hbefore, heq ▸ hafter⟩

end

/-! ## Every inventory of the class -/

/-- The inventories that the class's own operations build, those left behind by an `append` that threw included. -/
inductive Built : Inventory → Prop where
  | empty : Built []
  | add {inventory next value} (hb : Built inventory) (h : inventory.add value = .ok next) :
      Built next
  | append {inventory other} (hb : Built inventory) (ho : Built other) :
      Built (appendIndexed inventory other).1
  | without {inventory next expected} (hb : Built inventory)
      (h : inventory.withoutAllocation expected = .ok next) : Built next
  | transfer {inventory next expected tracking} (hb : Built inventory)
      (h : inventory.transferMetadata expected tracking = .ok next) : Built next

variable {inventory next : Inventory}

theorem Unique.without (hu : Unique inventory)
    (h : inventory.withoutAllocation expected = .ok next) : Unique next := by
  rw [(withoutAllocation_ok h).1]
  exact hu.filter _

theorem Built.unique (h : Built inventory) : Unique inventory := by
  induction h with
  | empty => exact .nil
  | add _ h ih => exact ih.add h
  | append _ _ ih _ =>
    rw [appendIndexed_eq_addAll]
    exact ih.addAll _
  | without _ h ih => exact ih.without h
  | transfer _ h ih =>
    obtain ⟨_, -, h⟩ := bind_ok h
    obtain ⟨_, -, h⟩ := bind_ok h
    obtain ⟨_, -, h⟩ := bind_ok h
    obtain ⟨removed, hremoved, h⟩ := bind_ok h
    obtain ⟨bound, hbound, h⟩ := bind_ok h
    obtain ⟨_, -, h⟩ := bind_ok h
    obtain ⟨_, -, h⟩ := bind_ok h
    obtain ⟨_, -, h⟩ := bind_ok h
    cases h
    exact (ih.without hremoved).add hbound

/-- The four operations on any inventories of the class: `append` is repeated `add` to the exception and the partial
    state, keys stay unique, a removal lowers one total by one extent and a transfer none. -/
theorem built_operations :
    (∀ a b, Built a → Built b → appendIndexed a b = addAll a b) ∧
    (∀ a, Built a → Unique a ∧ (∀ value next, a.add value = .ok next → Unique next) ∧
      ∀ b, Built b → Unique (appendIndexed a b).1) ∧
    (∀ a expected next t, Built a → a.withoutAllocation expected = .ok next →
      a.totals = .ok t → ∃ t', next.totals = .ok t' ∧
        t expected.domain = t' expected.domain + expected.units ∧
          ∀ d, d ≠ expected.domain → t d = t' d) ∧
    ∀ a expected tracking next, Built a → a.transferMetadata expected tracking = .ok next →
      ∃ t, a.totals = .ok t ∧ next.totals = .ok t := by
  refine ⟨?_, ?_, ?_, ?_⟩
  · intro a b _ _
    exact appendIndexed_eq_addAll a b
  · intro a ha
    refine ⟨ha.unique, fun value next h => ha.unique.add h, ?_⟩
    intro b hb
    exact (ha.append hb).unique
  · intro a expected next t ha h ht
    exact withoutAllocation_totals ha.unique h ht
  · intro a expected tracking next _ h
    exact transferMetadata_totals h

/-- Six device units, and two of host metadata whose owner is to change. -/
def sampleInventory : Inventory := [{ owner := some 1, units := 6 }, { owner := some 2, domain := .hostMetadata, units := 2 }]

/-- The metadata moved to an owner that tracks it, then removed there. -/
theorem built_operations_sample : ∃ moved left t t', Built sampleInventory ∧
    sampleInventory.transferMetadata { owner := some 2, domain := .hostMetadata, units := 2 }
      { owner := some 3, domain := .hostMetadata, units := 2 } = .ok moved ∧
    moved.withoutAllocation { owner := some 3, domain := .hostMetadata, units := 2 } = .ok left ∧ left.length = 1 ∧
    Unique moved ∧ sampleInventory.totals = .ok t ∧ moved.totals = .ok t ∧ left.totals = .ok t' ∧
    t .hostMetadata = t' .hostMetadata + 2 ∧ t .device = t' .device := by
  have hfirst : Inventory.add [] { owner := some 1, units := 6 } = .ok [{ owner := some 1, units := 6 }] := by rfl
  have hsecond : Inventory.add [{ owner := some 1, units := 6 }]
    { owner := some 2, domain := .hostMetadata, units := 2 } = .ok sampleInventory := by rfl
  have hbuilt : Built sampleInventory := (Built.empty.add hfirst).add hsecond
  obtain ⟨-, hunique, hremoval, htransfer⟩ := built_operations
  have hmoved : sampleInventory.transferMetadata { owner := some 2, domain := .hostMetadata, units := 2 }
      { owner := some 3, domain := .hostMetadata, units := 2 } = .ok
        [{ owner := some 1, units := 6 },
          { owner := some 3, domain := .hostMetadata, units := 2, retiredOwner := some 2 }] := by rfl
  obtain ⟨t, htotals, hsame⟩ := htransfer _ _ _ _ hbuilt hmoved
  have hmovedBuilt := hbuilt.transfer hmoved
  obtain ⟨t', hleft, hcharged, hothers⟩ := hremoval _ { owner := some 3, domain := .hostMetadata, units := 2 }
    [{ owner := some 1, units := 6 }] t hmovedBuilt (by rfl) hsame
  exact ⟨_, _, t, t', hbuilt, hmoved, rfl, rfl, (hunique _ hmovedBuilt).1, htotals, hsame, hleft, hcharged,
    hothers _ (by decide)⟩

end Inventory

end VoidInfer.Exl3
