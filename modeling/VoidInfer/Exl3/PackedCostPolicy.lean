import VoidInfer.Base
import Mathlib.Data.List.Basic

/-
  `packed_cost_policy.h`: whether a launch shared with a peer pays, by a table of estimated costs, and how long the
  first of the two may wait for the other.
-/

namespace VoidInfer.Exl3
open List

def familyCount : Nat := 15

structure CostEntry where
  family : Nat := 0
  input : Int := 0
  output : Int := 0
  bits : Int := 0
  firstRows : Int := 0
  secondRows : Int := 0
  independentUs : UInt64 := 0
  sharedUs : UInt64 := 0
  maxAgeUs : UInt64 := 0

namespace CostEntry

def sameKey (a b : CostEntry) : Bool :=
  a.family == b.family && a.input == b.input && a.output == b.output && a.bits == b.bits &&
    a.firstRows == b.firstRows && a.secondRows == b.secondRows

/-- What the constructor checks of an entry. -/
def Valid (e : CostEntry) : Prop :=
  ¬ (e.family ≥ familyCount ∨ e.input ≤ 0 ∨ e.output ≤ 0 ∨ e.bits < 5 ∨ e.bits > 8 ∨
    e.firstRows < 1 ∨ e.firstRows > 8 ∨ e.secondRows < 1 ∨ e.secondRows > 8 ∨
    e.independentUs = 0 ∨ e.sharedUs = 0 ∨ e.maxAgeUs > 50)

instance (e : CostEntry) : Decidable e.Valid := inferInstanceAs (Decidable (¬ _))

/-- The largest age at which a shared launch by this entry pays, where it pays at all. -/
def limit (e : CostEntry) : UInt64 :=
  let profitableAge := e.independentUs - e.sharedUs - 1
  if e.maxAgeUs < profitableAge then e.maxAgeUs else profitableAge

end CostEntry

/-- A table of valid entries with different keys. -/
structure Exl3PackedCostPolicy where
  entries : List CostEntry := []
  testPermitUnderfilled : Bool := false
  valid : ∀ e ∈ entries, e.Valid := by nofun
  distinct : entries.Pairwise fun a b => a.sameKey b = false := by exact .nil

namespace Exl3PackedCostPolicy

/-- One round of the constructor's loop. -/
def add (policy : Exl3PackedCostPolicy) (e : CostEntry) : Except Exn Exl3PackedCostPolicy :=
  if hvalid : e.Valid then
    if hsame : policy.entries.any (·.sameKey e) then
      .error (.invalidArgument "duplicate packed cost estimate")
    else
      .ok { policy with
        entries := policy.entries ++ [e]
        valid := by simpa [or_imp, forall_and] using ⟨policy.valid, hvalid⟩
        distinct := by simpa [pairwise_append] using ⟨policy.distinct, by simpa using hsame⟩ }
  else .error (.invalidArgument "packed cost entry extent/age")

/-- The constructor. -/
def ofEntries (entries : List CostEntry) : Except Exn Exl3PackedCostPolicy := do
  throwIf (entries.length > 128) (.invalidArgument "packed cost table capacity")
  entries.foldlM add {}

def unqualifiedTestPermitUnderfilled : Exl3PackedCostPolicy := { testPermitUnderfilled := true }

section
variable (policy : Exl3PackedCostPolicy) (family : Nat) (input output bits first : Int)

/-- The oldest age that is permitted at all. -/
def ageCap : UInt64 := if policy.testPermitUnderfilled then 5000 else 50

def key (second : Int) : CostEntry :=
  { family := family, input := input, output := output, bits := bits, firstRows := first, secondRows := second }

def permits (second : Int) (ageUs : UInt64) : Bool :=
  if family ≥ familyCount ∨ input ≤ 0 ∨ output ≤ 0 ∨ bits < 5 ∨ bits > 8 ∨ first < 1 ∨ first > 8 ∨
      second < 1 ∨ second > 8 ∨ ageUs > policy.ageCap then false
  else if policy.testPermitUnderfilled then true
  else if first + second = 16 then true
  else
    match policy.entries.find? (·.sameKey (key family input output bits first second)) with
    | some e => ageUs ≤ e.maxAgeUs && e.sharedUs < e.independentUs && ageUs < e.independentUs - e.sharedUs
    | none => false

/-- The row counts of the loops over the peer. -/
def peerRows : List Int := [1, 2, 3, 4, 5, 6, 7, 8]

def mayWait : Bool :=
  if first = 8 then policy.permits family input output bits 8 8 0
  else peerRows.any fun second => policy.permits family input output bits first second 0

/-- The loop over the entries: the largest limit of those with the key. -/
def raiseBudget (second : Int) (budget : UInt64) : UInt64 :=
  policy.entries.foldl (fun budget e =>
    if e.sameKey (key family input output bits first second) then
      if e.limit > budget then e.limit else budget
    else budget) budget

/-- The loop of `wait_budget_us`, over the row counts left. -/
def budgetLoop : List Int → UInt64 → UInt64
  | [], budget => budget
  | second :: rest, budget =>
    if !policy.permits family input output bits first second 0 then budgetLoop rest budget
    else if policy.testPermitUnderfilled then 5000
    else if first + second = 16 then 50
    else budgetLoop rest (policy.raiseBudget family input output bits first second budget)

def waitBudgetUs : UInt64 := policy.budgetLoop family input output bits first peerRows 0

end

variable {policy : Exl3PackedCostPolicy} {family : Nat} {input output bits first second : Int} {ageUs : UInt64}

/-- The rows and the shape are ones a packed launch can have. -/
def Shaped (family : Nat) (input output bits first : Int) : Prop :=
  ¬ (family ≥ familyCount ∨ input ≤ 0 ∨ output ≤ 0 ∨ bits < 5 ∨ bits > 8 ∨ first < 1 ∨ first > 8)

/-- Some entry with the key pays at this age. -/
def Pays (policy : Exl3PackedCostPolicy) (wanted : CostEntry) (ageUs : UInt64) : Prop :=
  ∃ e ∈ policy.entries, e.sameKey wanted ∧ e.sharedUs < e.independentUs ∧ ageUs ≤ e.limit

theorem sameKey_comm {a b c : CostEntry} (h : a.sameKey c) (h' : b.sameKey c) : a.sameKey b := by
  simp only [CostEntry.sameKey, Bool.and_eq_true, beq_iff_eq] at h h' ⊢
  omega

theorem profitable_toNat {e : CostEntry} (h : e.sharedUs < e.independentUs) :
    (e.independentUs - e.sharedUs - 1).toNat + e.sharedUs.toNat + 1 = e.independentUs.toNat := by
  have hlt := UInt64.lt_iff_toNat_lt.mp h
  have hsaving : (e.independentUs - e.sharedUs).toNat = e.independentUs.toNat - e.sharedUs.toNat :=
    UInt64.toNat_sub_of_le _ _ (UInt64.le_iff_toNat_le.mpr (Nat.le_of_lt hlt))
  have hone : (1 : UInt64) ≤ e.independentUs - e.sharedUs := by
    rw [UInt64.le_iff_toNat_le, hsaving]
    exact Nat.sub_pos_of_lt hlt
  rw [UInt64.toNat_sub_of_le _ _ hone, hsaving]
  have : (1 : UInt64).toNat = 1 := rfl
  omega

theorem le_limit_iff {e : CostEntry} (h : e.sharedUs < e.independentUs) :
    ageUs ≤ e.limit ↔ ageUs ≤ e.maxAgeUs ∧ ageUs < e.independentUs - e.sharedUs := by
  have hlt := UInt64.lt_iff_toNat_lt.mp h
  have hsaving : (e.independentUs - e.sharedUs).toNat = e.independentUs.toNat - e.sharedUs.toNat :=
    UInt64.toNat_sub_of_le _ _ (UInt64.le_iff_toNat_le.mpr (Nat.le_of_lt hlt))
  have hprofit := profitable_toNat h
  simp only [CostEntry.limit]
  split
  · next hmax =>
    rw [UInt64.lt_iff_toNat_lt] at hmax
    rw [UInt64.le_iff_toNat_le, UInt64.lt_iff_toNat_lt, hsaving]
    omega
  · next hmax =>
    rw [UInt64.lt_iff_toNat_lt] at hmax
    rw [UInt64.le_iff_toNat_le, UInt64.le_iff_toNat_le, UInt64.lt_iff_toNat_lt, hsaving]
    omega

theorem find_iff (wanted : CostEntry) {e : CostEntry} :
    policy.entries.find? (·.sameKey wanted) = some e ↔ e ∈ policy.entries ∧ e.sameKey wanted := by
  constructor
  · exact fun h => ⟨mem_of_find?_eq_some h, by simpa using List.find?_some h⟩
  rintro ⟨hmem, hkey⟩
  have hdistinct := policy.distinct
  generalize policy.entries = entries at hmem hdistinct ⊢
  induction entries with
  | nil => cases hmem
  | cons other rest ih =>
    obtain ⟨hother, hrest⟩ := pairwise_cons.mp hdistinct
    rcases mem_cons.mp hmem with rfl | hmem
    · simp only [find?_cons, hkey]
    · have hne : ¬ other.sameKey wanted := fun h =>
        Bool.false_ne_true ((hother e hmem).symm.trans (sameKey_comm h hkey))
      simp only [find?_cons, hne, ih hmem hrest]

theorem pays_iff (wanted : CostEntry) :
    policy.Pays wanted ageUs ↔
      (match policy.entries.find? (·.sameKey wanted) with
        | some e => ageUs ≤ e.maxAgeUs && e.sharedUs < e.independentUs && ageUs < e.independentUs - e.sharedUs
        | none => false) = true := by
  constructor
  · rintro ⟨e, hmem, hkey, hshared, hage⟩
    rw [(find_iff wanted).mpr ⟨hmem, hkey⟩]
    simpa [hshared] using (le_limit_iff hshared).mp hage
  · intro h
    split at h
    · next e he =>
      obtain ⟨hmem, hkey⟩ := (find_iff wanted).mp he
      simp only [Bool.and_eq_true, decide_eq_true_eq] at h
      exact ⟨e, hmem, hkey, h.1.2, (le_limit_iff h.1.2).mpr ⟨h.1.1, h.2⟩⟩
    · cases h

theorem permits_iff : policy.permits family input output bits first second ageUs = true ↔
    Shaped family input output bits first ∧ 1 ≤ second ∧ second ≤ 8 ∧ ageUs ≤ policy.ageCap ∧
      (policy.testPermitUnderfilled = true ∨ first + second = 16 ∨
        policy.Pays (key family input output bits first second) ageUs) := by
  unfold permits Shaped
  by_cases hage : ageUs ≤ policy.ageCap
  · simp only [gt_iff_lt, UInt64.not_lt.mpr hage, or_false, hage, true_and]
    split
    · next hout => exact iff_of_false Bool.false_ne_true fun h => by omega
    next hin =>
    have hshape : ¬ (family ≥ familyCount ∨ input ≤ 0 ∨ output ≤ 0 ∨ bits < 5 ∨ bits > 8 ∨ first < 1 ∨ first > 8) ∧
        1 ≤ second ∧ second ≤ 8 := by omega
    rw [← and_assoc, ← and_assoc, and_iff_right (and_assoc.mpr hshape)]
    split
    · next htest => simp [htest]
    split
    · next hfull => simp [hfull]
    · next htest hfull => simp only [← pays_iff, htest, hfull, false_or, Bool.false_eq_true]
  · rw [if_pos (by simp only [gt_iff_lt, UInt64.not_le.mp hage, or_true])]
    exact iff_of_false Bool.false_ne_true fun h => hage h.2.2.2.1

theorem zero_le (a : UInt64) : 0 ≤ a := UInt64.le_iff_toNat_le.mpr (Nat.zero_le _)

theorem permits_zero (h : policy.permits family input output bits first second ageUs = true) :
    policy.permits family input output bits first second 0 = true := by
  obtain ⟨hshape, hlow, hhigh, -, hwhy⟩ := permits_iff.mp h
  refine permits_iff.mpr ⟨hshape, hlow, hhigh, zero_le _, ?_⟩
  rcases hwhy with htest | hfull | ⟨e, hmem, hkey, hshared, -⟩
  · exact .inl htest
  · exact .inr (.inl hfull)
  · exact .inr (.inr ⟨e, hmem, hkey, hshared, zero_le _⟩)

theorem raiseBudget_iff (budget : UInt64) :
    ageUs ≤ policy.raiseBudget family input output bits first second budget ↔
      ageUs ≤ budget ∨ ∃ e ∈ policy.entries, e.sameKey (key family input output bits first second) ∧
        ageUs ≤ e.limit := by
  unfold raiseBudget
  induction policy.entries generalizing budget with
  | nil => simp
  | cons e rest ih =>
    rw [foldl_cons, ih, exists_mem_cons_iff, ← or_assoc]
    refine or_congr_left ?_
    split
    · next hkey =>
      simp only [hkey, true_and]
      split
      · next hraise =>
        refine ⟨.inr, fun h => h.elim (fun h => UInt64.le_trans h (UInt64.le_of_lt hraise)) id⟩
      · next hkeep =>
        refine ⟨.inl, fun h => h.elim id fun h => UInt64.le_trans h (UInt64.not_lt.mp hkeep)⟩
    · next hkey => simp [hkey]

theorem limit_le_maxAge (e : CostEntry) : e.limit ≤ e.maxAgeUs := by
  simp only [CostEntry.limit]
  split
  · exact UInt64.le_refl _
  · next h => exact UInt64.not_lt.mp h

theorem permits_entry (hzero : policy.permits family input output bits first second 0 = true)
    (htest : ¬ policy.testPermitUnderfilled = true) (hfull : first + second ≠ 16) :
    policy.permits family input output bits first second ageUs = true ↔
      ∃ e ∈ policy.entries, e.sameKey (key family input output bits first second) ∧ ageUs ≤ e.limit := by
  obtain ⟨hshape, hlow, hhigh, -, hwhy⟩ := permits_iff.mp hzero
  obtain ⟨found, hfound, hfoundKey, hshared, -⟩ := (hwhy.resolve_left htest).resolve_left hfull
  rw [permits_iff]
  constructor
  · rintro ⟨-, -, -, -, hwhy⟩
    obtain ⟨e, hmem, hkey, -, hage⟩ := (hwhy.resolve_left htest).resolve_left hfull
    exact ⟨e, hmem, hkey, hage⟩
  · rintro ⟨e, hmem, hkey, hage⟩
    have heq : e = found := Option.some.inj
      (((find_iff _).mpr ⟨hmem, hkey⟩).symm.trans ((find_iff _).mpr ⟨hfound, hfoundKey⟩))
    subst heq
    have hcap : e.maxAgeUs ≤ policy.ageCap := by
      have hvalid := policy.valid e hmem
      rw [ageCap, if_neg htest]
      exact UInt64.not_lt.mp fun h => hvalid (by simp [h])
    exact ⟨hshape, hlow, hhigh, UInt64.le_trans hage (UInt64.le_trans (limit_le_maxAge e) hcap),
      .inr (.inr ⟨e, hmem, hkey, hshared, hage⟩)⟩

theorem permits_cap (h : policy.permits family input output bits first second ageUs = true) :
    ageUs ≤ policy.ageCap := (permits_iff.mp h).2.2.2.1

theorem budgetLoop_iff (rest : List Int) : ∀ budget ≤ policy.ageCap,
    (ageUs ≤ policy.budgetLoop family input output bits first rest budget ↔
      ageUs ≤ budget ∨ ∃ second ∈ rest, policy.permits family input output bits first second ageUs = true) := by
  induction rest with
  | nil => simp [budgetLoop]
  | cons second rest ih =>
    intro budget hbudget
    rw [budgetLoop, exists_mem_cons_iff]
    split
    · next hno =>
      have hnone : ¬ policy.permits family input output bits first second ageUs = true := fun h => by
        simp [permits_zero h] at hno
      rw [ih budget hbudget, or_iff_right hnone]
    next hyes =>
    have hzero : policy.permits family input output bits first second 0 = true := by simpa using hyes
    obtain ⟨hshape, hlow, hhigh, -, -⟩ := permits_iff.mp hzero
    by_cases hall : policy.testPermitUnderfilled = true ∨ first + second = 16
    · -- the budget returned is the age cap, which this row count permits
      have hcap : ageUs ≤ policy.ageCap ↔ ageUs ≤ budget ∨
          policy.permits family input output bits first second ageUs = true ∨
            ∃ second ∈ rest, policy.permits family input output bits first second ageUs = true := by
        constructor
        · exact fun h => .inr (.inl (permits_iff.mpr ⟨hshape, hlow, hhigh, h, hall.imp_right .inl⟩))
        · rintro (h | h | ⟨other, -, h⟩)
          · exact UInt64.le_trans h hbudget
          · exact permits_cap h
          · exact permits_cap h
      rw [← hcap, ageCap]
      split
      · rfl
      · next htest => rw [if_pos (hall.resolve_left htest)]
    rw [not_or] at hall
    have hentry (age : UInt64) : policy.permits family input output bits first second age = true ↔ _ :=
      permits_entry hzero hall.1 hall.2
    have hraise : policy.raiseBudget family input output bits first second budget ≤ policy.ageCap := by
      rcases (raiseBudget_iff budget).mp (UInt64.le_refl _) with h | h
      · exact UInt64.le_trans h hbudget
      · exact permits_cap ((hentry _).mpr h)
    rw [if_neg hall.1, if_neg hall.2, ih _ hraise, raiseBudget_iff, ← hentry, or_assoc]

theorem mem_peerRows : second ∈ peerRows ↔ 1 ≤ second ∧ second ≤ 8 := by
  simp only [peerRows, mem_cons, not_mem_nil, or_false]
  omega

theorem mayWait_iff : policy.mayWait family input output bits first = true ↔
    ∃ second ∈ peerRows, policy.permits family input output bits first second 0 = true := by
  unfold mayWait
  split
  · next hfirst =>
    subst hfirst
    constructor
    · exact fun h => ⟨8, mem_peerRows.mpr (by omega), h⟩
    · rintro ⟨second, -, h⟩
      exact permits_iff.mpr ⟨(permits_iff.mp h).1, by omega, by omega, zero_le _, .inr (.inl rfl)⟩
  · exact any_eq_true

/-- Some peer permits an age exactly when the first may wait and the age is within its budget; and
    where an entry's limit counts, its costs do not wrap. -/
theorem wait_budget_exact (policy : Exl3PackedCostPolicy) (family : Nat) (input output bits first : Int) :
    (∀ ageUs, (∃ second, 1 ≤ second ∧ second ≤ 8 ∧
        policy.permits family input output bits first second ageUs = true) ↔
      policy.mayWait family input output bits first = true ∧
        ageUs ≤ policy.waitBudgetUs family input output bits first) ∧
    ∀ second, policy.permits family input output bits first second 0 = true →
      ¬ policy.testPermitUnderfilled = true → first + second ≠ 16 →
      ∀ e ∈ policy.entries, e.sameKey (key family input output bits first second) →
        (e.independentUs - e.sharedUs - 1).toNat + e.sharedUs.toNat + 1 = e.independentUs.toNat := by
  refine ⟨fun ageUs => ?_, fun second hzero htest hfull e hmem hkey => ?_⟩
  · have hpeer : (∃ second, 1 ≤ second ∧ second ≤ 8 ∧
          policy.permits family input output bits first second ageUs = true) ↔
        ∃ second ∈ peerRows, policy.permits family input output bits first second ageUs = true := by
      simp only [mem_peerRows, and_assoc]
    rw [hpeer, mayWait_iff, waitBudgetUs, budgetLoop_iff peerRows 0 (zero_le _)]
    constructor
    · rintro ⟨second, hsecond, h⟩
      exact ⟨⟨second, hsecond, permits_zero h⟩, .inr ⟨second, hsecond, h⟩⟩
    · rintro ⟨hmay, hage | hsome⟩
      · rw [show ageUs = 0 from UInt64.le_antisymm hage (zero_le _)]
        exact hmay
      · exact hsome
  · obtain ⟨-, -, -, -, hwhy⟩ := permits_iff.mp hzero
    obtain ⟨found, hfound, hfoundKey, hshared, -⟩ := (hwhy.resolve_left htest).resolve_left hfull
    have heq : e = found := Option.some.inj
      (((find_iff _).mpr ⟨hmem, hkey⟩).symm.trans ((find_iff _).mpr ⟨hfound, hfoundKey⟩))
    exact heq ▸ profitable_toNat hshared

end Exl3PackedCostPolicy

end VoidInfer.Exl3
