import Mathlib.Data.List.Infix
import Mathlib.Logic.Relation
import VoidInfer.Base
import VoidInfer.Lib.Throwing

/-
  `Exl3HierarchyFrontiers`: the frontiers P/A/S/D of a request, and the completions that move them. A completion names
  its request, root and epoch; it is current if these are. A `Ledger` adds what the class does not keep: which
  completions it has issued since the last settlement, and since the last event that discarded tentative rows. Positions
  are integers and counters naturals: the code's `int` and `uint64_t` hold the same values while no position exceeds
  2^31 − 9, so that the eight rows of `begin_l0` fit, and fewer than 2^64 epochs and root versions have passed.
-/

namespace VoidInfer.Exl3.Hierarchy
open List Option

open Throwing

/-! ## The class -/

structure Completion where
  request : Nat
  rootVersion : Nat
  epoch : Nat
  first : Int
  rows : Int
deriving DecidableEq

structure Publication where
  first : Int
  rows : Int
  rootVersion : Nat
  epoch : Nat

structure RunAhead where
  dependency : Completion
  first : Int
  rows : Int

/-- `Exl3HierarchyFrontiers`. -/
structure Frontiers where
  request : Nat
  rootVersion : Nat := 1
  epoch : Nat := 1
  published : Int
  authoritative : Int
  screened : Int
  drafted : Int
deriving DecidableEq

/-- A call; what it changed before it throws stays changed. -/
abbrev Exec := EStateM Exn Frontiers

/-- The constructor. -/
def create (request : Nat) (position : Int) : Except Exn Frontiers := do
  throwIf (request = 0 ∨ position < 0) (.invalidArgument "hierarchy frontier identity/position")
  return { request, published := position, authoritative := position, screened := position, drafted := position }

def Frontiers.current (f : Frontiers) (first rows : Int) : Completion :=
  { request := f.request, rootVersion := f.rootVersion, epoch := f.epoch, first, rows }

/-- `current_completion`. -/
def Frontiers.isCurrent (f : Frontiers) (c : Completion) : Prop :=
  c.request = f.request ∧ c.rootVersion = f.rootVersion ∧ c.epoch = f.epoch

instance (f : Frontiers) (c : Completion) : Decidable (f.isCurrent c) := inferInstanceAs (Decidable (_ ∧ _))

/-- The order of the frontiers. -/
def Frontiers.Ordered (f : Frontiers) : Prop :=
  f.published ≤ f.authoritative ∧ f.authoritative ≤ f.screened ∧ f.screened ≤ f.drafted

instance (f : Frontiers) : Decidable f.Ordered := inferInstanceAs (Decidable (_ ∧ _))

/-- `if (bad(frontiers)) throw std::logic_error(what);`. -/
def require (bad : Frontiers → Prop) [DecidablePred bad] (what : String) : Exec Unit := do
  let f ← get
  if bad f then throw (.logicError what)

def validate (c : Completion) : Exec Unit := require (fun f => ¬ f.isCurrent c) "hierarchy stale completion"

def check : Exec Unit := require (fun f => ¬ f.Ordered) "hierarchy P/A/S/D invariant"

def beginL0 (rows : Int) : Exec Completion := do
  require (fun f => rows < 1 ∨ rows > 8 ∨ f.screened ≠ f.drafted) "hierarchy L0 lead extent/state"
  let f ← get
  set { f with drafted := f.drafted + rows }
  check
  return f.current f.drafted rows

def completeL1 (c : Completion) (authorizedRows : Int) (repaired : Bool) : Exec Unit := do
  validate c
  require (fun f => c.first ≠ f.screened ∨ authorizedRows < 1 ∨ authorizedRows > c.rows)
    "hierarchy L1 completion range"
  modify fun f => { f with screened := f.screened + authorizedRows }
  modify fun f => if repaired then { f with drafted := f.screened } else f
  require (fun f => f.screened > f.drafted) "hierarchy L1 exceeds draft frontier"
  check

def beginL2 : Exec Completion := do
  require (fun f => f.screened - f.authoritative < 1 ∨ f.screened - f.authoritative > 32) "hierarchy L2 range"
  let f ← get
  return f.current f.authoritative (f.screened - f.authoritative)

def beginRunAhead (dependency : Completion) (rows : Int) : Exec RunAhead := do
  validate dependency
  require (fun f => dependency.first ≠ f.authoritative ∨ dependency.rows ≠ f.screened - f.authoritative ∨
    rows < 1 ∨ rows > 8) "hierarchy run-ahead dependency/range"
  return { dependency, first := dependency.first + dependency.rows, rows }

def completeL2 (c : Completion) (committedRows : Int) : Exec Unit := do
  validate c
  require (fun f => c.first ≠ f.authoritative ∨ committedRows < 1 ∨ committedRows > c.rows)
    "hierarchy L2 completion range"
  modify fun f => { f with authoritative := f.authoritative + committedRows }
  modify fun f => { f with screened := f.authoritative, drafted := f.authoritative }
  check

def publishAuthorized : Exec Publication := do
  require (fun f => f.published ≥ f.authoritative) "hierarchy has no authorized publication"
  let f ← get
  set { f with published := f.authoritative }
  check
  return { first := f.published, rows := f.authoritative - f.published, rootVersion := f.rootVersion, epoch := f.epoch }

def rebase : Exec Unit := do
  require (fun f => f.published ≠ f.authoritative ∨ f.authoritative ≠ f.screened ∨ f.screened ≠ f.drafted)
    "hierarchy rebase requires settled frontiers"
  modify fun f => { f with rootVersion := f.rootVersion + 1, epoch := f.epoch + 1 }

def cancelTentative : Exec Unit := do
  require (fun f => f.published ≠ f.authoritative) "hierarchy cancel requires published authority"
  modify fun f => { f with screened := f.authoritative, drafted := f.authoritative, epoch := f.epoch + 1 }
  check

/-! ## Runs -/

inductive Call where
  | beginL0 (rows : Int)
  | completeL1 (c : Completion) (authorizedRows : Int) (repaired : Bool)
  | beginL2
  | beginRunAhead (dependency : Completion) (rows : Int)
  | completeL2 (c : Completion) (committedRows : Int)
  | publishAuthorized
  | rebase
  | cancelTentative

namespace Call

/-- A call, with the completion that it issues. -/
def run : Call → Exec (Option Completion)
  | beginL0 rows => some <$> Hierarchy.beginL0 rows
  | completeL1 c authorizedRows repaired => do Hierarchy.completeL1 c authorizedRows repaired; return none
  | beginL2 => some <$> Hierarchy.beginL2
  | beginRunAhead dependency rows => do discard (Hierarchy.beginRunAhead dependency rows); return none
  | completeL2 c committedRows => do Hierarchy.completeL2 c committedRows; return none
  | publishAuthorized => do discard Hierarchy.publishAuthorized; return none
  | rebase => do Hierarchy.rebase; return none
  | cancelTentative => do Hierarchy.cancelTentative; return none

/-- An L2 settlement, a repair or a cancellation. -/
def discards : Call → Bool
  | completeL1 _ _ repaired => repaired
  | completeL2 _ _ | cancelTentative => true
  | _ => false

def settles : Call → Bool
  | completeL2 _ _ => true
  | _ => false

def drafts : Call → Bool
  | beginL0 _ => true
  | _ => false

end Call

/-- The frontiers with the completions they have issued. -/
structure Ledger where
  frontiers : Frontiers
  /-- All of them. -/
  issued : List Completion := []
  /-- Those of `begin_l0` since the last settlement. -/
  recent : List Completion := []
  /-- Those of `begin_l0` since the last event that discarded tentative rows. -/
  fresh : List Completion := []

/-- A list of completions after a successful call. -/
def record (reset keep : Bool) (c : Option Completion) (l : List Completion) : List Completion :=
  if reset then [] else if keep then l ++ c.toList else l

/-- A call on the ledger, and whether it returned. -/
def step (l : Ledger) (call : Call) : Bool × Ledger :=
  match call.run l.frontiers with
  | .ok c frontiers => (true,
      { frontiers, issued := record false true c l.issued, recent := record call.settles call.drafts c l.recent
        fresh := record call.discards call.drafts c l.fresh })
  | .error _ frontiers => (false, { l with frontiers })

/-- What the ledger owes: the order, also after a throw, which changes no frontier; published
    and authoritative rows stay; and only rows drafted since the last discard are screened. -/
structure Meets (l : Ledger) (call : Call) : Prop where
  ordered : (step l call).2.frontiers.Ordered
  unchanged : (step l call).1 = false → (step l call).2.frontiers = l.frontiers
  published : l.frontiers.published ≤ (step l call).2.frontiers.published
  authoritative : l.frontiers.authoritative ≤ (step l call).2.frontiers.authoritative
  fresh : ∀ c authorizedRows repaired, call = .completeL1 c authorizedRows repaired →
    (step l call).1 = true → c ∈ l.fresh

/-- `complete_l1` is not given a completion from before the last settlement that starts at the
    screened frontier again. -/
def Timely (l : Ledger) (call : Call) : Prop :=
  ∀ c authorizedRows repaired, call = .completeL1 c authorizedRows repaired →
    l.frontiers.isCurrent c → c.first = l.frontiers.screened → 1 ≤ authorizedRows → authorizedRows ≤ c.rows →
    c ∈ l.recent

/-- The ledgers that calls with `allowed` lead to. -/
def Reaches (allowed : Ledger → Call → Prop) : Ledger → Ledger → Prop :=
  Relation.ReflTransGen fun l l' => ∃ call, allowed l call ∧ l' = (step l call).2

/-! ## Calls -/

section Calls

variable {f : Frontiers}

variable {Q : Unit → Frontiers → Prop} {E : Exn → Frontiers → Prop}

theorem wp_require {bad : Frontiers → Prop} [DecidablePred bad] {what : String}
    (hbad : bad f → E (.logicError what) f) (hgood : ¬ bad f → Q () f) :
    wp (require bad what) Q E f := by
  unfold require
  rw [wp_get_bind]
  split
  · next h => exact hbad h
  · next h => exact hgood h

/-- What a call does: its effect on frontiers that are in order. -/
inductive Effect (f : Frontiers) : Call → Option Completion → Frontiers → Prop
  | drafted {rows : Int} (hrows : 1 ≤ rows) (hlead : f.screened = f.drafted) :
      Effect f (.beginL0 rows) (some (f.current f.drafted rows)) { f with drafted := f.drafted + rows }
  | screened {c : Completion} {n : Int} (hcurrent : f.isCurrent c) (hfirst : c.first = f.screened) (hn : 1 ≤ n)
      (hrows : n ≤ c.rows) (hle : f.screened + n ≤ f.drafted) :
      Effect f (.completeL1 c n false) none { f with screened := f.screened + n }
  | repaired {c : Completion} {n : Int} (hcurrent : f.isCurrent c) (hfirst : c.first = f.screened) (hn : 1 ≤ n)
      (hrows : n ≤ c.rows) :
      Effect f (.completeL1 c n true) none { f with screened := f.screened + n, drafted := f.screened + n }
  | verifying : Effect f .beginL2 (some (f.current f.authoritative (f.screened - f.authoritative))) f
  | ahead {c : Completion} {rows : Int} : Effect f (.beginRunAhead c rows) none f
  | settled {c : Completion} {n : Int} (hn : 1 ≤ n) :
      Effect f (.completeL2 c n) none { f with
        authoritative := f.authoritative + n, screened := f.authoritative + n, drafted := f.authoritative + n }
  | published : Effect f .publishAuthorized none { f with published := f.authoritative }
  | rebased : Effect f .rebase none { f with rootVersion := f.rootVersion + 1, epoch := f.epoch + 1 }
  | cancelled : Effect f .cancelTentative none
      { f with screened := f.authoritative, drafted := f.authoritative, epoch := f.epoch + 1 }

/-- A completion passes the checks of `complete_l1`. -/
def Passes (f : Frontiers) (c : Completion) (n : Int) : Prop :=
  f.isCurrent c ∧ c.first = f.screened ∧ 1 ≤ n ∧ n ≤ c.rows

theorem wp_check (h : f.Ordered) (hQ : Q () f) : wp check Q E f := wp_require (fun hbad => absurd h hbad) fun _ => hQ

theorem wp_completeL1 (hord : f.Ordered) (c : Completion) (n : Int) (repaired : Bool) :
    wp (completeL1 c n repaired) (fun _ f' => Effect f (.completeL1 c n repaired) none f')
      (fun _ f' => (f' = f ∧ ¬ Passes f c n) ∨ (Passes f c n ∧ f'.screened ≠ f.screened ∧ repaired = false ∧
        f.drafted < f.screened + n)) f := by
  obtain ⟨h1, h2, h3⟩ := hord
  unfold completeL1 validate
  rw [wp_bind]
  refine wp_require (fun hstale => .inl ⟨rfl, fun hpasses => hstale hpasses.1⟩) fun hcurrent => ?_
  have hcurrent : f.isCurrent c := by simpa using hcurrent
  rw [wp_bind]
  refine wp_require (fun hbad => .inl ⟨rfl, ?_⟩) fun hrange => ?_
  · rintro ⟨-, hfirst, hn, hrows⟩
    rcases hbad with hne | hlow | hhigh
    · exact hne hfirst
    · omega
    · omega
  have hfirst : c.first = f.screened := by
    by_contra hne
    exact hrange (.inl hne)
  have hn : 1 ≤ n ∧ n ≤ c.rows := by omega
  rw [wp_bind, wp_modify, wp_bind, wp_modify, wp_bind]
  cases repaired with
  | true =>
    refine wp_require (fun hbad => ?_) fun _ => ?_
    · simp at hbad
    refine wp_check ⟨?_, ?_, ?_⟩ (.repaired hcurrent hfirst hn.1 hn.2)
    · exact h1
    · show f.authoritative ≤ f.screened + n
      omega
    · exact Int.le_refl _
  | false =>
    refine wp_require (fun hbad => ?_) fun hgood => ?_
    · have hbad : f.screened + n > f.drafted := hbad
      refine .inr ⟨⟨hcurrent, hfirst, hn.1, hn.2⟩, ?_, rfl, by omega⟩
      show f.screened + n ≠ f.screened
      omega
    have hle : f.screened + n ≤ f.drafted := by simpa using hgood
    refine wp_check ⟨?_, ?_, ?_⟩ (.screened hcurrent hfirst hn.1 hn.2 hle)
    · exact h1
    · show f.authoritative ≤ f.screened + n
      omega
    · exact hle

theorem wp_call (hord : f.Ordered) (call : Call) (hcall : ∀ c n repaired, call ≠ .completeL1 c n repaired) :
    wp call.run (fun c f' => Effect f call c f') (fun _ f' => f' = f) f := by
  obtain ⟨h1, h2, h3⟩ := hord
  cases call with simp only [Call.run, wp_bind]
  | beginL0 rows =>
    simp only [wp_map]
    unfold beginL0
    rw [wp_bind]
    refine wp_require (fun _ => rfl) fun hgood => ?_
    rw [wp_get_bind]
    rw [wp_bind, wp_set, wp_bind]
    refine wp_check ⟨h1, h2, ?_⟩ ?_
    · show f.screened ≤ f.drafted + rows
      omega
    exact .drafted (by omega) (by omega)
  | completeL1 c n repaired => exact absurd rfl (hcall c n repaired)
  | beginL2 =>
    simp only [wp_map]
    unfold beginL2
    rw [wp_bind]
    refine wp_require (fun _ => rfl) fun _ => ?_
    exact .verifying
  | beginRunAhead c rows =>
    simp only [wp_discard]
    unfold beginRunAhead validate
    rw [wp_bind]
    refine wp_require (fun _ => rfl) fun _ => ?_
    rw [wp_bind]
    refine wp_require (fun _ => rfl) fun _ => ?_
    exact .ahead
  | completeL2 c n =>
    unfold completeL2 validate
    rw [wp_bind]
    refine wp_require (fun _ => rfl) fun _ => ?_
    rw [wp_bind]
    refine wp_require (fun _ => rfl) fun hrange => ?_
    rw [wp_bind, wp_modify, wp_bind, wp_modify]
    refine wp_check ⟨?_, Int.le_refl _, Int.le_refl _⟩ (.settled (by omega))
    show f.published ≤ f.authoritative + n
    omega
  | publishAuthorized =>
    simp only [wp_discard]
    unfold publishAuthorized
    rw [wp_bind]
    refine wp_require (fun _ => rfl) fun _ => ?_
    rw [wp_get_bind]
    rw [wp_bind, wp_set, wp_bind]
    exact wp_check ⟨Int.le_refl _, h2, h3⟩ .published
  | rebase =>
    unfold rebase
    rw [wp_bind]
    refine wp_require (fun _ => rfl) fun _ => ?_
    exact .rebased
  | cancelTentative =>
    unfold cancelTentative
    rw [wp_bind]
    refine wp_require (fun _ => rfl) fun _ => ?_
    exact wp_check ⟨h1, Int.le_refl _, Int.le_refl _⟩ .cancelled

theorem Effect.ordered {call : Call} {c : Option Completion} {f' : Frontiers} (h : Effect f call c f')
    (hord : f.Ordered) : f'.Ordered ∧ f.published ≤ f'.published ∧ f.authoritative ≤ f'.authoritative := by
  obtain ⟨h1, h2, h3⟩ := hord
  unfold Frontiers.Ordered
  cases h <;> simp only [Int.le_refl, true_and, and_true] <;> omega

end Calls

/-! ## Ledgers -/

/-- The invariant: the order, and what the recent completions can still do. One of the current
    epoch is behind the screened frontier, or it is the draft's and fresh. -/
structure Consistent (l : Ledger) : Prop where
  ordered : l.frontiers.Ordered
  rows : ∀ c ∈ l.recent, 1 ≤ c.rows ∧ c.epoch ≤ l.frontiers.epoch
  recent : ∀ c ∈ l.recent, c.epoch = l.frontiers.epoch → c.first < l.frontiers.screened ∨
    (c.first = l.frontiers.screened ∧ c.first + c.rows = l.frontiers.drafted ∧ c ∈ l.fresh)
  fresh : ∀ c ∈ l.fresh, c ∈ l.recent

section Ledgers

variable {l : Ledger} {call : Call}

section
variable (h : Consistent l)
include h

/-- A successful call keeps the invariant. -/
theorem Consistent.effect {c : Option Completion} {f' : Frontiers} (heffect : Effect l.frontiers call c f') :
    Consistent { frontiers := f', issued := record false true c l.issued
                 recent := record call.settles call.drafts c l.recent
                 fresh := record call.discards call.drafts c l.fresh } := by
  refine ⟨(heffect.ordered h.ordered).1, ?_, ?_, ?_⟩
  · intro d hd
    cases heffect with
    | drafted hrows =>
      rcases mem_append.mp hd with hd | hd
      · exact h.rows d hd
      obtain rfl := mem_singleton.mp hd
      exact ⟨hrows, le_rfl⟩
    | settled => simp [record, Call.settles] at hd
    | rebased =>
      obtain ⟨hrows, hepoch⟩ := h.rows d hd
      exact ⟨hrows, Nat.le_succ_of_le hepoch⟩
    | cancelled =>
      obtain ⟨hrows, hepoch⟩ := h.rows d hd
      exact ⟨hrows, Nat.le_succ_of_le hepoch⟩
    | screened | repaired | verifying | ahead | published => exact h.rows d hd
  · intro d hd hepoch
    cases heffect with
    | drafted hrows hlead =>
      rcases mem_append.mp hd with hd | hd
      · -- the last draft is screened, so what was issued before is behind
        left
        have hpos := (h.rows d hd).1
        rcases h.recent d hd hepoch with hlt | ⟨-, hend, -⟩
        · exact hlt
        show d.first < l.frontiers.screened
        omega
      obtain rfl := mem_singleton.mp hd
      right
      exact ⟨hlead.symm, rfl, mem_append_right _ (mem_singleton_self _)⟩
    | screened hcurrent hfirst hn =>
      left
      show d.first < l.frontiers.screened + _
      rcases h.recent d hd hepoch with hlt | ⟨heq, -⟩
      · omega
      · omega
    | repaired hcurrent hfirst hn =>
      left
      show d.first < l.frontiers.screened + _
      rcases h.recent d hd hepoch with hlt | ⟨heq, -⟩
      · omega
      · omega
    | settled => simp [record, Call.settles] at hd
    | rebased =>
      have hle := (h.rows d hd).2
      have hepoch : d.epoch = l.frontiers.epoch + 1 := hepoch
      omega
    | cancelled =>
      have hle := (h.rows d hd).2
      have hepoch : d.epoch = l.frontiers.epoch + 1 := hepoch
      omega
    | verifying | ahead | published => exact h.recent d hd hepoch
  · intro d hd
    cases heffect with
    | drafted =>
      rcases mem_append.mp hd with hd | hd
      · exact mem_append_left _ (h.fresh d hd)
      · exact mem_append_right _ hd
    | repaired | settled | cancelled => simp [record, Call.discards] at hd
    | screened | verifying | ahead | published | rebased => exact h.fresh d hd

theorem Consistent.passes {c : Completion} {n : Int} (hpasses : Passes l.frontiers c n)
    (hrecent : c ∈ l.recent) : c ∈ l.fresh ∧ l.frontiers.screened + n ≤ l.frontiers.drafted := by
  obtain ⟨hcurrent, hfirst, hn, hrows⟩ := hpasses
  rcases h.recent c hrecent hcurrent.2.2 with hlt | ⟨-, hend, hfresh⟩
  · omega
  · exact ⟨hfresh, by omega⟩

theorem step_cases (call : Call) :
    (∃ c f', Effect l.frontiers call c f' ∧ step l call = (true,
      { frontiers := f', issued := record false true c l.issued
        recent := record call.settles call.drafts c l.recent
        fresh := record call.discards call.drafts c l.fresh })) ∨
    (step l call = (false, l) ∧ ∀ c n repaired, call = .completeL1 c n repaired → ¬ Passes l.frontiers c n) ∨
    ∃ c n f', call = .completeL1 c n false ∧ step l call = (false, { l with frontiers := f' }) ∧
      Passes l.frontiers c n ∧ f'.screened ≠ l.frontiers.screened ∧ l.frontiers.drafted < l.frontiers.screened + n := by
  by_cases hcall : ∀ c n repaired, call ≠ .completeL1 c n repaired
  · have hwp := wp_call h.ordered call hcall
    unfold wp at hwp
    unfold step
    split at hwp
    · next c f' hrun =>
      rw [hrun]
      exact .inl ⟨c, f', hwp, rfl⟩
    next e f' hrun =>
    rw [hrun]
    subst hwp
    exact .inr (.inl ⟨rfl, fun c n repaired heq => absurd heq (hcall c n repaired)⟩)
  push Not at hcall
  obtain ⟨c, n, repaired, rfl⟩ := hcall
  have hwp : wp (Call.run (.completeL1 c n repaired))
      (fun c' f' => c' = none ∧ Effect l.frontiers (.completeL1 c n repaired) none f')
      (fun _ f' => (f' = l.frontiers ∧ ¬ Passes l.frontiers c n) ∨ (Passes l.frontiers c n ∧
        f'.screened ≠ l.frontiers.screened ∧ repaired = false ∧
        l.frontiers.drafted < l.frontiers.screened + n)) l.frontiers := by
    simp only [Call.run, wp_bind]
    exact wp_imp (wp_completeL1 h.ordered c n repaired) fun _ _ heffect => ⟨rfl, heffect⟩
  unfold wp at hwp
  unfold step
  split at hwp
  · next c' f' hrun =>
    obtain ⟨rfl, heffect⟩ := hwp
    rw [hrun]
    exact .inl ⟨none, f', heffect, rfl⟩
  next e f' hrun =>
  rw [hrun]
  rcases hwp with ⟨rfl, hnot⟩ | ⟨hpasses, hmoved, rfl, hbeyond⟩
  · refine .inr (.inl ⟨rfl, fun c' n' repaired' heq => ?_⟩)
    cases heq
    exact hnot
  · exact .inr (.inr ⟨c, n, f', rfl, rfl, hpasses, hmoved, hbeyond⟩)

theorem consistent_step (htimely : Timely l call) : Consistent (step l call).2 := by
  rcases step_cases h call with ⟨c, f', heffect, heq⟩ | ⟨heq, -⟩ | ⟨c, n, f', rfl, heq, hpasses, -, hbeyond⟩
  · rw [heq]
    exact h.effect heffect
  · rw [heq]
    exact h
  have hrecent := htimely c n false rfl hpasses.1 hpasses.2.1 hpasses.2.2.1 hpasses.2.2.2
  have hle := (h.passes hpasses hrecent).2
  omega

theorem consistent_reaches {l' : Ledger} (hreach : Reaches Timely l l') : Consistent l' := by
  induction hreach with
  | refl => exact h
  | tail _ hstep ih =>
    obtain ⟨call, htimely, rfl⟩ := hstep
    exact consistent_step ih htimely

end

variable {f : Frontiers}

theorem consistent_create {request : Nat} {position : Int} (h : create request position = .ok f) :
    Consistent { frontiers := f } := by
  obtain ⟨_, -, h⟩ := bind_ok h
  cases h
  exact ⟨⟨Int.le_refl _, Int.le_refl _, Int.le_refl _⟩, by simp, by simp, by simp⟩

theorem meets_of_timely (h : Consistent l) (htimely : Timely l call) : Meets l call := by
  rcases step_cases h call with ⟨c, f', heffect, heq⟩ | ⟨heq, -⟩ | ⟨c, n, f', rfl, heq, hpasses, -, hbeyond⟩
  · obtain ⟨hord, hpublished, hauthoritative⟩ := heffect.ordered h.ordered
    refine ⟨by rw [heq]; exact hord, by simp [heq], by rw [heq]; exact hpublished, by rw [heq]; exact hauthoritative, ?_⟩
    intro d n repaired hcall _
    subst hcall
    have hpasses : Passes l.frontiers d n := by
      cases heffect with
      | screened hcurrent hfirst hn hrows => exact ⟨hcurrent, hfirst, hn, hrows⟩
      | repaired hcurrent hfirst hn hrows => exact ⟨hcurrent, hfirst, hn, hrows⟩
    have hrecent := htimely d n repaired rfl hpasses.1 hpasses.2.1 hpasses.2.2.1 hpasses.2.2.2
    exact (h.passes hpasses hrecent).1
  · exact ⟨by rw [heq]; exact h.ordered, by simp [heq], by simp [heq], by simp [heq], by simp [heq]⟩
  have hrecent := htimely c n false rfl hpasses.1 hpasses.2.1 hpasses.2.2.1 hpasses.2.2.2
  have hle := (h.passes hpasses hrecent).2
  omega

/-- In every run of timely calls, in any order and with any completions, the frontiers are in
    order, and the next call does what the ledger owes exactly when it is timely too. -/
theorem frontiers_meet_iff_timely {request : Nat} {position : Int} {f : Frontiers}
    (hcreate : create request position = .ok f) {l : Ledger} (hreach : Reaches Timely { frontiers := f } l) :
    l.frontiers.Ordered ∧ ∀ call, Meets l call ↔ Timely l call := by
  have h := consistent_reaches (consistent_create hcreate) hreach
  refine ⟨h.ordered, fun call => ⟨?_, meets_of_timely h⟩⟩
  intro hmeets c n repaired hcall hcurrent hfirst hn hrows
  subst hcall
  rcases step_cases h _ with ⟨c', f', -, heq⟩ | ⟨-, hnot⟩ | ⟨c', n', f', -, heq, -, hmoved, -⟩
  · exact h.fresh c (hmeets.fresh c n repaired rfl (by rw [heq]))
  · exact absurd ⟨hcurrent, hfirst, hn, hrows⟩ (hnot c n repaired rfl)
  have hsame := hmeets.unchanged (by rw [heq])
  rw [heq] at hsame
  exact absurd (congrArg Frontiers.screened hsame) hmoved

/-- The ledger after the calls. -/
def after (f : Frontiers) (calls : List Call) : Ledger :=
  calls.foldl (fun l call => (step l call).2) { frontiers := f }

theorem reaches_after (allowed : Ledger → Call → Prop) {calls : List Call}
    (hallowed : ∀ i call, calls[i]? = some call → allowed (after f (calls.take i)) call) :
    Reaches allowed { frontiers := f } (after f calls) := by
  induction calls using List.reverseRecOn with
  | nil => exact .refl
  | append_singleton calls call ih =>
    have hlast := hallowed calls.length call (by simp)
    rw [take_left] at hlast
    refine .tail (ih ?_) ⟨call, hlast, by simp [after]⟩
    intro i call' hi
    have hlt := lt_of_getElem? hi
    have hprefix := hallowed i call' (by rw [getElem?_append_left hlt, hi])
    rwa [take_append_of_le_length (by omega)] at hprefix

/-- A request at position 0. -/
def freshFrontiers : Frontiers := { request := 1, published := 0, authoritative := 0, screened := 0, drafted := 0 }

/-- The completion of the second draft of `twoDrafts`. -/
def secondDraft : Completion := { request := 1, rootVersion := 1, epoch := 1, first := 8, rows := 8 }

/-- Eight rows are drafted and screened, the next eight are drafted. -/
def twoDrafts : List Call :=
  [.beginL0 8, .completeL1 { request := 1, rootVersion := 1, epoch := 1, first := 0, rows := 8 } 8 false, .beginL0 8]

/-- The rows of the second draft are discarded by the settlement of the first. -/
def settledBetween : List Call :=
  twoDrafts ++ [.beginL2, .completeL2 { request := 1, rootVersion := 1, epoch := 1, first := 0, rows := 8 } 8]

/-- The completion of discarded rows is accepted: at once, it throws and leaves the screened
    frontier beyond the draft; after a new, shorter draft it advances the frontier. -/
theorem settled_completion_advances :
    create 1 0 = .ok freshFrontiers ∧
    secondDraft ∈ (after freshFrontiers settledBetween).issued ∧
    (step (after freshFrontiers settledBetween) (.completeL1 secondDraft 3 false)).1 = false ∧
    ¬ (step (after freshFrontiers settledBetween) (.completeL1 secondDraft 3 false)).2.frontiers.Ordered ∧
    (step (after freshFrontiers (settledBetween ++ [.beginL0 4])) (.completeL1 secondDraft 3 false)).1 = true ∧
    secondDraft ∉ (after freshFrontiers (settledBetween ++ [.beginL0 4])).fresh ∧
    ¬ Meets (after freshFrontiers settledBetween) (.completeL1 secondDraft 3 false) ∧
    ¬ Meets (after freshFrontiers (settledBetween ++ [.beginL0 4])) (.completeL1 secondDraft 3 false) := by
  have hbeyond : ¬ (step (after freshFrontiers settledBetween) (.completeL1 secondDraft 3 false)).2.frontiers.Ordered := by
    decide
  have haccepted : (step (after freshFrontiers (settledBetween ++ [.beginL0 4])) (.completeL1 secondDraft 3 false)).1 = true := by
    decide
  have hstale : secondDraft ∉ (after freshFrontiers (settledBetween ++ [.beginL0 4])).fresh := by decide
  refine ⟨by decide, by decide, by decide, hbeyond, haccepted, hstale, fun h => hbeyond h.ordered, fun h => ?_⟩
  exact hstale (h.fresh secondDraft 3 false rfl haccepted)

/-- Two drafts, each screened before it is settled: the next draft may be screened. -/
theorem second_draft_screens :
    Reaches Timely { frontiers := freshFrontiers } (after freshFrontiers twoDrafts) ∧
    Timely (after freshFrontiers twoDrafts) (.completeL1 secondDraft 3 false) ∧
    Meets (after freshFrontiers twoDrafts) (.completeL1 secondDraft 3 false) := by
  have hcreate : create 1 0 = .ok freshFrontiers := by decide
  have hreach : Reaches Timely { frontiers := freshFrontiers } (after freshFrontiers twoDrafts) := by
    refine reaches_after Timely fun i call hi => ?_
    match i, hi with
    | 0, hi =>
      cases hi
      intro c n repaired heq
      simp at heq
    | 1, hi =>
      cases hi
      intro c n repaired heq _ _ _ _
      cases heq
      decide
    | 2, hi =>
      cases hi
      intro c n repaired heq
      simp at heq
  have htimely : Timely (after freshFrontiers twoDrafts) (.completeL1 secondDraft 3 false) := by
    intro c n repaired heq _ _ _ _
    cases heq
    decide
  exact ⟨hreach, htimely, ((frontiers_meet_iff_timely hcreate hreach).2 _).mpr htimely⟩

end Ledgers

end VoidInfer.Exl3.Hierarchy
