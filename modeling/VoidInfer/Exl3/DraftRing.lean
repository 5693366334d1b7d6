import Mathlib.Data.List.Basic
import VoidInfer.Base
import VoidInfer.Lib.Throwing

/-
  The draft ring (`Exl3Dflash2DraftModel` of `exl3/dflash2_draft.cu`) as an interval of rows: `base` is the position of
  its oldest row, `count` their number. The rows themselves are left out. Before position 0 there are no rows: a ring of
  a short context is filled up with masked slots there (`saturateVirtually`), and an export leaves them out.

  A commit adds rows at the end and drops the oldest. It can be undone once, if that was armed before (`RingUndo`), or
  by restoring what was exported. Which call throws, and how many rows it had committed by then, is data of the draft.
-/

namespace VoidInfer.Exl3

open Throwing

/-- `kRingKeep`, `kRingCap`. -/
def ringKeep : Nat := 2047

def ringCap : Nat := 2048

/-- `RingUndo::Phase`, where it is not idle. -/
inductive UndoPhase
  | armed | inFlight | applied
deriving DecidableEq

structure RingUndo where
  phase : UndoPhase
  rows : Nat
  absPos0 : Int
  base : Int
  count : Nat

/-- `Exl3DraftHostRing`. -/
structure HostRing where
  base : Int
  count : Nat

def HostRing.position (state : HostRing) : Int := state.base + state.count

structure DraftRing where
  base : Int := 0
  count : Nat := 0
  failed : Bool := false
  undo : Option RingUndo := none
  clock : Nat := 0

/-- The calls that throw, with the rows committed by then; whether the ring has a request and an arena for the undo. -/
structure Draft where
  fails : Nat → Option (Exn × Nat)
  bound : Bool

abbrev RingM := EStateM Exn DraftRing

namespace DraftRing

/-- `ring_base_abs + ring_count`. -/
def position (r : DraftRing) : Int := r.base + r.count

def saturateVirtually (r : DraftRing) : DraftRing :=
  if r.count = 0 ∨ ringKeep ≤ r.count then r
  else { r with base := r.position - ringKeep, count := ringKeep }

/-- One more row, the oldest dropped from a full ring. -/
def push (r : DraftRing) : DraftRing :=
  if r.count < ringKeep then { r with count := r.count + 1 } else { r with base := r.base + 1 }

def pushRows (r : DraftRing) : Nat → DraftRing
  | 0 => r
  | n + 1 => (r.pushRows n).push

/-- The ring of `finish_fresh_prefill`, for the positions from `start` to `finish`. -/
def fresh (start finish : Nat) : DraftRing :=
  let count := min ringKeep (finish - start)
  saturateVirtually { base := (finish : Int) - count, count }

/-- Nothing left of the ring. -/
def lost (r : DraftRing) : DraftRing := { r with failed := true, undo := none, count := 0 }

end DraftRing

namespace Draft

variable (d : Draft)

/-- One call of the draft: `broken` is the ring after it threw. -/
def attempt (broken : Nat → DraftRing → DraftRing) (f : DraftRing → DraftRing) : RingM Unit := fun r =>
  match d.fails r.clock with
  | some (e, rows) => .error e { broken rows r with clock := r.clock + 1 }
  | none => .ok () { f r with clock := r.clock + 1 }

def require (condition : DraftRing → Prop) [DecidablePred condition] (what : String) : RingM Unit := do
  let r ← get
  MonadExcept.ofExcept (throwIf (¬ condition r) (.runtimeError what))

def requireNoFreshPrefill : RingM Unit :=
  require (fun r => r.undo = none) "draft ring undo must finish before ordinary operation"

def exportHostRing : RingM HostRing := do
  requireNoFreshPrefill
  require (fun r => r.failed = false ∧ 0 < r.count ∧ r.count ≤ ringCap)
    "draft host export requires a completed bounded nonempty ring"
  d.attempt (fun _ r => r) fun r => r
  let r ← get
  let base := max r.base 0
  return ⟨base, (r.position - base).toNat⟩

def restoreHostRing (state : HostRing) : RingM Unit := do
  requireNoFreshPrefill
  require (fun _ => 0 < state.count ∧ state.count ≤ ringKeep ∧ 0 ≤ state.base ∧ state.position ≤ int32Max)
    "draft host restore identity/extent mismatch"
  d.attempt (fun _ r => { r with base := 0, count := 0, failed := true }) fun r =>
    ({ r with base := state.base, count := state.count, failed := false } : DraftRing).saturateVirtually

/-- `commit_prefill_block_internal`. -/
def commitRows (rows : Nat) (absPos0 : Int) : RingM Unit := do
  require (fun _ => 1 ≤ rows ∧ rows ≤ 16) "draft prefill commit requires1..16 rows"
  require (fun _ => 0 ≤ absPos0 ∧ absPos0 + rows ≤ int32Max) "draft prefill position out of range"
  require (fun r => r.count = 0 ∨ absPos0 = r.position) "draft prefill commit must extend committed span"
  modify fun r => if r.count = 0 then { r with base := absPos0 } else r
  d.attempt (fun done r => r.pushRows (min done rows)) fun r => r.pushRows rows

/-- `commit_prefill_block`, outside a fresh prefill. -/
def commitPrefillBlock (rows : Nat) (absPos0 : Int) : RingM Unit := do
  let r ← get
  match r.undo with
  | some undo =>
    require (fun _ => undo.phase = .armed ∧ rows = undo.rows ∧ absPos0 = undo.absPos0)
      "draft ring undo commit must match its armed interval and stream"
    set { r with undo := some { undo with phase := .inFlight } }
    tryCatch (d.commitRows rows absPos0) fun failure => do
      modify fun r => { r with failed := true }
      throw failure
    modify fun r => { r with undo := some { undo with phase := .applied } }
  | none =>
    tryCatch (d.commitRows rows absPos0) fun failure => do
      modify fun r => { r with failed := true }
      throw failure

def beginPrefillRingUndo (rows : Nat) (absPos0 : Int) : RingM Unit := do
  requireNoFreshPrefill
  require (fun r => r.failed = false ∧ d.bound = true ∧ r.count = ringKeep)
    "draft ring undo requires a healthy saturated ring"
  require (fun r => 1 ≤ rows ∧ rows ≤ 8 ∧ absPos0 = r.position ∧ 0 ≤ absPos0 ∧ absPos0 + rows ≤ int32Max)
    "draft ring undo extent must be one contiguous 1..8-row commit"
  d.attempt (fun _ r => r.lost) fun r => { r with undo := some ⟨.armed, rows, absPos0, r.base, r.count⟩ }

def acceptPrefillRingUndo : RingM Unit := do
  require (fun r => r.undo.any (·.phase = .applied) = true ∧ r.failed = false)
    "draft ring undo accept requires one completed matching commit"
  d.attempt (fun _ r => r.lost) fun r => { r with undo := none }

def rollbackPrefillRingUndo : RingM Unit := do
  require (fun r => r.undo ≠ none) "draft ring undo rollback requires its original stream"
  d.attempt (fun _ r => r.lost) fun r =>
    match r.undo with
    | some undo => { r with base := undo.base, count := undo.count, failed := false, undo := none }
    | none => r

def reset : RingM Unit :=
  d.attempt (fun _ r => { r with failed := true }) fun r =>
    { r with base := 0, count := 0, failed := false, undo := none }

end Draft

/-! ## A full ring -/

variable {d : Draft} {r : DraftRing} {n rows : Nat} {state : HostRing}

/-- The ring is full and ends here. -/
structure DraftRing.Full (r : DraftRing) (n : Nat) : Prop where
  base : r.base + ringKeep = n
  count : r.count = ringKeep
  failed : r.failed = false
  undo : r.undo = none

/-- The ring can go back to where it was full and ended here. -/
def DraftRing.Undoable (r : DraftRing) (n : Nat) : Prop :=
  ∃ undo, r.undo = some undo ∧ undo.base + ringKeep = n ∧ undo.count = ringKeep

/-- What the export of a full ring holds. -/
def HostRing.Of (state : HostRing) (n : Nat) : Prop :=
  state.base = max ((n : Int) - ringKeep) 0 ∧ state.position = n

theorem DraftRing.Full.position (h : r.Full n) : r.position = n := by
  unfold DraftRing.position
  rw [h.count]
  exact h.base

theorem DraftRing.full_saturated {base : Int} {count : Nat} (hpos : 0 < count) (hcount : count ≤ ringKeep)
    (hend : base + count = n) (hfailed : r.failed = false) (hundo : r.undo = none) :
    ({ r with base, count } : DraftRing).saturateVirtually.Full n := by
  unfold DraftRing.saturateVirtually DraftRing.position
  split
  · rename_i hfull
    have hkeep : count = ringKeep := by
      rcases hfull with hfull | hfull
      · exact absurd hfull (Nat.ne_of_gt hpos)
      · exact Nat.le_antisymm hcount hfull
    exact ⟨hkeep ▸ hend, hkeep, hfailed, hundo⟩
  refine ⟨?_, rfl, hfailed, hundo⟩
  show base + count - ringKeep + ringKeep = n
  omega

theorem DraftRing.full_fresh {start finish : Nat} (h : start < finish) : (DraftRing.fresh start finish).Full finish := by
  have hr : ({} : DraftRing).failed = false := rfl
  refine DraftRing.full_saturated ?_ (Nat.min_le_left _ _) (by omega) hr rfl
  unfold ringKeep
  omega

theorem DraftRing.Full.push (h : r.Full n) : r.push.Full (n + 1) := by
  unfold DraftRing.push
  rw [if_neg (by rw [h.count]; exact Nat.lt_irrefl _)]
  refine ⟨?_, h.count, h.failed, h.undo⟩
  have hbase := h.base
  push_cast
  omega

theorem DraftRing.Full.pushRows (h : r.Full n) (k : Nat) : (r.pushRows k).Full (n + k) := by
  induction k with
  | zero => exact h
  | succ k ih => exact ih.push

theorem DraftRing.pushRows_undo (undo : Option RingUndo) (k : Nat) :
    ({ r with undo } : DraftRing).pushRows k = { r.pushRows k with undo } := by
  induction k with
  | zero => rfl
  | succ k ih =>
    show (({ r with undo } : DraftRing).pushRows k).push = { (r.pushRows k).push with undo }
    rw [ih]
    unfold DraftRing.push
    split <;> rfl

theorem DraftRing.undo_pushRows (k : Nat) : (r.pushRows k).undo = r.undo := by
  have h : r.pushRows k = { r.pushRows k with undo := r.undo } := DraftRing.pushRows_undo r.undo k
  rw [h]

variable {Q : Unit → DraftRing → Prop} {E : Exn → DraftRing → Prop}

/-! ## Calls -/

theorem wp_ringAttempt {broken : Nat → DraftRing → DraftRing} {f : DraftRing → DraftRing}
    (hE : ∀ e k, E e { broken k r with clock := r.clock + 1 })
    (hQ : Q () { f r with clock := r.clock + 1 }) : wp (d.attempt broken f) Q E r := by
  unfold wp Draft.attempt
  cases hfail : d.fails r.clock with
  | some failure => exact hE failure.1 failure.2
  | none => exact hQ

theorem wp_ringRequire {condition : DraftRing → Prop} [DecidablePred condition] {what : String}
    (hE : ∀ e, E e r) (hQ : condition r → Q () r) : wp (Draft.require condition what) Q E r := by
  exact wp_ofExcept.mpr ⟨fun u hok => hQ (not_not.mp (throwIf_ok.mp hok)), fun e _ => hE e⟩

theorem DraftRing.Full.same (h : r.Full n) {k : Nat} : ({ r with clock := k } : DraftRing).Full n :=
  ⟨h.base, h.count, h.failed, h.undo⟩

theorem wp_exportHostRing (h : r.Full n) (hpos : 0 < n) :
    wp d.exportHostRing (fun state r' => r'.Full n ∧ state.Of n) (fun _ r' => r'.Full n) r := by
  simp only [Draft.exportHostRing, Draft.requireNoFreshPrefill, wp_bind]
  refine wp_ringRequire (fun _ => h) fun _ => wp_ringRequire (fun _ => h) fun _ => ?_
  refine wp_ringAttempt (fun _ _ => h.same) ?_
  refine ⟨h.same, ?_⟩
  have hbase := h.base
  have hcount := h.count
  unfold HostRing.Of HostRing.position DraftRing.position
  dsimp only
  omega

theorem wp_restoreHostRing (hstate : state.Of n) :
    wp (d.restoreHostRing state) (fun _ r' => r'.Full n) (fun _ _ => True) r := by
  simp only [Draft.restoreHostRing, Draft.requireNoFreshPrefill, wp_bind]
  refine wp_ringRequire (fun _ => trivial) fun hundo => wp_ringRequire (fun _ => trivial) fun hextent => ?_
  refine wp_ringAttempt (fun _ _ => trivial) ?_
  have hfailed : ({ r with failed := false } : DraftRing).failed = false := rfl
  exact (DraftRing.full_saturated hextent.1 hextent.2.1 hstate.2 hfailed hundo).same

theorem wp_commitRows (hcount : r.count = ringKeep) (hE : ∀ e r', r'.undo = r.undo → E e r')
    (hQ : Q () { r.pushRows rows with clock := r.clock + 1 }) : wp (d.commitRows rows n) Q E r := by
  have hr : (if r.count = 0 then { r with base := (n : Int) } else r) = r :=
    if_neg (by rw [hcount]; unfold ringKeep; omega)
  simp only [Draft.commitRows, wp_bind, wp_modify]
  refine wp_ringRequire (fun e => hE e r rfl) fun _ => wp_ringRequire (fun e => hE e r rfl) fun _ =>
    wp_ringRequire (fun e => hE e r rfl) fun _ => ?_
  rw [hr]
  exact wp_ringAttempt (fun e k => hE e _ (DraftRing.undo_pushRows _)) hQ

theorem wp_commitFull (h : r.Full n) :
    wp (d.commitPrefillBlock rows n) (fun _ r' => r'.Full (n + rows)) (fun _ _ => True) r := by
  simp only [Draft.commitPrefillBlock, wp_bind, wp_get, h.undo, wp_tryCatch, wp_modify, wp_throw]
  exact wp_commitRows h.count (fun _ _ _ => trivial) (h.pushRows rows).same

/-- The undo is armed for this commit. -/
def DraftRing.Armed (r : DraftRing) (n rows : Nat) : Prop :=
  ∃ undo, r.undo = some undo ∧ undo.phase = .armed ∧ undo.rows = rows ∧ undo.absPos0 = n ∧
    ({ r with undo := none } : DraftRing).Full n ∧ undo.base = r.base ∧ undo.count = r.count

/-- The commit was made, and can be undone or accepted. -/
structure DraftRing.Applied (r : DraftRing) (n rows : Nat) : Prop where
  undoable : r.Undoable n
  full : ({ r with undo := none } : DraftRing).Full (n + rows)

theorem wp_beginPrefillRingUndo (h : r.Full n) :
    wp (d.beginPrefillRingUndo rows n) (fun _ r' => r'.Armed n rows) (fun _ _ => True) r := by
  simp only [Draft.beginPrefillRingUndo, Draft.requireNoFreshPrefill, wp_bind]
  refine wp_ringRequire (fun _ => trivial) fun _ => wp_ringRequire (fun _ => trivial) fun _ =>
    wp_ringRequire (fun _ => trivial) fun _ => wp_ringAttempt (fun _ _ => trivial) ?_
  exact ⟨_, rfl, rfl, rfl, rfl, ⟨h.base, h.count, h.failed, rfl⟩, rfl, rfl⟩

theorem wp_commitArmed (h : r.Armed n rows) :
    wp (d.commitPrefillBlock rows n) (fun _ r' => r'.Applied n rows) (fun _ r' => r'.Undoable n) r := by
  obtain ⟨undo, hundo, hphase, hrows, hpos, hfull, hbase, hcount⟩ := h
  have hback : ∀ r' : DraftRing, r'.undo = some { undo with phase := .inFlight } → r'.Undoable n :=
    fun r' hr' => ⟨_, hr', hbase ▸ hfull.base, hcount.trans hfull.count⟩
  have hadded := hfull.pushRows rows
  rw [DraftRing.pushRows_undo] at hadded
  simp only [Draft.commitPrefillBlock, wp_bind, wp_get, hundo]
  refine wp_ringRequire (fun _ => ⟨undo, hundo, hbase ▸ hfull.base, hcount.trans hfull.count⟩) fun _ => ?_
  simp only [wp_set, wp_tryCatch, wp_bind, wp_modify, wp_throw]
  refine wp_commitRows hfull.count (fun _ r' hr' => hback _ hr') ⟨⟨_, rfl, hbase ▸ hfull.base, hcount.trans hfull.count⟩, ?_⟩
  rw [DraftRing.pushRows_undo]
  exact ⟨hadded.base, hadded.count, hadded.failed, rfl⟩

theorem wp_acceptPrefillRingUndo (h : r.Applied n rows) :
    wp d.acceptPrefillRingUndo (fun _ r' => r'.Full (n + rows)) (fun _ _ => True) r := by
  simp only [Draft.acceptPrefillRingUndo, wp_bind]
  refine wp_ringRequire (fun _ => trivial) fun _ => wp_ringAttempt (fun _ _ => trivial) ?_
  exact ⟨h.full.base, h.full.count, h.full.failed, rfl⟩

theorem wp_rollbackPrefillRingUndo (h : r.Undoable n) :
    wp d.rollbackPrefillRingUndo (fun _ r' => r'.Full n) (fun _ _ => True) r := by
  obtain ⟨undo, hundo, hbase, hcount⟩ := h
  simp only [Draft.rollbackPrefillRingUndo, wp_bind]
  refine wp_ringRequire (fun _ => trivial) fun _ => wp_ringAttempt (fun _ _ => trivial) ?_
  simp only [hundo]
  exact ⟨hbase, hcount, rfl, rfl⟩

end VoidInfer.Exl3
