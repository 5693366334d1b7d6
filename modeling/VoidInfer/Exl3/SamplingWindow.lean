import Mathlib.Algebra.Order.BigOperators.Group.List
import Mathlib.Algebra.Order.Ring.Nat
import VoidInfer.Exl3.SamplingHolders

/-
  One sampling window. While it is live it holds the current transaction (`Current`), and as long as draws succeed its
  counter stands behind the decided positions (`Drawn`): a draw that throws leaves a pending flag set, but then no later
  draw of this window succeeds either. Every call keeps this (`SessionOk.call`), and a window that is not active changes
  nothing (`idle_call`).
-/

namespace VoidInfer.Exl3.Sampling
open List

open Throwing

variable {s : RequestState}

/-! ## One window -/

namespace Window

/-- The draws of the position at hand. -/
def pending (w : Window) : Nat := w.pendingProposal.toNat + w.pendingAcceptance.toNat

/-- A window that can still commit or roll back. -/
def Live (w : Window) : Prop := w.active = true ∧ w.destroyed = false

/-- No draw succeeds any more. -/
def Stuck (s : RequestState) (w : Window) : Prop :=
  s.cancelled = true ∨ w.transaction.tentativeCounter = uint64Max

/-- A live window holds the current transaction. -/
structure Current (s : RequestState) (published : List Nat) (w : Window) : Prop where
  owner : w.transaction.owner = some 0
  active : s.activeNonce ≠ 0
  nonce : w.transaction.nonce = s.activeNonce
  acquisition : w.transaction.acquisition = s.acquisition
  revision : w.transaction.rootRevision = s.rootRevision
  opened : w.openedAfter = published
  room : w.decisions.length + w.pendingProposal.toNat ≤ w.maximumTokens
  fits : w.maximumTokens ≤ addressSpace
  draws : ∀ d ∈ w.decisions, d = 2 ∨ d = 3 ∧ w.sealed = true
  order : w.pendingAcceptance = true → w.pendingProposal = true

/-- As long as draws succeed, the counter has passed the decided positions and the pending draws. -/
def Drawn (s : RequestState) (published : List Nat) (w : Window) : Prop :=
  ¬ Stuck s w → w.sealed = false →
    w.transaction.tentativeCounter = published.sum + 2 * w.decisions.length + w.pending

/-- The values it gave. -/
def Offered (s : RequestState) (w : Window) : Prop :=
  ∀ n place value, (n, place, value) ∈ w.offered →
    value = s.id.value (w.openedAfter.sum + 2 * n + place)

end Window

open Window

/-- The object and one of its windows. -/
structure SessionOk (id : Identity) (σ : Session) : Prop where
  identity : σ.state.id = id
  counter : σ.state.committedCounter = σ.published.sum
  bounded : σ.published.sum ≤ uint64Max
  draws : ∀ d ∈ σ.published, d = 2 ∨ d = 3
  offered : σ.window.Offered σ.state
  live : σ.window.Live → σ.window.Current σ.state σ.published ∧ σ.window.Drawn σ.state σ.published

variable {id : Identity} {σ σ' : Session} {w : Window} {published : List Nat}

variable {e : Exn} {Q : Unit → Session → Prop} {I : Session → Prop}

variable {E : Exn → Session → Prop}

theorem wp_require {c : Prop} [Decidable c] (hE : E e σ)
    (hQ : ¬ c → Q () σ) : wp (MonadExcept.ofExcept (throwIf c e) : WindowM Unit) Q E σ := by
  refine wp_ofExcept.mpr ⟨fun u hu => hQ (throwIf_ok.mp hu), fun e' he' => ?_⟩
  unfold throwIf at he'
  split at he'
  · cases he'
    exact hE
  · simp at he'

theorem wp_final {α : Type} {x : WindowM α} (h : wp x (fun _ => I) (fun _ => I) σ)
    (hend : (∃ a, x σ = .ok a σ') ∨ ∃ e, x σ = .error e σ') : I σ' := by
  unfold wp at h
  rcases hend with ⟨a, ha⟩ | ⟨e, he⟩
  · rw [ha] at h
    exact h
  rw [he] at h
  exact h

theorem wp_discard {α : Type} {x : WindowM α} {E : Session → Prop}
    (h : wp x (fun _ => I) (fun _ => E) σ) : wp (discard x) (fun _ => I) (fun _ => E) σ := by
  rw [show discard x = x >>= fun _ => pure () from rfl, wp_bind]
  exact h

theorem wp_requireActive (hI : I σ) (hQ : σ.window.active = true → Q () σ) : wp requireActive Q (fun _ => I) σ := by
  exact wp_require hI fun h => hQ (by simpa using h)

theorem wp_requireOpen (hI : I σ) (hQ : σ.window.active = true → σ.window.sealed = false → Q () σ) :
    wp requireOpen Q (fun _ => I) σ := by
  simp only [requireOpen, wp_bind]
  refine wp_requireActive hI fun hactive => ?_
  exact wp_require hI fun h => hQ hactive (by simpa using h)

theorem wp_requirePending (hI : I σ)
    (hQ : σ.window.active = true → σ.window.sealed = false → σ.window.pendingAcceptance = true → Q () σ) :
    wp requirePending Q (fun _ => I) σ := by
  simp only [requirePending, wp_bind]
  refine wp_requireOpen hI fun hactive hsealed => ?_
  exact wp_require hI fun h => hQ hactive hsealed (by simpa using h)

theorem Window.Current.requireCurrent (h : w.Current s published) {allow : Bool}
    (he : s.requireCurrent 0 w.transaction allow = .error e) : s.cancelled = true := by
  by_contra hc
  rw [requireCurrent_of h.owner h.active h.nonce h.acquisition h.revision (by simpa using hc)] at he
  cases he

theorem Window.Current.draw_error (h : w.Current s published)
    (he : s.draw 0 w.transaction = .error e) : w.Stuck s := by
  unfold RequestState.draw at he
  cases hcur : s.requireCurrent 0 w.transaction false with
  | error e' => exact .inl (h.requireCurrent hcur)
  | ok u =>
    rw [hcur] at he
    by_contra hstuck
    have hmax : ¬ w.transaction.tentativeCounter = uint64Max := fun hm => hstuck (.inr hm)
    rw [show (throwIf (w.transaction.tentativeCounter = uint64Max) _) = .ok () from
      throwIf_ok.mpr hmax] at he
    exact absurd he (by simp [bind, Except.bind, pure, Except.pure])

/-- The window after a draw. -/
def Window.drawn (w : Window) (place : Nat) (value : UInt64) : Window :=
  { w with
    transaction :=
      { w.transaction with tentativeCounter := w.transaction.tentativeCounter + 1 }
    offered := w.offered ++ [(w.decisions.length, place, value)] }

theorem wp_draw {x : Session} {place : Nat} {Q : UInt64 → Session → Prop}
    (h : x.window.Current s published) (hs : x.state = s)
    (hQ : ¬ x.window.Stuck s → Q (s.id.value x.window.transaction.tentativeCounter)
      { x with window := x.window.drawn place (s.id.value x.window.transaction.tentativeCounter) })
    (hE : x.window.Stuck s → ∀ e, E e x) : wp (Window.draw 0 place) Q E x := by
  subst hs
  simp only [Window.draw, wp_bind, wp_get]
  refine wp_ofExcept.mpr ⟨fun r hr => ?_, fun e he => hE (h.draw_error he) e⟩
  obtain ⟨hcancel, hmax, rfl⟩ := draw_ok hr
  exact hQ (by simp [Stuck, hcancel, hmax])

/-! ## Calls of a window -/

namespace SessionOk

theorem setWindow (h : SessionOk id σ) (hoffered : w.Offered σ.state)
    (hlive : w.Live → w.Current σ.state σ.published ∧ w.Drawn σ.state σ.published) :
    SessionOk id { σ with window := w } :=
  ⟨h.identity, h.counter, h.bounded, h.draws, hoffered, hlive⟩

theorem offered_drawn (h : SessionOk id σ) {place : Nat} {value : UInt64} {w' : Window}
    (hc : w.Current σ.state σ.published) (hoffered : w.offered = σ.window.offered)
    (hopened : w.openedAfter = σ.window.openedAfter) (hw' : w'.offered = (w.drawn place value).offered)
    (hopened' : w'.openedAfter = w.openedAfter)
    (hvalue : value = σ.state.id.value (σ.published.sum + 2 * w.decisions.length + place)) :
    w'.Offered σ.state := by
  intro n p v hin
  rw [hw', Window.drawn, mem_append, mem_singleton] at hin
  rw [hopened']
  rcases hin with hin | hin
  · rw [hopened]
    exact h.offered n p v (hoffered ▸ hin)
  obtain ⟨rfl, rfl, rfl⟩ : n = _ ∧ p = _ ∧ v = _ := by simpa using hin
  rw [hc.opened]
  exact hvalue

variable {Q : Session → Prop}

section
variable (h : SessionOk id σ) (hd : σ.window.destroyed = false)
include h hd

theorem drawProposal : wp (Window.drawProposal 0) (fun _ => SessionOk id) (fun _ => SessionOk id) σ := by
  simp only [Window.drawProposal, wp_bind]
  refine wp_requireOpen h fun hactive hsealed => ?_
  obtain ⟨hc, hdrawn⟩ := h.live ⟨hactive, hd⟩
  refine wp_require h fun hcheck => ?_
  push Not at hcheck
  obtain ⟨hp, ha, hlen⟩ := hcheck
  have hp : σ.window.pendingProposal = false := by simpa using hp
  have ha : σ.window.pendingAcceptance = false := by simpa using ha
  have hc' : ({ σ.window with pendingProposal := true } : Window).Current σ.state σ.published :=
    { hc with room := hlen, order := fun _ => rfl }
  refine wp_draw (x := { σ with window := { σ.window with pendingProposal := true } }) hc' rfl
    (fun hstuck => ?_) fun hstuck e => ?_
  · -- the counter stands at the first draw of this position
    have hat := hdrawn hstuck hsealed
    rw [pending, hp, ha] at hat
    refine h.setWindow (h.offered_drawn (w := { σ.window with pendingProposal := true }) hc' rfl rfl rfl rfl ?_) fun _ =>
      ⟨{ hc' with }, fun _ _ => ?_⟩
    · exact congrArg _ hat
    simp only [Window.drawn, pending, ha]
    exact congrArg _ hat
  · exact h.setWindow h.offered fun _ => ⟨hc', fun hnot => absurd hstuck hnot⟩

theorem drawAcceptance : wp (Window.drawAcceptance 0) (fun _ => SessionOk id) (fun _ => SessionOk id) σ := by
  simp only [Window.drawAcceptance, wp_bind]
  refine wp_requireOpen h fun hactive hsealed => ?_
  obtain ⟨hc, hdrawn⟩ := h.live ⟨hactive, hd⟩
  refine wp_require h fun hcheck => ?_
  push Not at hcheck
  obtain ⟨hp, ha⟩ := hcheck
  have ha : σ.window.pendingAcceptance = false := by simpa using ha
  have hc' : ({ σ.window with pendingAcceptance := true } : Window).Current σ.state σ.published :=
    { hc with order := fun _ => hp }
  refine wp_draw (x := { σ with window := { σ.window with pendingAcceptance := true } }) hc' rfl
    (fun hstuck => ?_) fun hstuck e => ?_
  · have hat := hdrawn hstuck hsealed
    rw [pending, hp, ha] at hat
    refine h.setWindow (h.offered_drawn (w := { σ.window with pendingAcceptance := true }) hc' rfl rfl rfl rfl ?_) fun _ =>
      ⟨{ hc' with }, fun _ _ => ?_⟩
    · exact congrArg _ hat
    simp only [Window.drawn, pending, hp]
    exact congrArg _ hat
  · exact h.setWindow h.offered fun _ => ⟨hc', fun hnot => absurd hstuck hnot⟩

theorem acceptProposal : wp Window.acceptProposal (fun _ => SessionOk id) (fun _ => SessionOk id) σ := by
  simp only [Window.acceptProposal, wp_bind]
  refine wp_requirePending h fun hactive hsealed ha => ?_
  obtain ⟨hc, hdrawn⟩ := h.live ⟨hactive, hd⟩
  have hp := hc.order ha
  have hroom := hc.room
  rw [hp] at hroom
  refine h.setWindow h.offered fun _ =>
    ⟨{ hc with room := ?_, draws := fun d hin => ?_, order := nofun }, fun hstuck _ => ?_⟩
  · simpa using hroom
  · rcases mem_append.mp hin with hin | hin
    · exact hc.draws d hin
    · exact .inl (mem_singleton.mp hin)
  have hat := hdrawn hstuck hsealed
  rw [pending, hp, ha] at hat
  simp only [pending, length_append, length_singleton]
  rw [hat]
  simp only [Bool.toNat_true, Bool.toNat_false]
  omega

theorem rejectAndDrawCorrection :
    wp (Window.rejectAndDrawCorrection 0) (fun _ => SessionOk id) (fun _ => SessionOk id) σ := by
  simp only [Window.rejectAndDrawCorrection, wp_bind]
  refine wp_requirePending h fun hactive hsealed ha => ?_
  obtain ⟨hc, hdrawn⟩ := h.live ⟨hactive, hd⟩
  have hp := hc.order ha
  have hroom := hc.room
  rw [hp] at hroom
  refine wp_draw hc rfl (fun hstuck => ?_) fun _ _ => h
  have hat := hdrawn hstuck hsealed
  rw [pending, hp, ha] at hat
  refine h.setWindow (h.offered_drawn hc rfl rfl rfl rfl ?_) fun _ =>
    ⟨{ hc with room := ?_, draws := fun d hin => ?_, order := nofun }, fun _ hf => nomatch hf⟩
  · exact congrArg _ hat
  · simpa [Window.drawn] using hroom
  rcases mem_append.mp hin with hin | hin
  · rcases hc.draws d hin with hd | ⟨hd, -⟩
    · exact .inl hd
    · exact .inr ⟨hd, rfl⟩
  · exact .inr ⟨mem_singleton.mp hin, rfl⟩

theorem sealStopBoundary : wp Window.sealStopBoundary (fun _ => SessionOk id) (fun _ => SessionOk id) σ := by
  simp only [Window.sealStopBoundary, wp_bind]
  refine wp_requireOpen h fun hactive _ => ?_
  obtain ⟨hc, -⟩ := h.live ⟨hactive, hd⟩
  refine wp_require h fun _ => ?_
  refine h.setWindow h.offered fun _ => ⟨{ hc with draws := fun d hin => ?_ }, fun _ hf => nomatch hf⟩
  rcases hc.draws d hin with hd | ⟨hd, -⟩
  · exact .inl hd
  · exact .inr ⟨hd, rfl⟩

theorem claimPublication : wp (Window.claimPublication 0) (fun _ => SessionOk id) (fun _ => SessionOk id) σ := by
  simp only [Window.claimPublication, wp_bind]
  refine wp_requireActive h fun hactive => ?_
  obtain ⟨hc, hdrawn⟩ := h.live ⟨hactive, hd⟩
  refine wp_require h fun _ => wp_ofExcept.mpr ⟨fun t ht => ?_, fun _ _ => h⟩
  obtain ⟨-, -, rfl⟩ := claimPublication_ok ht
  exact h.setWindow h.offered fun _ => ⟨{ hc with }, hdrawn⟩

end

theorem sum_take_lt (hc : w.Current s published) (n : Nat) : (w.decisions.take n).sum < 2 ^ 64 := by
  have hsum : (w.decisions.take n).sum ≤ (w.decisions.take n).length * 3 := by
    refine sum_le_card_nsmul _ 3 fun d hd => ?_
    rcases hc.draws d (mem_of_mem_take hd) with hd | ⟨hd, -⟩
    · omega
    · omega
  have hlen : (w.decisions.take n).length ≤ w.decisions.length := length_take_le' ..
  have hroom := hc.room
  have hfits := hc.fits
  unfold addressSpace at hfits
  omega

theorem commit (h : SessionOk id σ) (hd : σ.window.destroyed = false) (n : Nat) (rev : Revision) :
    wp (Window.commit 0 n rev) (fun _ => SessionOk id) (fun _ => SessionOk id) σ := by
  simp only [Window.commit, wp_bind]
  refine wp_requireActive h fun hactive => ?_
  obtain ⟨hc, -⟩ := h.live ⟨hactive, hd⟩
  refine wp_require h fun _ => wp_ofExcept.mpr ⟨fun r hr => ?_, fun _ _ => h⟩
  obtain ⟨-, -, -, -, hbound, rfl⟩ := commit_ok hr
  rw [Nat.mod_eq_of_lt (sum_take_lt hc n), h.counter, Nat.max_eq_right h.bounded] at hbound
  refine ⟨h.identity, ?_, ?_, fun d hin => ?_, h.offered, fun hlive => nomatch hlive.1⟩
  · simp only [Nat.mod_eq_of_lt (sum_take_lt hc n), sum_append, h.counter]
  · simpa only [sum_append] using hbound
  · rcases mem_append.mp hin with hin | hin
    · exact h.draws d hin
    · exact (hc.draws d (mem_of_mem_take hin)).imp_right And.left

theorem wp_rollbackState {x : Session} (hc : x.window.Current s published) (hs : x.state = s)
    (hQ : Q { x with
      state := { s with activeNonce := 0 }
      window := { x.window with transaction := x.window.transaction.finish } })
    (hE : s.cancelled = true → ∀ e, E e x) :
    wp (Window.rollbackState 0) (fun _ => Q) E x := by
  subst hs
  simp only [Window.rollbackState, wp_bind, wp_get]
  refine wp_ofExcept.mpr ⟨fun r hr => ?_, fun e he => hE ?_ e⟩
  · obtain ⟨-, -, -, rfl⟩ := rollback_ok hr
    simpa only [wp_modify] using hQ
  unfold RequestState.rollback at he
  cases hcur : x.state.requireCurrent 0 x.window.transaction x.window.transaction.publicationClaimed with
  | error e' => exact hc.requireCurrent hcur
  | ok u =>
    rw [hcur] at he
    exact absurd he (by simp [bind, Except.bind, pure, Except.pure])

section
variable (h : SessionOk id σ) (hd : σ.window.destroyed = false)
include h hd

theorem rollback : wp (Window.rollback 0) (fun _ => SessionOk id) (fun _ => SessionOk id) σ := by
  simp only [Window.rollback, wp_bind]
  refine wp_requireActive h fun hactive => ?_
  obtain ⟨hc, -⟩ := h.live ⟨hactive, hd⟩
  have hroom := hc.room
  have hc' : ({ σ.window with pendingProposal := false, pendingAcceptance := false } : Window).Current
      σ.state σ.published :=
    { hc with room := (Nat.le_add_right _ _).trans hroom, order := nofun }
  refine wp_rollbackState (x := { σ with window := { σ.window with
    pendingProposal := false, pendingAcceptance := false } }) hc' rfl ?_ fun hcancel _ => ?_
  · exact ⟨h.identity, h.counter, h.bounded, h.draws, h.offered, fun hlive => nomatch hlive.1⟩
  · exact h.setWindow h.offered fun _ => ⟨hc', fun hstuck => absurd (.inl hcancel) hstuck⟩

theorem destroy : wp (Window.destroy 0) (fun _ => SessionOk id) (fun _ => SessionOk id) σ := by
  simp only [Window.destroy, wp_bind, wp_get]
  split
  · rename_i hif
    obtain ⟨hc, -⟩ := h.live ⟨hif.1, hd⟩
    simp only [wp_bind, wp_tryCatch]
    refine wp_rollbackState hc rfl ?_ fun hcancel => absurd hcancel hif.2
    exact ⟨h.identity, h.counter, h.bounded, h.draws, h.offered, fun hlive => nomatch hlive.2⟩
  exact h.setWindow h.offered fun hlive => nomatch hlive.2

theorem call (call : WindowCall) : wp (call.run 0) (fun _ => SessionOk id) (fun _ => SessionOk id) σ := by
  cases call with
  | drawProposal => exact wp_discard (h.drawProposal hd)
  | drawAcceptance => exact wp_discard (h.drawAcceptance hd)
  | acceptProposal => exact h.acceptProposal hd
  | rejectAndDrawCorrection => exact wp_discard (h.rejectAndDrawCorrection hd)
  | sealStopBoundary => exact h.sealStopBoundary hd
  | claimPublication => exact h.claimPublication hd
  | commit n rev => exact h.commit hd n rev
  | rollback => exact h.rollback hd
  | destroy => exact h.destroy hd

end

end SessionOk

/-! ## Windows that are done -/

/-- Nothing but the destructor does something to a window that is not active, and the object does not see it. -/
structure Idle (σ σ' : Session) : Prop where
  state : σ'.state = σ.state
  published : σ'.published = σ.published
  active : σ'.window.active = false

theorem idle_call (hactive : σ.window.active = false) (call : WindowCall) :
    wp (call.run 0) (fun _ => Idle σ) (fun _ => Idle σ) σ := by
  have hidle : Idle σ σ := ⟨rfl, rfl, hactive⟩
  have hnot : ∀ {P : Prop}, σ.window.active = true → P :=
    fun ht => nomatch hactive.symm.trans ht
  have hopen : ∀ {Q : Unit → Session → Prop}, wp requireOpen Q (fun _ => Idle σ) σ :=
    wp_requireOpen hidle fun ht => hnot ht
  have hpend : ∀ {Q : Unit → Session → Prop}, wp requirePending Q (fun _ => Idle σ) σ :=
    wp_requirePending hidle fun ht => hnot ht
  cases call with
  | drawProposal =>
    refine wp_discard ?_
    simp only [Window.drawProposal, wp_bind]
    exact hopen
  | drawAcceptance =>
    refine wp_discard ?_
    simp only [Window.drawAcceptance, wp_bind]
    exact hopen
  | acceptProposal =>
    simp only [WindowCall.run, Window.acceptProposal, wp_bind]
    exact hpend
  | rejectAndDrawCorrection =>
    refine wp_discard ?_
    simp only [Window.rejectAndDrawCorrection, wp_bind]
    exact hpend
  | sealStopBoundary =>
    simp only [WindowCall.run, Window.sealStopBoundary, wp_bind]
    exact hopen
  | claimPublication =>
    simp only [WindowCall.run, Window.claimPublication, wp_bind]
    exact wp_requireActive hidle fun ht => hnot ht
  | commit n rev =>
    simp only [WindowCall.run, Window.commit, wp_bind]
    exact wp_requireActive hidle fun ht => hnot ht
  | rollback =>
    simp only [WindowCall.run, Window.rollback, wp_bind]
    exact wp_requireActive hidle fun ht => hnot ht
  | destroy =>
    simp only [WindowCall.run, Window.destroy, wp_bind, wp_get]
    split
    · rename_i hif
      exact hnot hif.1
    exact ⟨rfl, rfl, hactive⟩

end VoidInfer.Exl3.Sampling
