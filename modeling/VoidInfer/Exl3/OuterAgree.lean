import VoidInfer.Exl3.OuterWindows

/-
  The four verifiers compute one function. `verifiers_agree`: whichever returns, returns the outcome of the proposal and
  leaves the context behind the committed tokens; each returns where no call throws; and one that throws after it
  restored the root leaves the context there again, unless the call of its handler threw too. Where no taps are wanted
  there are no segments, and arguments that are refused are refused before the root is restored (`segments_not_staged`).
-/

namespace VoidInfer.Exl3.Outer
open MonadExcept (ofExcept)

open Throwing

/-- The host verifiers. -/
inductive Verifier
  | reference | batched | checkpointed | windowed
deriving DecidableEq

/-- The sizes of proposal a verifier takes. -/
def Verifier.Extent (m : Machine) : Verifier → Nat → Prop
  | .reference, n => 1 ≤ n ∧ n ≤ 32
  | .batched, n => 2 ≤ n ∧ n ≤ 8 ∧ n ≤ m.capacity
  | .checkpointed, n => 2 ≤ n ∧ n ≤ 8 ∧ n ≤ m.capacity ∧ m.prepared = true
  | .windowed, n => 2 ≤ n ∧ n ≤ 64 ∧ 8 ≤ m.capacity

/-- The arguments a verifier does not refuse. -/
structure Verifier.Accepts (m : Machine) (o : OuterOptions) (v : Verifier) (tentative terminal : List Int) :
    Prop extends Checked o tentative terminal where
  extent : v.Extent m tentative.length
  terminal : ∀ token ∈ terminal, InVocabulary token

namespace Machine

variable (m : Machine) (o : OuterOptions)

section
variable (v : Verifier) (root : HostState)

def verify (tentative terminal : List Int) : ContextM OuterResult :=
  match v with
  | .reference => m.verifyReference o root tentative terminal
  | .batched => m.verifyBatched o root tentative terminal
  | .checkpointed => m.verifyCheckpointed o root tentative terminal
  | .windowed => m.verifyWindowed o root tentative terminal

def verifierBody (tentative terminal : List Int) : ContextM OuterResult :=
  match v with
  | .reference => m.referenceBody o root tentative terminal
  | .batched => m.batchedBody o root tentative terminal
  | .checkpointed => m.checkpointedBody o root tentative terminal
  | .windowed => m.windowedBody o root tentative terminal

/-- What the handler calls. -/
def recovery : ContextM Unit :=
  match v with
  | .checkpointed => m.rollbackOrRestore root
  | _ => m.restoreExactHostState root

end

end Machine

variable {m : Machine} {o : OuterOptions} {root : HostState} {c c' : Context} {v : Verifier}
 {tentative terminal ts : List Int} {tx : Option Snapshot} {P : Option Snapshot → Prop}
 {r : OuterResult} {e : Exn} {α β : Type}

/-! ## The checks -/

theorem checkOuter_iff {extent : Prop} [Decidable extent] {s₁ s₂ s₃ s₄ : String} :
    Machine.checkOuter o extent s₁ s₂ s₃ s₄ tentative terminal = .ok () ↔
      extent ∧ Checked o tentative terminal ∧ ∀ token ∈ terminal, InVocabulary token := by
  constructor
  · intro h
    obtain ⟨u₁, hextent, h⟩ := bind_ok h
    obtain ⟨u₂, htokens, h⟩ := bind_ok h
    obtain ⟨u₃, hterminal, h⟩ := bind_ok h
    refine ⟨not_not.mp (throwIf_ok.mp hextent), ⟨not_not.mp (throwIf_ok.mp htokens), fun hconsumer => ?_⟩,
      not_not.mp (throwIf_ok.mp hterminal)⟩
    by_contra hbinding
    exact throwIf_ok.mp h ⟨hconsumer, hbinding⟩
  · rintro ⟨hextent, hchecked, hterminal⟩
    have hbinding : ¬ (o.tapConsumer = true ∧ ¬ o.tapBinding = true) :=
      fun h => h.2 (hchecked.binding h.1)
    unfold Machine.checkOuter
    rw [throwIf_neg (not_not.mpr hextent), throwIf_neg (not_not.mpr hchecked.tokens),
      throwIf_neg (not_not.mpr hterminal), throwIf_neg hbinding]
    rfl

variable {x : ContextM α} {f : α → ContextM β}

theorem ofExcept_then {check : Except Exn Unit} :
    (check = .ok () → (ofExcept check >>= fun _ => x) c = x c) ∧
      (check ≠ .ok () → ∃ e, (ofExcept check >>= fun _ => x) c = .error e c) := by
  cases check with
  | ok u => exact ⟨fun _ => rfl, fun h => absurd rfl h⟩
  | error e => exact ⟨nofun, fun _ => ⟨e, rfl⟩⟩

theorem verify_run (m : Machine) (o : OuterOptions) (v : Verifier) (root : HostState)
    (tentative terminal : List Int) (c : Context) :
    (v.Accepts m o tentative terminal → m.verify o v root tentative terminal c =
      m.guarded o root (m.verifierBody o v root tentative terminal) (m.recovery v root) c) ∧
    (¬ v.Accepts m o tentative terminal → ∃ e, m.verify o v root tentative terminal c = .error e c) := by
  have hrun : ∀ {extent : Prop} [Decidable extent] {s₁ s₂ s₃ s₄ : String} {x : ContextM OuterResult},
      (extent ↔ v.Extent m tentative.length) →
      (v.Accepts m o tentative terminal →
        (ofExcept (Machine.checkOuter o extent s₁ s₂ s₃ s₄ tentative terminal) >>= fun _ => x) c = x c) ∧
      (¬ v.Accepts m o tentative terminal → ∃ e,
        (ofExcept (Machine.checkOuter o extent s₁ s₂ s₃ s₄ tentative terminal) >>= fun _ => x) c = .error e c) := by
    intro extent _ s₁ s₂ s₃ s₄ x hextent
    refine ⟨fun h => ofExcept_then.1 (checkOuter_iff.mpr ?_), fun h => ofExcept_then.2 fun hok => ?_⟩
    · exact ⟨hextent.mpr h.extent, h.toChecked, h.terminal⟩
    · obtain ⟨hin, hchecked, hterminal⟩ := checkOuter_iff.mp hok
      exact h ⟨hchecked, hextent.mp hin, hterminal⟩
  cases v with
  | reference =>
    exact hrun (by rfl)
  | batched =>
    exact hrun (by rfl)
  | checkpointed =>
    exact hrun (by rfl)
  | windowed =>
    exact hrun (by rfl)

variable {body : ContextM OuterResult} {recovery : ContextM Unit} {condition : Context → Prop}
  {what : String} {n : Nat} {repair : Bool}

theorem guarded_ok (h : m.guarded o root body recovery c = .ok r c') :
    ∃ c₀, m.restoreRoot o root c = .ok () c₀ ∧ body c₀ = .ok r c' := by
  have hwp : wp (m.guarded o root body recovery) (fun r' c' => ∃ c₀, m.restoreRoot o root c = .ok () c₀ ∧
      body c₀ = .ok r' c') (fun _ _ => True) c := by
    simp only [Machine.guarded, wp_bind, wp_tryCatch, wp_throw]
    unfold wp
    cases hroot : m.restoreRoot o root c with
    | error e₀ c₀ => trivial
    | ok u c₀ =>
      dsimp only
      cases hbody : body c₀ with
      | ok r' c₁ => exact ⟨c₀, rfl, hbody⟩
      | error e₁ c₁ =>
        dsimp only
        cases recovery c₁ with
        | ok _ _ => trivial
        | error _ _ => trivial
  exact wp_ok hwp h

theorem guarded_error (h : m.guarded o root body recovery c = .error e c') :
    m.restoreRoot o root c = .error e c' ∨ ∃ c₀ c₁, m.restoreRoot o root c = .ok () c₀ ∧
      body c₀ = .error e c₁ ∧ (recovery c₁ = .ok () c' ∨ ∃ e', recovery c₁ = .error e' c') := by
  have hwp : wp (m.guarded o root body recovery) (fun _ _ => True) (fun e' c' =>
      m.restoreRoot o root c = .error e' c' ∨ ∃ c₀ c₁, m.restoreRoot o root c = .ok () c₀ ∧
      body c₀ = .error e' c₁ ∧ (recovery c₁ = .ok () c' ∨ ∃ e', recovery c₁ = .error e' c')) c := by
    simp only [Machine.guarded, wp_bind, wp_tryCatch, wp_throw]
    unfold wp
    cases hroot : m.restoreRoot o root c with
    | error e₀ c₀ => exact .inl rfl
    | ok u c₀ =>
      dsimp only
      cases hbody : body c₀ with
      | ok r' c₁ => trivial
      | error e₁ c₁ =>
        dsimp only
        cases hrec : recovery c₁ with
        | ok _ c₂ => exact .inr ⟨c₀, c₁, rfl, hbody, .inl hrec⟩
        | error e₂ c₂ => exact .inr ⟨c₀, c₁, rfl, hbody, .inr ⟨e₂, hrec⟩⟩
  have hend := wp_error hwp h
  exact hend

/-! ## Inside a transaction -/

/-- The transaction stays as `P` says. -/
def Stays (P : Option Snapshot → Prop) (x : ContextM α) : Prop :=
  ∀ c : Context, P c.transaction → wp x (fun _ c' => P c'.transaction) (fun _ c' => P c'.transaction) c

/-- The transaction stays open, and the call throws. -/
def Stuck (x : ContextM α) : Prop :=
  ∀ c : Context, c.transaction ≠ none → wp x (fun _ _ => False) (fun _ c' => c'.transaction ≠ none) c

theorem Stuck.bind (h : Stuck x) : Stuck (x >>= f) := by
  intro c hc
  rw [wp_bind]
  exact wp_imp (h c hc) fun _ _ hf => hf.elim

theorem Stays.bind (h : Stays P x) (hf : ∀ a, Stays P (f a)) : Stays P (x >>= f) := by
  intro c hc
  rw [wp_bind]
  exact wp_imp (h c hc) fun a c' hc' => hf a c' hc'

theorem Stays.then_stuck (h : Stays (· ≠ none) x) (hf : ∀ a, Stuck (f a)) : Stuck (x >>= f) := by
  intro c hc
  rw [wp_bind]
  exact wp_imp (h c hc) fun a c' hc' => hf a c' hc'

theorem Stays.pure (a : α) : Stays P (Pure.pure a : ContextM α) := fun _ hc => hc

theorem Stays.get : Stays P (MonadState.get : ContextM Context) := fun _ hc => hc

theorem Stays.ofExcept (x : Except Exn α) : Stays P (ofExcept x : ContextM α) := by
  intro c hc
  exact wp_ofExcept.mpr ⟨fun _ _ => hc, fun _ _ => hc⟩

theorem Stays.whenever {condition : Bool} {x : ContextM Unit} (h : Stays P x) : Stays P (whenever condition x) :=
  fun c hc => wp_whenever (fun _ => h c hc) fun _ => hc

theorem Stays.ite {p : Prop} [Decidable p] {y : ContextM α} (hx : Stays P x) (hy : Stays P y) :
    Stays P (if p then x else y) := by
  split
  · exact hx
  · exact hy

theorem Stays.attempt {f : Context → Context} (h : ∀ c, (f c).transaction = c.transaction) :
    Stays P (m.attempt f) := by
  intro c hc
  unfold wp Machine.attempt
  cases m.fails c.clock with
  | some e => exact hc
  | none =>
    show P (f c).transaction
    rw [h]
    exact hc

theorem Stays.observe : Stays P m.observe := by
  intro c hc
  unfold wp Machine.observe Machine.attemptIntact
  cases m.fails c.clock with
  | some e => exact hc
  | none => exact hc

theorem Stays.require [DecidablePred condition] : Stays P (Machine.require condition what) :=
  Stays.get.bind fun _ => .ofExcept _

theorem Stuck.require [DecidablePred condition]
    (h : ∀ c, condition c → c.transaction = none) : Stuck (Machine.require condition what) := by
  intro c hc
  refine wp_ofExcept.mpr ⟨fun u hok => ?_, fun _ _ => hc⟩
  exact hc (h c (not_not.mp (throwIf_ok.mp hok)))

theorem stuck_restore : Stuck (m.restoreExactHostState root) := (Stuck.require fun _ h => h).bind

theorem stuck_exported : Stuck (m.exported r) := ((Stuck.require fun _ h => h.1).bind).bind

theorem stays_finish : Stays P m.finishExactContinuation :=
  Stays.require.bind fun _ => .attempt fun _ => rfl

theorem stays_branchGreedy : Stays P m.branchGreedy :=
  Stays.observe.bind fun _ => Stays.get.bind fun _ => .pure _

theorem stays_decode {token : Int} : Stays P (m.decode token) := Stays.attempt fun _ => rfl

theorem stays_continueRows {offsets : List Nat} : Stays P (m.continueRows ts offsets) :=
  Stays.require.bind fun _ => Stays.require.bind fun _ => Stays.require.bind fun _ =>
    Stays.require.bind fun _ => (Stays.ofExcept _).bind fun _ => .attempt fun _ => rfl

theorem stays_outerGreedyPath {seed : Int} : Stays P (m.outerGreedyPath seed n) :=
  (Stays.observe.bind fun _ => Stays.get.bind fun _ => .pure _).bind fun _ =>
    (Stays.ofExcept _).bind fun _ => .pure _

theorem stays_captureHostTaps : Stays P (m.captureHostTaps o) := Stays.whenever .observe

theorem stays_emit {rows logicalFirst destinationFirst attemptFirst attemptRows partitionRows : Nat}
    {partitionFirst : Int} {correction : Bool} :
    Stays P (m.emitTapSegment o r rows logicalFirst destinationFirst attemptFirst attemptRows
      partitionFirst partitionRows repair correction) := by
  unfold Machine.emitTapSegment
  split
  · exact Stays.get.bind fun _ =>
      (Stays.whenever ((Stays.ofExcept _).bind fun _ => .observe)).bind fun _ => .pure _
  · exact .pure _

theorem stays_referenceLoop : Stays P (m.referenceLoop o root terminal tentative r) := by
  induction tentative generalizing r with
  | nil => exact .pure _
  | cons t ts ih =>
    refine stays_branchGreedy.bind fun _ => stays_decode.bind fun _ => stays_captureHostTaps.bind fun _ =>
      Stays.get.bind fun _ => stays_emit.bind fun _ => ?_
    exact Stays.ite (.pure _) ih

theorem stays_windowPath : Stays P (m.windowPath ts) := by
  refine stays_branchGreedy.bind fun _ => Stays.ite ?_ ?_
  · exact stays_decode.bind fun _ => .pure _
  · exact stays_continueRows.bind fun _ => stays_outerGreedyPath.bind fun _ => .pure _

theorem stays_windowLoop {windows : List (List Int)} {offset : Nat} :
    Stays P (m.windowLoop o root terminal windows offset r) := by
  induction windows generalizing r offset with
  | nil => exact .pure _
  | cons window windows ih =>
    refine Stays.ite (.pure _) (stays_windowPath.bind fun _ => (Stays.ofExcept _).bind fun _ => ?_)
    refine Stays.ite (.pure _) ?_
    exact stays_captureHostTaps.bind fun _ => stays_emit.bind fun _ =>
      (Stays.whenever stays_finish).bind fun _ => ih

theorem stuck_batchedSettle : Stuck (m.batchedSettle o root n r repair) :=
  stays_captureHostTaps.then_stuck fun _ => stays_emit.then_stuck fun _ =>
    (Stays.whenever stays_finish).then_stuck fun _ => stuck_exported

theorem stuck_body (hv : v ≠ .checkpointed) : Stuck (m.verifierBody o v root tentative terminal) := by
  cases v with
  | reference => exact stays_referenceLoop.then_stuck fun _ => stuck_exported
  | batched =>
    refine stays_branchGreedy.then_stuck fun _ => stays_continueRows.then_stuck fun _ =>
      stays_outerGreedyPath.then_stuck fun _ => (Stays.ofExcept _).then_stuck fun _ =>
      (Stays.ofExcept _).then_stuck fun _ => ?_
    split
    · exact stuck_restore.bind
    · exact stuck_batchedSettle
  | checkpointed => exact absurd rfl hv
  | windowed =>
    refine stays_windowLoop.then_stuck fun _ => ?_
    dsimp only
    split
    · exact stuck_restore.bind
    · exact stuck_exported

/-! ## The root, the bodies and the handlers -/

theorem restoreRoot_ok (h : m.restoreRoot o root c = .ok () c') :
    Settled c' root.tokens none ∨
      ∃ saved, c'.transaction = some saved ∧ saved.tokens = root.tokens ∧ saved.head = root.tokens := by
  have hrestore : wp (m.restoreExactHostState root) (fun _ c' => Settled c' root.tokens none)
      (fun _ _ => True) c := by
    by_cases hnone : c.transaction = none
    · refine wp_fail (wp_restore (P := fun _ => True) hnone trivial fun c' hs => ?_) fun _ _ _ => trivial
      exact hs
    · exact wp_mono (stuck_restore c hnone) (fun _ _ hf => hf.elim) fun _ _ _ => trivial
  unfold Machine.restoreRoot at h
  split at h
  · by_cases hresident : c.resident = some root
    · have hsame : c' = c := by
        have hrun : wp (m.restoreExactHostStateIfNeeded root) (fun _ c' => c' = c) (fun _ _ => True) c := by
          simp only [Machine.restoreExactHostStateIfNeeded, wp_bind, wp_get, if_pos hresident, wp_pure]
        have hend := wp_ok hrun h
        exact hend
      obtain ⟨htokens, hhead, hrows, htorn, hsaved⟩ := c.resident_ok root hresident
      subst hsame
      cases htx : c'.transaction with
      | none => exact .inl ⟨htokens, hhead, hrows, htx, htorn⟩
      | some saved => exact .inr ⟨saved, rfl, hsaved saved htx⟩
    have hrun : wp (m.restoreExactHostStateIfNeeded root) (fun _ c' => Settled c' root.tokens none)
        (fun _ _ => True) c := by
      simp only [Machine.restoreExactHostStateIfNeeded, wp_bind, wp_get, if_neg hresident]
      exact hrestore
    have hend := wp_ok hrun h
    exact .inl hend
  have hend := wp_ok hrestore h
  exact .inl hend

theorem wp_restoreRoot (hidle : c.transaction = none) :
    wp (m.restoreRoot o root) (fun _ c' => c'.transaction = none) (fun _ _ => m.Failing) c := by
  have hrestore : wp (m.restoreExactHostState root) (fun _ c' => c'.transaction = none) (fun _ _ => m.Failing) c :=
    wp_fail (wp_restore (P := fun _ => True) hidle trivial fun c' hs => hs.transaction) fun _ _ h => h.1
  unfold Machine.restoreRoot
  split
  · simp only [Machine.restoreExactHostStateIfNeeded, wp_bind, wp_get]
    split
    · exact hidle
    · exact hrestore
  · exact hrestore

/-- The transaction a body may leave behind. -/
def LeftOpen (v : Verifier) (root : HostState) (tx : Option Snapshot) : Prop :=
  tx = none ∨ v = .checkpointed ∧
    ∃ saved, tx = some saved ∧ saved.tokens = root.tokens ∧ saved.head = root.tokens

theorem wp_body (haccepts : v.Accepts m o tentative terminal) (hsettled : Settled c root.tokens none) :
    wp (m.verifierBody o v root tentative terminal) (Verified m o root tentative terminal)
      (Threw m (LeftOpen v root)) c := by
  obtain ⟨hchecked, hextent, -⟩ := haccepts
  have hnone : LeftOpen v root none := .inl rfl
  cases v with
  | reference =>
    have hne : tentative ≠ [] := fun hnil => by simp [Verifier.Extent, hnil] at hextent
    simp only [Machine.verifierBody, Machine.referenceBody, wp_bind]
    refine wp_referenceLoop hchecked.binding (by simpa using hsettled) .nil rfl rfl rfl hnone
      fun r' c' hd hs hstaged hrows => ?_
    refine wp_exported (hd.trans ?_) hne hs hstaged hrows hnone
    simp [Decision.append]
  | batched => exact wp_batchedBody hchecked ⟨hextent.1, hextent.2.2⟩ hsettled hnone
  | checkpointed =>
    obtain ⟨htwo, -, hcapacity, hprepared⟩ := hextent
    exact wp_checkpointedBody hchecked ⟨htwo, hcapacity⟩ hprepared hsettled hnone
      fun n => .inr ⟨rfl, _, rfl, rfl, rfl⟩
  | windowed =>
    have hne : tentative ≠ [] := fun hnil => by simp [Verifier.Extent, hnil] at hextent
    exact wp_windowedBody hchecked hne hextent.2.2 hsettled hnone

theorem wp_body_open {saved : Snapshot} (htx : c.transaction = some saved)
    (hsaved : saved.tokens = root.tokens ∧ saved.head = root.tokens) :
    wp (m.verifierBody o v root tentative terminal) (fun _ _ => False)
      (fun _ c' => c'.transaction ≠ none ∧ (v = .checkpointed → LeftOpen v root c'.transaction)) c := by
  have hopen : c.transaction ≠ none := by simp [htx]
  by_cases hv : v = .checkpointed
  · subst hv
    simp only [Machine.verifierBody, Machine.checkpointedBody, Machine.beginTransaction, Machine.require,
      wp_bind, wp_get]
    refine wp_ofExcept.mpr ⟨fun u hok => ?_, fun _ _ => ⟨hopen, fun _ => ?_⟩⟩
    · exact absurd (not_not.mp (throwIf_ok.mp hok)).2 hopen
    · exact .inr ⟨rfl, saved, htx, hsaved⟩
  · exact wp_fail (stuck_body hv c hopen) fun _ _ h => ⟨h, fun hv' => absurd hv' hv⟩

theorem recovery_ok (hleft : c.transaction ≠ none → v = .checkpointed → LeftOpen v root c.transaction)
    (h : m.recovery v root c = .ok () c') : Settled c' root.tokens none := by
  have hrestore : c.transaction = none →
      wp (m.restoreExactHostState root) (fun _ c' => Settled c' root.tokens none) (fun _ _ => True) c :=
    fun hnone => wp_fail (wp_restore (P := fun _ => True) hnone trivial fun c' hs => hs) fun _ _ _ => trivial
  by_cases hv : v = .checkpointed
  · subst hv
    have hrun : wp (m.rollbackOrRestore root) (fun _ c' => Settled c' root.tokens none) (fun _ _ => True) c := by
      simp only [Machine.rollbackOrRestore, wp_bind, wp_get]
      split
      · rename_i hopen
        rcases hleft hopen rfl with hnone | ⟨-, saved, htx, htokens, hhead⟩
        · exact absurd hnone hopen
        refine wp_fail (wp_rollback (P := fun _ => True) htx (hhead.trans htokens.symm) trivial
          fun c' hs => ?_) fun _ _ _ => trivial
        rw [← htokens]
        exact hs
      rename_i hclosed
      exact hrestore (not_not.mp hclosed)
    have hend := wp_ok hrun h
    exact hend
  have hrun : m.recovery v root = m.restoreExactHostState root := by
    cases v with
    | checkpointed => exact absurd rfl hv
    | reference => rfl
    | batched => rfl
    | windowed => rfl
  rw [hrun] at h
  by_cases hnone : c.transaction = none
  · have hend := wp_ok (hrestore hnone) h
    exact hend
  · exact (wp_ok (stuck_restore c hnone) h).elim

/-! ## The verifiers -/

/-- What a verifier that throws leaves. -/
inductive Interrupted (m : Machine) (o : OuterOptions) (v : Verifier) (root : HostState)
    (tentative terminal : List Int) (c : Context) (e : Exn) (c' : Context) : Prop
  /-- The arguments were refused. -/
  | refused (arguments : ¬ v.Accepts m o tentative terminal) (unchanged : c' = c)
  /-- The root could not be restored. -/
  | unrestored (threw : m.restoreRoot o root c = .error e c')
  /-- The handler brought the root back. -/
  | restored (atRoot : Settled c' root.tokens none)
  /-- Its own call threw. -/
  | unrecovered (c₀ c₁ : Context) (e' : Exn) (start : m.restoreRoot o root c = .ok () c₀)
      (failure : m.verifierBody o v root tentative terminal c₀ = .error e c₁)
      (threw : m.recovery v root c₁ = .error e' c')

theorem verify_ok (h : m.verify o v root tentative terminal c = .ok r c') :
    Verified m o root tentative terminal r c' := by
  obtain ⟨hrun, hrefuse⟩ := verify_run m o v root tentative terminal c
  by_cases haccepts : v.Accepts m o tentative terminal
  · rw [hrun haccepts] at h
    obtain ⟨c₀, hroot, hbody⟩ := guarded_ok h
    rcases restoreRoot_ok hroot with hs | ⟨saved, htx, hsaved⟩
    · exact wp_ok (wp_body haccepts hs) hbody
    · exact (wp_ok (wp_body_open htx hsaved) hbody).elim
  obtain ⟨e, he⟩ := hrefuse haccepts
  cases he.symm.trans h

theorem verify_error (h : m.verify o v root tentative terminal c = .error e c') :
    Interrupted m o v root tentative terminal c e c' := by
  obtain ⟨hrun, hrefuse⟩ := verify_run m o v root tentative terminal c
  by_cases haccepts : v.Accepts m o tentative terminal
  · rw [hrun haccepts] at h
    rcases guarded_error h with hroot | ⟨c₀, c₁, hroot, hbody, hrec | ⟨e', hrec⟩⟩
    · exact .unrestored hroot
    · refine .restored (recovery_ok (fun hopen hv => ?_) hrec)
      rcases restoreRoot_ok hroot with hs | ⟨saved, htx, hsaved⟩
      · exact (wp_error (wp_body haccepts hs) hbody).2
      · exact (wp_error (wp_body_open htx hsaved) hbody).2 hv
    · exact .unrecovered c₀ c₁ e' hroot hbody hrec
  obtain ⟨e', he⟩ := hrefuse haccepts
  obtain ⟨-, rfl⟩ := EStateM.Result.error.inj (he.symm.trans h)
  exact .refused haccepts rfl

theorem verify_returns (haccepts : v.Accepts m o tentative terminal) (hidle : c.transaction = none)
    (hquiet : ∀ n, m.fails n = none) : ∃ r c', m.verify o v root tentative terminal c = .ok r c' := by
  have hnever : ¬ m.Failing := fun ⟨n, e, he⟩ => nomatch (hquiet n).symm.trans he
  cases hv : m.verify o v root tentative terminal c with
  | ok r c' => exact ⟨r, c', rfl⟩
  | error e c' =>
    refine (hnever ?_).elim
    rw [(verify_run m o v root tentative terminal c).1 haccepts] at hv
    rcases guarded_error hv with hroot | ⟨c₀, c₁, hroot, hbody, -⟩
    · exact wp_error (wp_restoreRoot hidle) hroot
    have hidle₀ := wp_ok (wp_restoreRoot hidle) hroot
    rcases restoreRoot_ok hroot with hs | ⟨saved, htx, -⟩
    · exact (wp_error (wp_body haccepts hs) hbody).1
    · cases hidle₀.symm.trans htx

/-- The host verifiers decide alike, whatever the options and the context they start with; each
    returns where no call throws, and one that throws leaves the root or says why not. -/
theorem verifiers_agree (m : Machine) (root : HostState) (tentative terminal : List Int) :
    (∀ (v : Verifier) (o : OuterOptions) (c c' : Context) (r : OuterResult),
      m.verify o v root tentative terminal c = .ok r c' → Verified m o root tentative terminal r c') ∧
    (∀ (v v' : Verifier) (o o' : OuterOptions) (c c' d d' : Context) (r r' : OuterResult),
      m.verify o v root tentative terminal c = .ok r c' →
      m.verify o' v' root tentative terminal d = .ok r' d' → r.toDecision = r'.toDecision) ∧
    (∀ (v : Verifier) (o : OuterOptions) (c c' : Context) (e : Exn),
      m.verify o v root tentative terminal c = .error e c' →
      Interrupted m o v root tentative terminal c e c') ∧
    (∀ (v : Verifier) (o : OuterOptions) (c : Context), v.Accepts m o tentative terminal →
      c.transaction = none → (∀ n, m.fails n = none) →
      ∃ r c', m.verify o v root tentative terminal c = .ok r c') := by
  refine ⟨fun v o c c' r h => verify_ok h, fun v v' o o' c c' d d' r r' h h' => ?_,
    fun v o c c' e h => verify_error h, fun v o c ha hi hq => verify_returns ha hi hq⟩
  exact (verify_ok h).outcome.unique (verify_ok h').outcome

/-- A machine that always goes on with token 1. -/
def onesMachine : Machine where
  next _ := 1
  next_range _ := by decide
  capacity := 8
  prepared := true
  fails _ := none

/-- Without taps there are no segments to tile the rows; and a token outside the vocabulary is
    refused with the context where it was. -/
theorem segments_not_staged : let root : HostState := ⟨1, [7], by decide⟩
    let c : Context := { tokens := [5], head := [5], resident_ok := by simp }
    (∃ r c', onesMachine.verify {} .reference root [1] [] c = .ok r c' ∧ r.committedTokens = [1] ∧
      ¬ Tiles 1 0 r.segments 1) ∧
    ∃ e c', onesMachine.verify {} .reference root [-1] [] c = .error e c' ∧ c'.tokens ≠ root.tokens := by
  refine ⟨⟨_, _, rfl, rfl, fun h => ?_⟩, ⟨_, _, rfl, by decide⟩⟩
  cases show 0 = 1 from h

end VoidInfer.Exl3.Outer
