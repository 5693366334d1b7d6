import VoidInfer.Exl3.ResidentInv

/-
  Runs of the registry: any sequence of its operations, with any answers from the operating system and any callbacks.
-/

namespace VoidInfer.Exl3

open Throwing Relation

/-- The operations. Callbacks are given by what they throw, if anything. -/
inductive Op where
  | assess (next : Snapshot)
  | commit (k : Nat) (afterLock : Nat → Option Exn)
  | replace (next : Snapshot) (afterLock : Nat → Option Exn)
  | replaceReservedSnapshot (requirement : Requirement) (factory : Nat → Except Exn Snapshot)
      (beforeCommit : Option Exn) (afterLock : Nat → Option Exn)
  | retireHost (a : Allocation)
  | retireDevice (a : Allocation)
  | retireRegistration (a : Allocation)
  | failNextRollback
  | sealExternal
  | close

namespace Op

/-- The code of an operation. -/
def exec : Op → Exec Unit
  | assess next => do let _ ← Exl3.assess next
  | commit k afterLock => Exl3.commit k afterLock
  | replace next afterLock => Exl3.replace next afterLock
  | replaceReservedSnapshot requirement factory beforeCommit afterLock =>
    Exl3.replaceReservedSnapshot requirement factory beforeCommit afterLock
  | retireHost a => do let _ ← retireReservedHostToLifetime a
  | retireDevice a => do let _ ← retireReservedDeviceToLifetime a
  | retireRegistration a => do let _ ← retireReservedRegistrationToLifetime a
  | failNextRollback => failNextRollbackForTest
  | sealExternal => sealExternalRetirementFailure
  | close => Exl3.close

/-- The operations that commit a snapshot and do nothing else. -/
def commits : Op → Bool
  | commit .. | replace .. | replaceReservedSnapshot .. => true
  | _ => false

/-- The payload owners of the snapshot that an operation tries to install. -/
def incoming (m : Machine) : Op → List (Option Nat)
  | commit k _ => ((m.plans[k]?).getD {}).next.payloadOwners
  | replace next _ => next.payloadOwners
  | replaceReservedSnapshot requirement factory _ _ =>
    match factory requirement.configuration with
    | .ok next => next.payloadOwners
    | .error _ => []
  | _ => []

end Op

/-! ## What one operation does -/

/-- After an operation the registry, if it was poisoned, is as it was; and if the operation
    poisoned it, the owners of the old and of the new snapshot are held. -/
structure Steps (owners : List (Option Nat)) (m m' : Machine) : Prop where
  inv : Inv m'
  frozen : m.reg.healthy = false → m'.reg.healthy = false ∧ m'.reg.pages = m.reg.pages ∧
    m'.reg.held = m.reg.held ∧ ∀ p, m'.os.locked p = m.os.locked p
  retained : m.reg.healthy = true → m'.reg.healthy = false →
    ∀ o ∈ m.reg.held.payloadOwners ++ owners, o ∈ m'.reg.held.payloadOwners

/-- An operation that throws; a commit that leaves the registry healthy left it as it was. -/
structure Throws (owners : List (Option Nat)) (m m' : Machine) : Prop extends Steps owners m m' where
  restored : m'.reg.healthy = true → Kept m m'

variable {owners : List (Option Nat)} {m m' m₁ : Machine}

theorem Throws.of_kept (h : Inv m') (hk : Kept m m') : Throws owners m m' :=
  ⟨⟨h, fun hh => ⟨hk.healthy.trans hh, hk.pages, hk.held, hk.locked⟩, fun h1 h2 => by
    rw [hk.healthy, h1] at h2
    exact nomatch h2⟩, fun _ => hk⟩

theorem Throws.of_quiet (h : Inv m) (hq : Quiet m m') : Throws owners m m' := Throws.of_kept (h.quiet hq) hq.kept

theorem Steps.of_kept (hk : Kept m m₁) (h : Steps owners m₁ m') : Steps owners m m' := by
  refine ⟨h.inv, fun hh => ?_, fun h1 h2 => ?_⟩
  · obtain ⟨h1, h2, h3, h4⟩ := h.frozen (hk.healthy.trans hh)
    exact ⟨h1, h2.trans hk.pages, h3.trans hk.held, fun p => (h4 p).trans (hk.locked p)⟩
  · rw [← hk.held]
    exact h.retained (hk.healthy.trans h1) h2

theorem Throws.trans_kept (hk : Kept m m₁) (h : Throws owners m₁ m') : Throws owners m m' :=
  ⟨h.toSteps.of_kept hk, fun hh => hk.trans (h.restored hh)⟩

theorem Steps.of_healthy (h : Inv m') (h1 : m.reg.healthy = true) (h2 : m'.reg.healthy = true) : Steps owners m m' :=
  ⟨h, fun hh => absurd hh (by simp [h1]), fun _ hh => absurd hh (by simp [h2])⟩

theorem commit_steps (h : Inv m) (k : Nat) (afterLock : Nat → Option Exn) :
    wp (commit k afterLock) (fun _ m' => Steps ((m.plans[k]?).getD {}).next.payloadOwners m m')
      (fun _ m' => Throws ((m.plans[k]?).getD {}).next.payloadOwners m m') m := by
  refine wp_mono (wp_commit h k afterLock) (fun _ m' ⟨h1, h2, h3⟩ => ?_) fun _ m' ⟨h1, h2⟩ => ?_
  · exact Steps.of_healthy h1 h2 h3
  rcases h2 with hk | ⟨hh, hp⟩
  · exact Throws.of_kept h1 hk
  refine ⟨⟨h1, fun hf => absurd hf (by simp [hh]), fun _ _ o ho => ?_⟩, fun hf => ?_⟩
  · rw [hp.owners]
    exact ho
  · exact absurd hf (by simp [hp.healthy])

theorem assessed_inv {next : Snapshot} {plan : Transition} (h : Inv m) (hq : Quiet m m₁) (hp : Assessed next m plan) :
    Inv { m₁ with plans := m.plans ++ [plan] } ∧ Kept m { m₁ with plans := m.plans ++ [plan] } := by
  have hk : Kept m { m₁ with plans := m.plans ++ [plan] } :=
    ⟨⟨hq.kept.pages, hq.kept.healthy, hq.kept.current, hq.kept.revision, hq.kept.quota,
      hq.kept.page, hq.kept.locked⟩, hq.kept.held⟩
  obtain ⟨_, _, rfl⟩ := hq
  refine ⟨h.steady hk.toSteady fun p hp' => ?_, hk⟩
  rcases List.mem_append.mp hp' with hp' | hp'
  · exact .inl (.inl hp')
  obtain rfl := List.mem_singleton.mp hp'
  exact .inr ⟨hp.revision, hp.ok⟩

theorem commit_assessed_steps {next : Snapshot} {plan : Transition} (h : Inv m₁)
    (hk : Kept m m₁) (hplan : m₁.plans[m.plans.length]? = some plan)
    (howners : plan.next.payloadOwners = next.payloadOwners) (afterLock : Nat → Option Exn) :
    wp (commit m.plans.length afterLock) (fun _ => Steps next.payloadOwners m)
      (fun _ => Throws next.payloadOwners m) m₁ := by
  have := commit_steps h m.plans.length afterLock
  rw [hplan, Option.getD_some, howners] at this
  exact wp_mono this (fun _ _ hs => hs.of_kept hk) fun _ _ ht => ht.trans_kept hk

theorem replace_steps (h : Inv m) (next : Snapshot) (afterLock : Nat → Option Exn) :
    wp (replace next afterLock) (fun _ => Steps next.payloadOwners m) (fun _ => Throws next.payloadOwners m) m := by
  simp only [replace, wp_bind]
  refine wp_mono (wp_assess h next) (fun k m' ⟨m₁, plan, hq, hp, hk, hm'⟩ => ?_) fun _ m' hq => Throws.of_quiet h hq
  subst hk hm'
  obtain ⟨hinv, hkept⟩ := assessed_inv h hq hp
  exact commit_assessed_steps hinv hkept (by simp) hp.owners afterLock

theorem Inv.reserving (h : Inv m) (b : Bool) {n : Nat} (hn : m.reg.revision ≤ n) :
    Inv { m with reg.reserving := b, reg.revision := n } ∧
      Kept m { m with reg.reserving := b, reg.revision := n } := by
  have hk : Kept m { m with reg.reserving := b, reg.revision := n } :=
    ⟨⟨rfl, rfl, rfl, hn, rfl, rfl, fun _ => rfl⟩, rfl⟩
  exact ⟨h.steady hk.toSteady fun p hp => .inl (.inl hp), hk⟩

theorem Steps.reserving (h : Steps owners m m') (b : Bool) : Steps owners m { m' with reg.reserving := b } :=
  ⟨(h.inv.reserving b le_rfl).1, h.frozen, h.retained⟩

theorem Throws.reserving (h : Throws owners m m') (b : Bool) : Throws owners m { m' with reg.reserving := b } :=
  ⟨h.toSteps.reserving b, fun hh => (h.restored hh).trans (h.inv.reserving b le_rfl).2⟩

theorem replaceReservedSnapshot_steps (h : Inv m) (requirement : Requirement)
    (factory : Nat → Except Exn Snapshot) (beforeCommit : Option Exn)
    (afterLock : Nat → Option Exn) :
    wp (replaceReservedSnapshot requirement factory beforeCommit afterLock)
      (fun _ m' => Steps ((Op.replaceReservedSnapshot requirement factory beforeCommit afterLock).incoming m) m m')
      (fun _ m' => Throws ((Op.replaceReservedSnapshot requirement factory beforeCommit
        afterLock).incoming m) m m') m := by
  generalize howners : (Op.replaceReservedSnapshot requirement factory beforeCommit afterLock).incoming m = owners
  simp only [replaceReservedSnapshot, wp_bind, wp_get, wp_modify, wp_finally]
  refine (quietly_check _ _).use (fun _ m₁ h₁ => ?_) fun _ _ hq => Throws.of_quiet h hq
  refine (quietly_check _ _).use (fun _ m₂ h₂ => ?_) fun _ _ hq => Throws.of_quiet h (h₁.trans hq)
  have h₁ := h₁.trans h₂
  refine (quietly_check _ _).use (fun _ m₂ h₂ => ?_) fun _ _ hq => Throws.of_quiet h (h₁.trans hq)
  have h₁ := h₁.trans h₂
  refine (quietly_check _ _).use (fun _ m₂ h₂ => ?_) fun _ _ hq => Throws.of_quiet h (h₁.trans hq)
  have h₁ := h₁.trans h₂
  refine (quietly_check _ _).use (fun _ m₂ h₂ => ?_) fun _ _ hq => Throws.of_quiet h (h₁.trans hq)
  have h₁ := h₁.trans h₂
  refine quietly_accounting.use (fun _ m₂ h₂ => ?_) fun _ _ hq => Throws.of_quiet h (h₁.trans hq)
  have h₁ := h₁.trans h₂
  -- the reservation is on its way: nothing of the invariant has moved
  obtain ⟨hinv₂, hkept₂⟩ := (h.quiet h₁).reserving true (Nat.le_succ m₂.reg.revision)
  have hkept₂ := h₁.kept.trans hkept₂
  have hthrow : ∀ m', Inv m' → Kept m m' → Throws owners m { m' with reg.reserving := false } :=
    fun m' hi hk => (Throws.of_kept hi hk).reserving false
  refine wp_ofExcept.mpr ⟨fun next hnext => ?_, fun _ _ => hthrow _ hinv₂ hkept₂⟩
  have howners' : owners = next.payloadOwners := by
    rw [← howners]
    simp only [Op.incoming, hnext]
  subst howners'
  refine (quietly_check _ _).use (fun _ m₃ h₃ => ?_) fun _ m' hq =>
    hthrow m' (hinv₂.quiet hq) (hkept₂.trans hq.kept)
  have hinv₃ := hinv₂.quiet h₃
  have hkept₃ := hkept₂.trans h₃.kept
  obtain ⟨hinv₄, hkept₄⟩ := hinv₃.reserving false le_rfl
  have hkept₄ := hkept₃.trans hkept₄
  refine wp_mono (wp_assess hinv₄ next) (fun k m' hm => ?_)
    fun _ m' hq => hthrow m' (hinv₄.quiet hq) (hkept₄.trans hq.kept)
  obtain ⟨m₅, plan, hq, hp, rfl, rfl⟩ := hm
  obtain ⟨hinv₅, hkept₅⟩ := assessed_inv hinv₄ hq hp
  obtain ⟨hinv₆, hkept₆⟩ := hinv₅.reserving true le_rfl
  refine (quietly_callBack beforeCommit).use (fun _ m₇ h₇ => ?_) fun _ m' hq' =>
    hthrow m' (hinv₆.quiet hq') (hkept₄.trans ((hkept₅.trans hkept₆).trans hq'.kept))
  obtain ⟨hinv₈, hkept₈⟩ := (hinv₆.quiet h₇).reserving false le_rfl
  have hkept₈ := ((hkept₅.trans hkept₆).trans h₇.kept).trans hkept₈
  have hplan : m₇.plans[m₃.plans.length]? = some plan := by
    obtain ⟨_, _, rfl⟩ := h₇
    simp
  exact wp_mono (commit_assessed_steps hinv₈ hkept₈ hplan hp.owners afterLock)
    (fun _ _ hs => (hs.of_kept hkept₄).reserving false) fun _ _ ht =>
      (ht.trans_kept hkept₄).reserving false

/-! ## Retirement and close -/

/-- Only the inventory may have changed, and that only while healthy. -/
structure Retired (m m' : Machine) : Prop extends Steady m m' where
  inv : Inv m'
  owners : m'.reg.held.payloadOwners = m.reg.held.payloadOwners
  frozen : m.reg.healthy = false → m'.reg.held = m.reg.held

theorem Retired.of_kept (h : Inv m') (hk : Kept m m') : Retired m m' :=
  ⟨hk.toSteady, h, by rw [hk.held], fun _ => hk.held⟩

theorem Retired.trans {m₂ : Machine} (h : Retired m m₁) (h' : Retired m₁ m₂) : Retired m m₂ :=
  ⟨h.toSteady.trans h'.toSteady, h'.inv, h'.owners.trans h.owners,
    fun hh => (h'.frozen (h.healthy.trans hh)).trans (h.frozen hh)⟩

theorem Steps.of_retired (hr : Retired m m₁) (h : Steps owners m₁ m') : Steps owners m m' := by
  refine ⟨h.inv, fun hh => ?_, fun h1 h2 => ?_⟩
  · obtain ⟨h1, h2, h3, h4⟩ := h.frozen (hr.healthy.trans hh)
    exact ⟨h1, h2.trans hr.pages, h3.trans (hr.frozen hh), fun p => (h4 p).trans (hr.locked p)⟩
  · rw [← hr.owners]
    exact h.retained (hr.healthy.trans h1) h2

theorem Retired.steps (h : Retired m m') (owners : List (Option Nat)) : Steps owners m m' :=
  (Throws.of_kept h.inv (Kept.refl m')).toSteps.of_retired h

theorem retireToLifetime_retired (h : Inv m) (name : String) (domain : Domain) (a : Allocation) :
    wp (retireToLifetime name domain a) (fun _ => Retired m) (fun _ => Retired m) m := by
  simp only [retireToLifetime, wp_bind, wp_get, wp_modify, wp_finally]
  have hquiet : ∀ m', Quiet m m' → Retired m m' := fun m' hq =>
    Retired.of_kept (h.quiet hq) hq.kept
  refine wp_check (fun havail => ?_) fun _ => hquiet m (Quiet.refl m)
  have hhealthy := healthy_of_available havail
  refine (quietly_check _ _).use (fun _ m₁ h₁ => ?_) fun _ m' hq => hquiet m' hq
  refine (quietly_check _ _).use (fun _ m₂ h₂ => ?_) fun _ m' hq => hquiet m' (h₁.trans hq)
  have hq₂ := h₁.trans h₂
  refine wp_ofExcept.mpr ⟨fun next hnext => ?_, fun _ _ => hquiet m₂ hq₂⟩
  obtain ⟨hinv₃, hkept₃⟩ := (h.quiet hq₂).reserving true (Nat.le_succ m₂.reg.revision)
  have hkept₃ := hq₂.kept.trans hkept₃
  -- the flag goes down on every way out
  have hexit : ∀ m', Inv m' → Kept m m' → Retired m { m' with reg.reserving := false } := by
    intro m' hi hk
    obtain ⟨h1, h2⟩ := hi.reserving false le_rfl
    exact Retired.of_kept h1 (hk.trans h2)
  refine quietly_accounting.use (fun _ m₄ h₄ => ?_) fun _ m' hq =>
    hexit m' (hinv₃.quiet hq) (hkept₃.trans hq.kept)
  refine wp_reply fun answer m₅ h₅ => ?_
  have hq₅ := h₄.trans h₅
  have hinv₅ := hinv₃.quiet hq₅
  have hkept₅ := hkept₃.trans hq₅.kept
  split
  · have hs : Steady m { m₅ with reg.held.resources := next, reg.reserving := false } :=
      ⟨hkept₅.pages, hkept₅.healthy, hkept₅.current, hkept₅.revision, hkept₅.quota, hkept₅.page, hkept₅.locked⟩
    refine ⟨hs, ?_, ?_, fun hf => absurd hf (by simp [hhealthy])⟩
    · refine hinv₅.steady ⟨rfl, rfl, rfl, le_rfl, rfl, rfl, fun _ => rfl⟩ fun p hp => ?_
      exact .inl (.inl hp)
    · show Snapshot.payloadOwners { m₅.reg.held with resources := next } = _
      rw [hkept₅.held]
      rfl
  · exact hexit m₅ hinv₅ hkept₅

theorem closeRetire_retired (h : Inv m) (a : Allocation) :
    wp (closeRetire a) (fun _ => Retired m) (fun _ => Retired m) m := by
  have hone : ∀ name domain e,
      wp (do
        let taken ← retireToLifetime name domain a
        check (taken = false) e) (fun _ => Retired m) (fun _ => Retired m) m := by
    intro name domain e
    rw [wp_bind]
    refine wp_imp (retireToLifetime_retired h name domain a) fun taken m₁ h₁ => ?_
    exact wp_check (fun _ => h₁) fun _ => h₁
  unfold closeRetire
  split
  · exact hone ..
  split
  · exact hone ..
  · exact hone ..

theorem closeRetireAll_retired (h : Inv m) (fuel : Nat) :
    wp (closeRetireAll fuel) (fun _ => Retired m) (fun _ => Retired m) m := by
  induction fuel generalizing m with
  | zero => exact Retired.of_kept h (Kept.refl m)
  | succ fuel ih =>
    simp only [closeRetireAll, wp_bind, wp_get]
    split
    · exact Retired.of_kept h (Kept.refl m)
    rw [wp_bind]
    refine wp_imp (closeRetire_retired h _) fun _ m₁ h₁ => ?_
    exact wp_mono (ih h₁.inv) (fun _ _ h₂ => h₁.trans h₂) fun _ _ h₂ => h₁.trans h₂

theorem setQuota_steps (h : Steps owners m m₁) (quota : Quota) :
    wp (setQuota quota) (fun _ => Steps owners m) (fun _ => Steps owners m) m₁ := by
  simp only [setQuota, wp_bind]
  refine wp_reply fun answer m₂ hq => ?_
  obtain ⟨_, _, rfl⟩ := hq
  split
  · refine ⟨⟨h.inv.page, h.inv.chunk, h.inv.pages, rfl, h.inv.tracked, h.inv.contained,
      h.inv.plans⟩, h.frozen, h.retained⟩
  exact wp_osError fun _ => ⟨⟨h.inv.page, h.inv.chunk, h.inv.pages, h.inv.quota, h.inv.tracked,
    h.inv.contained, h.inv.plans⟩, h.frozen, h.retained⟩

theorem close_steps (h : Inv m) : wp close (fun _ m' => Steps [] m m') (fun _ m' => Steps [] m m') m := by
  have hself : Steps [] m m := (Retired.of_kept h (Kept.refl m)).steps []
  simp only [close, wp_bind, wp_get]
  split
  · exact hself
  simp only [wp_bind, wp_get, wp_modify]
  refine wp_check (fun _ => ?_) fun _ => hself
  refine wp_mono (closeRetireAll_retired h _) (fun _ m₁ h₁ => ?_) fun _ _ h₁ => h₁.steps []
  refine wp_mono (replace_steps h₁.inv {} _) (fun _ m₂ h₂ => ?_) fun _ _ h₂ =>
    h₂.toSteps.of_retired h₁
  refine wp_imp (setQuota_steps (h₂.of_retired h₁) _) fun _ m₃ h₃ => ?_
  exact ⟨⟨h₃.inv.page, h₃.inv.chunk, h₃.inv.pages, h₃.inv.quota, h₃.inv.tracked,
    h₃.inv.contained, h₃.inv.plans⟩, h₃.frozen, h₃.retained⟩

/-! ## Runs -/

/-- One operation: the invariant, and what becomes of pages and owners. -/
theorem op_steps (h : Inv m) (op : Op) :
    wp op.exec (fun _ => Steps (op.incoming m) m)
      (fun _ m' => Steps (op.incoming m) m m' ∧ (op.commits = true → m'.reg.healthy = true → Kept m m')) m := by
  have hkept : ∀ {owners : List (Option Nat)} {m' : Machine}, Throws owners m m' →
      Steps owners m m' ∧ (op.commits = true → m'.reg.healthy = true → Kept m m') :=
    fun ht => ⟨ht.toSteps, fun _ => ht.restored⟩
  have hretired : ∀ name domain a c, c = false →
      wp (do let _ ← retireToLifetime name domain a) (fun _ m' => Steps [] m m')
        (fun _ m' => Steps [] m m' ∧ (c = true → m'.reg.healthy = true → Kept m m')) m := by
    intro name domain a c hc
    rw [wp_bind]
    exact wp_mono (retireToLifetime_retired h name domain a) (fun _ _ hr => hr.steps [])
      fun _ _ hr => ⟨hr.steps [], fun h => absurd h (by simp [hc])⟩
  cases op with
  | assess next =>
    simp only [Op.exec, wp_bind]
    refine wp_mono (wp_assess h next) (fun k m' ⟨m₁, plan, hq, hp, _, hm'⟩ => ?_)
      fun _ m' hq => hkept (Throws.of_quiet h hq)
    subst hm'
    obtain ⟨h1, h2⟩ := assessed_inv h hq hp
    exact (Throws.of_kept h1 h2).toSteps
  | commit k afterLock =>
    exact wp_fail (commit_steps h k afterLock) fun _ _ ht => hkept ht
  | replace next afterLock =>
    exact wp_fail (replace_steps h next afterLock) fun _ _ ht => hkept ht
  | replaceReservedSnapshot requirement factory beforeCommit afterLock =>
    exact wp_fail (replaceReservedSnapshot_steps h requirement factory beforeCommit afterLock) fun _ _ ht => hkept ht
  | retireHost a => exact hretired "host" .hostMetadata a false rfl
  | retireDevice a => exact hretired "device" .device a false rfl
  | retireRegistration a => exact hretired "registration" .cudaRegisteredHost a false rfl
  | failNextRollback =>
    simp only [Op.exec, failNextRollbackForTest, wp_bind, wp_get, wp_modify]
    refine (quietly_check _ _).use (fun _ m₁ hq => ?_) fun _ m' hq => hkept (Throws.of_quiet h hq)
    have hk : Kept m { m₁ with reg.rollbackFaultForTest := true } :=
      ⟨⟨hq.kept.pages, hq.kept.healthy, hq.kept.current, hq.kept.revision, hq.kept.quota,
        hq.kept.page, hq.kept.locked⟩, hq.kept.held⟩
    refine (Throws.of_kept (h.steady hk.toSteady fun p hp => .inl (.inl ?_)) hk).toSteps
    obtain ⟨_, _, rfl⟩ := hq
    exact hp
  | sealExternal =>
    have hk : Kept m { m with reg.externalRetirementFailed := true } :=
      ⟨⟨rfl, rfl, rfl, le_rfl, rfl, rfl, fun _ => rfl⟩, rfl⟩
    exact (Throws.of_kept (h.steady hk.toSteady fun p hp => .inl (.inl hp)) hk).toSteps
  | close =>
    exact wp_fail (close_steps h) fun _ _ hs => ⟨hs, fun h => absurd h (by simp [Op.commits])⟩

/-- The constructor, where the quota can be read and the reserve is there. -/
def construct (os : OS) (address authorityIdentity budget reserve backingBytes : Nat) :
    Except Exn Exl3HostResidentSet := do
  throwIf (os.page = 0 ∨ os.page &&& (os.page - 1) ≠ 0 ∨ budget = 0 ∨ reserve < 2 ^ 30)
    (.invalidArgument "resident budget/page geometry")
  return { address, authorityIdentity, budget, reserve, backingBytes
           originalQuota := os.quota, currentQuota := os.quota }

/-- A machine on which a registry has just been made. A page of the operating system is no larger than a lock chunk. -/
structure Started (m : Machine) : Prop where
  made : ∃ address identity budget reserve backingBytes,
    construct m.os address identity budget reserve backingBytes = .ok m.reg
  page_le : m.os.page ≤ chunkBytes
  locked : ∀ p, m.os.locked p = false
  plans : m.plans = []

/-- A step of a run: an operation returns or throws, or the world around the registry makes
    up its mind about the answers to come and about locks of its own. -/
inductive Next (m : Machine) : Machine → Prop where
  | returns (op : Op) {m' : Machine} (h : op.exec m = .ok () m') : Next m m'
  | throws (op : Op) {e : Exn} {m' : Machine} (h : op.exec m = .error e m') : Next m m'
  | environment (replies : List Reply) (foreign : Nat → Bool) :
      Next m { m with os.replies := replies, os.foreign := foreign }

theorem started_inv (h : Started m) : Inv m := by
  obtain ⟨address, identity, budget, reserve, backingBytes, hmade⟩ := h.made
  obtain ⟨hgeo, hreg⟩ := check_ok hmade
  simp only [not_or, not_not] at hgeo
  obtain ⟨hzero, hpow, -, -⟩ := hgeo
  have hreg := Except.ok.inj hreg
  have hpages : m.reg.pages = [] := by rw [← hreg]
  have hquota : m.os.quota = m.reg.currentQuota := by rw [← hreg]
  -- a power of two up to `2 ^ 24` divides it
  have hchunk : m.os.page ∣ chunkBytes := by
    obtain ⟨k, hk⟩ := (Nat.and_sub_one_eq_zero_iff_isPowerOfTwo hzero).mp hpow
    have hle := h.page_le
    have h24 : chunkBytes = 2 ^ 24 := rfl
    rw [hk, h24] at hle ⊢
    exact Nat.pow_dvd_pow 2 ((Nat.pow_le_pow_iff_right (by decide)).mp hle)
  refine ⟨Nat.pos_of_ne_zero hzero, hchunk, ?_, hquota, fun _ p => ?_, fun p hp => ?_, fun _ => ?_⟩
  · rw [hpages]
    exact normal_nil _
  · rw [hpages, h.locked p]
    simp [PageIn]
  · exact absurd hp (by simp [h.locked p])
  · rw [h.plans]
    simp

theorem next_steps (h : Inv m) (hn : Next m m') :
    Inv m' ∧ (m.reg.healthy = false → m'.reg.healthy = false ∧ m'.reg.pages = m.reg.pages ∧
      m'.reg.held = m.reg.held ∧ ∀ p, m'.os.locked p = m.os.locked p) := by
  cases hn with
  | returns op hop =>
    have hs := wp_ok (op_steps h op) hop
    exact ⟨hs.inv, hs.frozen⟩
  | throws op hop =>
    have hs := (wp_error (op_steps h op) hop).1
    exact ⟨hs.inv, hs.frozen⟩
  | environment replies foreign =>
    exact ⟨⟨h.page, h.chunk, h.pages, h.quota, h.tracked, h.contained, h.plans⟩,
      fun hh => ⟨hh, rfl, rfl, fun _ => rfl⟩⟩

theorem run_inv (h : Inv m) (hr : ReflTransGen Next m m') : Inv m' := by
  induction hr with
  | refl => exact h
  | tail _ hn ih => exact (next_steps ih hn).1

theorem run_frozen (h : Inv m) (hh : m.reg.healthy = false) (hr : ReflTransGen Next m m') :
    m'.reg.healthy = false ∧ m'.reg.pages = m.reg.pages ∧ m'.reg.held = m.reg.held ∧
      ∀ p, m'.os.locked p = m.os.locked p := by
  induction hr with
  | refl => exact ⟨hh, rfl, rfl, fun _ => rfl⟩
  | tail hr hn ih =>
    obtain ⟨h1, h2, h3, h4⟩ := ih
    obtain ⟨h5, h6, h7, h8⟩ := (next_steps (run_inv h hr) hn).2 h1
    exact ⟨h5, h6.trans h2, h7.trans h3, fun p => (h8 p).trans (h4 p)⟩

/-- In every state of every run: while the registry is healthy, the pages it has locked are those of `pages_`; a commit
    that throws and leaves it healthy leaves `pages_`, `held_` and the quota as they were; an operation that poisons it
    keeps the owners of the old and the new snapshot; and once it is poisoned, every page still locked is in `pages_`
    and no later operation changes `pages_` or what is held. -/
theorem resident_run_invariant {m₀ m : Machine} (h₀ : Started m₀) (hr : Relation.ReflTransGen Next m₀ m) :
    (m.reg.healthy = true → ∀ p, m.os.locked p = true ↔ PageIn m.os.page m.reg.pages p) ∧
    (∀ (op : Op) (e : Exn) (m' : Machine), op.commits = true → op.exec m = .error e m' →
      m'.reg.healthy = true → m'.reg.pages = m.reg.pages ∧ m'.reg.held = m.reg.held ∧
        m'.os.quota = m.os.quota ∧ m'.reg.currentQuota = m.reg.currentQuota) ∧
    (∀ (op : Op) (m' : Machine), (op.exec m = .ok () m' ∨ ∃ e, op.exec m = .error e m') →
      m.reg.healthy = true → m'.reg.healthy = false →
      ∀ o ∈ m.reg.held.payloadOwners ++ op.incoming m, o ∈ m'.reg.held.payloadOwners) ∧
    (m.reg.healthy = false → (∀ p, m.os.locked p = true → PageIn m.os.page m.reg.pages p) ∧
      ∀ m', Relation.ReflTransGen Next m m' → m'.reg.healthy = false ∧
        m'.reg.pages = m.reg.pages ∧ m'.reg.held = m.reg.held) := by
  have hinv := run_inv (started_inv h₀) hr
  refine ⟨hinv.tracked, fun op e m' hc hop hh => ?_, fun op m' hop => ?_, fun hh =>
    ⟨hinv.contained, fun m' hr' => ?_⟩⟩
  · have hk := (wp_error (op_steps hinv op) hop).2 hc hh
    exact ⟨hk.pages, hk.held, hk.quota, hk.current⟩
  · rcases hop with hop | ⟨e, hop⟩
    · exact (wp_ok (op_steps hinv op) hop).retained
    · exact (wp_error (op_steps hinv op) hop).1.retained
  · obtain ⟨h1, h2, h3, -⟩ := run_frozen hinv hh hr'
    exact ⟨h1, h2, h3⟩

/-- The machine after an operation, whichever way it ends. -/
def Op.after (op : Op) (m : Machine) : Machine :=
  match op.exec m with
  | .ok _ m' => m'
  | .error _ m' => m'

theorem next_after (op : Op) (m : Machine) : Next m (op.after m) := by
  unfold Op.after
  split
  · next h => exact Next.returns op h
  · next h => exact Next.throws op h

/-- A registry on a machine with pages of 4096 bytes. -/
def sampleStart : Machine :=
  { os := { page := 4096 }, reg := { budget := 2 ^ 30, reserve := 2 ^ 30, backingBytes := 64 } }

/-- Two pages of one owner, the second of them partly covered. -/
def sampleSnapshot (owner first : Nat) : Snapshot :=
  { owners := [some owner], ownersCapacity := 1
    regions := [(first * 4096 + 5, (first + 1) * 4096 + 5)], regionsCapacity := 1 }

/-- A first snapshot goes through. -/
def sampleLocked : Machine := (Op.replace (sampleSnapshot 7 16) fun _ => none).after sampleStart

/-- For the second, the lock fails with one page locked, and the rollback fails too. -/
def samplePoisoned : Machine :=
  (Op.replace (sampleSnapshot 8 17) fun _ => none).after { sampleLocked with
    os.replies := [{}, {}, {}, {}, {}, {}, {}, {}, {}, {}, { ok := false, part := fun _ => true }
      , { ok := false }] }

theorem sampleStart_started : Started sampleStart :=
  ⟨⟨0, 0, 2 ^ 30, 2 ^ 30, 64, rfl⟩, by decide, fun _ => rfl, rfl⟩

theorem resident_run_invariant_sample :
    sampleLocked.os.locked 17 = true ∧ samplePoisoned.reg.healthy = false ∧
      samplePoisoned.os.locked 18 = true ∧
      PageIn samplePoisoned.os.page samplePoisoned.reg.pages 18 := by
  have hr : ReflTransGen Next sampleStart samplePoisoned :=
    ((ReflTransGen.single (next_after _ _)).tail (Next.environment _ _)).tail
      (next_after _ _)
  have hpoisoned : samplePoisoned.reg.healthy = false := by decide +kernel
  have hlocked : samplePoisoned.os.locked 18 = true := by decide +kernel
  exact ⟨by decide +kernel, hpoisoned, hlocked,
    ((resident_run_invariant sampleStart_started hr).2.2.2 hpoisoned).1 18 hlocked⟩

end VoidInfer.Exl3
