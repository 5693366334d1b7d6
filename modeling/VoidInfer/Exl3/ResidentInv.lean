import VoidInfer.Exl3.ResidentCalls

/-
  The registry never loses track of a page lock.

  While it is healthy the pages it has locked are exactly those of `pages_`, and a commit that throws leaves it as it
  was. A rollback or an unlock that fails poisons it: `pages_` then covers the old and the new ranges, so whatever is
  still locked is named there, the owners of both snapshots are held, and no later call changes either
  (`resident_run_invariant`).
-/

namespace VoidInfer.Exl3

open Throwing

/-! ## The invariant -/

/-- A page union: ranges in order, on page boundaries, within the address space. -/
structure Normal (page : Nat) (l : List ResidentRange) : Prop where
  ordered : Ordered l
  ends : Ends (fun a => page ∣ a ∧ a ≤ uint64Max) l

variable {page : Nat} {m m' : Machine} {pages : List ResidentRange} {plan : Transition}

variable {l regions : List ResidentRange} {m₁ m₂ : Machine}

theorem Normal.aligned (h : Normal page l) : Aligned page l := fun r hr => ⟨(h.ends r hr).1.1, (h.ends r hr).2.1⟩

theorem Normal.extent_ok (h : Normal page l) : ∃ n, extent l = .ok n :=
  Exl3.extent_ok h.ordered fun r hr => ⟨(h.ends r hr).1.2, (h.ends r hr).2.2⟩

theorem normal_nil (page : Nat) : Normal page [] := ⟨ordered_nil, by simp [Ends]⟩

/-- What a transition promises about the pages it was assessed against. -/
structure PlanOk (page : Nat) (pages : List ResidentRange) (plan : Transition) : Prop where
  desired : Normal page plan.desired
  added : Normal page plan.added
  removed : Normal page plan.removed
  added_covers : ∀ x, Covers plan.added x ↔ Covers plan.desired x ∧ ¬ Covers pages x
  removed_covers : ∀ x, Covers plan.removed x ↔ Covers pages x ∧ ¬ Covers plan.desired x

structure Inv (m : Machine) : Prop where
  page : 0 < m.os.page
  chunk : m.os.page ∣ chunkBytes
  pages : Normal m.os.page m.reg.pages
  quota : m.os.quota = m.reg.currentQuota
  tracked : m.reg.healthy = true → ∀ p, m.os.locked p = true ↔ PageIn m.os.page m.reg.pages p
  contained : ∀ p, m.os.locked p = true → PageIn m.os.page m.reg.pages p
  plans : m.reg.healthy = true → ∀ plan ∈ m.plans, plan.revision ≤ m.reg.revision ∧
    (plan.consumed = false → plan.revision = m.reg.revision → PlanOk m.os.page m.reg.pages plan)

/-- Nothing that the invariant speaks of has changed, but perhaps the transitions. -/
structure Steady (m m' : Machine) : Prop where
  pages : m'.reg.pages = m.reg.pages
  healthy : m'.reg.healthy = m.reg.healthy
  current : m'.reg.currentQuota = m.reg.currentQuota
  revision : m.reg.revision ≤ m'.reg.revision
  quota : m'.os.quota = m.os.quota
  page : m'.os.page = m.os.page
  locked : ∀ p, m'.os.locked p = m.os.locked p

/-- The same, and nothing held has changed. -/
structure Kept (m m' : Machine) : Prop extends Steady m m' where
  held : m'.reg.held = m.reg.held

theorem Steady.trans (h : Steady m m₁) (h' : Steady m₁ m₂) : Steady m m₂ :=
  ⟨h'.pages.trans h.pages, h'.healthy.trans h.healthy, h'.current.trans h.current,
    Nat.le_trans h.revision h'.revision, h'.quota.trans h.quota, h'.page.trans h.page,
    fun p => (h'.locked p).trans (h.locked p)⟩

theorem Kept.trans (h : Kept m m₁) (h' : Kept m₁ m₂) : Kept m m₂ :=
  ⟨h.toSteady.trans h'.toSteady, h'.held.trans h.held⟩

theorem Kept.refl (m : Machine) : Kept m m :=
  ⟨⟨rfl, rfl, rfl, le_rfl, rfl, rfl, fun _ => rfl⟩, rfl⟩

theorem Quiet.kept (h : Quiet m m') : Kept m m' := by
  obtain ⟨_, _, rfl⟩ := h
  exact ⟨⟨rfl, rfl, rfl, le_rfl, rfl, rfl, fun _ => rfl⟩, rfl⟩

/-- A transition the invariant asks nothing new of. -/
def Spent (m : Machine) (plan : Transition) : Prop :=
  plan ∈ m.plans ∨ plan.consumed = true ∧ plan.revision ≤ m.reg.revision

theorem Inv.steady (h : Inv m) (hk : Steady m m')
    (hplans : ∀ plan ∈ m'.plans, Spent m plan ∨
      plan.revision = m'.reg.revision ∧ PlanOk m'.os.page m'.reg.pages plan) : Inv m' := by
  refine ⟨hk.page ▸ h.page, hk.page ▸ h.chunk, ?_, ?_, fun hh p => ?_, fun p hp => ?_, fun hh => ?_⟩
  · rw [hk.page, hk.pages]
    exact h.pages
  · rw [hk.quota, hk.current]
    exact h.quota
  · rw [hk.locked, hk.page, hk.pages]
    exact h.tracked (hk.healthy ▸ hh) p
  · rw [hk.page, hk.pages]
    exact h.contained p (hk.locked p ▸ hp)
  · intro plan hp
    have hrev := hk.revision
    rcases hplans plan hp with (hp | ⟨hp, hle⟩) | ⟨hr, hok⟩
    · obtain ⟨h1, h2⟩ := h.plans (hk.healthy ▸ hh) plan hp
      refine ⟨by omega, fun hc hr => ?_⟩
      rw [hk.page, hk.pages]
      exact h2 hc (by omega)
    · exact ⟨by omega, fun hc => absurd hc (by simp [hp])⟩
    · exact ⟨by omega, fun _ _ => hok⟩

theorem Inv.quiet (h : Inv m) (hq : Quiet m m') : Inv m' := by
  refine h.steady hq.kept.toSteady fun plan hp => .inl (.inl ?_)
  obtain ⟨_, _, rfl⟩ := hq
  exact hp

/-! ## Assessment -/

theorem mapM_ok {α β : Type} {f : α → Except Exn β} {l : List α} {l' : List β}
    (h : l.mapM f = .ok l') : ∀ b ∈ l', ∃ a ∈ l, f a = .ok b := by
  induction l generalizing l' with
  | nil =>
    cases h
    simp
  | cons a l ih =>
    rw [List.mapM_cons] at h
    obtain ⟨b, hb, h⟩ := bind_ok h
    obtain ⟨bs, hbs, h⟩ := bind_ok h
    cases h
    intro c hc
    rcases List.mem_cons.mp hc with rfl | hc
    · exact ⟨a, by simp, hb⟩
    obtain ⟨d, hd, hdc⟩ := ih hbs c hc
    exact ⟨d, by simp [hd], hdc⟩

theorem roundRegions_spec (hpage : 0 < page) {rounded : List ResidentRange}
    (h : roundRegions page regions = .ok rounded) :
    (∀ r ∈ rounded, r.1 < r.2) ∧ Ends (fun a => page ∣ a ∧ a ≤ uint64Max) rounded := by
  have hall : ∀ b ∈ rounded, ∃ a : ResidentRange, ¬ (a.1 ≥ a.2 ∨ a.2 > uint64Max - (page - 1)) ∧
      b = (alignDown page a.1, alignDown page (a.2 + page - 1)) := by
    intro b hb
    obtain ⟨a, -, hab⟩ := mapM_ok h b hb
    obtain ⟨_, hck, hab⟩ := bind_ok hab
    exact ⟨a, throwIf_ok.mp hck, (Except.ok.inj hab).symm⟩
  have hdown : ∀ x, alignDown page x ≤ x := fun x => Nat.div_mul_le_self x page
  constructor
  · intro b hb
    obtain ⟨a, hck, rfl⟩ := hall b hb
    have h1 := hdown a.1
    have h2 : a.2 + page - 1 < alignDown page (a.2 + page - 1) + page := by
      have := Nat.lt_div_mul_add (a := a.2 + page - 1) hpage
      exact this
    omega
  · intro b hb
    obtain ⟨a, hck, rfl⟩ := hall b hb
    have h1 := hdown a.1
    have h2 := hdown (a.2 + page - 1)
    exact ⟨⟨Nat.dvd_mul_left _ _, by omega⟩, ⟨Nat.dvd_mul_left _ _, by omega⟩⟩

theorem planOk_of_assess (hpages : Normal page pages) (hn : ∀ r ∈ regions, r.1 < r.2)
    (he : Ends (fun a => page ∣ a ∧ a ≤ uint64Max) regions)
    (hd : plan.desired = mergeResidentRangesInPlace regions)
    (ha : plan.added = residentDifference plan.desired pages)
    (hr : plan.removed = residentDifference pages plan.desired) : PlanOk page pages plan := by
  obtain ⟨h1, h2, -⟩ := mergeResidentRangesInPlace_spec hn he
  rw [← hd] at h1 h2
  obtain ⟨h3, h4, h5⟩ := residentDifference_spec h1 hpages.ordered h2 hpages.ends
  obtain ⟨h6, h7, h8⟩ := residentDifference_spec hpages.ordered h1 hpages.ends h2
  rw [← ha] at h3 h4 h5
  rw [← hr] at h6 h7 h8
  exact ⟨⟨h1, h2⟩, ⟨h3, h4⟩, ⟨h6, h7⟩, h5, h8⟩

theorem wp_retainDescriptors (next : Snapshot) (m : Machine) :
    wp (retainDescriptors next) (fun out m' => Quiet m m' ∧ out.payloadOwners = next.payloadOwners)
      (fun _ m' => Quiet m m') m := by
  unfold retainDescriptors
  split
  · exact ⟨Quiet.refl m, rfl⟩
  next hnone =>
  have hback : next.descriptorBacking = none := by
    simpa using (not_or.mp hnone).1
  simp only [wp_bind, wp_get, wp_pure]
  refine wp_reply fun a m₁ hq => ?_
  refine wp_ofExcept.mpr ⟨fun resources _ => ⟨hq, ?_⟩, fun _ _ => hq⟩
  simp [Snapshot.payloadOwners, hback]

/-- A transition as `assess` leaves it. -/
structure Assessed (next : Snapshot) (m : Machine) (plan : Transition) : Prop where
  revision : plan.revision = m.reg.revision
  ok : PlanOk m.os.page m.reg.pages plan
  owners : plan.next.payloadOwners = next.payloadOwners

theorem wp_assess (h : Inv m) (next : Snapshot) :
    wp (assess next)
      (fun k m' => ∃ m₁ plan, Quiet m m₁ ∧ Assessed next m plan ∧ k = m.plans.length ∧
        m' = { m₁ with plans := m.plans ++ [plan] })
      (fun _ m' => Quiet m m') m := by
  simp only [assess, wp_bind, wp_get]
  refine (quietly_check _ _).use (fun _ m₁ h₁ => ?_) fun _ _ h => h
  refine (quietly_check _ _).use (fun _ m₂ h₂ => ?_) fun _ _ h => h₁.trans h
  refine (quietly_check _ _).use (fun _ m₃ h₃ => ?_) fun _ _ h => (h₁.trans h₂).trans h
  have hq₃ := (h₁.trans h₂).trans h₃
  refine wp_ofExcept.mpr ⟨fun regions hregions => ?_, fun _ _ => hq₃⟩
  refine wp_mono (wp_retainDescriptors _ m₃) (fun next' m₄ hretained => ?_) fun _ _ h => hq₃.trans h
  obtain ⟨h₄, howners⟩ := hretained
  have hq₄ := hq₃.trans h₄
  refine quietly_accounting.use (fun _ m₅ h₅ => ?_) fun _ _ h => hq₄.trans h
  refine quietly_accounting.use (fun _ m₆ h₆ => ?_) fun _ _ h => (hq₄.trans h₅).trans h
  have hq₆ := (hq₄.trans h₅).trans h₆
  refine wp_ofExcept.mpr ⟨fun old _ => ?_, fun _ _ => hq₆⟩
  refine wp_ofExcept.mpr ⟨fun addedBytes _ => ?_, fun _ _ => hq₆⟩
  refine (quietly_check _ _).use (fun _ m₇ h₇ => ?_) fun _ _ h => hq₆.trans h
  refine quietly_accounting.use (fun _ m₈ h₈ => ?_) fun _ _ h => (hq₆.trans h₇).trans h
  have hq₈ := (hq₆.trans h₇).trans h₈
  obtain ⟨hn, he⟩ := roundRegions_spec h.page hregions
  have hplans : m₈.plans = m.plans := by
    obtain ⟨_, _, rfl⟩ := hq₈
    rfl
  refine ⟨m₈,
    { authority := some m.reg.address, identity := m.reg.authorityIdentity
      revision := m.reg.revision, next := next', desired := mergeResidentRangesInPlace regions
      added := residentDifference (mergeResidentRangesInPlace regions) m.reg.pages
      removed := residentDifference m.reg.pages (mergeResidentRangesInPlace regions) },
    hq₈, ⟨rfl, planOk_of_assess h.pages hn he rfl rfl rfl, howners⟩, rfl, ?_⟩
  show Machine.mk _ _ _ _ _ = _
  rw [hplans]

/-! ## Commit -/

/-- A commit that returned. -/
structure Published (plan : Transition) (m m' : Machine) : Prop where
  pages : m'.reg.pages = plan.desired
  held : m'.reg.held = plan.next
  healthy : m'.reg.healthy = m.reg.healthy
  revision : m'.reg.revision = m.reg.revision + 1
  quota : m'.os.quota = m'.reg.currentQuota
  page : m'.os.page = m.os.page
  plans : m'.plans = m.plans
  locked : ∀ p, m'.os.locked p = true ↔ PageIn m.os.page plan.desired p

/-- A commit that poisoned the registry: the old and the new are both kept. -/
structure Poisoned (plan : Transition) (m m' : Machine) : Prop where
  healthy : m'.reg.healthy = false
  pages : Normal m.os.page m'.reg.pages
  owners : m'.reg.held.payloadOwners = m.reg.held.payloadOwners ++ plan.next.payloadOwners
  resources : Inventory.append m.reg.held.resources plan.next.resources = .ok m'.reg.held.resources
  quota : m'.os.quota = m'.reg.currentQuota
  page : m'.os.page = m.os.page
  contained : ∀ p, m'.os.locked p = true → PageIn m.os.page m'.reg.pages p

theorem wp_prepareCommit (plan : Transition) (m : Machine) :
    wp (prepareCommit plan)
      (fun prepared m' => Quiet m m' ∧
        Inventory.append m.reg.held.resources plan.next.resources = .ok prepared.combinedResources)
      (fun _ m' => Quiet m m') m := by
  simp only [prepareCommit, wp_bind, wp_get]
  refine quietly_accounting.use (fun _ m₁ h₁ => ?_) fun _ _ h => h
  refine (quietly_check _ _).use (fun _ m₂ h₂ => ?_) fun _ _ h => h₁.trans h
  have hq₂ := h₁.trans h₂
  refine wp_ofExcept.mpr ⟨fun slots _ => ?_, fun _ _ => hq₂⟩
  refine quietly_accounting.use (fun _ m₃ h₃ => ?_) fun _ _ h => hq₂.trans h
  have hq₃ := hq₂.trans h₃
  refine wp_ofExcept.mpr ⟨fun resources hresources => ?_, fun _ _ => hq₃⟩
  refine wp_ofExcept.mpr ⟨fun addedBytes _ => ?_, fun _ _ => hq₃⟩
  refine wp_ofExcept.mpr ⟨fun oldBytes _ => ?_, fun _ _ => hq₃⟩
  -- the rest keeps the machine, and what it returns holds the inventory just made
  have hrest : Quietly (do
      check (oldBytes > m.reg.budget ∨ addedBytes > m.reg.budget - oldBytes) budgetExhausted
      accounting
      let missing ← preflight plan.added
      (if missing ≠ 0 then checkReserve missing else pure ())
      pure missing) := by
    refine (quietly_check _ _).bind fun _ => quietly_accounting.bind fun _ => ?_
    refine (quietly_preflight _).bind fun missing => Quietly.bind ?_ fun _ => quietly_pure _
    split
    · exact quietly_checkReserve missing
    · exact quietly_pure ()
  have := hrest.use (m := m₃)
    (Q := fun _ m' => Quiet m m' ∧
      Inventory.append m.reg.held.resources plan.next.resources = .ok resources)
    (E := fun _ m' => Quiet m m')
    (fun _ m' hq => ⟨hq₃.trans hq, hresources⟩) fun _ m' hq => hq₃.trans hq
  simpa only [wp_bind, wp_pure] using this

theorem combinedPages_spec (hpage : 0 < page) (hpages : Normal page pages) (hplan : PlanOk page pages plan) :
    Normal page (mergeSortedResidentRanges pages plan.desired) ∧
      ∀ p, PageIn page (mergeSortedResidentRanges pages plan.desired) p ↔
        PageIn page pages p ∨ PageIn page plan.desired p := by
  obtain ⟨h1, h2, h3⟩ := mergeSortedResidentRanges_spec hpages.ordered hplan.desired.ordered
    hpages.ends hplan.desired.ends
  have hn : Normal page (mergeSortedResidentRanges pages plan.desired) := ⟨h1, h2⟩
  refine ⟨hn, fun p => ?_⟩
  rw [pageIn_iff_covers hpage hn.aligned, pageIn_iff_covers hpage hpages.aligned,
    pageIn_iff_covers hpage hplan.desired.aligned, h3]

theorem chunks_spec (hpage : 0 < page) (hchunk : page ∣ chunkBytes) (hpages : Normal page pages)
    (hplan : PlanOk page pages plan) :
    Aligned page (lockChunks plan.added) ∧
      ∀ p, PageIn page (lockChunks plan.added) p ↔ PageIn page plan.desired p ∧ ¬ PageIn page pages p := by
  have ha := lockChunks_aligned hchunk hplan.added.aligned
  refine ⟨ha, fun p => ?_⟩
  rw [pageIn_iff_covers hpage ha, lockChunks_covers, hplan.added_covers,
    pageIn_iff_covers hpage hplan.desired.aligned, pageIn_iff_covers hpage hpages.aligned]

theorem poisoned_of {resources : Inventory} (hpage : 0 < m.os.page) (hpages : Normal m.os.page m.reg.pages)
    (hplan : PlanOk m.os.page m.reg.pages plan)
    (hresources : Inventory.append m.reg.held.resources plan.next.resources = .ok resources)
    (hquota : m'.os.quota = m'.reg.currentQuota) (hpage' : m'.os.page = m.os.page)
    (hlocked : ∀ p, m'.os.locked p = true → PageIn m.os.page m.reg.pages p ∨ PageIn m.os.page plan.desired p) :
    Poisoned plan m { m' with
      reg.healthy := false
      reg.pages := mergeSortedResidentRanges m.reg.pages plan.desired
      reg.held := { m'.reg.held with
        owners := m.reg.held.payloadOwners ++ plan.next.payloadOwners
        descriptorBacking := none, resources } } := by
  obtain ⟨hnormal, hcombined⟩ := combinedPages_spec hpage hpages hplan
  exact ⟨rfl, hnormal, rfl, hresources, hquota, hpage', fun p hp => (hcombined p).mpr (hlocked p hp)⟩

theorem wp_commitBody (hpage : 0 < m.os.page)
    (hchunk : m.os.page ∣ chunkBytes) (hpages : Normal m.os.page m.reg.pages)
    (hquota : m.os.quota = m.reg.currentQuota) (hplan : PlanOk m.os.page m.reg.pages plan)
    (htracked : ∀ p, m.os.locked p = true ↔ PageIn m.os.page m.reg.pages p)
    (hc : m.completed = []) (ha : m.attempted = none) (afterLock : Nat → Option Exn) :
    wp (commitBody plan afterLock) (fun _ m' => Published plan m m')
      (fun _ m' => m'.plans = m.plans ∧ m'.reg.revision = m.reg.revision ∧ (Kept m m' ∨ Poisoned plan m m')) m := by
  obtain ⟨haligned, hchunks⟩ := chunks_spec hpage hchunk hpages hplan
  have hremoved : ∀ p, PageIn m.os.page plan.removed p ↔
      PageIn m.os.page m.reg.pages p ∧ ¬ PageIn m.os.page plan.desired p := by
    intro p
    rw [pageIn_iff_covers hpage hplan.removed.aligned, hplan.removed_covers,
      pageIn_iff_covers hpage hplan.desired.aligned, pageIn_iff_covers hpage hpages.aligned]
  simp only [commitBody, wp_bind, wp_get, wp_tryCatch, wp_throw]
  have hquiet : ∀ m', Quiet m m' → m'.plans = m.plans ∧ m'.reg.revision = m.reg.revision ∧
      (Kept m m' ∨ Poisoned plan m m') := by
    intro m' hq
    have hk := hq.kept
    obtain ⟨_, _, rfl⟩ := hq
    exact ⟨rfl, rfl, .inl hk⟩
  refine wp_mono (wp_prepareCommit plan m) (fun prepared m₁ ⟨hq₁, hresources⟩ => ?_) fun _ m' hq => hquiet m' hq
  obtain ⟨replies, lastError, rfl⟩ := hq₁
  -- every lock of the loop is on an old page or an added one
  have hlocks : ∀ p, m.os.locked p = true ∨ PageIn m.os.page (lockChunks plan.added) p →
      PageIn m.os.page m.reg.pages p ∨ PageIn m.os.page plan.desired p := by
    rintro p (hp | hp)
    · exact .inl ((htracked p).mp hp)
    · exact .inr ((hchunks p).mp hp).1
  have hnew : ∀ p, PageIn m.os.page (lockChunks plan.added) p → m.os.locked p = false := by
    intro p hp
    rw [← Bool.not_eq_true, htracked p]
    exact ((hchunks p).mp hp).2
  refine wp_mono (wp_lockAdded { m with os.replies := replies, os.lastError := lastError } hquota hc
    ha plan.added prepared.addedBytes prepared.oldBytes prepared.missing prepared.slots afterLock) (fun _ m₂ ⟨h₂, _, hall⟩ => ?_) fun failure m₂ h₂ => ?_
  · refine wp_mono (wp_unlockAll _ plan.removed m₂) (fun _ m₃ ⟨hw₃, hunlocked⟩ => ?_) fun _ m₃ hw₃ => ?_
    · obtain ⟨removedBytes, hr⟩ := hplan.removed.extent_ok
      obtain ⟨pageBytes, hd⟩ := hplan.desired.extent_ok
      refine wp_ofExcept.mpr ⟨fun _ _ => wp_ofExcept.mpr ⟨fun _ _ => ?_, fun e he => ?_⟩, fun e he => ?_⟩
      · have hpage₂ : m₂.os.page = m.os.page := h₂.page
        have hlocked : ∀ p, m₃.os.locked p = true ↔ PageIn m.os.page plan.desired p := by
          intro p
          rw [hpage₂] at hw₃ hunlocked
          constructor
          · intro hp
            rcases h₂.only p (hw₃.le hp) with hold | hnew'
            · by_contra hnot
              have := hunlocked p ((hremoved p).mpr ⟨(htracked p).mp hold, hnot⟩)
              exact absurd hp (by simp [this])
            · exact ((hchunks p).mp (h₂.within hnew')).1
          · intro hp
            rw [hw₃.keep fun hrem => ((hremoved p).mp hrem).2 hp]
            by_cases hold : PageIn m.os.page m.reg.pages p
            · exact h₂.grew p ((htracked p).mpr hold)
            · exact hall p ((hchunks p).mpr ⟨hp, hold⟩)
        have hreg := h₂.reg
        obtain ⟨_, _, _, rfl, -, -⟩ := hw₃
        refine ⟨rfl, rfl, ?_, ?_, h₂.quota, hpage₂, h₂.plans, hlocked⟩
        · rw [hreg]
        · rw [hreg]
      · exact absurd he (by simp [hd])
      · exact absurd he (by simp [hr])
    · have hreg := h₂.reg
      have hle : ∀ p, m₃.os.locked p = true → m₂.os.locked p = true := fun p hp => hw₃.le hp
      obtain ⟨_, _, _, rfl, -, -⟩ := hw₃
      refine ⟨h₂.plans, ?_, .inr (poisoned_of hpage hpages hplan hresources h₂.quota h₂.page fun p hp => ?_)⟩
      · rw [hreg]
      · exact hlocks p ((h₂.only p (hle p hp)).imp id h₂.within)
  refine wp_mono (wp_rollback h₂ hpage haligned hnew m.reg.currentQuota)
    (fun _ m₃ ⟨h₃, hq₃, hl₃⟩ => ?_) fun e m₃ h₃ => ?_
  · have hreg := h₃.reg
    refine ⟨h₃.plans, by rw [hreg], .inl ⟨⟨by rw [hreg], by rw [hreg], hq₃,
      by rw [hreg], ?_, h₃.page, hl₃⟩, by rw [hreg]⟩⟩
    rw [h₃.quota, hq₃]
    exact hquota.symm
  · refine ⟨h₃.plans, ?_, .inr ?_⟩
    · show m₃.reg.revision = m.reg.revision
      rw [h₃.reg]
    · exact poisoned_of hpage hpages hplan hresources h₃.quota h₃.page fun p hp =>
        hlocks p (h₃.only p hp)

theorem wp_check {bad : Prop} [Decidable bad] {e : Exn} {Q : Unit → Machine → Prop}
    {E : Exn → Machine → Prop} (hQ : ¬ bad → Q () m) (hE : bad → E e m) :
    wp (check bad e) Q E m := by
  refine wp_ofExcept.mpr ⟨fun _ h => hQ (throwIf_ok.mp h), fun e' h => ?_⟩
  unfold throwIf at h
  split at h
  · next hb => exact Except.error.inj h ▸ hE hb
  · cases h

theorem healthy_of_available {r : Exl3HostResidentSet} (h : ¬ r.unavailable = true) : r.healthy = true := by
  simp only [Exl3HostResidentSet.unavailable, Bool.or_eq_true, Bool.not_eq_true'] at h
  simpa using (not_or.mp (not_or.mp (not_or.mp (not_or.mp h).1).1).1).2

/-- A commit returns with the new union published, or throws with everything as it was, or
    throws with the registry poisoned. -/
theorem wp_commit (h : Inv m) (k : Nat) (afterLock : Nat → Option Exn) :
    wp (commit k afterLock) (fun _ m' => Inv m' ∧ m.reg.healthy = true ∧ m'.reg.healthy = true)
      (fun _ m' => Inv m' ∧ (Kept m m' ∨ m.reg.healthy = true ∧ Poisoned ((m.plans[k]?).getD {}) m m')) m := by
  simp only [commit, wp_bind, wp_get]
  have hrefuse : ∀ m', Quiet m m' → Inv m' ∧
      (Kept m m' ∨ m.reg.healthy = true ∧ Poisoned ((m.plans[k]?).getD {}) m m') :=
    fun m' hq => ⟨h.quiet hq, .inl hq.kept⟩
  refine wp_check (fun hok => ?_) fun _ => hrefuse m (Quiet.refl m)
  simp only [not_or, not_not] at hok
  obtain ⟨havail, hauth, -, hconsumed, hrevision⟩ := hok
  have hhealthy := healthy_of_available havail
  generalize hplan : (m.plans[k]?).getD {} = plan at *
  -- a transition with an authority is one of those assessed
  have hk : m.plans[k]? = some plan := by
    cases hget : m.plans[k]? with
    | none =>
      rw [hget] at hplan
      subst hplan
      cases hauth
    | some p =>
      rw [hget] at hplan
      exact congrArg some hplan
  have hmem : plan ∈ m.plans := List.mem_of_getElem? hk
  have hplanOk := (h.plans hhealthy plan hmem).2 (by simpa using hconsumed) hrevision
  refine (quietly_check _ _).use (fun _ m₁ h₁ => ?_) fun _ m' hq => hrefuse m' hq
  refine quietly_accounting.use (fun _ m₂ h₂ => ?_) fun _ m' hq => hrefuse m' (h₁.trans hq)
  obtain ⟨replies, lastError, rfl⟩ := h₁.trans h₂
  simp only [wp_modify, wp_finally]
  -- the transitions left by the commit ask nothing new of the invariant
  have hspent : ∀ p ∈ m.plans.set k { plan with consumed := true }, Spent m p := by
    intro p hp
    rcases List.mem_or_eq_of_mem_set hp with hp | rfl
    · exact .inl hp
    · exact .inr ⟨rfl, (h.plans hhealthy plan hmem).1⟩
  have hbody := wp_commitBody
    (m := { m with
      os.replies := replies, os.lastError := lastError
      plans := m.plans.set k { plan with consumed := true }
      completed := [], attempted := none, reg.transitioning := true })
    h.page h.chunk h.pages h.quota hplanOk (h.tracked hhealthy) rfl rfl afterLock
  refine wp_mono hbody (fun _ m' hpub => ?_) fun _ m' hthrown => ?_
  · have hpage' : m'.os.page = m.os.page := hpub.page
    have hh' : m'.reg.healthy = true := hpub.healthy.trans hhealthy
    have hlocked : ∀ p, m'.os.locked p = true ↔ PageIn m'.os.page m'.reg.pages p := by
      intro p
      rw [hpub.pages, hpage']
      exact hpub.locked p
    refine ⟨⟨hpage' ▸ h.page, hpage' ▸ h.chunk, ?_, hpub.quota, fun _ => hlocked,
      fun p hp => (hlocked p).mp hp, fun _ p hp => ?_⟩, hhealthy, hh'⟩
    · rw [hpub.pages, hpage']
      exact hplanOk.desired
    · have hplans' : m'.plans = m.plans.set k { plan with consumed := true } := hpub.plans
      have hp' : p ∈ m.plans.set k { plan with consumed := true } := hplans' ▸ hp
      have hrev : m'.reg.revision = m.reg.revision + 1 := hpub.revision
      have hle : p.revision ≤ m.reg.revision := by
        rcases hspent p hp' with hp | hp
        · exact (h.plans hhealthy p hp).1
        · exact hp.2
      show p.revision ≤ m'.reg.revision ∧ (_ → p.revision = m'.reg.revision → _)
      exact ⟨by omega, fun _ _ => by omega⟩
  obtain ⟨hplans, hrev, hend⟩ := hthrown
  rcases hend with hkept | hpois
  · have hk : Kept m { m' with reg.transitioning := false } :=
      ⟨⟨hkept.pages, hkept.healthy, hkept.current, hkept.revision, hkept.quota, hkept.page, hkept.locked⟩, hkept.held⟩
    have hplans' : m'.plans = m.plans.set k { plan with consumed := true } := hplans
    exact ⟨h.steady hk.toSteady fun p hp => .inl (hspent p (hplans' ▸ hp)), .inl hk⟩
  · have hpage' : m'.os.page = m.os.page := hpois.page
    refine ⟨⟨hpage' ▸ h.page, hpage' ▸ h.chunk, hpage' ▸ hpois.pages, hpois.quota, fun hh => ?_,
      fun p hp => hpage' ▸ hpois.contained p hp, fun hh => ?_⟩, .inr ⟨hhealthy, ?_⟩⟩
    · exact absurd hh (by simp [hpois.healthy])
    · exact absurd hh (by simp [hpois.healthy])
    · exact ⟨hpois.healthy, hpois.pages, hpois.owners, hpois.resources, hpois.quota, hpois.page, hpois.contained⟩

end VoidInfer.Exl3
