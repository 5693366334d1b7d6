import VoidInfer.Exl3.PrefixIndexInv

/-
  The retries of a resident update under memory pressure (`replace_resident_locked`, `release_stale_resident_locked` and
  `evict_retained_locked` of `src/exl3/vericache_serving_coordinator.h`). An attempt commits the union of the roots of
  the cache and of the requests; what it sees of the machine is an input: the pages already resident, the available
  bytes at each check, and any other failure.

  The handler evicts one root after another, and each eviction commits. That commit covers every cached root, committed
  before or not, so it can itself be refused, and nothing catches that: `retained_roots_first` says when the caller gets
  the refusal with roots still in the cache.
-/

namespace VoidInfer.Exl3.ReserveRetry
open Option

open PrefixCache

/-- What leaves a commit: `Exl3HostResidentReserveExhausted`, or another exception. -/
inductive CommitError where
  | reserveExhausted
  | other (e : Exn)

/-- What one attempt meets: the pages in the working set, the available bytes at the check of all missing pages and at
    those after single locks, and an exception of another kind. -/
structure Attempt where
  resident : Nat → Bool := fun _ => true
  available : Nat
  later : List Nat := []
  failure : Option Exn := none

/-- The coordinator, as far as a resident update reads it; `entries` are its requests by identity, `locked` the pages of
    the committed union, `hostPages` the pages of a root that the driver has not pinned. -/
structure Coordinator where
  page : Nat
  reserve : Nat
  cache : List PrefixCache.Entry
  demand : Option (PrefixCache.Root → Option Nat) := none
  entries : List (Nat × PrefixCache.Root) := []
  locked : List Nat := []
  hostPages : PrefixCache.Root → List Nat

/-- An update: the roots that replace those of requests, or join them, and the request that leaves (0 for none). -/
structure Update where
  replacements : List (Nat × PrefixCache.Root) := []
  removed : Nat := 0

namespace Coordinator

/-! ## One attempt -/

section
variable (c : Coordinator)

/-- The roots of an update. -/
def roots (u : Update) : List PrefixCache.Root :=
  c.cache.map (·.root) ++
    ((c.entries.filter fun entry => entry.1 != u.removed).map fun entry =>
      ((u.replacements.find? fun value => value.1 == entry.1).map (·.2)).getD entry.2) ++
    (u.replacements.filter fun value => c.entries.all fun entry => entry.1 != value.1).map (·.2)

/-- The pages of the union of an update. -/
def desired (u : Update) : List Nat := ((c.roots u).flatMap c.hostPages).dedup

/-- `missing`: the bytes of pages to lock that are not resident. -/
def missing (u : Update) (a : Attempt) : Nat :=
  ((c.desired u).filter fun p => !c.locked.contains p && !a.resident p).length * c.page

/-- `check_reserve` throws. -/
def belowReserve (available missing : Nat) : Bool :=
  decide (available < c.reserve ∨ missing > available - c.reserve)

/-- A check of the reserve refuses the commit. -/
def refused (u : Update) (a : Attempt) : Bool :=
  c.missing u a != 0 && (c.belowReserve a.available (c.missing u a) || a.later.any fun available => c.belowReserve available 0)

/-- The coordinator after a commit. -/
def committed (u : Update) : Coordinator := { c with locked := c.desired u }

/-- `replace_resident_once_locked`. -/
def replaceOnce (u : Update) (a : Attempt) : Except CommitError Unit × Coordinator :=
  match a.failure with
  | some e => (.error (.other e), c)
  | none => if c.refused u a then (.error .reserveExhausted, c) else (.ok (), c.committed u)

end

/-! ## The retries -/

/-- `evict_oldest_root`. -/
def evictOldest (c : Coordinator) : Option Coordinator :=
  (oldestVictim c.demand c.cache).map fun i => { c with cache := c.cache.eraseIdx i }

/-- The loop from its first eviction on, with the attempts from the `n`th on. Every round evicts a root, so there are at
    most as many as roots in the cache. -/
def evictRounds (u : Update) (attempts : Nat → Attempt) : Nat → Nat → Coordinator → Except CommitError Unit × Coordinator
  | 0, _, c => (.error .reserveExhausted, c)
  | rounds + 1, n, c =>
    match c.evictOldest with
    | none => (.error .reserveExhausted, c)
    | some evicted =>
      match evicted.replaceOnce {} (attempts n) with
      | (.error e, c) => (.error e, c)
      | (.ok _, c) =>
        match c.replaceOnce u (attempts (n + 1)) with
        | (.error .reserveExhausted, c) => evictRounds u attempts rounds (n + 2) c
        | answer => answer

/-- `replace_resident_locked`. -/
def replaceResident (c : Coordinator) (u : Update) (attempts : Nat → Attempt) : Except CommitError Unit × Coordinator :=
  match c.replaceOnce u (attempts 0) with
  | (.error .reserveExhausted, c) =>
    -- `release_stale_resident_locked`
    match c.replaceOnce {} (attempts 1) with
    | (.error .reserveExhausted, c) => evictRounds u attempts c.cache.length 2 c
    | (.error e, c) => (.error e, c)
    | (.ok _, c) =>
      match c.replaceOnce u (attempts 2) with
      | (.error .reserveExhausted, c) => evictRounds u attempts c.cache.length 3 c
      | answer => answer
  | answer => answer

/-- An update refused for the reserve leaves no root in the cache. -/
def RootsFirst (answer : Except CommitError Unit × Coordinator) : Prop :=
  answer.1 = .error .reserveExhausted → answer.2.cache = []

/-! ## When evictions go through -/

/-- An attempt ends in this refusal. -/
def Exhausted (c : Coordinator) (u : Update) (a : Attempt) : Prop := a.failure = none ∧ c.refused u a = true

/-- An attempt goes through. -/
def Passes (c : Coordinator) (u : Update) (a : Attempt) : Prop := a.failure = none ∧ c.refused u a = false

/-- As long as updates stay refused, the memory is enough for the commit after each eviction that leaves a root. -/
def EvictionsFit (u : Update) (attempts : Nat → Attempt) : Nat → Nat → Coordinator → Prop
  | 0, _, _ => True
  | rounds + 1, n, c => ∀ evicted, c.evictOldest = some evicted →
      (evicted.cache ≠ [] → ¬ evicted.Exhausted {} (attempts n)) ∧
      (evicted.Passes {} (attempts n) → (evicted.committed {}).Exhausted u (attempts (n + 1)) →
        EvictionsFit u attempts rounds (n + 2) (evicted.committed {}))

/-- The same from the first attempt on: the evictions start after a refused update, and before them the stale pages are
    released if that can be committed. -/
def RetriesFit (c : Coordinator) (u : Update) (attempts : Nat → Attempt) : Prop :=
  c.Exhausted u (attempts 0) →
    (c.Exhausted {} (attempts 1) → EvictionsFit u attempts c.cache.length 2 c) ∧
    (c.Passes {} (attempts 1) → (c.committed {}).Exhausted u (attempts 2) →
      EvictionsFit u attempts c.cache.length 3 (c.committed {}))

theorem replaceOnce_cases (c : Coordinator) (u : Update) (a : Attempt) :
    (c.Passes u a ∧ ¬ c.Exhausted u a ∧ c.replaceOnce u a = (.ok (), c.committed u)) ∨
    (c.Exhausted u a ∧ ¬ c.Passes u a ∧ c.replaceOnce u a = (.error .reserveExhausted, c)) ∨
    (¬ c.Passes u a ∧ ¬ c.Exhausted u a ∧ ∃ e, c.replaceOnce u a = (.error (.other e), c)) := by
  unfold replaceOnce Passes Exhausted
  cases hfailure : a.failure with
  | some e => exact .inr (.inr ⟨by simp, by simp, e, rfl⟩)
  | none =>
    cases hrefused : c.refused u a with
    | true => exact .inr (.inl ⟨⟨rfl, rfl⟩, by simp, rfl⟩)
    | false => exact .inl ⟨⟨rfl, rfl⟩, by simp, rfl⟩

variable {c : Coordinator}

theorem rootsFirst_ok {u : Unit} : RootsFirst (.ok u, c) := by
  intro h
  cases h

theorem rootsFirst_other {e : Exn} : RootsFirst (.error (.other e), c) := by
  intro h
  cases h

theorem rootsFirst_exhausted : RootsFirst (.error .reserveExhausted, c) ↔ c.cache = [] :=
  ⟨fun h => h rfl, fun h _ => h⟩

theorem evictOldest_some {evicted : Coordinator} (h : c.evictOldest = some evicted) :
    evicted.cache.length + 1 = c.cache.length := by
  obtain ⟨i, hi, rfl⟩ := map_eq_some_iff.mp h
  have hlt : i < c.cache.length := by
    rcases or_eq_some_iff.mp hi with hi | ⟨_, hi⟩
    · obtain ⟨e, he, _⟩ := demandVictim_some hi
      exact lt_of_getElem? he
    obtain ⟨e, he, _⟩ := demandVictim_some hi
    exact lt_of_getElem? he
  rw [List.length_eraseIdx_of_lt hlt]
  omega

theorem evictOldest_none (h : c.evictOldest = none) : c.cache = [] := by
  have hnone := or_eq_none_iff.mp (map_eq_none_iff.mp h)
  refine List.eq_nil_iff_forall_not_mem.mpr fun e he => ?_
  cases demandVictim_none hnone.2 e he

theorem evictRounds_iff (u : Update) (attempts : Nat → Attempt) {rounds : Nat} : ∀ n c,
    c.cache.length = rounds → (RootsFirst (evictRounds u attempts rounds n c) ↔ EvictionsFit u attempts rounds n c) := by
  induction rounds with
  | zero =>
    intro n c hlength
    exact ⟨fun _ => trivial, fun _ => rootsFirst_exhausted.mpr (List.eq_nil_of_length_eq_zero hlength)⟩
  | succ rounds ih =>
    intro n c hlength
    rw [evictRounds, EvictionsFit]
    cases hevict : c.evictOldest with
    | none =>
      have hempty := evictOldest_none hevict
      exact ⟨fun _ evicted h => absurd h (by simp), fun _ => rootsFirst_exhausted.mpr hempty⟩
    | some evicted =>
      have hevicted := evictOldest_some hevict
      have hall : ∀ P : Coordinator → Prop, (∀ e, some evicted = some e → P e) ↔ P evicted :=
        fun P => ⟨fun h => h evicted rfl, fun h e he => some.inj he ▸ h⟩
      rw [hall]
      rcases replaceOnce_cases evicted {} (attempts n) with ⟨hpass, hnot, heq⟩ | ⟨hrefused, hnot, heq⟩ | ⟨hnot, hother, e, heq⟩
      · -- the commit after the eviction goes through
        simp only [heq]
        rcases replaceOnce_cases _ u _ with
          ⟨_, hfits, hagain⟩ | ⟨hagain', _, hagain⟩ | ⟨_, hfits, e, hagain⟩
        · rw [hagain]
          exact ⟨fun _ => ⟨fun _ => hnot, fun _ hbad => absurd hbad hfits⟩, fun _ => rootsFirst_ok⟩
        · rw [hagain]
          have hlater := ih (n + 2) (evicted.committed {}) (show evicted.cache.length = rounds by omega)
          exact ⟨fun h => ⟨fun _ => hnot, fun _ _ => hlater.mp h⟩, fun h => hlater.mpr (h.2 hpass hagain')⟩
        rw [hagain]
        exact ⟨fun _ => ⟨fun _ => hnot, fun _ hbad => absurd hbad hfits⟩, fun _ => rootsFirst_other⟩
      · simp only [heq]
        rw [rootsFirst_exhausted]
        constructor
        · intro hempty
          exact ⟨fun hroots => absurd hempty hroots, fun hpass => absurd hpass hnot⟩
        · intro h
          by_contra hroots
          exact h.1 hroots hrefused
      simp only [heq]
      exact ⟨fun _ => ⟨fun _ => hother, fun hpass => absurd hpass hnot⟩, fun _ => rootsFirst_other⟩

/-- A resident update is refused for the reserve only with an empty cache exactly when memory is enough for the commit after
    each eviction that leaves a root. -/
theorem retained_roots_first (c : Coordinator) (u : Update) (attempts : Nat → Attempt) :
    RootsFirst (c.replaceResident u attempts) ↔ c.RetriesFit u attempts := by
  unfold replaceResident RetriesFit
  rcases replaceOnce_cases c u _ with ⟨_, hfits, heq⟩ | ⟨hrefused, _, heq⟩ | ⟨_, hother, e, heq⟩
  · rw [heq]
    exact ⟨fun _ hbad => absurd hbad hfits, fun _ => rootsFirst_ok⟩
  · rw [heq]
    rcases replaceOnce_cases c {} (attempts 1) with ⟨hpass, hnot, hstale⟩ | ⟨hbad, hnot, hstale⟩ | ⟨hnot, hother, e, hstale⟩
    · simp only [hstale]
      rcases replaceOnce_cases _ u _ with ⟨_, hfits, hagain⟩ | ⟨hagain', _, hagain⟩ | ⟨_, hfits, e, hagain⟩
      · rw [hagain]
        exact ⟨fun _ _ => ⟨fun hbad => absurd hbad hnot, fun _ hbad => absurd hbad hfits⟩, fun _ => rootsFirst_ok⟩
      · rw [hagain]
        have hrounds := evictRounds_iff u attempts 3 (c.committed {}) rfl
        exact ⟨fun h _ => ⟨fun hbad => absurd hbad hnot, fun _ _ => hrounds.mp h⟩,
          fun h => hrounds.mpr ((h hrefused).2 hpass hagain')⟩
      rw [hagain]
      exact ⟨fun _ _ => ⟨fun hbad => absurd hbad hnot, fun _ hbad => absurd hbad hfits⟩, fun _ => rootsFirst_other⟩
    · simp only [hstale]
      have hrounds := evictRounds_iff u attempts 2 c rfl
      exact ⟨fun h _ => ⟨fun _ => hrounds.mp h, fun hpass => absurd hpass hnot⟩, fun h => hrounds.mpr ((h hrefused).1 hbad)⟩
    simp only [hstale]
    exact ⟨fun _ _ => ⟨fun hbad => absurd hbad hother, fun hpass => absurd hpass hnot⟩, fun _ => rootsFirst_other⟩
  rw [heq]
  exact ⟨fun _ hbad => absurd hbad hother, fun _ => rootsFirst_other⟩

/-- Two cached roots whose pages nobody locked or loaded, and no memory. -/
def sampleRoot (address : Nat) : PrefixCache.Root := { address, request := ⟨address, none, none, [], none⟩ }

def sampleEntry (address : Nat) : PrefixCache.Entry :=
  { hash := 0, generation := 0, modelIdentity := 0, contract := [], root := sampleRoot address }

def sampleCoordinator : Coordinator :=
  { page := 4096, reserve := 4096, cache := [sampleEntry 1, sampleEntry 2], hostPages := fun root => [root.address] }

/-- The first eviction's commit must lock the other root's page, and is refused with that root still in the cache. -/
theorem retained_root_survives : ¬ RootsFirst (sampleCoordinator.replaceResident { replacements := [(7, sampleRoot 3)] }
    fun _ => { resident := fun _ => false, available := 0 }) := by
  intro h
  have hempty := congrArg List.length (h rfl)
  cases hempty

end Coordinator
end VoidInfer.Exl3.ReserveRetry
