import VoidInfer.HostKV.Plan

/-
  Runs of a host KV arena. A run starts from the constructor and makes any sequence of calls, with any arguments; its
  log records, newest first, which handles were minted and which descriptors were retired by a release or a split.

  The arena keeps its invariant along every run (`Run.inv`), and the log says which handles are valid: those minted
  since the last retirement of their descriptor (`arena_run_invariant`).
-/

namespace VoidInfer.HostKV
open List ListUpdate

open SpanList

/-! ## Events -/

/-- A handle issued to a client, or the end of a descriptor's incarnation. -/
inductive Event where
  | minted (h : HostKVAllocationHandle)
  | retired (descriptor : Nat)
deriving DecidableEq

/-- The descriptor an event is about. -/
def Event.descriptor : Event → Nat
  | .minted h => h.descriptor
  | .retired i => i

/-- The newest event about descriptor `i`. -/
def latest (log : List Event) (i : Nat) : Option Event := log.find? fun e => e.descriptor == i

/-- How often descriptor `i` was retired. -/
def retirements (log : List Event) (i : Nat) : Nat := log.count (.retired i)

/-- The generation of a descriptor after `k` retirements, starting from 1 and skipping 0. -/
def generationAfter (k : Nat) : Nat := 1 + k % (2 ^ 32 - 1)

theorem incrementGeneration_after (k : Nat) : incrementGeneration (generationAfter k) = generationAfter (k + 1) := by
  simp only [incrementGeneration]
  split
  · next h => simp only [generationAfter] at h ⊢; omega
  · next h => simp only [generationAfter] at h ⊢; omega

theorem latest_cons (e : Event) (log : List Event) (i : Nat) :
    latest (e :: log) i = if e.descriptor = i then some e else latest log i := by
  simp only [latest, find?_cons]
  split <;> simp_all

theorem retirements_cons_minted (h : HostKVAllocationHandle) (log : List Event) (i : Nat) :
    retirements (.minted h :: log) i = retirements log i := by
  simp [retirements]

theorem retirements_cons_retired (j : Nat) (log : List Event) (i : Nat) :
    retirements (.retired j :: log) i = retirements log i + if j = i then 1 else 0 := by
  simp [retirements, count_cons]

theorem retirements_append (l l' : List Event) (i : Nat) :
    retirements (l ++ l') i = retirements l i + retirements l' i := count_append

/-! ## Descriptors and their log -/

/-- The table of descriptors agrees with the log. -/
structure Traced (owner : Nat) (ds : List Descriptor) (log : List Event) : Prop where
  generation : ∀ (i : Nat) (d : Descriptor), ds[i]? = some d →
    d.generation = generationAfter (retirements log i)
  current : ∀ (i : Nat) (d : Descriptor) (h : HostKVAllocationHandle), ds[i]? = some d →
    (latest log i = some (.minted h) ↔ d.active = true ∧ h = ⟨some owner, i, d.generation⟩)
  bounded : ∀ h, Event.minted h ∈ log → h.descriptor < ds.length
  issued : ∀ newer h older, log = newer ++ .minted h :: older →
    h.owner = some owner ∧ h.generation = generationAfter (retirements older h.descriptor)

variable {i owner : Nat} {ds : List Descriptor} {log : List Event} {d e : Descriptor}

section
variable (ht : Traced owner ds log) (hd : ds[i]? = some d)
include ht hd

theorem Traced.mint (he : e.active = true) (hg : e.generation = d.generation) :
    Traced owner (ds.set i e) (.minted ⟨some owner, i, d.generation⟩ :: log) := by
  have hlt := lt_of_getElem? hd
  have hgen := ht.generation i d hd
  refine ⟨fun j f hf => ?_, fun j f h hf => ?_, fun h hh => ?_, fun newer h older heq => ?_⟩
  · rw [retirements_cons_minted]
    rcases getElem?_set_cases hf with ⟨rfl, rfl⟩ | ⟨-, hf⟩
    · rw [hg, hgen]
    · exact ht.generation j f hf
  · rw [latest_cons]
    rcases getElem?_set_cases hf with ⟨rfl, rfl⟩ | ⟨hij, hf⟩
    · simp only [Event.descriptor, if_true, Option.some.injEq, Event.minted.injEq, hg]
      exact ⟨fun h => ⟨he, h.symm⟩, fun h => h.2.symm⟩
    rw [if_neg (by simpa [Event.descriptor] using Ne.symm hij)]
    exact ht.current j f h hf
  · rw [length_set]
    rcases mem_cons.mp hh with hh | hh
    · cases hh
      exact hlt
    · exact ht.bounded h hh
  · cases newer with
    | nil =>
      obtain ⟨rfl, rfl⟩ := heq
      exact ⟨rfl, hgen⟩
    | cons x newer =>
      rw [cons_append, List.cons.injEq] at heq
      exact ht.issued newer h older heq.2

theorem Traced.retire (he : e.active = false) (hg : e.generation = incrementGeneration d.generation) :
    Traced owner (ds.set i e) (.retired i :: log) := by
  have hlt := lt_of_getElem? hd
  have hgen := ht.generation i d hd
  refine ⟨fun j f hf => ?_, fun j f h hf => ?_, fun h hh => ?_, fun newer h older heq => ?_⟩
  · rw [retirements_cons_retired]
    rcases getElem?_set_cases hf with ⟨rfl, rfl⟩ | ⟨hij, hf⟩
    · rw [hg, hgen, if_pos rfl, incrementGeneration_after]
    rw [if_neg (Ne.symm hij)]
    exact ht.generation j f hf
  · rw [latest_cons]
    rcases getElem?_set_cases hf with ⟨rfl, rfl⟩ | ⟨hij, hf⟩
    · simp [Event.descriptor, he]
    rw [if_neg (by simpa [Event.descriptor] using Ne.symm hij)]
    exact ht.current j f h hf
  · rw [length_set]
    exact ht.bounded h (by simpa using hh)
  · cases newer with
    | nil => simp at heq
    | cons x newer =>
      rw [cons_append, List.cons.injEq] at heq
      exact ht.issued newer h older heq.2

end

namespace HostKVArena

variable {a a' : HostKVArena} {log : List Event} {als : List HostKVAllocation}
  {al : HostKVAllocation}

theorem validHandle_iff_latest (ht : Traced a.self a.descriptors log) (h : HostKVAllocationHandle) :
    a.validHandle h = true ↔ latest log h.descriptor = some (.minted h) := by
  rw [validHandle_iff]
  constructor
  · rintro ⟨ho, d, hd, hact, hg⟩
    rw [ht.current _ d h hd]
    refine ⟨hact, ?_⟩
    rw [hg, ← ho]
  · intro hlat
    have hlt := ht.bounded h (mem_of_find?_eq_some hlat)
    have hd := getElem?_eq_getElem hlt
    obtain ⟨hact, heq⟩ := (ht.current _ _ h hd).mp hlat
    exact ⟨congrArg HostKVAllocationHandle.owner heq, _, hd, hact,
      (congrArg HostKVAllocationHandle.generation heq).symm⟩

theorem validHandle_stale {newer older : List Event} {h : HostKVAllocationHandle}
    (ht : Traced a.self a.descriptors (newer ++ .minted h :: older))
    (hpos : 0 < retirements newer h.descriptor)
    (hlt : retirements newer h.descriptor < 2 ^ 32 - 1) : a.validHandle h = false := by
  rw [← Bool.not_eq_true, validHandle_iff]
  rintro ⟨-, d, hd, -, hg⟩
  have h1 := ht.generation _ d hd
  have h2 := (ht.issued newer h older rfl).2
  rw [retirements_append, retirements_cons_minted] at h1
  rw [hg, h2] at h1
  simp only [generationAfter] at h1
  omega

/-! ## Runs -/

/-- A call on the arena, or on an allocation (`release`). -/
inductive Op where
  | allocate (layout : HostKVPageLayout) (pages : Nat)
  | split (al : HostKVAllocation) (pageOffset : Nat)
  | release (al : HostKVAllocation)
  | planAfterReleases (releases : List HostKVAllocationHandle)
      (targets : List HostKVAllocationRequest)
  | applyRecipe (recipe : HostKVAllocationRecipe) (releases : List (Option HostKVAllocation))
      (targets : List HostKVAllocation)

/-- What `apply_recipe` did, as events: the releases in order, then the allocations. -/
def applyEvents (releases : List (Option HostKVAllocation)) (targets : List HostKVAllocation) : List Event :=
  targets.reverse.map (fun al => .minted al.handle) ++
    (releases.filterMap id).reverse.map (fun al => .retired al.descriptor)

/-- One call: the arena afterwards and the events, newest first. A call that throws or
    refuses changes nothing; `none` is `std::terminate`. -/
def exec (a : HostKVArena) : Op → Option (HostKVArena × List Event)
  | .allocate layout pages =>
    match a.allocate layout pages with
    | none => some (a, [])
    | some (al, a') => some (a', [.minted al.handle])
  | .split al pageOffset =>
    match a.split al pageOffset with
    | .error _ => some (a, [])
    | .ok ((left, right), a') =>
      some (a', [.minted right.handle, .minted left.handle, .retired al.descriptor])
  | .release al =>
    match a.release al with
    | none => some (a, [])
    | some a' => some (a', [.retired al.descriptor])
  | .planAfterReleases _ _ => some (a, [])
  | .applyRecipe recipe releases targets =>
    match a.applyRecipe recipe releases targets with
    | none => none
    | some r => some (r.arena, if r.applied then applyEvents releases r.targetAllocations else [])

/-- The arenas and logs that some sequence of calls produces. -/
inductive Run : HostKVArena → List Event → Prop where
  | make {self capacityBytes : Nat} {layouts : List HostKVPageLayout} {a : HostKVArena}
      (hc : capacityBytes ≤ sizeMax) (h : make self capacityBytes layouts = .ok a) : Run a []
  | call {a a' : HostKVArena} {log events : List Event} (hr : Run a log) (op : Op)
      (h : a.exec op = some (a', events)) : Run a' (events ++ log)

/-- The arenas some sequence of calls produces. -/
def Reachable (a : HostKVArena) : Prop := ∃ log, Run a log

/-! ## Every run keeps the invariant -/

theorem applyRecipe_eq_some {recipe : HostKVAllocationRecipe}
    {releases : List (Option HostKVAllocation)} {targets : List HostKVAllocation}
    {r : ApplyResult} (h : a.applyRecipe recipe releases targets = some r) :
    r = ⟨false, a, recipe, releases, targets⟩ ∨
      r.applied = true ∧ ∃ b, a.releaseAll (releases.filterMap id) = some b ∧
        b.adoptTargets recipe.targets = some (r.targetAllocations, r.arena) := by
  unfold applyRecipe at h
  split at h
  · exact .inl (Option.some.inj h).symm
  split at h
  · cases h
  next b hb =>
  split at h
  · cases h
  next als c hc =>
  cases h
  exact .inr ⟨rfl, b, hb, hc⟩

variable {targets : List Target} {op : Op} {events : List Event} {P : HostKVArena → List Event → Prop}

section
variable (hrelease : ∀ {a a' log al}, P a log → a.release al = some a' → P a' (.retired al.descriptor :: log))
include hrelease

theorem releaseAll_induction (log : List Event) (hp : P a log) (h : a.releaseAll als = some a') :
    P a' (als.reverse.map (fun al => .retired al.descriptor) ++ log) := by
  induction als generalizing a log with
  | nil => cases h; exact hp
  | cons al als ih =>
    unfold releaseAll at h
    split at h
    · cases h
    next b hb =>
    have := ih _ (hrelease hp hb) h
    simpa using this

variable (hallocate : ∀ {a a' log layout pages al}, P a log → a.allocate layout pages = some (al, a') →
  P a' (.minted al.handle :: log))
include hallocate

omit hrelease in
theorem adoptTargets_induction (hp : P a log) (h : a.adoptTargets targets = some (als, a')) :
    P a' (als.reverse.map (fun al => .minted al.handle) ++ log) := by
  induction targets generalizing a als log with
  | nil => cases h; exact hp
  | cons target rest ih =>
    unfold adoptTargets at h
    split at h
    · cases h
    next al b hb =>
    simp only at h
    split at h
    · cases h
    split at h
    · cases h
    next als' c hc =>
    cases h
    have := ih (hallocate hp hb) hc
    simpa using this

variable (hsplit : ∀ {a a' log al pageOffset left right}, P a log → a.split al pageOffset = .ok ((left, right), a') →
  P a' (.minted right.handle :: .minted left.handle :: .retired al.descriptor :: log))
include hsplit

theorem exec_induction (hp : P a log) (h : a.exec op = some (a', events)) : P a' (events ++ log) := by
  cases op with simp only [exec] at h
  | allocate layout pages =>
    split at h
    · cases h; exact hp
    · next al b hb => cases h; exact hallocate hp hb
  | split al pageOffset =>
    split at h
    · cases h; exact hp
    · next left right b hb => cases h; exact hsplit hp hb
  | release al =>
    split at h
    · cases h; exact hp
    · next b hb => cases h; exact hrelease hp hb
  | planAfterReleases releases targets => cases h; exact hp
  | applyRecipe recipe releases targets =>
    split at h
    · cases h
    next r hr =>
    cases h
    rcases applyRecipe_eq_some hr with rfl | ⟨happ, b, hb, hc⟩
    · exact hp
    rw [if_pos happ, applyEvents, append_assoc]
    exact adoptTargets_induction hallocate (releaseAll_induction hrelease log hp hb) hc

theorem Run.rule (hmake : ∀ {self capacityBytes layouts a}, capacityBytes ≤ sizeMax →
    HostKVArena.make self capacityBytes layouts = .ok a → P a []) (hr : Run a log) : P a log := by
  induction hr with
  | make hc h => exact hmake hc h
  | call _ op h ih => exact exec_induction hrelease hallocate hsplit ih h

end

theorem releaseAll_inv (hinv : Inv a) (h : a.releaseAll als = some a') : Inv a' :=
  releaseAll_induction (P := fun a _ => Inv a) release_inv [] hinv h

theorem Run.inv (hr : Run a log) : Inv a :=
  hr.rule (P := fun a _ => Inv a) release_inv allocate_inv split_inv make_inv

/-! ## Every run keeps the log in step -/

theorem make_traced {self capacityBytes : Nat} {layouts : List HostKVPageLayout}
    (h : make self capacityBytes layouts = .ok a) : Traced a.self a.descriptors [] := by
  -- every descriptor starts inactive, in generation 1
  have hfresh : ∀ d ∈ a.descriptors, d = {} := by
    obtain ⟨_, _, h⟩ := bind_ok h
    split at h
    · cases h; simp
    obtain ⟨_, _, h⟩ := bind_ok h
    obtain ⟨_, _, h⟩ := bind_ok h
    cases h
    intro d hd
    exact eq_of_mem_replicate hd
  refine ⟨fun i d hd => ?_, fun i d h hd => ?_, by simp, by simp⟩
  · rw [hfresh d (mem_of_getElem? hd)]
    rfl
  · rw [hfresh d (mem_of_getElem? hd)]
    simp [latest]

section
variable (hinv : Inv a) (ht : Traced a.self a.descriptors log)
include hinv ht

theorem allocate_traced {layout : HostKVPageLayout} {pages : Nat} (h : a.allocate layout pages = some (al, a')) :
    Traced a'.self a'.descriptors (.minted al.handle :: log) := by
  obtain ⟨_, _, _, index, rest, d, -, -, -, hfree, hd, rfl, rfl⟩ := allocate_eq_some h
  obtain ⟨d', hd', -, hget⟩ := hinv.free_get hfree
  rw [hget] at hd
  subst hd
  exact ht.mint hd' rfl rfl

theorem split_traced {left right : HostKVAllocation} {pageOffset : Nat}
    (h : a.split al pageOffset = .ok ((left, right), a')) :
    Traced a'.self a'.descriptors (.minted right.handle :: .minted left.handle :: .retired al.descriptor :: log) := by
  obtain ⟨d, rightIndex, rest, stride, hvalid, hd, -, -, hfree, -, rfl, rfl, rfl⟩ :=
    split_eq_ok h
  obtain ⟨howner, d', hd', hact, -⟩ := validHandle_iff.mp hvalid
  rw [handle_eq howner] at hd'
  have hdd : d = d' := by rw [hd, getD_eq_getElem?_getD, hd']; rfl
  subst hdd
  obtain ⟨e, he, heact, hget⟩ := hinv.free_get hfree
  have hne : al.descriptor ≠ rightIndex := by
    intro heq
    rw [← heq, hd'] at he
    cases he
    rw [hact] at heact
    cases heact
  have hlt := lt_of_getElem? hd'
  -- the original ends its incarnation, starts another, and the right half starts one
  have h1 := ht.retire (e := ⟨d.offset, pageOffset * stride, d.layout, pageOffset,
    incrementGeneration d.generation, false⟩) hd' rfl rfl
  have h2 := h1.mint (e := ⟨d.offset, pageOffset * stride, d.layout, pageOffset,
    incrementGeneration d.generation, d.active⟩) (getElem?_set_self hlt) hact rfl
  rw [set_set] at h2
  have h3 := h2.mint (i := rightIndex) (d := e)
    (e := ⟨d.offset + pageOffset * stride, (d.pages - pageOffset) * stride, d.layout,
      d.pages - pageOffset, (a.descriptors.getD rightIndex {}).generation, true⟩)
    (by rw [getElem?_set_ne hne]; exact he) rfl (by rw [hget])
  rw [set_comm _ _ hne] at h3
  rw [hget] at h3 ⊢
  exact h3

end

theorem release_traced (ht : Traced a.self a.descriptors log) (h : a.release al = some a') :
    Traced a'.self a'.descriptors (.retired al.descriptor :: log) := by
  unfold release at h
  split at h
  · obtain ⟨d, hd, -, -, rfl⟩ := releaseDescriptor_eq_some h
    exact ht.retire hd rfl rfl
  · cases h

theorem Run.traced (hr : Run a log) : Traced a.self a.descriptors log :=
  And.right <| hr.rule (P := fun a log => Inv a ∧ Traced a.self a.descriptors log)
    (fun ⟨hinv, ht⟩ h => ⟨release_inv hinv h, release_traced ht h⟩)
    (fun ⟨hinv, ht⟩ h => ⟨allocate_inv hinv h, allocate_traced hinv ht h⟩)
    (fun ⟨hinv, ht⟩ h => ⟨split_inv hinv h, split_traced hinv ht h⟩) fun hc h => ⟨make_inv hc h, make_traced h⟩

/-- In every reachable state the active ranges and the free extents partition the capacity, the free list is sorted,
    non-empty-ranged and coalesced, the accounts add up, and the valid handles are exactly those minted for their
    descriptor's current incarnation. -/
theorem arena_run_invariant {a : HostKVArena} {log : List Event} (hr : Run a log) :
    Tiles (a.activeRanges ++ a.freeExtents) a.capacityBytes ∧
    Canonical a.freeExtents ∧
    a.occupiedBytes = total a.activeRanges ∧
    (∀ d ∈ a.descriptors, d.active = true → ∃ layout, a.layouts[d.layout]? = some layout ∧
      d.bytes = d.pages * layout.pageStride) ∧
    a.freeDescriptors.Nodup ∧
    (∀ i, i ∈ a.freeDescriptors ↔ ∃ d, a.descriptors[i]? = some d ∧ d.active = false) ∧
    (∀ h, a.validHandle h = true ↔ latest log h.descriptor = some (.minted h)) ∧
    ∀ newer h older, log = newer ++ .minted h :: older → 0 < retirements newer h.descriptor →
      retirements newer h.descriptor < 2 ^ 32 - 1 → a.validHandle h = false := by
  have hinv := hr.inv
  have ht := hr.traced
  refine ⟨hinv.tiles, hinv.canonical, hinv.occupied, fun d hd hact => ?_, hinv.free_nodup,
    hinv.mem_free, validHandle_iff_latest ht, ?_⟩
  · obtain ⟨layout, hl, -, hb⟩ := hinv.sized d hd hact
    exact ⟨layout, hl, hb⟩
  · rintro newer h older rfl hpos hlt
    exact validHandle_stale ht hpos hlt

/-- A layout with one BF16 plane of one head. -/
def sampleLayout : HostKVPageLayout :=
  { geometry := { planes := [{ leadingExtent := 1, headExtent := 1 }] }
    planes := [⟨0, 128, 128⟩]
    pageStride := 256 }

/-- Four pages, of which one was allocated with two more, split off, and released. -/
def sampleArena : HostKVArena :=
  { self := 0, capacityBytes := 1024, occupiedBytes := 512, layouts := [sampleLayout]
    descriptors := [⟨0, 0, 0, 0, 3, false⟩, ⟨256, 512, 0, 2, 1, true⟩, {}, {}]
    freeDescriptors := [0, 2, 3]
    freeExtents := [⟨0, 256⟩, ⟨768, 256⟩]
    revision := 4 }

theorem sampleArena_run : Run sampleArena
    [.retired 0, .minted ⟨some 0, 1, 1⟩, .minted ⟨some 0, 0, 2⟩, .retired 0, .minted ⟨some 0, 0, 1⟩] := by
  have hmake : make 0 1024 [sampleLayout] = .ok _ := rfl
  have h0 := Run.make (by decide) hmake
  have h1 := h0.call (.allocate sampleLayout 3) rfl
  have h2 := h1.call (.split ⟨some 0, 0, 1⟩ 1) rfl
  exact h2.call (.release ⟨some 0, 0, 2⟩) rfl

theorem arena_run_invariant_sample : Canonical sampleArena.freeExtents ∧
    sampleArena.validHandle ⟨some 0, 0, 2⟩ = false :=
  have h := arena_run_invariant sampleArena_run
  ⟨h.2.1, h.2.2.2.2.2.2.2 [.retired 0, .minted ⟨some 0, 1, 1⟩] ⟨some 0, 0, 2⟩ _ rfl (by decide) (by decide)⟩

/-- Planning on the simulated free list agrees with execution: a plan adopted before any other mutation goes through and
    meets every target; a sensible proposal that was turned down does not fit, in whatever order its releases are made;
    and a refused adoption changes nothing. -/
theorem plan_agrees_with_execution {a : HostKVArena} (hr : Reachable a)
    (requests : List HostKVAllocationRequest) (als : List HostKVAllocation) :
    (∀ recipe outputs, a.planAfterReleases (als.map (·.handle)) requests = some recipe →
      outputs.length = requests.length → (∀ o ∈ outputs, o.valid = false) →
      ∃ r, a.applyRecipe recipe (als.map some) outputs = some r ∧ r.applied = true ∧
        List.Forall₂ r.arena.Adopted r.targetAllocations recipe.targets) ∧
    ((als ≠ [] ∨ requests ≠ []) → (als.map (·.handle)).Nodup →
      (∀ al ∈ als, a.validHandle al.handle = true) →
      a.planAfterReleases (als.map (·.handle)) requests = none →
      ∀ bls, als.Perm bls → ∃ a', a.releaseAll bls = some a' ∧ a'.allocateAll requests = none) ∧
    ∀ recipe releases outputs r, a.applyRecipe recipe releases outputs = some r →
      r.applied = false →
      r.arena = a ∧ r.proposedReleases = releases ∧ r.targetAllocations = outputs := by
  obtain ⟨log, hr⟩ := hr
  have hinv := hr.inv
  refine ⟨fun recipe outputs h hlen hempty => ?_, fun hne hn hv h bls hp => ?_, ?_⟩
  · obtain ⟨r, h1, h2, -, h3⟩ := applyRecipe_of_plan hinv h hlen hempty
    exact ⟨r, h1, h2, h3⟩
  · obtain ⟨a', hrel, -⟩ := releaseAll_spec hinv
      (fun al hal => hv al (hp.mem_iff.mpr hal)) ((hp.map _).nodup_iff.mp hn)
    exact ⟨a', hrel, allocateAll_none_of_plan_none hinv hne hv hn h hp hrel⟩
  · intro recipe releases outputs r h happ
    rcases applyRecipe_eq_some h with rfl | ⟨happ', -⟩
    · exact ⟨rfl, rfl, rfl⟩
    rw [happ'] at happ
    cases happ

theorem plan_agrees_with_execution_sample :
    (∃ r, sampleArena.applyRecipe ⟨some 0, 4, [⟨some 0, 1, 1⟩], [⟨0, 4, 0, 1024⟩]⟩
      [some ⟨some 0, 1, 1⟩] [{}] = some r ∧ r.applied = true ∧
      List.Forall₂ r.arena.Adopted r.targetAllocations [⟨0, 4, 0, 1024⟩]) ∧
    ∃ a', sampleArena.releaseAll [] = some a' ∧
      a'.allocateAll [⟨some sampleLayout, 2⟩] = none :=
  ⟨(plan_agrees_with_execution ⟨_, sampleArena_run⟩ [⟨some sampleLayout, 4⟩]
      [⟨some 0, 1, 1⟩]).1 _ [{}] rfl rfl (by decide),
    (plan_agrees_with_execution ⟨_, sampleArena_run⟩ [⟨some sampleLayout, 2⟩] []).2.1
      (by decide) (by decide) (by decide) (by decide) [] (List.Perm.refl _)⟩

end HostKVArena
end VoidInfer.HostKV
