import VoidInfer.HostKV.ArenaInv

/-
  Recipes (`plan_after_releases`, `apply_recipe`): a batch of releases and allocations is planned on a copy of the free
  list and adopted later, unless the arena's revision moved.

  The planner agrees with execution. On one side the simulated free list is the list that the releases produce
  (`releaseAll_spec`), in whatever order they are made (`releaseAll_perm`), since a canonical list is determined by its
  points. On the other side first fit on the simulated list is `allocate` (`allocateAll_eq_fitAll`): a request that
  finds bytes always finds a descriptor.
-/

namespace VoidInfer.HostKV
open List

open SpanList

structure Target where
  layout : Nat := 0
  pages : Nat := 0
  offset : Nat := 0
  bytes : Nat := 0

structure HostKVAllocationRecipe where
  owner : Option Nat := none
  arenaRevision : Nat := 0
  releases : List HostKVAllocationHandle := []
  targets : List Target := []

namespace HostKVArena

/-! ## Planning -/

/-- The byte range behind a handle: `{descriptor.offset, descriptor.bytes}`. -/
def rangeOf (a : HostKVArena) (h : HostKVAllocationHandle) : Span :=
  let d := a.descriptors.getD h.descriptor {}
  ⟨d.offset, d.bytes⟩

/-- The planner's loop over the proposed releases; `prior` are the handles before. -/
def simulateReleases (a : HostKVArena) (prior : List HostKVAllocationHandle) :
    List HostKVAllocationHandle → List FreeExtent → Option (List FreeExtent)
  | [], simulated => some simulated
  | h :: rest, simulated =>
    if a.validHandle h = false ∨ h ∈ prior then none
    else simulateReleases a (prior ++ [h]) rest (insertSpan simulated (a.rangeOf h))

/-- One round of the loop over the target allocations, on the simulated free list. -/
def fitRequest (a : HostKVArena) (simulated : List FreeExtent)
    (request : HostKVAllocationRequest) : Option (Target × List FreeExtent) :=
  match request.layout with
  | none => none
  | some layout =>
    if request.pages = 0 then none
    else
      match a.findLayout layout with
      | none => none
      | some layoutIndex =>
        if strideOverflows layout.pageStride request.pages then none
        else
          match takeExtent simulated (layout.pageStride * request.pages) with
          | none => none
          | some (offset, simulated) =>
            some (⟨layoutIndex, request.pages, offset, layout.pageStride * request.pages⟩, simulated)

/-- The loop over the target allocations. -/
def fitAll (a : HostKVArena) : List FreeExtent → List HostKVAllocationRequest →
    Option (List Target × List FreeExtent)
  | simulated, [] => some ([], simulated)
  | simulated, request :: rest =>
    match a.fitRequest simulated request with
    | none => none
    | some (target, simulated) =>
      match fitAll a simulated rest with
      | none => none
      | some (targets, simulated) => some (target :: targets, simulated)

def planAfterReleases (a : HostKVArena) (proposedReleases : List HostKVAllocationHandle)
    (targetAllocations : List HostKVAllocationRequest) : Option HostKVAllocationRecipe :=
  if proposedReleases = [] ∧ targetAllocations = [] then none
  else if targetAllocations.length > a.freeDescriptors.length + proposedReleases.length then none
  else
    match a.simulateReleases [] proposedReleases a.freeExtents with
    | none => none
    | some simulated =>
      match a.fitAll simulated targetAllocations with
      | none => none
      | some (targets, _) => some ⟨some a.self, a.revision, proposedReleases, targets⟩

/-! ## Adoption -/

/-- The checks `apply_recipe` makes of one proposed release, a nullable pointer. -/
def releaseMatches (a : HostKVArena) (allocation : Option HostKVAllocation)
    (planned : HostKVAllocationHandle) : Bool :=
  match allocation with
  | none => false
  | some al => al.handle = planned && a.validHandle planned

/-- The checks `apply_recipe` makes of one output and its planned target. -/
def targetMatches (a : HostKVArena) (output : HostKVAllocation) (target : Target) : Bool :=
  match a.layouts[target.layout]? with
  | none => false
  | some layout => !output.valid && target.pages != 0 &&
      !decide (strideOverflows layout.pageStride target.pages) &&
      layout.pageStride * target.pages == target.bytes

/-- All checks of `apply_recipe`, made before the first mutation. -/
def recipeMatches (a : HostKVArena) (recipe : HostKVAllocationRecipe)
    (proposedReleases : List (Option HostKVAllocation))
    (targetAllocations : List HostKVAllocation) : Bool :=
  recipe.owner = some a.self && recipe.arenaRevision = a.revision &&
    recipe.releases.length = proposedReleases.length &&
    recipe.targets.length = targetAllocations.length &&
    (proposedReleases.zip recipe.releases).all (fun p => a.releaseMatches p.1 p.2) &&
    (targetAllocations.zip recipe.targets).all (fun p => a.targetMatches p.1 p.2)

/-- Releases in order; `none` if one of them returned `false`. -/
def releaseAll (a : HostKVArena) : List HostKVAllocation → Option HostKVArena
  | [] => some a
  | al :: rest =>
    match a.release al with
    | none => none
    | some a => releaseAll a rest

/-- The allocation loop of `apply_recipe`; `none` is `std::terminate`. -/
def adoptTargets (a : HostKVArena) : List Target → Option (List HostKVAllocation × HostKVArena)
  | [] => some ([], a)
  | target :: rest =>
    match a.allocate (a.layouts.getD target.layout {}) target.pages with
    | none => none
    | some (al, a) =>
      let d := a.descriptors.getD al.descriptor {}
      if d.offset ≠ target.offset ∨ d.bytes ≠ target.bytes then none
      else
        match adoptTargets a rest with
        | none => none
        | some (als, a) => some (al :: als, a)

/-- What `apply_recipe` leaves behind: its result, the arena, and its arguments. -/
structure ApplyResult where
  applied : Bool
  arena : HostKVArena
  recipe : HostKVAllocationRecipe
  proposedReleases : List (Option HostKVAllocation)
  targetAllocations : List HostKVAllocation

/-- `apply_recipe`; `none` is `std::terminate`. -/
def applyRecipe (a : HostKVArena) (recipe : HostKVAllocationRecipe)
    (proposedReleases : List (Option HostKVAllocation))
    (targetAllocations : List HostKVAllocation) : Option ApplyResult :=
  if a.recipeMatches recipe proposedReleases targetAllocations = false then
    some ⟨false, a, recipe, proposedReleases, targetAllocations⟩
  else
    match a.releaseAll (proposedReleases.filterMap id) with
    | none => none
    | some a =>
      match a.adoptTargets recipe.targets with
      | none => none
      | some (allocations, a) =>
        some ⟨true, a, {}, proposedReleases.map (Option.map HostKVAllocation.disarm), allocations⟩

/-- A client calling `allocate` for each request in turn; `none` if one of them fails. -/
def allocateAll (a : HostKVArena) : List HostKVAllocationRequest →
    Option (List HostKVAllocation × HostKVArena)
  | [] => some ([], a)
  | request :: rest =>
    match request.layout with
    | none => none
    | some layout =>
      match a.allocate layout request.pages with
      | none => none
      | some (al, a) =>
        match allocateAll a rest with
        | none => none
        | some (als, a) => some (al :: als, a)

variable {a a' : HostKVArena} {h : HostKVAllocationHandle} {al : HostKVAllocation}
  {als : List HostKVAllocation} {simulated extents : List FreeExtent} {layout : HostKVPageLayout}
  {pages : Nat} {requests : List HostKVAllocationRequest} {targets : List Target}

/-! ## Releasing a batch -/

theorem descriptor_ne_of_valid {h' : HostKVAllocationHandle} (hv : a.validHandle h = true)
    (hv' : a.validHandle h' = true) (hne : h ≠ h') : h.descriptor ≠ h'.descriptor := by
  intro heq
  obtain ⟨ho, d, hd, -, hg⟩ := validHandle_iff.mp hv
  obtain ⟨ho', d', hd', -, hg'⟩ := validHandle_iff.mp hv'
  rw [← heq, hd] at hd'
  apply hne
  cases h
  cases h'
  simp_all

theorem validHandle_congr (hself : a'.self = a.self)
    (hd : a'.descriptors[h.descriptor]? = a.descriptors[h.descriptor]?) :
    a'.validHandle h = a.validHandle h := by
  simp only [validHandle, hself, hd]

theorem rangeOf_congr (hd : a'.descriptors[h.descriptor]? = a.descriptors[h.descriptor]?) :
    a'.rangeOf h = a.rangeOf h := by
  simp only [rangeOf, getD_eq_getElem?_getD, hd]

variable {d : Descriptor} {bls outputs : List HostKVAllocation} {target : Target}
  {handles : List HostKVAllocationHandle} {recipe : HostKVAllocationRecipe}

theorem rangeOf_eq (hd : a.descriptors[h.descriptor]? = some d) : a.rangeOf h = ⟨d.offset, d.bytes⟩ := by
  simp only [rangeOf, getD_eq_getElem?_getD, hd, Option.getD_some]

section
variable (hinv : Inv a)
include hinv

theorem release_spec (hv : a.validHandle al.handle = true) :
    ∃ a', a.release al = some a' ∧ Inv a' ∧ a'.self = a.self ∧ a'.layouts = a.layouts ∧
      a'.capacityBytes = a.capacityBytes ∧
      a'.freeExtents = insertSpan a.freeExtents (a.rangeOf al.handle) ∧
      a'.freeDescriptors = al.descriptor :: a.freeDescriptors ∧
      ∀ i, i ≠ al.descriptor → a'.descriptors[i]? = a.descriptors[i]? := by
  obtain ⟨ho, d, hd, hact, hg⟩ := validHandle_iff.mp hv
  have heq := handle_eq ho
  have hrange := rangeOf_eq hd
  rw [heq] at ho hd hg
  have hrel : a.release al = some { a with
      occupiedBytes := a.occupiedBytes - d.bytes
      descriptors := a.descriptors.set al.descriptor ⟨0, 0, d.layout, 0, incrementGeneration d.generation, false⟩
      freeDescriptors := al.descriptor :: a.freeDescriptors
      freeExtents := insertSpan a.freeExtents ⟨d.offset, d.bytes⟩
      revision := bumpRevision a.revision } := by
    simp only at ho hg hd
    simp [release, ho, releaseDescriptor, hd, hact, hg]
  refine ⟨_, hrel, release_inv hinv hrel, rfl, rfl, rfl, ?_, rfl, fun i hi => ?_⟩
  · rw [hrange]
  · exact getElem?_set_ne (Ne.symm hi)

theorem release_occupied (h : a.release al = some a') :
    a'.occupiedBytes + (a.rangeOf al.handle).size = a.occupiedBytes := by
  unfold release at h
  split at h
  · next ho =>
    obtain ⟨d, hd, hact, -, rfl⟩ := releaseDescriptor_eq_some h
    have hh : al.handle = ⟨al.owner, al.descriptor, al.generation⟩ := by
      simp [HostKVAllocation.handle, HostKVAllocation.valid, ho]
    have hle : d.bytes ≤ a.occupiedBytes := by
      rw [hinv.occupied]
      exact size_le_total (mem_activeRanges.mpr ⟨d, mem_of_getElem? hd, hact, rfl⟩)
    rw [hh, rangeOf_eq hd]
    show a.occupiedBytes - d.bytes + d.bytes = _
    omega
  · cases h

theorem Inv.rangeOf_apart_free (hv : a.validHandle h = true) :
    0 < (a.rangeOf h).size ∧ ∀ s ∈ a.freeExtents, s.Apart (a.rangeOf h) := by
  obtain ⟨-, d, hd, hact, -⟩ := validHandle_iff.mp hv
  rw [rangeOf_eq hd]
  exact ⟨hinv.range_pos (mem_of_getElem? hd) hact, hinv.apart_free (mem_of_getElem? hd) hact⟩

/-- Releasing distinct valid allocations: every release succeeds, and the free list ends
    up covering exactly their ranges more. -/
theorem releaseAll_spec (hv : ∀ al ∈ als, a.validHandle al.handle = true) (hn : (als.map (·.handle)).Nodup) :
    ∃ a', a.releaseAll als = some a' ∧ Inv a' ∧ a'.self = a.self ∧ a'.layouts = a.layouts ∧
      a'.freeDescriptors.length = a.freeDescriptors.length + als.length ∧
      (∀ x, Covers a'.freeExtents x ↔ Covers a.freeExtents x ∨ ∃ al ∈ als, x ∈ a.rangeOf al.handle) ∧
      ∀ prior, (∀ h ∈ prior, h ∉ als.map (·.handle)) →
        a.simulateReleases prior (als.map (·.handle)) a.freeExtents = some a'.freeExtents := by
  -- the simulation validates handles and reads ranges in the first arena throughout
  suffices key : ∀ b, Inv b → b.self = a.self → b.layouts = a.layouts →
      (∀ al ∈ als, b.descriptors[al.handle.descriptor]? = a.descriptors[al.handle.descriptor]?) →
      ∃ a', b.releaseAll als = some a' ∧ Inv a' ∧ a'.self = a.self ∧ a'.layouts = a.layouts ∧
        a'.freeDescriptors.length = b.freeDescriptors.length + als.length ∧
        (∀ x, Covers a'.freeExtents x ↔ Covers b.freeExtents x ∨ ∃ al ∈ als, x ∈ a.rangeOf al.handle) ∧
        ∀ prior, (∀ h ∈ prior, h ∉ als.map (·.handle)) →
          a.simulateReleases prior (als.map (·.handle)) b.freeExtents = some a'.freeExtents from
    key a hinv rfl rfl fun _ _ => rfl
  induction als with
  | nil =>
    intro b hb hs hl _
    exact ⟨b, rfl, hb, hs, hl, rfl, by simp, fun _ _ => rfl⟩
  | cons al als ih =>
    intro b hb hs hl hsame
    rw [map_cons, nodup_cons] at hn
    have hva := hv al (by simp)
    have hvb : b.validHandle al.handle = true := by
      rw [validHandle_congr hs (hsame al (by simp))]; exact hva
    obtain ⟨c, hrel, hc, hcs, hcl, -, hcf, hcd, hframe⟩ := release_spec hb hvb
    have hdesc : al.handle.descriptor = al.descriptor := by
      rw [handle_eq (validHandle_iff.mp hva).1]
    rw [rangeOf_congr (hsame al (by simp))] at hcf
    obtain ⟨a', h1, h2, h3, h4, h5, h6, h7⟩ := ih (fun al' h' => hv al' (by simp [h'])) hn.2 c hc
      (hcs.trans hs) (hcl.trans hl) (by
        intro al' h'
        have hne : al'.handle.descriptor ≠ al.handle.descriptor :=
          descriptor_ne_of_valid (hv al' (by simp [h'])) hva fun he =>
            hn.1 (he ▸ List.mem_map_of_mem h')
        rw [hframe _ (hdesc ▸ hne)]
        exact hsame al' (by simp [h']))
    have hins := insertSpan_spec hb.canonical (rangeOf_congr (hsame al (by simp)) ▸ (hb.rangeOf_apart_free hvb).1)
      (rangeOf_congr (hsame al (by simp)) ▸ (hb.rangeOf_apart_free hvb).2)
    refine ⟨a', by rw [releaseAll, hrel]; exact h1, h2, h3, h4, ?_, fun x => ?_, ?_⟩
    · rw [h5, hcd]
      simp only [length_cons]
      omega
    · rw [h6, hcf, hins.2]
      simp only [mem_cons, exists_eq_or_imp, or_assoc]
    · intro prior hprior
      have hnp : al.handle ∉ prior := fun hp => hprior _ hp (by simp)
      rw [map_cons, simulateReleases, if_neg (by simp [hva, hnp])]
      rw [← hcf]
      refine h7 _ fun h hh => ?_
      rcases mem_append.mp hh with hh | hh
      · exact fun hm => hprior h hh (by simp [hm])
      rw [mem_singleton.mp hh]
      exact hn.1

theorem releaseAll_perm {b' : HostKVArena} (hp : als.Perm bls) (hv : ∀ al ∈ als, a.validHandle al.handle = true)
    (hn : (als.map (·.handle)).Nodup) (ha : a.releaseAll als = some a')
    (hb : a.releaseAll bls = some b') : a'.freeExtents = b'.freeExtents := by
  obtain ⟨c, hc, hci, -, -, -, hcov, -⟩ := releaseAll_spec hinv hv hn
  obtain ⟨d, hd, hdi, -, -, -, hcov', -⟩ := releaseAll_spec hinv
    (fun al hal => hv al (hp.mem_iff.mpr hal)) ((hp.map _).nodup_iff.mp hn)
  rw [ha] at hc
  rw [hb] at hd
  cases hc
  cases hd
  refine hci.canonical.ext hdi.canonical fun x => ?_
  rw [hcov, hcov']
  simp only [hp.mem_iff]

end

/-! ## Allocating a batch -/

theorem fitRequest_eq_some {simulated' : List FreeExtent} {request : HostKVAllocationRequest}
    (h : a.fitRequest simulated request = some (target, simulated')) :
    ∃ layout layoutIndex offset, request.layout = some layout ∧ request.pages ≠ 0 ∧
      a.findLayout layout = some layoutIndex ∧
      ¬ strideOverflows layout.pageStride request.pages ∧
      takeExtent simulated (layout.pageStride * request.pages) = some (offset, simulated') ∧
      target = ⟨layoutIndex, request.pages, offset, layout.pageStride * request.pages⟩ := by
  unfold fitRequest at h
  split at h
  · cases h
  next layout hl =>
  split at h
  · cases h
  next hp =>
  split at h
  · cases h
  next layoutIndex hi =>
  split at h
  · cases h
  next ho =>
  split at h
  · cases h
  next offset extents he =>
  cases h
  exact ⟨layout, layoutIndex, offset, hl, hp, hi, ho, he, rfl⟩

theorem fitRequest_congr (h : a'.layouts = a.layouts) : a'.fitRequest = a.fitRequest := by
  funext simulated request
  simp only [fitRequest, findLayout, h]

theorem fitAll_congr (h : a'.layouts = a.layouts) : a'.fitAll = a.fitAll := by
  funext simulated requests
  induction requests generalizing simulated with
  | nil => rfl
  | cons request rest ih => simp only [fitAll, fitRequest_congr h, ih]

theorem allocate_of_fitRequest (hinv : Inv a)
    (h : a.fitRequest a.freeExtents ⟨some layout, pages⟩ = some (target, extents)) :
    ∃ al a', a.allocate layout pages = some (al, a') ∧ a'.self = a.self ∧
      a'.layouts = a.layouts ∧ a'.freeExtents = extents ∧
      a'.freeDescriptors.length + 1 = a.freeDescriptors.length ∧
      a'.descriptors[al.descriptor]? =
        some ⟨target.offset, target.bytes, target.layout, target.pages, al.generation, true⟩ := by
  obtain ⟨layout', layoutIndex, offset, hl, hp, hi, ho, he, rfl⟩ := fitRequest_eq_some h
  cases hl
  have hmem := mem_of_getElem? (findLayout_getElem? hi)
  have hroom : layout.pageStride ≤ total a.freeExtents :=
    Nat.le_trans (Nat.le_mul_of_pos_right _ (Nat.pos_of_ne_zero hp)) (takeExtent_le_total he)
  cases hfree : a.freeDescriptors with
  | nil => exact absurd hfree (hinv.exists_free_descriptor hmem hroom)
  | cons index rest =>
    obtain ⟨d, hd, -, hget⟩ := hinv.free_get hfree
    refine ⟨⟨some a.self, index, d.generation⟩, { a with
      freeDescriptors := rest
      freeExtents := extents
      descriptors := a.descriptors.set index
        ⟨offset, layout.pageStride * pages, layoutIndex, pages, d.generation, true⟩
      occupiedBytes := a.occupiedBytes + layout.pageStride * pages
      revision := bumpRevision a.revision }, ?_, rfl, rfl, rfl, ?_, ?_⟩
    · simp only [allocate, hi, hfree, he, takeDescriptor, hget]
      rw [if_neg (by simp [ho]; exact hp)]
    · simp
    · exact getElem?_set_self (lt_of_getElem? hd)

theorem fitRequest_of_allocate (h : a.allocate layout pages = some (al, a')) :
    ∃ target, a.fitRequest a.freeExtents ⟨some layout, pages⟩ = some (target, a'.freeExtents) := by
  have hno : ¬ strideOverflows layout.pageStride pages := by
    intro ho
    unfold allocate at h
    split at h
    · cases h
    rw [if_pos (.inr (.inr ho))] at h
    cases h
  obtain ⟨layoutIndex, offset, extents, index, rest, d, hl, hp, hext, -, -, -, rfl⟩ :=
    allocate_eq_some h
  exact ⟨⟨layoutIndex, pages, offset, layout.pageStride * pages⟩, by
    simp [fitRequest, hp, hl, hno, hext]⟩

/-- A batch of requests succeeds in `allocate` exactly when first fit finds room for it,
    and then leaves the free list that first fit computed. -/
theorem allocateAll_eq_fitAll (hinv : Inv a) (requests : List HostKVAllocationRequest) :
    (a.allocateAll requests).map (fun r => r.2.freeExtents) =
      (a.fitAll a.freeExtents requests).map (fun r => r.2) := by
  induction requests generalizing a with
  | nil => rfl
  | cons request rest ih =>
    obtain ⟨layout, pages⟩ := request
    cases layout with
    | none => simp [allocateAll, fitAll, fitRequest]
    | some layout =>
      cases hfit : a.fitRequest a.freeExtents ⟨some layout, pages⟩ with
      | none =>
        have hnone : a.allocate layout pages = none := by
          cases halloc : a.allocate layout pages with
          | none => rfl
          | some r =>
            obtain ⟨target, ht⟩ := fitRequest_of_allocate halloc
            rw [hfit] at ht
            cases ht
        simp [allocateAll, fitAll, hfit, hnone]
      | some r =>
        obtain ⟨target, extents⟩ := r
        obtain ⟨al, a', halloc, -, hl, hf, -, -⟩ := allocate_of_fitRequest hinv hfit
        have ih := ih (allocate_inv hinv halloc)
        rw [hf, fitAll_congr hl] at ih
        simp only [allocateAll, fitAll, hfit, halloc]
        cases h1 : a'.allocateAll rest with
        | none =>
          rw [h1] at ih
          cases h2 : a.fitAll extents rest with
          | none => rfl
          | some r => rw [h2] at ih; cases ih
        | some r =>
          rw [h1] at ih
          cases h2 : a.fitAll extents rest with
          | none => rw [h2] at ih; cases ih
          | some r' => rw [h2] at ih; simpa using ih

theorem allocateAll_isSome (hinv : Inv a) (requests : List HostKVAllocationRequest) :
    (a.allocateAll requests).isSome = (a.fitAll a.freeExtents requests).isSome := by
  have h := congrArg Option.isSome (allocateAll_eq_fitAll hinv requests)
  rwa [Option.isSome_map, Option.isSome_map] at h

theorem allocateAll_length (h : a.allocateAll requests = some (als, a')) :
    a'.freeDescriptors.length + requests.length = a.freeDescriptors.length := by
  induction requests generalizing a als with
  | nil => cases h; rfl
  | cons request rest ih =>
    unfold allocateAll at h
    split at h
    · cases h
    split at h
    · cases h
    next al b hb =>
    split at h
    · cases h
    next als' c hc =>
    cases h
    obtain ⟨_, _, _, _, _, _, -, -, -, hfree, -, -, rfl⟩ := allocate_eq_some hb
    have := ih hc
    simp only [hfree, length_cons] at this ⊢
    omega

/-! ## Adopting a plan -/

/-- What the planner promises of a target: a supported layout and its size in bytes. -/
def TargetSized (a : HostKVArena) (target : Target) : Prop :=
  ∃ layout, a.layouts[target.layout]? = some layout ∧ target.pages ≠ 0 ∧
    ¬ strideOverflows layout.pageStride target.pages ∧
    layout.pageStride * target.pages = target.bytes

theorem fitAll_targets (h : a.fitAll simulated requests = some (targets, extents)) :
    List.Forall₂ (fun request target => target.pages = request.pages ∧
      a.layouts[target.layout]? = request.layout ∧ a.TargetSized target) requests targets := by
  induction requests generalizing simulated targets with
  | nil => cases h; exact List.Forall₂.nil
  | cons request rest ih =>
    unfold fitAll at h
    split at h
    · cases h
    next target simulated' hfit =>
    split at h
    · cases h
    next targets' extents' hrest =>
    cases h
    obtain ⟨layout, layoutIndex, offset, hl, hp, hi, ho, -, rfl⟩ := fitRequest_eq_some hfit
    have hget := findLayout_getElem? hi
    exact List.Forall₂.cons ⟨rfl, by rw [hget, hl], layout, hget, hp, ho, rfl⟩ (ih hrest)

/-- The allocation was made for the target: same range, layout and page count. -/
def Adopted (a : HostKVArena) (al : HostKVAllocation) (target : Target) : Prop :=
  al.owner = some a.self ∧ a.descriptors[al.descriptor]? =
    some ⟨target.offset, target.bytes, target.layout, target.pages, al.generation, true⟩

theorem allocate_frame (hinv : Inv a) (h : a.allocate layout pages = some (al, a')) {i : Nat}
    (hd : a.descriptors[i]? = some d) (hact : d.active = true) : a'.descriptors[i]? = some d := by
  obtain ⟨_, _, _, index, rest, _, -, -, -, hfree, -, -, rfl⟩ := allocate_eq_some h
  obtain ⟨e, he, heact, -⟩ := hinv.free_get hfree
  have hne : index ≠ i := by
    rintro rfl
    rw [hd] at he
    cases he
    rw [hact] at heact
    cases heact
  rw [← hd]
  exact getElem?_set_ne hne

theorem adoptTargets_spec (hinv : Inv a) (h : a.fitAll a.freeExtents requests = some (targets, extents)) :
    ∃ als a', a.adoptTargets targets = some (als, a') ∧ Inv a' ∧ a'.self = a.self ∧
      List.Forall₂ a'.Adopted als targets ∧
      ∀ (i : Nat) d, a.descriptors[i]? = some d → d.active = true → a'.descriptors[i]? = some d := by
  induction requests generalizing a targets with
  | nil =>
    cases h
    exact ⟨[], a, rfl, hinv, rfl, List.Forall₂.nil, fun _ _ hd _ => hd⟩
  | cons request rest ih =>
    unfold fitAll at h
    split at h
    · cases h
    next target simulated hfit =>
    split at h
    · cases h
    next targets' extents' hrest =>
    cases h
    obtain ⟨layout, layoutIndex, offset, hl, hp, hi, ho, -, rfl⟩ := fitRequest_eq_some hfit
    obtain ⟨_, pages⟩ := request
    cases hl
    obtain ⟨al, b, halloc, hself, hlayouts, hfree, -, hdesc⟩ :=
      allocate_of_fitRequest hinv hfit
    rw [← hfree, ← fitAll_congr hlayouts] at hrest
    obtain ⟨als, a', hadopt, hinv', hself', hall, hframe⟩ :=
      ih (allocate_inv hinv halloc) hrest
    have howner : al.owner = some a.self := by
      obtain ⟨_, _, _, _, _, _, -, -, -, -, -, rfl, -⟩ := allocate_eq_some halloc
      rfl
    refine ⟨al :: als, a', ?_, hinv', hself'.trans hself,
      List.Forall₂.cons ⟨?_, hframe _ _ hdesc rfl⟩ hall, fun i d hd hact => ?_⟩
    · rw [adoptTargets]
      simp only [getD_eq_getElem?_getD, findLayout_getElem? hi, Option.getD_some, halloc, hdesc, hadopt]
      simp
    · rw [howner, hself', hself]
    · exact hframe i d (allocate_frame hinv halloc hd hact) hact

theorem recipeMatches_of_plan (hv : ∀ al ∈ als, a.validHandle al.handle = true)
    (hfit : List.Forall₂ (fun request target => target.pages = request.pages ∧
      a.layouts[target.layout]? = request.layout ∧ a.TargetSized target) requests targets)
    (hlen : outputs.length = requests.length) (hempty : ∀ o ∈ outputs, o.valid = false) :
    a.recipeMatches ⟨some a.self, a.revision, als.map (·.handle), targets⟩ (als.map some) outputs = true := by
  simp only [recipeMatches, Bool.and_eq_true, decide_eq_true_eq, List.all_eq_true]
  refine ⟨⟨⟨⟨⟨trivial, trivial⟩, by simp⟩, by rw [hlen, hfit.length_eq]⟩, ?_⟩, ?_⟩
  · rw [zip_map']
    intro p hp
    obtain ⟨al, hal, rfl⟩ := List.mem_map.mp hp
    simp [releaseMatches, hv al hal]
  · rintro ⟨o, target⟩ hp
    obtain ⟨ho, ht⟩ := of_mem_zip hp
    obtain ⟨request, -, -, -, layout, hl, h1, h2, h3⟩ :
        ∃ request ∈ requests, target.pages = request.pages ∧
          a.layouts[target.layout]? = request.layout ∧ a.TargetSized target := by
      obtain ⟨i, hi, rfl⟩ := getElem_of_mem ht
      have hi' : i < requests.length := hfit.length_eq ▸ hi
      exact ⟨requests[i], getElem_mem hi', (forall₂_iff_get.mp hfit).2 i hi' hi⟩
    simp [targetMatches, hl, hempty o ho, h1, h2, h3]

theorem planAfterReleases_eq_some (h : a.planAfterReleases handles requests = some recipe) :
    ∃ simulated targets extents, a.simulateReleases [] handles a.freeExtents = some simulated ∧
      a.fitAll simulated requests = some (targets, extents) ∧
      recipe = ⟨some a.self, a.revision, handles, targets⟩ := by
  unfold planAfterReleases at h
  split at h
  · cases h
  split at h
  · cases h
  split at h
  · cases h
  next simulated hsim =>
  split at h
  · cases h
  next targets extents hfit =>
  cases h
  exact ⟨simulated, targets, extents, hsim, hfit, rfl⟩

theorem simulateReleases_valid {prior : List HostKVAllocationHandle}
    (h : a.simulateReleases prior handles simulated = some extents) :
    (∀ x ∈ handles, a.validHandle x = true) ∧ handles.Nodup ∧ ∀ x ∈ prior, x ∉ handles := by
  induction handles generalizing prior simulated with
  | nil => simp
  | cons x rest ih =>
    unfold simulateReleases at h
    split at h
    · cases h
    next hok =>
    simp only [not_or, Bool.not_eq_false] at hok
    obtain ⟨h1, h2, h3⟩ := ih h
    refine ⟨?_, nodup_cons.mpr ⟨h3 x (by simp), h2⟩, ?_⟩
    · simpa [hok.1] using h1
    · intro y hy hmem
      rcases mem_cons.mp hmem with rfl | hmem
      · exact hok.2 hy
      · exact h3 y (by simp [hy]) hmem

theorem applyRecipe_of_plan (hinv : Inv a) (h : a.planAfterReleases (als.map (·.handle)) requests = some recipe)
    (hlen : outputs.length = requests.length) (hempty : ∀ o ∈ outputs, o.valid = false) :
    ∃ r, a.applyRecipe recipe (als.map some) outputs = some r ∧ r.applied = true ∧
      Inv r.arena ∧ List.Forall₂ r.arena.Adopted r.targetAllocations recipe.targets := by
  obtain ⟨simulated, targets, extents, hsim, hfit, rfl⟩ := planAfterReleases_eq_some h
  obtain ⟨hv, hn, -⟩ := simulateReleases_valid hsim
  have hv' : ∀ al ∈ als, a.validHandle al.handle = true := fun al hal =>
    hv _ (List.mem_map_of_mem hal)
  obtain ⟨b, hrel, hb, hself, hlayouts, -, -, hsame⟩ := releaseAll_spec hinv hv' hn
  rw [hsame [] (by simp)] at hsim
  cases hsim
  rw [← fitAll_congr hlayouts] at hfit
  obtain ⟨als', a', hadopt, hinv', -, hall, -⟩ := adoptTargets_spec hb hfit
  rw [fitAll_congr hlayouts] at hfit
  have hmatch := recipeMatches_of_plan hv' (fitAll_targets hfit) hlen hempty
  refine ⟨⟨true, a', {}, (als.map some).map (Option.map HostKVAllocation.disarm), als'⟩, ?_, rfl, hinv', hall⟩
  simp [applyRecipe, hmatch, hrel, hadopt]

theorem allocateAll_none_of_plan_none (hinv : Inv a) (hne : als ≠ [] ∨ requests ≠ [])
    (hv : ∀ al ∈ als, a.validHandle al.handle = true) (hn : (als.map (·.handle)).Nodup)
    (h : a.planAfterReleases (als.map (·.handle)) requests = none) (hp : als.Perm bls)
    (hrel : a.releaseAll bls = some a') : a'.allocateAll requests = none := by
  obtain ⟨b, hb, hbi, -, hlayouts, -, -, hsame⟩ := releaseAll_spec hinv hv hn
  obtain ⟨c, hc, hci, -, hcl, hclen, -, -⟩ := releaseAll_spec hinv
    (fun al hal => hv al (hp.mem_iff.mpr hal)) ((hp.map _).nodup_iff.mp hn)
  rw [hrel] at hc
  cases hc
  have hext := releaseAll_perm hinv hp hv hn hb hrel
  by_contra hsome
  obtain ⟨⟨als', a''⟩, halloc⟩ := Option.ne_none_iff_exists'.mp hsome
  have hfit := allocateAll_eq_fitAll hci requests
  have hcount := allocateAll_length halloc
  rw [halloc, ← hext, fitAll_congr hcl, Option.map_some] at hfit
  obtain ⟨⟨targets, extents⟩, hfit', -⟩ := Option.map_eq_some_iff.mp hfit.symm
  unfold planAfterReleases at h
  rw [if_neg (by simpa [← not_and_or] using hne), if_neg (by
    have := hp.length_eq
    simp only [length_map]
    omega), hsame [] (by simp)] at h
  simp [hfit'] at h

end HostKVArena
end VoidInfer.HostKV
