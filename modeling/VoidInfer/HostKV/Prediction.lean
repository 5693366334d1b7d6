import VoidInfer.HostKV.Suballocation
import Mathlib.Algebra.BigOperators.Ring.List

/-
  The prediction of `can_allocate_after_suballocation_releases` against the client that cuts the ranges out.

  Both insert the same byte ranges into the free list, so first fit sees the same list. The descriptor test adds
  nothing: a kept run is at least one page, a page is at least the unit that the number of descriptors was computed
  from, and so whatever fits in bytes fits in descriptors (`enoughDescriptors_of_allocateAll`).
-/

namespace VoidInfer.HostKV
open List

open SpanList

namespace HostKVArena

/-- Non-empty page ranges inside live allocations, no two of one allocation overlapping. -/
structure ValidReleases (a : HostKVArena) (releases : List HostKVSuballocationRelease) : Prop where
  valid : ∀ r ∈ releases, a.validHandle r.allocation = true
  pos : ∀ r ∈ releases, 0 < r.pageCount
  inside : ∀ r ∈ releases, r.beginPage + r.pageCount ≤ (a.descriptorOf r.allocation).pages
  apart : releases.Pairwise fun r s => r.allocation = s.allocation → r.pages.Apart s.pages

variable {a : HostKVArena} {h : HostKVAllocationHandle} {r : HostKVSuballocationRelease}
  {prior releases : List HostKVSuballocationRelease} {requests : List HostKVAllocationRequest}

theorem ValidReleases.perm {l l' : List HostKVSuballocationRelease}
    (h : ValidReleases a l) (hp : l.Perm l') : ValidReleases a l' :=
  ⟨fun r hr => h.valid r (hp.mem_iff.mpr hr), fun r hr => h.pos r (hp.mem_iff.mpr hr),
    fun r hr => h.inside r (hp.mem_iff.mpr hr),
    h.apart.perm hp fun hrs heq => (hrs heq.symm).symm⟩

/-! ## The simulated free list -/

theorem descriptorOf_eq {d : Descriptor} (hd : a.descriptors[h.descriptor]? = some d) : a.descriptorOf h = d := by
  simp only [descriptorOf, getD_eq_getElem?_getD, hd, Option.getD_some]

theorem Inv.live (hinv : Inv a) (hv : a.validHandle h = true) :
    ∃ layout ∈ a.layouts, layout.pageStride = a.strideOf h ∧
      (a.descriptorOf h).bytes = (a.descriptorOf h).pages * a.strideOf h ∧
      (a.descriptorOf h).offset + (a.descriptorOf h).bytes ≤ a.capacityBytes ∧
      a.descriptors[h.descriptor]? = some (a.descriptorOf h) ∧ (a.descriptorOf h).active = true := by
  obtain ⟨-, d, hd, hact, -⟩ := validHandle_iff.mp hv
  obtain ⟨layout, hmem, hl, -, hb⟩ := hinv.layout_mem (mem_of_getElem? hd) hact
  have hstride : layout.pageStride = a.strideOf h := by
    rw [strideOf, descriptorOf_eq hd, getD_eq_getElem?_getD, hl, Option.getD_some]
  have hstop := hinv.tiles.stop_le (mem_append_left _ (mem_activeRanges.mpr ⟨d, mem_of_getElem? hd, hact, rfl⟩))
  rw [descriptorOf_eq hd]
  exact ⟨layout, hmem, hstride, by rw [hb, hstride], hstop, hd, hact⟩

theorem releaseExtent_eq (hinv : Inv a) (hv : a.validHandle r.allocation = true)
    (hin : r.beginPage + r.pageCount ≤ (a.descriptorOf r.allocation).pages) :
    a.releaseExtent r = .ok (a.bytesOf r.allocation r.pages) := by
  obtain ⟨-, -, -, hb, hstop, -, -⟩ := hinv.live hv
  have hcap := hinv.capacity_le
  have h1 : (r.beginPage + r.pageCount) * a.strideOf r.allocation ≤ (a.descriptorOf r.allocation).bytes := by
    rw [hb]
    exact Nat.mul_le_mul_right _ hin
  rw [Nat.add_mul] at h1
  unfold releaseExtent
  rw [checkedMul_of_le _ (by omega)]
  show (do let offset ← checkedAdd _ _ _; _) = _
  rw [checkedAdd_of_le _ (by omega)]
  rw [checkedMul_of_le _ (by omega)]
  rfl

/-- Inserting the releases' bytes one after the other. -/
def freed (a : HostKVArena) (releases : List HostKVSuballocationRelease)
    (extents : List FreeExtent) : List FreeExtent :=
  releases.foldl (fun e r => insertSpan e (a.bytesOf r.allocation r.pages)) extents

theorem releaseAccepted_of_valid (hv : a.validHandle r.allocation = true) (hpos : 0 < r.pageCount)
    (hin : r.beginPage + r.pageCount ≤ (a.descriptorOf r.allocation).pages)
    (hap : ∀ s ∈ prior, s.allocation = r.allocation → s.pages.Apart r.pages) :
    a.releaseAccepted prior r = true := by
  simp only [releaseAccepted, Bool.and_eq_true, Bool.not_eq_true', Bool.or_eq_false_iff,
    decide_eq_false_iff_not, List.all_eq_true, bne_iff_ne, hv, true_and]
  refine ⟨⟨by omega, by omega, by omega⟩, fun s hs => ?_⟩
  by_cases heq : s.allocation = r.allocation
  · have := hap s hs heq
    simp only [Span.Apart, Span.stop, HostKVSuballocationRelease.pages] at this
    simp only [heq, decide_true, Bool.true_and, Bool.and_eq_false_iff, decide_eq_false_iff_not]
    omega
  · simp [heq]

theorem simulateSuballocations_eq (hinv : Inv a) {simulated : List FreeExtent} (h : ValidReleases a releases)
    (hap : ∀ s ∈ prior, ∀ r ∈ releases, s.allocation = r.allocation → s.pages.Apart r.pages) :
    a.simulateSuballocations prior releases simulated = .ok (some (a.freed releases simulated)) := by
  induction releases generalizing prior simulated with
  | nil => rfl
  | cons r rest ih =>
    have hok := releaseAccepted_of_valid (h.valid r (by simp)) (h.pos r (by simp))
      (h.inside r (by simp)) fun s hs => hap s hs r (by simp)
    obtain ⟨hr, hrest⟩ := pairwise_cons.mp h.apart
    rw [simulateSuballocations, if_neg (by simp [hok]),
      releaseExtent_eq hinv (h.valid r (by simp)) (h.inside r (by simp))]
    refine ih ⟨fun s hs => h.valid s (by simp [hs]), fun s hs => h.pos s (by simp [hs]),
      fun s hs => h.inside s (by simp [hs]), hrest⟩ fun s hs t ht => ?_
    rcases mem_append.mp hs with hs | hs
    · exact hap s hs t (by simp [ht])
    rw [mem_singleton.mp hs]
    exact hr t ht

/-! ## The origins -/

theorem mem_originsOf : h ∈ originsOf prior releases ↔
      (∃ r ∈ releases, r.allocation = h) ∧ ¬ ∃ p ∈ prior, p.allocation = h := by
  induction releases generalizing prior with
  | nil => simp [originsOf]
  | cons r rest ih =>
    unfold originsOf
    split
    · next hin =>
      rw [ih]
      simp only [mem_append, mem_cons, not_mem_nil, or_false]
      constructor
      · rintro ⟨⟨s, hs, rfl⟩, hno⟩
        exact ⟨⟨s, .inr hs, rfl⟩, fun ⟨p, hp, he⟩ => hno ⟨p, .inl hp, he⟩⟩
      · rintro ⟨⟨s, rfl | hs, rfl⟩, hno⟩
        · exact absurd hin hno
        · refine ⟨⟨s, hs, rfl⟩, ?_⟩
          rintro ⟨p, hp | rfl, he⟩
          · exact hno ⟨p, hp, he⟩
          · exact hno (he ▸ hin)
    next hout =>
    rw [mem_cons, ih]
    simp only [mem_append, mem_cons, not_mem_nil, or_false]
    constructor
    · rintro (rfl | ⟨⟨s, hs, rfl⟩, hno⟩)
      · exact ⟨⟨r, .inl rfl, rfl⟩, hout⟩
      · exact ⟨⟨s, .inr hs, rfl⟩, fun ⟨p, hp, he⟩ => hno ⟨p, .inl hp, he⟩⟩
    · rintro ⟨⟨s, rfl | hs, rfl⟩, hno⟩
      · exact .inl rfl
      · by_cases he : s.allocation = r.allocation
        · exact .inl he
        · refine .inr ⟨⟨s, hs, rfl⟩, ?_⟩
          rintro ⟨p, hp | rfl, he'⟩
          · exact hno ⟨p, hp, he'⟩
          · exact he he'.symm

theorem nodup_originsOf (prior releases : List HostKVSuballocationRelease) : (originsOf prior releases).Nodup := by
  induction releases generalizing prior with
  | nil => exact nodup_nil
  | cons r rest ih =>
    unfold originsOf
    split
    · exact ih _
    refine nodup_cons.mpr ⟨fun hm => ?_, ih _⟩
    exact (mem_originsOf.mp hm).2 ⟨r, by simp, rfl⟩

theorem ValidReleases.origin_valid (h : ValidReleases a releases) {o : HostKVAllocationHandle}
    (ho : o ∈ originsOf [] releases) : a.validHandle o = true := by
  obtain ⟨⟨r, hr, rfl⟩, -⟩ := mem_originsOf.mp ho
  exact h.valid r hr

theorem ValidReleases.origins_nodup (h : ValidReleases a releases) :
    ((originsOf [] releases).map (·.descriptor)).Nodup := by
  refine Nodup.map_on ?_ (nodup_originsOf _ _)
  intro o ho o' ho' heq
  by_contra hne
  exact descriptor_ne_of_valid (h.origin_valid ho) (h.origin_valid ho') hne heq

/-! ## Cutting all ranges -/

theorem initialPieces_cutting (hinv : Inv a) (h : ValidReleases a releases) :
    Cutting a a (a.initialPieces releases) := by
  refine ⟨hinv, rfl, rfl, rfl, ?_, ?_⟩
  · intro p hp
    obtain ⟨o, ho, rfl⟩ := List.mem_map.mp hp
    have hv := h.origin_valid ho
    obtain ⟨_, -, -, -, -, hd, hact⟩ := hinv.live hv
    refine ⟨?_, _, hd, hact, rfl, rfl, by simp⟩
    have hhandle : HostKVAllocation.handle ⟨o.owner, o.descriptor, o.generation⟩ = o :=
      if_pos (by simp [HostKVAllocation.valid, (validHandle_iff.mp hv).1])
    rw [hhandle]
    exact hv
  · rw [initialPieces, List.map_map]
    exact h.origins_nodup

theorem initialPieces_holds (h : ValidReleases a releases) (hr : r ∈ releases) :
    ∃ p ∈ a.initialPieces releases, p.holds r = true := by
  have ho : r.allocation ∈ originsOf [] releases := mem_originsOf.mpr ⟨⟨r, hr, rfl⟩, by simp⟩
  refine ⟨_, List.mem_map_of_mem ho, ?_⟩
  simpa [Piece.holds, HostKVSuballocationRelease.pages, Span.stop] using h.inside r hr

/-- Bytes given back by the releases. -/
def freedBytes (a : HostKVArena) (releases : List HostKVSuballocationRelease) : Nat :=
  (releases.map fun r => r.pageCount * a.strideOf r.allocation).sum

variable {pieces : List Piece} {a' : HostKVArena} {als : List HostKVAllocation}

/-- Cutting succeeds whatever the order, and frees exactly the releases' bytes. -/
theorem cutAll_cutting {a₀ : HostKVArena} {order : List (HostKVSuballocationRelease × Bool)} (h : Cutting a₀ a pieces)
    (hpos : ∀ x ∈ order, 0 < x.1.pageCount)
    (hap : (order.map Prod.fst).Pairwise fun r s =>
      r.allocation = s.allocation → r.pages.Apart s.pages)
    (hheld : ∀ x ∈ order, ∃ p ∈ pieces, p.holds x.1 = true) :
    ∃ pieces' a', a.cutAll pieces order = .ok (pieces', a') ∧ Cutting a₀ a' pieces' ∧
      a'.freeExtents = a₀.freed (order.map Prod.fst) a.freeExtents ∧
      (∀ x, Covers a'.freeExtents x ↔ Covers a.freeExtents x ∨
        ∃ r ∈ order.map Prod.fst, x ∈ a₀.bytesOf r.allocation r.pages) ∧
      a'.occupiedBytes + a₀.freedBytes (order.map Prod.fst) = a.occupiedBytes := by
  induction order generalizing a pieces with
  | nil => exact ⟨pieces, a, rfl, h, rfl, by simp, by simp [freedBytes]⟩
  | cons x order ih =>
    obtain ⟨r, rightFirst⟩ := x
    obtain ⟨hr, hrest⟩ := pairwise_cons.mp hap
    obtain ⟨p₀, hp₀, hhold₀⟩ := hheld (r, rightFirst) (by simp)
    obtain ⟨p, hfind⟩ : ∃ p, pieces.find? (·.holds r) = some p :=
      Option.isSome_iff_exists.mp (find?_isSome.mpr ⟨p₀, hp₀, hhold₀⟩)
    have hmem := mem_of_find?_eq_some hfind
    have hhold := find?_some hfind
    simp only [Piece.holds, Bool.and_eq_true, decide_eq_true_eq] at hhold
    obtain ⟨⟨horigin, hstart⟩, hstop⟩ := hhold
    obtain ⟨kept, b, hcut, hc, hf, hcov, hocc, hkeep⟩ :=
      cutRange_cutting (h.perm (perm_cons_erase hmem)) (hpos (r, rightFirst) (by simp)) ⟨hstart, hstop⟩ rightFirst
    rw [horigin] at hf hcov hocc hkeep
    obtain ⟨pieces', a', h1, h2, h3, h4, h5⟩ := ih hc (fun x hx => hpos x (by simp [hx])) hrest (by
      intro y hy
      obtain ⟨q, hq, hhq⟩ := hheld y (by simp [hy])
      by_cases hqp : q = p
      · subst hqp
        simp only [Piece.holds, Bool.and_eq_true, decide_eq_true_eq] at hhq
        obtain ⟨⟨hyo, hys⟩, hye⟩ := hhq
        have hya := hr y.1 (List.mem_map_of_mem hy) (horigin.symm.trans hyo)
        obtain ⟨q', hq', ho', hi'⟩ := hkeep y.1.pages (hpos y (by simp [hy])) ⟨hys, hye⟩ hya.symm
        refine ⟨q', by simp [hq'], ?_⟩
        simp only [Piece.holds, Bool.and_eq_true, decide_eq_true_eq]
        exact ⟨⟨by rw [ho', ← horigin, hyo], hi'.1⟩, hi'.2⟩
      · exact ⟨q, by simp [(mem_erase_of_ne hqp).mpr hq], hhq⟩)
    refine ⟨pieces', a', ?_, h2, ?_, fun z => ?_, ?_⟩
    · simp only [cutAll, hfind, hcut]
      exact h1
    · rw [h3, hf]
      rfl
    · rw [h4, hcov]
      simp only [map_cons, mem_cons, exists_eq_or_imp, or_assoc]
    · simp only [freedBytes, map_cons, sum_cons] at h5 ⊢
      simp only [HostKVSuballocationRelease.pages] at hocc
      omega

/-! ## Kept runs -/

instance transLe : IsTrans (Nat × Nat) intervalLe := ⟨fun p q r hpq hqr => by
  simp only [intervalLe] at *; omega⟩

instance totalLe : Std.Total intervalLe := ⟨fun p q => by
  simp only [intervalLe]; omega⟩

theorem retainedFrom_le {pages cursor r : Nat} {l : List (Nat × Nat)}
    (hl : ∀ p ∈ l, p.1 < p.2 ∧ p.2 ≤ pages ∧ cursor ≤ p.1)
    (hs : l.Pairwise fun p q => p.2 ≤ q.1) (hc : cursor ≤ pages) :
    retainedFrom pages cursor r l + (l.map fun p => p.2 - p.1).sum + cursor ≤ pages + r := by
  induction l generalizing cursor r with
  | nil =>
    simp only [retainedFrom, map_nil, sum_nil]
    split <;> omega
  | cons p l ih =>
    obtain ⟨b, e⟩ := p
    obtain ⟨hp, hrest⟩ := pairwise_cons.mp hs
    obtain ⟨h1, h2, h3⟩ := hl (b, e) (by simp)
    have := @ih e (if b > cursor then r + 1 else r)
      (fun q hq => ⟨(hl q (by simp [hq])).1, (hl q (by simp [hq])).2.1, hp q hq⟩) hrest h2
    simp only [retainedFrom, map_cons, sum_cons]
    split at this
    · next hb => rw [if_pos hb]; omega
    · next hb => rw [if_neg hb]; omega

/-- Pages released from one allocation. -/
def releasedPages (releases : List HostKVSuballocationRelease) (h : HostKVAllocationHandle) : Nat :=
  ((releases.filter fun r => decide (r.allocation = h)).map (·.pageCount)).sum

theorem retainedRuns_le (hv : ValidReleases a releases) (h : HostKVAllocationHandle) :
    a.retainedRuns releases h + releasedPages releases h ≤ (a.descriptorOf h).pages := by
  have hperm := perm_insertionSort intervalLe
    ((releases.filter fun r => decide (r.allocation = h)).map fun r =>
      (r.beginPage, r.beginPage + r.pageCount))
  have hmem : ∀ p ∈ intervalsOf releases h, p.1 < p.2 ∧ p.2 ≤ (a.descriptorOf h).pages := by
    intro p hp
    obtain ⟨r, hr, rfl⟩ := List.mem_map.mp (hperm.mem_iff.mp hp)
    obtain ⟨hr, heq⟩ := mem_filter.mp hr
    have h1 := hv.pos r hr
    have h2 := hv.inside r hr
    rw [of_decide_eq_true heq] at h2
    omega
  -- sorted and not overlapping: each interval ends before the next begins
  have hsep : (intervalsOf releases h).Pairwise fun p q => p.2 ≤ q.1 := by
    have hap : ((releases.filter fun r => decide (r.allocation = h)).map fun r =>
        (r.beginPage, r.beginPage + r.pageCount)).Pairwise
        fun p q => p.2 ≤ q.1 ∨ q.2 ≤ p.1 := by
      rw [pairwise_map]
      refine ((hv.apart.filter _).imp_of_mem ?_)
      intro r s hr hs hrs
      have e1 := of_decide_eq_true (mem_filter.mp hr).2
      have e2 := of_decide_eq_true (mem_filter.mp hs).2
      exact hrs (e1.trans e2.symm)
    have hap' := hap.perm hperm.symm Or.symm
    refine ((pairwise_insertionSort intervalLe _).and hap').imp_of_mem ?_
    intro p q hp hq hpq
    have h2 := (hmem q hq).1
    simp only [intervalLe] at hpq
    omega
  have hsum : ((intervalsOf releases h).map fun p => p.2 - p.1).sum = releasedPages releases h := by
    rw [releasedPages, intervalsOf, (hperm.map _).sum_eq, List.map_map]
    congr 1
    refine map_congr_left fun r _ => ?_
    simp
  have := retainedFrom_le (r := 0) (fun p hp => ⟨(hmem p hp).1, (hmem p hp).2, Nat.zero_le _⟩)
    hsep (Nat.zero_le (a.descriptorOf h).pages)
  rw [hsum] at this
  simpa [retainedRuns] using this

/-! ## The descriptor test -/

theorem foldl_countRuns (a : HostKVArena) (releases : List HostKVSuballocationRelease)
    (origins : List HostKVAllocationHandle) (count : Nat × Nat) :
    (origins.foldl (a.countRuns releases) count).1 + count.2 + (origins.map (a.retainedRuns releases)).sum =
      count.1 + origins.length + (origins.foldl (a.countRuns releases) count).2 := by
  induction origins generalizing count with
  | nil => simp
  | cons h origins ih =>
    have := ih (a.countRuns releases count h)
    simp only [foldl_cons, map_cons, sum_cons, length_cons]
    simp only [countRuns] at this ⊢
    split at this
    · next h0 => rw [if_pos h0]; omega
    next h0 =>
    rw [if_neg h0]
    split at this
    · next h1 => rw [if_pos h1]; omega
    · next h1 => rw [if_neg h1]; omega

theorem enoughDescriptors_iff :
    a.enoughDescriptors releases requests = true ↔
      requests.length + ((originsOf [] releases).map (a.retainedRuns releases)).sum ≤
        a.freeDescriptors.length + (originsOf [] releases).length := by
  have := foldl_countRuns a releases (originsOf [] releases) (a.freeDescriptors.length, requests.length)
  simp only [enoughDescriptors, Bool.not_eq_true', decide_eq_false_iff_not, Nat.not_lt]
  omega

theorem allocateAll_occupied {m : Nat} (hinv : Inv a) (hm : ∀ layout ∈ a.layouts, m ≤ layout.pageStride)
    (h : a.allocateAll requests = some (als, a')) :
    a.occupiedBytes + m * requests.length ≤ a'.occupiedBytes ∧ a'.capacityBytes = a.capacityBytes ∧ Inv a' := by
  induction requests generalizing a als with
  | nil => simp only [allocateAll, Option.some.injEq, Prod.mk.injEq] at h; simp [← h.2, hinv]
  | cons request rest ih =>
    unfold allocateAll at h
    split at h
    · cases h
    next layout hl =>
    split at h
    · cases h
    next al b hb =>
    split at h
    · cases h
    next als' c hc =>
    cases h
    have hbinv := allocate_inv hinv hb
    obtain ⟨li, _, _, _, _, _, hli, hp, -, -, -, -, rfl⟩ := allocate_eq_some hb
    obtain ⟨h1, h2, h3⟩ := ih hbinv hm hc
    refine ⟨?_, h2, h3⟩
    have hstride := hm layout (mem_of_getElem? (findLayout_getElem? hli))
    have hle : m ≤ layout.pageStride * request.pages :=
      Nat.le_trans hstride (Nat.le_mul_of_pos_right _ (Nat.pos_of_ne_zero hp))
    simp only [length_cons, Nat.mul_succ] at h1 ⊢
    omega

theorem activeRanges_origins (hinv : Inv a) {origins : List HostKVAllocationHandle}
    (hn : (origins.map (·.descriptor)).Nodup) (hv : ∀ o ∈ origins, a.validHandle o = true) :
    ∃ rest, a.activeRanges.Perm (origins.map a.rangeOf ++ rest) := by
  obtain ⟨rest, hrest⟩ := ListUpdate.filterMap_pick_perm (f := Descriptor.range)
    (Descriptor.range_inactive (d := {}) rfl) hn a.descriptors
  refine ⟨rest, ?_⟩
  have : (origins.map (·.descriptor)).filterMap
      (fun i => (a.descriptors[i]?).bind Descriptor.range) = origins.map a.rangeOf := by
    rw [filterMap_map, ← filterMap_eq_map]
    refine filterMap_congr fun o ho => ?_
    obtain ⟨_, -, -, -, -, hd, hact⟩ := hinv.live (hv o ho)
    simp only [Function.comp, hd, Option.bind_some, Descriptor.range_active hact, HostKVArena.rangeOf_eq hd]
  rwa [this] at hrest

/-- What fits in bytes fits in descriptors. -/
theorem enoughDescriptors_of_allocateAll {a'' : HostKVArena} (hinv : Inv a)
    (hv : ValidReleases a releases) (hc : Cutting a a' pieces)
    (hocc : a'.occupiedBytes + a.freedBytes releases = a.occupiedBytes)
    (h : a'.allocateAll requests = some (als, a'')) :
    a.enoughDescriptors releases requests = true := by
  rw [enoughDescriptors_iff]
  obtain ⟨m, hm, hle, hlen⟩ := hinv.unit
  obtain ⟨h1, h2, h3⟩ := allocateAll_occupied hc.inv (by rw [hc.layouts]; exact hle) h
  have hcap := h3.total_eq
  rw [h2, hc.capacity] at hcap
  obtain ⟨rest, hperm⟩ := activeRanges_origins hinv hv.origins_nodup fun o ho => hv.origin_valid ho
  have htotal := total_perm hperm
  rw [total_append, ← hinv.occupied] at htotal
  have hrest : m * rest.length ≤ total rest := total_ge fun s hs =>
    hinv.unit_le_size hle s (hperm.mem_iff.mpr (mem_append_right _ hs))
  have hcount := length_activeRanges_add hinv
  rw [hperm.length_eq, length_append, length_map] at hcount
  -- the bytes of one allocation: its kept runs, one unit each, and what it releases
  have hone : ∀ o ∈ originsOf [] releases, m * a.retainedRuns releases o +
      ((releases.filter fun r => decide (r.allocation = o)).map fun r =>
        r.pageCount * a.strideOf r.allocation).sum ≤ (a.rangeOf o).size := by
    intro o ho
    obtain ⟨layout, hl, hstride, hb, -, hd, -⟩ := hinv.live (hv.origin_valid ho)
    have hsum : ((releases.filter fun r => decide (r.allocation = o)).map fun r =>
        r.pageCount * a.strideOf r.allocation).sum = releasedPages releases o * a.strideOf o := by
      rw [releasedPages, ← sum_map_mul_right]
      congr 1
      refine map_congr_left fun r hr => ?_
      rw [of_decide_eq_true (mem_filter.mp hr).2]
    have hruns := retainedRuns_le hv o
    have hmul := Nat.mul_le_mul_right (a.strideOf o) hruns
    rw [Nat.add_mul] at hmul
    have hunit : m * a.retainedRuns releases o ≤ a.retainedRuns releases o * a.strideOf o := by
      rw [Nat.mul_comm, ← hstride]
      exact Nat.mul_le_mul_left _ (hle layout hl)
    show _ ≤ (a.descriptorOf o).bytes
    omega
  have hall : m * ((originsOf [] releases).map (a.retainedRuns releases)).sum +
      a.freedBytes releases ≤ total ((originsOf [] releases).map a.rangeOf) := by
    rw [freedBytes, ListUpdate.sum_group (fun r => r.allocation) _ (nodup_originsOf [] releases)
      fun r hr => mem_originsOf.mpr ⟨⟨r, hr, rfl⟩, by simp⟩]
    generalize originsOf [] releases = origins at hone
    induction origins with
    | nil => simp
    | cons o origins ih =>
      have ho := hone o (by simp)
      have := ih fun o ho => hone o (by simp [ho])
      simp only [map_cons, sum_cons, total_cons, Nat.mul_add]
      omega
  have hfit : m * (requests.length + ((originsOf [] releases).map (a.retainedRuns releases)).sum +
      rest.length) ≤ a.capacityBytes := by
    rw [Nat.mul_add, Nat.mul_add]
    omega
  rw [Nat.mul_comm, ← Nat.le_div_iff_mul_le hm] at hfit
  omega

theorem canAllocateAfterSuballocationReleases_eq (hinv : Inv a) (hv : ValidReleases a releases)
    (requests : List HostKVAllocationRequest) :
    a.canAllocateAfterSuballocationReleases releases requests =
      .ok (a.enoughDescriptors releases requests && (a.fitAll (a.freed releases a.freeExtents) requests).isSome) := by
  unfold canAllocateAfterSuballocationReleases
  split
  · next hnil =>
    obtain ⟨rfl, rfl⟩ := hnil
    simp [fitAll, enoughDescriptors, originsOf]
  rw [simulateSuballocations_eq hinv hv (by simp)]
  split
  · next h => rw [h]; rfl
  · next h => rw [Bool.not_eq_false] at h; rw [h, Bool.true_and]; rfl

/-- The prediction is right: for valid releases it does not throw, and it answers `true`
    exactly when a client who cuts the ranges out, in whatever order, can then allocate the
    requests. A proposal whose bytes fit is never turned down by the descriptor test. -/
theorem suballocation_agrees_with_cutting {a : HostKVArena} (hr : Reachable a)
    {releases : List HostKVSuballocationRelease} (hv : ValidReleases a releases)
    (requests : List HostKVAllocationRequest) :
    ∃ answer, a.canAllocateAfterSuballocationReleases releases requests = .ok answer ∧
      (∀ order : List (HostKVSuballocationRelease × Bool), (order.map Prod.fst).Perm releases →
        ∃ pieces a', a.cutAll (a.initialPieces releases) order = .ok (pieces, a') ∧
          (answer = true ↔ (a'.allocateAll requests).isSome = true)) ∧
      ∀ simulated, a.simulateSuballocations [] releases a.freeExtents = .ok (some simulated) →
        (a.fitAll simulated requests).isSome = true →
          a.enoughDescriptors releases requests = true := by
  obtain ⟨log, hr⟩ := hr
  have hinv := hr.inv
  -- one order of cutting, the releases as they are listed
  have hcut : ∀ order,
      (order.map Prod.fst).Perm releases → ∃ pieces a',
        a.cutAll (a.initialPieces releases) order = .ok (pieces, a') ∧ Cutting a a' pieces ∧
        a'.freeExtents = a.freed (order.map Prod.fst) a.freeExtents ∧
        (∀ x, Covers a'.freeExtents x ↔ Covers a.freeExtents x ∨
          ∃ r ∈ releases, x ∈ a.bytesOf r.allocation r.pages) ∧
        a'.occupiedBytes + a.freedBytes releases = a.occupiedBytes := by
    intro order hp
    have hv' := hv.perm hp.symm
    obtain ⟨pieces, a', h1, h2, h3, h4, h5⟩ := cutAll_cutting (initialPieces_cutting hinv hv)
      (fun x hx => hv'.pos x.1 (List.mem_map_of_mem hx)) hv'.apart
      (fun x hx => initialPieces_holds hv (hp.mem_iff.mp (List.mem_map_of_mem hx)))
    refine ⟨pieces, a', h1, h2, h3, ?_, ?_⟩
    · simpa only [hp.mem_iff] using h4
    · rw [← h5, freedBytes, freedBytes, (hp.map _).sum_eq]
  obtain ⟨pieces₀, a₀, -, hc₀, hf₀, hcov₀, hocc₀⟩ :=
    hcut (releases.map fun r => (r, false)) (by simp [Function.comp_def])
  have hmap : (releases.map fun r => (r, false)).map Prod.fst = releases := by
    simp [Function.comp_def]
  rw [hmap] at hf₀
  have hfit₀ := allocateAll_isSome hc₀.inv requests
  rw [fitAll_congr hc₀.layouts, hf₀] at hfit₀
  -- whatever fits passes the descriptor test
  have htest : (a.fitAll (a.freed releases a.freeExtents) requests).isSome = true →
      a.enoughDescriptors releases requests = true := by
    intro hsome
    obtain ⟨⟨als, a''⟩, halloc⟩ := Option.isSome_iff_exists.mp (hfit₀.trans hsome)
    exact enoughDescriptors_of_allocateAll hinv hv hc₀ hocc₀ halloc
  refine ⟨_, canAllocateAfterSuballocationReleases_eq hinv hv requests, fun order hp => ?_,
    fun simulated hsim hsome => ?_⟩
  · obtain ⟨pieces, a', h1, h2, -, h4, -⟩ := hcut order hp
    refine ⟨pieces, a', h1, ?_⟩
    have hsame : a'.freeExtents = a₀.freeExtents :=
      h2.inv.canonical.ext hc₀.inv.canonical fun x => by rw [h4, hcov₀]
    have hfit := allocateAll_isSome h2.inv requests
    rw [fitAll_congr h2.layouts, hsame, hf₀] at hfit
    rw [hfit, Bool.and_eq_true]
    exact ⟨fun h => h.2, fun h => ⟨htest h, h⟩⟩
  · rw [simulateSuballocations_eq hinv hv (by simp)] at hsim
    cases hsim
    exact htest hsome

theorem suballocation_agrees_with_cutting_sample :
    ∃ answer, sampleArena.canAllocateAfterSuballocationReleases [⟨⟨some 0, 1, 1⟩, 0, 1⟩]
        [⟨some sampleLayout, 2⟩] = .ok answer ∧
      ∀ order : List (HostKVSuballocationRelease × Bool),
        (order.map Prod.fst).Perm [⟨⟨some 0, 1, 1⟩, 0, 1⟩] →
        ∃ pieces a', sampleArena.cutAll (sampleArena.initialPieces [⟨⟨some 0, 1, 1⟩, 0, 1⟩]) order =
            .ok (pieces, a') ∧
          (answer = true ↔ (a'.allocateAll [⟨some sampleLayout, 2⟩]).isSome = true) :=
  have hv : ValidReleases sampleArena [⟨⟨some 0, 1, 1⟩, 0, 1⟩] :=
    ⟨by decide, by decide, by decide, by simp⟩
  let ⟨answer, h1, h2, _⟩ := suballocation_agrees_with_cutting ⟨_, sampleArena_run⟩ hv _
  ⟨answer, h1, h2⟩

end HostKVArena
end VoidInfer.HostKV
