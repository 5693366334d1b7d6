import VoidInfer.DeviceKV.PagePool

/-
  The pool's invariant, against the leases and the credit that clients hold: the free runs are canonical and cover the
  unallocated pages, the live leases name the allocated pages once each, and leases and credit together fit.

  Every way of choosing pages removes exactly the chosen pages from the runs (`choosePages_spec`), and giving a page
  back inserts it again (`releaseFreePage_eq`).
-/

namespace VoidInfer.DeviceKV.DeviceKVPagePool
open List Option ListUpdate

open SpanList

structure PoolInv (p : DeviceKVPagePool) (leases : List DeviceKVPageLease) (credit : Nat) :
    Prop where
  canonical : Canonical p.freePageRuns
  covers : ∀ x, Covers p.freePageRuns x ↔ p.pageAllocated[x]? = some false
  marks : p.pageAllocated.length = p.capacityPages
  generations : p.pageGenerations.length = p.capacityPages
  nodup : (leases.map (·.index)).Nodup
  minted : ∀ l ∈ leases, l.owner = some p.self ∧ p.pageGenerations[l.index]? = some l.generation
  mem : ∀ x, x ∈ leases.map (·.index) ↔ p.pageAllocated[x]? = some true
  allocated : p.allocatedPages = leases.length
  reserved : p.reservedPages = credit
  fits : p.allocatedPages + p.reservedPages ≤ p.capacityPages

variable {p p' : DeviceKVPagePool} {credit count first i : Nat} {runs : List FreePageRun}
  {leases : List DeviceKVPageLease} {l : DeviceKVPageLease} {r r' : DeviceKVPageReservation}

theorem PoolInv.perm {l l' : List DeviceKVPageLease}
    (h : PoolInv p l credit) (hp : l.Perm l') : PoolInv p l' credit :=
  { h with
    nodup := (hp.map _).nodup_iff.mp h.nodup
    minted := fun x hx => h.minted x (hp.mem_iff.mpr hx)
    mem := fun x => by rw [← (hp.map _).mem_iff, h.mem]
    allocated := by rw [h.allocated, hp.length_eq] }

theorem make_inv {self n : Nat} (h : make self n = .ok p) : p.self = self ∧ PoolInv p [] 0 := by
  obtain ⟨hn, h⟩ := check_ok h
  cases h
  refine ⟨rfl, canonical_singleton (by show 0 < n; omega), fun x => ?_, by simp, by simp, by simp,
    by simp, fun x => ?_, rfl, rfl, Nat.zero_le _⟩
  · rw [getElem?_replicate]
    split <;> simp_all [Span.mem_iff]
  · rw [getElem?_replicate]
    split <;> simp

/-! ## Choosing pages -/

/-- `pages` are distinct free pages, and `runs'` is what is left of `runs`. -/
structure Chosen (runs : List FreePageRun) (pages : List Nat) (runs' : List FreePageRun) :
    Prop where
  canonical : Canonical runs'
  nodup : pages.Nodup
  free : ∀ x ∈ pages, Covers runs x
  covers : ∀ x, Covers runs' x ↔ Covers runs x ∧ x ∉ pages

theorem consumeFreeRun_chosen {runs' : List FreePageRun}
    (hc : Canonical runs) (h : consumeFreeRun runs i first count = .ok runs') :
    Chosen runs (List.range' first count) runs' := by
  unfold consumeFreeRun at h
  split at h
  · cases h
  next run hrun =>
  split at h
  · cases h
  next hok =>
  simp only [not_or, Nat.not_lt] at hok
  -- what is left of the run: a part before the chosen pages and a part after them
  have key : ∀ parts, runs' = runs.take i ++ parts ++ runs.drop (i + 1) →
      Canonical parts → (∀ t ∈ parts, run.start ≤ t.start ∧ t.stop ≤ run.stop) →
      (∀ x, Covers parts x ↔ x ∈ run ∧ x ∉ (⟨first, count⟩ : Span)) →
      Chosen runs (List.range' first count) runs' := by
    rintro parts rfl hp hin hcov
    obtain ⟨h1, h2⟩ := replace_spec hc hrun hp hin
    have hsub : ∀ x, x ∈ (⟨first, count⟩ : Span) → x ∈ run := by
      intro x hx
      simp only [Span.mem_iff] at hx ⊢
      omega
    have hrange : ∀ x, x ∈ List.range' first count ↔ x ∈ (⟨first, count⟩ : Span) := by
      intro x
      rw [mem_range'_1, Span.mem_iff]
    refine ⟨h1, nodup_range', fun x hx => ?_, fun x => ?_⟩
    · exact ⟨run, mem_of_getElem? hrun, hsub x ((hrange x).mp hx)⟩
    · rw [h2, hcov, hrange]
      tauto
  split at h
  · next hall =>
    cases h
    refine key [] (eraseIdx_eq_replace _ _) canonical_nil (by simp) fun x => ?_
    simp only [Span.mem_iff]
    refine ⟨fun hx => absurd hx (covers_nil x), fun hx => ?_⟩
    omega
  split at h
  · next hl =>
    cases h
    refine key [⟨run.start + count, run.size - count⟩] (set_eq_replace hrun _)
      (canonical_singleton (by show 0 < run.size - count; omega))
      (by simp only [mem_singleton, forall_eq, Span.stop]; omega) fun x => ?_
    simp only [covers_cons, covers_nil, or_false, Span.mem_iff]
    omega
  split at h
  · next hr =>
    cases h
    refine key [⟨run.start, first - run.start⟩] (set_eq_replace hrun _)
      (canonical_singleton (by show 0 < first - run.start; omega))
      (by simp only [mem_singleton, forall_eq, Span.stop]; omega) fun x => ?_
    simp only [covers_cons, covers_nil, or_false, Span.mem_iff]
    omega
  · next hm =>
    cases h
    refine key [⟨run.start, first - run.start⟩, ⟨first + count, run.start + run.size - (first + count)⟩]
      (set_insertIdx_eq_replace hrun _ _) ?_ ?_ fun x => ?_
    · refine canonical_cons.mpr ⟨by show 0 < first - run.start; omega,
        canonical_singleton (by show 0 < _ - _; omega), ?_⟩
      simp only [mem_singleton, forall_eq, Span.stop]
      omega
    · simp only [mem_cons, not_mem_nil, or_false, forall_eq_or_imp, forall_eq, Span.stop]
      omega
    simp only [covers_cons, covers_nil, or_false, Span.mem_iff]
    omega

theorem takeFromRuns_chosen (hc : Canonical runs) (count : Nat) :
    Chosen runs (takeFromRuns runs count).1 (takeFromRuns runs count).2 ∧
      (takeFromRuns runs count).1.length = min count (total runs) := by
  induction runs generalizing count with
  | nil => exact ⟨⟨canonical_nil, nodup_nil, by simp [takeFromRuns], by simp [takeFromRuns]⟩, by simp [takeFromRuns]⟩
  | cons run rest ih =>
    obtain ⟨hpos, hrest, hgap⟩ := canonical_cons.mp hc
    rw [takeFromRuns]
    split
    · next h0 =>
      subst h0
      exact ⟨⟨hc, nodup_nil, by simp, by simp⟩, by simp⟩
    next h0 =>
    -- the pages of `rest` come after those of `run`
    have hafter : ∀ x, Covers rest x → x ∉ run := by
      rintro x ⟨t, ht, hx⟩
      have := hgap t ht
      simp only [Span.mem_iff, Span.stop] at hx this ⊢
      omega
    simp only
    split
    · next hall =>
      obtain ⟨⟨c1, c2, c3, c4⟩, hlen⟩ := ih hrest (count - min count run.size)
      rw [hall] at c1 c2 c3 c4 hlen ⊢
      have hrun : ∀ x, x ∈ List.range' run.start run.size ↔ x ∈ run := by
        intro x
        rw [mem_range'_1, Span.mem_iff]
      refine ⟨⟨c1, List.Nodup.append nodup_range' c2 fun x hx hx' =>
        hafter x (c3 x hx') ((hrun x).mp hx), fun x hx => ?_, fun x => ?_⟩, ?_⟩
      · rcases mem_append.mp hx with hx | hx
        · exact (covers_cons _ _ _).mpr (.inl ((hrun x).mp hx))
        · exact (covers_cons _ _ _).mpr (.inr (c3 x hx))
      · rw [c4, mem_append, hrun, covers_cons]
        tauto
      · rw [length_append, length_range', hlen, total_cons]
        omega
    next hpart =>
    have hcount : min count run.size = count := by omega
    rw [hcount]
    have hfront := carveFront_spec hc (i := 0) (n := count) (s := run) rfl (by omega)
    have heq : carveFront (run :: rest) 0 count = ⟨run.start + count, run.size - count⟩ :: rest := by
      simp only [carveFront, getElem?_cons_zero]
      rw [if_neg (by omega), set_cons_zero]
    rw [heq] at hfront
    refine ⟨⟨hfront.1, nodup_range', fun x hx => ?_, fun x => ?_⟩, ?_⟩
    · rw [mem_range'_1] at hx
      refine (covers_cons _ _ _).mpr (.inl ?_)
      simp only [Span.mem_iff]
      omega
    · rw [hfront.2, mem_range'_1, Span.mem_iff]
    · rw [length_range', total_cons]
      omega

theorem consumeFreeRun_ok {run : FreePageRun} (hrun : runs[i]? = some run) (hcount : 0 < count)
    (h1 : run.start ≤ first) (h2 : first + count ≤ run.start + run.size) :
    ∃ runs', consumeFreeRun runs i first count = .ok runs' := by
  simp only [consumeFreeRun, hrun]
  rw [if_neg (by omega)]
  split
  · exact ⟨_, rfl⟩
  split
  · exact ⟨_, rfl⟩
  split
  · exact ⟨_, rfl⟩
  · exact ⟨_, rfl⟩

theorem selected_run {preferred : Option Nat}
    (h : (preferred.bind fun page => preferredRun runs page count).or (contiguousRun runs count) = some (i, first)) :
    ∃ run, runs[i]? = some run ∧ run.start ≤ first ∧ first + count ≤ run.start + run.size := by
  rcases or_eq_some_iff.mp h with h | ⟨-, h⟩
  · obtain ⟨page, -, h⟩ := bind_eq_some_iff.mp h
    simp only [preferredRun] at h
    split at h
    · cases h
    next run hlast =>
    split at h
    · next hroom =>
      simp only [Option.some.injEq, Prod.mk.injEq] at h
      obtain ⟨rfl, rfl⟩ := h
      refine ⟨run, ?_, hroom.1, hroom.2⟩
      rw [getLast?_eq_getElem?] at hlast
      obtain ⟨hlt, heq⟩ := List.getElem?_eq_some_iff.mp hlast
      have hpre := takeWhile_prefix (fun run => decide (run.start ≤ page)) (l := runs)
      exact List.getElem?_eq_some_iff.mpr ⟨_, (hpre.getElem hlt).symm.trans heq⟩
    · cases h
  simp only [contiguousRun] at h
  split at h
  · cases h
  next j hj =>
  simp only [Option.some.injEq, Prod.mk.injEq] at h
  obtain ⟨rfl, rfl⟩ := h
  obtain ⟨hlt, hfit, -⟩ := findIdx?_eq_some_iff_getElem.mp hj
  have hget : runs[j]? = some runs[j] := getElem?_eq_getElem hlt
  have hsize : count ≤ runs[j].size := by simpa using hfit
  simp only [getD_eq_getElem?_getD, hget, getD_some]
  exact ⟨_, rfl, le_rfl, by omega⟩

theorem choosePages_spec (hc : Canonical runs) (preferred : Option Nat)
    (count : Nat) (hpos : 0 < count) (hcount : count ≤ total runs) :
    ∃ pages runs', choosePages runs preferred count = .ok (pages, runs') ∧
      Chosen runs pages runs' ∧ pages.length = count := by
  unfold choosePages
  split
  · next i first hsel =>
    obtain ⟨run, hrun, h1, h2⟩ := selected_run hsel
    obtain ⟨runs', hok⟩ := consumeFreeRun_ok hrun hpos h1 h2
    exact ⟨_, runs', by rw [hok]; rfl, consumeFreeRun_chosen hc hok, length_range'⟩
  obtain ⟨h1, h2⟩ := takeFromRuns_chosen hc count
  exact ⟨_, _, rfl, h1, by omega⟩

theorem releaseFreePage_eq (runs : List FreePageRun) (index : Nat) :
    releaseFreePage runs index = insertSpan runs ⟨index, 1⟩ := by
  simp only [releaseFreePage, insertSpan]
  generalize runs.takeWhile (fun run => decide (run.start < index)) = before
  generalize runs.dropWhile (fun run => decide (run.start < index)) = after
  rcases eq_nil_or_concat before with rfl | ⟨init, left, rfl⟩
  · cases after with
    | nil => rfl
    | cons next rest =>
      simp only [getLast?_nil, joinLeft, joinRight, Span.stop, nil_append, Nat.add_comm 1 next.size]
  simp only [concat_eq_append, getLast?_append, getLast?_singleton, some_or, joinLeft, dropLast_concat, Span.stop]
  cases after with
  | nil =>
    simp only [joinRight]
    split <;> rfl
  | cons next rest =>
    simp only
    split
    · next hl =>
      have hstop : left.start + (left.size + 1) = index + 1 := by omega
      simp only [joinRight, Span.stop, hstop, Nat.add_assoc]
      split <;> rfl
    simp only [joinRight, Span.stop, Nat.add_comm 1 next.size]
    split <;> rfl

/-! ## Taking pages -/

/-- Chosen pages become leases paid for with credit. -/
theorem PoolInv.take (h : PoolInv p leases credit) {pages : List Nat}
    (hch : Chosen p.freePageRuns pages runs) (hlen : pages.length = count)
    (hcredit : count ≤ credit) :
    PoolInv { p with
      freePageRuns := runs
      pageAllocated := (p.appendPages pages).2
      allocatedPages := p.allocatedPages + count
      reservedPages := p.reservedPages - count }
      (leases ++ (p.appendPages pages).1) (credit - count) := by
  have hfree : ∀ x ∈ pages, p.pageAllocated[x]? = some false := fun x hx =>
    (h.covers x).mp (hch.free x hx)
  have hlt : ∀ x ∈ pages, x < p.pageAllocated.length := fun x hx =>
    lt_of_getElem? (hfree x hx)
  have hmark : ∀ x, (p.appendPages pages).2[x]? =
      if x ∈ pages then some true else p.pageAllocated[x]? := by
    intro x
    simp only [appendPages, getElem?_foldl_set]
    by_cases hx : x ∈ pages
    · rw [if_pos hx, if_pos ⟨hx, hlt x hx⟩]
    · rw [if_neg hx, if_neg fun hc => hx hc.1]
  have hidx : (p.appendPages pages).1.map (·.index) = pages := by
    simp [appendPages, Function.comp_def]
  have hmarks : (p.appendPages pages).2.length = p.pageAllocated.length := by
    simp only [appendPages]
    generalize p.pageAllocated = l
    clear * -
    induction pages generalizing l with
    | nil => rfl
    | cons x pages ih => rw [foldl_cons, ih, length_set]
  have hall := h.allocated
  have hres := h.reserved
  have hfits := h.fits
  refine ⟨hch.canonical, fun x => ?_, hmarks.trans h.marks, h.generations, ?_, ?_, fun x => ?_, ?_, ?_, ?_⟩
  · rw [hch.covers, h.covers, hmark]
    by_cases hx : x ∈ pages
    · simp [hx]
    · simp [hx]
  · rw [map_append, hidx]
    refine List.Nodup.append h.nodup hch.nodup fun x hx hx' => ?_
    have := (h.mem x).mp hx
    rw [hfree x hx'] at this
    cases this
  · intro l hl
    rcases mem_append.mp hl with hl | hl
    · exact h.minted l hl
    simp only [appendPages, List.mem_map] at hl
    obtain ⟨x, hx, rfl⟩ := hl
    have hxg : x < p.pageGenerations.length := by
      rw [h.generations, ← h.marks]
      exact hlt x hx
    refine ⟨rfl, ?_⟩
    rw [getD_eq_getElem?_getD, getElem?_eq_getElem hxg, getD_some]
  · rw [map_append, hidx, mem_append, h.mem, hmark]
    by_cases hx : x ∈ pages
    · simp [hx]
    · simp [hx]
  · have hl : (p.appendPages pages).1.length = count := by
      rw [← hlen]
      simp [appendPages]
    rw [length_append, hl, hall]
  · rw [hres]
  · show p.allocatedPages + count + (p.reservedPages - count) ≤ p.capacityPages
    omega

theorem PoolInv.free_total (h : PoolInv p leases credit) :
    total p.freePageRuns + p.allocatedPages = p.capacityPages := by
  have h1 := length_eq_countP (l := p.pageAllocated) (p := fun b => b) h.nodup (by simpa using h.mem)
  have h2 := length_eq_countP (l := p.pageAllocated) (p := fun b => !b)
    (nodup_points h.canonical.apart) (by
      intro x
      rw [mem_points, h.covers]
      simp)
  have h3 := length_eq_countP_add_countP (fun b => b) (l := p.pageAllocated)
  rw [h.marks] at h3
  rw [length_points] at h2
  rw [length_map] at h1
  rw [h.allocated, h1, h2, h3, Nat.add_comm]
  congr 2
  funext b
  cases b <;> rfl

/-! ## Giving pages back -/

theorem PoolInv.valid (h : PoolInv p leases credit) (hl : l ∈ leases) :
    p.validHandle ⟨l.owner, l.index, l.generation⟩ = true := by
  obtain ⟨ho, hg⟩ := h.minted l hl
  have ha := (h.mem l.index).mp (List.mem_map_of_mem hl)
  have hlt := lt_of_getElem? ha
  rw [h.marks] at hlt
  simp [validHandle, ho, hlt, getD_eq_getElem?_getD, ha, hg]

/-- Releasing a live lease returns its page and nothing else. -/
theorem PoolInv.release (h : PoolInv p (l :: leases) credit) :
    (p.releaseLease l).1 = true ∧ (p.releaseLease l).2.self = p.self ∧
      (p.releaseLease l).2.capacityPages = p.capacityPages ∧
      PoolInv (p.releaseLease l).2 leases credit := by
  have hv := h.valid (l := l) (by simp)
  obtain ⟨ho, hg⟩ := h.minted l (by simp)
  have ha := (h.mem l.index).mp (by simp)
  have hlt := lt_of_getElem? ha
  obtain ⟨hnl, hnd⟩ := nodup_cons.mp h.nodup
  have hap : ∀ s ∈ p.freePageRuns, s.Apart (⟨l.index, 1⟩ : Span) := by
    intro s hs
    refine Span.apart_of_disjoint (h.canonical.pos s hs) Nat.one_pos fun x hx hx' => ?_
    have hxl : x = l.index := by
      simp only [Span.mem_iff] at hx'
      omega
    have := (h.covers x).mp ⟨s, hs, hx⟩
    rw [hxl, ha] at this
    cases this
  obtain ⟨hcan, hcov⟩ := insertSpan_spec h.canonical Nat.one_pos hap
  have hp : (p.releaseLease l).2 = { p with
      pageAllocated := p.pageAllocated.set l.index false
      pageGenerations := p.pageGenerations.set l.index (incrementGeneration (p.pageGenerations.getD l.index 0))
      freePageRuns := insertSpan p.freePageRuns ⟨l.index, 1⟩
      allocatedPages := p.allocatedPages - 1 } := by
    rw [releaseLease, if_pos hv]
    simp only [releasePage, ← releaseFreePage_eq]
    rw [if_neg (by rw [← h.marks]; omega), if_neg (by simp [getD_eq_getElem?_getD, ha, hg])]
  refine ⟨by rw [releaseLease, if_pos hv], by rw [hp], by rw [hp], ?_⟩
  rw [hp]
  have hall := h.allocated
  have hfits := h.fits
  rw [length_cons] at hall
  refine ⟨hcan, fun x => ?_, by simpa using h.marks, by simpa using h.generations, hnd,
    fun k hk => ?_, fun x => ?_, by show p.allocatedPages - 1 = leases.length; omega, h.reserved,
    by show p.allocatedPages - 1 + p.reservedPages ≤ p.capacityPages; omega⟩
  · rw [hcov, h.covers, getElem?_set]
    by_cases hx : l.index = x
    · subst hx
      simp [hlt, Span.mem_iff]
    have : ¬ x ∈ (⟨l.index, 1⟩ : Span) := by
      simp only [Span.mem_iff]
      omega
    simp [hx, this]
  · obtain ⟨ho', hg'⟩ := h.minted k (by simp [hk])
    refine ⟨ho', ?_⟩
    have hne : l.index ≠ k.index := fun he => hnl (by
      show l.index ∈ _
      rw [he]
      exact List.mem_map_of_mem hk)
    rw [getElem?_set_ne hne]
    exact hg'
  · rw [getElem?_set]
    have hm := h.mem x
    rw [map_cons, mem_cons] at hm
    by_cases hx : l.index = x
    · subst hx
      simp only [hlt, if_true]
      exact ⟨fun hin => absurd hin hnl, nofun⟩
    rw [if_neg hx, ← hm]
    exact ⟨.inr, fun ho => ho.resolve_left fun he => hx he.symm⟩

theorem PoolInv.releaseLeases {gone : List DeviceKVPageLease} (h : PoolInv p (gone ++ leases) credit) :
    (p.releaseLeases gone).self = p.self ∧ (p.releaseLeases gone).capacityPages = p.capacityPages ∧
      (p.releaseLeases gone).allocatedPages + gone.length = p.allocatedPages ∧
      PoolInv (p.releaseLeases gone) leases credit := by
  induction gone generalizing p with
  | nil => exact ⟨rfl, rfl, rfl, h⟩
  | cons l gone ih =>
    have hcons : PoolInv p (l :: (gone ++ leases)) credit := h
    obtain ⟨-, hs, hc, h'⟩ := hcons.release
    obtain ⟨h1, h2, h3, h4⟩ := ih h'
    refine ⟨h1.trans hs, h2.trans hc, ?_, h4⟩
    have e1 := h'.allocated
    have e2 := hcons.allocated
    simp only [length_append, length_cons] at e1 e2 ⊢
    simp only [DeviceKVPagePool.releaseLeases, foldl_cons] at h3 ⊢
    omega

/-! ## The operations -/

theorem PoolInv.recredit (h : PoolInv p leases credit) (credit' : Nat)
    (hfits : p.allocatedPages + credit' ≤ p.capacityPages) :
    PoolInv { p with reservedPages := credit' } leases credit' :=
  { h with reserved := rfl, fits := hfits }

theorem leasesCurrent_owner (h : p.leasesCurrent leases = true) : ∀ l ∈ leases, l.owner = some p.self := by
  intro l hl
  have := List.all_eq_true.mp h l hl
  simp only [Bool.and_eq_true, decide_eq_true_eq] at this
  exact this.1

variable {d d' others : List DeviceKVPageLease} {targetPageCount : Nat}

theorem materialize_inv {capacity : Nat} {preferredPredecessor : Option DeviceKVPageHandle}
    (hinv : r.owner = some p.self → (∀ l ∈ d, l.owner = some p.self) → PoolInv p (d ++ others) (r.pages + credit))
    (h : p.materialize r targetPageCount d capacity preferredPredecessor = .ok (p', r', d')) :
    r.owner = some p.self ∧ r'.owner = some p.self ∧ p'.self = p.self ∧
      (∀ l ∈ d, l.owner = some p.self) ∧ (∀ l ∈ d', l.owner = some p.self) ∧
      PoolInv p' (d' ++ others) (r'.pages + credit) := by
  obtain ⟨h1, h⟩ := check_ok h
  obtain ⟨h2, h⟩ := check_ok h
  obtain ⟨h3, h⟩ := check_ok h
  simp only [not_or, not_not] at h1 h2
  rw [Bool.not_eq_false] at h3
  have hd := leasesCurrent_owner h3
  have hinv := hinv h1.1 hd
  split at h
  · obtain ⟨rfl, rfl, rfl⟩ := h
    exact ⟨h1.1, h1.1, rfl, hd, hd, hinv⟩
  next hpos =>
  obtain ⟨h4, h⟩ := check_ok h
  obtain ⟨preferred, -, h⟩ := bind_ok h
  have hfree := hinv.free_total
  obtain ⟨pages, runs, hch, hspec, hlen⟩ := choosePages_spec hinv.canonical preferred
    (targetPageCount - d.length) (by omega) (by omega)
  rw [hch] at h
  obtain ⟨rfl, rfl, rfl⟩ := h
  have htake := hinv.take hspec hlen (by omega)
  refine ⟨h1.1, h1.1, rfl, hd, ?_, ?_⟩
  · intro l hl
    rcases mem_append.mp hl with hl | hl
    · exact hd l hl
    simp only [List.mem_map] at hl
    obtain ⟨x, -, rfl⟩ := hl
    rfl
  · have hcredit : r.pages + credit - (targetPageCount - d.length) =
        r.pages - (targetPageCount - d.length) + credit := by omega
    rw [hcredit] at htake
    refine htake.perm ?_
    rw [append_assoc, append_assoc]
    exact perm_append_comm.append_left d

theorem materializeOne_inv (hinv : r.owner = some p.self → PoolInv p leases (r.pages + credit))
    (h : p.materializeOne r = .ok (p', r', l)) :
    r.owner = some p.self ∧ r'.owner = some p.self ∧ p'.self = p.self ∧ l.owner = some p.self ∧
      PoolInv p' (l :: leases) (r'.pages + credit) := by
  obtain ⟨h1, h⟩ := check_ok h
  simp only [not_or, not_not] at h1
  have hinv := hinv h1.1
  split at h
  · exact absurd h (by simp [throw, throwThe, MonadExceptOf.throw])
  next run rest hruns =>
  obtain ⟨rfl, rfl, rfl⟩ := h
  have hget : p.freePageRuns[0]? = some run := by rw [hruns]; rfl
  have hpos := hinv.canonical.pos run (mem_of_getElem? hget)
  obtain ⟨c1, c2⟩ := carveFront_spec hinv.canonical hget (n := 1) hpos
  have hch : Chosen p.freePageRuns [run.start] (carveFront p.freePageRuns 0 1) := by
    refine ⟨c1, nodup_singleton _, ?_, fun x => ?_⟩
    · intro x hx
      rw [mem_singleton.mp hx]
      refine ⟨run, mem_of_getElem? hget, ?_⟩
      simp only [Span.mem_iff]
      omega
    · rw [c2, mem_singleton]
      simp only [Span.mem_iff]
      refine and_congr_right fun _ => ?_
      omega
  have htake := hinv.take hch (length_singleton (a := run.start)) (by omega)
  have hcredit : r.pages + credit - 1 = r.pages - 1 + credit := by omega
  rw [hcredit] at htake
  exact ⟨h1.1, h1.1, rfl, rfl, htake.perm perm_append_comm⟩

theorem dematerialize_inv
    (hinv : r.owner = some p.self → (∀ l ∈ d, l.owner = some p.self) → PoolInv p (d ++ others) (r.pages + credit))
    (h : p.dematerialize r targetPageCount d = .ok (p', r', d')) :
    r.owner = some p.self ∧ r'.owner = some p.self ∧ p'.self = p.self ∧
      (∀ l ∈ d, l.owner = some p.self) ∧ (∀ l ∈ d', l.owner = some p.self) ∧
      PoolInv p' (d' ++ others) (r'.pages + credit) := by
  obtain ⟨h1, h⟩ := check_ok h
  obtain ⟨h2, h⟩ := check_ok h
  simp only [not_or, not_not] at h1
  rw [Bool.not_eq_false] at h2
  have hd := leasesCurrent_owner h2
  have hinv := hinv h1.1 hd
  simp only at h
  split at h
  · obtain ⟨rfl, rfl, rfl⟩ := h
    exact ⟨h1.1, h1.1, rfl, hd, hd, hinv⟩
  next hpos =>
  obtain ⟨_, _, h⟩ := bind_ok h
  obtain ⟨rfl, rfl, rfl⟩ := h
  have hsplit : (d ++ others).Perm (d.drop targetPageCount ++ (d.take targetPageCount ++ others)) := by
    rw [← append_assoc]
    refine Perm.append_right _ ?_
    exact (perm_append_comm.trans (by rw [take_append_drop])).symm
  obtain ⟨hs, hcap, hcount, hrel⟩ := (hinv.perm hsplit).releaseLeases
  rw [length_drop] at hcount
  have hfits := hinv.fits
  have hres := hrel.reserved
  have hres' := hinv.reserved
  have hnew := hrel.recredit (r.pages + (d.length - targetPageCount) + credit) (by
    omega)
  have heq : (p.releaseLeases (d.drop targetPageCount)).reservedPages +
      (d.length - targetPageCount) = r.pages + (d.length - targetPageCount) + credit := by
    omega
  refine ⟨h1.1, h1.1, hs, hd, fun l hl => hd l (mem_of_mem_take hl), ?_⟩
  rw [heq]
  exact hnew

theorem dematerializeOne_inv
    (hinv : r.owner = some p.self → l.owner = some p.self → PoolInv p (l :: leases) (r.pages + credit))
    (h : p.dematerializeOne r l = .ok (p', r')) :
    r.owner = some p.self ∧ r'.owner = some p.self ∧ p'.self = p.self ∧ l.owner = some p.self ∧
      PoolInv p' leases (r'.pages + credit) := by
  obtain ⟨h1, h⟩ := check_ok h
  simp only [not_or, not_not] at h1
  have hinv := hinv h1.1 h1.2.1
  obtain ⟨htrue, hs, hcap, hrel⟩ := hinv.release
  cases hl : p.releaseLease l with
  | mk ok q =>
    rw [hl] at h htrue hs hcap hrel
    simp only at htrue hs hcap hrel
    subst htrue
    obtain ⟨rfl, rfl⟩ := h
    have hfits := hinv.fits
    have hres := hrel.reserved
    have hres' := hinv.reserved
    have e1 := hinv.allocated
    have e2 := hrel.allocated
    rw [length_cons] at e1
    have hnew := hrel.recredit (r.pages + 1 + credit) (by omega)
    have heq : q.reservedPages + 1 = r.pages + 1 + credit := by omega
    refine ⟨h1.1, h1.1, hs, h1.2.1, ?_⟩
    rw [heq]
    exact hnew

end VoidInfer.DeviceKV.DeviceKVPagePool
