import VoidInfer.DeviceKV.PoolWorld

/-
  Where `materialize` puts pages. The three strategies are said of the free pages themselves: the block after the
  preferred page, the first block with room, and the lowest free pages. Since credit never exceeds the free pages, the
  fallback does not run past the last run, and no call of any run ends in `std::terminate` or with a violated
  reservation.
-/

namespace VoidInfer.DeviceKV.DeviceKVPagePool

open SpanList List

/-! ## Blocks of a canonical list -/

/-- `count` points from `first` on are covered. -/
def Block (covered : Nat → Prop) (first count : Nat) : Prop := ∀ x, first ≤ x → x < first + count → covered x

variable {l : List Span} {count first credit : Nat} {runs : List FreePageRun} {p : DeviceKVPagePool}
  {leases d : List DeviceKVPageLease} {predecessor : Option DeviceKVPageHandle}
  {r : DeviceKVPageReservation} {e : Exn}

theorem Canonical.not_covers_end (h : Canonical l) {s : Span} (hs : s ∈ l) : ¬ Covers l s.stop := by
  intro hcov
  obtain ⟨t, ht, hx⟩ := hcov
  obtain ⟨before, after, rfl⟩ := append_of_mem hs
  obtain ⟨_, hrest, hbefore⟩ := canonical_append.mp h
  obtain ⟨_, _, hafter⟩ := canonical_cons.mp hrest
  simp only [Span.mem_iff, Span.stop] at hx
  rcases mem_append.mp ht with ht | ht
  · have := hbefore t ht s (by simp)
    simp only [Span.stop] at this
    omega
  rcases mem_cons.mp ht with rfl | ht
  · omega
  have := hafter t ht
  simp only [Span.stop] at this
  omega

theorem block_iff (h : Canonical l) (hcount : 0 < count) :
    Block (Covers l) first count ↔ ∃ s ∈ l, s.start ≤ first ∧ first + count ≤ s.start + s.size := by
  constructor
  · intro hblock
    obtain ⟨s, hs, hx⟩ := hblock first le_rfl (by omega)
    simp only [Span.mem_iff] at hx
    refine ⟨s, hs, hx.1, ?_⟩
    by_contra hlt
    refine Canonical.not_covers_end h hs (hblock s.stop ?_ ?_)
    · simp only [Span.stop]
      omega
    simp only [Span.stop]
    omega
  · intro hin
    obtain ⟨s, hs, hfirst, hlast⟩ := hin
    intro x hle hlt
    refine ⟨s, hs, ?_⟩
    simp only [Span.mem_iff]
    omega

theorem points_sorted (h : Canonical l) : (points l).Pairwise (· < ·) := by
  induction l with
  | nil => simp [points]
  | cons s l ih =>
    obtain ⟨_, hl, hgap⟩ := canonical_cons.mp h
    refine pairwise_append.mpr ⟨pairwise_lt_range', ih hl, fun x hx y hy => ?_⟩
    obtain ⟨t, ht, hyt⟩ := (mem_points (l := l)).mp hy
    have := hgap t ht
    rw [mem_range'_1] at hx
    simp only [Span.mem_iff, Span.stop] at hyt this
    omega

variable {preferred i capacity target : Nat}

/-! ## The three strategies -/

theorem preferredRun_some (h : Canonical runs) (hcount : 0 < count)
    (hblock : Block (Covers runs) preferred count) : ∃ i, preferredRun runs preferred count = some (i, preferred) := by
  obtain ⟨run, hrun, hfirst, hlast⟩ := (block_iff h hcount).mp hblock
  obtain ⟨before, after, rfl⟩ := append_of_mem hrun
  obtain ⟨hcbefore, hrest, hbefore⟩ := canonical_append.mp h
  obtain ⟨_, _, hafter⟩ := canonical_cons.mp hrest
  have htake : (before ++ run :: after).takeWhile (fun run => decide (run.start ≤ preferred)) = before ++ [run] := by
    rw [takeWhile_append_of_pos, takeWhile_cons_of_pos (by simpa using hfirst)]
    · cases after with
      | nil => rfl
      | cons next rest =>
        have hnext := hafter next (by simp)
        simp only [Span.stop] at hnext
        rw [takeWhile_cons_of_neg]
        simp only [decide_eq_true_eq]
        omega
    intro other hother
    have hle := hbefore other hother run (by simp)
    simp only [Span.stop] at hle
    simp only [decide_eq_true_eq]
    omega
  refine ⟨before.length, ?_⟩
  unfold preferredRun
  simp only [htake, getLast?_append, getLast?_singleton, Option.some_or]
  rw [if_pos ⟨hfirst, hlast⟩]
  simp

theorem preferredRun_block
    (h : preferredRun runs preferred count = some (i, first)) : first = preferred ∧ Block (Covers runs) preferred count := by
  have hsel : ((some preferred).bind fun page => preferredRun runs page count).or (contiguousRun runs count) =
      some (i, first) := by
    rw [Option.bind_some, h]
    rfl
  obtain ⟨run, hrun, hfirst, hlast⟩ := selected_run hsel
  have heq : first = preferred := by
    unfold preferredRun at h
    simp only at h
    split at h
    · cases h
    split at h
    · exact (Prod.mk.inj (Option.some.inj h)).2.symm
    · cases h
  subst heq
  refine ⟨rfl, fun x hle hlt => ⟨run, mem_of_getElem? hrun, ?_⟩⟩
  simp only [Span.mem_iff]
  omega

theorem contiguousRun_least (h : Canonical runs) (hcount : 0 < count)
    (hrun : contiguousRun runs count = some (i, first)) :
    Block (Covers runs) first count ∧ ∀ earlier < first, ¬ Block (Covers runs) earlier count := by
  unfold contiguousRun at hrun
  split at hrun
  · cases hrun
  next j hj =>
  obtain ⟨rfl, rfl⟩ := Prod.mk.inj (Option.some.inj hrun)
  obtain ⟨hlt, hfit, hfirst⟩ := findIdx?_eq_some_iff_getElem.mp hj
  have hget : runs.getD j ⟨0, 0⟩ = runs[j] := by simp [getD_eq_getElem?_getD, getElem?_eq_getElem hlt]
  have hsize : count ≤ runs[j].size := by simpa using hfit
  rw [hget]
  refine ⟨(block_iff h hcount).mpr ⟨runs[j], getElem_mem hlt, Nat.le_refl _, by omega⟩, fun earlier hearlier hblock => ?_⟩
  obtain ⟨run, hmem, hstart, hstop⟩ := (block_iff h hcount).mp hblock
  obtain ⟨k, hk, rfl⟩ := mem_iff_getElem.mp hmem
  -- a run that begins before the one found has no room
  rcases Nat.lt_trichotomy k j with hkj | hkj | hkj
  · have := hfirst k hkj
    simp only [decide_eq_true_eq] at this
    omega
  · subst hkj
    omega
  have := pairwise_iff_getElem.mp h.gap j k hlt hk hkj
  simp only [Span.stop] at this
  omega

theorem contiguousRun_none (h : Canonical runs) (hcount : 0 < count)
    (hnone : contiguousRun runs count = none) (first : Nat) : ¬ Block (Covers runs) first count := by
  intro hblock
  obtain ⟨run, hmem, _, hstop⟩ := (block_iff h hcount).mp hblock
  unfold contiguousRun at hnone
  split at hnone
  · next hfind =>
    have := findIdx?_eq_none_iff.mp hfind run hmem
    simp only [decide_eq_false_iff_not] at this
    omega
  · cases hnone

/-- The fallback of `materialize`, with its index: none if it is past the last run. -/
def takeFromRunsChecked : List FreePageRun → Nat → Option (List Nat × List FreePageRun)
  | [], remaining => if remaining = 0 then some ([], []) else none
  | run :: rest, remaining =>
    if remaining = 0 then some ([], run :: rest)
    else
      let take := min remaining run.size
      if take = run.size then
        (takeFromRunsChecked rest (remaining - take)).map fun (pages, runs) => (List.range' run.start take ++ pages, runs)
      else some (List.range' run.start take, ⟨run.start + take, run.size - take⟩ :: rest)

theorem takeFromRunsChecked_eq : ∀ {count : Nat}, count ≤ total runs →
    takeFromRunsChecked runs count = some (takeFromRuns runs count) := by
  induction runs with
  | nil =>
    intro count hcount
    have hzero : count = 0 := by simpa using hcount
    rw [takeFromRunsChecked, takeFromRuns, if_pos hzero]
  | cons run rest ih =>
    intro count hcount
    rw [total_cons] at hcount
    rw [takeFromRunsChecked, takeFromRuns]
    split
    · rfl
    simp only
    split
    · rw [ih (by omega), Option.map_some]
    · rfl

theorem takeFromRuns_points : ∀ {count : Nat}, (takeFromRuns runs count).1 = (points runs).take count := by
  induction runs with
  | nil => exact fun {count} => by simp [takeFromRuns, points]
  | cons run rest ih =>
    intro count
    rw [takeFromRuns]
    have hpoints : points (run :: rest) = List.range' run.start run.size ++ points rest := rfl
    split
    · next hzero => simp [hzero]
    simp only
    rw [hpoints, take_append, length_range']
    split
    · next hall =>
      have hle : (List.range' run.start run.size).length ≤ count := by
        rw [length_range']
        omega
      rw [ih, hall, take_of_length_le hle]
    next hpart =>
    have hzero : count - run.size = 0 := by omega
    rw [hzero, take_zero, append_nil, take_range'_of_length_ge (by omega), Nat.min_eq_left (by omega)]

/-! ## Placement -/

/-- The page is free. -/
def Free (p : DeviceKVPagePool) (x : Nat) : Prop := p.pageAllocated[x]? = some false

instance (p : DeviceKVPagePool) (x : Nat) : Decidable (p.Free x) := inferInstanceAs (Decidable (_ = _))

/-- Where `count` pages go: after the preferred page if these pages are free, else to the first
pages in a row, else to the lowest free ones. -/
inductive Placed (p : DeviceKVPagePool) (preferred : Option Nat) (count : Nat) : List Nat → Prop where
  | preferred {first : Nat} (hpreferred : preferred = some first) (hblock : Block p.Free first count) :
      Placed p preferred count (List.range' first count)
  | contiguous {first : Nat} (hpreferred : ∀ page, preferred = some page → ¬ Block p.Free page count)
      (hblock : Block p.Free first count) (hleast : ∀ earlier < first, ¬ Block p.Free earlier count) :
      Placed p preferred count (List.range' first count)
  | scattered (hpreferred : ∀ page, preferred = some page → ¬ Block p.Free page count)
      (hblock : ∀ first, ¬ Block p.Free first count) :
      Placed p preferred count (((List.range p.capacityPages).filter p.Free).take count)

theorem PoolInv.points_eq
    (h : PoolInv p leases credit) : points p.freePageRuns = (List.range p.capacityPages).filter p.Free := by
  have hsorted := points_sorted h.canonical
  have hfilter : ((List.range p.capacityPages).filter p.Free).Pairwise (· < ·) := pairwise_lt_range.filter _
  refine List.Perm.eq_of_pairwise (fun a b _ _ hab hba => by omega) hsorted hfilter ?_
  refine (perm_ext_iff_of_nodup (hsorted.imp Nat.ne_of_lt) (hfilter.imp Nat.ne_of_lt)).mpr fun x => ?_
  rw [mem_points, h.covers, mem_filter, mem_range]
  constructor
  · intro hfree
    have hlt := lt_of_getElem? hfree
    rw [h.marks] at hlt
    exact ⟨hlt, decide_eq_true hfree⟩
  · exact fun hx => of_decide_eq_true hx.2

theorem choosePages_placed
    (h : PoolInv p leases credit) (preferred : Option Nat) (hpos : 0 < count) (hcount : count ≤ total p.freePageRuns) :
    ∃ pages runs, choosePages p.freePageRuns preferred count = .ok (pages, runs) ∧
      Chosen p.freePageRuns pages runs ∧ pages.length = count ∧ Placed p preferred count pages := by
  have hfree : Covers p.freePageRuns = p.Free := funext fun x => propext (h.covers x)
  obtain ⟨pages, runs, hchoose, hchosen, hlength⟩ := choosePages_spec h.canonical preferred count hpos hcount
  refine ⟨pages, runs, hchoose, hchosen, hlength, ?_⟩
  have hrefused : (preferred.bind fun page => preferredRun p.freePageRuns page count) = none →
      ∀ page, preferred = some page → ¬ Block p.Free page count := by
    intro hnone page hpage hblock
    rw [← hfree] at hblock
    obtain ⟨i, hsome⟩ := preferredRun_some h.canonical hpos hblock
    rw [hpage, Option.bind_some, hsome] at hnone
    cases hnone
  unfold choosePages at hchoose
  split at hchoose
  · next i first hsel =>
    obtain ⟨left, _, hleft⟩ := bind_ok hchoose
    cases hleft
    rcases Option.or_eq_some_iff.mp hsel with hsel | ⟨hnone, hsel⟩
    · obtain ⟨page, hpage, hsel⟩ := Option.bind_eq_some_iff.mp hsel
      obtain ⟨rfl, hblock⟩ := preferredRun_block hsel
      rw [hfree] at hblock
      exact .preferred hpage hblock
    obtain ⟨hblock, hleast⟩ := contiguousRun_least h.canonical hpos hsel
    rw [hfree] at hblock hleast
    exact .contiguous (hrefused hnone) hblock hleast
  next hsel =>
  obtain ⟨rfl, _⟩ := Prod.mk.inj (Except.ok.inj hchoose)
  obtain ⟨hnone, hcontiguous⟩ := Option.or_eq_none_iff.mp hsel
  have hblock := contiguousRun_none h.canonical hpos hcontiguous
  rw [hfree] at hblock
  rw [takeFromRuns_points, h.points_eq]
  exact .scattered (hrefused hnone) hblock

/-! ## Calls that do not fail -/

/-- The error of a reservation that is larger than what is free. -/
def violated : Exn := .logicError "Paged KV reservation invariant was violated"

/-- The leases of the pages. -/
def leasesOn (p : DeviceKVPagePool) (pages : List Nat) : List DeviceKVPageLease :=
  pages.map fun page => ⟨some p.self, page, p.pageGenerations.getD page 0⟩

/-- The page after the predecessor, or after the last page of the destination. -/
def pageAfter (predecessor : Option DeviceKVPageHandle) (d : List DeviceKVPageLease) : Option Nat :=
  match predecessor with
  | some handle => some (handle.index + 1)
  | none => d.getLast?.map fun l => l.index + 1

theorem preferredPage_ok (hvalid : ∀ handle, predecessor = some handle → p.validHandle handle = true) :
    p.preferredPage predecessor d = .ok (pageAfter predecessor d) := by
  unfold preferredPage
  cases predecessor with
  | none => rfl
  | some handle =>
    simp only [physicalIndex, hvalid handle rfl]
    rfl

theorem PoolInv.credit_free (h : PoolInv p leases credit) (hcount : count ≤ credit) :
    count ≤ p.capacityPages - p.allocatedPages ∧ count ≤ total p.freePageRuns := by
  have htotal := h.free_total
  have hfits := h.fits
  have hreserved := h.reserved
  omega

theorem PoolInv.leasesCurrent
    (h : PoolInv p leases credit) (hd : ∀ l ∈ d, l ∈ leases) : p.leasesCurrent d = true := by
  unfold DeviceKVPagePool.leasesCurrent
  rw [all_eq_true]
  intro l hl
  have howner := (h.minted l (hd l hl)).1
  have hhandle : l.handle = ⟨l.owner, l.index, l.generation⟩ := by simp [DeviceKVPageLease.handle, howner]
  rw [hhandle, h.valid (hd l hl), howner]
  simp

theorem placed_nil (p : DeviceKVPagePool) (preferred : Option Nat) : Placed p preferred 0 [] := by
  have hblock : ∀ first, Block p.Free first 0 := by
    intro first x hle hlt
    omega
  cases preferred with
  | none => exact .contiguous (by simp) (hblock 0) (by simp)
  | some first => exact .preferred rfl (hblock first)

theorem materialize_ok {others : List DeviceKVPageLease}
    (h : PoolInv p (d ++ others) (r.pages + credit)) (howner : r.owner = some p.self)
    (hcount : count ≤ r.pages) (hcapacity : d.length + count ≤ capacity)
    (hvalid : ∀ handle, predecessor = some handle → p.validHandle handle = true) :
    ∃ p' pages, p.materialize r (d.length + count) d capacity predecessor =
        .ok (p', { r with pages := r.pages - count }, d ++ p.leasesOn pages) ∧
      pages.length = count ∧ pages.Nodup ∧ (∀ page ∈ pages, p.Free page) ∧
      Placed p (pageAfter predecessor d) count pages ∧
      takeFromRunsChecked p.freePageRuns count = some (takeFromRuns p.freePageRuns count) := by
  obtain ⟨hroom, htotal⟩ := h.credit_free (show count ≤ _ by omega)
  have hdiff : d.length + count - d.length = count := by omega
  have hcurrent := h.leasesCurrent (d := d) fun l hl => mem_append_left _ hl
  have hextent : ¬ (r.owner ≠ some p.self ∨ d.length + count < d.length) := by simp [howner]
  have hreserved : ¬ (count > r.pages ∨ d.length + count > capacity) := by omega
  have hstale : ¬ p.leasesCurrent d = false := by simp [hcurrent]
  simp only [materialize, hdiff, throwIf, if_neg hextent, if_neg hreserved, if_neg hstale, bind, Except.bind]
  by_cases hzero : count = 0
  · subst hzero
    refine ⟨p, [], ?_, rfl, nodup_nil, by simp, placed_nil p _, takeFromRunsChecked_eq htotal⟩
    simp [leasesOn, pure, Except.pure]
  obtain ⟨pages, runs, hchoose, hchosen, hlength, hplaced⟩ :=
    choosePages_placed h _ (Nat.pos_of_ne_zero hzero) htotal
  refine ⟨{ p with freePageRuns := runs, pageAllocated := (p.appendPages pages).2,
                   allocatedPages := p.allocatedPages + count, reservedPages := p.reservedPages - count },
    pages, ?_, hlength, hchosen.nodup, fun page hpage => (h.covers page).mp (hchosen.free page hpage), hplaced,
    takeFromRunsChecked_eq htotal⟩
  simp only [if_neg hzero, if_neg (Nat.not_lt.mpr hroom), preferredPage_ok hvalid, hchoose, pure, Except.pure]
  rfl

/-- An error that is neither a call of `terminate` nor a broken reservation. -/
def Refusal (e : Exn) : Prop := e ≠ .terminate ∧ e ≠ violated

theorem Refusal.check {α : Type} {bad : Prop} [Decidable bad] {e' : Exn} {f : Unit → Except Exn α}
    (h : (throwIf bad e' >>= f) = .error e) (hrest : ¬ bad → f () = .error e → Refusal e)
    (hother : Refusal e' := by exact ⟨by simp, by simp [violated]⟩) : Refusal e := by
  rcases bind_error h with hthrow | ⟨_, hgood, h⟩
  · rw [(throwIf_error hthrow).2]
    exact hother
  · exact hrest (throwIf_ok.mp hgood) h

section
variable (h : PoolInv p leases credit) (hcredit : r.owner = some p.self → r.pages ≤ credit)
include h hcredit

theorem materialize_error (herror : p.materialize r target d capacity predecessor = .error e) : Refusal e := by
  refine .check herror fun hextent herror => ?_
  refine .check herror fun hreserved herror => ?_
  refine .check herror fun hstale herror => ?_
  split at herror
  · cases herror
  next hzero =>
  have howner : r.owner = some p.self := by
    simp only [not_or, not_not] at hextent
    exact hextent.1
  have hpages := hcredit howner
  obtain ⟨hroom, htotal⟩ := h.credit_free (show target - d.length ≤ _ by omega)
  rcases bind_error herror with hthrow | ⟨_, _, herror⟩
  · have := (throwIf_error hthrow).1
    omega
  rcases bind_error herror with hpreferred | ⟨preferred, _, herror⟩
  · unfold preferredPage at hpreferred
    split at hpreferred
    · rcases bind_error hpreferred with hindex | ⟨_, _, herror⟩
      · unfold physicalIndex at hindex
        split at hindex
        · cases hindex
        · exact Except.error.inj hindex ▸ ⟨by simp, by simp [violated]⟩
      · cases herror
    · cases hpreferred
  rcases bind_error herror with hchoose | ⟨_, _, herror⟩
  · obtain ⟨pages, runs, hok, _⟩ := choosePages_placed h preferred (Nat.pos_of_ne_zero hzero) htotal
    rw [hok] at hchoose
    cases hchoose
  · cases herror

theorem materializeOne_error (herror : p.materializeOne r = .error e) : Refusal e := by
  refine .check herror fun hreserved herror => ?_
  simp only [not_or, not_not] at hreserved
  have hpages := hcredit hreserved.1
  obtain ⟨_, htotal⟩ := h.credit_free (show 1 ≤ _ by omega)
  split at herror
  · next hruns =>
    rw [hruns] at htotal
    cases htotal
  · cases herror

end

theorem releaseReservation_error {pages : Nat}
    (h : PoolInv p leases credit) (hpages : pages ≤ credit) : p.releaseReservation pages ≠ .error e := by
  have hreserved := h.reserved
  unfold releaseReservation
  rw [if_neg (by omega)]
  simp

theorem dematerialize_error (herror : p.dematerialize r target d = .error e) : Refusal e := by
  refine .check herror fun _ herror => ?_
  refine .check herror fun _ herror => ?_
  dsimp only at herror
  split at herror
  · cases herror
  refine .check herror fun _ herror => ?_
  · cases herror

theorem dematerializeOne_error {l : DeviceKVPageLease} (herror : p.dematerializeOne r l = .error e) : Refusal e := by
  refine .check herror fun _ herror => ?_
  split at herror
  · exact Except.error.inj herror ▸ ⟨by simp, by simp [violated]⟩
  · cases herror

end VoidInfer.DeviceKV.DeviceKVPagePool

namespace VoidInfer.DeviceKV.World

open SpanList DeviceKVPagePool List

variable {w : World} {k : Nat} {r : DeviceKVPageReservation} {e : Exn}

/-! ## Calls of a world -/

theorem pages_le_creditOf {i : Nat} (hr : w.reservations[k]? = some r)
    (howner : r.owner = some i) : ∃ credit, w.creditOf i = r.pages + credit := by
  obtain ⟨rest, hperm, _⟩ := ListUpdate.set_perm hr
  refine ⟨creditIn i rest, ?_⟩
  show creditIn i w.reservations = _
  rw [creditIn_perm i hperm, creditIn_cons, if_pos howner]

variable {requests : List BundleRequest}

theorem checkBundle_error : ∀ {prior : List BundleRequest}, w.checkBundle prior requests = .error e → Refusal e := by
  induction requests with
  | nil =>
    intro prior h
    cases h
  | cons request rest ih =>
    intro prior h
    unfold checkBundle at h
    split at h
    · exact Except.error.inj h ▸ ⟨by simp, by simp [violated]⟩
    refine .check h fun _ h => ?_
    refine .check h fun _ h => ?_
    refine .check h fun _ h => ?_
    exact ih h

theorem reserveEach_error : ∀ {w : World}, w.reserveEach requests = .error e → Refusal e := by
  induction requests with
  | nil =>
    intro w h
    cases h
  | cons request rest ih =>
    intro w h
    unfold reserveEach at h
    split at h
    · exact Except.error.inj h ▸ ⟨by simp, by simp [violated]⟩
    split at h
    · exact Except.error.inj h ▸ ⟨by simp, by simp [violated]⟩
    exact ih h

theorem clearReservation_error (h : Inv w)
    (hr : w.reservations[k]? = some r) : w.clearReservation k r ≠ .error e := by
  intro herror
  unfold clearReservation at herror
  split at herror
  · cases herror
  next i howner =>
  split at herror
  · cases herror
  split at herror
  · cases herror
  next p hp =>
  obtain ⟨credit, hcredit⟩ := pages_le_creditOf hr howner
  rcases bind_error herror with hrelease | ⟨_, _, herror⟩
  · exact releaseReservation_error (h i p hp).2 (by omega) hrelease
  · cases herror

theorem releaseReservation_world_error (h : Inv w)
    (hr : w.reservations[k]? = some r) : w.releaseReservation k r ≠ .error e := by
  intro herror
  unfold releaseReservation at herror
  split at herror
  · cases herror
  next i howner =>
  split at herror
  · cases herror
  next p hp =>
  obtain ⟨credit, hcredit⟩ := pages_le_creditOf hr howner
  rcases bind_error herror with hrelease | ⟨_, _, herror⟩
  · exact releaseReservation_error (h i p hp).2 (by omega) hrelease
  · cases herror

theorem call_error (h : Inv w) (hc : Call w (.error e)) : Refusal e := by
  have hpages : ∀ {i k : Nat} {p : DeviceKVPagePool} {r : DeviceKVPageReservation}, w.pools[i]? = some p →
      w.reservations[k]? = some r → r.owner = some p.self → r.pages ≤ w.creditOf i := by
    intro i k p r hp hr howner
    obtain ⟨credit, hcredit⟩ := pages_le_creditOf hr ((h i p hp).1 ▸ howner)
    omega
  generalize hout : Except.error e = out at hc
  cases hc with
  | @reserve i p hp pages =>
    cases hres : p.reserve pages with
    | none => simp [hres] at hout
    | some g => simp [hres] at hout
  | makeEmptyReservation hp => cases hout
  | reserveBundle requests =>
    rcases bind_error hout.symm with hcheck | ⟨_, _, heach⟩
    · exact checkBundle_error hcheck
    · exact reserveEach_error heach
  | @resizeReservation i k p r hp hr newReservedPages =>
    rcases bind_error hout.symm with hresize | ⟨_, _, herror⟩
    · unfold resizeReservation at hresize
      split at hresize
      · cases hresize
      · exact Except.error.inj hresize ▸ ⟨by simp, by simp [violated]⟩
    · cases herror
  | clear hr => exact absurd hout.symm (clearReservation_error h hr)
  | release hr => exact absurd hout.symm (releaseReservation_world_error h hr)
  | @materialize i k v p r d hp hr hd targetPageCount capacity preferredPredecessor =>
    rcases bind_error hout.symm with hmaterialize | ⟨_, _, herror⟩
    · exact materialize_error (h i p hp).2 (hpages hp hr) hmaterialize
    · cases herror
  | @materializeOne i k p r hp hr =>
    rcases bind_error hout.symm with hmaterialize | ⟨_, _, herror⟩
    · exact materializeOne_error (h i p hp).2 (hpages hp hr) hmaterialize
    · cases herror
  | @dematerialize i k v p r d hp hr hd targetPageCount =>
    rcases bind_error hout.symm with hdematerialize | ⟨_, _, herror⟩
    · exact dematerialize_error hdematerialize
    · cases herror
  | @dematerializeOne i k v j p r d l hp hr hd hl =>
    rcases bind_error hout.symm with hdematerialize | ⟨_, _, herror⟩
    · exact dematerializeOne_error hdematerialize
    · cases herror
  | releaseLease hd hl => cases hout

/-- In every world whose pools keep their invariant: `materialize` with a reservation of at least `count` pages, room in
    the destination and a valid predecessor, if any, appends leases of `count` distinct free pages, placed after the
    preferred page, else in the first run with room, else on the lowest free pages, and the walk over the runs stays
    within them; and no call fails by `terminate` or by a violated reservation. -/
theorem materialize_places_pages {w : World} (h : Inv w) :
    (∀ {i k v : Nat} {p : DeviceKVPagePool} {r : DeviceKVPageReservation} {d : List DeviceKVPageLease},
      w.pools[i]? = some p → w.reservations[k]? = some r → w.vectors[v]? = some d → r.owner = some i →
      (∀ l ∈ d, l.owner = some i) → ∀ (count capacity : Nat) (predecessor : Option DeviceKVPageHandle),
      count ≤ r.pages → d.length + count ≤ capacity →
      (∀ handle, predecessor = some handle → p.validHandle handle = true) →
      ∃ p' pages, p.materialize r (d.length + count) d capacity predecessor =
          .ok (p', { r with pages := r.pages - count }, d ++ p.leasesOn pages) ∧
        pages.length = count ∧ pages.Nodup ∧ (∀ page ∈ pages, p.Free page) ∧
        Placed p (pageAfter predecessor d) count pages ∧
        takeFromRunsChecked p.freePageRuns count = some (takeFromRuns p.freePageRuns count)) ∧
    ∀ e, Call w (.error e) → e ≠ .terminate ∧ e ≠ .logicError "Paged KV reservation invariant was violated" := by
  refine ⟨?_, fun e hc => call_error h hc⟩
  intro i k v p r d hp hr hd howner hleases count capacity predecessor hcount hcapacity hvalid
  obtain ⟨hself, hinv⟩ := h i p hp
  obtain ⟨credit, hcredit⟩ := pages_le_creditOf hr howner
  obtain ⟨rest, hperm, _⟩ := ListUpdate.flatten_set_perm hd
  have hown : PoolInv p (d ++ leasesIn i rest) (r.pages + credit) := by
    have hmoved := hinv.perm (leasesIn_perm i hperm)
    rw [leasesIn_append, leasesIn_own hleases, hcredit] at hmoved
    exact hmoved
  exact materialize_ok hown (hself ▸ howner) hcount hcapacity hvalid

/-- A page is leased and one is reserved. -/
def sampleReserved : World :=
  { pools := [{ self := 0, capacityPages := 3, freePageRuns := [⟨0, 1⟩, ⟨2, 1⟩]
                pageGenerations := [2, 1, 1], pageAllocated := [false, true, false]
                allocatedPages := 1, reservedPages := 1 }]
    reservations := [⟨some 0, 1⟩]
    vectors := [[⟨some 0, 1, 1⟩]] }

theorem sampleReserved_run : Run sampleReserved := by
  have hresized : Run { sampleReserved with vectors := sampleWorld.vectors } :=
    sampleWorld_run.call (Call.resizeReservation (w := sampleWorld) (i := 0) (k := 0)
      (p := sampleWorld.pools.getD 0 samplePool) (r := ⟨some 0, 0⟩) rfl rfl 1)
  exact hresized.moved ⟨rfl, List.Perm.refl _, List.Perm.refl _⟩

/-- One page goes after page one, where the only lease stands. -/
theorem materialize_places_pages_sample :
    ∃ p' pages, (sampleReserved.pools.getD 0 samplePool).materialize ⟨some 0, 1⟩ 2 [⟨some 0, 1, 1⟩] 2 none =
        .ok (p', ⟨some 0, 0⟩, [⟨some 0, 1, 1⟩] ++ (sampleReserved.pools.getD 0 samplePool).leasesOn pages) ∧
      pages.length = 1 := by
  obtain ⟨p', pages, hok, hlength, _⟩ := (materialize_places_pages sampleReserved_run.inv).1 (i := 0) (k := 0) (v := 0)
    rfl rfl rfl rfl (by decide) 1 2 none (by decide) (by decide) (by simp)
  exact ⟨p', pages, hok, hlength⟩

/-- Where pages go depends on the pages leased alone, not on the calls that led there: two pools of one capacity, in
    any two reachable worlds, whose live leases name the same pages have the same marks, the same free runs, from which
    every page is chosen, and the same count. -/
theorem same_leases_same_placement {w w' : World} (hr : Run w) (hr' : Run w') {i j : Nat} {p q : DeviceKVPagePool}
    (hp : w.pools[i]? = some p) (hq : w'.pools[j]? = some q) (hcapacity : p.capacityPages = q.capacityPages)
    (hpages : ∀ x, x ∈ (w.leasesOf i).map (·.index) ↔ x ∈ (w'.leasesOf j).map (·.index)) :
    p.pageAllocated = q.pageAllocated ∧ p.freePageRuns = q.freePageRuns ∧ p.allocatedPages = q.allocatedPages := by
  obtain ⟨-, hinv⟩ := hr.inv i p hp
  obtain ⟨-, hinv'⟩ := hr'.inv j q hq
  have hlength : p.pageAllocated.length = q.pageAllocated.length := by rw [hinv.marks, hinv'.marks, hcapacity]
  have hmarks : p.pageAllocated = q.pageAllocated := ext_getElem hlength fun x h h' => by
    have hx := (hinv.mem x).symm.trans ((hpages x).trans (hinv'.mem x))
    rw [getElem?_eq_getElem h, getElem?_eq_getElem h', Option.some_inj, Option.some_inj] at hx
    exact Bool.eq_iff_iff.mpr hx
  have hruns := hinv.canonical.ext hinv'.canonical fun x => by rw [hinv.covers, hinv'.covers, hmarks]
  have hperm := (perm_ext_iff_of_nodup hinv.nodup hinv'.nodup).mpr hpages
  have hcount := hperm.length_eq
  rw [length_map, length_map, ← hinv.allocated, ← hinv'.allocated] at hcount
  exact ⟨hmarks, hruns, hcount⟩

/-- With a page reserved, and with none. -/
theorem same_leases_same_placement_sample : (sampleWorld.pools.getD 0 samplePool).freePageRuns =
    (sampleReserved.pools.getD 0 samplePool).freePageRuns :=
  (same_leases_same_placement sampleWorld_run sampleReserved_run (i := 0) (j := 0) rfl rfl rfl fun _ => Iff.rfl).2.1

end VoidInfer.DeviceKV.World
