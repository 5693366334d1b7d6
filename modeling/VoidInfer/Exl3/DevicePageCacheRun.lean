import VoidInfer.Exl3.DevicePageCacheInv

/-
  Runs of the device page cache. Every event moves the state as the invariant allows, and gives up only slots whose fill
  has expired; what the cache promises of keys, producers, readiness, retirement and slots holds after any number of
  events of any number of threads.
-/

namespace VoidInfer.Exl3.DevicePages
open List Option

variable {s s' : State} {f i : Nat} {key : Key} {fill : Fill} {entry : Entry} {valid : Nat → Bool}

/-! ## The loop of `acquire` -/

theorem same_of_current (h : s.current key = true) : s.same key key = true := by
  simp [State.same, h]

def Visit.after : Visit → Entry
  | .stop entry _ => entry
  | .next entry _ => entry

theorem visitPage_entry (b : Bool) (entry : Entry) : (visitPage s key b entry).after = entry := by
  unfold visitPage
  split
  · rfl
  · split <;> rfl

theorem visit_entry (b : Bool) (entry : Entry) : (visit s key b entry).after = entry ∨
    ∃ f, entry.tracking = some f ∧ s.alive f = false ∧ (visit s key b entry).after = {} := by
  unfold visit
  split
  · exact .inl (visitPage_entry b entry)
  next f htrack =>
  split
  · exact .inl rfl
  next hdead =>
  split
  · exact .inr ⟨f, htrack, by simpa using hdead, visitPage_entry b {}⟩
  · exact .inl rfl

variable {b : Bool} {after : Entry} {entries : List Entry}

theorem visit_next {isEmpty : Bool} (hkey : s.current key = true)
    (hfree : entry.tracking ≠ none → entry.page = none) (h : visit s key b entry = .next after isEmpty) :
    (∀ g, after.page ≠ some (key, g)) ∧ (isEmpty = true → after.page = none ∧ after.tracking = none) := by
  have hseen : ∀ entry, entry.tracking = none → visitPage s key b entry = .next after isEmpty →
      (∀ g, after.page ≠ some (key, g)) ∧ (isEmpty = true → after.page = none ∧ after.tracking = none) := by
    intro entry htrack h
    unfold visitPage at h
    split at h
    · next hpage =>
      cases h
      exact ⟨fun g => by simp [hpage], fun _ => ⟨hpage, htrack⟩⟩
    next other f hpage =>
    split at h
    · cases h
    next hother =>
    cases h
    refine ⟨fun g heq => hother ?_, fun hfalse => by cases hfalse⟩
    rw [hpage] at heq
    cases heq
    exact ⟨rfl, same_of_current hkey⟩
  unfold visit at h
  split at h
  · next htrack => exact hseen entry htrack h
  next f htrack =>
  split at h
  · cases h
    have hpage := hfree (by simp [htrack])
    exact ⟨fun g => by simp [hpage], fun hfalse => by cases hfalse⟩
  split at h
  · exact hseen {} rfl h
  · cases h

theorem visit_stop {found : Lookup} (h : visit s key b entry = .stop after found)
    (empty : Option Nat) : found ≠ .miss empty := by
  have hpage : ∀ entry, visitPage s key b entry = .stop after found → found ≠ .miss empty := by
    intro entry h
    unfold visitPage at h
    split at h
    · cases h
    split at h
    · cases h
      split
      · simp
      · split <;> simp
    · cases h
  unfold visit at h
  split at h
  · exact hpage entry h
  split at h
  · cases h
  split at h
  · exact hpage {} h
  cases h
  simp

theorem lookup_entries : ∀ {i : Nat} {empty : Option Nat} (j : Nat),
    (lookup s key valid i empty entries).1[j]? = entries[j]? ∨
      ∃ entry f, entries[j]? = some entry ∧ entry.tracking = some f ∧ s.alive f = false ∧
        (lookup s key valid i empty entries).1[j]? = some {} := by
  induction entries with
  | nil => exact fun j => .inl rfl
  | cons entry rest ih =>
    intro i empty j
    have hentry := @visit_entry s key (valid i) entry
    unfold lookup
    cases hvisit : visit s key _ entry with
    | stop after found =>
      cases j with
      | zero =>
        rw [hvisit] at hentry
        rcases hentry with heq | ⟨f, htrack, hdead, heq⟩
        · exact .inl (congrArg some heq)
        · exact .inr ⟨entry, f, rfl, htrack, hdead, congrArg some heq⟩
      | succ j => exact .inl rfl
    | next after isEmpty =>
      cases j with
      | zero =>
        rw [hvisit] at hentry
        rcases hentry with heq | ⟨f, htrack, hdead, heq⟩
        · exact .inl (congrArg some heq)
        · exact .inr ⟨entry, f, rfl, htrack, hdead, congrArg some heq⟩
      | succ j => exact ih j

section
variable (hkey : s.current key = true) (hfree : ∀ entry ∈ entries, entry.tracking ≠ none → entry.page = none)
include hkey hfree

theorem lookup_miss {empty' : Option Nat} :
    ∀ {i : Nat} {empty : Option Nat}, (lookup s key valid i empty entries).2 = .miss empty' →
      ∀ (j : Nat) entry g, (lookup s key valid i empty entries).1[j]? = some entry → entry.page ≠ some (key, g) := by
  induction entries with
  | nil =>
    intro i empty _ j entry g hj
    simp [lookup] at hj
  | cons first rest ih =>
    intro i empty hmiss j entry g hj
    unfold lookup at hmiss hj
    cases hvisit : visit s key _ first with
    | stop after found =>
      rw [hvisit] at hmiss
      exact absurd hmiss (visit_stop hvisit empty')
    | next after isEmpty =>
      rw [hvisit] at hmiss hj
      cases j with
      | zero =>
        cases hj
        exact (visit_next hkey (hfree first mem_cons_self) hvisit).1 g
      | succ j => exact ih (fun entry hmem => hfree entry (mem_cons_of_mem _ hmem)) hmiss j entry g hj

theorem lookup_empty {e : Nat} :
    ∀ {i : Nat} {empty : Option Nat}, (lookup s key valid i empty entries).2 = .miss (some e) →
      empty = some e ∨ ∃ entry, i ≤ e ∧ (lookup s key valid i empty entries).1[e - i]? = some entry ∧
        entry.page = none ∧ entry.tracking = none := by
  induction entries with
  | nil =>
    intro i empty hmiss
    exact .inl (Lookup.miss.inj hmiss)
  | cons first rest ih =>
    intro i empty hmiss
    unfold lookup at hmiss ⊢
    cases hvisit : visit s key _ first with
    | stop after found =>
      rw [hvisit] at hmiss
      exact absurd hmiss (visit_stop hvisit _)
    | next after isEmpty =>
      rw [hvisit] at hmiss
      rcases ih (fun entry hmem => hfree entry (mem_cons_of_mem _ hmem)) hmiss with hempty | ⟨entry, hle, hget, hfree'⟩
      · split at hempty
        · next htrue =>
          cases hold : empty with
          | some e' =>
            rw [hold] at hempty
            exact .inl hempty
          | none =>
            rw [hold] at hempty
            obtain rfl : i = e := some.inj hempty
            refine .inr ⟨after, Nat.le_refl i, by simp, ?_⟩
            exact (visit_next hkey (hfree first mem_cons_self) hvisit).2 htrue
        · exact .inl hempty
      refine .inr ⟨entry, by omega, ?_, hfree'⟩
      rw [show e - i = (e - (i + 1)) + 1 by omega]
      exact hget

end

theorem lookup_old {empty : Option Nat} {j : Nat} (h : (lookup s key valid i empty entries).1[j]? = some entry) :
    entries[j]? = some entry ∨ (entry = {} ∧ ∃ old f, entries[j]? = some old ∧ old.tracking = some f ∧ s.alive f = false) := by
  rcases @lookup_entries s key valid entries i empty j with heq | ⟨old, f, hold, htrack, hdead, hnew⟩
  · exact .inl (heq.symm.trans h)
  rw [hnew] at h
  cases h
  exact .inr ⟨rfl, old, f, hold, htrack, hdead⟩

theorem moved_lookup (h : Inv s) (key : Key) (valid : Nat → Bool) :
    Moved s { s with entries := (lookup s key valid 0 none s.entries).1 } ∧
      Slots s { s with entries := (lookup s key valid 0 none s.entries).1 } := by
  have hold : ∀ (j : Nat) entry page, (lookup s key valid 0 none s.entries).1[j]? = some entry → entry.page = some page →
      s.entries[j]? = some entry := by
    intro j entry page hj hpage
    rcases lookup_old hj with hj | ⟨rfl, _⟩
    · exact hj
    · cases hpage
  refine ⟨⟨⟨h.fills, fun j entry key' f hj hpage => ?_, fun j entry f hj htrack => ?_, ?_⟩,
    fun f fill hf => ⟨fill, hf, Next.refl fill⟩, fun f _ hdead => dead_of (s := s) (fun hl => ?_) (fun fill hf hpos => ?_)
      hdead⟩, ?_⟩
  · exact h.pages j entry key' f (hold j entry _ hj hpage) hpage
  · rcases lookup_old hj with hj | ⟨rfl, _⟩
    · exact h.tracked j entry f hj htrack
    · cases htrack
  · intro j k entry entry' key' f f' hj hk hpage hpage'
    exact h.distinct j k entry entry' key' f f' (hold j entry _ hj hpage) (hold k entry' _ hk hpage') hpage hpage'
  · obtain ⟨j, entry, key', hj, hpage⟩ := listed_iff.mp hl
    exact listed_iff.mpr ⟨j, entry, key', hold j entry _ hj hpage, hpage⟩
  · exact alive_iff.mpr (.inr ⟨fill, hf, hpos⟩)
  · intro j f hholds
    obtain ⟨entry, hj, hentry⟩ := hholds
    rcases @lookup_entries s key valid s.entries 0 none j with heq | ⟨old, g, hold', htrack, hdead, _⟩
    · exact .inl ⟨entry, heq.trans hj, hentry⟩
    obtain rfl := mem_unique hj hold'
    rcases hentry with hf | ⟨key', hpage⟩
    · obtain rfl := mem_unique htrack hf
      exact .inr hdead
    rw [(h.pages j entry key' f hj hpage).1] at htrack
    cases htrack

/-! ## Owners, and calls of fills -/

theorem moved_retain (h : Inv s) (f : Nat) : Moved s (s.retain f) ∧ Keeps s (s.retain f) := by
  unfold State.retain
  split
  · exact h.still
  next fill hf =>
  split
  · next halive => exact ⟨moved_setFill h hf (next_owners fill _) fun _ => halive, keeps_of_entries rfl⟩
  · exact h.still

theorem moved_release (h : Inv s) (f : Nat) : Moved s (s.release f) ∧ Keeps s (s.release f) := by
  unfold State.release
  split
  · exact h.still
  next fill hf =>
  refine ⟨moved_setFill h hf (next_owners fill _) fun hpos => ?_, keeps_of_entries rfl⟩
  exact alive_iff.mpr (.inr ⟨fill, hf, Nat.lt_of_lt_of_le hpos (Nat.sub_le _ _)⟩)

theorem moved_onFill (h : Inv s) (f : Nat) {call : Bool → Fill → Option Fill}
    (hcall : ∀ current fill fill', call current fill = some fill' → Next fill fill') :
    Moved s (s.onFill f call) ∧ Keeps s (s.onFill f call) := by
  unfold State.onFill
  split
  · exact h.still
  next fill hf =>
  split
  · next halive =>
    split
    · exact h.still
    · next after hafter => exact ⟨moved_setFill h hf (hcall _ _ _ hafter) fun _ => halive, keeps_of_entries rfl⟩
  · exact h.still

theorem moved_reader (h : Inv s) (hf : s.fills[f]? = some fill) (move : Fill.ReaderStep) :
    Moved s (s.setFill f ((fill.readerStep move).getD fill)) := by
  have howners : ((fill.readerStep move).getD fill).owners = fill.owners := by
    cases move
    all_goals
      simp only [Fill.readerStep]
      split <;> rfl
  refine moved_setFill h hf ?_ fun hpos => alive_iff.mpr (.inr ⟨fill, hf, howners ▸ hpos⟩)
  cases hstep : fill.readerStep move with
  | none => exact Next.refl fill
  | some fill' => exact next_readerStep hstep

/-! ## Calls of the cache -/

theorem produced_ok (key : Key) : FillOk { key, owners := 2, history := [.produced] } where
  past := ⟨by simp, by simp, by simp, rfl⟩
  idle _ := ⟨rfl, rfl, rfl, by simp [Mark.isSubmission]⟩
  submission h := by cases h
  published h := by cases h
  closed h := by cases h

theorem unproduced_ok (key : Key) : FillOk (Fill.abandonProducer { key }) := by
  refine (next_abandonProducer _).ok ⟨⟨by simp, by simp, by simp, rfl⟩, fun _ => ⟨rfl, rfl, rfl, by simp⟩, ?_, ?_, ?_⟩
  all_goals
    intro h
    cases h

theorem moved_acquire (h : Inv s) (key : Key) (answers : AcquireAnswers) :
    Moved s (acquire s key answers) ∧ Slots s (acquire s key answers) := by
  unfold acquire
  split
  · exact ⟨Moved.refl h, fun _ _ => .inl⟩
  next hgate =>
  push Not at hgate
  have hkey : s.current key = true := by simpa using hgate.2.1
  have hfree : ∀ entry ∈ s.entries, entry.tracking ≠ none → entry.page = none := by
    intro entry hmem htrack
    obtain ⟨j, hj⟩ := mem_iff_getElem?.mp hmem
    by_contra hpage
    obtain ⟨page, hpage⟩ := ne_none_iff_exists'.mp hpage
    exact htrack (h.pages j entry page.1 page.2 hj hpage).1
  obtain ⟨hmoved, hslots⟩ := moved_lookup h key answers.valid
  simp only
  split
  · exact ⟨hmoved, hslots⟩
  · exact ⟨hmoved, hslots⟩
  · exact ⟨hmoved, hslots⟩
  · next f hfound =>
    obtain ⟨hretain, hkeeps⟩ := moved_retain hmoved.inv f
    exact ⟨hmoved.trans hretain, hslots.keeps hkeeps⟩
  next i hfound =>
  split
  · exact ⟨hmoved, hslots⟩
  · exact ⟨hmoved, hslots⟩
  have hnew := lookup_miss hkey hfree hfound
  rcases lookup_empty hkey hfree hfound with hnone | ⟨entry, _, hentry, hpage, htrack⟩
  · cases hnone
  split
  · obtain ⟨hfresh, hkeeps⟩ := moved_fresh { page := some (key, s.fills.length) } hmoved.inv
      hentry hpage htrack hnew (produced_ok key) rfl rfl rfl
    exact ⟨hmoved.trans hfresh, hslots.keeps hkeeps⟩
  obtain ⟨hfresh, hkeeps⟩ := moved_fresh { page := some (key, s.fills.length), retiring := true }
    hmoved.inv hentry hpage htrack hnew (unproduced_ok key) rfl rfl rfl
  exact ⟨hmoved.trans hfresh, hslots.keeps hkeeps⟩

theorem moved_flags (s' : State) (h : Inv s) (hfills : s'.fills = s.fills)
    (hshape : s'.entries.map Entry.shape = s.entries.map Entry.shape) : Moved s s' ∧ Keeps s s' :=
  ⟨moved_of_shape h hfills hshape, holds_of_shape hshape⟩

theorem moved_retireLookup (h : Inv s) (key : Key) (gate : Gate) :
    Moved s (retireLookup s key gate) ∧ Keeps s (retireLookup s key gate) := by
  unfold retireLookup
  split
  · exact h.still
  split
  · exact h.still
  · exact moved_flags _ h rfl (shape_modify _ _ _ fun _ => rfl)

theorem findRetiring_eq {found : Nat × Entry × Nat × Fill} (h : findRetiring s key = some found) :
    s.entries[found.1]? = some found.2.1 ∧ (∃ key', found.2.1.page = some (key', found.2.2.1)) ∧
      s.fills[found.2.2.1]? = some found.2.2.2 := by
  unfold findRetiring at h
  simp only [bind_eq_bind, bind_eq_some_iff] at h
  obtain ⟨i, _, entry, hentry, page, hpage, fill, hfill, h⟩ := h
  cases h
  exact ⟨hentry, ⟨page.1, hpage⟩, hfill⟩

theorem moved_sealRetired (h : Inv s) (key : Key) (gate : Gate) :
    Moved s (sealRetired s key gate).1 ∧ Keeps s (sealRetired s key gate).1 := by
  unfold sealRetired
  split
  · exact h.still
  split
  · exact h.still
  next i entry f fill hfound =>
  obtain ⟨hentry, ⟨key', hpage⟩, hfill⟩ := findRetiring_eq hfound
  split
  · exact h.still
  split
  · exact h.still
  next fill' hseal =>
  refine ⟨moved_setFill h hfill (next_sealForRetirement hseal) fun _ => ?_, keeps_of_entries rfl⟩
  exact alive_iff.mpr (.inl (listed_iff.mpr ⟨i, entry, key', hentry, hpage⟩))

theorem retireSealedStorage_owners (fill : Fill) (released : Bool) :
    (fill.retireSealedStorage released).1.owners = fill.owners := by
  unfold Fill.retireSealedStorage Fill.retireStorage
  split
  · rfl
  split
  · next heq =>
    split at heq
    · cases heq
      rfl
    split at heq
    · cases heq
      rfl
    · cases (Prod.mk.inj heq).2
  next heq =>
  split at heq
  · cases (Prod.mk.inj heq).2
  split at heq
  · cases (Prod.mk.inj heq).2
  cases heq
  rfl

theorem moved_entry (entry' : Entry) (h : Inv s) (hi : s.entries[i]? = some entry) (hpage : entry.page = some (key, f))
    (heq : entry'.page = entry.page ∧ entry'.tracking = entry.tracking ∨ entry'.page = none ∧ entry'.tracking = some f) :
    Moved s (s.setEntry i entry') ∧ Keeps s (s.setEntry i entry') := by
  rcases heq with ⟨hpage', htrack'⟩ | ⟨hpage', htrack'⟩
  · exact moved_flags _ h rfl (shape_set hi (Prod.ext hpage' htrack'))
  · exact moved_track h hi hpage hpage' htrack'

theorem moved_reclaimRetired (h : Inv s) (key : Key) (answers : ReclaimAnswers) :
    Moved s (reclaimRetired s key answers).1 ∧ Keeps s (reclaimRetired s key answers).1 := by
  unfold reclaimRetired
  split
  · exact h.still
  split
  · exact h.still
  next i entry f fill hfound =>
  obtain ⟨hentry, ⟨key', hpage⟩, hfill⟩ := findRetiring_eq hfound
  split
  · exact h.still
  have htracked : ∀ after, after.page = entry.page → after.tracking = entry.tracking →
      let entry' : Entry := if answers.accounted then { after with page := none, tracking := some f } else after
      entry'.page = entry.page ∧ entry'.tracking = entry.tracking ∨ entry'.page = none ∧ entry'.tracking = some f := by
    intro after hafter htrack
    split
    · exact .inr ⟨rfl, rfl⟩
    · exact .inl ⟨hafter, htrack⟩
  simp only
  split
  · exact moved_entry _ h hentry hpage (htracked { entry with metadataDetached := true } rfl rfl)
  split
  · exact moved_entry _ h hentry hpage (.inl ⟨rfl, rfl⟩)
  next released _ =>
  have hretire : Moved s (s.setFill f (fill.retireSealedStorage released).1) := by
    refine moved_setFill h hfill (next_retireSealedStorage fill released) fun hpos => ?_
    exact alive_iff.mpr (.inr ⟨fill, hfill, retireSealedStorage_owners fill released ▸ hpos⟩)
  have hkeeps : Keeps s (s.setFill f (fill.retireSealedStorage released).1) := keeps_of_entries rfl
  split
  · next fill' heq =>
    rw [heq] at hretire hkeeps
    obtain ⟨hmoved, hkeeps'⟩ := moved_entry { entry with metadataDetached := true } hretire.inv hentry hpage
      (.inl ⟨rfl, rfl⟩)
    exact ⟨hretire.trans hmoved, hkeeps.trans hkeeps'⟩
  next fill' heq =>
  rw [heq] at hretire hkeeps
  obtain ⟨hmoved, hkeeps'⟩ := moved_entry _ hretire.inv hentry hpage
    (htracked { entry with metadataDetached := true, reclaimed := true } rfl rfl)
  exact ⟨hretire.trans hmoved, hkeeps.trans hkeeps'⟩

/-! ## Evictions -/

section
variable (h : Inv s) (thread : Nat)
include h thread

theorem moved_evictSelect (quarantined : Bool) (gate : Gate) :
    Moved s (evictSelect s thread quarantined gate) ∧ Keeps s (evictSelect s thread quarantined gate) := by
  unfold evictSelect
  split
  · exact h.still
  simp only
  split
  · exact h.still
  next i _ =>
  split
  · exact h.still
  next key f _ =>
  obtain ⟨hmoved, hkeeps⟩ := moved_flags { s with
    entries := s.entries.modify i fun entry => { entry with retiring := true }
    victimCursor := (i + 1) % s.entries.length
    evictions := Function.update s.evictions thread _ } h rfl
    (shape_modify _ _ _ fun _ => rfl)
  obtain ⟨hretain, hkeeps'⟩ := moved_retain hmoved.inv f
  exact ⟨hmoved.trans hretain, hkeeps.trans hkeeps'⟩

theorem moved_endEviction (eviction : Eviction) :
    Moved s (endEviction s thread eviction) ∧ Keeps s (endEviction s thread eviction) := by
  obtain ⟨hmoved, hkeeps⟩ := moved_flags { s with evictions := Function.update s.evictions thread none } h rfl rfl
  obtain ⟨hrelease, hkeeps'⟩ := moved_release hmoved.inv eviction.selected
  exact ⟨hmoved.trans hrelease, hkeeps.trans hkeeps'⟩

theorem moved_evictSeal (gate : Gate) : Moved s (evictSeal s thread gate) ∧ Keeps s (evictSeal s thread gate) := by
  unfold evictSeal
  split
  · exact h.still
  next eviction _ =>
  split
  · exact h.still
  obtain ⟨hsealed, hkeeps⟩ := moved_sealRetired h eviction.key gate
  split
  · next after heq =>
    rw [heq] at hsealed hkeeps
    obtain ⟨hmoved, hkeeps'⟩ := moved_endEviction hsealed.inv thread eviction
    exact ⟨hsealed.trans hmoved, hkeeps.trans hkeeps'⟩
  next after f heq =>
  rw [heq] at hsealed hkeeps
  let marked : State := { after with
    evictions := Function.update after.evictions thread (some { eviction with wasSealed := true }) }
  obtain ⟨hmoved, hkeeps'⟩ := moved_flags marked hsealed.inv rfl rfl
  exact ⟨hsealed.trans hmoved, hkeeps.trans hkeeps'⟩

theorem moved_evictReclaim (answers : ReclaimAnswers) :
    Moved s (evictReclaim s thread answers) ∧ Keeps s (evictReclaim s thread answers) := by
  unfold evictReclaim
  split
  · exact h.still
  next eviction _ =>
  split
  · exact h.still
  obtain ⟨hreclaimed, hkeeps⟩ := moved_reclaimRetired h eviction.key answers
  obtain ⟨hmoved, hkeeps'⟩ := moved_endEviction hreclaimed.inv thread eviction
  exact ⟨hreclaimed.trans hmoved, hkeeps.trans hkeeps'⟩

end

/-! ## Runs -/

theorem step_moved (h : Inv s) (event : Event) : Moved s (step s event) ∧ Slots s (step s event) := by
  cases event with
  | acquire key answers => exact moved_acquire h key answers
  | begin f acquisition execution event owned valid =>
    rw [step]
    exact And.imp_right Keeps.slots <| moved_onFill h f fun _ _ _ => next_begin
  | planeSubmitted f generation bank key =>
    rw [step]
    exact And.imp_right Keeps.slots <| moved_onFill h f fun _ _ _ => next_planeSubmitted
  | finish f generation error =>
    exact And.imp_right Keeps.slots <| moved_onFill h f fun _ _ _ => next_finish
  | abandonProducer f =>
    rw [step]
    apply And.imp_right Keeps.slots
    apply moved_onFill h f
    intro _ fill fill' heq
    cases heq
    exact next_abandonProducer fill
  | view f =>
    rw [step]
    exact And.imp_right Keeps.slots <| moved_onFill h f fun _ _ _ => next_view
  | readyHandle f =>
    rw [step]
    exact And.imp_right Keeps.slots <| moved_onFill h f fun _ _ _ => next_readyHandle
  | reader f move =>
    unfold step
    simp only
    split
    · exact ⟨Moved.refl h, fun _ _ => .inl⟩
    · next fill hf => exact ⟨moved_reader h hf move, Keeps.slots (keeps_of_entries rfl)⟩
  | retain f => exact And.imp_right Keeps.slots (moved_retain h f)
  | release f => exact And.imp_right Keeps.slots (moved_release h f)
  | retireLookup key gate => exact And.imp_right Keeps.slots (moved_retireLookup h key gate)
  | sealRetired key gate =>
    obtain ⟨hsealed, hkeeps⟩ := moved_sealRetired h key gate
    unfold step
    simp only
    split
    · next after heq =>
      rw [heq] at hsealed hkeeps
      exact ⟨hsealed, hkeeps.slots⟩
    next after f heq =>
    rw [heq] at hsealed hkeeps
    obtain ⟨hretain, hkeeps'⟩ := moved_retain hsealed.inv f
    exact ⟨hsealed.trans hretain, (hkeeps.trans hkeeps').slots⟩
  | reclaimRetired key answers => exact And.imp_right Keeps.slots (moved_reclaimRetired h key answers)
  | evictSelect thread quarantined gate => exact And.imp_right Keeps.slots (moved_evictSelect h thread quarantined gate)
  | evictSeal thread gate => exact And.imp_right Keeps.slots (moved_evictSeal h thread gate)
  | evictReclaim thread answers => exact And.imp_right Keeps.slots (moved_evictReclaim h thread answers)
  | move identity geometry => exact And.imp_right Keeps.slots (moved_flags _ h rfl rfl)

theorem run_moved (events : List Event) : ∀ {s : State}, Inv s → Moved s (run s events) := by
  induction events with
  | nil => exact fun h => Moved.refl h
  | cons event rest ih =>
    intro s h
    have hstep := (step_moved h event).1
    exact hstep.trans (ih hstep.inv)

/-- A cache with nothing in it. -/
def initial (geometry : Nat → Geometry) : State := { geometry }

theorem initial_inv (geometry : Nat → Geometry) : Inv (initial geometry) := by
  have hentries : ∀ (i : Nat) entry, (initial geometry).entries[i]? = some entry → entry = {} := by
    intro i entry hi
    exact eq_of_mem_replicate (mem_of_getElem? hi)
  refine ⟨fun f fill hf => ?_, fun i entry key f hi hpage => ?_, fun i entry f hi htrack => ?_, ?_⟩
  · simp [initial] at hf
  · rw [hentries i entry hi] at hpage
    cases hpage
  · rw [hentries i entry hi] at htrack
    cases htrack
  · intro i j entry entry' key f f' hi _ hpage _
    rw [hentries i entry hi] at hpage
    cases hpage

/-- What the cache promises of a state. -/
structure Safe (s : State) : Prop where
  /-- Entries whose storage is not reclaimed have different keys. -/
  keys : ∀ (i j : Nat) entry entry' key key' f f', s.entries[i]? = some entry → s.entries[j]? = some entry' →
    entry.page = some (key, f) → entry'.page = some (key', f') → i ≠ j → s.same key key' = false
  /-- A fill has one producer. -/
  producers : ∀ (f : Nat) fill, s.fills[f]? = some fill → fill.history.count .produced ≤ 1
  /-- A ready fill began, had each plane submitted once, and was finished without an error. -/
  ready : ∀ (f : Nat) fill, s.fills[f]? = some fill → fill.isReady (s.current fill.key) = true →
    ∃ generation, Publication generation fill.history
  /-- A failed, abandoned or sealed fill is not ready. -/
  closed : ∀ (f : Nat) fill, s.fills[f]? = some fill →
    fill.failed = true ∨ .abandoned ∈ fill.history ∨ fill.sealed = true → fill.isReady (s.current fill.key) = false
  /-- The storage of a fill is retired once at most, sealed, and without readers. -/
  retired : ∀ (f : Nat) fill, s.fills[f]? = some fill → fill.history.countP Mark.isRetired ≤ 1 ∧
    ∀ sealed readers, .retired sealed readers ∈ fill.history → sealed = true ∧ readers = 0

theorem safe_of_inv (h : Inv s) : Safe s where
  keys i j entry entry' key key' f f' hi hj hpage hpage' hij := by
    by_contra hsame
    simp only [State.same, State.current, Bool.not_eq_false, Bool.and_eq_true, beq_iff_eq] at hsame
    obtain ⟨⟨hkey, hkey'⟩, hidentity⟩ := hsame
    have heq : key = key' := by
      cases key
      cases key'
      simp only [Key.mk.injEq] at *
      exact ⟨hidentity, by rw [← hkey, ← hkey', hidentity]⟩
    rw [← heq] at hpage'
    exact hij (h.distinct i j entry entry' key f f' hi hj hpage hpage')
  producers f fill hf := (h.fills f fill hf).past.producers
  ready f fill hf hready := by
    have hpublished : fill.published = true := by
      simp only [Fill.isReady, Bool.and_eq_true] at hready
      exact hready.1.2
    exact ⟨1, ((h.fills f fill hf).published hpublished).2.2.2⟩
  closed f fill hf hclosed := by
    have hok := h.fills f fill hf
    by_contra hready
    simp only [Fill.isReady, Bool.not_eq_false, Bool.and_eq_true, Bool.not_eq_true'] at hready
    obtain ⟨⟨hsealed, hpublished⟩, _⟩ := hready
    have hfailure := (hok.published hpublished).1
    rcases hclosed with hfailed | habandoned | hs
    · simp [Fill.failed, hfailure] at hfailed
    · exact hok.past.abandoned habandoned hfailure
    rw [hs] at hsealed
    cases hsealed
  retired f fill hf := by
    have hpast := (h.fills f fill hf).past
    refine ⟨?_, hpast.retired⟩
    rw [hpast.retirements]
    split <;> simp

/-- What the cache promises of what comes later: a fill that is failed, abandoned or sealed
stays so, and an event gives up only slots whose fill has expired, for good. -/
structure Onward (s : State) : Prop where
  closed : ∀ (f : Nat) fill later, s.fills[f]? = some fill →
    fill.failed = true ∨ .abandoned ∈ fill.history ∨ fill.sealed = true →
    ∃ fill', (run s later).fills[f]? = some fill' ∧ fill'.isReady ((run s later).current fill'.key) = false
  slots : ∀ (i f : Nat) event, s.holds i f → ¬ (step s event).holds i f →
    s.alive f = false ∧ ∀ later, (run s later).alive f = false

theorem onward_of_inv (h : Inv s) : Onward s where
  closed f fill later hf hclosed := by
    have hmoved := run_moved later h
    obtain ⟨fill', hf', hnext⟩ := hmoved.fills f fill hf
    refine ⟨fill', hf', (safe_of_inv hmoved.inv).closed f fill' hf' ?_⟩
    rcases hclosed with hfailed | habandoned | hs
    · exact .inl (by simpa [Fill.failed] using hnext.failed (by simpa [Fill.failed] using hfailed))
    · exact .inr (.inl (hnext.history.subset habandoned))
    · exact .inr (.inr (hnext.sealed hs))
  slots i f event hholds hgone := by
    have hlt : f < s.fills.length := by
      obtain ⟨entry, hi, htrack | ⟨key, hpage⟩⟩ := hholds
      · exact h.tracked i entry f hi htrack
      obtain ⟨_, fill, hfill, _⟩ := h.pages i entry key f hi hpage
      exact lt_of_getElem? hfill
    have hdead : s.alive f = false := ((step_moved h event).2 i f hholds).resolve_left hgone
    exact ⟨hdead, fun later => (run_moved later h).dead f hlt hdead⟩

/-- The device page cache has one producer for a page, and reuses neither storage nor slots
early: in every state of every run, and from it on. -/
theorem device_pages_safe (geometry : Nat → Geometry) (events : List Event) :
    Safe (run (initial geometry) events) ∧ Onward (run (initial geometry) events) := by
  have hinv := (run_moved events (initial_inv geometry)).inv
  exact ⟨safe_of_inv hinv, onward_of_inv hinv⟩

end VoidInfer.Exl3.DevicePages
