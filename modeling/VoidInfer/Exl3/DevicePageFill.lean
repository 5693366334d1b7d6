import Mathlib.Data.Fintype.Prod
import VoidInfer.Exl3.RetirementState

/-
  `Exl3DevicePageFill`: the filling of a device page by one producer, its readers, and the retirement of its storage.
  Every call holds the mutex of the fill, and is one step. Of the external owners only their numbers matter: of the
  fill, of its view (handles), and of copies of its view. The history is a ghost.
-/

namespace VoidInfer.Exl3.DevicePages
open List Option

/-- Where the rows of a page are: the first row, and the backing. -/
structure Geometry where
  first : Int
  backing : Nat
deriving DecidableEq

/-- `Exl3DevicePageKey`: the identity is of the model, the page and the position contract; the
geometry is the one at construction. -/
structure Key where
  identity : Nat
  geometry : Geometry

/-- What happened to a fill. -/
inductive Mark where
  /-- An `Acquisition` with its producer was returned. -/
  | produced
  | began (generation : Nat)
  | plane (generation : Nat) (bank : Fin 16) (key : Bool)
  /-- `finish` was accepted. -/
  | finished (generation : Nat) (error : Int)
  /-- The producer dropped its claim before publication. -/
  | abandoned
  /-- The storage was retired: sealed or not, and with how many readers. -/
  | retired (sealed : Bool) (readers : Nat)
deriving DecidableEq

structure Fill where
  key : Key
  ready : FinalUseWitness := {}
  planes : Finset (Fin 16 × Bool) := ∅
  submitted : Bool := false
  published : Bool := false
  failure : Int := 0
  sealed : Bool := false
  reclaimed : Bool := false
  /-- `Exl3DevicePageStorage::failed`. -/
  storageFailed : Bool := false
  /-- Owners outside the cache. -/
  owners : Nat := 0
  handles : Nat := 0
  views : Nat := 0
  history : List Mark := []

namespace Fill

variable (fill : Fill)

/-- `ready`, where the key is current or not. -/
def isReady (current : Bool) : Bool := !fill.sealed && fill.published && current

def failed : Bool := fill.failure != 0

def abandonedBeforeSubmission : Bool := fill.failed && !fill.submitted

/-- `begin`; the event has an owner or not, and the registration reader is valid (if there is
one) or not. It throws otherwise. -/
def begin (current : Bool) (acquisition execution event : Nat) (owned valid : Bool) : Option Fill :=
  if fill.submitted = true ∨ fill.failed = true ∨ current = false ∨ owned = false ∨ valid = false then none
  else match fill.ready.begin acquisition execution event with
    | .error _ => none
    | .ok ready => some { fill with
        ready, submitted := true, history := .began ready.generation :: fill.history }

def planeSubmitted (current : Bool) (generation : Nat) (bank : Int) (key : Bool) : Option Fill :=
  if h : fill.submitted = false ∨ generation ≠ fill.ready.generation ∨ bank < 0 ∨ 16 ≤ bank ∨ fill.ready.error ≠ 0 ∨
      fill.isReady current = true then none
  else
    let plane : Fin 16 := ⟨bank.toNat, by omega⟩
    if (plane, key) ∈ fill.planes then none
    else some { fill with
      planes := insert (plane, key) fill.planes, history := .plane generation plane key :: fill.history }

/-- `finish`: `none` if it is not accepted. -/
def finish (generation : Nat) (error : Int) : Option Fill :=
  if fill.submitted = false ∨ fill.failed = true ∨ (error = 0 ∧ fill.planes ≠ Finset.univ) then none
  else match fill.ready.finish generation error with
    | none => none
    | some ready =>
      if error ≠ 0 then some { fill with ready, failure := error, history := .finished generation error :: fill.history }
      else some { fill with ready, published := true, history := .finished generation error :: fill.history }

def abandonProducer : Fill :=
  if fill.published then fill
  else { fill with
    ready := if fill.submitted then (fill.ready.finish fill.ready.generation (-1)).getD fill.ready else fill.ready
    failure := if fill.failure = 0 then -1 else fill.failure
    history := .abandoned :: fill.history }

/-- `view`: a copy. -/
def view (current : Bool) : Option Fill :=
  if fill.isReady current then some { fill with views := fill.views + 1 } else none

def readyHandle (current : Bool) : Option Fill :=
  if fill.isReady current then some { fill with handles := fill.handles + 1 } else none

/-- The fill and its own view are the only owners of the storage. -/
def unread : Bool := fill.handles == 0 && fill.views == 0

def sealForRetirement : Option Fill :=
  if fill.sealed = true ∨ (fill.published = false ∧ fill.abandonedBeforeSubmission = false) ∨ fill.unread = false then none
  else some { fill with sealed := true }

/-- `Exl3DevicePageStorage::retire`, where the release succeeds or not: the fill after it, and
the result. -/
def retireStorage (released : Bool) : Fill × Bool :=
  if fill.storageFailed = true ∨ fill.reclaimed = true then (fill, false)
  else if released = false then ({ fill with storageFailed := true }, false)
  else (fill, true)

def retireSealedStorage (released : Bool) : Fill × Bool :=
  if fill.sealed = false ∨ fill.reclaimed = true ∨ fill.unread = false then (fill, false)
  else match fill.retireStorage released with
    | (after, false) => (after, false)
    | (after, true) =>
      ({ after with
        reclaimed := true, history := .retired after.sealed (after.handles + after.views) :: after.history }, true)

/-! ## The owners of views -/

/-- A reader copies what it holds, or drops it. -/
inductive ReaderStep where
  | copyView
  | copyHandle
  | dropView
  | dropHandle

def readerStep : ReaderStep → Option Fill
  | .copyView => if 0 < fill.views + fill.handles then some { fill with views := fill.views + 1 } else none
  | .copyHandle => if 0 < fill.handles then some { fill with handles := fill.handles + 1 } else none
  | .dropView => if 0 < fill.views then some { fill with views := fill.views - 1 } else none
  | .dropHandle => if 0 < fill.handles then some { fill with handles := fill.handles - 1 } else none

end Fill

/-! ## One fill -/

/-- The history of a submission: the planes so far, each once. -/
structure Submission (ready : FinalUseWitness) (planes : Finset (Fin 16 × Bool)) (history : List Mark) : Prop where
  generation : ready.generation = 1
  began : history.count (.began 1) = 1
  planes : ∀ bank key, history.count (.plane 1 bank key) = if (bank, key) ∈ planes then 1 else 0

/-- A publication: the submission began, and had every plane once, before `finish`. -/
structure Publication (generation : Nat) (history : List Mark) : Prop where
  finished : ∃ later earlier, history = later ++ .finished generation 0 :: earlier ∧ .began generation ∈ earlier ∧
    ∀ bank key, .plane generation bank key ∈ earlier
  began : history.count (.began generation) = 1
  planes : ∀ bank key, history.count (.plane generation bank key) = 1

def Mark.isRetired : Mark → Bool
  | .retired _ _ => true
  | _ => false

/-- A mark of the submission. -/
def Mark.isSubmission : Mark → Bool
  | .began _ | .plane _ _ _ | .finished _ _ => true
  | _ => false

/-- What a history says of producers and retirements. -/
structure Past (history : List Mark) (failure : Int) (reclaimed : Bool) : Prop where
  producers : history.count .produced ≤ 1
  abandoned : .abandoned ∈ history → failure ≠ 0
  retired : ∀ sealed readers, .retired sealed readers ∈ history → sealed = true ∧ readers = 0
  retirements : history.countP Mark.isRetired = if reclaimed then 1 else 0

/-- What holds of every fill. -/
structure FillOk (fill : Fill) : Prop where
  past : Past fill.history fill.failure fill.reclaimed
  idle : fill.submitted = false → fill.ready = {} ∧ fill.planes = ∅ ∧ fill.published = false ∧
    ∀ mark ∈ fill.history, mark.isSubmission = false
  submission : fill.submitted = true → Submission fill.ready fill.planes fill.history
  published : fill.published = true → fill.failure = 0 ∧ fill.planes = Finset.univ ∧ fill.ready.ready = true ∧
    Publication 1 fill.history
  closed : fill.sealed = true → fill.handles = 0 ∧ fill.views = 0

/-- What a call does to a fill. -/
structure Next (fill fill' : Fill) : Prop where
  ok : FillOk fill → FillOk fill'
  key : fill'.key = fill.key
  failed : fill.failure ≠ 0 → fill'.failure ≠ 0
  sealed : fill.sealed = true → fill'.sealed = true
  history : fill.history <:+ fill'.history

theorem Next.refl (fill : Fill) : Next fill fill := ⟨id, rfl, id, id, suffix_refl _⟩

theorem Next.trans {a b c : Fill} (h : Next a b) (h' : Next b c) : Next a c :=
  ⟨h'.ok ∘ h.ok, h'.key.trans h.key, h'.failed ∘ h.failed, h'.sealed ∘ h.sealed, h.history.trans h'.history⟩

variable {fill fill' : Fill}

theorem next_readers {owners handles views : Nat} (h : FillOk fill → fill.sealed = true → handles = 0 ∧ views = 0) :
    Next fill { fill with owners, handles, views } where
  ok hok := ⟨hok.past, hok.idle, hok.submission, hok.published, h hok⟩
  key := rfl
  failed := id
  sealed := id
  history := suffix_refl _

theorem next_owners (fill : Fill) (owners : Nat) : Next fill { fill with owners } :=
  next_readers fun hok hs => hok.closed hs

variable {current : Bool} {generation : Nat}

theorem next_view (h : fill.view current = some fill') : Next fill fill' := by
  unfold Fill.view at h
  split at h
  · next hready =>
    cases h
    refine next_readers fun _ hs => ?_
    simp [Fill.isReady, hs] at hready
  · cases h

theorem next_readyHandle (h : fill.readyHandle current = some fill') : Next fill fill' := by
  unfold Fill.readyHandle at h
  split at h
  · next hready =>
    cases h
    refine next_readers fun _ hs => ?_
    simp [Fill.isReady, hs] at hready
  · cases h

theorem next_readerStep {move : Fill.ReaderStep} (h : fill.readerStep move = some fill') : Next fill fill' := by
  cases move
  all_goals
    simp only [Fill.readerStep] at h
    split at h
    · next hheld =>
      cases h
      refine next_readers fun hok hs => ?_
      have := hok.closed hs
      omega
    · cases h

/-! ## The producer -/

section Histories

variable {history : List Mark} {mark : Mark} {failure failure' : Int} {reclaimed : Bool}

theorem Past.submission (h : Past history failure reclaimed) (hmark : mark.isSubmission = true)
    (hfailure : failure ≠ 0 → failure' ≠ 0) : Past (mark :: history) failure' reclaimed := by
  have hproduced : mark ≠ .produced := fun heq => by simp [heq, Mark.isSubmission] at hmark
  refine ⟨?_, fun hmem => ?_, fun sealed readers hmem => ?_, ?_⟩
  · rw [count_cons_of_ne hproduced]
    exact h.producers
  · rcases mem_cons.mp hmem with rfl | hmem
    · cases hmark
    · exact hfailure (h.abandoned hmem)
  · rcases mem_cons.mp hmem with rfl | hmem
    · cases hmark
    · exact h.retired sealed readers hmem
  · rw [countP_cons_of_neg, h.retirements]
    cases mark <;> simp_all [Mark.isSubmission, Mark.isRetired]

variable {ready : FinalUseWitness}

variable {planes : Finset (Fin 16 × Bool)}

theorem Submission.cons {ready' : FinalUseWitness}
    (h : Submission ready planes history) (hready : ready'.generation = ready.generation) (hbegan : mark ≠ .began 1)
    (hplane : ∀ bank key, mark ≠ .plane 1 bank key) : Submission ready' planes (mark :: history) := by
  refine ⟨hready.trans h.generation, ?_, fun bank key => ?_⟩
  · rw [count_cons_of_ne hbegan, h.began]
  · rw [count_cons_of_ne (hplane bank key), h.planes]

theorem Submission.plane {bank : Fin 16} {key : Bool}
    (h : Submission ready planes history) (hnew : (bank, key) ∉ planes) :
    Submission ready (insert (bank, key) planes) (.plane 1 bank key :: history) := by
  refine ⟨h.generation, ?_, fun bank' key' => ?_⟩
  · rw [count_cons_of_ne (by simp), h.began]
  · by_cases heq : (bank', key') = (bank, key)
    · cases heq
      rw [count_cons_self, h.planes, if_neg hnew, if_pos (Finset.mem_insert_self _ _)]
    · have hne : Mark.plane 1 bank key ≠ .plane 1 bank' key' := fun h' => by
        cases h'
        exact heq rfl
      rw [count_cons_of_ne hne, h.planes]
      simp [Finset.mem_insert, heq]

theorem Publication.cons {generation : Nat} (h : Publication generation history) (hbegan : mark ≠ .began generation)
    (hplane : ∀ bank key, mark ≠ .plane generation bank key) : Publication generation (mark :: history) := by
  obtain ⟨later, earlier, heq, hbegins, hplanes⟩ := h.finished
  refine ⟨⟨mark :: later, earlier, by rw [heq, cons_append], hbegins, hplanes⟩, ?_, fun bank key => ?_⟩
  · rw [count_cons_of_ne hbegan, h.began]
  · rw [count_cons_of_ne (hplane bank key), h.planes]

theorem Submission.publication (h : Submission ready Finset.univ history) :
    Publication 1 (.finished 1 0 :: history) := by
  have hplanes : ∀ bank key, history.count (.plane 1 bank key) = 1 := fun bank key => by simp [h.planes]
  refine ⟨⟨[], history, rfl, ?_, fun bank key => ?_⟩, ?_, fun bank key => ?_⟩
  · exact count_pos_iff.mp (by rw [h.began]; exact Nat.one_pos)
  · exact count_pos_iff.mp (by rw [hplanes]; exact Nat.one_pos)
  · rw [count_cons_of_ne (by simp), h.began]
  · rw [count_cons_of_ne (by simp), hplanes]

end Histories

variable {w w' : FinalUseWitness} {acquisition event execution : Nat} {error : Int}

theorem begin_generation (h : w.begin acquisition execution event = .ok w') : w'.generation = w.generation + 1 := by
  obtain ⟨_, _, h⟩ := bind_ok h
  cases h
  rfl

theorem finish_witness (h : w.finish generation error = some w') :
    generation = w.generation ∧ w'.generation = w.generation ∧ w.ready = false ∧ (error = 0 → w'.ready = true) := by
  unfold FinalUseWitness.finish at h
  split at h
  · cases h
  next hguard =>
  push Not at hguard
  obtain ⟨hgeneration, _, hready, _⟩ := hguard
  split at h
  · next herror =>
    cases h
    exact ⟨hgeneration, rfl, by simpa using hready, fun hzero => absurd hzero herror⟩
  cases h
  exact ⟨hgeneration, rfl, by simpa using hready, fun _ => rfl⟩

theorem next_begin {owned valid : Bool}
    (h : fill.begin current acquisition execution event owned valid = some fill') : Next fill fill' := by
  unfold Fill.begin at h
  split at h
  · cases h
  next hguard =>
  split at h
  · cases h
  next ready hready =>
  cases h
  have hsubmitted : fill.submitted = false := by
    by_contra hs
    exact hguard (.inl (by simpa using hs))
  refine ⟨fun hok => ?_, rfl, id, id, suffix_cons _ _⟩
  obtain ⟨hidle, hplanes, hpublished, hmarks⟩ := hok.idle hsubmitted
  have hone : ready.generation = 1 := by
    rw [begin_generation hready, hidle]
  have hnone : ∀ mark, mark.isSubmission = true → fill.history.count mark = 0 := fun mark hmark =>
    count_eq_zero_of_not_mem fun hmem => by simp [hmarks mark hmem] at hmark
  refine ⟨hok.past.submission rfl id, fun hs => by simp at hs, fun _ => ⟨hone, ?_, fun bank key => ?_⟩, ?_, hok.closed⟩
  · rw [hone, count_cons_self, hnone _ rfl]
  · rw [count_cons_of_ne (by simp), hnone _ rfl]
    simp [hplanes]
  · intro hs
    rw [hpublished] at hs
    cases hs

theorem next_planeSubmitted {key : Bool} {bank : Int}
    (h : fill.planeSubmitted current generation bank key = some fill') : Next fill fill' := by
  unfold Fill.planeSubmitted at h
  split at h
  · cases h
  next hguard =>
  simp only at h
  split at h
  · cases h
  next hnew =>
  cases h
  refine ⟨fun hok => ?_, rfl, id, id, suffix_cons _ _⟩
  push Not at hguard
  obtain ⟨hsubmitted, hgeneration, _⟩ := hguard
  have hsub := hok.submission (by simpa using hsubmitted)
  obtain rfl : generation = 1 := hgeneration.trans hsub.generation
  refine ⟨hok.past.submission rfl id, fun hs => absurd hs hsubmitted, fun _ => hsub.plane hnew, fun hs => ?_,
    hok.closed⟩
  rw [(hok.published hs).2.1] at hnew
  exact absurd (Finset.mem_univ _) hnew

theorem next_finish (h : fill.finish generation error = some fill') : Next fill fill' := by
  unfold Fill.finish at h
  split at h
  · cases h
  next hguard =>
  push Not at hguard
  obtain ⟨hsubmitted, hfailed, hplanes⟩ := hguard
  split at h
  · cases h
  next ready hready =>
  obtain ⟨hgeneration, hsame, hopen, hdone⟩ := finish_witness hready
  split at h
  · next herror =>
    cases h
    refine ⟨fun hok => ?_, rfl, fun _ => herror, id, suffix_cons _ _⟩
    have hsub := hok.submission (by simpa using hsubmitted)
    refine ⟨hok.past.submission rfl fun _ => herror, fun hs => absurd hs hsubmitted,
      fun _ => hsub.cons hsame (by simp) (by simp), fun hs => ?_, hok.closed⟩
    have hready := (hok.published hs).2.2.1
    rw [hopen] at hready
    cases hready
  next herror =>
  cases h
  refine ⟨fun hok => ?_, rfl, id, id, suffix_cons _ _⟩
  have hzero : error = 0 := by simpa using herror
  have hsub := hok.submission (by simpa using hsubmitted)
  have hfailure : fill.failure = 0 := by simpa [Fill.failed] using hfailed
  have hall := hplanes hzero
  refine ⟨hok.past.submission rfl id, fun hs => absurd hs hsubmitted,
    fun _ => hsub.cons hsame (by simp) (by simp), fun _ => ⟨hfailure, hall, hdone hzero, ?_⟩, hok.closed⟩
  rw [hall] at hsub
  rw [hzero, hgeneration, hsub.generation]
  exact hsub.publication

theorem next_abandonProducer (fill : Fill) : Next fill fill.abandonProducer := by
  unfold Fill.abandonProducer
  split
  · exact Next.refl fill
  next hpublished =>
  have hfailure : (if fill.failure = 0 then (-1 : Int) else fill.failure) ≠ 0 := by
    split
    · simp
    · assumption
  refine ⟨fun hok => ?_, rfl, fun _ => hfailure, id, suffix_cons _ _⟩
  refine ⟨⟨?_, fun _ => hfailure, ?_, ?_⟩, fun hs => ?_, fun hs => ?_, fun hs => absurd hs hpublished, hok.closed⟩
  · exact hok.past.producers
  · intro sealed readers hmem
    exact hok.past.retired sealed readers (by simpa using hmem)
  · exact hok.past.retirements
  · have hs : fill.submitted = false := hs
    obtain ⟨hready, hplanes, hnot, hmarks⟩ := hok.idle hs
    refine ⟨by simp [hs, hready], hplanes, hnot, fun mark hmem => ?_⟩
    rcases mem_cons.mp hmem with rfl | hmem
    · rfl
    · exact hmarks mark hmem
  · refine (hok.submission hs).cons ?_ (by simp) (by simp)
    rw [hs, if_pos rfl]
    cases hfinish : fill.ready.finish fill.ready.generation (-1) with
    | none => rfl
    | some ready => exact (finish_witness hfinish).2.1

/-! ## Retirement -/

theorem unread_iff : fill.unread = true ↔ fill.handles = 0 ∧ fill.views = 0 := by
  simp [Fill.unread]

theorem next_sealForRetirement (h : fill.sealForRetirement = some fill') : Next fill fill' := by
  unfold Fill.sealForRetirement at h
  split at h
  · cases h
  next hguard =>
  push Not at hguard
  have hunread : fill.unread = true := by simpa using hguard.2.2
  cases h
  refine ⟨fun hok => ?_, rfl, id, fun _ => rfl, suffix_refl _⟩
  exact ⟨hok.past, hok.idle, hok.submission, hok.published, fun _ => unread_iff.mp hunread⟩

theorem next_retireSealedStorage (fill : Fill) (released : Bool) : Next fill (fill.retireSealedStorage released).1 := by
  unfold Fill.retireSealedStorage
  split
  · exact Next.refl fill
  next hguard =>
  push Not at hguard
  obtain ⟨hsealed, hreclaimed, hunread⟩ := hguard
  have hsealed : fill.sealed = true := by simpa using hsealed
  have hunread := unread_iff.mp (by simpa using hunread)
  unfold Fill.retireStorage
  split
  · next heq =>
    split at heq
    · cases heq
      exact Next.refl fill
    split at heq
    · cases heq
      exact ⟨fun hok => ⟨hok.past, hok.idle, hok.submission, hok.published, hok.closed⟩, rfl, id, id, suffix_refl _⟩
    · cases (Prod.mk.inj heq).2
  next heq =>
  split at heq
  · cases (Prod.mk.inj heq).2
  split at heq
  · cases (Prod.mk.inj heq).2
  cases heq
  refine ⟨fun hok => ?_, rfl, id, id, suffix_cons _ _⟩
  refine ⟨⟨?_, ?_, ?_, ?_⟩, ?_, ?_, ?_, hok.closed⟩
  · exact hok.past.producers
  · intro hmem
    exact hok.past.abandoned (by simpa using hmem)
  · intro sealed readers hmem
    rcases mem_cons.mp hmem with heq | hmem
    · cases heq
      exact ⟨hsealed, by simp [hunread]⟩
    · exact hok.past.retired sealed readers hmem
  · rw [countP_cons_of_pos rfl, hok.past.retirements, if_neg hreclaimed]
    rfl
  · intro hs
    obtain ⟨hready, hplanes, hnot, hmarks⟩ := hok.idle hs
    refine ⟨hready, hplanes, hnot, fun mark hmem => ?_⟩
    rcases mem_cons.mp hmem with rfl | hmem
    · rfl
    · exact hmarks mark hmem
  · exact fun hs => (hok.submission hs).cons rfl (by simp) (by simp)
  · intro hs
    obtain ⟨hfailure, hall, hready, hpublication⟩ := hok.published hs
    exact ⟨hfailure, hall, hready, hpublication.cons (by simp) (by simp)⟩

end VoidInfer.Exl3.DevicePages
