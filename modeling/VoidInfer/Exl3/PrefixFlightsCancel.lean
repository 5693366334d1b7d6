import VoidInfer.Exl3.PrefixFlightsRun

/-
  Cancellation in a shared preparation. A producer whose progress callback has thrown gives up when it reads no waiters,
  and takes its flight out of the registry only afterwards: a caller that joins in between receives the producer's
  exception. Where no caller does, a callback's exception stays with its owner.
-/

namespace VoidInfer.Exl3.PrefixFlights
open List Option ListUpdate

open PrefixCache

variable {account : List PrefixCache.Entry → Except Exn StorageStats} {s s' : Service} {event : Event}

/-- The producer of the flight has given up for its own callback. -/
def abandoned (s : Service) (f : Nat) : Bool :=
  s.callers.any fun caller =>
    match caller.phase with
    | .unwinding g (.callback _ _) => g == f
    | _ => false

/-- The event is a caller that joins such a flight. -/
def joinsAbandoned (s : Service) : Event → Bool
  | .enter c => (s.callers[c]?).any fun caller => (joins s caller).any (abandoned s)
  | _ => false

/-- The event is an admission of a flight's root that throws. -/
def admissionThrows (account : List PrefixCache.Entry → Except Exn StorageStats) (s : Service) : Event → Bool
  | .settle c byteBudget available reserve => (s.callers[c]?).any fun caller =>
    match caller.phase with
    | .built _ _ root =>
      match (admission account s caller root byteBudget available reserve).2 with
      | some (.index _) => true
      | _ => false
    | _ => false
  | _ => false

theorem abandoned_of_unwinding {c f owner : Nat} {caller : Caller} {exn : Exn} (hc : s.callers[c]? = some caller)
    (hphase : caller.phase = .unwinding f (.callback owner exn)) : abandoned s f = true := by
  unfold abandoned
  rw [List.any_eq_true]
  exact ⟨caller, mem_of_getElem? hc, by simp [hphase]⟩

/-! ## Callbacks' exceptions stay with their owners -/

structure Isolated (s : Service) : Prop where
  /-- What a caller has to throw, or has thrown, is its own. -/
  pending : ∀ (c : Nat) (caller : Caller) (e : Failure), s.callers[c]? = some caller →
    caller.phase.failure = some e → Mine c e
  threw : ∀ (c : Nat) (caller : Caller) (e : Failure), s.callers[c]? = some caller →
    caller.phase.outcome = some (.threw e) → Mine c e
  /-- A flight that failed for a callback has no waiters, -/
  quiet : ∀ (f : Nat) (flight : PrefixPreparation) (owner : Nat) (exn : Exn), s.flights[f]? = some flight →
    flight.failure = some (.callback owner exn) → flight.waiters = 0
  /-- nor has one that is about to. -/
  abandoned : ∀ (c : Nat) (caller : Caller) (f owner : Nat) (exn : Exn) (flight : PrefixPreparation),
    s.callers[c]? = some caller → caller.phase = .unwinding f (.callback owner exn) →
    s.flights[f]? = some flight → flight.done = false → flight.waiters = 0

namespace Isolated

theorem callers_set (hi : Isolated s) {c : Nat} {caller : Caller} {phase : Phase} (hc : s.callers[c]? = some caller)
    (hpending : ∀ e, phase.failure = some e → Mine c e) (hthrew : ∀ e, phase.outcome = some (.threw e) → Mine c e)
    (i : Nat) (x : Caller) (hx : (s.callers.set c { caller with phase })[i]? = some x) :
    (∀ e, x.phase.failure = some e → Mine i e) ∧ ∀ e, x.phase.outcome = some (.threw e) → Mine i e := by
  rcases getElem?_set_cases hx with ⟨rfl, rfl⟩ | ⟨-, hx⟩
  · exact ⟨hpending, hthrew⟩
  · exact ⟨fun e => hi.pending i x e hx, fun e => hi.threw i x e hx⟩

theorem next_callers (h : Consistent s) (hi : Isolated s) (hnext : Next account s event s') (i : Nat) (x : Caller)
    (hx : s'.callers[i]? = some x) :
    (∀ e, x.phase.failure = some e → Mine i e) ∧ ∀ e, x.phase.outcome = some (.threw e) → Mine i e := by
  cases hnext with
  | spawned hstart =>
    rw [getElem?_append] at hx
    split at hx
    · exact ⟨fun e => hi.pending i x e hx, fun e => hi.threw i x e hx⟩
    obtain rfl := mem_singleton.mp (mem_of_getElem? hx)
    exact ⟨by simp [hstart, Phase.failure], by simp [hstart, Phase.outcome]⟩
  | changed => exact ⟨fun e => hi.pending i x e hx, fun e => hi.threw i x e hx⟩
  | @moved c caller phase _ _ _ m =>
    refine hi.callers_set m.callerAt ?_ m.threw i x hx
    intro e he
    cases m.cause e he with
    | pending hpending => exact hi.pending c caller e m.callerAt hpending
    | callback exn => exact fun owner exn' heq => (Failure.callback.inj heq).1.symm
    | _ => simp [Mine]
  | joined _ _ hc => exact hi.callers_set hc (by simp [Phase.failure]) (by simp [Phase.outcome]) i x hx
  | registered _ hc => exact hi.callers_set hc (by simp [Phase.failure]) (by simp [Phase.outcome]) i x hx
  | @decided c f caller flight outcome hc hwaits hf hdecision =>
    refine hi.callers_set hc (by simp [Phase.failure]) ?_ i x hx
    intro e he
    cases he
    cases hdecision with
    | cancelled exn => exact fun owner exn' heq => (Failure.callback.inj heq).1.symm
    | reloaded => simp [Mine]
    | failed hfailure =>
      -- the caller is a waiter itself
      rintro owner exn rfl
      exact absurd (hi.quiet f flight owner exn hf hfailure) (h.awaited hf hc hwaits)
  | @succeeded c f caller flight callback root phase _ _ _ hc hphase hf _ hnext =>
    rw [callers_complete] at hx
    refine hi.callers_set hc ?_ ?_ i x hx
    · intro e he
      rcases hnext with ⟨-, rfl⟩ | ⟨failure, rfl, rfl⟩
      · simp [Phase.failure] at he
      · exact hi.pending c caller e hc (by rw [hphase]; exact he)
    intro e he
    rcases hnext with ⟨-, rfl⟩ | ⟨failure, rfl, rfl⟩
    · simp [Phase.outcome] at he
    · simp [Phase.outcome] at he
  | @failed c f caller flight failure hc hphase =>
    rw [callers_complete] at hx
    refine hi.callers_set hc (by simp [Phase.failure]) ?_ i x hx
    intro e he
    obtain rfl : failure = e := by simpa [Phase.outcome] using he
    exact hi.pending c caller failure hc (by rw [hphase]; rfl)
  | @ended c f caller flight failure hc hphase =>
    refine hi.callers_set hc (by simp [Phase.failure]) ?_ i x hx
    intro e he
    obtain rfl : failure = e := by simpa [Phase.outcome] using he
    exact hi.pending c caller failure hc (by rw [hphase]; rfl)
  | @left c f caller flight outcome hc hphase =>
    refine hi.callers_set hc (by simp [Phase.failure]) ?_ i x hx
    intro e he
    exact hi.threw c caller e hc (by rw [hphase]; exact he)

theorem flights_set (hi : Isolated s) {f : Nat} {flight flight' : PrefixPreparation}
    (hf : s.flights[f]? = some flight)
    (hquiet : ∀ owner exn, flight'.failure = some (.callback owner exn) → flight'.waiters = 0)
    (g : Nat) (other : PrefixPreparation) (owner : Nat) (exn : Exn)
    (hg : (s.flights.set f flight')[g]? = some other) (hfailure : other.failure = some (.callback owner exn)) :
    other.waiters = 0 := by
  rcases getElem?_set_cases hg with ⟨rfl, rfl⟩ | ⟨-, hg⟩
  · exact hquiet owner exn hfailure
  · exact hi.quiet g other owner exn hg hfailure

section
variable (h : Consistent s) (hi : Isolated s) (hnext : Next account s event s')
include h hi hnext

theorem next_quiet (g : Nat) (other : PrefixPreparation) (owner : Nat) (exn : Exn) (hg : s'.flights[g]? = some other)
    (hfailure : other.failure = some (.callback owner exn)) : other.waiters = 0 := by
  cases hnext with
  | spawned => exact hi.quiet g other owner exn hg hfailure
  | changed => exact hi.quiet g other owner exn hg hfailure
  | moved => exact hi.quiet g other owner exn hg hfailure
  | @joined c f caller flight _ _ _ _ _ hjoins hf =>
    obtain ⟨_, hreg, hnot, -⟩ := h.registered f (matching_some (joins_matching hjoins)).1
    obtain rfl := mem_unique hf hreg
    refine hi.flights_set hf ?_ g other owner exn hg hfailure
    intro owner' exn' hcallback
    simp [((h.results f flight hf).blank hnot).2] at hcallback
  | @registered c slot f caller flights flight _ _ _ _ _ _ hflights hf hidle =>
    have hblank : (claimed flight caller).failure = none := by
      rcases hflights with ⟨-, rfl⟩ | ⟨-, rfl⟩
      · have hr := h.results f flight hf
        exact (hr.blank (hr.idle hidle)).2
      have hr := h.grown.results f flight hf
      exact (hr.blank (hr.idle hidle)).2
    rcases getElem?_set_cases hg with ⟨rfl, rfl⟩ | ⟨-, hg⟩
    · simp [hblank] at hfailure
    rcases hflights with ⟨-, rfl⟩ | ⟨-, rfl⟩
    · exact hi.quiet g other owner exn hg hfailure
    rw [getElem?_append] at hg
    split at hg
    · exact hi.quiet g other owner exn hg hfailure
    obtain rfl := mem_singleton.mp (mem_of_getElem? hg)
    rfl
  | @decided c f caller flight _ _ _ hf _ =>
    refine hi.flights_set hf ?_ g other owner exn hg hfailure
    intro owner' exn' hcallback
    have hzero := hi.quiet f flight owner' exn' hf hcallback
    simp [hzero]
  | @succeeded c f caller flight callback root _ _ _ _ hc hphase hf _ _ =>
    obtain ⟨_, hsame, -, -, hdone⟩ := h.producers c caller f hc (by rw [hphase]; rfl)
    obtain rfl := mem_unique hf hsame
    have hnone : flight.failure = none := by
      refine ((h.results f flight hf).blank ?_).2
      by_contra hd
      obtain ⟨failure, hunwinding⟩ := hdone (by simpa using hd)
      simp [hphase] at hunwinding
    rw [setPhase, complete, clearSlot_flights] at hg
    refine hi.flights_set hf ?_ g other owner exn hg hfailure
    intro owner' exn' hcallback
    simp [hnone] at hcallback
  | @failed c f caller flight failure hc hphase hf hnot =>
    rw [setPhase, complete, clearSlot_flights] at hg
    refine hi.flights_set hf ?_ g other owner exn hg hfailure
    intro owner' exn' hcallback
    cases hcallback
    exact hi.abandoned c caller f owner' exn' flight hc hphase hf hnot
  | ended => exact hi.quiet g other owner exn hg hfailure
  | @left c f caller flight _ _ _ hf =>
    refine hi.flights_set hf ?_ g other owner exn hg hfailure
    unfold depart
    split
    · simp
    · exact fun owner' exn' hcallback => hi.quiet f flight owner' exn' hf hcallback

/-- A producer that is about to fail keeps its flight without waiters, when its flight stays as it is. -/
theorem next_abandoned (hjoin : joinsAbandoned s event = false) (i : Nat) (x : Caller) (g owner : Nat) (exn : Exn)
    (other : PrefixPreparation) (hx : s'.callers[i]? = some x) (hphase : x.phase = .unwinding g (.callback owner exn))
    (hg : s'.flights[g]? = some other) (hnot : other.done = false) : other.waiters = 0 := by
  -- in most cases the caller is another one than the one that moves
  have hstay : ∀ {c : Nat} {caller : Caller} {phase : Phase}, s.callers[c]? = some caller →
      phase.produces = none → (s.callers.set c { caller with phase })[i]? = some x → i ≠ c ∧ s.callers[i]? = some x := by
    intro c caller phase hc hnone hset
    rcases getElem?_set_cases hset with ⟨-, rfl⟩ | hx
    · rw [show phase = _ from hphase] at hnone
      simp [Phase.produces] at hnone
    · exact hx
  have hkept : s.callers[i]? = some x → s.flights[g]? = some other → other.waiters = 0 :=
    fun hold hg => hi.abandoned i x g owner exn other hold hphase hg hnot
  have hproduces : x.phase.produces = some g := by rw [hphase]; rfl
  cases hnext with
  | spawned hstart =>
    rw [getElem?_append] at hx
    split at hx
    · exact hkept hx hg
    obtain rfl := mem_singleton.mp (mem_of_getElem? hx)
    simp [hstart] at hphase
  | changed => exact hkept hx hg
  | moved _ m =>
    rcases getElem?_set_cases hx with ⟨-, rfl⟩ | ⟨-, hx⟩
    · obtain ⟨_, hsame, hzero⟩ := m.quiet g owner exn hphase
      obtain rfl := mem_unique hg hsame
      exact hzero
    · exact hkept hx hg
  | @joined c f caller flight _ _ hevent hc _ hjoins hf =>
    obtain ⟨-, hold⟩ := hstay hc (by rfl) hx
    rcases getElem?_set_cases hg with ⟨rfl, rfl⟩ | ⟨-, hg⟩
    · subst hevent
      simp [joinsAbandoned, hc, hjoins, abandoned_of_unwinding hold hphase] at hjoin
    · exact hkept hold hg
  | @registered c slot f caller flights flight _ _ hc _ _ _ hflights hf hidle =>
    have hold : s.callers[i]? = some x := by
      rcases getElem?_set_cases hx with ⟨-, rfl⟩ | ⟨-, hx⟩
      · simp at hphase
      · exact hx
    obtain ⟨_, hown, -⟩ := h.producers i x g hold hproduces
    rcases hflights with ⟨-, rfl⟩ | ⟨rfl, rfl⟩
    · rcases getElem?_set_cases hg with ⟨rfl, rfl⟩ | ⟨-, hg⟩
      · exact absurd (Phase.flight_of_produces hproduces) (h.unheld hf hidle hold)
      · exact hkept hold hg
    have hlt := lt_of_getElem? hown
    have hg : ((s.flights ++ [({} : PrefixPreparation)]).set s.flights.length (claimed flight caller))[g]? =
        some other := hg
    rw [getElem?_set_ne (by omega), getElem?_append_left hlt] at hg
    exact hkept hold hg
  | @decided c f caller flight _ hc _ hf _ =>
    obtain ⟨-, hold⟩ := hstay hc (by rfl) hx
    rcases getElem?_set_cases hg with ⟨rfl, rfl⟩ | ⟨-, hg⟩
    · have hzero := hi.abandoned i x g owner exn flight hold hphase hf hnot
      simp [hzero]
    · exact hkept hold hg
  | @succeeded c f caller flight callback root phase _ _ _ hc hphase' hf _ hphases =>
    rw [callers_complete] at hx
    rw [setPhase, complete, clearSlot_flights] at hg
    rcases getElem?_set_cases hg with ⟨rfl, rfl⟩ | ⟨hgf, hg⟩
    · simp at hnot
    rcases getElem?_set_cases hx with ⟨-, rfl⟩ | ⟨-, hold⟩
    · rcases hphases with ⟨-, rfl⟩ | ⟨failure, -, rfl⟩
      · simp at hphase
      · exact absurd (Phase.unwinding.inj hphase).1.symm hgf
    · exact hkept hold hg
  | @failed c f caller flight failure hc hphase' hf _ =>
    rw [callers_complete] at hx
    rw [setPhase, complete, clearSlot_flights] at hg
    obtain ⟨-, hold⟩ := hstay hc (by rfl) hx
    rcases getElem?_set_cases hg with ⟨rfl, rfl⟩ | ⟨-, hg⟩
    · simp at hnot
    · exact hkept hold hg
  | ended hc =>
    obtain ⟨-, hold⟩ := hstay hc (by rfl) hx
    exact hkept hold hg
  | @left c f caller flight _ hc hphase' hf =>
    obtain ⟨hic, hold⟩ := hstay hc (by rfl) hx
    rcases getElem?_set_cases hg with ⟨rfl, rfl⟩ | ⟨-, hg⟩
    · have hheld : caller.phase.flight = some g := by rw [hphase']; rfl
      rw [h.depart_shared hc hheld hf hic hold (Phase.flight_of_produces hproduces)] at hnot ⊢
      exact hi.abandoned i x g owner exn flight hold hphase hf hnot
    · exact hkept hold hg

theorem next (hjoin : joinsAbandoned s event = false) : Isolated s' where
  pending i x e hx := (next_callers h hi hnext i x hx).1 e
  threw i x e hx := (next_callers h hi hnext i x hx).2 e
  quiet := next_quiet h hi hnext
  abandoned := next_abandoned h hi hnext hjoin

end

end Isolated

/-! ## Why a flight fails -/

/-- A callback threw, the build failed, or the epoch changed. -/
def Named (failure : Failure) : Prop :=
  (∃ owner exn, failure = .callback owner exn) ∨ (∃ exn, failure = .build exn) ∨ failure = .epochChanged

/-- Without a throwing admission, flights fail for nothing else. -/
structure Announced (s : Service) : Prop where
  pending : ∀ (c : Nat) (caller : Caller) (e : Failure), s.callers[c]? = some caller →
    caller.phase.failure = some e → Named e
  failed : ∀ (f : Nat) (flight : PrefixPreparation) (e : Failure), s.flights[f]? = some flight →
    flight.failure = some e → Named e

namespace Announced

section
variable (ha : Announced s) (hnext : Next account s event s')
include ha hnext

theorem next_pending (hadmission : admissionThrows account s event = false) (i : Nat) (x : Caller)
    (e : Failure) (hx : s'.callers[i]? = some x) (he : x.phase.failure = some e) : Named e := by
  have hset : ∀ {c : Nat} {caller : Caller} {phase : Phase}, s.callers[c]? = some caller →
      (s.callers.set c { caller with phase })[i]? = some x → (phase.failure = some e → Named e) → Named e := by
    intro c caller phase hc hset hphase
    rcases getElem?_set_cases hset with ⟨-, rfl⟩ | ⟨-, hx⟩
    · exact hphase he
    · exact ha.pending i x e hx he
  cases hnext with
  | spawned hstart =>
    rw [getElem?_append] at hx
    split at hx
    · exact ha.pending i x e hx he
    obtain rfl := mem_singleton.mp (mem_of_getElem? hx)
    simp [hstart, Phase.failure] at he
  | changed => exact ha.pending i x e hx he
  | @moved c caller _ _ _ _ m =>
    refine hset m.callerAt hx fun hfailure => ?_
    cases m.cause e hfailure with
    | pending hpending => exact ha.pending c caller e m.callerAt hpending
    | callback exn => exact .inl ⟨c, exn, rfl⟩
    | build exn => exact .inr (.inl ⟨exn, rfl⟩)
    | reloaded => exact .inr (.inr rfl)
    | admission hevent hphase hthrows =>
      subst hevent
      simp [admissionThrows, m.callerAt, hphase, hthrows] at hadmission
  | joined _ _ hc => exact hset hc hx (by simp [Phase.failure])
  | registered _ hc => exact hset hc hx (by simp [Phase.failure])
  | decided hc => exact hset hc hx (by simp [Phase.failure])
  | @succeeded c f caller flight callback root phase _ _ _ hc hphase _ _ hphases =>
    rw [callers_complete] at hx
    refine hset hc hx fun hfailure => ?_
    rcases hphases with ⟨-, rfl⟩ | ⟨failure, rfl, rfl⟩
    · simp [Phase.failure] at hfailure
    · exact ha.pending c caller e hc (by rw [hphase]; exact hfailure)
  | failed hc =>
    rw [callers_complete] at hx
    exact hset hc hx (by simp [Phase.failure])
  | ended hc => exact hset hc hx (by simp [Phase.failure])
  | left hc => exact hset hc hx (by simp [Phase.failure])

theorem next_failed (g : Nat) (other : PrefixPreparation)
    (e : Failure) (hg : s'.flights[g]? = some other) (he : other.failure = some e) : Named e := by
  have hset : ∀ {f : Nat} {flight flight' : PrefixPreparation}, s.flights[f]? = some flight →
      (s.flights.set f flight')[g]? = some other → (flight'.failure = some e → Named e) → Named e := by
    intro f flight flight' hf hset hflight
    rcases getElem?_set_cases hset with ⟨-, rfl⟩ | ⟨-, hg⟩
    · exact hflight he
    · exact ha.failed g other e hg he
  cases hnext with
  | spawned => exact ha.failed g other e hg he
  | changed => exact ha.failed g other e hg he
  | moved => exact ha.failed g other e hg he
  | joined _ _ _ _ _ hf => exact hset hf hg fun hfailure => ha.failed _ _ e hf hfailure
  | @registered c slot f caller flights flight _ _ _ _ _ _ hflights hf =>
    rcases hflights with ⟨-, rfl⟩ | ⟨-, rfl⟩
    · exact hset hf hg (ha.failed f flight e hf)
    -- a new flight has not failed
    have hgrown : ∀ {g : Nat} {other : PrefixPreparation}, (s.flights ++ [({} : PrefixPreparation)])[g]? = some other →
        other.failure = some e → Named e := by
      intro g other hg he
      rw [getElem?_append] at hg
      split at hg
      · exact ha.failed g other e hg he
      obtain rfl := mem_singleton.mp (mem_of_getElem? hg)
      simp at he
    rcases getElem?_set_cases hg with ⟨-, rfl⟩ | ⟨-, hg⟩
    · exact hgrown hf he
    · exact hgrown hg he
  | decided _ _ hf => exact hset hf hg fun hfailure => ha.failed _ _ e hf hfailure
  | succeeded _ _ _ hf =>
    rw [setPhase, complete, clearSlot_flights] at hg
    exact hset hf hg fun hfailure => ha.failed _ _ e hf hfailure
  | @failed c f caller flight failure hc hphase hf =>
    rw [setPhase, complete, clearSlot_flights] at hg
    refine hset hf hg fun hfailure => ?_
    obtain rfl := some.inj hfailure
    exact ha.pending c caller failure hc (by rw [hphase]; rfl)
  | ended => exact ha.failed g other e hg he
  | @left _ f _ flight _ _ _ hf =>
    refine hset hf hg ?_
    unfold depart
    split
    · simp
    · exact ha.failed f flight e hf

end

end Announced

/-! ## Runs -/

/-- How a joiner's call ends. -/
theorem Next.decision (hnext : Next account s event s') {c f : Nat} {caller caller' : Caller}
    {flight : PrefixPreparation} {outcome : Outcome} (hc : s.callers[c]? = some caller)
    (hwaits : caller.phase.waitsFor = some f) (hf : s.flights[f]? = some flight)
    (hc' : s'.callers[c]? = some caller') (hout : caller'.phase.outcome = some outcome) :
    Decision s c caller flight outcome := by
  -- every other move leaves the joiner without an outcome
  have hstill : caller.phase.outcome = none := by
    cases hphase : caller.phase <;> simp [hphase, Phase.waitsFor, Phase.outcome] at hwaits ⊢
  have hother : ∀ {i : Nat} {x : Caller} {phase : Phase}, s.callers[i]? = some x →
      (s.callers.set i { x with phase })[c]? = some caller' →
      (x = caller → phase.outcome = some outcome → Decision s c caller flight outcome) →
      Decision s c caller flight outcome := by
    intro i x phase hx hset hmove
    rcases getElem?_set_cases hset with ⟨rfl, rfl⟩ | ⟨-, hsame⟩
    · exact hmove (mem_unique hx hc) hout
    obtain rfl := mem_unique hsame hc
    simp [hstill] at hout
  cases hnext with
  | spawned =>
    rw [getElem?_append_left (lt_of_getElem? hc), hc] at hc'
    cases hc'
    simp [hstill] at hout
  | changed =>
    obtain rfl := mem_unique hc hc'
    simp [hstill] at hout
  | @moved _ _ phase _ _ _ m =>
    refine hother m.callerAt hc' ?_
    rintro rfl hphase
    have hflight := m.waitsFor
    rw [hwaits] at hflight
    cases phase <;> simp [Phase.waitsFor, Phase.outcome] at hflight hphase
  | joined _ _ hx => exact hother hx hc' (by simp [Phase.outcome])
  | registered _ hx => exact hother hx hc' (by simp [Phase.outcome])
  | @decided i g x other outcome' hx hwaits' hg hdecision =>
    rcases getElem?_set_cases hc' with ⟨rfl, rfl⟩ | ⟨-, hsame⟩
    · obtain rfl := mem_unique hx hc
      obtain rfl := mem_unique hwaits hwaits'
      obtain rfl := mem_unique hf hg
      cases hout
      exact hdecision
    obtain rfl := mem_unique hsame hc
    simp [hstill] at hout
  | succeeded _ hx hphase =>
    rw [callers_complete] at hc'
    refine hother hx hc' ?_
    rintro rfl -
    simp [hphase, Phase.waitsFor] at hwaits
  | failed hx hphase =>
    rw [callers_complete] at hc'
    refine hother hx hc' ?_
    rintro rfl -
    simp [hphase, Phase.waitsFor] at hwaits
  | ended hx hphase =>
    refine hother hx hc' ?_
    rintro rfl -
    simp [hphase, Phase.waitsFor] at hwaits
  | left hx hphase =>
    refine hother hx hc' ?_
    rintro rfl -
    simp [hphase, Phase.waitsFor] at hwaits

theorem isolated_startup (index : PrefixIndex) (contract : List UInt8) (pooled : Option (List Nat)) :
    Isolated (startup index contract pooled) ∧ Announced (startup index contract pooled) := by
  have hnone : ∀ (f : Nat) flight, (startup index contract pooled).flights[f]? = some flight →
      flight.failure = none := by
    intro f flight hf
    obtain ⟨tokenCapacity, -, rfl⟩ := List.mem_map.mp (mem_of_getElem? hf)
    rfl
  refine ⟨⟨by simp [startup], by simp [startup], ?_, by simp [startup]⟩, ⟨by simp [startup], ?_⟩⟩
  · intro f flight owner exn hf hfailure
    simp [hnone f flight hf] at hfailure
  · intro f flight e hf hfailure
    simp [hnone f flight hf] at hfailure

theorem isolated_reaches {allowed : Service → Event → Prop} (h : Consistent s) (hi : Isolated s)
    (hallowed : ∀ s event, allowed s event → joinsAbandoned s event = false)
    (hreach : Reaches account allowed s s') : Isolated s' := by
  induction hreach with
  | refl => exact hi
  | tail hprefix hstep ih =>
    obtain ⟨event, hevent, hstep⟩ := hstep
    have hconsistent := consistent_reaches h hprefix
    exact ih.next hconsistent (step_next hconsistent hstep) (hallowed _ _ hevent)

theorem announced_reaches {allowed : Service → Event → Prop} (h : Consistent s) (ha : Announced s)
    (hallowed : ∀ s event, allowed s event → admissionThrows account s event = false)
    (hreach : Reaches account allowed s s') : Announced s' := by
  induction hreach with
  | refl => exact ha
  | tail hprefix hstep ih =>
    obtain ⟨event, hevent, hstep⟩ := hstep
    have hnext := step_next (consistent_reaches h hprefix) hstep
    exact ⟨ih.next_pending hnext (hallowed _ _ hevent), ih.next_failed hnext⟩

/-- In every run in which no caller joins a flight whose producer has already given up, the exception of a progress
    callback is thrown in its own call only. When no admission throws either, a joiner's call ends with the root of its
    flight, unless its own callback threw, the epoch changed or the build failed. -/
theorem cancellation_stays_with_owner (account : List PrefixCache.Entry → Except Exn StorageStats) {capacity sharedCapacity : Nat}
    {hasher : Option (List Int → List UInt8 → Nat)} {index : PrefixIndex} (contract : List UInt8)
    (pooled : Option (List Nat)) (hcreate : create capacity hasher sharedCapacity = .ok index) :
    (∀ s, Reaches account (fun s event => joinsAbandoned s event = false) (startup index contract pooled) s →
      ∀ (c : Nat) (caller : Caller) (owner : Nat) (exn : Exn), s.callers[c]? = some caller →
        caller.phase.outcome = some (.threw (.callback owner exn)) → owner = c) ∧
    ∀ s, Reaches account (fun s event => joinsAbandoned s event = false ∧ admissionThrows account s event = false)
        (startup index contract pooled) s →
      ∀ event s', step account s event = some s' →
      ∀ (c f : Nat) (caller caller' : Caller) (flight : PrefixPreparation) (outcome : Outcome),
        s.callers[c]? = some caller → caller.phase.waitsFor = some f → s.flights[f]? = some flight →
        s'.callers[c]? = some caller' → caller'.phase.outcome = some outcome →
        (∃ root, flight.root = some root ∧ outcome = .returned root true false) ∨
        (∃ exn, outcome = .threw (.callback c exn)) ∨
        (outcome = .threw .epochChanged ∧ (stale s caller = true ∨ flight.failure = some .epochChanged)) ∨
        ∃ exn, flight.failure = some (.build exn) ∧ outcome = .threw (.build exn) := by
  have hstart : Consistent (startup index contract pooled) := consistent_startup (inv_create hcreate) contract pooled
  obtain ⟨hisolated, hannounced⟩ := isolated_startup index contract pooled
  constructor
  · intro s hreach c caller owner exn hc hthrew
    have hi := isolated_reaches hstart hisolated (fun _ _ h => h) hreach
    exact hi.threw c caller _ hc hthrew owner exn rfl
  · intro s hreach event s' hstep c f caller caller' flight outcome hc hwaits hf hc' hout
    have h := consistent_reaches hstart hreach
    have hi := isolated_reaches hstart hisolated (fun _ _ h => h.1) hreach
    have ha := announced_reaches hstart hannounced (fun _ _ h => h.2) hreach
    cases (step_next h hstep).decision hc hwaits hf hc' hout with
    | cancelled exn => exact .inr (.inl ⟨exn, rfl⟩)
    | reloaded hstale => exact .inr (.inr (.inl ⟨rfl, .inl hstale⟩))
    | prepared hroot => exact .inl ⟨_, hroot, rfl⟩
    | failed hfailure =>
      rcases ha.failed f flight _ hf hfailure with ⟨owner, exn, rfl⟩ | ⟨exn, rfl⟩ | rfl
      · -- a flight that failed for a callback has no waiter
        exact absurd (hi.quiet f flight owner exn hf hfailure) (h.awaited hf hc hwaits)
      · exact .inr (.inr (.inr ⟨exn, hfailure, rfl⟩))
      · exact .inr (.inr (.inl ⟨rfl, .inr hfailure⟩))

/-- The producer's callback throws while the other caller waits, and the build goes on for it. -/
def keepsBuilding : List Event :=
  [.enter 1, .callbackThrows 0 .badAlloc, .check 0, .callbackReturns 1, .buildReturns 0 (textRoot 1 [5, 6]),
    .settle 0 1000 1000 1, .wake 1, .callbackReturns 1, .catch 0]

/-- The joiner receives the root, and the producer its own exception. -/
theorem joiner_survives_cancellation :
    ∃ s, Reaches countEntries
        (fun s event => joinsAbandoned s event = false ∧ admissionThrows countEntries s event = false)
        (startup twoSlots [1] none) s ∧
      (joinedRoot s 1).isSome = true ∧ ∃ owner, thrownFor s 0 = some owner ∧ owner = 0 := by
  let ok : Service → Event → Bool := fun s event =>
    !joinsAbandoned s event && !admissionThrows countEntries s event
  have hdone : ((run countEntries ok (startup twoSlots [1] none) (bothAsk ++ keepsBuilding)).any fun s =>
      (joinedRoot s 1).isSome && (thrownFor s 0).isSome) = true := by decide +kernel
  obtain ⟨s, hrun, hboth⟩ := (Option.any_eq_true _ _).mp hdone
  obtain ⟨hjoined, hthrown⟩ := Bool.and_eq_true_iff.mp hboth
  have hallowed : ∀ s event, ok s event = true →
      joinsAbandoned s event = false ∧ admissionThrows countEntries s event = false := by
    intro s event hok
    simpa [ok] using hok
  have hreach := reaches_run hallowed hrun
  obtain ⟨owner, howner⟩ := isSome_iff_exists.mp hthrown
  obtain ⟨caller, exn, hc, hout⟩ := thrownFor_some howner
  refine ⟨s, hreach, hjoined, owner, howner, ?_⟩
  have hcreate : create 2 (some fun _ _ => 0) 0 = .ok twoSlots := rfl
  exact (cancellation_stays_with_owner countEntries [1] none hcreate).1 s
    (reaches_run (fun s event hok => (hallowed s event hok).1) hrun) 0 caller owner exn hc hout

/-- The other caller joins after the producer has given up, and receives its exception. -/
def joinsLate : List Event :=
  [.callbackThrows 0 .badAlloc, .check 0, .enter 1, .catch 0, .callbackReturns 1, .wake 1]

theorem late_joiner_receives_cancellation :
    ¬ ∀ (account : List PrefixCache.Entry → Except Exn StorageStats) (index : PrefixIndex) (contract : List UInt8)
      (pooled : Option (List Nat)) (s : Service), create 2 (some fun _ _ => 0) 0 = .ok index →
      Reaches account (fun _ _ => True) (startup index contract pooled) s →
      ∀ (c : Nat) (caller : Caller) (owner : Nat) (exn : Exn), s.callers[c]? = some caller →
        caller.phase.outcome = some (.threw (.callback owner exn)) → owner = c := by
  intro h
  have hdone : ((run countEntries (fun _ _ => true) (startup twoSlots [1] none) (bothAsk ++ joinsLate)).any fun s =>
      thrownFor s 1 == some 0) = true := by decide +kernel
  obtain ⟨s, hrun, hthrown⟩ := (Option.any_eq_true _ _).mp hdone
  obtain ⟨caller, exn, hc, hout⟩ := thrownFor_some (beq_iff_eq.mp hthrown)
  have hreach := reaches_run (fun _ _ _ => trivial) hrun
  have hcreate : create 2 (some fun _ _ => 0) 0 = .ok twoSlots := rfl
  have hsame := h countEntries twoSlots [1] none s hcreate hreach 1 caller 0 exn hc hout
  cases hsame

end VoidInfer.Exl3.PrefixFlights
