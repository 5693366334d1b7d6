import VoidInfer.Exl3.PrefixFlightsInv

/-
  What a step of the service can do (`Next`). Each case is one move of one caller, or a change outside the preparations,
  and keeps the invariant.
-/

namespace VoidInfer.Exl3.PrefixFlights
open List Option ListUpdate

open PrefixCache (StorageStats PrefixIndex)

variable {s : Service} {c f : Nat} {caller : Caller} {flight : PrefixPreparation}

/-- An exception of a progress callback is the caller's own. -/
def Mine (c : Nat) (failure : Failure) : Prop :=
  ∀ owner exn, failure = .callback owner exn → owner = c

/-- Why a producer has something to throw. -/
inductive Cause (account : List PrefixCache.Entry → Except Exn StorageStats) (s : Service) (event : Event) (c : Nat)
    (caller : Caller) : Failure → Prop
  | pending {failure : Failure} (h : caller.phase.failure = some failure) : Cause account s event c caller failure
  | callback (exn : Exn) : Cause account s event c caller (.callback c exn)
  | build (exn : Exn) : Cause account s event c caller (.build exn)
  | reloaded : Cause account s event c caller .epochChanged
  | admission {f byteBudget available reserve : Nat} {callback : Option Failure} {root : Built} {exn : Exn}
      (hevent : event = .settle c byteBudget available reserve) (hphase : caller.phase = .built f callback root)
      (h : (admission account s caller root byteBudget available reserve).2 = some (.index exn)) :
    Cause account s event c caller (.index exn)

/-- A caller moves to `phase` with the flight, the waiting and the production it has. -/
structure Move (account : List PrefixCache.Entry → Except Exn StorageStats) (s : Service) (event : Event) (c : Nat)
    (caller : Caller) (phase : Phase) : Prop where
  callerAt : s.callers[c]? = some caller
  flight : phase.flight = caller.phase.flight
  waitsFor : phase.waitsFor = caller.phase.waitsFor
  produces : phase.produces = caller.phase.produces
  /-- An exception on its way is not lost. -/
  settled : ∀ f failure, caller.phase ≠ .unwinding f failure
  ok : CallerOk { caller with phase }
  declines : ∀ f, phase = .declining f → ∃ flight : PrefixPreparation,
    s.flights[f]? = some flight ∧ flight.done = true ∧ flight.failure = none
  fresh : ∀ root joined hit, phase.outcome = some (.returned root joined hit) → stale s caller = false
  cause : ∀ failure, phase.failure = some failure → Cause account s event c caller failure
  threw : ∀ failure, phase.outcome = some (.threw failure) → Mine c failure
  /-- A producer gives up for its own callback only without waiters. -/
  quiet : ∀ f owner exn, phase = .unwinding f (.callback owner exn) →
    ∃ flight : PrefixPreparation, s.flights[f]? = some flight ∧ flight.waiters = 0

/-- How a joiner's call is decided. -/
inductive Decision (s : Service) (c : Nat) (caller : Caller) (flight : PrefixPreparation) : Outcome → Prop
  | cancelled (exn : Exn) : Decision s c caller flight (.threw (.callback c exn))
  | reloaded (h : stale s caller = true) : Decision s c caller flight (.threw .epochChanged)
  | failed {failure : Failure} (h : flight.failure = some failure) : Decision s c caller flight (.threw failure)
  | prepared {root : Built} (h : flight.root = some root) (hfresh : stale s caller = false) :
    Decision s c caller flight (.returned root true false)

/-- The flight that the caller joins in its first section. -/
def joins (s : Service) (caller : Caller) : Option Nat :=
  if stale s caller then none
  else
    match PrefixCache.lookup caller.model caller.tokens caller.contract none s.index with
    | .ok none _ =>
      (matching s caller).filter fun f => (s.flights[f]?).any fun flight => flight.producer != caller.thread
    | _ => none

theorem joins_matching (h : joins s caller = some f) : matching s caller = some f := by
  unfold joins at h
  split at h
  · simp at h
  split at h
  · exact (filter_eq_some_iff.mp h).1
  · simp at h

/-- The flight of a new producer. -/
def claimed (flight : PrefixPreparation) (caller : Caller) : PrefixPreparation :=
  { flight with
    model := some caller.model, epoch := caller.epoch, tokens := caller.tokens
    prefillRows := caller.prefillRows, producer := caller.thread, participants := flight.participants + 1 }

/-- What a step can do. -/
inductive Next (account : List PrefixCache.Entry → Except Exn StorageStats) (s : Service) (event : Event) : Service → Prop
  | spawned {caller : Caller} (hstart : caller.phase = .start) :
    Next account s event { s with callers := s.callers ++ [caller] }
  | changed {index : PrefixIndex} {contract : List UInt8} {epoch : Nat} {fail : Bool}
      (hindex : PrefixCache.Inv index) :
    Next account s event { s with index, contract, epoch, failPreparationAdmission := fail }
  | moved {c : Nat} {caller : Caller} {phase : Phase} {index : PrefixIndex} {fail : Bool}
      (hindex : PrefixCache.Inv index) (m : Move account s event c caller phase) :
    Next account s event (setPhase { s with index, failPreparationAdmission := fail } c caller phase)
  | joined {c f : Nat} {caller : Caller} {flight : PrefixPreparation} {index : PrefixIndex}
      (hindex : PrefixCache.Inv index) (hevent : event = .enter c) (hc : s.callers[c]? = some caller)
      (hstart : caller.phase = .start) (hjoins : joins s caller = some f) (hf : s.flights[f]? = some flight) :
    Next account s event (setPhase (setFlight { s with index } f { flight with
      participants := flight.participants + 1, waiters := flight.waiters + 1 }) c caller (.polling f))
  | registered {c slot f : Nat} {caller : Caller} {flights : List PrefixPreparation} {flight : PrefixPreparation}
      {index : PrefixIndex} (hindex : PrefixCache.Inv index) (hc : s.callers[c]? = some caller)
      (hstart : caller.phase = .start) (hmatch : matching s caller = none)
      (hslot : s.preparations[slot]? = some none)
      (hflights : (f < s.flights.length ∧ flights = s.flights) ∨ (f = s.flights.length ∧ flights = s.flights ++ [({} : PrefixPreparation)]))
      (hf : flights[f]? = some flight) (hidle : flight.participants = 0) :
    Next account s event (setPhase { s with
      index, preparations := s.preparations.set slot (some f), flights := flights.set f (claimed flight caller) }
      c caller (.building f none))
  | decided {c f : Nat} {caller : Caller} {flight : PrefixPreparation} {outcome : Outcome}
      (hc : s.callers[c]? = some caller) (hwaits : caller.phase.waitsFor = some f)
      (hf : s.flights[f]? = some flight) (hdecision : Decision s c caller flight outcome) :
    Next account s event (decide s c caller f flight outcome)
  | succeeded {c f : Nat} {caller : Caller} {flight : PrefixPreparation} {callback : Option Failure} {root : Built}
      {phase : Phase} {index : PrefixIndex} {fail : Bool} (hindex : PrefixCache.Inv index)
      (hc : s.callers[c]? = some caller) (hphase : caller.phase = .built f callback root)
      (hf : s.flights[f]? = some flight) (hfresh : stale s caller = false)
      (hnext : (callback = none ∧ phase = .leaving f (.returned root false false)) ∨
        ∃ failure, callback = some failure ∧ phase = .unwinding f failure) :
    Next account s event (setPhase (complete { s with index, failPreparationAdmission := fail } f flight (some root)
      flight.failure) c caller phase)
  | failed {c f : Nat} {caller : Caller} {flight : PrefixPreparation} {failure : Failure}
      (hc : s.callers[c]? = some caller) (hphase : caller.phase = .unwinding f failure)
      (hf : s.flights[f]? = some flight) (hnot : flight.done = false) :
    Next account s event (setPhase (complete s f flight flight.root (some failure)) c caller
      (.leaving f (.threw failure)))
  | ended {c f : Nat} {caller : Caller} {flight : PrefixPreparation} {failure : Failure}
      (hc : s.callers[c]? = some caller) (hphase : caller.phase = .unwinding f failure)
      (hf : s.flights[f]? = some flight) (hdone : flight.done = true) :
    Next account s event (setPhase s c caller (.leaving f (.threw failure)))
  | left {c f : Nat} {caller : Caller} {flight : PrefixPreparation} {outcome : Outcome}
      (hc : s.callers[c]? = some caller) (hphase : caller.phase = .leaving f outcome)
      (hf : s.flights[f]? = some flight) :
    Next account s event (setPhase (setFlight s f (depart flight)) c caller (.finished outcome))

/-! ## The registry -/

theorem matching_some (h : matching s caller = some f) :
    some f ∈ s.preparations ∧ ∃ flight, s.flights[f]? = some flight ∧ Fits caller flight := by
  obtain ⟨slot, hslot, hfilter⟩ := exists_of_findSome?_eq_some h
  obtain ⟨rfl, hany⟩ := filter_eq_some_iff.mp hfilter
  obtain ⟨flight, hf, hfits⟩ := (Option.any_eq_true _ _).mp hany
  exact ⟨hslot, flight, hf, fits_iff.mp hfits⟩

theorem matching_none (h : matching s caller = none) (hreg : some f ∈ s.preparations)
    (hf : s.flights[f]? = some flight) : ¬ Fits caller flight := by
  intro hfits
  have hno := findSome?_eq_none_iff.mp h _ hreg
  rw [filter_some, hf, any_some, fits_iff.mpr hfits] at hno
  simp at hno

theorem clearSlot_callers (s : Service) (f : Nat) : (clearSlot s f).callers = s.callers := by
  unfold clearSlot
  split <;> rfl

theorem clearSlot_flights (s : Service) (f : Nat) : (clearSlot s f).flights = s.flights := by
  unfold clearSlot
  split <;> rfl

theorem clearSlot_index (s : Service) (f : Nat) : (clearSlot s f).index = s.index := by
  unfold clearSlot
  split <;> rfl

theorem callers_complete (s : Service) (f c : Nat) (flight : PrefixPreparation) (root : Option Built)
    (failure : Option Failure) (caller : Caller) (phase : Phase) :
    (setPhase (complete s f flight root failure) c caller phase).callers = s.callers.set c { caller with phase } :=
  congrArg (fun l => l.set c { caller with phase }) (clearSlot_callers _ f)

theorem clearSlot_registry (hslots : s.preparations.length = 8)
    (honce : ∀ i j f : Nat, s.preparations[i]? = some (some f) → s.preparations[j]? = some (some f) → i = j) (f : Nat) :
    (clearSlot s f).preparations.length = 8 ∧ some f ∉ (clearSlot s f).preparations ∧
    (∀ g, g ≠ f → (some g ∈ (clearSlot s f).preparations ↔ some g ∈ s.preparations)) ∧
    ∀ i j g : Nat, (clearSlot s f).preparations[i]? = some (some g) →
      (clearSlot s f).preparations[j]? = some (some g) → i = j := by
  unfold clearSlot
  split
  · next hnone =>
    refine ⟨hslots, ?_, fun _ _ => Iff.rfl, honce⟩
    intro hmem
    simpa using findIdx?_eq_none_iff.mp hnone _ hmem
  next k hk =>
  obtain ⟨hlt, hat, -⟩ := findIdx?_eq_some_iff_getElem.mp hk
  have hat : s.preparations[k]? = some (some f) := by
    rw [getElem?_eq_getElem hlt]
    simpa using hat
  have hcases : ∀ {j : Nat} {g : Nat}, (s.preparations.set k none)[j]? = some (some g) →
      j ≠ k ∧ s.preparations[j]? = some (some g) := by
    intro j g hj
    rcases getElem?_set_cases hj with ⟨-, hg⟩ | hj
    · simp at hg
    · exact hj
  refine ⟨by rw [length_set, hslots], ?_, ?_, ?_⟩
  · intro hmem
    obtain ⟨j, hj⟩ := mem_iff_getElem?.mp hmem
    obtain ⟨hne, hj⟩ := hcases hj
    exact hne (honce j k f hj hat)
  · intro g hg
    constructor
    · intro hmem
      obtain ⟨j, hj⟩ := mem_iff_getElem?.mp hmem
      exact mem_of_getElem? (hcases hj).2
    · intro hmem
      obtain ⟨j, hj⟩ := mem_iff_getElem?.mp hmem
      have hne : k ≠ j := by
        rintro rfl
        rw [hat] at hj
        exact hg (some.inj (some.inj hj)).symm
      exact mem_of_getElem? ((getElem?_set_ne hne).trans hj)
  · intro i j g hi hj
    exact honce i j g (hcases hi).2 (hcases hj).2

/-! ## The invariant is kept -/

namespace Consistent

theorem spawned (h : Consistent s) (hstart : caller.phase = .start) :
    Consistent { s with callers := s.callers ++ [caller] } := by
  have hat : ∀ {i : Nat} {x : Caller}, (s.callers ++ [caller])[i]? = some x →
      s.callers[i]? = some x ∨ x = caller := by
    intro i x hx
    rw [getElem?_append] at hx
    split at hx
    · exact .inl hx
    · exact .inr (mem_singleton.mp (mem_of_getElem? hx))
  have hkept : ∀ {i : Nat} {x : Caller}, s.callers[i]? = some x → (s.callers ++ [caller])[i]? = some x := by
    intro i x hx
    rw [getElem?_append_left (lt_of_getElem? hx), hx]
  have hcount : ∀ p : Phase → Option Nat, p .start = none → ∀ g,
      (s.callers ++ [caller]).countP (fun x => p x.phase == some g) =
        s.callers.countP fun x => p x.phase == some g := by
    intro p hp g
    simp [countP_append, hstart, hp]
  refine ⟨h.index, h.slots, ?_, ?_, h.results, ?_, ?_, h.once, h.keys, ?_, ?_, ?_, ?_, ?_⟩
  · exact fun g x hx => (h.participants g x hx).trans (hcount Phase.flight rfl g).symm
  · exact fun g x hx => (h.waiters g x hx).trans (hcount Phase.waitsFor rfl g).symm
  · intro i x hx
    rcases hat hx with hx | rfl
    · exact h.callers i x hx
    · exact ⟨by simp [hstart], by simp [hstart], by simp [hstart, Phase.outcome]⟩
  · intro g hg
    obtain ⟨other, hother, hnot, i, x, hx, hproduces⟩ := h.registered g hg
    exact ⟨other, hother, hnot, i, x, hkept hx, hproduces⟩
  · intro i x g hx hproduces
    rcases hat hx with hx | rfl
    · exact h.producers i x g hx hproduces
    · simp [hstart, Phase.produces] at hproduces
  · intro i j x y g hx hy hpx hpy
    rcases hat hx with hx | rfl
    · rcases hat hy with hy | rfl
      · exact h.sole i j x y g hx hy hpx hpy
      · simp [hstart, Phase.produces] at hpy
    · simp [hstart, Phase.produces] at hpx
  · intro i x g hx hwaits
    rcases hat hx with hx | rfl
    · exact h.joiners i x g hx hwaits
    · simp [hstart, Phase.waitsFor] at hwaits
  · intro i x g hx hheld
    rcases hat hx with hx | rfl
    · exact h.held i x g hx hheld
    · simp [hstart, Phase.flight] at hheld
  · intro i x g other hx hphase hother
    rcases hat hx with hx | rfl
    · exact h.decliners i x g other hx hphase hother
    · simp [hstart] at hphase

/-- New flights are blank. -/
theorem grown (h : Consistent s) : Consistent { s with flights := s.flights ++ [({} : PrefixPreparation)] } := by
  have hat : ∀ {g : Nat} {x : PrefixPreparation}, (s.flights ++ [({} : PrefixPreparation)])[g]? = some x →
      s.flights[g]? = some x ∨ (g = s.flights.length ∧ x = {}) := by
    intro g x hx
    rw [getElem?_append] at hx
    split at hx
    · exact .inl hx
    next hlt =>
    have hg : g - s.flights.length = 0 := by
      have := lt_of_getElem? hx
      simpa using this
    rw [hg] at hx
    exact .inr ⟨by omega, (some.inj hx).symm⟩
  have hkept : ∀ {g : Nat} {x : PrefixPreparation}, s.flights[g]? = some x →
      (s.flights ++ [({} : PrefixPreparation)])[g]? = some x := by
    intro g x hx
    rw [getElem?_append_left (lt_of_getElem? hx), hx]
  have hunheld : ∀ x ∈ s.callers, x.phase.flight ≠ some s.flights.length := by
    intro x hx heq
    obtain ⟨i, hi⟩ := mem_iff_getElem?.mp hx
    exact Nat.lt_irrefl _ (h.held i x _ hi heq)
  refine ⟨h.index, h.slots, ?_, ?_, ?_, h.callers, ?_, h.once, ?_, ?_, h.sole, ?_, ?_, ?_⟩
  · intro g x hx
    rcases hat hx with hx | ⟨rfl, rfl⟩
    · exact h.participants g x hx
    refine (countP_eq_zero.mpr fun y hy => ?_).symm
    simpa using hunheld y hy
  · intro g x hx
    rcases hat hx with hx | ⟨rfl, rfl⟩
    · exact h.waiters g x hx
    refine (countP_eq_zero.mpr fun y hy => ?_).symm
    simpa using fun hw => hunheld y hy (Phase.flight_of_waitsFor hw)
  · intro g x hx
    rcases hat hx with hx | ⟨-, rfl⟩
    · exact h.results g x hx
    · exact ⟨by simp, by simp, by simp, by simp, by simp, by simp⟩
  · intro g hg
    obtain ⟨other, hother, hrest⟩ := h.registered g hg
    exact ⟨other, hkept hother, hrest⟩
  · intro g g' x x' who hg hg' hx hx'
    obtain ⟨other, hother, -⟩ := h.registered g hg
    obtain ⟨other', hother', -⟩ := h.registered g' hg'
    rw [hkept hother] at hx
    rw [hkept hother'] at hx'
    obtain rfl := some.inj hx
    obtain rfl := some.inj hx'
    exact h.keys g g' other other' who hg hg' hother hother'
  · intro i x g hx hproduces
    obtain ⟨other, hother, hrest⟩ := h.producers i x g hx hproduces
    exact ⟨other, hkept hother, hrest⟩
  · intro i x g hx hwaits
    obtain ⟨other, hother, hfits⟩ := h.joiners i x g hx hwaits
    exact ⟨other, hkept hother, hfits⟩
  · intro i x g hx hheld
    have := h.held i x g hx hheld
    simp only [length_append, length_singleton]
    omega
  · intro i x g other hx hphase hother
    rcases hat hother with hother | ⟨rfl, -⟩
    · exact h.decliners i x g other hx hphase hother
    · exact absurd (by rw [hphase]; rfl) (hunheld x (mem_of_getElem? hx))

variable {account : List PrefixCache.Entry → Except Exn StorageStats} {event : Event}
  {phase : Phase} {index : PrefixIndex} {fail : Bool} {outcome : Outcome}

section
variable (h : Consistent s)
include h

section
variable (hindex : PrefixCache.Inv index)
include hindex

theorem moved (m : Move account s event c caller phase) :
    Consistent (setPhase { s with index, failPreparationAdmission := fail } c caller phase) := by
  have hc := m.callerAt
  have hat : ∀ {i : Nat} {x : Caller}, (s.callers.set c { caller with phase })[i]? = some x →
      (i = c ∧ x = { caller with phase }) ∨ (i ≠ c ∧ s.callers[i]? = some x) :=
    fun hx => getElem?_set_cases hx
  have hcount : ∀ p : Phase → Option Nat, p phase = p caller.phase → ∀ g,
      s.callers.countP (fun x => p x.phase == some g) =
        (s.callers.set c { caller with phase }).countP fun x => p x.phase == some g := by
    intro p hp g
    have hmove := countP_move hc phase p g
    rw [hp] at hmove
    omega
  refine ⟨hindex, h.slots, ?_, ?_, h.results, ?_, ?_, h.once, h.keys, ?_, ?_, ?_, ?_, ?_⟩
  · exact fun g x hx => (h.participants g x hx).trans (hcount Phase.flight m.flight g)
  · exact fun g x hx => (h.waiters g x hx).trans (hcount Phase.waitsFor m.waitsFor g)
  · intro i x hx
    rcases hat hx with ⟨-, rfl⟩ | ⟨-, hx⟩
    · exact m.ok
    · exact h.callers i x hx
  · intro g hg
    obtain ⟨other, hother, hnot, i, x, hx, hproduces⟩ := h.registered g hg
    refine ⟨other, hother, hnot, i, ?_⟩
    by_cases hi : i = c
    · subst hi
      rw [hc] at hx
      cases hx
      exact ⟨_, callers_set_self hc, m.produces.trans hproduces⟩
    · exact ⟨x, (getElem?_set_ne (Ne.symm hi)).trans hx, hproduces⟩
  · intro i x g hx hproduces
    rcases hat hx with ⟨-, rfl⟩ | ⟨-, hx⟩
    · obtain ⟨other, hother, hfits, hreg, hdone⟩ := h.producers c caller g hc (m.produces ▸ hproduces)
      refine ⟨other, hother, ⟨hfits.epoch, hfits.model, hfits.prefillRows, hfits.tokens⟩, hreg, fun hd => ?_⟩
      obtain ⟨failure, hphase⟩ := hdone hd
      exact absurd hphase (m.settled g failure)
    · exact h.producers i x g hx hproduces
  · intro i j x y g hx hy hpx hpy
    rcases hat hx with ⟨rfl, rfl⟩ | ⟨-, hx'⟩
    · rcases hat hy with ⟨rfl, -⟩ | ⟨-, hy⟩
      · rfl
      · exact h.sole _ j caller y g hc hy (m.produces ▸ hpx) hpy
    rcases hat hy with ⟨rfl, rfl⟩ | ⟨-, hy⟩
    · exact h.sole i _ x caller g hx' hc hpx (m.produces ▸ hpy)
    · exact h.sole i j x y g hx' hy hpx hpy
  · intro i x g hx hwaits
    rcases hat hx with ⟨-, rfl⟩ | ⟨-, hx⟩
    · obtain ⟨other, hother, hfits⟩ := h.joiners c caller g hc (m.waitsFor ▸ hwaits)
      exact ⟨other, hother, hfits.epoch, hfits.model, hfits.prefillRows, hfits.tokens⟩
    · exact h.joiners i x g hx hwaits
  · intro i x g hx hheld
    rcases hat hx with ⟨-, rfl⟩ | ⟨-, hx⟩
    · exact h.held c caller g hc (m.flight ▸ hheld)
    · exact h.held i x g hx hheld
  · intro i x g other hx hphase hother
    rcases hat hx with ⟨-, rfl⟩ | ⟨-, hx⟩
    · obtain ⟨flight, hflight, hresult⟩ := m.declines g hphase
      have hsame : flight = other := mem_unique hflight hother
      exact hsame ▸ hresult
    · exact h.decliners i x g other hx hphase hother

section
variable (hc : s.callers[c]? = some caller) (hstart : caller.phase = .start)
include hc hstart

theorem joined (hmatch : matching s caller = some f) (hf : s.flights[f]? = some flight) :
    Consistent (setPhase (setFlight { s with index } f { flight with
      participants := flight.participants + 1, waiters := flight.waiters + 1 }) c caller (.polling f)) := by
  obtain ⟨hreg, other, hother, hfits⟩ := matching_some hmatch
  obtain rfl := mem_unique hf hother
  obtain ⟨_, hother', hnot, i, x, hx, hproduces⟩ := h.registered f hreg
  obtain rfl := mem_unique hf hother'
  have hr := h.results f flight hf
  have u : Update s c caller f flight (.polling f) { flight with
      participants := flight.participants + 1, waiters := flight.waiters + 1 } s.preparations := {
    callerAt := hc
    flightAt := hf
    before := by simp [hstart, Phase.flight]
    after := by simp [Phase.flight]
    participants := by simp [hstart, Phase.flight]
    waiters := by simp [hstart, Phase.waitsFor]
    result := ⟨hr.blank, hr.single, hr.tokens, hr.model, hr.epoch, fun hzero => absurd hzero (Nat.succ_ne_zero _)⟩
    ok := ⟨by simp, by simp, by simp [Phase.outcome]⟩
    slots := h.slots
    registry := fun _ _ => Iff.rfl
    once := h.once
    registered := by
      refine fun _ => ⟨hnot, .inr ⟨i, x, ?_, hx, hproduces⟩⟩
      rintro rfl
      obtain rfl := mem_unique hc hx
      simp [hstart, Phase.produces] at hproduces
    keys := by
      intro _ g other who hg hreg' hother' hwho hwho'
      exact hg (h.keys g f other flight who hreg' hreg hother' hf hwho'
        ⟨hwho.epoch, hwho.model, hwho.prefillRows, hwho.tokens⟩)
    others := fun _ _ _ _ _ hx => ⟨hx.epoch, hx.model, hx.prefillRows, hx.tokens⟩
    producer := by simp [Phase.produces]
    sole := fun _ _ _ _ _ => ⟨by simp [Phase.produces], rfl, id⟩
    joiner := fun _ => ⟨⟨hfits.epoch, hfits.model, hfits.prefillRows, hfits.tokens⟩, by simp⟩
    decliners := fun _ _ _ _ _ hd hn => ⟨hd, hn⟩ }
  exact h.update u hindex rfl rfl rfl

theorem enrolled {slot : Nat}
    (hnew : ∀ g other, some g ∈ s.preparations → s.flights[g]? = some other → ¬ Fits caller other)
    (hslot : s.preparations[slot]? = some none) (hf : s.flights[f]? = some flight)
    (hidle : flight.participants = 0) :
    Consistent (setPhase { s with
      index, preparations := s.preparations.set slot (some f), flights := s.flights.set f (claimed flight caller) }
      c caller (.building f none)) := by
  have hr := h.results f flight hf
  have hnot := hr.idle hidle
  have hblank := hr.blank hnot
  have hunreg := h.unregistered hf hidle
  have hunheld : ∀ {i : Nat} {x : Caller}, s.callers[i]? = some x → x.phase.flight ≠ some f := h.unheld hf hidle
  have hcases : ∀ {i g : Nat}, (s.preparations.set slot (some f))[i]? = some (some g) →
      (i = slot ∧ g = f) ∨ (i ≠ slot ∧ s.preparations[i]? = some (some g)) := by
    intro i g hi
    rcases getElem?_set_cases hi with ⟨hi, hg⟩ | hi
    · exact .inl ⟨hi, some.inj hg⟩
    · exact .inr hi
  have hin : some f ∈ s.preparations.set slot (some f) :=
    mem_of_getElem? (getElem?_set_self (lt_of_getElem? hslot))
  have u : Update s c caller f flight (.building f none) (claimed flight caller)
      (s.preparations.set slot (some f)) := {
    callerAt := hc
    flightAt := hf
    before := by simp [hstart, Phase.flight]
    after := by simp [Phase.flight]
    participants := by simp [hstart, Phase.flight, claimed]
    waiters := by simp [hstart, Phase.waitsFor, claimed]
    result := by
      refine ⟨fun _ => hblank, fun hd => ?_, ?_, ?_, ?_, by simp [claimed]⟩
      · simp [claimed, hnot] at hd
      · simp [claimed, hblank.1]
      · simp [claimed, hblank.1]
      · simp [claimed, hblank.1]
    ok := ⟨by simp, by simp, by simp [Phase.outcome]⟩
    slots := by rw [length_set, h.slots]
    registry := by
      intro g hg
      constructor
      · intro hmem
        obtain ⟨i, hi⟩ := mem_iff_getElem?.mp hmem
        rcases hcases hi with ⟨-, hgf⟩ | ⟨-, hi⟩
        · exact absurd hgf hg
        · exact mem_of_getElem? hi
      · intro hmem
        obtain ⟨i, hi⟩ := mem_iff_getElem?.mp hmem
        have hne : slot ≠ i := by
          rintro rfl
          rw [hslot] at hi
          simp at hi
        exact mem_of_getElem? ((getElem?_set_ne hne).trans hi)
    once := by
      intro i j g hi hj
      rcases hcases hi with ⟨rfl, rfl⟩ | ⟨-, hi'⟩
      · rcases hcases hj with ⟨rfl, -⟩ | ⟨-, hj'⟩
        · rfl
        · exact absurd (mem_of_getElem? hj') hunreg
      rcases hcases hj with ⟨rfl, rfl⟩ | ⟨-, hj'⟩
      · exact absurd (mem_of_getElem? hi') hunreg
      · exact h.once i j g hi' hj'
    registered := fun _ => ⟨hnot, .inl rfl⟩
    keys := by
      -- a flight with this key would have been joined
      intro _ g other who _ hreg hother hwho hwho'
      refine hnew g other hreg hother ⟨?_, ?_, ?_, ?_⟩
      · exact hwho'.epoch.trans hwho.epoch.symm
      · exact hwho'.model.trans hwho.model.symm
      · exact hwho'.prefillRows.trans hwho.prefillRows.symm
      · exact hwho'.tokens.trans hwho.tokens.symm
    others := fun _ _ _ hx hheld => absurd hheld (hunheld hx)
    producer := by
      refine fun _ => ⟨⟨rfl, rfl, rfl, rfl⟩, fun _ => hin, fun hd => ?_⟩
      simp [claimed, hnot] at hd
    sole := fun _ _ _ hx hproduces => absurd (Phase.flight_of_produces hproduces) (hunheld hx)
    joiner := by simp [Phase.waitsFor]
    decliners := fun _ _ _ _ _ hd => by simp [hnot] at hd }
  exact h.update u hindex rfl rfl rfl

end

end

theorem decided (hc : s.callers[c]? = some caller)
    (hwaits : caller.phase.waitsFor = some f) (hf : s.flights[f]? = some flight)
    (hdecision : Decision s c caller flight outcome) : Consistent (decide s c caller f flight outcome) := by
  have hheld := Phase.flight_of_waitsFor hwaits
  have hproduces := Phase.produces_of_waitsFor hwaits
  have hr := h.results f flight hf
  obtain ⟨other, hother, hfits⟩ := h.joiners c caller f hc hwaits
  obtain rfl := mem_unique hf hother
  have hpositive : 0 < flight.waiters := Nat.pos_of_ne_zero (h.awaited hf hc hwaits)
  have u : Update s c caller f flight (.leaving f outcome) { flight with waiters := flight.waiters - 1 }
      s.preparations := {
    callerAt := hc
    flightAt := hf
    before := by simp [hheld]
    after := by simp [Phase.flight]
    participants := by rw [hheld, show (Phase.leaving f outcome).flight = some f from rfl]
    waiters := by
      rw [hwaits, show (Phase.leaving f outcome).waitsFor = none from rfl]
      simp only [beq_self_eq_true, if_true]
      exact Nat.sub_add_cancel hpositive
    result := ⟨hr.blank, hr.single, hr.tokens, hr.model, hr.epoch, hr.idle⟩
    ok := by
      refine ⟨by simp, by simp, ?_⟩
      intro root joined hit hout
      simp only [Phase.outcome, Option.some.injEq] at hout
      subst hout
      cases hdecision with
      | prepared hroot =>
        have hfor : For caller root := ⟨(hr.tokens root hroot).trans hfits.tokens,
          mem_unique (hr.model root hroot) hfits.model, (hr.epoch root hroot).trans hfits.epoch⟩
        exact ⟨hfor.tokens, hfor.epoch, fun _ => ⟨hfor.tokens, hfor.model, hfor.epoch⟩⟩
    slots := h.slots
    registry := fun _ _ => Iff.rfl
    once := h.once
    registered := by
      intro hreg
      obtain ⟨_, hother', hnot, i, x, hx, hprod⟩ := h.registered f hreg
      obtain rfl := mem_unique hf hother'
      refine ⟨hnot, .inr ⟨i, x, ?_, hx, hprod⟩⟩
      rintro rfl
      obtain rfl := mem_unique hc hx
      simp [hproduces] at hprod
    keys := by
      intro hreg g other who hg hreg' hother' hwho hwho'
      exact hg (h.keys g f other flight who hreg' hreg hother' hf hwho'
        ⟨hwho.epoch, hwho.model, hwho.prefillRows, hwho.tokens⟩)
    others := fun _ _ _ _ _ hx => ⟨hx.epoch, hx.model, hx.prefillRows, hx.tokens⟩
    producer := by simp [Phase.produces]
    sole := fun _ _ _ _ _ => ⟨by simp [Phase.produces], rfl, id⟩
    joiner := by simp [Phase.waitsFor]
    decliners := fun _ _ _ _ _ hd hn => ⟨hd, hn⟩ }
  exact h.update u h.index rfl rfl rfl

/-- A producer completes its flight. -/
theorem completed {root : Option Built}
    {failure : Option Failure} (hindex : PrefixCache.Inv index) (hc : s.callers[c]? = some caller)
    (hproduces : caller.phase.produces = some f) (hf : s.flights[f]? = some flight) (hnot : flight.done = false)
    (hsingle : root.isSome = failure.isNone) (hroot : ∀ built, root = some built → For caller built)
    (hflight : phase.flight = some f) (hwaits : phase.waitsFor = none)
    (hnext : ∀ g, phase.produces = some g → ∃ failure, phase = .unwinding f failure)
    (hok : CallerOk { caller with phase }) :
    Consistent (setPhase (complete { s with index, failPreparationAdmission := fail } f flight root failure)
      c caller phase) := by
  have hheld := Phase.flight_of_produces hproduces
  have hwaits' := Phase.waitsFor_of_produces hproduces
  obtain ⟨other, hother, hfits, hreg, -⟩ := h.producers c caller f hc hproduces
  obtain rfl := mem_unique hf hother
  have hpositive : flight.participants ≠ 0 := fun hzero => h.unheld hf hzero hc hheld
  let s₁ := setFlight { s with index, failPreparationAdmission := fail } f { flight with root, failure, done := true }
  obtain ⟨hslots, hgone, hsame, honce⟩ := clearSlot_registry (s := s₁) h.slots h.once f
  have u : Update s c caller f flight phase { flight with root, failure, done := true }
      (clearSlot s₁ f).preparations := {
    callerAt := hc
    flightAt := hf
    before := by simp [hheld]
    after := by simp [hflight]
    participants := by simp [hheld, hflight]
    waiters := by simp [hwaits, hwaits']
    result := by
      refine ⟨by simp, fun _ => hsingle, ?_, ?_, ?_, fun hzero => absurd hzero hpositive⟩
      · exact fun built hb => (hroot built hb).tokens.trans hfits.tokens.symm
      · exact fun built hb => hfits.model.trans (congrArg some (hroot built hb).model.symm)
      · exact fun built hb => (hroot built hb).epoch.trans hfits.epoch.symm
    ok := hok
    slots := hslots
    registry := hsame
    once := honce
    registered := fun hreg => absurd hreg hgone
    keys := fun hreg => absurd hreg hgone
    others := fun _ _ _ _ _ hx => ⟨hx.epoch, hx.model, hx.prefillRows, hx.tokens⟩
    producer := fun hp => ⟨⟨hfits.epoch, hfits.model, hfits.prefillRows, hfits.tokens⟩, by simp, fun _ => hnext f hp⟩
    sole := fun i x hi hx hp => absurd (h.sole i c x caller f hx hc hp hproduces) hi
    joiner := by simp [hwaits]
    decliners := fun _ _ _ _ _ hd => by simp [hnot] at hd }
  refine h.update u ?_ ?_ ?_ rfl
  · exact (clearSlot_index s₁ f).symm ▸ hindex
  · exact callers_complete _ f c flight root failure caller phase
  · exact clearSlot_flights s₁ f

section
variable (hc : s.callers[c]? = some caller)
include hc

theorem ended {failure : Failure}
    (hphase : caller.phase = .unwinding f failure) (hf : s.flights[f]? = some flight) (hdone : flight.done = true) :
    Consistent (setPhase s c caller (.leaving f (.threw failure))) := by
  have hproduces : caller.phase.produces = some f := by rw [hphase]; rfl
  have hunreg : some f ∉ s.preparations := by
    intro hreg
    obtain ⟨_, hother, hnot, -⟩ := h.registered f hreg
    obtain rfl := mem_unique hf hother
    simp [hdone] at hnot
  have u : Update s c caller f flight (.leaving f (.threw failure)) flight s.preparations := {
    callerAt := hc
    flightAt := hf
    before := by simp [hphase, Phase.flight]
    after := by simp [Phase.flight]
    participants := by simp [hphase, Phase.flight]
    waiters := by simp [hphase, Phase.waitsFor]
    result := h.results f flight hf
    ok := ⟨by simp, by simp, by simp [Phase.outcome]⟩
    slots := h.slots
    registry := fun _ _ => Iff.rfl
    once := h.once
    registered := fun hreg => absurd hreg hunreg
    keys := fun hreg => absurd hreg hunreg
    others := fun _ _ _ _ _ hx => hx
    producer := by simp [Phase.produces]
    sole := fun i x hi hx hp => absurd (h.sole i c x caller f hx hc hp hproduces) hi
    joiner := by simp [Phase.waitsFor]
    decliners := fun _ _ _ _ _ hd hn => ⟨hd, hn⟩ }
  refine h.update u h.index rfl ?_ rfl
  obtain ⟨hlt, rfl⟩ := List.getElem?_eq_some_iff.mp hf
  exact (set_getElem_self hlt).symm

theorem depart_shared (hheld : caller.phase.flight = some f)
    (hf : s.flights[f]? = some flight) {i : Nat} {x : Caller} (hi : i ≠ c) (hx : s.callers[i]? = some x)
    (hxf : x.phase.flight = some f) : depart flight = { flight with participants := flight.participants - 1 } := by
  have hcount := countP_move hc .start Phase.flight f
  have hnone : (Phase.flight .start == some f) = false := rfl
  have hmem : 0 < (s.callers.set c { caller with phase := .start }).countP fun x => x.phase.flight == some f := by
    rw [countP_pos_iff]
    exact ⟨x, mem_of_getElem? ((getElem?_set_ne (Ne.symm hi)).trans hx), by simp [hxf]⟩
  rw [hheld, hnone, ← h.participants f flight hf] at hcount
  simp only [beq_self_eq_true, if_true, Bool.false_eq_true, if_false] at hcount
  unfold depart
  rw [if_neg (by omega)]

theorem left (hphase : caller.phase = .leaving f outcome) (hf : s.flights[f]? = some flight) :
    Consistent (setPhase (setFlight s f (depart flight)) c caller (.finished outcome)) := by
  have hr := h.results f flight hf
  have hheld : caller.phase.flight = some f := by rw [hphase]; rfl
  have hpositive : flight.participants ≠ 0 := fun hzero => h.unheld hf hzero hc hheld
  have hother : ∀ {i : Nat} {x : Caller}, i ≠ c → s.callers[i]? = some x → x.phase.flight = some f →
      depart flight = { flight with participants := flight.participants - 1 } := h.depart_shared hc hheld hf
  have hcounts : (depart flight).participants = flight.participants - 1 ∧ (depart flight).waiters = flight.waiters := by
    unfold depart
    split
    · next hzero => exact ⟨hzero.symm, rfl⟩
    · exact ⟨rfl, rfl⟩
  have hresult : ResultOk (depart flight) := by
    unfold depart
    split
    · exact ⟨by simp, by simp, by simp, by simp, by simp, by simp⟩
    · next hnonzero => exact ⟨hr.blank, hr.single, hr.tokens, hr.model, hr.epoch, fun hzero => absurd hzero hnonzero⟩
  have hreg : some f ∈ s.preparations → depart flight = { flight with participants := flight.participants - 1 } ∧
      flight.done = false ∧ ∃ i x, i ≠ c ∧ s.callers[i]? = some x ∧ x.phase.produces = some f := by
    intro hreg
    obtain ⟨_, hsame, hnot, i, x, hx, hproduces⟩ := h.registered f hreg
    obtain rfl := mem_unique hf hsame
    have hi : i ≠ c := by
      rintro rfl
      obtain rfl := mem_unique hc hx
      simp [hphase, Phase.produces] at hproduces
    exact ⟨hother hi hx (Phase.flight_of_produces hproduces), hnot, i, x, hi, hx, hproduces⟩
  have u : Update s c caller f flight (.finished outcome) (depart flight) s.preparations := {
    callerAt := hc
    flightAt := hf
    before := by simp [hheld]
    after := by simp [Phase.flight]
    participants := by
      rw [hheld, hcounts.1, show (Phase.finished outcome).flight = none from rfl]
      simp only [beq_self_eq_true, if_true]
      exact Nat.sub_add_cancel (Nat.pos_of_ne_zero hpositive)
    waiters := by simp [hphase, Phase.waitsFor, hcounts.2]
    result := hresult
    ok := by
      have hok := h.callers c caller hc
      refine ⟨by simp, by simp, ?_⟩
      intro root joined hit hout
      obtain ⟨htokens, hepoch, hfor⟩ := hok.outcome root joined hit (by rw [hphase]; exact hout)
      exact ⟨htokens, hepoch, fun hhit => ⟨(hfor hhit).tokens, (hfor hhit).model, (hfor hhit).epoch⟩⟩
    slots := h.slots
    registry := fun _ _ => Iff.rfl
    once := h.once
    registered := by
      intro hmem
      obtain ⟨hsame, hnot, hproducer⟩ := hreg hmem
      exact ⟨hsame ▸ hnot, .inr hproducer⟩
    keys := by
      intro hmem g other who hg hreg' hother' hwho hwho'
      rw [(hreg hmem).1] at hwho
      exact hg (h.keys g f other flight who hreg' hmem hother' hf hwho'
        ⟨hwho.epoch, hwho.model, hwho.prefillRows, hwho.tokens⟩)
    others := by
      intro i x hi hx hxf hfits
      rw [hother hi hx hxf]
      exact ⟨hfits.epoch, hfits.model, hfits.prefillRows, hfits.tokens⟩
    producer := by simp [Phase.produces]
    sole := by
      intro i x hi hx hproduces
      rw [hother hi hx (Phase.flight_of_produces hproduces)]
      exact ⟨by simp [Phase.produces], rfl, id⟩
    joiner := by simp [Phase.waitsFor]
    decliners := by
      intro i x hi hx hxf hd hn
      rw [hother hi hx (by rw [hxf]; rfl)]
      exact ⟨hd, hn⟩ }
  exact h.update u h.index rfl rfl rfl

end

/-- Whatever a step does, the invariant is kept. -/
theorem next {s' : Service} (hnext : Next account s event s') : Consistent s' := by
  cases hnext with
  | spawned hstart => exact h.spawned hstart
  | changed hindex =>
    exact ⟨hindex, h.slots, h.participants, h.waiters, h.results, h.callers, h.registered, h.once, h.keys,
      h.producers, h.sole, h.joiners, h.held, h.decliners⟩
  | moved hindex m => exact h.moved hindex m
  | joined hindex _ hc hstart hjoins hf => exact h.joined hindex hc hstart (joins_matching hjoins) hf
  | registered hindex hc hstart hmatch hslot hflights hf hidle =>
    rcases hflights with ⟨-, rfl⟩ | ⟨-, rfl⟩
    · exact h.enrolled hindex hc hstart (fun _ _ => matching_none hmatch) hslot hf hidle
    refine h.grown.enrolled hindex hc hstart ?_ hslot hf hidle
    intro g other hreg hother
    obtain ⟨known, hknown, -⟩ := h.registered g hreg
    have hsame : known = other := by
      rw [getElem?_append_left (lt_of_getElem? hknown), hknown] at hother
      exact some.inj hother
    exact matching_none hmatch hreg (hsame ▸ hknown)
  | decided hc hwaits hf hdecision => exact h.decided hc hwaits hf hdecision
  | @succeeded c f caller flight callback root phase _ _ hindex hc hphase hf _ hnext =>
    have hproduces : caller.phase.produces = some f := by rw [hphase]; rfl
    have hfor := (h.callers c caller hc).built f callback root hphase
    obtain ⟨other, hother, -, -, hdone⟩ := h.producers c caller f hc hproduces
    obtain rfl := mem_unique hf hother
    have hnot : flight.done = false := by
      by_contra hd
      obtain ⟨failure, hunwinding⟩ := hdone (by simpa using hd)
      simp [hphase] at hunwinding
    have hsingle : (some root).isSome = flight.failure.isNone := by
      rw [((h.results f flight hf).blank hnot).2]
      rfl
    have hroot : ∀ built, some root = some built → For caller built := by
      intro built hb
      cases hb
      exact hfor
    rcases hnext with ⟨-, rfl⟩ | ⟨failure, -, rfl⟩
    · refine h.completed hindex hc hproduces hf hnot hsingle hroot rfl rfl (by simp [Phase.produces]) ?_
      refine ⟨by simp, by simp, ?_⟩
      intro built joined hit hout
      obtain ⟨rfl, -, -⟩ := hout
      exact ⟨hfor.tokens, hfor.epoch, fun _ => ⟨hfor.tokens, hfor.model, hfor.epoch⟩⟩
    exact h.completed hindex hc hproduces hf hnot hsingle hroot rfl rfl (fun _ _ => ⟨failure, rfl⟩)
      ⟨by simp, by simp, by simp [Phase.outcome]⟩
  | @failed c f caller flight failure hc hphase hf hnot =>
    have hproduces : caller.phase.produces = some f := by rw [hphase]; rfl
    have hblank := (h.results f flight hf).blank hnot
    exact h.completed (s := s) h.index hc hproduces hf hnot (by simp [hblank.1]) (by simp [hblank.1]) rfl rfl
      (by simp [Phase.produces]) ⟨by simp, by simp, by simp [Phase.outcome]⟩
  | ended hc hphase hf hdone => exact h.ended hc hphase hf hdone
  | left hc hphase hf => exact h.left hc hphase hf

end

end Consistent

end VoidInfer.Exl3.PrefixFlights
