import VoidInfer.Exl3.PrefixFlights
import VoidInfer.Lib.ListUpdate

/-
  The invariant of the shared preparations. A flight counts its participants and waiters; a registered flight is not
  done and has exactly one producer, for its own key; the flights in the registry have different keys; and a flight that
  nobody holds is blank. `Next` says what a step can do, and each of its cases keeps the invariant.
-/

namespace VoidInfer.Exl3.PrefixFlights
open List Option ListUpdate

variable {s : Service}

/-! ## What is known of flights and callers -/

/-- The flight is for the caller's input. -/
structure Fits (caller : Caller) (flight : PrefixPreparation) : Prop where
  epoch : flight.epoch = caller.epoch
  model : flight.model = some caller.model
  prefillRows : flight.prefillRows = caller.prefillRows
  tokens : flight.tokens = caller.tokens

variable {caller : Caller} {c : Nat}

theorem fits_iff {flight : PrefixPreparation} : fits caller flight = true ↔ Fits caller flight := by
  simp only [fits, Bool.and_eq_true, beq_iff_eq]
  constructor
  · intro h
    exact ⟨h.1.1.1, h.1.1.2, h.1.2, h.2⟩
  · intro h
    exact ⟨⟨⟨h.epoch, h.model⟩, h.prefillRows⟩, h.tokens⟩

/-- A root for the caller's input: its tokens and model, of its epoch. -/
structure For (caller : Caller) (built : Built) : Prop where
  tokens : built.root.tokens = caller.tokens
  model : built.root.request.modelIdentity = caller.model
  epoch : built.epoch = caller.epoch

/-- What is known of a flight's result. -/
structure ResultOk (flight : PrefixPreparation) : Prop where
  blank : flight.done = false → flight.root = none ∧ flight.failure = none
  single : flight.done = true → flight.root.isSome = flight.failure.isNone
  tokens : ∀ built, flight.root = some built → built.root.tokens = flight.tokens
  model : ∀ built, flight.root = some built → flight.model = some built.root.request.modelIdentity
  epoch : ∀ built, flight.root = some built → built.epoch = flight.epoch
  idle : flight.participants = 0 → flight.done = false

/-- What is known of a caller by itself. -/
structure CallerOk (caller : Caller) : Prop where
  built : ∀ f failure root, caller.phase = .built f failure root → For caller root
  aloneBuilt : ∀ root, caller.phase = .aloneBuilt root → For caller root
  outcome : ∀ root joined hit, caller.phase.outcome = some (.returned root joined hit) →
    root.root.tokens = caller.tokens ∧ root.epoch = caller.epoch ∧ (hit = false → For caller root)

/-- The invariant of the service. -/
structure Consistent (s : Service) : Prop where
  index : PrefixCache.Inv s.index
  slots : s.preparations.length = 8
  participants : ∀ (f : Nat) (flight : PrefixPreparation), s.flights[f]? = some flight →
    flight.participants = s.callers.countP fun caller => caller.phase.flight == some f
  waiters : ∀ (f : Nat) (flight : PrefixPreparation), s.flights[f]? = some flight →
    flight.waiters = s.callers.countP fun caller => caller.phase.waitsFor == some f
  results : ∀ (f : Nat) (flight : PrefixPreparation), s.flights[f]? = some flight → ResultOk flight
  callers : ∀ (c : Nat) (caller : Caller), s.callers[c]? = some caller → CallerOk caller
  /-- A registered flight is not done and is being produced. -/
  registered : ∀ f : Nat, some f ∈ s.preparations →
    ∃ flight : PrefixPreparation, s.flights[f]? = some flight ∧ flight.done = false ∧
      ∃ (c : Nat) (caller : Caller), s.callers[c]? = some caller ∧ caller.phase.produces = some f
  /-- No flight is registered twice. -/
  once : ∀ i j f : Nat, s.preparations[i]? = some (some f) → s.preparations[j]? = some (some f) → i = j
  /-- Registered flights have different keys. -/
  keys : ∀ (f f' : Nat) (flight flight' : PrefixPreparation) (caller : Caller),
    some f ∈ s.preparations → some f' ∈ s.preparations →
    s.flights[f]? = some flight → s.flights[f']? = some flight' →
    Fits caller flight → Fits caller flight' → f = f'
  /-- A producer's flight is for its input, and registered until it is done. -/
  producers : ∀ (c : Nat) (caller : Caller) (f : Nat), s.callers[c]? = some caller →
    caller.phase.produces = some f →
    ∃ flight : PrefixPreparation, s.flights[f]? = some flight ∧ Fits caller flight ∧
      (flight.done = false → some f ∈ s.preparations) ∧
      (flight.done = true → ∃ failure, caller.phase = .unwinding f failure)
  sole : ∀ (c c' : Nat) (caller caller' : Caller) (f : Nat),
    s.callers[c]? = some caller → s.callers[c']? = some caller' →
    caller.phase.produces = some f → caller'.phase.produces = some f → c = c'
  joiners : ∀ (c : Nat) (caller : Caller) (f : Nat), s.callers[c]? = some caller →
    caller.phase.waitsFor = some f →
    ∃ flight : PrefixPreparation, s.flights[f]? = some flight ∧ Fits caller flight
  held : ∀ (c : Nat) (caller : Caller) (f : Nat), s.callers[c]? = some caller →
    caller.phase.flight = some f → f < s.flights.length
  /-- The last callback of a joiner is called when there is a root. -/
  decliners : ∀ (c : Nat) (caller : Caller) (f : Nat) (flight : PrefixPreparation), s.callers[c]? = some caller →
    caller.phase = .declining f → s.flights[f]? = some flight → flight.done = true ∧ flight.failure = none

namespace Phase

variable {phase : Phase} {f : Nat}

theorem flight_of_produces (h : phase.produces = some f) : phase.flight = some f := by
  cases phase <;> simp_all [produces, flight]

theorem flight_of_waitsFor (h : phase.waitsFor = some f) : phase.flight = some f := by
  cases phase <;> simp_all [waitsFor, flight]

theorem waitsFor_of_produces (h : phase.produces = some f) : phase.waitsFor = none := by
  cases phase <;> simp_all [waitsFor, produces]

theorem produces_of_waitsFor (h : phase.waitsFor = some f) : phase.produces = none := by
  cases phase <;> simp_all [waitsFor, produces]

end Phase

namespace Consistent

variable {f : Nat} {flight : PrefixPreparation}

section
variable (h : Consistent s) (hf : s.flights[f]? = some flight)
include h hf

theorem unheld (hzero : flight.participants = 0) {c : Nat} {caller : Caller}
    (hc : s.callers[c]? = some caller) : caller.phase.flight ≠ some f := by
  intro hheld
  rw [h.participants f flight hf, countP_eq_zero] at hzero
  exact hzero caller (mem_of_getElem? hc) (by simp [hheld])

theorem awaited {c : Nat} {caller : Caller} (hc : s.callers[c]? = some caller)
    (hwaits : caller.phase.waitsFor = some f) : flight.waiters ≠ 0 := by
  intro hzero
  rw [h.waiters f flight hf, countP_eq_zero] at hzero
  exact hzero caller (mem_of_getElem? hc) (by simp [hwaits])

theorem unregistered (hzero : flight.participants = 0) : some f ∉ s.preparations := by
  intro hreg
  obtain ⟨-, -, -, c, caller, hc, hproduces⟩ := h.registered f hreg
  exact h.unheld hf hzero hc (Phase.flight_of_produces hproduces)

end

end Consistent

/-! ## One caller moves -/

theorem callers_set_self {callers : List Caller} {caller' : Caller}
    (hc : callers[c]? = some caller) : (callers.set c caller')[c]? = some caller' := by
  rw [getElem?_set_self (lt_of_getElem? hc)]

/-- A caller `c` moves to `phase`, its flight `f` becomes `flight'`, and the registry changes at most
    for this flight. -/
structure Update (s : Service) (c : Nat) (caller : Caller) (f : Nat) (flight : PrefixPreparation) (phase : Phase)
    (flight' : PrefixPreparation) (preparations : List (Option Nat)) : Prop where
  callerAt : s.callers[c]? = some caller
  flightAt : s.flights[f]? = some flight
  before : ∀ g, caller.phase.flight = some g → g = f
  after : ∀ g, phase.flight = some g → g = f
  participants : flight'.participants + (if caller.phase.flight == some f then 1 else 0) =
    flight.participants + if phase.flight == some f then 1 else 0
  waiters : flight'.waiters + (if caller.phase.waitsFor == some f then 1 else 0) =
    flight.waiters + if phase.waitsFor == some f then 1 else 0
  result : ResultOk flight'
  ok : CallerOk { caller with phase }
  slots : preparations.length = 8
  registry : ∀ g, g ≠ f → (some g ∈ preparations ↔ some g ∈ s.preparations)
  once : ∀ i j g : Nat, preparations[i]? = some (some g) → preparations[j]? = some (some g) → i = j
  /-- The flight is registered until it is done, and has a producer until then. -/
  registered : some f ∈ preparations → flight'.done = false ∧
    (phase.produces = some f ∨ ∃ i x, i ≠ c ∧ s.callers[i]? = some x ∧ x.phase.produces = some f)
  keys : some f ∈ preparations → ∀ (g : Nat) (other : PrefixPreparation) (x : Caller), g ≠ f →
    some g ∈ s.preparations → s.flights[g]? = some other → Fits x flight' → ¬ Fits x other
  /-- The other holders keep their flight's key. -/
  others : ∀ (i : Nat) (x : Caller), i ≠ c → s.callers[i]? = some x → x.phase.flight = some f →
    Fits x flight → Fits x flight'
  producer : phase.produces = some f → Fits { caller with phase } flight' ∧
    (flight'.done = false → some f ∈ preparations) ∧ (flight'.done = true → ∃ failure, phase = .unwinding f failure)
  /-- Where the caller is a producer, it is the only one. -/
  sole : ∀ (i : Nat) (x : Caller), i ≠ c → s.callers[i]? = some x → x.phase.produces = some f →
    phase.produces ≠ some f ∧ flight'.done = flight.done ∧ (some f ∈ s.preparations → some f ∈ preparations)
  joiner : phase.waitsFor = some f → Fits { caller with phase } flight' ∧ phase ≠ .declining f
  decliners : ∀ (i : Nat) (x : Caller), i ≠ c → s.callers[i]? = some x → x.phase = .declining f →
    flight.done = true → flight.failure = none → flight'.done = true ∧ flight'.failure = none

theorem countP_move (hc : s.callers[c]? = some caller) (phase : Phase) (p : Phase → Option Nat) (g : Nat) :
    (s.callers.set c { caller with phase }).countP (fun x => p x.phase == some g) +
        (if p caller.phase == some g then 1 else 0) =
      s.callers.countP (fun x => p x.phase == some g) + if p phase == some g then 1 else 0 :=
  countP_set_add hc (fun x => p x.phase == some g) { caller with phase }

theorem Consistent.update (h : Consistent s) {f : Nat} {flight : PrefixPreparation}
    {phase : Phase} {flight' : PrefixPreparation} {preparations : List (Option Nat)}
    (u : Update s c caller f flight phase flight' preparations) {s' : Service}
    (hindex : PrefixCache.Inv s'.index) (hcallers : s'.callers = s.callers.set c { caller with phase })
    (hflights : s'.flights = s.flights.set f flight') (hpreparations : s'.preparations = preparations) :
    Consistent s' := by
  have hc := u.callerAt
  have hf := u.flightAt
  have hwaitsBefore : ∀ g, caller.phase.waitsFor = some g → g = f :=
    fun g hg => u.before g (Phase.flight_of_waitsFor hg)
  have hwaitsAfter : ∀ g, phase.waitsFor = some g → g = f := fun g hg => u.after g (Phase.flight_of_waitsFor hg)
  have hproducesAfter : ∀ g, phase.produces = some g → g = f := fun g hg => u.after g (Phase.flight_of_produces hg)
  -- the new flight is where the old one was
  have hnew : s'.flights[f]? = some flight' := by
    rw [hflights, getElem?_set_self (lt_of_getElem? hf)]
  have hold : ∀ g, g ≠ f → s'.flights[g]? = s.flights[g]? := by
    intro g hg
    rw [hflights, getElem?_set_ne (Ne.symm hg)]
  have hat : ∀ i x, s'.callers[i]? = some x →
      (i = c ∧ x = { caller with phase }) ∨ (i ≠ c ∧ s.callers[i]? = some x) := by
    intro i x hx
    rw [hcallers] at hx
    exact getElem?_set_cases hx
  have hkept : ∀ i x, i ≠ c → s.callers[i]? = some x → s'.callers[i]? = some x := by
    intro i x hi hx
    rw [hcallers, getElem?_set_ne (Ne.symm hi), hx]
  have hself : s'.callers[c]? = some { caller with phase } := by
    rw [hcallers]
    exact callers_set_self hc
  have hcount : ∀ (p : Phase → Option Nat) g, g ≠ f → (∀ g, p caller.phase = some g → g = f) →
      (∀ g, p phase = some g → g = f) →
      s'.callers.countP (fun x => p x.phase == some g) = s.callers.countP fun x => p x.phase == some g := by
    intro p g hg hbefore hafter
    have hmove := countP_move hc phase p g
    have h1 : (p caller.phase == some g) = false := by
      simpa using fun he => hg (hbefore g he)
    have h2 : (p phase == some g) = false := by
      simpa using fun he => hg (hafter g he)
    rw [hcallers]
    simp only [h1, h2, Bool.false_eq_true, if_false] at hmove
    exact hmove
  have hflight : ∀ g x, s'.flights[g]? = some x → (g = f ∧ x = flight') ∨ (g ≠ f ∧ s.flights[g]? = some x) := by
    intro g x hx
    rw [hflights] at hx
    exact getElem?_set_cases hx
  refine ⟨hindex, hpreparations ▸ u.slots, ?_, ?_, ?_, ?_, ?_, hpreparations ▸ u.once, ?_, ?_, ?_, ?_, ?_, ?_⟩
  · intro g x hx
    rcases hflight g x hx with ⟨rfl, rfl⟩ | ⟨hg, hx⟩
    · have hmove := countP_move hc phase Phase.flight g
      have hbefore := h.participants g flight hf
      have hupdate := u.participants
      rw [hcallers]
      omega
    rw [hcount Phase.flight g hg u.before u.after]
    exact h.participants g x hx
  · intro g x hx
    rcases hflight g x hx with ⟨rfl, rfl⟩ | ⟨hg, hx⟩
    · have hmove := countP_move hc phase Phase.waitsFor g
      have hbefore := h.waiters g flight hf
      have hupdate := u.waiters
      rw [hcallers]
      omega
    rw [hcount Phase.waitsFor g hg hwaitsBefore hwaitsAfter]
    exact h.waiters g x hx
  · intro g x hx
    rcases hflight g x hx with ⟨rfl, rfl⟩ | ⟨hg, hx⟩
    · exact u.result
    · exact h.results g x hx
  · intro i x hx
    rcases hat i x hx with ⟨rfl, rfl⟩ | ⟨-, hx⟩
    · exact u.ok
    · exact h.callers i x hx
  · intro g hg
    rw [hpreparations] at hg
    by_cases hgf : g = f
    · subst hgf
      obtain ⟨hnot, hproducer⟩ := u.registered hg
      refine ⟨flight', hnew, hnot, ?_⟩
      rcases hproducer with hself' | ⟨i, x, hi, hx, hproduces⟩
      · exact ⟨c, _, hself, hself'⟩
      · exact ⟨i, x, hkept i x hi hx, hproduces⟩
    obtain ⟨other, hother, hnot, i, x, hx, hproduces⟩ := h.registered g ((u.registry g hgf).mp hg)
    refine ⟨other, (hold g hgf).trans hother, hnot, i, x, hkept i x ?_ hx, hproduces⟩
    rintro rfl
    rw [hc] at hx
    cases hx
    exact hgf (u.before g (Phase.flight_of_produces hproduces))
  · intro g g' x x' who hg hg' hx hx' hfits hfits'
    rw [hpreparations] at hg hg'
    rcases hflight g x hx with ⟨rfl, rfl⟩ | ⟨hgf, hx⟩
    · rcases hflight g' x' hx' with ⟨rfl, rfl⟩ | ⟨hgf', hx'⟩
      · rfl
      · exact absurd hfits' (u.keys hg g' x' who hgf' ((u.registry g' hgf').mp hg') hx' hfits)
    rcases hflight g' x' hx' with ⟨rfl, rfl⟩ | ⟨hgf', hx'⟩
    · exact absurd hfits (u.keys hg' g x who hgf ((u.registry g hgf).mp hg) hx hfits')
    · exact h.keys g g' x x' who ((u.registry g hgf).mp hg) ((u.registry g' hgf').mp hg') hx hx' hfits hfits'
  · intro i x g hx hproduces
    rw [hpreparations]
    rcases hat i x hx with ⟨rfl, rfl⟩ | ⟨hi, hx⟩
    · obtain rfl := hproducesAfter g hproduces
      exact ⟨flight', hnew, u.producer hproduces⟩
    obtain ⟨other, hother, hfits, hreg, hdone⟩ := h.producers i x g hx hproduces
    by_cases hgf : g = f
    · subst hgf
      rw [hf] at hother
      cases hother
      obtain ⟨-, hsame, hstill⟩ := u.sole i x hi hx hproduces
      refine ⟨flight', hnew, u.others i x hi hx (Phase.flight_of_produces hproduces) hfits, ?_, ?_⟩
      · exact fun hd => hstill (hreg (hsame ▸ hd))
      · exact fun hd => hdone (hsame ▸ hd)
    · exact ⟨other, (hold g hgf).trans hother, hfits, fun hd => (u.registry g hgf).mpr (hreg hd), hdone⟩
  · intro i j x y g hx hy hpx hpy
    rcases hat i x hx with ⟨rfl, rfl⟩ | ⟨hi, hx⟩
    · rcases hat j y hy with ⟨rfl, -⟩ | ⟨hj, hy⟩
      · rfl
      · obtain rfl := hproducesAfter g hpx
        exact absurd hpx (u.sole j y hj hy hpy).1
    rcases hat j y hy with ⟨rfl, rfl⟩ | ⟨-, hy⟩
    · obtain rfl := hproducesAfter g hpy
      exact absurd hpy (u.sole i x hi hx hpx).1
    · exact h.sole i j x y g hx hy hpx hpy
  · intro i x g hx hw
    rcases hat i x hx with ⟨rfl, rfl⟩ | ⟨hi, hx⟩
    · obtain rfl := hwaitsAfter g hw
      exact ⟨flight', hnew, (u.joiner hw).1⟩
    obtain ⟨other, hother, hfits⟩ := h.joiners i x g hx hw
    by_cases hgf : g = f
    · subst hgf
      rw [hf] at hother
      cases hother
      exact ⟨flight', hnew, u.others i x hi hx (Phase.flight_of_waitsFor hw) hfits⟩
    · exact ⟨other, (hold g hgf).trans hother, hfits⟩
  · intro i x g hx hheld
    rw [hflights, length_set]
    rcases hat i x hx with ⟨rfl, rfl⟩ | ⟨-, hx⟩
    · rw [u.after g hheld]
      exact lt_of_getElem? hf
    · exact h.held i x g hx hheld
  · intro i x g other hx hphase hother
    rcases hat i x hx with ⟨rfl, rfl⟩ | ⟨hi, hx⟩
    · have hw : phase.waitsFor = some g := by
        rw [show phase = .declining g from hphase]
        rfl
      obtain rfl := hwaitsAfter g hw
      exact absurd hphase (u.joiner hw).2
    rcases hflight g other hother with ⟨rfl, rfl⟩ | ⟨-, hother⟩
    · obtain ⟨hdone, hnone⟩ := h.decliners i x g flight hx hphase hf
      exact u.decliners i x hi hx hphase hdone hnone
    · exact h.decliners i x g other hx hphase hother

end VoidInfer.Exl3.PrefixFlights
