import Mathlib.Tactic.IntervalCases
import VoidInfer.Frontend.MediaCacheInv

/-
  Every step keeps the invariant of the media cache, whatever the order of the threads, and every flight is removed by
  its own completion.
-/

namespace VoidInfer.Frontend.MediaCache
open List Option
open Function (update update_of_ne update_self)

variable {κ ε : Type} {s s' : State κ ε} {key : κ} {payload : Payload} {f : Nat} {flight : Flight κ ε}

/-! ## Frames -/

theorem Inv.shrink (h : Inv s) (hcache : CacheOk s') (hrest : SameRest s s')
    (hready : ∀ k entry, s'.ready k = some entry → s.ready k = some entry) : Inv s' := by
  refine ⟨hcache, ?_, ?_, ?_, ?_, ?_, ?_, ?_⟩
  · rw [hrest.live, hrest.payloads, h.live]
  · rw [hrest.live, hrest.limit]
    exact h.live_le
  · rw [hrest.flights, hrest.inflight]
    exact h.own
  · rw [hrest.flights, hrest.inflight]
    exact h.mapped
  · rw [hrest.flights, hrest.nextFlight]
    exact h.fresh
  · intro g other hg hearly
    rw [hrest.flights] at hg
    cases hk : s'.ready other.key with
    | none => rfl
    | some entry =>
      have hnone := h.unready g other hg hearly
      rw [hready _ _ hk] at hnone
      cases hnone
  · intro p hp
    rw [hrest.payloads]
    refine h.refs p ?_
    rcases hp with hp | ⟨k, hk⟩ | ⟨g, other, hg, hp⟩
    · rw [hrest.handles] at hp
      exact .inl hp
    · exact .inr (.inl ⟨k, hready _ _ hk⟩)
    rw [hrest.flights] at hg
    exact .inr (.inr ⟨g, other, hg, hp⟩)

theorem update_cases {α : Type} {m : Nat → Option α} {a b : Nat} {x y : α}
    (h : update m a (some x) b = some y) : (b = a ∧ y = x) ∨ (b ≠ a ∧ m b = some y) := by
  by_cases hba : b = a
  · subst hba
    rw [update_self] at h
    exact .inl ⟨rfl, (some.inj h).symm⟩
  rw [update_of_ne hba] at h
  exact .inr ⟨hba, h⟩

theorem Inv.ne_fresh (h : Inv s) (hf : s.flights f = some flight) {g : Nat} (hg : s.nextFlight ≤ g) : g ≠ f := by
  rintro rfl
  rw [h.fresh g hg] at hf
  cases hf

theorem Inv.setPhase (phase : Phase ε) (handles : List Payload) (h : Inv s) (hf : s.flights f = some flight)
    (hopen : flight.phase.Open) (hopen' : phase.Open) (hearly : phase.Early → flight.phase.Early)
    (hhandles : ∀ p ∈ handles, Held s p) (hpayload : ∀ p, phase.payload? = some p → Held s p) :
    Inv (setPhase { s with handles } f flight phase) := by
  have hcases : ∀ {g other}, (MediaCache.setPhase { s with handles } f flight phase).flights g = some other →
      (g = f ∧ other = { flight with phase }) ∨ (g ≠ f ∧ s.flights g = some other) := update_cases
  refine ⟨{ h.cache with }, h.live, h.live_le, ?_, ?_, ?_, ?_, ?_⟩
  · intro g other hg hgopen
    rcases hcases hg with ⟨rfl, rfl⟩ | ⟨-, hg⟩
    · exact h.own g flight hf hopen
    · exact h.own g other hg hgopen
  · intro k g hg
    obtain ⟨other, hother, hkey, hgopen⟩ := h.mapped k g hg
    by_cases hgf : g = f
    · subst hgf
      obtain rfl := mem_unique hf hother
      exact ⟨{ flight with phase }, update_self .., hkey, hopen'⟩
    refine ⟨other, ?_, hkey, hgopen⟩
    show update s.flights f _ g = _
    rw [update_of_ne hgf, hother]
  · intro g hg
    show update s.flights f _ g = _
    rw [update_of_ne (h.ne_fresh hf hg), h.fresh g hg]
  · intro g other hg hgearly
    rcases hcases hg with ⟨rfl, rfl⟩ | ⟨-, hg⟩
    · exact h.unready g flight hf (hearly hgearly)
    · exact h.unready g other hg hgearly
  · intro p hp
    rcases hp with hp | ⟨k, hk⟩ | ⟨g, other, hg, hp⟩
    · exact h.refs p (hhandles p hp)
    · exact h.refs p (.inr (.inl ⟨k, hk⟩))
    rcases hcases hg with ⟨rfl, rfl⟩ | ⟨-, hg⟩
    · exact h.refs p (hpayload p hp)
    · exact h.refs p (.inr (.inr ⟨g, other, hg, hp⟩))

theorem Inv.handles (h : Inv s) {handles : List Payload} (hhandles : ∀ p ∈ handles, Held s p) :
    Inv { s with handles } := by
  refine ⟨{ h.cache with }, h.live, h.live_le, h.own, h.mapped, h.fresh, h.unready, ?_⟩
  intro p hp
  rcases hp with hp | hp
  · exact h.refs p (hhandles p hp)
  · exact h.refs p (.inr hp)

theorem held_erase {p : Payload} (hp : p ∈ s.handles.erase payload) : Held s p := .inl (mem_of_mem_erase hp)

theorem held_cons (hpayload : Held s payload) {p : Payload} (hp : p ∈ payload :: s.handles) : Held s p := by
  rcases mem_cons.mp hp with rfl | hp
  · exact hpayload
  · exact .inl hp

/-! ## The account -/

theorem inv_tryReserve {bytes : Nat} (h : Inv s) (hok : tryReserve bytes s = some s') : Inv s' := by
  unfold tryReserve at hok
  split at hok
  · cases hok
  next hroom =>
  cases hok
  refine ⟨{ h.cache with }, ?_, ?_, h.own, h.mapped, h.fresh, h.unready, ?_⟩
  · rw [map_cons, sum_cons, h.live, Nat.add_comm]
  · dsimp only
    omega
  · intro p hp
    rcases hp with hp | hp
    · rcases mem_cons.mp hp with rfl | hp
      · exact mem_cons_self ..
      · exact mem_cons_of_mem _ (h.refs p (.inl hp))
    · exact mem_cons_of_mem _ (h.refs p (.inr hp))

theorem held_of_Held (h : Inv s) (hp : Held s payload) : held s payload = true := by
  unfold held
  rw [Bool.or_eq_true, Bool.or_eq_true]
  rcases hp with hp | ⟨k, hk⟩ | ⟨g, other, hg, hp⟩
  · exact .inl (.inl (contains_iff_mem.mpr hp))
  · refine .inl (.inr (List.any_eq_true.mpr ⟨k, (h.cache.keys k).mpr (by rw [hk]; rfl), ?_⟩))
    rw [hk]
    simp
  refine .inr (List.any_eq_true.mpr ⟨g, mem_range.mpr ?_, ?_⟩)
  · by_contra hge
    rw [h.fresh g (Nat.not_lt.mp hge)] at hg
    cases hg
  rw [hg]
  simpa using hp

theorem release_spec (h : Inv s) (hmem : payload ∈ s.payloads) (hfree : held s payload = false) :
    ∃ s', release payload s = .ok s' ∧ Inv s' := by
  have hsum : s.live = payload.bytes + ((s.payloads.erase payload).map (·.bytes)).sum := by
    rw [h.live, ((perm_cons_erase hmem).map _).sum_nat, map_cons, sum_cons]
  refine ⟨_, by unfold release; rw [if_neg (by omega)], ?_⟩
  refine ⟨{ h.cache with }, ?_, ?_, h.own, h.mapped, h.fresh, h.unready, ?_⟩
  · dsimp only
    omega
  · exact (Nat.sub_le _ _).trans h.live_le
  · intro p hp
    have hne : p ≠ payload := by
      intro heq
      subst heq
      rw [held_of_Held h hp] at hfree
      cases hfree
    exact (mem_erase_of_ne hne).mpr (h.refs p hp)

/-! ## The sections -/

variable [DecidableEq κ]

theorem inv_beginPrepare (h : Inv s) : Inv (beginPrepare key s).2 := by
  unfold beginPrepare
  split
  · next entry hentry =>
    have hmem : key ∈ s.lru := (h.cache.keys key).mpr (by rw [hentry]; rfl)
    have hperm : s.lru.Perm (key :: s.lru.erase key) := perm_cons_erase hmem
    have hheld : Held s ⟨entry.payload, entry.bytes⟩ := .inr (.inl ⟨key, hentry⟩)
    have hhandles := h.handles fun p hp => held_cons hheld hp
    refine ⟨⟨?_, ?_, ?_, h.cache.bounded⟩, h.live, h.live_le, h.own, h.mapped, h.fresh, h.unready, hhandles.refs⟩
    · exact hperm.nodup_iff.mp h.cache.nodup
    · intro k
      rw [← h.cache.keys]
      exact hperm.symm.mem_iff
    · refine h.cache.retained.trans ?_
      exact (hperm.map _).sum_nat
  next hnone =>
  split
  · exact h
  next hfree =>
  have hnew : ∀ {g other}, update s.flights s.nextFlight (some { key }) g = some other →
      (g = s.nextFlight ∧ other = { key }) ∨ s.flights g = some other :=
    fun hg => (update_cases hg).imp_right And.right
  have hold : ∀ {g other}, s.flights g = some other → g ≠ s.nextFlight := by
    intro g other hg hgf
    rw [hgf, h.fresh _ le_rfl] at hg
    cases hg
  refine ⟨{ h.cache with }, h.live, h.live_le, ?_, ?_, ?_, ?_, ?_⟩
  · intro g other hg hopen
    dsimp only at hg ⊢
    rcases hnew hg with ⟨rfl, rfl⟩ | hg
    · exact update_self ..
    have hown := h.own g other hg hopen
    have hne : other.key ≠ key := by
      intro heq
      rw [heq, hfree] at hown
      cases hown
    rw [update_of_ne hne, hown]
  · intro k g hg
    dsimp only at hg ⊢
    by_cases hk : k = key
    · subst hk
      rw [update_self] at hg
      cases hg
      exact ⟨{ key := k }, update_self .., rfl, trivial⟩
    rw [update_of_ne hk] at hg
    obtain ⟨other, hother, hkey, hopen⟩ := h.mapped k g hg
    exact ⟨other, by rw [update_of_ne (hold hother), hother], hkey, hopen⟩
  · intro g hg
    dsimp only at hg ⊢
    rw [update_of_ne (by omega), h.fresh g (by omega)]
  · intro g other hg hearly
    rcases hnew hg with ⟨rfl, rfl⟩ | hg
    · exact hnone
    · exact h.unready g other hg hearly
  · intro p hp
    rcases hp with hp | hp | ⟨g, other, hg, hp⟩
    · exact h.refs p (.inl hp)
    · exact h.refs p (.inr (.inl hp))
    rcases hnew hg with ⟨rfl, rfl⟩ | hg
    · simp [Phase.payload?] at hp
    · exact h.refs p (.inr (.inr ⟨g, other, hg, hp⟩))

/-- What a flight publishes is its own, under its key, which is not ready. -/
theorem inv_publish (h : Inv s) (hf : s.flights f = some flight) (hphase : flight.phase = .built payload) :
    ∃ s', publish flight.key payload s = .ok s' ∧ Inv (setPhase s' f flight (.published payload)) := by
  have hnone := h.unready f flight hf (by rw [hphase]; trivial)
  obtain ⟨s', hpublish, hcache, hrest, hready⟩ := publish_spec payload h.cache hnone
  refine ⟨s', hpublish, ?_⟩
  have hheld : Held s payload := .inr (.inr ⟨f, flight, hf, by rw [hphase]; rfl⟩)
  have hopen : flight.phase.Open := by rw [hphase]; trivial
  -- first the phase, in the old cache; then the new one
  have hphased := h.setPhase (.published payload) s.handles hf hopen trivial (fun hfalse => hfalse.elim)
    (fun p hp => .inl hp) (fun p hp => by obtain rfl := some.inj hp; exact hheld)
  have hflights : (setPhase s' f flight (.published payload)).flights =
      (setPhase s f flight (.published payload)).flights := by
    unfold setPhase
    rw [hrest.flights]
  refine ⟨⟨hcache.nodup, hcache.keys, hcache.retained, hcache.bounded⟩, ?_, ?_, ?_, ?_, ?_, ?_, ?_⟩
  · show s'.live = (s'.payloads.map _).sum
    rw [hrest.live, hrest.payloads, h.live]
  · show s'.live ≤ s'.limit
    rw [hrest.live, hrest.limit]
    exact h.live_le
  · intro g other hg
    rw [hflights] at hg
    show _ → s'.inflight _ = _
    rw [hrest.inflight]
    exact hphased.own g other hg
  · intro k g hg
    have hg : s'.inflight k = some g := hg
    rw [hrest.inflight] at hg
    rw [hflights]
    exact hphased.mapped k g hg
  · intro g hg
    have hg : s'.nextFlight ≤ g := hg
    rw [hrest.nextFlight] at hg
    rw [hflights]
    exact hphased.fresh g hg
  · intro g other hg hearly
    rw [hflights] at hg
    have hold := hphased.unready g other hg hearly
    cases hk : s'.ready other.key with
    | none => exact hk
    | some entry =>
      rcases hready _ _ hk with hk' | ⟨hkey, -⟩
      · rw [show s.ready other.key = none from hold] at hk'
        cases hk'
      -- the key of another early flight is another one
      have hown := hphased.own g other hg hearly.open
      have hown' := h.own f flight hf hopen
      rw [hkey] at hown
      obtain rfl : f = g := mem_unique hown' hown
      have : (setPhase s f flight (.published payload)).flights f = some { flight with phase := .published payload } :=
        update_self ..
      obtain rfl := mem_unique this hg
      exact hearly.elim
  · intro p hp
    show p ∈ s'.payloads
    rw [hrest.payloads]
    rcases hp with hp | ⟨k, hk⟩ | ⟨g, other, hg, hp⟩
    · have hp : p ∈ s'.handles := hp
      rw [hrest.handles] at hp
      exact h.refs p (.inl hp)
    · rcases hready k _ hk with hk | ⟨-, hentry⟩
      · exact h.refs p (.inr (.inl ⟨k, hk⟩))
      · obtain rfl : p = payload := by
          cases p
          simp_all
        exact h.refs p hheld
    rw [hflights] at hg
    exact hphased.refs p (.inr (.inr ⟨g, other, hg, hp⟩))

theorem inv_remove (h : Inv s) (hf : s.flights f = some flight) {result : Option Payload} {error : Option ε}
    (hphase : flight.phase = .done result error) :
    Inv (setPhase { s with inflight := update s.inflight flight.key none } f flight (.removed result error)) := by
  have hopen : flight.phase.Open := by rw [hphase]; trivial
  have hown := h.own f flight hf hopen
  have hcases : ∀ {g other}, update s.flights f (some { flight with phase := .removed result error }) g = some other →
      (g = f ∧ other = { flight with phase := .removed result error }) ∨ (g ≠ f ∧ s.flights g = some other) := update_cases
  refine ⟨{ h.cache with }, h.live, h.live_le, ?_, ?_, ?_, ?_, ?_⟩
  · intro g other hg hgopen
    show update s.inflight flight.key none other.key = some g
    rcases hcases hg with ⟨rfl, rfl⟩ | ⟨hgf, hg⟩
    · exact hgopen.elim
    have hgown := h.own g other hg hgopen
    have hne : other.key ≠ flight.key := by
      intro heq
      rw [heq, hown] at hgown
      exact hgf (some.inj hgown).symm
    rw [update_of_ne hne, hgown]
  · intro k g hg
    have hg : update s.inflight flight.key none k = some g := hg
    have hk : k ≠ flight.key := by
      intro heq
      subst heq
      rw [update_self] at hg
      cases hg
    rw [update_of_ne hk] at hg
    obtain ⟨other, hother, hkey, hgopen⟩ := h.mapped k g hg
    have hgf : g ≠ f := by
      intro heq
      subst heq
      obtain rfl := mem_unique hf hother
      exact hk hkey.symm
    refine ⟨other, ?_, hkey, hgopen⟩
    show update s.flights f _ g = _
    rw [update_of_ne hgf, hother]
  · intro g hg
    show update s.flights f _ g = _
    rw [update_of_ne (h.ne_fresh hf hg), h.fresh g hg]
  · intro g other hg hearly
    rcases hcases hg with ⟨rfl, rfl⟩ | ⟨-, hg⟩
    · exact hearly.elim
    · exact h.unready g other hg hearly
  · intro p hp
    rcases hp with hp | hp | ⟨g, other, hg, hp⟩
    · exact h.refs p (.inl hp)
    · exact h.refs p (.inr (.inl hp))
    rcases hcases hg with ⟨rfl, rfl⟩ | ⟨-, hg⟩
    · exact h.refs p (.inr (.inr ⟨g, flight, hf, by rw [hphase]; exact hp⟩))
    · exact h.refs p (.inr (.inr ⟨g, other, hg, hp⟩))

/-! ## Steps -/

/-- The sections that are left to a flight. -/
def Phase.rank : Phase ε → Nat
  | .registered => 6
  | .queued => 5
  | .building => 4
  | .built _ => 3
  | .published _ | .failed _ _ => 2
  | .done _ _ => 1
  | .removed _ _ => 0

/-- The error that a flight has come to. -/
def Phase.error? : Phase ε → Option ε
  | .failed _ error => some error
  | .done _ error | .removed _ error => error
  | _ => none

/-- The error that an event brings to a flight. -/
def Event.failure? : Event κ ε → Option ε
  | .refuse _ error | .buildFailed _ _ error => some error
  | _ => none

/-- What a section of a flight's own completion does. -/
structure Advanced (s s' : State κ ε) (f : Nat) (flight : Flight κ ε) (event : Event κ ε) : Prop where
  inv : Inv s'
  capacity : s'.capacityBytes = s.capacityBytes
  limit : s'.limit = s.limit
  flights : ∃ phase, s'.flights = update s.flights f (some { flight with phase }) ∧
    phase.error? = event.failure?.or flight.phase.error? ∧ phase.rank < flight.phase.rank ∧
    ((phase.Open ∧ s'.inflight = s.inflight) ∨
      ((∃ g, event = .remove g) ∧ s'.inflight = update s.inflight flight.key none))

variable {event : Event κ ε} {result : Except Exn (State κ ε)} {run : Nat → State κ ε}
  {events : Nat → Event κ ε}

theorem advance_setPhase {before phase : Phase ε} {handles : List Payload} (h : Inv s)
    (hf : s.flights f = some flight) (hphase : flight.phase = before)
    (hearly : phase.Early → before.Early) (hhandles : ∀ p ∈ handles, Held s p)
    (hpayload : ∀ p, phase.payload? = some p → Held s p) (hopen : before.Open := by trivial)
    (hopen' : phase.Open := by trivial) (herror : phase.error? = event.failure?.or before.error? := by rfl)
    (hrank : phase.rank < before.rank := by simp [Phase.rank]) :
    Advanced s (setPhase { s with handles } f flight phase) f flight event := by
  subst hphase
  exact ⟨h.setPhase phase handles hf hopen hopen' hearly hhandles hpayload, rfl, rfl, phase, rfl, herror, hrank,
    .inl ⟨hopen', rfl⟩⟩

theorem advance_spec (h : Inv s) (hf : s.flights f = some flight)
    (hadvance : advance s f flight event = some result) : ∃ s', result = .ok s' ∧ Advanced s s' f flight event := by
  have hsame : ∀ p ∈ s.handles, Held s p := fun p hp => .inl hp
  have hself : ∀ p, flight.phase.payload? = some p → Held s p := fun p hp => .inr (.inr ⟨f, flight, hf, hp⟩)
  unfold advance at hadvance
  split at hadvance
  · next hphase =>
    cases hadvance
    exact ⟨_, rfl, advance_setPhase h hf hphase (fun _ => trivial) hsame nofun⟩
  · next hphase =>
    cases hadvance
    exact ⟨_, rfl, advance_setPhase h hf hphase (fun _ => trivial) hsame nofun⟩
  · next hphase =>
    cases hadvance
    exact ⟨_, rfl, advance_setPhase h hf hphase (fun _ => trivial) hsame nofun⟩
  · next p hphase =>
    split at hadvance
    · next hmem =>
      cases hadvance
      exact ⟨_, rfl, advance_setPhase h hf hphase (fun _ => trivial)
        (fun q hq => held_erase hq) fun q hq => by cases hq; exact .inl hmem⟩
    · cases hadvance
  · next p error hphase =>
    split at hadvance
    · next hmem =>
      cases hadvance
      exact ⟨_, rfl, advance_setPhase h hf hphase (fun _ => trivial)
        (fun q hq => held_erase hq) fun q hq => by cases hq; exact .inl hmem⟩
    · cases hadvance
  · next error hphase =>
    cases hadvance
    exact ⟨_, rfl, advance_setPhase h hf hphase (fun _ => trivial) hsame nofun⟩
  · next p _ hphase =>
    obtain ⟨s', hpublish, hinv⟩ := inv_publish h hf hphase
    obtain ⟨s'', hpublish', -, hrest, -⟩ := publish_spec p h.cache (h.unready f flight hf (by rw [hphase]; trivial))
    obtain rfl := Except.ok.inj (hpublish.symm.trans hpublish')
    rw [hpublish] at hadvance
    cases hadvance
    refine ⟨_, rfl, hinv, hrest.capacity, hrest.limit, .published p, ?_, by rw [hphase]; rfl,
      by rw [hphase]; simp [Phase.rank],
      .inl ⟨trivial, hrest.inflight⟩⟩
    unfold setPhase
    dsimp only
    rw [hrest.flights]
  · next p hphase =>
    cases hadvance
    exact ⟨_, rfl, advance_setPhase h hf hphase False.elim hsame fun q hq => hself q (by rw [hphase]; exact hq)⟩
  · next p error hphase =>
    cases hadvance
    exact ⟨_, rfl, advance_setPhase h hf hphase False.elim hsame fun q hq => hself q (by rw [hphase]; exact hq)⟩
  · next p error _ hphase =>
    cases hadvance
    exact ⟨_, rfl, inv_remove h hf hphase, rfl, rfl, .removed p error, rfl, by rw [hphase]; rfl,
      by rw [hphase]; simp [Phase.rank],
      .inr ⟨⟨_, rfl⟩, rfl⟩⟩
  · cases hadvance

/-- The flight whose completion an event is a section of. -/
def Event.own? : Event κ ε → Option Nat
  | .submit f | .refuse f _ | .start f | .build f _ | .buildFailed f _ _ | .publish f | .settle f | .remove f => some f
  | _ => none

theorem step_own (hown : event.own? = some f) :
    step s event = (s.flights f).bind fun flight => advance s f flight event := by
  cases event <;> first | (obtain rfl := some.inj hown; rfl) | cases hown

/-- What any other step does. -/
structure Aside (s s' : State κ ε) (event : Event κ ε) : Prop where
  inv : Inv s'
  capacity : s'.capacityBytes = s.capacityBytes
  limit : s'.limit = s.limit
  flights : ∀ (f : Nat) (flight : Flight κ ε), s.flights f = some flight → flight.phase.Open ∨ event ≠ .forget f →
    s'.flights f = some flight
  inflight : ∀ key f, s.inflight key = some f → s'.inflight key = some f
  known : ∀ (f : Nat) (flight : Flight κ ε), s'.flights f = some flight →
    s.flights f = some flight ∨ (f = s.nextFlight ∧ flight = { key := flight.key } ∧ event = .beginPrepare flight.key)

omit [DecidableEq κ] in
theorem Aside.still (hinv : Inv s') (hcapacity : s'.capacityBytes = s.capacityBytes := by rfl)
    (hlimit : s'.limit = s.limit := by rfl) (hflights : s'.flights = s.flights := by rfl)
    (hinflight : s'.inflight = s.inflight := by rfl) : Aside s s' event where
  inv := hinv
  capacity := hcapacity
  limit := hlimit
  flights _ _ hf _ := by rw [hflights, hf]
  inflight _ _ hk := by rw [hinflight, hk]
  known _ _ hf := by
    rw [hflights] at hf
    exact .inl hf

theorem step_aside (h : Inv s) (hown : event.own? = none)
    (hstep : step s event = some result) : ∃ s', result = .ok s' ∧ Aside s s' event := by
  cases event with simp only [step] at hstep
  | beginPrepare k =>
    cases hstep
    have hinv : Inv (beginPrepare k s).2 := inv_beginPrepare h
    refine ⟨_, rfl, ?_⟩
    revert hinv
    unfold beginPrepare
    split
    · exact fun hinv => .still hinv
    split
    · exact fun hinv => .still hinv
    next hfree =>
    refine fun hinv => ⟨hinv, rfl, rfl, ?_, ?_, ?_⟩
    · intro g other hg _
      have hgf : g ≠ s.nextFlight := by
        intro heq
        rw [heq, h.fresh _ le_rfl] at hg
        cases hg
      dsimp only
      rw [update_of_ne hgf, hg]
    · intro k' g hg
      have hk : k' ≠ k := by
        intro heq
        rw [heq, hfree] at hg
        cases hg
      dsimp only
      rw [update_of_ne hk, hg]
    intro g other hg
    dsimp only at hg
    by_cases hgf : g = s.nextFlight
    · subst hgf
      rw [update_self] at hg
      cases hg
      exact .inr ⟨rfl, rfl, rfl⟩
    rw [update_of_ne hgf] at hg
    exact .inl hg
  | await g =>
    obtain ⟨other, hg, hstep⟩ := bind_eq_some_iff.mp hstep
    have hheld : ∀ {p}, other.phase.payload? = some p → ∀ q ∈ p :: s.handles, Held s q := fun hp q hq =>
      held_cons (.inr (.inr ⟨g, other, hg, hp⟩)) hq
    split at hstep
    · next hphase =>
      cases hstep
      exact ⟨_, rfl, .still (h.handles (hheld (by rw [hphase]; rfl)))⟩
    · next hphase =>
      cases hstep
      exact ⟨_, rfl, .still (h.handles (hheld (by rw [hphase]; rfl)))⟩
    · cases hstep
  | forget g =>
    obtain ⟨other, hg, hstep⟩ := bind_eq_some_iff.mp hstep
    split at hstep
    · next hphase =>
      cases hstep
      have hcases : ∀ {f flight}, update s.flights g none f = some flight → s.flights f = some flight := by
        intro f flight hf
        by_cases hfg : f = g
        · subst hfg
          rw [update_self] at hf
          cases hf
        · rwa [update_of_ne hfg] at hf
      have hkeep : ∀ {f flight}, s.flights f = some flight → flight.phase.Open ∨ (Event.forget g : Event κ ε) ≠ .forget f →
          update s.flights g none f = some flight := by
        intro f flight hf hopen
        have hfg : f ≠ g := by
          intro heq
          subst heq
          obtain rfl := mem_unique hg hf
          rw [hphase] at hopen
          exact hopen.elim id fun hne => hne rfl
        rw [update_of_ne hfg, hf]
      refine ⟨_, rfl, ⟨{ h.cache with }, h.live, h.live_le, ?_, ?_, ?_, ?_, ?_⟩,
        rfl, rfl, fun f flight hf hopen => hkeep hf hopen, fun _ _ hk => hk, fun f flight hf => .inl (hcases hf)⟩
      · exact fun f flight hf => h.own f flight (hcases hf)
      · intro k f hk
        obtain ⟨flight, hf, hkey, hopen⟩ := h.mapped k f hk
        exact ⟨flight, hkeep hf (.inl hopen), hkey, hopen⟩
      · intro f hf
        cases hflight : update s.flights g none f with
        | none => exact hflight
        | some flight =>
          have := hcases hflight
          rw [h.fresh f hf] at this
          cases this
      · exact fun f flight hf => h.unready f flight (hcases hf)
      · intro p hp
        rcases hp with hp | hp | ⟨f, flight, hf, hp⟩
        · exact h.refs p (.inl hp)
        · exact h.refs p (.inr (.inl hp))
        · exact h.refs p (.inr (.inr ⟨f, flight, hcases hf, hp⟩))
    · cases hstep
  | reserve bytes =>
    obtain ⟨s', hreserve, rfl⟩ := map_eq_some_iff.mp hstep
    have hinv := inv_tryReserve h hreserve
    unfold tryReserve at hreserve
    split at hreserve
    · cases hreserve
    cases hreserve
    exact ⟨_, rfl, .still hinv⟩
  | evict =>
    cases hstep
    obtain ⟨s', hevict, hcache, hevicted, -⟩ := evictOne_spec h.cache
    have hrest := hevicted.rest
    exact ⟨s', hevict, .still (h.shrink hcache hrest hevicted.ready) hrest.capacity hrest.limit hrest.flights
      hrest.inflight⟩
  | copy p =>
    split at hstep
    · next hmem =>
      cases hstep
      exact ⟨_, rfl, .still (h.handles fun q hq => held_cons (.inl hmem) hq)⟩
    · cases hstep
  | drop p =>
    split at hstep
    · cases hstep
      exact ⟨_, rfl, .still (h.handles fun q hq => held_erase hq)⟩
    · cases hstep
  | destroy p =>
    split at hstep
    · next hgone =>
      cases hstep
      obtain ⟨s', hrelease, hinv⟩ := release_spec h hgone.1 hgone.2
      refine ⟨s', hrelease, ?_⟩
      unfold release at hrelease
      split at hrelease
      · cases hrelease
      cases hrelease
      exact .still hinv
    · cases hstep
  | submit | refuse | start | build | buildFailed | publish | settle | remove => cases hown

theorem step_spec (h : Inv s) (hstep : step s event = some result) :
    ∃ s', result = .ok s' ∧ ((event.own? = none ∧ Aside s s' event) ∨
      ∃ f flight, event.own? = some f ∧ s.flights f = some flight ∧ Advanced s s' f flight event) := by
  cases hown : event.own? with
  | none =>
    obtain ⟨s', hresult, haside⟩ := step_aside h hown hstep
    exact ⟨s', hresult, .inl ⟨rfl, haside⟩⟩
  | some f =>
    rw [step_own hown] at hstep
    obtain ⟨flight, hf, hadvance⟩ := bind_eq_some_iff.mp hstep
    obtain ⟨s', hresult, hadvanced⟩ := advance_spec h hf hadvance
    exact ⟨s', hresult, .inr ⟨f, flight, rfl, hf, hadvanced⟩⟩

theorem inv_step (h : Inv s) (hstep : step s event = some (.ok s')) :
    Inv s' ∧ s'.capacityBytes = s.capacityBytes ∧ s'.limit = s.limit := by
  obtain ⟨s'', hresult, hcases⟩ := step_spec h hstep
  cases hresult
  rcases hcases with ⟨-, haside⟩ | ⟨f, flight, -, -, hadvanced⟩
  · exact ⟨haside.inv, haside.capacity, haside.limit⟩
  · exact ⟨hadvanced.inv, hadvanced.capacity, hadvanced.limit⟩

variable {capacityBytes limit n : Nat}

omit [DecidableEq κ] in
theorem inv_start : Inv ({ capacityBytes, limit } : State κ ε) := by
  refine ⟨⟨nodup_nil, by simp, rfl, Nat.zero_le _⟩, rfl, Nat.zero_le _, by simp, by simp, by simp, by simp, ?_⟩
  rintro p (hp | ⟨k, hk⟩ | ⟨f, flight, hf, -⟩)
  · exact hp
  · cases hk
  · cases hf

theorem inv_reaches (h : Inv s) (hreach : Reaches s s') :
    Inv s' ∧ s'.capacityBytes = s.capacityBytes ∧ s'.limit = s.limit := by
  induction hreach with
  | refl => exact ⟨h, rfl, rfl⟩
  | tail _ hstep ih =>
    obtain ⟨event, hstep⟩ := hstep
    obtain ⟨hinv, hcapacity, hlimit⟩ := inv_step ih.1 hstep
    exact ⟨hinv, hcapacity.trans ih.2.1, hlimit.trans ih.2.2⟩

/-! ## Completion -/

section
variable (h : Inv s) (hstep : step s event = some (.ok s'))
include h hstep

theorem step_flight (hf : s.flights f = some flight) (hopen : flight.phase.Open) :
    (event = .remove f ∧ s.inflight flight.key = some f ∧ s'.inflight flight.key = none) ∨
    (s'.inflight flight.key = some f ∧ ∃ next, s'.flights f = some next ∧ next.key = flight.key ∧ next.phase.Open ∧
      next.phase.rank ≤ flight.phase.rank ∧ (event.own? = some f → next.phase.rank < flight.phase.rank)) := by
  have hmine := h.own f flight hf hopen
  obtain ⟨s'', hresult, hcases⟩ := step_spec h hstep
  cases hresult
  rcases hcases with ⟨hown, haside⟩ | ⟨g, other, hown, hg, hadvanced⟩
  · refine .inr ⟨haside.inflight _ _ hmine, flight, haside.flights f flight hf (.inl hopen), rfl, hopen, le_rfl,
      fun hown' => ?_⟩
    rw [hown] at hown'
    cases hown'
  obtain ⟨phase, hflights, -, hrank, hkind⟩ := hadvanced.flights
  by_cases hgf : g = f
  · subst hgf
    obtain rfl := mem_unique hf hg
    rcases hkind with ⟨hopen', hinflight⟩ | ⟨⟨g', rfl⟩, hinflight⟩
    · refine .inr ⟨by rw [hinflight, hmine], { flight with phase }, ?_, rfl, hopen', Nat.le_of_lt hrank, fun _ => hrank⟩
      rw [hflights, update_self]
    cases hown
    refine .inl ⟨rfl, hmine, ?_⟩
    rw [hinflight, update_self]
  have hkept : s'.flights f = some flight := by
    rw [hflights, update_of_ne (Ne.symm hgf), hf]
  refine .inr ⟨hadvanced.inv.own f flight hkept hopen, flight, hkept, rfl, hopen, le_rfl, fun hown' => ?_⟩
  rw [hown] at hown'
  exact absurd (some.inj hown') hgf

theorem step_known (hf : s'.flights f = some flight) :
    (∃ old, s.flights f = some old ∧ old.key = flight.key ∧ (flight.phase.error? = old.phase.error? ∨
      (event.own? = some f ∧ ∃ error, event.failure? = some error ∧ flight.phase.error? = some error))) ∨
    (f = s.nextFlight ∧ flight = { key := flight.key } ∧ event = .beginPrepare flight.key) := by
  obtain ⟨s'', hresult, hcases⟩ := step_spec h hstep
  cases hresult
  rcases hcases with ⟨-, haside⟩ | ⟨g, other, hown, hg, hadvanced⟩
  · rcases haside.known f flight hf with hold | hnew
    · exact .inl ⟨flight, hold, rfl, .inl rfl⟩
    · exact .inr hnew
  obtain ⟨phase, hflights, herror, -, -⟩ := hadvanced.flights
  rw [hflights] at hf
  by_cases hfg : f = g
  · subst hfg
    rw [update_self] at hf
    cases hf
    refine .inl ⟨other, hg, rfl, ?_⟩
    cases hfailure : event.failure? with
    | none =>
      rw [hfailure, none_or] at herror
      exact .inl herror
    | some error =>
      rw [hfailure, some_or] at herror
      exact .inr ⟨hown, error, rfl, herror⟩
  rw [update_of_ne hfg] at hf
  exact .inl ⟨flight, hf, rfl, .inl rfl⟩

theorem step_keeps (hf : s.flights f = some flight)
    (hforget : event ≠ .forget f) : ∃ next, s'.flights f = some next := by
  obtain ⟨s'', hresult, hcases⟩ := step_spec h hstep
  cases hresult
  rcases hcases with ⟨-, haside⟩ | ⟨g, other, -, -, hadvanced⟩
  · exact ⟨flight, haside.flights f flight hf (.inr hforget)⟩
  obtain ⟨phase, hflights, -⟩ := hadvanced.flights
  rw [hflights]
  by_cases hfg : f = g
  · subst hfg
    exact ⟨_, update_self ..⟩
  · exact ⟨flight, by rw [update_of_ne hfg, hf]⟩

end

/-- A run without an end, in which the threads of the flight `f` go on as long as it is in the
    map: the pool answers, a worker takes its task, its builder returns. -/
structure FairRun (run : Nat → State κ ε) (events : Nat → Event κ ε) (f : Nat) : Prop where
  steps : ∀ n, step (run n) (events n) = some (.ok (run (n + 1)))
  fair : ∀ (n : Nat) (flight : Flight κ ε), (run n).flights f = some flight → flight.phase.Open →
    ∃ m, n ≤ m ∧ (events m).own? = some f

section
variable (hrun : FairRun run events f) (h : Inv (run 0))
include hrun h

theorem FairRun.inv (n : Nat) : Inv (run n) := by
  induction n with
  | zero => exact h
  | succ n ih => exact (inv_step ih (hrun.steps n)).1

/-- The flight is removed, or in the map at a later time, with no more sections left than before;
    with fewer, if one of its own was among the steps. -/
theorem FairRun.later (hf : (run n).flights f = some flight) (hopen : flight.phase.Open) (steps : Nat) :
    (∃ m, n ≤ m ∧ events m = .remove f ∧ (run m).inflight flight.key = some f ∧ (run (m + 1)).inflight flight.key = none) ∨
    ∃ next, (run (n + steps)).flights f = some next ∧ next.key = flight.key ∧ next.phase.Open ∧
      next.phase.rank ≤ flight.phase.rank := by
  induction steps with
  | zero => exact .inr ⟨flight, hf, rfl, hopen, le_rfl⟩
  | succ steps ih =>
    rcases ih with hremoved | ⟨next, hnext, hkey, hopen', hrank⟩
    · exact .inl hremoved
    rcases step_flight (hrun.inv h _) (hrun.steps _) hnext hopen' with ⟨hevent, hbefore, hafter⟩ |
      ⟨-, last, hlast, hkey', hopen'', hrank', -⟩
    · rw [hkey] at hbefore hafter
      exact .inl ⟨n + steps, Nat.le_add_right _ _, hevent, hbefore, hafter⟩
    · exact .inr ⟨last, hlast, hkey'.trans hkey, hopen'', hrank'.trans hrank⟩

theorem FairRun.removed (hf : (run n).flights f = some flight) (hopen : flight.phase.Open) :
    ∃ m, n ≤ m ∧ events m = .remove f ∧ (run m).inflight flight.key = some f ∧ (run (m + 1)).inflight flight.key = none := by
  -- each own section leaves fewer of them
  obtain ⟨rank, hrank⟩ : ∃ rank, flight.phase.rank = rank := ⟨_, rfl⟩
  induction rank using Nat.strong_induction_on generalizing n flight with
  | _ rank ih =>
    obtain ⟨m, hnm, hown⟩ := hrun.fair n flight hf hopen
    obtain ⟨steps, rfl⟩ := Nat.exists_eq_add_of_le hnm
    rcases hrun.later h hf hopen steps with hremoved | ⟨next, hnext, hkey, hopen', hle⟩
    · exact hremoved
    rcases step_flight (hrun.inv h _) (hrun.steps _) hnext hopen' with ⟨hevent, hbefore, hafter⟩ |
      ⟨-, last, hlast, hkey', hopen'', -, hlt⟩
    · rw [hkey] at hbefore hafter
      exact ⟨n + steps, Nat.le_add_right _ _, hevent, hbefore, hafter⟩
    have hless : last.phase.rank < rank := by
      have := hlt hown
      omega
    obtain ⟨m, hm, hevent, hbefore, hafter⟩ := ih _ hless hlast hopen'' rfl
    rw [hkey', hkey] at hbefore hafter
    exact ⟨m, by omega, hevent, hbefore, hafter⟩

end

/-! ## The cache -/

/-- In every state that steps lead to, in any order: the order and the map have the same keys, once each; the retained
    bytes and the live bytes are sums, within their limits; nothing that is referred to is gone, and nothing terminates;
    a key that is being built is not ready; and a flight has its key alone, until its own completion removes it. -/
theorem media_cache_exact {capacityBytes limit : Nat} (hreach : Reaches ({ capacityBytes, limit } : State κ ε) s) :
    s.lru.Nodup ∧ (∀ key, key ∈ s.lru ↔ (s.ready key).isSome = true) ∧
    s.retainedBytes = (s.lru.map (bytesOf s)).sum ∧ s.retainedBytes ≤ capacityBytes ∧
    s.live = (s.payloads.map (·.bytes)).sum ∧ s.live ≤ limit ∧ (∀ payload, Held s payload → payload ∈ s.payloads) ∧
    (∀ event exn, step s event ≠ some (.error exn)) ∧
    (∀ (f : Nat) (flight : Flight κ ε), s.flights f = some flight → flight.phase.Early → s.ready flight.key = none) ∧
    (∀ (f g : Nat) (a b : Flight κ ε), s.flights f = some a → s.flights g = some b → a.phase.Open → b.phase.Open →
      a.key = b.key → f = g) ∧
    (∀ key f, s.inflight key = some f ↔ ∃ flight, s.flights f = some flight ∧ flight.key = key ∧ flight.phase.Open) ∧
    (∀ key f event s', s.inflight key = some f → step s event = some (.ok s') →
      s'.inflight key = some f ∨ (event = .remove f ∧ s'.inflight key = none)) ∧
    ∀ (run : Nat → State κ ε) (events : Nat → Event κ ε) (f : Nat) (flight : Flight κ ε), run 0 = s →
      FairRun run events f → s.flights f = some flight → flight.phase.Open →
      ∃ m, events m = .remove f ∧ (run m).inflight flight.key = some f ∧ (run (m + 1)).inflight flight.key = none := by
  obtain ⟨h, hcapacity, hlimit⟩ := inv_reaches inv_start hreach
  refine ⟨h.cache.nodup, h.cache.keys, h.cache.retained, h.cache.bounded.trans (Nat.le_of_eq hcapacity), h.live,
    h.live_le.trans (Nat.le_of_eq hlimit), h.refs,
    ?_, h.unready, ?_, ?_, ?_, ?_⟩
  · intro event exn hstep
    obtain ⟨s', hresult, -⟩ := step_spec h hstep
    cases hresult
  · intro f g a b hf hg hopen hopen' hkey
    have hown := h.own f a hf hopen
    rw [hkey, h.own g b hg hopen'] at hown
    exact (some.inj hown).symm
  · intro key f
    constructor
    · exact h.mapped key f
    · rintro ⟨flight, hf, rfl, hopen⟩
      exact h.own f flight hf hopen
  · intro key f event s' hk hstep
    obtain ⟨flight, hf, rfl, hopen⟩ := h.mapped key f hk
    rcases step_flight h hstep hf hopen with ⟨hevent, -, hafter⟩ | ⟨hkept, -⟩
    · exact .inr ⟨hevent, hafter⟩
    · exact .inl hkept
  · intro run events f flight hstart hrun hf hopen
    subst hstart
    obtain ⟨m, -, hremoved⟩ := hrun.removed h hf hopen
    exact ⟨m, hremoved⟩

/-- A run of given steps. -/
def replay (s : State κ ε) : List (Event κ ε) → Option (State κ ε)
  | [] => some s
  | event :: rest =>
    match step s event with
    | some (.ok s') => replay s' rest
    | _ => none

theorem reaches_replay {events : List (Event κ ε)} (h : replay s events = some s') : Reaches s s' := by
  induction events generalizing s with
  | nil =>
    cases h
    exact .refl
  | cons event rest ih =>
    unfold replay at h
    split at h
    · next s1 hstep => exact .head ⟨event, hstep⟩ (ih h)
    · cases h

/-- The key 0 is built and published, and evicted while a request still has its payload. -/
def evictedRun : List (Event Nat Unit) :=
  [.beginPrepare 0, .submit 0, .start 0, .reserve 8, .build 0 ⟨0, 8⟩, .publish 0, .settle 0, .remove 0, .await 0, .evict]

/-- The states after the registration, and the steps between them; in the end there is nothing left to evict. -/
def evictedState (n : Nat) : State Nat Unit :=
  (replay { capacityBytes := 16, limit := 32 } (evictedRun.take (n + 1))).getD { capacityBytes := 16, limit := 32 }

def evictedEvent (n : Nat) : Event Nat Unit := evictedRun.getD (n + 1) .evict

theorem evictedState_settled (n : Nat) : evictedState (9 + n) = evictedState 9 := by
  have htake : evictedRun.take (9 + n + 1) = evictedRun := take_of_length_le (by simp [evictedRun])
  rw [evictedState, htake]
  rfl

theorem evictedState_fair : FairRun evictedState evictedEvent 0 := by
  constructor
  · intro n
    by_cases hn : n < 9
    · interval_cases n <;> rfl
    · obtain ⟨k, rfl⟩ := Nat.exists_eq_add_of_le (Nat.le_of_not_lt hn)
      have hevent : evictedEvent (9 + k) = .evict := by
        have hlength : evictedRun.length ≤ 9 + k + 1 := by
          simp only [evictedRun, length_cons, length_nil]
          omega
        rw [evictedEvent, getD_eq_getElem?_getD, getElem?_eq_none hlength]
        rfl
      rw [hevent, Nat.add_assoc, evictedState_settled, evictedState_settled]
      rfl
  · -- the last own step of the flight is its removal; after it the flight is not open
    intro n flight hf hopen
    by_cases hn : n ≤ 6
    · exact ⟨6, hn, rfl⟩
    · have hremoved : (evictedState n).flights 0 = some ⟨0, .removed (some ⟨0, 8⟩) none⟩ := by
        by_cases hn : n < 9
        · interval_cases n <;> first | omega | rfl
        · obtain ⟨k, rfl⟩ := Nat.exists_eq_add_of_le (Nat.le_of_not_lt hn)
          rw [evictedState_settled]
          rfl
      rw [hremoved] at hf
      cases hf
      cases hopen

theorem evicted_payload_stays_live :
    (∃ s : State Nat Unit, Reaches { capacityBytes := 16, limit := 32 } s ∧ s.lru = [] ∧ s.retainedBytes = 0 ∧
      s.handles = [⟨0, 8⟩] ∧ s.live = 8 ∧ s.live = (s.payloads.map (·.bytes)).sum) ∧
    ∃ m, evictedEvent m = .remove 0 ∧ (evictedState m).inflight 0 = some 0 ∧ (evictedState (m + 1)).inflight 0 = none := by
  constructor
  · obtain ⟨s, hrun⟩ : ∃ s, replay ({ capacityBytes := 16, limit := 32 } : State Nat Unit) evictedRun = some s := ⟨_, rfl⟩
    have hreach := reaches_replay hrun
    cases hrun
    exact ⟨_, hreach, rfl, rfl, rfl, rfl, (media_cache_exact hreach).2.2.2.2.1⟩
  · have hfirst : replay { capacityBytes := 16, limit := 32 } (evictedRun.take 1) = some (evictedState 0) := rfl
    have hreach := reaches_replay hfirst
    exact (media_cache_exact hreach).2.2.2.2.2.2.2.2.2.2.2.2 evictedState evictedEvent 0 { key := 0 } rfl evictedState_fair
      rfl trivial

end VoidInfer.Frontend.MediaCache
