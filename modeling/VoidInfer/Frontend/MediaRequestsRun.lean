import VoidInfer.Frontend.MediaRequests

/-
  A request that awaits a flight fails with the flight's error, which may be its producer's own. In a sheltered run no
  request does (`sheltered_failures_own`): what a flight fails with then has its cause in the item, or in the producer
  while nobody else is exposed. A request that is exposed to a producer that is being stopped may fail with it.
-/

namespace VoidInfer.Frontend.MediaRequests
open Option Function

variable {κ : Type} {m : Media κ} {w w' : World κ} {r f : Nat} {request request' : Request κ}
  {cause : Cause κ}

/-- What is set stays set, and what is claimed stays claimed. -/
structure Later (request request' : Request κ) : Prop where
  stop : request.stop = true → request'.stop = true
  expired : request.expired = true → request'.expired = true
  claimed : request.claimed ≤ request'.claimed

structure RequestOk (w : World κ) (r : Nat) (request : Request κ) : Prop where
  awaited : ∀ f, Pending.flight f ∈ request.pending → ∃ flight, w.cache.flights f = some flight ∧
    flight.key ∈ request.items ∧ ∀ cause, flight.phase.error? = some cause →
      request.error ≠ none ∨ cause.private? = none ∨ cause.private? = some r
  submitting : ∀ f, request.stage = .submitting f → w.owner f = r ∧
    ∃ flight, w.cache.flights f = some flight ∧ flight.key ∈ request.items
  stops : request.stop = true → request.error ≠ none
  own : ∀ cause, request.error = some cause → cause.Own r request.items

/-! ## Requests -/

theorem requests_upd {d : Nat} {q : Request κ} (hd : (upd w r request).requests d = some q) :
    (d = r ∧ q = request) ∨ (d ≠ r ∧ w.requests d = some q) := by
  unfold upd at hd
  dsimp only at hd
  by_cases hdr : d = r
  · subst hdr
    rw [update_self] at hd
    exact .inl ⟨rfl, (some.inj hd).symm⟩
  rw [update_of_ne hdr] at hd
  exact .inr ⟨hdr, hd⟩

theorem RequestOk.fail (hok : RequestOk w r request) {stage : Stage} {next : Nat}
    (hown : cause.Own r request.items ∨ request.error ≠ none) (hstage : ∀ f, stage ≠ .submitting f) :
    RequestOk w r { fail request cause with stage, next } := by
  have hfailed : (MediaRequests.fail request cause).error ≠ none := by
    cases request.error <;> simp [MediaRequests.fail]
  refine ⟨?_, fun f hf => absurd hf (hstage f), fun _ => hfailed, ?_⟩
  · intro f hf
    obtain ⟨flight, hflight, hitems, -⟩ := hok.awaited f hf
    exact ⟨flight, hflight, hitems, fun _ _ => .inl hfailed⟩
  · intro c hc
    cases herror : request.error with
    | none =>
      have hc : cause = c := by simpa [MediaRequests.fail, herror] using hc
      subst hc
      exact hown.resolve_right fun hne => hne herror
    | some first =>
      have hc : first = c := by simpa [MediaRequests.fail, herror] using hc
      subst hc
      exact hok.own first herror

theorem RequestOk.of_same (hok : RequestOk w r request) (hitems : request'.items = request.items)
    (hpending : request'.pending = request.pending) (hstop : request'.stop = request.stop)
    (herror : request'.error = request.error)
    (hstage : ∀ f, request'.stage = .submitting f → request.stage = .submitting f) : RequestOk w r request' := by
  refine ⟨?_, ?_, ?_, ?_⟩
  · rw [hitems, hpending, herror]
    exact hok.awaited
  · intro f hf
    rw [hitems]
    exact hok.submitting f (hstage f hf)
  · rw [hstop, herror]
    exact hok.stops
  · rw [hitems, herror]
    exact hok.own

theorem check_own (h : check r request = some cause) : cause.Own r request.items := by
  unfold check at h
  split at h
  · exact .inl (some.inj h).symm
  split at h
  · exact .inr (.inl (some.inj h).symm)
  · cases h

theorem RequestOk.take (hok : RequestOk w r request) : RequestOk w r (take m r request) := by
  have hnext : RequestOk w r { request with next := request.next + 1, stage := .awaiting } :=
    hok.of_same rfl rfl rfl rfl (by simp)
  unfold MediaRequests.take
  dsimp only
  split
  · split
    · exact hnext.fail (.inl (.inr (.inr (.inl rfl)))) (by simp)
    · exact hnext.of_same rfl rfl rfl rfl (by simp)
  · exact hnext

theorem later_take : Later request (take m r request) := by
  unfold take
  dsimp only
  split
  · split
    · exact ⟨fun _ => rfl, id, le_rfl⟩
    · exact ⟨id, id, le_rfl⟩
  · exact ⟨id, id, le_rfl⟩

/-! ## The cache -/

variable [DecidableEq κ]

variable {event : MediaCache.Event κ (Cause κ)}

/-- The error of a flight is one that its builder may have failed with. -/
def Origin (m : Media κ) (w : World κ) (f : Nat) (key : κ) (cause : Cause κ) : Prop :=
  ∃ producer, w.requests (w.owner f) = some producer ∧
    mayFail m (w.owner f) producer (w.counted f) key cause = true

theorem mayFail_later {counted : Bool} {key : κ} (h : mayFail m r request counted key cause = true)
    (hlater : Later request request') : mayFail m r request' counted key cause = true := by
  cases cause with
  | cancelled r' => cases h
  | expired r' =>
    obtain ⟨hr, hexpired⟩ := Bool.and_eq_true_iff.mp h
    exact Bool.and_eq_true_iff.mpr ⟨hr, hlater.expired hexpired⟩
  | stopped r' =>
    obtain ⟨hr, hstop⟩ := Bool.and_eq_true_iff.mp h
    exact Bool.and_eq_true_iff.mpr ⟨hr, hlater.stop hstop⟩
  | budget r' =>
    have hclaimed := hlater.claimed
    simp only [mayFail, Bool.and_eq_true, decide_eq_true_eq] at h ⊢
    exact ⟨h.1, by omega⟩
  | item key' => exact h

theorem Origin.private {key : κ} (h : Origin m w f key cause) :
    cause.private? = none ∨ cause.private? = some (w.owner f) ∧ Stopping m w f key := by
  obtain ⟨producer, hproducer, hmay⟩ := h
  cases cause with
  | cancelled r' => cases hmay
  | expired r' =>
    obtain ⟨hr, hexpired⟩ := Bool.and_eq_true_iff.mp hmay
    exact .inr ⟨congrArg some (of_decide_eq_true hr), producer, hproducer, .inr (.inl hexpired)⟩
  | stopped r' =>
    obtain ⟨hr, hstop⟩ := Bool.and_eq_true_iff.mp hmay
    exact .inr ⟨congrArg some (of_decide_eq_true hr), producer, hproducer, .inl hstop⟩
  | budget r' =>
    simp only [mayFail, Bool.and_eq_true, Bool.not_eq_true', decide_eq_true_eq] at hmay
    exact .inr ⟨congrArg some hmay.1.1, producer, hproducer, .inr (.inr ⟨hmay.1.2, hmay.2⟩)⟩
  | item key' => exact .inl rfl

structure Inv (m : Media κ) (w : World κ) [DecidableEq κ] : Prop where
  cache : MediaCache.Inv w.cache
  origin : ∀ (f : Nat) (flight : MediaCache.Flight κ (Cause κ)) (cause : Cause κ), w.cache.flights f = some flight →
    flight.phase.error? = some cause → Origin m w f flight.key cause
  requests : ∀ (r : Nat) (request : Request κ), w.requests r = some request → RequestOk w r request

theorem inv_upd (h : Inv m w) (hok : RequestOk w r request')
    (hlater : ∀ request, w.requests r = some request → Later request request') : Inv m (upd w r request') := by
  refine ⟨h.cache, ?_, ?_⟩
  · intro f flight cause hf herror
    obtain ⟨producer, hproducer, hmay⟩ := h.origin f flight cause hf herror
    by_cases hown : w.owner f = r
    · subst hown
      exact ⟨request', update_self .., mayFail_later hmay (hlater producer hproducer)⟩
    refine ⟨producer, ?_, hmay⟩
    show update w.requests r _ (w.owner f) = _
    rw [update_of_ne hown, hproducer]
  · intro d q hd
    rcases requests_upd hd with ⟨rfl, rfl⟩ | ⟨-, hd⟩
    · exact ⟨hok.awaited, hok.submitting, hok.stops, hok.own⟩
    have hq := h.requests d q hd
    exact ⟨hq.awaited, hq.submitting, hq.stops, hq.own⟩

theorem cacheStep_some (h : cacheStep w event = some w') :
    ∃ cache, MediaCache.step w.cache event = some (.ok cache) ∧ w' = { w with cache } := by
  unfold cacheStep at h
  split at h
  · next cache hstep => exact ⟨cache, hstep, (some.inj h).symm⟩
  · cases h

/-- A step of the cache: an error that it brings is one the builder may fail with, and not of the producer where another
    request is exposed to it. -/
theorem inv_cache {cache : MediaCache.State κ (Cause κ)} (h : Inv m w)
    (hstep : MediaCache.step w.cache event = some (.ok cache))
    (hbegin : ∀ key, event ≠ .beginPrepare key) (hforget : ∀ f, event = .forget f → ∀ r, ¬ Refers w r f)
    (horigin : ∀ f flight cause, event.own? = some f → event.failure? = some cause → w.cache.flights f = some flight →
      Origin m w f flight.key cause)
    (hshelter : ∀ f cause, event.own? = some f → event.failure? = some cause → cause.private? = none ∨
      ∀ r, Exposed w r f → cause.private? = some r) : Inv m { w with cache } := by
  have hknown : ∀ {f flight}, cache.flights f = some flight → ∃ old, w.cache.flights f = some old ∧ old.key = flight.key ∧
      (flight.phase.error? = old.phase.error? ∨
        (event.own? = some f ∧ ∃ error, event.failure? = some error ∧ flight.phase.error? = some error)) := by
    intro f flight hf
    rcases MediaCache.step_known h.cache hstep hf with hold | ⟨-, -, hnew⟩
    · exact hold
    · exact absurd hnew (hbegin _)
  refine ⟨(MediaCache.inv_step h.cache hstep).1, ?_, ?_⟩
  · intro f flight cause hf herror
    obtain ⟨old, hold, hkey, hsame | ⟨hown, error, hfailure, herror'⟩⟩ := hknown hf
    · rw [hsame] at herror
      rw [← hkey]
      exact h.origin f old cause hold herror
    obtain rfl := mem_unique herror herror'
    rw [← hkey]
    exact horigin f old cause hown hfailure hold
  · intro r request hr
    have hok := h.requests r request hr
    refine ⟨?_, ?_, hok.stops, hok.own⟩
    · intro f hf
      obtain ⟨old, hold, hitems, hprivate⟩ := hok.awaited f hf
      obtain ⟨next, hnext⟩ := MediaCache.step_keeps h.cache hstep hold fun hevent =>
        hforget f hevent r (.inl ⟨request, hr, hf⟩)
      obtain ⟨old', hold', hkey, herrors⟩ := hknown hnext
      obtain rfl := mem_unique hold hold'
      refine ⟨next, hnext, by rw [← hkey]; exact hitems, fun cause hcause => ?_⟩
      rcases herrors with hsame | ⟨hown, error, hfailure, herror⟩
      · rw [hsame] at hcause
        exact hprivate cause hcause
      obtain rfl := mem_unique hcause herror
      by_cases hfailed : request.error = none
      · exact .inr ((hshelter f cause hown hfailure).imp_right fun hmine => hmine r ⟨request, hr, hfailed, hf⟩)
      · exact .inl hfailed
    · intro f hf
      obtain ⟨howner, old, hold, hitems⟩ := hok.submitting f hf
      obtain ⟨next, hnext⟩ := MediaCache.step_keeps h.cache hstep hold fun hevent =>
        hforget f hevent r (.inr ⟨request, hr, hf⟩)
      obtain ⟨old', hold', hkey, -⟩ := hknown hnext
      obtain rfl := mem_unique hold hold'
      exact ⟨howner, next, hnext, by rw [← hkey]; exact hitems⟩

theorem inv_lookup (key : κ) (owner : Nat → Nat) (h : Inv m w)
    (howner : ∀ f, f ≠ w.cache.nextFlight → owner f = w.owner f) :
    Inv m { w with cache := (MediaCache.beginPrepare key w.cache).2, owner } := by
  have hstep : MediaCache.step w.cache (.beginPrepare key) = some (.ok (MediaCache.beginPrepare key w.cache).2) := rfl
  have hold : ∀ {f flight}, w.cache.flights f = some flight → owner f = w.owner f := by
    intro f flight hf
    refine howner f fun heq => ?_
    rw [heq, h.cache.fresh _ le_rfl] at hf
    cases hf
  have hkept : ∀ {f flight}, w.cache.flights f = some flight → ∃ next,
      (MediaCache.beginPrepare key w.cache).2.flights f = some next ∧ next.key = flight.key ∧
        next.phase.error? = flight.phase.error? := by
    intro f flight hf
    obtain ⟨next, hnext⟩ := MediaCache.step_keeps h.cache hstep hf (by simp)
    rcases MediaCache.step_known h.cache hstep hnext with ⟨old, hold', hkey, herror⟩ | ⟨rfl, -⟩
    · obtain rfl := mem_unique hf hold'
      refine ⟨next, hnext, hkey.symm, herror.resolve_right ?_⟩
      rintro ⟨hown, -⟩
      cases hown
    rw [h.cache.fresh _ le_rfl] at hf
    cases hf
  refine ⟨(MediaCache.inv_step h.cache hstep).1, ?_, ?_⟩
  · intro f flight cause hf herror
    rcases MediaCache.step_known h.cache hstep hf with ⟨old, hold', hkey, hsame | ⟨hown, -⟩⟩ | ⟨-, hnew, -⟩
    · rw [hsame] at herror
      have horigin := h.origin f old cause hold' herror
      rw [hkey] at horigin
      unfold Origin at horigin ⊢
      dsimp only
      rwa [hold hold']
    · cases hown
    rw [hnew] at herror
    cases herror
  · intro r request hr
    have hok := h.requests r request hr
    refine ⟨?_, ?_, hok.stops, hok.own⟩
    · intro f hf
      obtain ⟨flight, hflight, hitems, hprivate⟩ := hok.awaited f hf
      obtain ⟨next, hnext, hkey, herror⟩ := hkept hflight
      exact ⟨next, hnext, by rw [hkey]; exact hitems, fun cause hcause => hprivate cause (by rw [← herror]; exact hcause)⟩
    · intro f hf
      obtain ⟨hmine, flight, hflight, hitems⟩ := hok.submitting f hf
      obtain ⟨next, hnext, hkey, -⟩ := hkept hflight
      exact ⟨(hold hflight).trans hmine, next, hnext, by rw [hkey]; exact hitems⟩

/-! ## Steps -/

omit [DecidableEq κ] in
theorem later_of (hr : w.requests r = some request) (hlater : Later request request') :
    ∀ q, w.requests r = some q → Later q request' := by
  intro q hq
  obtain rfl := mem_unique hr hq
  exact hlater

theorem inv_beginPart (h : Inv m w) (hr : w.requests r = some request) (hshelter : Sheltered m w (.beginPart r)) :
    Inv m (beginPart w r request) := by
  have hok := h.requests r request hr
  unfold beginPart
  split
  · exact inv_upd h (hok.of_same rfl rfl rfl rfl (by simp)) (later_of hr ⟨id, id, le_rfl⟩)
  next key hkey =>
  have hmem : key ∈ request.items := List.mem_of_getElem? hkey
  have hlookup := inv_lookup key w.owner h fun _ _ => rfl
  have hok' := hlookup.requests r request hr
  split
  · refine inv_upd hlookup ⟨?_, hok'.submitting, hok'.stops, hok'.own⟩ (later_of hr ⟨id, id, le_rfl⟩)
    intro f hf
    exact hok'.awaited f (by simpa using hf)
  · next f hwaiter =>
    -- the flight is in the map under the key
    obtain ⟨hready, hinflight, hsame⟩ : w.cache.ready key = none ∧ w.cache.inflight key = some f ∧
        (MediaCache.beginPrepare key w.cache).2 = w.cache := by
      unfold MediaCache.beginPrepare at hwaiter ⊢
      split at hwaiter
      · cases hwaiter
      next hready =>
      split at hwaiter
      · next g hg =>
        cases hwaiter
        simp [hready, hg]
      · cases hwaiter
    obtain ⟨flight, hflight, rfl, -⟩ := h.cache.mapped key f hinflight
    refine inv_upd hlookup ⟨?_, hok'.submitting, hok'.stops, hok'.own⟩ (later_of hr ⟨id, id, le_rfl⟩)
    intro g hg
    rcases List.mem_append.mp hg with hg | hg
    · exact hok'.awaited g hg
    obtain rfl : g = f := by simpa using hg
    refine ⟨flight, ?_, hmem, fun cause hcause => ?_⟩
    · rw [hsame, hflight]
    · rcases (h.origin g flight cause hflight hcause).private with hitem | ⟨hprivate, hstopping⟩
      · exact .inr (.inl hitem)
      have hjoins : Joins w r g := ⟨request, flight.key, hr, hkey, hready, hinflight⟩
      have hmine := hshelter.joins g r flight rfl hjoins hflight (by simp [hcause]) hstopping
      exact .inr (.inr (by rw [hprivate, hmine]))
  next f hproducer =>
  obtain ⟨rfl, hflight⟩ : f = w.cache.nextFlight ∧
      (MediaCache.beginPrepare key w.cache).2.flights f = some { key } := by
    unfold MediaCache.beginPrepare at hproducer ⊢
    split at hproducer
    · cases hproducer
    split at hproducer
    · cases hproducer
    cases hproducer
    exact ⟨rfl, update_self ..⟩
  have howned := inv_lookup key (update w.owner w.cache.nextFlight r) h fun f hf =>
    update_of_ne hf ..
  have hok'' := howned.requests r request hr
  refine inv_upd howned ⟨hok''.awaited, ?_, hok''.stops, hok''.own⟩ (later_of hr ⟨id, id, le_rfl⟩)
  intro g hg
  cases hg
  exact ⟨update_self .., { key }, hflight, hmem⟩

variable {flight : MediaCache.Flight κ (Cause κ)}

theorem flight_cause (h : Inv m w) (hr : w.requests r = some request)
    (hpending : Pending.flight f ∈ request.pending) (hf : w.cache.flights f = some flight)
    (herror : flight.phase.error? = some cause) : cause.Own r request.items ∨ request.error ≠ none := by
  have hok := h.requests r request hr
  obtain ⟨flight', hf', hitems, hprivate⟩ := hok.awaited f hpending
  obtain rfl := mem_unique hf hf'
  obtain ⟨producer, hproducer, hmay⟩ := h.origin f flight cause hf herror
  rcases hprivate cause herror with hfailed | hitem | hmine
  · exact .inr hfailed
  · cases cause with
    | item key =>
      obtain ⟨hkey, -⟩ := Bool.and_eq_true_iff.mp hmay
      exact .inl (.inr (.inr (.inr ⟨flight.key, hitems, by rw [of_decide_eq_true hkey]⟩)))
    | _ => cases hitem
  · cases cause with
    | cancelled r' => cases hmay
    | expired r' =>
      cases hmine
      exact .inl (.inr (.inl rfl))
    | budget r' =>
      cases hmine
      exact .inl (.inr (.inr (.inl rfl)))
    | stopped r' =>
      cases hmine
      obtain ⟨hr', hstop⟩ := Bool.and_eq_true_iff.mp hmay
      rw [← of_decide_eq_true hr', hr] at hproducer
      cases hproducer
      exact .inr (hok.stops hstop)
    | item key => cases hmine

omit [DecidableEq κ] in
theorem outcome_error (h : outcome? w f = some (some cause)) :
    ∃ flight, w.cache.flights f = some flight ∧ flight.phase.error? = some cause := by
  obtain ⟨flight, hf, hphase⟩ := bind_eq_some_iff.mp h
  refine ⟨flight, hf, ?_⟩
  split at hphase
  · next hp => rw [hp]; exact some.inj hphase
  · next hp => rw [hp]; exact some.inj hphase
  · cases hphase

theorem submit_queued {s s' : MediaCache.State κ (Cause κ)} (h : MediaCache.step s (.submit f) = some (.ok s')) :
    ∃ flight, s.flights f = some flight ∧ s'.flights f = some { flight with phase := .queued } := by
  obtain ⟨flight, hf, hadvance⟩ := bind_eq_some_iff.mp h
  refine ⟨flight, hf, ?_⟩
  cases hphase : flight.phase with
  | registered =>
    have hqueued : MediaCache.advance s f flight (.submit f) = some (.ok (MediaCache.setPhase s f flight .queued)) := by
      simp [MediaCache.advance, hphase]
    obtain rfl := Except.ok.inj (mem_unique hqueued hadvance)
    exact update_self ..
  | _ => simp [MediaCache.advance, hphase] at hadvance

theorem inv_quiet (h : Inv m w) (hcache : cacheStep w event = some w')
    (hbegin : ∀ key, event ≠ .beginPrepare key) (hforget : ∀ f, event = .forget f → ∀ r, ¬ Refers w r f)
    (hfailure : event.failure? = none) : Inv m w' ∧ w'.requests = w.requests := by
  obtain ⟨cache, hstep, rfl⟩ := cacheStep_some hcache
  refine ⟨inv_cache h hstep hbegin hforget ?_ ?_, rfl⟩
  · intro f flight cause _ hsome
    rw [hfailure] at hsome
    cases hsome
  · intro f cause _ hsome
    rw [hfailure] at hsome
    cases hsome

theorem failing_unbuilt {s : MediaCache.State κ (Cause κ)}
    {result : Except Exn (MediaCache.State κ (Cause κ))} (hfailure : event.failure? = some cause)
    (h : MediaCache.advance s f flight event = some result) : Unbuilt flight.phase := by
  cases hphase : flight.phase with
  | registered => trivial
  | queued => trivial
  | building => trivial
  | _ =>
    cases event <;> simp [MediaCache.Event.failure?] at hfailure <;> simp [MediaCache.advance, hphase] at h

theorem inv_failure {label : Label κ} (h : Inv m w)
    (hshelter : Sheltered m w label) (hf : w.cache.flights f = some flight) (hown : event.own? = some f)
    (hfailure : event.failure? = some cause) (horigin : Origin m w f flight.key cause)
    (hbegin : ∀ key, event ≠ .beginPrepare key) (hforget : ∀ f, event ≠ .forget f)
    (hcache : cacheStep w event = some w') : Inv m w' ∧ w'.requests = w.requests := by
  obtain ⟨cache, hstep, rfl⟩ := cacheStep_some hcache
  refine ⟨inv_cache h hstep hbegin (fun f hevent => absurd hevent (hforget f)) ?_ ?_, rfl⟩
  · intro g other cause' hown' hfailure' hg
    obtain rfl := mem_unique hown hown'
    obtain rfl := mem_unique hfailure hfailure'
    obtain rfl := mem_unique hf hg
    exact horigin
  intro g cause' hown' hfailure'
  obtain rfl := mem_unique hown hown'
  obtain rfl := mem_unique hfailure hfailure'
  refine horigin.private.imp_right fun ⟨hprivate, hstopping⟩ r hexposed => ?_
  rw [MediaCache.step_own hown, hf, bind_some] at hstep
  rw [hprivate, hshelter.awaits f r flight hf (failing_unbuilt hfailure hstep) hstopping hexposed]

theorem inv_step {label : Label κ} (h : Inv m w) (hstep : Step m w label w') (hshelter : Sheltered m w label) :
    Inv m w' := by
  cases hstep with
  | @arrive r items hnone =>
    refine inv_upd h ⟨by simp, by simp, by simp, by simp⟩ fun q hq => ?_
    rw [hnone] at hq
    cases hq
  | cancel hr =>
    exact inv_upd h ((h.requests _ _ hr).of_same rfl rfl rfl rfl fun _ hf => hf) (later_of hr ⟨id, id, le_rfl⟩)
  | expire hr =>
    exact inv_upd h ((h.requests _ _ hr).of_same rfl rfl rfl rfl fun _ hf => hf)
      (later_of hr ⟨id, fun _ => rfl, le_rfl⟩)
  | beginStopped hr _ hcheck =>
    exact inv_upd h ((h.requests _ _ hr).fail (.inl (check_own hcheck)) (by simp))
      (later_of hr ⟨fun _ => rfl, id, le_rfl⟩)
  | beginPart hr _ => exact inv_beginPart h hr hshelter
  | @submit w' r request f hr hstage hcache =>
    obtain ⟨cache, hcache', rfl⟩ := cacheStep_some hcache
    obtain ⟨hinv, -⟩ := inv_quiet h hcache (by simp) (by simp) rfl
    have hok := hinv.requests r request hr
    obtain ⟨-, flight, hf, hitems⟩ := (h.requests r request hr).submitting f hstage
    obtain ⟨flight', hf', hqueued⟩ := submit_queued hcache'
    obtain rfl := mem_unique hf hf'
    refine inv_upd hinv ⟨?_, by simp, hok.stops, hok.own⟩ (later_of hr ⟨id, id, le_rfl⟩)
    intro g hg
    rcases List.mem_append.mp hg with hg | hg
    · exact hok.awaited g hg
    obtain rfl : g = f := by simpa using hg
    exact ⟨_, hqueued, hitems, by simp [MediaCache.Phase.error?]⟩
  | @refuse w' r request f hr hstage hexpired hcache =>
    obtain ⟨howner, flight, hf, -⟩ := (h.requests r request hr).submitting f hstage
    have horigin : Origin m w f flight.key (.expired r) :=
      ⟨request, howner ▸ hr, by simp [mayFail, howner, hexpired]⟩
    obtain ⟨hinv, hrequests⟩ := inv_failure h hshelter hf rfl rfl horigin (by simp) (by simp) hcache
    rw [← hrequests] at hr
    exact inv_upd hinv ((hinv.requests r request hr).fail (.inl (.inr (.inl rfl))) (by simp))
      (later_of hr ⟨fun _ => rfl, id, le_rfl⟩)
  | awaitStopped hr _ _ _ hcheck =>
    exact inv_upd h ((h.requests _ _ hr).fail (.inl (check_own hcheck)) (by simp))
      (later_of hr ⟨fun _ => rfl, id, le_rfl⟩)
  | @awaitPart _ r request hr hstage hawait =>
    have hok := h.requests _ _ hr
    unfold awaitPart at hawait
    split at hawait
    · cases hawait
      exact inv_upd h (hok.of_same rfl rfl rfl rfl (by simp)) (later_of hr ⟨id, id, le_rfl⟩)
    · cases hawait
      exact inv_upd h hok.take (later_of hr later_take)
    next f hpending =>
    obtain ⟨error, houtcome, rfl⟩ := map_eq_some_iff.mp hawait
    cases error with
    | none => exact inv_upd h hok.take (later_of hr later_take)
    | some cause =>
      obtain ⟨flight, hf, herror⟩ := outcome_error houtcome
      refine inv_upd h (hok.fail (flight_cause h hr (List.mem_of_getElem? hpending) hf herror) ?_)
        (later_of hr ⟨fun _ => rfl, id, le_rfl⟩)
      intro g hg
      have hg : request.stage = .submitting g := hg
      rw [hstage] at hg
      cases hg
  | @drainPart _ r request hr _ hdrain =>
    have hok := h.requests _ _ hr
    unfold drainPart at hdrain
    split at hdrain
    · obtain ⟨_, -, rfl⟩ := map_eq_some_iff.mp hdrain
      exact inv_upd h (hok.of_same rfl rfl rfl rfl (by simp)) (later_of hr ⟨id, id, le_rfl⟩)
    cases hdrain
    exact inv_upd h (hok.of_same rfl rfl rfl rfl (by simp)) (later_of hr ⟨id, id, le_rfl⟩)
  | @claim f flight request hf hphase _ hr _ =>
    have hinv : Inv m { w with counted := update w.counted f true } := by
      refine ⟨h.cache, fun g other cause hg herror => ?_, fun d q hd => ?_⟩
      · have horigin := h.origin g other cause hg herror
        have hne : g ≠ f := by
          rintro rfl
          obtain rfl := mem_unique hf hg
          rw [hphase] at herror
          cases herror
        unfold Origin at horigin ⊢
        dsimp only
        rwa [update_of_ne hne]
      · have hq := h.requests d q hd
        exact ⟨hq.awaited, hq.submitting, hq.stops, hq.own⟩
    exact inv_upd hinv ((hinv.requests _ _ hr).of_same rfl rfl rfl rfl fun _ hf => hf)
      (later_of hr ⟨id, id, Nat.le_add_right ..⟩)
  | build _ hcache => exact (inv_quiet h hcache (by simp) (by simp) rfl).1
  | @buildFailed w' f flight request payload cause hf hr hmay hcache =>
    obtain ⟨hinv, hrequests⟩ := inv_failure h hshelter hf rfl rfl ⟨request, hr, hmay⟩ (by simp) (by simp) hcache
    obtain ⟨cache, -, rfl⟩ := cacheStep_some hcache
    exact inv_upd hinv ((hinv.requests _ _ hr).of_same rfl rfl rfl rfl fun _ hf => hf)
      (later_of hr ⟨id, id, Nat.le_add_right ..⟩)
  | @cache _ event haloof hforget hcache =>
    refine (inv_quiet h hcache ?_ hforget ?_).1
    · intro key heq
      rw [heq] at haloof
      cases haloof
    · cases event <;> first | rfl | cases haloof

theorem inv_start {capacityBytes limit : Nat} : Inv m ({ cache := { capacityBytes, limit } } : World κ) :=
  ⟨MediaCache.inv_start, by simp, by simp⟩

theorem inv_reaches (hreach : ReachesSheltered m w) : Inv m w := by
  obtain ⟨capacityBytes, limit, hreach⟩ := hreach
  induction hreach with
  | refl => exact inv_start
  | tail _ hstep ih =>
    obtain ⟨label, hstep, hshelter⟩ := hstep
    exact inv_step ih hstep hshelter

theorem Stopping.fails {key : κ} (h : Stopping m w f key) : ∃ producer cause, w.requests (w.owner f) = some producer ∧
    mayFail m (w.owner f) producer (w.counted f) key cause = true ∧ ∀ r items, r ≠ w.owner f → ¬ cause.Own r items := by
  obtain ⟨producer, hproducer, hstop | hexpired | ⟨hcounted, hbudget⟩⟩ := h
  · refine ⟨producer, .stopped (w.owner f), hproducer, by simp [mayFail, hstop], fun r items hne => ?_⟩
    simp [Cause.Own]
  · refine ⟨producer, .expired (w.owner f), hproducer, by simp [mayFail, hexpired], fun r items hne => ?_⟩
    simp [Cause.Own, Ne.symm hne]
  · refine ⟨producer, .budget (w.owner f), hproducer, by simp [mayFail, hcounted, hbudget], fun r items hne => ?_⟩
    simp [Cause.Own, Ne.symm hne]

/-- A request that waits for a flight of another one that is being stopped may fail with it. -/
theorem exposed_fails (hr : w.requests r = some request)
    (hstage : request.stage = .awaiting) (hfine : request.error = none)
    (hpending : request.pending[request.next]? = some (.flight f)) (hf : w.cache.flights f = some flight)
    (hphase : flight.phase = .queued ∨ flight.phase = .building) (hstopping : Stopping m w f flight.key)
    (hother : r ≠ w.owner f) :
    ∃ w' request' cause, Relation.ReflTransGen (fun w w' => ∃ label, Step m w label w') w w' ∧
      w'.requests r = some request' ∧ request'.error = some cause ∧ ¬ cause.Own r request'.items := by
  obtain ⟨producer, cause, hproducer, hmay, hforeign⟩ := hstopping.fails
  -- the builder runs
  obtain ⟨cache, hbegun, hbuilding⟩ : ∃ cache, Relation.ReflTransGen (fun w w' => ∃ label, Step m w label w') w
      { w with cache } ∧ cache.flights f = some { flight with phase := .building } := by
    rcases hphase with hqueued | hbuilding
    · refine ⟨MediaCache.setPhase w.cache f flight .building, .single ⟨.cache, .cache (.start f) rfl (by simp) ?_⟩,
        update_self ..⟩
      simp [cacheStep, MediaCache.step, hf, MediaCache.advance, hqueued]
    · exact ⟨w.cache, .refl, by rw [hf, ← hbuilding]⟩
  -- it fails, and the flight is done
  let failed := MediaCache.setPhase cache f flight (.failed none cause)
  let done := MediaCache.setPhase failed f flight (.done none (some cause))
  let producer' : Request κ := { producer with claimed := producer.claimed + spent m flight.key cause }
  have hfail : Step m { w with cache } (.buildFailed f cause) (upd { w with cache := failed } (w.owner f) producer') := by
    have hcache : cacheStep { w with cache } (.buildFailed f none cause) = some { w with cache := failed } := by
      simp [cacheStep, MediaCache.step, hbuilding, MediaCache.advance, failed, MediaCache.setPhase]
    have hstep := Step.buildFailed (w := { w with cache }) none cause hbuilding hproducer hmay hcache
    exact hstep
  have hsettle : Step m (upd { w with cache := failed } (w.owner f) producer') .cache
      (upd { w with cache := done } (w.owner f) producer') := by
    refine .cache (.settle f) rfl (by simp) ?_
    simp [cacheStep, MediaCache.step, upd, MediaCache.advance, failed, done, MediaCache.setPhase]
  have hsame : (upd { w with cache := done } (w.owner f) producer').requests r = some request := by
    show update w.requests _ _ r = _
    rw [update_of_ne hother, hr]
  have houtcome : outcome? (upd { w with cache := done } (w.owner f) producer') f = some (some cause) := by
    simp [outcome?, upd, done, MediaCache.setPhase]
  have hawait : Step m (upd { w with cache := done } (w.owner f) producer') (.awaitPart r)
      (upd (upd { w with cache := done } (w.owner f) producer') r
        { fail request cause with next := request.next + 1 }) := by
    refine .awaitPart hsame hstage ?_
    simp only [awaitPart, hpending, houtcome, map_some]
  refine ⟨_, _, cause, ((hbegun.tail ⟨_, hfail⟩).tail ⟨_, hsettle⟩).tail ⟨_, hawait⟩, update_self .., ?_,
    hforeign _ _ hother⟩
  simp [fail, hfine]

/-- In a sheltered run every failure of a request is its own cancellation, deadline or budget, or one of its items. In
    any world a request that waits for an unbuilt flight of another one that is being stopped may fail for a reason that
    is not its own. -/
theorem sheltered_failures_own (m : Media κ) :
    (∀ w, ReachesSheltered m w → ∀ r request cause, w.requests r = some request → request.error = some cause →
      cause.Own r request.items) ∧
    ∀ (w : World κ) (r f : Nat) (request : Request κ) (flight : MediaCache.Flight κ (Cause κ)),
      w.requests r = some request → request.stage = .awaiting → request.error = none →
      request.pending[request.next]? = some (.flight f) → w.cache.flights f = some flight →
      (flight.phase = .queued ∨ flight.phase = .building) → Stopping m w f flight.key → r ≠ w.owner f →
      ∃ w' request' cause, Relation.ReflTransGen (fun w w' => ∃ label, Step m w label w') w w' ∧
        w'.requests r = some request' ∧ request'.error = some cause ∧ ¬ cause.Own r request'.items :=
  ⟨fun _ hreach r request cause hr herror => ((inv_reaches hreach).requests r request hr).own cause herror,
    fun _ _ _ _ _ hr hstage hfine hpending hf hphase hstopping hother =>
      exposed_fails hr hstage hfine hpending hf hphase hstopping hother⟩

/-- Items without cost; the seventh cannot be prepared. -/
def plainMedia : Media Nat := ⟨fun _ => 0, 0, fun key => key = 7⟩

/-- No request is being stopped. -/
def Quiet (w : World Nat) : Prop :=
  ∀ r request, w.requests r = some request → request.stop = false ∧ request.expired = false ∧ request.claimed = 0

theorem Quiet.sheltered {w : World Nat} (h : Quiet w) (label : Label Nat) : Sheltered plainMedia w label := by
  have hnot : ∀ f key, ¬ Stopping plainMedia w f key := by
    rintro f key ⟨producer, hproducer, hstop⟩
    obtain ⟨hstopped, hexpired, hclaimed⟩ := h _ producer hproducer
    rw [hstopped, hexpired, hclaimed] at hstop
    simp [plainMedia] at hstop
  exact ⟨fun f _ flight _ _ hstopping => absurd hstopping (hnot f flight.key),
    fun f _ flight _ _ _ _ hstopping => absurd hstopping (hnot f flight.key)⟩

theorem Quiet.upd {w : World Nat} {request : Request Nat} (h : Quiet w) (hstop : request.stop = false)
    (hexpired : request.expired = false) (hclaimed : request.claimed = 0) : Quiet (upd w r request) := by
  intro d q hd
  rcases requests_upd hd with ⟨rfl, rfl⟩ | ⟨-, hd⟩
  · exact ⟨hstop, hexpired, hclaimed⟩
  · exact h d q hd

/-- Two requests share the flight of an image that cannot be prepared; the one that joined fails for that reason. -/
theorem shared_item_fails : ∃ (w : World Nat) (request : Request Nat), ReachesSheltered plainMedia w ∧
    w.requests 1 = some request ∧ w.owner 0 = 0 ∧ Pending.flight 0 ∈ request.pending ∧
    request.error = some (.item 7) ∧ Cause.Own 1 request.items (.item 7) := by
  have h0 : ReachesSheltered plainMedia ({ cache := { capacityBytes := 0, limit := 0 } } : World Nat) ∧
      Quiet { cache := { capacityBytes := 0, limit := 0 } } := ⟨⟨0, 0, .refl⟩, nofun⟩
  have hthen : ∀ {w w' : World Nat} {label : Label Nat}, ReachesSheltered plainMedia w ∧ Quiet w →
      Step plainMedia w label w' → (Quiet w → Quiet w') → ReachesSheltered plainMedia w' ∧ Quiet w' := by
    rintro w w' label ⟨⟨capacityBytes, limit, hreach⟩, hquiet⟩ hstep hnext
    exact ⟨⟨capacityBytes, limit, hreach.tail ⟨label, hstep, hquiet.sheltered label⟩⟩, hnext hquiet⟩
  have h1 := hthen h0 (.arrive (r := 0) [7] rfl) fun h => h.upd rfl rfl rfl
  have h2 := hthen h1 (.arrive (r := 1) [7] rfl) fun h => h.upd rfl rfl rfl
  have h3 := hthen h2 (.beginPart (r := 0) rfl rfl) fun h => h.upd (r := 0) rfl rfl rfl
  have h4 := hthen h3 (.submit (r := 0) rfl rfl rfl) fun h => h.upd (r := 0) rfl rfl rfl
  have h5 := hthen h4 (.beginPart (r := 1) rfl rfl) fun h => h.upd (r := 1) rfl rfl rfl
  have h6 := hthen h5 (.cache (.start 0) rfl (by simp) rfl) fun h => h
  have h7 := hthen h6 (.buildFailed (f := 0) none (.item 7) rfl rfl rfl rfl) fun h => h.upd (r := 0) rfl rfl rfl
  have h8 := hthen h7 (.cache (.settle 0) rfl (by simp) rfl) fun h => h
  have h9 := hthen h8 (.cache (.remove 0) rfl (by simp) rfl) fun h => h
  have h10 := hthen h9 (.beginPart (r := 1) rfl rfl) fun h => h.upd (r := 1) rfl rfl rfl
  obtain ⟨⟨capacityBytes, limit, hreach⟩, hquiet⟩ := h10
  have h11 : ReachesSheltered plainMedia _ :=
    ⟨capacityBytes, limit, hreach.tail ⟨.awaitPart 1, .awaitPart rfl rfl rfl, hquiet.sheltered _⟩⟩
  exact ⟨_, _, h11, rfl, rfl, .head _, rfl, (sheltered_failures_own plainMedia).1 _ h11 1 _ _ rfl rfl⟩

/-- Two requests have the same image. The client of the first one, which builds it, goes; the second one fails, though
    nobody has cancelled it, its deadline has not passed, nothing costs anything, and the image can be prepared. -/
theorem waiter_fails_with_its_producer : ∃ (w : World Nat) (request : Request Nat), Reaches plainMedia w ∧
    w.requests 1 = some request ∧ request.stage = .finished ∧ request.cancelled = false ∧ request.expired = false ∧
    request.error = some (.stopped 0) ∧ ¬ Cause.Own 1 request.items (.stopped 0) := by
  have h0 : Reaches plainMedia ({ cache := { capacityBytes := 0, limit := 0 } } : World Nat) := ⟨0, 0, .refl⟩
  have hthen : ∀ {w w' : World Nat} {label : Label Nat}, Reaches plainMedia w → Step plainMedia w label w' →
      Reaches plainMedia w' := by
    rintro w w' label ⟨capacityBytes, limit, hreach⟩ hstep
    exact ⟨capacityBytes, limit, hreach.tail ⟨label, hstep⟩⟩
  have h1 := hthen h0 (.arrive (r := 0) [5] rfl)
  have h2 := hthen h1 (.arrive (r := 1) [5] rfl)
  have h3 := hthen h2 (.beginPart (r := 0) rfl rfl)
  have h4 := hthen h3 (.submit (r := 0) rfl rfl rfl)
  have h5 := hthen h4 (.beginPart (r := 1) rfl rfl)
  have h6 := hthen h5 (.cancel (r := 0) rfl)
  have h7 := hthen h6 (.beginPart (r := 0) rfl rfl)
  have h8 := hthen h7 (.awaitStopped (r := 0) rfl rfl (by decide) rfl rfl)
  have h9 := hthen h8 (.cache (.start 0) rfl (by simp) rfl)
  have h10 := hthen h9 (.buildFailed (f := 0) none (.stopped 0) rfl rfl rfl rfl)
  have h11 := hthen h10 (.cache (.settle 0) rfl (by simp) rfl)
  have h12 := hthen h11 (.cache (.remove 0) rfl (by simp) rfl)
  have h13 := hthen h12 (.beginPart (r := 1) rfl rfl)
  have h14 := hthen h13 (.awaitPart (r := 1) rfl rfl rfl)
  have h15 := hthen h14 (.awaitPart (r := 1) rfl rfl rfl)
  refine ⟨_, _, h15, rfl, rfl, rfl, rfl, rfl, ?_⟩
  rintro (h | h | h | ⟨key, -, h⟩) <;> cases h

end VoidInfer.Frontend.MediaRequests
