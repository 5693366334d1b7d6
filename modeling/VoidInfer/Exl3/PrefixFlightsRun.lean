import VoidInfer.Exl3.PrefixFlightsNext

/-
  Every step is a case of `Next`, so the invariant holds along every run of any number of callers. What the callers of
  one prefix can count on follows from it.
-/

namespace VoidInfer.Exl3.PrefixFlights
open List Option

open PrefixCache (StorageStats PrefixIndex)

variable {s : Service} {c f : Nat} {caller : Caller} {flight : PrefixPreparation}

/-! ## Steps -/

section Steps

open Throwing PrefixCache

variable {account : List PrefixCache.Entry → Except Exn StorageStats} {event : Event} {s' : Service}

variable (account) in
theorem wp_run {index : PrefixIndex} (h : PrefixCache.Inv index) (op : PrefixCache.Op) (hop : op.isPublish = false) :
    wp (op.run account) (fun _ => PrefixCache.Inv) (fun _ => PrefixCache.Inv) index := by
  have hstep := inv_step account h op (by simp [hop])
  unfold PrefixCache.Op.step at hstep
  unfold wp
  split
  · next hrun =>
    rw [hrun] at hstep
    exact hstep
  next hrun =>
  rw [hrun] at hstep
  exact hstep

theorem wp_lookup {index : PrefixIndex} (h : PrefixCache.Inv index) (model : Nat) (tokens : List Int)
    (contract : List UInt8) (prepared : Option Exl3PreparedIdentity) :
    wp (lookup model tokens contract prepared) (fun _ => PrefixCache.Inv) (fun _ => PrefixCache.Inv) index := by
  have hrun := wp_run (fun _ => .error .badAlloc) h (.lookup model tokens contract prepared) rfl
  simpa only [PrefixCache.Op.run, wp_bind, wp_discard, wp_pure] using hrun

variable (account) in
theorem wp_admitRoot {index : PrefixIndex} (h : PrefixCache.Inv index) (root : Option Root) (contract : List UInt8)
    (byteBudget available reserve : Nat) (retention : Option (List RetentionDecision)) (shared : Bool) :
    wp (admitRoot account root contract byteBudget available reserve retention shared)
      (fun _ => PrefixCache.Inv) (fun _ => PrefixCache.Inv) index := by
  have hrun := wp_run account h (.admitRoot root contract byteBudget available reserve retention shared) rfl
  simpa only [PrefixCache.Op.run, wp_map] using hrun

theorem wp_clear {index : PrefixIndex} (h : PrefixCache.Inv index) :
    wp clear (fun _ => PrefixCache.Inv) (fun _ => PrefixCache.Inv) index := by
  have hrun := wp_run (fun _ => .error .badAlloc) h .clear rfl
  simpa only [PrefixCache.Op.run, wp_bind, wp_pure] using hrun

variable (account caller) in
theorem admission_spec (h : PrefixCache.Inv s.index) (root : Built) (byteBudget available reserve : Nat) :
    ∃ index fail failure, admission account s caller root byteBudget available reserve =
        ({ s with index, failPreparationAdmission := fail }, failure) ∧ PrefixCache.Inv index ∧
      (failure = none → stale s caller = false) ∧
      ∀ e, failure = some e → e = .epochChanged ∨ ∃ exn, e = .index exn := by
  unfold admission
  split
  · exact ⟨s.index, s.failPreparationAdmission, _, rfl, h, by simp, by simp⟩
  next hfresh =>
  have hfresh : stale s caller = false := by simpa using hfresh
  split
  · exact ⟨s.index, false, _, rfl, h, by simp, by simp⟩
  have hinv := wp_admitRoot account h (some root.root) caller.contract byteBudget available reserve none false
  split
  · next hrun => exact ⟨_, s.failPreparationAdmission, _, rfl, wp_ok hinv hrun, fun _ => hfresh, by simp⟩
  · next hrun => exact ⟨_, s.failPreparationAdmission, _, rfl, wp_error hinv hrun, by simp, by simp⟩

section
variable (hc : s.callers[c]? = some caller)
include hc

variable {phase : Phase}

theorem Move.solo (hbefore : caller.phase.flight = none)
    (hafter : phase.flight = none) (hok : CallerOk { caller with phase })
    (hfresh : ∀ root joined hit, phase.outcome = some (.returned root joined hit) → stale s caller = false)
    (hthrew : ∀ failure, phase.outcome = some (.threw failure) → Mine c failure) :
    Move account s event c caller phase := by
  have hwaits : ∀ {p : Phase}, p.flight = none → p.waitsFor = none := by
    intro p hp
    cases p <;> simp_all [Phase.flight, Phase.waitsFor]
  have hproduces : ∀ {p : Phase}, p.flight = none → p.produces = none := by
    intro p hp
    cases p <;> simp_all [Phase.flight, Phase.produces]
  refine ⟨hc, by rw [hbefore, hafter], by rw [hwaits hbefore, hwaits hafter],
    by rw [hproduces hbefore, hproduces hafter], ?_, hok, ?_, hfresh, ?_, hthrew, ?_⟩
  · intro g failure hphase
    simp [hphase, Phase.flight] at hbefore
  · rintro g rfl
    simp [Phase.flight] at hafter
  · intro failure hfailure
    cases phase <;> simp_all [Phase.flight, Phase.failure]
  · rintro g owner exn rfl
    simp [Phase.flight] at hafter

theorem Move.waiting (hbefore : caller.phase.waitsFor = some f)
    (hafter : phase.waitsFor = some f) (hf : s.flights[f]? = some flight)
    (hdeclines : phase = .declining f → flight.done = true ∧ flight.failure = none) :
    Move account s event c caller phase := by
  refine ⟨hc, ?_, by rw [hbefore, hafter], ?_, ?_, ?_, ?_, ?_, ?_, ?_, ?_⟩
  · rw [Phase.flight_of_waitsFor hbefore, Phase.flight_of_waitsFor hafter]
  · rw [Phase.produces_of_waitsFor hbefore, Phase.produces_of_waitsFor hafter]
  · intro g failure hphase
    simp [hphase, Phase.waitsFor] at hbefore
  · cases phase <;> simp [Phase.waitsFor] at hafter <;> exact ⟨by simp, by simp, by simp [Phase.outcome]⟩
  · rintro g rfl
    cases hafter
    exact ⟨flight, hf, hdeclines rfl⟩
  · intro root joined hit hout
    cases phase <;> simp_all [Phase.waitsFor, Phase.outcome]
  · intro failure hfailure
    cases phase <;> simp_all [Phase.waitsFor, Phase.failure]
  · intro failure hout
    cases phase <;> simp_all [Phase.waitsFor, Phase.outcome]
  · rintro g owner exn rfl
    simp [Phase.waitsFor] at hafter

theorem Move.producing {before phase : Phase} (hphase : caller.phase = before) (hbefore : before.produces = some f)
    (hafter : phase.produces = some f)
    (hcause : ∀ failure, phase.failure = some failure → Cause account s event c caller failure)
    (hsettled : ∀ g failure, before ≠ .unwinding g failure := by simp)
    (hbuilt : ∀ g callback root, phase = .built g callback root → For caller root := by simp)
    (hquiet : ∀ g owner exn, phase = .unwinding g (.callback owner exn) →
      ∃ flight, s.flights[g]? = some flight ∧ flight.waiters = 0 := by simp) :
    Move account s event c caller phase := by
  subst hphase
  refine ⟨hc, ?_, ?_, by rw [hbefore, hafter], hsettled, ⟨?_, ?_, ?_⟩, ?_, ?_, hcause, ?_, hquiet⟩
  · rw [Phase.flight_of_produces hbefore, Phase.flight_of_produces hafter]
  · rw [Phase.waitsFor_of_produces hbefore, Phase.waitsFor_of_produces hafter]
  · intro g callback root hphase
    have hfor := hbuilt g callback root hphase
    exact ⟨hfor.tokens, hfor.model, hfor.epoch⟩
  · rintro root rfl
    simp [Phase.produces] at hafter
  · intro root joined hit hout
    cases phase <;> simp_all [Phase.produces, Phase.outcome]
  · rintro g rfl
    simp [Phase.produces] at hafter
  · intro root joined hit hout
    cases phase <;> simp_all [Phase.produces, Phase.outcome]
  · intro failure hout
    cases phase <;> simp_all [Phase.produces, Phase.outcome]

end

theorem Next.still (h : Consistent s) (m : Move account s event c caller phase) :
    Next account s event (setPhase s c caller phase) := by
  have hnext : Next account s event (setPhase
      { s with index := s.index, failPreparationAdmission := s.failPreparationAdmission } c caller phase) :=
    .moved h.index m
  exact hnext

theorem solo_throws {failure : Failure} (hc : s.callers[c]? = some caller)
    (hphase : caller.phase.flight = none) (hmine : Mine c failure) :
    Move account s event c caller (.finished (.threw failure)) := by
  refine Move.solo hc hphase rfl ⟨by simp, by simp, by simp [Phase.outcome]⟩ (by simp [Phase.outcome]) ?_
  intro failure' hout
  obtain rfl : failure = failure' := by simpa [Phase.outcome] using hout
  exact hmine

theorem register_next {index : PrefixIndex} (hindex : PrefixCache.Inv index)
    (hc : s.callers[c]? = some caller) (hstart : caller.phase = .start) (hmatch : matching s caller = none)
    (hregister : register { s with index } c caller = some s') : Next account s event s' := by
  unfold register at hregister
  split at hregister
  · next slot f flights hslot hacquire =>
    obtain ⟨flight, hf, rfl⟩ := map_eq_some_iff.mp hregister
    obtain ⟨hlt, hnone, -⟩ := findIdx?_eq_some_iff_getElem.mp hslot
    have hslot : s.preparations[slot]? = some none := by
      rw [getElem?_eq_getElem hlt]
      simpa using hnone
    unfold acquire at hacquire
    split at hacquire
    · cases hacquire
      have hblank : flight = {} := by
        have hlast : (s.flights ++ [({} : PrefixPreparation)])[s.flights.length]? = some {} := by simp
        exact mem_unique hf hlast
      exact .registered hindex hc hstart hmatch hslot (.inr ⟨rfl, rfl⟩) hf (by rw [hblank])
    obtain ⟨g, hfind, hpair⟩ := map_eq_some_iff.mp hacquire
    cases hpair
    have hany := find?_some hfind
    obtain ⟨other, hother, hfree⟩ := (Option.any_eq_true _ _).mp hany
    obtain rfl := mem_unique hf hother
    have hidle : flight.participants = 0 := by
      simp only [Bool.and_eq_true, beq_iff_eq] at hfree
      exact hfree.1
    exact .registered hindex hc hstart hmatch hslot (.inl ⟨lt_of_getElem? hf, rfl⟩) hf hidle
  · simp at hregister

theorem enter_next (h : Consistent s) (hc : s.callers[c]? = some caller) (hstart : caller.phase = .start) :
    Next account s (.enter c) (enter s c caller) := by
  have hflight : caller.phase.flight = none := by rw [hstart]; rfl
  have hthrow : ∀ failure, Mine c failure → Move account s (.enter c) c caller (.finished (.threw failure)) :=
    fun failure hmine => solo_throws hc hflight hmine
  unfold enter
  split
  · exact Next.still h (hthrow .epochChanged (by simp [Mine]))
  next hfresh =>
  have hfresh : stale s caller = false := by simpa using hfresh
  have hinv := wp_lookup h.index caller.model caller.tokens caller.contract none
  have hnewest := lookup_newest h.index caller.model caller.tokens caller.contract none
  split
  · next root index hlookup =>
    obtain ⟨i, e, hi, rfl, hequals, -⟩ := wp_ok hnewest hlookup
    refine .moved (wp_ok hinv hlookup) (Move.solo hc hflight rfl ⟨by simp, by simp, ?_⟩ (fun _ _ _ _ => hfresh) ?_)
    · intro root joined hit hout
      obtain ⟨rfl, -, rfl⟩ := hout
      exact ⟨hequals.tokens, rfl, by simp⟩
    · simp [Phase.outcome]
  · next exn index hlookup => exact .moved (wp_error hinv hlookup) (hthrow _ (by simp [Mine]))
  next index hlookup =>
  have hindex := wp_ok hinv hlookup
  dsimp only
  split
  · next f flight hjoin =>
    obtain ⟨g, hmatch, hmap⟩ := bind_eq_some_iff.mp hjoin
    obtain ⟨other, hf, hpair⟩ := map_eq_some_iff.mp hmap
    cases hpair
    split
    · exact .moved hindex (hthrow .recursive (by simp [Mine]))
    next hthread =>
    refine .joined hindex rfl hc hstart ?_ hf
    unfold joins
    rw [hfresh, hlookup]
    exact filter_eq_some_iff.mpr ⟨hmatch, by simp [hf, hthread]⟩
  next hnojoin =>
  have hmatch : matching s caller = none := by
    by_contra hsome
    obtain ⟨g, hg⟩ := ne_none_iff_exists'.mp hsome
    obtain ⟨-, flight, hf, -⟩ := matching_some hg
    have hg' : matching { s with index } caller = some g := hg
    simp [hg', hf] at hnojoin
  cases hregister : register { s with index } c caller with
  | some s' =>
    exact register_next hindex hc hstart hmatch hregister
  | none =>
    refine .moved hindex (Move.solo hc hflight rfl ⟨by simp, by simp, by simp [Phase.outcome]⟩ ?_ ?_)
    · simp [Phase.outcome]
    · simp [Phase.outcome]

theorem decided_next {outcome : Outcome} (hc : s.callers[c]? = some caller) (hwaits : caller.phase.waitsFor = some f)
    (hstep : (s.flights[f]?).map (fun flight => decide s c caller f flight outcome) = some s')
    (hdecision : ∀ flight, Decision s c caller flight outcome) : Next account s event s' := by
  obtain ⟨flight, hf, rfl⟩ := map_eq_some_iff.mp hstep
  exact .decided hc hwaits hf (hdecision flight)

theorem callerStep_next (h : Consistent s) (hc : s.callers[c]? = some caller) (hevent : event.caller = some c)
    (hstep : callerStep account s c caller event = some s') : Next account s event s' := by
  have hok := h.callers c caller hc
  unfold callerStep at hstep
  split at hstep
  · next c' hphase =>
    cases hevent
    cases hstep
    exact enter_next h hc hphase
  · next f c' exn hphase =>
    exact decided_next hc (by rw [hphase]; rfl) hstep fun _ => .cancelled exn
  · next f c' hphase =>
    have hwaits : caller.phase.waitsFor = some f := by rw [hphase]; rfl
    obtain ⟨flight, hf, rfl⟩ := map_eq_some_iff.mp hstep
    split
    · next hstale => exact .decided hc hwaits hf (.reloaded hstale)
    · exact Next.still h (Move.waiting hc hwaits rfl hf (by simp))
  · next f c' hphase =>
    have hwaits : caller.phase.waitsFor = some f := by rw [hphase]; rfl
    obtain ⟨flight, hf, rfl⟩ := map_eq_some_iff.mp hstep
    split
    · next hstale => exact .decided hc hwaits hf (.reloaded hstale)
    split
    · exact Next.still h (Move.waiting hc hwaits rfl hf (by simp))
    next hdone =>
    split
    · next failure hfailure => exact .decided hc hwaits hf (.failed hfailure)
    · next hnone => exact Next.still h (Move.waiting hc hwaits rfl hf fun _ => ⟨by simpa using hdone, hnone⟩)
  · next f c' exn hphase =>
    exact decided_next hc (by rw [hphase]; rfl) hstep fun _ => .cancelled exn
  · next f c' hphase =>
    have hwaits : caller.phase.waitsFor = some f := by rw [hphase]; rfl
    obtain ⟨flight, hf, hstep⟩ := bind_eq_some_iff.mp hstep
    split at hstep
    · next hstale =>
      cases hstep
      exact .decided hc hwaits hf (.reloaded hstale)
    next hfresh =>
    obtain ⟨root, hroot, rfl⟩ := map_eq_some_iff.mp hstep
    exact .decided hc hwaits hf (.prepared hroot (by simpa using hfresh))
  · next f c' exn hphase =>
    cases hstep
    refine Next.still h (.producing hc hphase rfl rfl ?_)
    intro failure hfailure
    cases hfailure
    exact .callback exn
  · next f failure c' hphase =>
    cases hstep
    refine Next.still h (.producing hc hphase rfl rfl ?_)
    exact fun failure' hfailure => .pending (by rw [hphase]; exact hfailure)
  · next f failure c' hphase =>
    obtain ⟨flight, hf, rfl⟩ := map_eq_some_iff.mp hstep
    have hcause : ∀ failure', failure = some failure' → Cause account s (.check c') c caller failure' :=
      fun failure' hfailure => .pending (by rw [hphase]; exact hfailure)
    cases failure with
    | none => exact Next.still h (.producing hc hphase rfl rfl hcause)
    | some e =>
      dsimp only
      split
      · next hzero =>
        refine Next.still h (.producing hc hphase rfl rfl hcause (by simp) (by simp) ?_)
        intro g owner exn heq
        cases heq
        exact ⟨flight, hf, hzero⟩
      · exact Next.still h (.producing hc hphase rfl rfl hcause)
  · next f failure c' exn hphase =>
    cases hstep
    refine Next.still h (.producing hc hphase rfl rfl ?_)
    intro failure hfailure
    cases hfailure
    exact .build exn
  · next f failure c' root hphase =>
    split at hstep
    · next hroot =>
      cases hstep
      refine Next.still h (.producing hc hphase rfl rfl ?_ (by simp) ?_)
      · exact fun failure' hfailure => .pending (by rw [hphase]; exact hfailure)
      · intro g callback built heq
        cases heq
        exact ⟨hroot.1, hroot.2, rfl⟩
    · simp at hstep
  · next f callback root c' byteBudget available reserve hphase =>
    cases hevent
    obtain ⟨flight, hf, rfl⟩ := map_eq_some_iff.mp hstep
    obtain ⟨index, fail, failure, hadmission, hindex, hfresh, hfailure⟩ :=
      admission_spec caller account h.index root byteBudget available reserve
    rw [hadmission]
    cases failure with
    | some e =>
      refine .moved hindex (.producing hc hphase rfl rfl ?_ (by simp) (by simp) ?_)
      · intro failure' heq
        cases heq
        rcases hfailure e rfl with rfl | ⟨exn, rfl⟩
        · exact .reloaded
        · exact .admission rfl hphase (by rw [hadmission])
      intro g owner exn heq
      cases heq
      rcases hfailure _ rfl with heq | ⟨exn', heq⟩
      · simp at heq
      · simp at heq
    | none =>
      cases callback with
      | none => exact .succeeded hindex hc hphase hf (hfresh rfl) (.inl ⟨rfl, rfl⟩)
      | some e => exact .succeeded hindex hc hphase hf (hfresh rfl) (.inr ⟨e, rfl, rfl⟩)
  · next f failure c' hphase =>
    obtain ⟨flight, hf, rfl⟩ := map_eq_some_iff.mp hstep
    split
    · next hdone => exact .ended hc hphase hf hdone
    · next hnot => exact .failed hc hphase hf (by simpa using hnot)
  · next c' exn hphase =>
    cases hstep
    exact Next.still h (solo_throws hc (by rw [hphase]; rfl) fun owner exn' heq => (Failure.callback.inj heq).1.symm)
  · next c' exn hphase =>
    cases hstep
    exact Next.still h (solo_throws hc (by rw [hphase]; rfl) (by simp [Mine]))
  · next c' root hphase =>
    split at hstep
    · next hroot =>
      cases hstep
      refine Next.still h (Move.solo hc (by rw [hphase]; rfl) rfl ⟨by simp, ?_, by simp [Phase.outcome]⟩
        (by simp [Phase.outcome]) (by simp [Phase.outcome]))
      intro built heq
      cases heq
      exact ⟨hroot.1, hroot.2, rfl⟩
    · simp at hstep
  · next root c' byteBudget available reserve hphase =>
    obtain ⟨index, fail, failure, hadmission, hindex, hfresh, hfailure⟩ :=
      admission_spec caller account h.index root byteBudget available reserve
    rw [hadmission] at hstep
    have hfor := hok.aloneBuilt root hphase
    cases failure with
    | some e =>
      cases hstep
      refine .moved hindex (solo_throws hc (by rw [hphase]; rfl) ?_)
      intro owner exn heq
      rcases hfailure e rfl with rfl | ⟨exn', rfl⟩
      · simp at heq
      · simp at heq
    | none =>
      cases hstep
      refine .moved hindex (Move.solo hc (by rw [hphase]; rfl) rfl ⟨by simp, by simp, ?_⟩ (fun _ _ _ _ => hfresh rfl)
        (by simp [Phase.outcome]))
      intro built joined hit hout
      obtain ⟨rfl, -, -⟩ := hout
      exact ⟨hfor.tokens, hfor.epoch, fun _ => ⟨hfor.tokens, hfor.model, hfor.epoch⟩⟩
  · next f outcome c' hphase =>
    obtain ⟨flight, hf, rfl⟩ := map_eq_some_iff.mp hstep
    exact .left hc hphase hf
  · simp at hstep

theorem step_next (h : Consistent s) (hstep : step account s event = some s') : Next account s event s' := by
  have hcaller : ∀ (hevent : (event.caller.bind fun c => (s.callers[c]?).bind fun caller =>
      callerStep account s c caller event) = some s'), Next account s event s' := by
    intro hevent
    obtain ⟨c, hc, hevent⟩ := bind_eq_some_iff.mp hevent
    obtain ⟨caller, hcaller, hevent⟩ := bind_eq_some_iff.mp hevent
    exact callerStep_next h hcaller hc hevent
  cases event with
  | spawn thread model tokens prefillRows =>
    cases hstep
    exact .spawned rfl
  | reload contract =>
    have hstep : reload s contract = some s' := hstep
    unfold reload at hstep
    have hinv := wp_clear h.index
    split at hstep
    · simp at hstep
    split at hstep
    · next hclear =>
      cases hstep
      exact .changed (wp_ok hinv hclear)
    next hclear =>
    cases hstep
    exact .changed (wp_error hinv hclear)
  | indexed op =>
    have hstep : (if op.isPublish then none else some { s with index := (op.step account s.index).2 }) = some s' := hstep
    split at hstep
    · simp at hstep
    next hop =>
    cases hstep
    exact .changed (inv_step account h.index op fun hpublish => absurd hpublish hop)
  | failNextPreparationAdmission =>
    cases hstep
    exact .changed h.index
  | _ => exact hcaller hstep

/-! ## Runs -/

variable (account) in
/-- The states that `allowed` steps lead to. -/
def Reaches (allowed : Service → Event → Prop) : Service → Service → Prop :=
  Relation.ReflTransGen fun s s' => ∃ event, allowed s event ∧ step account s event = some s'

theorem consistent_startup {index : PrefixIndex} (h : PrefixCache.Inv index) (contract : List UInt8)
    (pooled : Option (List Nat)) : Consistent (startup index contract pooled) := by
  have hblank : ∀ (f : Nat) flight, (startup index contract pooled).flights[f]? = some flight →
      ∃ tokenCapacity, flight = { tokenCapacity } := by
    intro f flight hf
    obtain ⟨tokenCapacity, -, rfl⟩ := List.mem_map.mp (mem_of_getElem? hf)
    exact ⟨tokenCapacity, rfl⟩
  have hnone : ∀ f, some f ∉ (startup index contract pooled).preparations := by
    intro f hmem
    simpa using eq_of_mem_replicate hmem
  refine ⟨h, rfl, ?_, ?_, ?_, by simp [startup], fun f hf => absurd hf (hnone f), ?_,
    fun f _ _ _ _ hf => absurd hf (hnone f), by simp [startup], by simp [startup], by simp [startup],
    by simp [startup], by simp [startup]⟩
  · intro f flight hf
    obtain ⟨_, rfl⟩ := hblank f flight hf
    rfl
  · intro f flight hf
    obtain ⟨_, rfl⟩ := hblank f flight hf
    rfl
  · intro f flight hf
    obtain ⟨_, rfl⟩ := hblank f flight hf
    exact ⟨by simp, by simp, by simp, by simp, by simp, by simp⟩
  · exact fun i j f hi => absurd (mem_of_getElem? hi) (hnone f)

theorem consistent_reaches {allowed : Service → Event → Prop} (h : Consistent s)
    (hreach : Reaches account allowed s s') : Consistent s' := by
  induction hreach with
  | refl => exact h
  | tail _ hstep ih =>
    obtain ⟨event, -, hstep⟩ := hstep
    exact ih.next (step_next ih hstep)

/-! ## What becomes of a flight -/

/-- What one step can make of a flight. -/
inductive Became (flight : PrefixPreparation) : PrefixPreparation → Prop
  | counted (participants waiters : Nat) : Became flight { flight with participants, waiters }
  | claimed (caller : Caller) (hidle : flight.participants = 0) : Became flight (claimed flight caller)
  | completed (root : Option Built) (failure : Option Failure) (hnot : flight.done = false) :
    Became flight { flight with root, failure, done := true }
  | blanked : Became flight { flight with
      participants := 0, root := none, model := none, failure := none, tokens := [], done := false }

theorem became_refl : Became flight flight := by
  have h : Became flight { flight with participants := flight.participants, waiters := flight.waiters } :=
    .counted _ _
  exact h

theorem became_set {flights : List PrefixPreparation} {g : Nat} {old new : PrefixPreparation}
    (hg : flights[g]? = some old) (hnew : Became old new) (hf : flights[f]? = some flight) :
    ∃ flight', (flights.set g new)[f]? = some flight' ∧ Became flight flight' := by
  by_cases hfg : g = f
  · subst hfg
    obtain rfl := mem_unique hg hf
    exact ⟨new, getElem?_set_self (lt_of_getElem? hg), hnew⟩
  · exact ⟨flight, (getElem?_set_ne hfg).trans hf, became_refl⟩

theorem Next.became (h : Consistent s) (hnext : Next account s event s') (hf : s.flights[f]? = some flight) :
    ∃ flight', s'.flights[f]? = some flight' ∧ Became flight flight' := by
  cases hnext with
  | spawned => exact ⟨flight, hf, became_refl⟩
  | changed => exact ⟨flight, hf, became_refl⟩
  | moved => exact ⟨flight, hf, became_refl⟩
  | joined _ _ _ _ _ hg => exact became_set hg (.counted _ _) hf
  | registered _ _ _ _ _ hflights hg hidle =>
    rcases hflights with ⟨-, rfl⟩ | ⟨-, rfl⟩
    · exact became_set hg (.claimed _ hidle) hf
    refine became_set hg (.claimed _ hidle) ?_
    rw [getElem?_append_left (lt_of_getElem? hf), hf]
  | decided _ _ hg => exact became_set hg (.counted _ _) hf
  | @succeeded c g caller other callback root _ _ _ _ hc hphase hg =>
    have hnot : other.done = false := by
      obtain ⟨_, hsame, -, -, hdone⟩ := h.producers c caller g hc (by rw [hphase]; rfl)
      obtain rfl := mem_unique hg hsame
      by_contra hd
      obtain ⟨failure, hunwinding⟩ := hdone (by simpa using hd)
      simp [hphase] at hunwinding
    obtain ⟨flight', hflight', hbecame⟩ := became_set hg (.completed _ other.failure hnot) hf
    refine ⟨flight', Eq.trans ?_ hflight', hbecame⟩
    exact congrArg (fun l => l[f]?) (clearSlot_flights _ g)
  | @failed c g caller other failure hc hphase hg hnot =>
    obtain ⟨flight', hflight', hbecame⟩ := became_set hg (.completed other.root _ hnot) hf
    refine ⟨flight', Eq.trans ?_ hflight', hbecame⟩
    exact congrArg (fun l => l[f]?) (clearSlot_flights _ g)
  | ended => exact ⟨flight, hf, became_refl⟩
  | left _ _ hg =>
    refine became_set hg ?_ hf
    unfold depart
    split
    · exact .blanked
    · exact .counted _ _

/-! ## Who returns a root -/

theorem caller_set (hc : s.callers[c]? = some caller) {i : Nat} {x x' : Caller}
    (hx : s.callers[i]? = some x) (hx' : (s.callers.set c { caller with phase })[i]? = some x') :
    (x = caller ∧ x'.phase = phase) ∨ x' = x := by
  rcases ListUpdate.getElem?_set_cases hx' with ⟨rfl, rfl⟩ | ⟨-, hx'⟩
  · exact .inl ⟨mem_unique hx hc, rfl⟩
  · exact .inr (mem_unique hx' hx)

theorem Next.fresh (hnext : Next account s event s') {i : Nat} {x x' : Caller} {root : Built} {joined hit : Bool}
    (hx : s.callers[i]? = some x) (hx' : s'.callers[i]? = some x') (hnone : x.phase.outcome = none)
    (hreturned : x'.phase.outcome = some (.returned root joined hit)) : stale s x = false := by
  have hmove : ∀ {c : Nat} {caller : Caller} {phase : Phase}, s.callers[c]? = some caller →
      (s.callers.set c { caller with phase })[i]? = some x' →
      (phase.outcome = some (.returned root joined hit) → stale s caller = false) → stale s x = false := by
    intro c caller phase hc hset hfresh
    rcases caller_set hc hx hset with ⟨rfl, hphase⟩ | rfl
    · exact hfresh (hphase ▸ hreturned)
    · simp [hnone] at hreturned
  cases hnext with
  | spawned =>
    rw [getElem?_append_left (lt_of_getElem? hx), hx] at hx'
    cases hx'
    simp [hnone] at hreturned
  | changed =>
    obtain rfl := mem_unique hx hx'
    simp [hnone] at hreturned
  | moved _ m => exact hmove m.callerAt hx' (m.fresh root joined hit)
  | joined _ _ hc => exact hmove hc hx' (by simp [Phase.outcome])
  | registered _ hc => exact hmove hc hx' (by simp [Phase.outcome])
  | decided hc _ _ hdecision =>
    refine hmove hc hx' fun hout => ?_
    cases hout
    cases hdecision with
    | prepared _ hfresh => exact hfresh
  | succeeded _ hc _ _ hfresh =>
    rw [callers_complete] at hx'
    exact hmove hc hx' fun _ => hfresh
  | failed hc =>
    rw [callers_complete] at hx'
    exact hmove hc hx' (by simp [Phase.outcome])
  | ended hc => exact hmove hc hx' (by simp [Phase.outcome])
  | left hc hphase =>
    rcases caller_set hc hx hx' with ⟨rfl, -⟩ | rfl
    · simp [hphase, Phase.outcome] at hnone
    · simp [hnone] at hreturned

/-- What a preparation is for. -/
def PrefixPreparation.key (flight : PrefixPreparation) : Nat × Option Nat × Int × List Int :=
  (flight.epoch, flight.model, flight.prefillRows, flight.tokens)

/-- What a caller asks for. -/
def Caller.key (caller : Caller) : Nat × Option Nat × Int × List Int :=
  (caller.epoch, some caller.model, caller.prefillRows, caller.tokens)

/-- The caller is the producer of a flight that is not done. -/
def Produces (s : Service) (caller : Caller) : Prop :=
  ∃ f flight, caller.phase.produces = some f ∧ s.flights[f]? = some flight ∧ flight.done = false

theorem Consistent.oneProducer (h : Consistent s) {c c' : Nat} {caller caller' : Caller}
    (hc : s.callers[c]? = some caller) (hc' : s.callers[c']? = some caller') (hp : Produces s caller)
    (hp' : Produces s caller') (hkey : caller.key = caller'.key) : c = c' := by
  obtain ⟨f, flight, hf, hflight, hnot⟩ := hp
  obtain ⟨f', flight', hf', hflight', hnot'⟩ := hp'
  obtain ⟨_, hsame, hfits, hreg, -⟩ := h.producers c caller f hc hf
  obtain rfl := mem_unique hflight hsame
  obtain ⟨_, hsame', hfits', hreg', -⟩ := h.producers c' caller' f' hc' hf'
  obtain rfl := mem_unique hflight' hsame'
  simp only [Caller.key, Prod.mk.injEq, Option.some.injEq] at hkey
  obtain ⟨hepoch, hmodel, hrows, htokens⟩ := hkey
  have hboth : Fits caller flight' := by
    refine ⟨hfits'.epoch.trans hepoch.symm, ?_, hfits'.prefillRows.trans hrows.symm, hfits'.tokens.trans htokens.symm⟩
    rw [hfits'.model, hmodel]
  obtain rfl := h.keys f f' flight flight' caller (hreg hnot) (hreg' hnot') hflight hflight' hfits hboth
  exact h.sole c c' caller caller' f hc hc' hf hf'

section
variable (h : Consistent s) (hnext : Next account s event s') (hf : s.flights[f]? = some flight)
include h hnext hf

theorem Next.keepsRoot {root : Built} (hroot : flight.root = some root) :
    ∃ flight', s'.flights[f]? = some flight' ∧ flight'.failure = none ∧
      (flight'.root = some root ∨ flight'.participants = 0) := by
  have hr := h.results f flight hf
  have hdone : flight.done = true := by
    by_contra hnot
    have hblank := (hr.blank (by simpa using hnot)).1
    simp [hroot] at hblank
  have hnone : flight.failure = none := by
    have hsingle := hr.single hdone
    rw [hroot] at hsingle
    simpa using hsingle.symm
  obtain ⟨flight', hflight', hbecame⟩ := hnext.became h hf
  refine ⟨flight', hflight', ?_⟩
  cases hbecame with
  | counted => exact ⟨hnone, .inl hroot⟩
  | claimed _ hidle =>
    have hnot := hr.idle hidle
    simp [hdone] at hnot
  | completed _ _ hnot => simp [hdone] at hnot
  | blanked => exact ⟨rfl, .inr rfl⟩

theorem Next.handsOver {flight' : PrefixPreparation} (hf' : s'.flights[f]? = some flight') (hmodel : flight'.model ≠ none)
    (hkey : flight'.key ≠ flight.key) : ∀ caller ∈ s.callers, caller.phase.flight ≠ some f := by
  obtain ⟨_, hsame, hbecame⟩ := hnext.became h hf
  obtain rfl := mem_unique hf' hsame
  cases hbecame with
  | counted => exact absurd rfl hkey
  | claimed _ hidle =>
    intro caller hmem
    obtain ⟨c, hc⟩ := mem_iff_getElem?.mp hmem
    exact h.unheld hf hidle hc
  | completed => exact absurd rfl hkey
  | blanked => exact absurd rfl hmodel

end

variable (account) in
/-- The events in order, each of them with `ok`. -/
def run (ok : Service → Event → Bool) (s : Service) (events : List Event) : Option Service :=
  events.foldlM (fun s event => if ok s event then step account s event else none) s

theorem reaches_run {allowed : Service → Event → Prop} {ok : Service → Event → Bool}
    (hok : ∀ s event, ok s event = true → allowed s event) {events : List Event}
    (h : run account ok s events = some s') : Reaches account allowed s s' := by
  induction events generalizing s with
  | nil =>
    cases h
    exact .refl
  | cons event events ih =>
    obtain ⟨next, hstep, hrest⟩ := bind_eq_some_iff.mp h
    dsimp only at hstep
    split at hstep
    · next hevent => exact .head ⟨event, hok s event hevent, hstep⟩ (ih hrest)
    · simp at hstep

/-- A service with room for two prefixes, not pooled. -/
def twoSlots : PrefixIndex := { capacity := 2, sharedCapacity := 0, hasher := some fun _ _ => 0 }

/-- Two threads ask for the same prefix; the first one is the producer. -/
def bothAsk : List Event :=
  [.spawn 1 7 [5, 6] 1, .spawn 2 7 [5, 6] 1, .enter 0]

/-- The root that a call returned as a joiner. -/
def joinedRoot (s : Service) (c : Nat) : Option Built :=
  (s.callers[c]?).bind fun caller =>
    match caller.phase.outcome with
    | some (.returned root true false) => some root
    | _ => none

/-- The owner of the callback's exception that a call threw. -/
def thrownFor (s : Service) (c : Nat) : Option Nat :=
  (s.callers[c]?).bind fun caller =>
    match caller.phase.outcome with
    | some (.threw (.callback owner _)) => some owner
    | _ => none

theorem joinedRoot_some {root : Built} (h : joinedRoot s c = some root) :
    ∃ caller, s.callers[c]? = some caller ∧ caller.phase.outcome = some (.returned root true false) := by
  obtain ⟨caller, hc, hout⟩ := bind_eq_some_iff.mp h
  refine ⟨caller, hc, ?_⟩
  split at hout
  · next heq => rw [heq, some.inj hout]
  · simp at hout

theorem thrownFor_some {owner : Nat} (h : thrownFor s c = some owner) :
    ∃ caller exn, s.callers[c]? = some caller ∧ caller.phase.outcome = some (.threw (.callback owner exn)) := by
  obtain ⟨caller, hc, hout⟩ := bind_eq_some_iff.mp h
  split at hout
  · next exn heq => exact ⟨caller, exn, hc, by rw [heq, some.inj hout]⟩
  · simp at hout

/-- In every interleaving of any number of calls with reloads and other uses of the index, pooled or not: a key has at
    most one producer at a time; what a joiner returns is a root for its own tokens, model and epoch, and when it asks
    for it there is one; and at most eight flights are registered. In every further step, a caller only returns a root
    while the epoch and the contract are its own, a root is not replaced by a failure, and a flight gets a new key only
    when it has no participant. -/
theorem shared_preparation_safe (account : List PrefixCache.Entry → Except Exn StorageStats) {capacity sharedCapacity : Nat}
    {hasher : Option (List Int → List UInt8 → Nat)} {index : PrefixIndex} {contract : List UInt8}
    {pooled : Option (List Nat)} {s : Service} (hcreate : create capacity hasher sharedCapacity = .ok index)
    (hreach : Reaches account (fun _ _ => True) (startup index contract pooled) s) :
    (∀ (c c' : Nat) (caller caller' : Caller), s.callers[c]? = some caller → s.callers[c']? = some caller' →
      Produces s caller → Produces s caller' → caller.key = caller'.key → c = c') ∧
    (∀ (c : Nat) (caller : Caller) (root : Built), s.callers[c]? = some caller →
      caller.phase.outcome = some (.returned root true false) → For caller root) ∧
    (∀ (c : Nat) (caller : Caller) (f : Nat), s.callers[c]? = some caller → caller.phase = .declining f →
      ∃ flight root, s.flights[f]? = some flight ∧ flight.root = some root) ∧
    (s.preparations.filterMap id).length ≤ 8 ∧
    ∀ event s', step account s event = some s' →
      (∀ (c : Nat) (caller caller' : Caller) (root : Built) (joined hit : Bool),
        s.callers[c]? = some caller → s'.callers[c]? = some caller' → caller.phase.outcome = none →
        caller'.phase.outcome = some (.returned root joined hit) →
        caller.epoch = s.epoch ∧ caller.contract = s.contract) ∧
      (∀ (f : Nat) (flight : PrefixPreparation) (root : Built), s.flights[f]? = some flight →
        flight.root = some root → ∃ flight', s'.flights[f]? = some flight' ∧ flight'.failure = none ∧
          (flight'.root = some root ∨ flight'.participants = 0)) ∧
      ∀ (f : Nat) (flight flight' : PrefixPreparation), s.flights[f]? = some flight →
        s'.flights[f]? = some flight' → flight'.model ≠ none → flight'.key ≠ flight.key →
        ∀ caller ∈ s.callers, caller.phase.flight ≠ some f := by
  have h : Consistent s := consistent_reaches (consistent_startup (inv_create hcreate) contract pooled) hreach
  refine ⟨fun c c' caller caller' => h.oneProducer, ?_, ?_, ?_, ?_⟩
  · intro c caller root hc hreturned
    exact ((h.callers c caller hc).outcome root true false hreturned).2.2 rfl
  · intro c caller f hc hphase
    obtain ⟨flight, hf, -⟩ := h.joiners c caller f hc (by rw [hphase]; rfl)
    obtain ⟨hdone, hnone⟩ := h.decliners c caller f flight hc hphase hf
    have hsome := (h.results f flight hf).single hdone
    rw [hnone] at hsome
    obtain ⟨root, hroot⟩ := isSome_iff_exists.mp hsome
    exact ⟨flight, root, hf, hroot⟩
  · exact (length_filterMap_le _ _).trans h.slots.le
  · intro event s' hstep
    have hnext := step_next h hstep
    refine ⟨?_, fun f flight root hf => hnext.keepsRoot h hf, fun f flight flight' hf => hnext.handsOver h hf⟩
    intro c caller caller' root joined hit hc hc' hnone hreturned
    have hfresh := hnext.fresh hc hc' hnone hreturned
    simpa [stale] using hfresh

/-- Two callers of one prefix: the second one returns the first one's root. -/
theorem joiner_receives_root :
    ∃ s, Reaches countEntries (fun _ _ => True) (startup twoSlots [1] none) s ∧
      ∃ caller root, s.callers[1]? = some caller ∧
        caller.phase.outcome = some (.returned root true false) ∧ For caller root := by
  have hdone : ((run countEntries (fun _ _ => true) (startup twoSlots [1] none) (bothAsk ++
      [.enter 1, .buildReturns 0 (textRoot 1 [5, 6]), .settle 0 1000 1000 1, .callbackReturns 1, .wake 1,
        .callbackReturns 1])).any fun s => (joinedRoot s 1).isSome) = true := by decide +kernel
  obtain ⟨s, hrun, hjoined⟩ := (Option.any_eq_true _ _).mp hdone
  obtain ⟨root, hroot⟩ := isSome_iff_exists.mp hjoined
  obtain ⟨caller, hc, hout⟩ := joinedRoot_some hroot
  have hreach := reaches_run (fun _ _ _ => trivial) hrun
  have hcreate : create 2 (some fun _ _ => 0) 0 = .ok twoSlots := rfl
  exact ⟨s, hreach, caller, root, hc, hout,
    (shared_preparation_safe countEntries hcreate hreach).2.1 1 caller root hc hout⟩

end Steps

end VoidInfer.Exl3.PrefixFlights
