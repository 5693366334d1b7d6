import VoidInfer.Exl3.GreedyPacketBatchRun

/-
  What holds of the batch in every run: one transport at a time, each offer in at most one of them, every packet with
  the rows of its own source, no pair with a cancelled offer, and no transport after the first that failed.
-/

namespace VoidInfer.Exl3.GreedyPacketBatch
open Option

variable {s s' : Batch} {c : Nat} {offer : Offer} {t : Transport}

/-! ## What a step leaves -/

/-- Offers stay, claimed or cancelled if they were. -/
def Ages (s s' : Batch) : Prop :=
  ∀ (d : Nat) (q : Offer), s.calls d = some q → ∃ q', s'.calls d = some q' ∧
    (q.claimed = true → q'.claimed = true) ∧ (q.cancelled = true → q'.cancelled = true)

theorem Ages.of_calls (h : s'.calls = s.calls) : Ages s s' := by
  intro d q hd
  exact ⟨q, by rw [h, hd], id, id⟩

variable {offer' : Offer} {f : Offer → Offer} {event : Event} {d : Nat}

theorem Ages.upd (h : Ages s s') (hc : s.calls c = some offer)
    (hclaimed : offer.claimed = true → offer'.claimed = true)
    (hcancelled : offer.cancelled = true → offer'.cancelled = true) : Ages s (upd s' c offer') := by
  intro d q hd
  by_cases hdc : d = c
  · subst hdc
    obtain rfl := mem_unique hc hd
    exact ⟨offer', upd_calls_self .., hclaimed, hcancelled⟩
  obtain ⟨q', hq', hkeeps⟩ := h d q hd
  exact ⟨q', by rw [upd_calls_ne _ _ hdc, hq'], hkeeps⟩

/-- What a step of the call `c` does to the log and to the failure. -/
structure Moved (s s' : Batch) (c : Nat) : Prop where
  ages : Ages s s'
  log : s'.transports = s.transports ∨
    ∃ l, s'.transports = s.transports ++ [l] ∧ s.failed = false ∧ ∀ p d, l = (some p, d) →
      (∃ a b, s.calls p = some a ∧ s.calls d = some b ∧ a.cancelled = false ∧ b.cancelled = false) ∧
      ∃ a b, s'.calls p = some a ∧ s'.calls d = some b ∧ a.claimed = true ∧ b.claimed = true
  failure : (s'.failed = s.failed ∧ s'.firstFailure = s.firstFailure) ∨
    (s.failed = false ∧ ∃ exn offer', s'.firstFailure = some exn ∧ s'.calls c = some offer' ∧
      offer'.phase = .returned (.threw exn))

theorem Moved.of_quiet (hages : Ages s s') (hlog : s'.transports = s.transports) (hfailed : s'.failed = s.failed)
    (hfirst : s'.firstFailure = s.firstFailure) : Moved s s' c :=
  ⟨hages, .inl hlog, .inl ⟨hfailed, hfirst⟩⟩

theorem moved_upd (hc : s.calls c = some offer) (hcalls : s'.calls = s.calls)
    (hlog : s'.transports = s.transports) (hfailed : s'.failed = s.failed) (hfirst : s'.firstFailure = s.firstFailure)
    (hclaimed : offer.claimed = true → offer'.claimed = true)
    (hcancelled : offer.cancelled = true → offer'.cancelled = true) : Moved s (upd s' c offer') c :=
  .of_quiet ((Ages.of_calls hcalls).upd hc hclaimed hcancelled) hlog hfailed hfirst

theorem moved_queue (waiting : Option Nat) (hc : s.calls c = some offer) :
    Moved s (queue { s with waiting } c offer) c := by
  unfold queue
  split
  · exact moved_upd hc rfl rfl rfl rfl id id
  · split <;> exact moved_upd hc rfl rfl rfl rfl id id

section
variable (hc : s.calls c = some offer)
include hc

theorem moved_finishCall : Moved s (finishCall s c offer) c :=
  moved_upd hc rfl rfl rfl rfl id id

theorem moved_wake : Moved s (wake s c offer) c := by
  unfold wake
  split
  · split
    · exact moved_queue none hc
    · exact moved_queue s.waiting hc
  split
  · exact moved_finishCall hc
  · exact moved_upd hc rfl rfl rfl rfl id id

theorem moved_enter : Moved s (enter s c offer) c := by
  unfold enter
  split
  · exact moved_upd hc rfl rfl rfl rfl id id
  next hfine =>
  split
  · next p peer hpair =>
    obtain ⟨-, -, hcall, -, hpeer, hself⟩ := pairing_some hpair
    refine ⟨?_, .inr ⟨_, rfl, by simpa using hfine, ?_⟩, .inl ⟨rfl, rfl⟩⟩
    · have hfirst : Ages s (upd { s with waiting := none, busy := true, transports := s.transports ++ [(some p, c)] } p
          { peer with claimed := true }) := (Ages.of_calls rfl).upd hcall (fun _ => rfl) id
      exact hfirst.upd hc (fun _ => rfl) id
    · intro q d heq
      obtain ⟨hp, rfl⟩ := Prod.mk.inj heq
      cases hp
      refine ⟨⟨peer, offer, hcall, hc, hpeer, hself⟩, ?_⟩
      by_cases hpc : p = c
      · subst hpc
        exact ⟨_, _, upd_calls_self .., upd_calls_self .., rfl, rfl⟩
      refine ⟨{ peer with claimed := true }, _, ?_, upd_calls_self .., rfl, rfl⟩
      rw [upd_calls_ne _ _ hpc]
      exact upd_calls_self ..
  split
  · exact moved_upd hc rfl rfl rfl rfl id id
  · exact moved_queue s.waiting hc

end

theorem onPeer_frame (s : Batch) (t : Transport) (f : Offer → Offer) :
    (onPeer s t f).transports = s.transports ∧ (onPeer s t f).failed = s.failed ∧
      (onPeer s t f).firstFailure = s.firstFailure := by
  unfold onPeer
  split
  · exact ⟨rfl, rfl, rfl⟩
  · split <;> exact ⟨rfl, rfl, rfl⟩

theorem ages_onPeer (hclaimed : ∀ q, q.claimed = true → (f q).claimed = true)
    (hcancelled : ∀ q, (f q).cancelled = q.cancelled) : Ages s (onPeer s t f) := by
  unfold onPeer
  split
  · exact .of_calls rfl
  split
  · exact .of_calls rfl
  next peer hcall =>
  refine (Ages.of_calls rfl).upd hcall (hclaimed peer) fun h => ?_
  rw [hcancelled, h]

theorem moved_both (hc : s.calls c = some offer)
    (hpeer : ∀ q, q.claimed = true → (f q).claimed = true) (hpeer' : ∀ q, (f q).cancelled = q.cancelled)
    (hclaimed : offer.claimed = true → offer'.claimed = true) (hcancelled : offer'.cancelled = offer.cancelled) :
    Moved s (upd (onPeer s t f) c offer') c := by
  obtain ⟨hlog, hfailed, hfirst⟩ := onPeer_frame s t f
  exact .of_quiet ((ages_onPeer hpeer hpeer').upd hc hclaimed fun h => by rw [hcancelled, h]) hlog hfailed hfirst

theorem onPeer_onPeer (s : Batch) (t : Transport) (f g : Offer → Offer) :
    onPeer (onPeer s t f) t g = onPeer s t fun q => g (f q) := by
  unfold onPeer
  cases t.peer with
  | none => rfl
  | some p =>
    dsimp only
    cases hcall : s.calls p with
    | none => simp [hcall]
    | some peer => simp [upd]

theorem moved_claimBoth (hc : s.calls c = some offer) : Moved s (claimBoth s c offer t) c := by
  unfold claimBoth
  split
  · exact moved_both hc (fun _ => id) (fun _ => rfl) id rfl
  split
  · unfold fail
    rw [onPeer_onPeer]
    exact moved_both hc (fun _ _ => rfl) (fun _ => rfl) id rfl
  · exact moved_both hc (fun _ _ => rfl) (fun _ => rfl) (fun _ => rfl) rfl

theorem finishOne_flags (q : Offer) (rows : List Nat) (error : Option Exn) :
    (finishOne q rows error).claimed = q.claimed ∧ (finishOne q rows error).cancelled = q.cancelled := by
  cases error <;> exact ⟨rfl, rfl⟩

theorem moved_deliver (hc : s.calls c = some offer) (first second : Option Exn) :
    Moved s (deliver s c offer t first second) c := by
  unfold deliver
  split
  · obtain ⟨hclaimed, hcancelled⟩ := finishOne_flags offer _ first
    exact moved_upd hc rfl rfl rfl rfl (fun h => hclaimed.trans h) fun h => hcancelled.trans h
  obtain ⟨hclaimed, hcancelled⟩ := finishOne_flags offer
    _ second
  exact moved_both hc (fun q h => (finishOne_flags q _ first).1.trans h) (fun q => (finishOne_flags q _ first).2)
    (fun h => hclaimed.trans h) hcancelled

section
variable (h : Inv s) (hc : s.calls c = some offer) (hphase : offer.phase = .transporting t)
include h hc hphase

theorem moved_relock {completed : Bool}
    (hstage : t.stage = .over completed) : Moved s (relock s c offer t completed) c := by
  obtain ⟨-, hfine, htok⟩ := h.active c offer t hc hphase
  have hages : Ages s (relock s c offer t completed) := by
    refine Ages.upd ?_ hc id id
    have hpeer : Ages s (onPeer s t fun peer => { peer with done := true }) := ages_onPeer (fun _ => id) fun _ => rfl
    cases completed <;> exact hpeer
  obtain ⟨hlog, hfailed, hfirst⟩ := onPeer_frame s t fun peer => { peer with done := true }
  cases completed with
  | true => exact .of_quiet hages hlog hfailed hfirst
  | false =>
    obtain ⟨exn, hexn⟩ := ne_none_iff_exists'.mp (htok.broken hstage)
    refine ⟨hages, .inl hlog, .inr ⟨hfine, exn, _, hexn, upd_calls_self .., ?_⟩⟩
    simp [outcome, hexn]

theorem moved_transportStep (hstep : transportStep s c offer t event = some s') : Moved s s' c := by
  obtain ⟨-, hfine, -⟩ := h.active c offer t hc hphase
  unfold transportStep at hstep
  split at hstep
  · cases hstep
    split
    · exact moved_upd hc rfl rfl rfl rfl id id
    refine ⟨(Ages.of_calls rfl).upd hc id id, .inr ⟨_, rfl, hfine, ?_⟩, .inl ⟨rfl, rfl⟩⟩
    intro p d heq
    simp at heq
  · cases hstep
    exact moved_claimBoth hc
  · cases hstep
    exact moved_upd hc rfl rfl rfl rfl id id
  · cases hstep
    split <;> exact moved_upd hc rfl rfl rfl rfl id id
  · cases hstep
    exact moved_upd hc rfl rfl rfl rfl id id
  · cases hstep
    exact moved_both hc (fun _ => id) (fun _ => rfl) id rfl
  · cases hstep
    exact moved_both hc (fun _ => id) (fun _ => rfl) id rfl
  · cases hstep
    exact moved_both hc (fun _ => id) (fun _ => rfl) id rfl
  · cases hstep
    exact moved_deliver hc _ _
  · next completed hstage =>
    cases hstep
    exact moved_relock h hc hphase hstage
  · simp at hstep

end

theorem moved_step (h : Inv s) (hstep : step s c event = some s') : Moved s s' c := by
  rcases step_cases hstep with ⟨source, consumerClaimed, hc, rfl⟩ | ⟨offer, hc, hcases⟩
  · refine .of_quiet ?_ rfl rfl rfl
    intro d q hd
    have hdc : d ≠ c := by
      intro heq
      subst heq
      simp [hc] at hd
    exact ⟨q, by rw [upd_calls_ne _ _ hdc, hd], id, id⟩
  rcases hcases with ⟨-, rfl⟩ | ⟨-, rfl⟩ | ⟨-, rfl⟩ | ⟨-, rfl⟩ | ⟨-, rfl⟩ | ⟨t, hphase, hstep⟩
  · exact moved_upd hc rfl rfl rfl rfl id fun _ => rfl
  · exact moved_enter hc
  · exact moved_wake hc
  · split
    · exact moved_finishCall hc
    · exact .of_quiet (.of_calls rfl) rfl rfl rfl
  · exact moved_queue s.waiting hc
  · exact moved_transportStep h hc hphase hstep

/-! ## Runs -/

/-- The offers of a pair are claimed. -/
def PairsClaimed (s : Batch) : Prop :=
  ∀ p d, (some p, d) ∈ s.transports → ∃ a b, s.calls p = some a ∧ s.calls d = some b ∧ a.claimed = true ∧ b.claimed = true

theorem pairsClaimed_moved (h : PairsClaimed s) (hmoved : Moved s s' c) : PairsClaimed s' := by
  intro p d hmem
  have hkept : (some p, d) ∈ s.transports →
      ∃ a b, s'.calls p = some a ∧ s'.calls d = some b ∧ a.claimed = true ∧ b.claimed = true := by
    intro hold
    obtain ⟨a, b, ha, hb, hclaimed, hclaimed'⟩ := h p d hold
    obtain ⟨a', ha', haged, -⟩ := hmoved.ages p a ha
    obtain ⟨b', hb', hbged, -⟩ := hmoved.ages d b hb
    exact ⟨a', b', ha', hb', haged hclaimed, hbged hclaimed'⟩
  rcases hmoved.log with hlog | ⟨l, hlog, -, hpair⟩
  · rw [hlog] at hmem
    exact hkept hmem
  rw [hlog, List.mem_append, List.mem_singleton] at hmem
  rcases hmem with hold | hnew
  · exact hkept hold
  · exact (hpair p d hnew.symm).2

theorem pairsClaimed_reaches (hreach : Reaches {} s) : PairsClaimed s := by
  induction hreach with
  | refl => simp [PairsClaimed]
  | tail hreach hstep ih =>
    obtain ⟨c, event, hstep⟩ := hstep
    exact pairsClaimed_moved ih (moved_step (inv_reaches inv_start hreach) hstep)

/-- The offer of `c` is cancelled, and in no pair. -/
def Shunned (s : Batch) (c : Nat) : Prop :=
  (∃ offer, s.calls c = some offer ∧ offer.cancelled = true) ∧ ∀ p d, (some p, d) ∈ s.transports → p ≠ c ∧ d ≠ c

theorem shunned_moved (h : Shunned s d) (hmoved : Moved s s' c) : Shunned s' d := by
  obtain ⟨⟨offer, hd, hcancelled⟩, hnone⟩ := h
  obtain ⟨offer', hd', -, haged⟩ := hmoved.ages d offer hd
  refine ⟨⟨offer', hd', haged hcancelled⟩, ?_⟩
  intro p e hmem
  rcases hmoved.log with hlog | ⟨l, hlog, -, hpair⟩
  · rw [hlog] at hmem
    exact hnone p e hmem
  rw [hlog, List.mem_append, List.mem_singleton] at hmem
  rcases hmem with hold | hnew
  · exact hnone p e hold
  obtain ⟨⟨a, b, ha, hb, hfree, hfree'⟩, -⟩ := hpair p e hnew.symm
  refine ⟨?_, ?_⟩
  · intro heq
    subst heq
    obtain rfl := mem_unique ha hd
    simp [hcancelled] at hfree
  · intro heq
    subst heq
    obtain rfl := mem_unique hb hd
    simp [hcancelled] at hfree'

theorem shunned_reaches (hinv : Inv s) (h : Shunned s d) (hreach : Reaches s s') : Shunned s' d := by
  induction hreach with
  | refl => exact h
  | tail hreach hstep ih =>
    obtain ⟨c, event, hstep⟩ := hstep
    exact shunned_moved ih (moved_step (inv_reaches hinv hreach) hstep)

theorem failed_reaches (hinv : Inv s) (hfailed : s.failed = true) (hreach : Reaches s s') :
    s'.failed = true ∧ s'.firstFailure = s.firstFailure ∧ s'.transports = s.transports := by
  induction hreach with
  | refl => exact ⟨hfailed, rfl, rfl⟩
  | tail hreach hstep ih =>
    obtain ⟨c, event, hstep⟩ := hstep
    obtain ⟨hfailed', hfirst, hlog⟩ := ih
    have hmoved := moved_step (inv_reaches hinv hreach) hstep
    have hlog' := hmoved.log.resolve_right fun ⟨_, _, hfine, _⟩ => by simp [hfailed'] at hfine
    have hfailure := hmoved.failure.resolve_right fun ⟨hfine, _⟩ => by simp [hfailed'] at hfine
    exact ⟨hfailure.1.trans hfailed', hfailure.2.trans hfirst, hlog'.trans hlog⟩

theorem step_of_failed {exn : Exn} (h : Inv s) (hfailed : s.failed = true)
    (hfirst : s.firstFailure = some exn) (hc : s.calls c = some offer) (hclaimed : offer.claimed = false)
    (hevent : event ≠ .cancel) (hstep : step s c event = some s') :
    ∃ offer', s'.calls c = some offer' ∧ offer'.phase = .returned (.threw exn) := by
  have hqueue : ∀ waiting, ∃ offer', (queue { s with waiting } c offer).calls c = some offer' ∧
      offer'.phase = .returned (.threw exn) := by
    intro waiting
    unfold queue
    rw [if_neg (by simp [hfailed]), if_pos hfailed, hfirst]
    exact ⟨_, upd_calls_self .., rfl⟩
  have hok := h.offers c offer hc
  rcases step_cases hstep with ⟨source, consumerClaimed, hnone, -⟩ | ⟨q, hq, hcases⟩
  · simp [hc] at hnone
  obtain rfl := mem_unique hc hq
  rcases hcases with ⟨hcancel, -⟩ | ⟨-, rfl⟩ | ⟨hphase, rfl⟩ | ⟨hphase, -⟩ | ⟨-, rfl⟩ | ⟨t, hphase, -⟩
  · exact absurd hcancel hevent
  · unfold enter
    rw [if_pos hfailed, hfirst]
    exact ⟨_, upd_calls_self .., rfl⟩
  · have hdone : offer.done = false := by
      by_contra hdone
      have := hok.waiting hphase (by simpa using hdone)
      simp [hclaimed] at this
    unfold wake
    rw [if_pos ⟨hdone, hclaimed⟩]
    split
    · exact hqueue none
    · exact hqueue s.waiting
  · have := hok.held hphase
    simp [hclaimed] at this
  · exact hqueue s.waiting
  have hfine := (h.active c offer t hc hphase).2.1
  simp [hfailed] at hfine

theorem step_ready (h : Inv s) (hfailed : s.failed = true) (hc : s.calls c = some offer)
    (hopen : ∀ result, offer.phase ≠ .returned result) : ∃ event s', event ≠ .cancel ∧ step s c event = some s' := by
  cases hphase : offer.phase with
  | start => exact ⟨.enter, _, by simp, by simp [step, hc, hphase]; rfl⟩
  | waiting => exact ⟨.wake, _, by simp, by simp [step, hc, hphase]; rfl⟩
  | held => exact ⟨.wake, _, by simp, by simp [step, hc, hphase]; rfl⟩
  | queued => exact ⟨.wake, _, by simp, by simp [step, hc, hphase]; rfl⟩
  | transporting t =>
    have hfine := (h.active c offer t hc hphase).2.1
    simp [hfailed] at hfine
  | returned result => exact absurd hphase (hopen result)

/-! ## Safety -/

theorem compatible_iff {a b : Source} : compatible a b = true ↔
    a.context ≠ b.context ∧ a.owner ≠ b.owner ∧ a.model = b.model ∧ a.data.length + b.data.length ≤ 16 := by
  unfold compatible bufferRows
  rw [Bool.and_eq_true, Bool.and_eq_true, Bool.and_eq_true, bne_iff_ne, bne_iff_ne, beq_iff_eq, decide_eq_true_iff]
  rw [and_assoc, and_assoc]

/-- In every run: one transport at a time, each offer in at most one; packets have their own
    rows; pairs are compatible and were not cancelled before; the waiting offer is of a call that
    waits; and a failure ends the transports and is what every unclaimed call throws. -/
theorem batch_transports_safe (hreach : Reaches {} s) :
    (∀ (c d : Nat) (a b : Offer) (t u : Transport), s.calls c = some a → s.calls d = some b →
      a.phase = .transporting t → b.phase = .transporting u → c = d) ∧
    (s.transports.flatMap members).Nodup ∧
    (∀ (c : Nat) (offer : Offer) (rows : List Nat), s.calls c = some offer → offer.phase = .returned (.packet rows) →
      rows = offer.source.data) ∧
    (∀ (c : Nat) (offer : Offer) (t : Transport), s.calls c = some offer → offer.phase = .transporting t →
      t.stage = .delivering → gathered s offer t <+: s.host) ∧
    (∀ p c, (some p, c) ∈ s.transports → ∃ a b, s.calls p = some a ∧ s.calls c = some b ∧
      a.source.context ≠ b.source.context ∧ a.source.model = b.source.model ∧
      a.source.data.length + b.source.data.length ≤ 16) ∧
    (∀ (c : Nat) (offer : Offer), s.calls c = some offer → offer.cancelled = true → offer.claimed = false →
      ∀ s', Reaches s s' → ∀ p d, (some p, d) ∈ s'.transports → p ≠ c ∧ d ≠ c) ∧
    (∀ c, s.waiting = some c → ∃ offer, s.calls c = some offer ∧ offer.phase = .waiting) ∧
    (∀ c event s', step s c event = some s' → s.failed = false → s'.failed = true →
      ∃ exn offer, s'.firstFailure = some exn ∧ s'.calls c = some offer ∧ offer.phase = .returned (.threw exn)) ∧
    (s.failed = true → ∃ exn, s.firstFailure = some exn ∧ ∀ s', Reaches s s' →
      s'.transports = s.transports ∧
      (∀ (c : Nat) (offer : Offer) (t : Transport), s'.calls c = some offer → offer.phase ≠ .transporting t) ∧
      ∀ (c : Nat) (offer : Offer), s'.calls c = some offer → offer.claimed = false →
        (∀ result, offer.phase ≠ .returned result) →
        (∃ event s'', event ≠ .cancel ∧ step s' c event = some s'') ∧
        ∀ event s'', event ≠ .cancel → step s' c event = some s'' →
          ∃ offer', s''.calls c = some offer' ∧ offer'.phase = .returned (.threw exn)) := by
  have h : Inv s := inv_reaches inv_start hreach
  refine ⟨h.sole, h.once, fun c offer rows hc => (h.offers c offer hc).packet rows,
    fun c offer t hc hphase => (h.active c offer t hc hphase).2.2.delivering, ?_, ?_, ?_, ?_, ?_⟩
  · intro p c hmem
    obtain ⟨a, b, ha, hb, hcompatible⟩ := h.pairs p c hmem
    obtain ⟨hcontext, -, hmodel, hrows⟩ := compatible_iff.mp hcompatible
    exact ⟨a, b, ha, hb, hcontext, hmodel, hrows⟩
  · intro c offer hc hcancelled hclaimed s' hrest
    refine (shunned_reaches h ⟨⟨offer, hc, hcancelled⟩, fun p d hmem => ?_⟩ hrest).2
    -- the offers of a pair are claimed, and this one is not
    obtain ⟨a, b, ha, hb, hpaired, hpaired'⟩ := pairsClaimed_reaches hreach p d hmem
    refine ⟨?_, ?_⟩
    · intro heq
      subst heq
      obtain rfl := mem_unique ha hc
      simp [hclaimed] at hpaired
    · intro heq
      subst heq
      obtain rfl := mem_unique hb hc
      simp [hclaimed] at hpaired'
  · intro c hc
    obtain ⟨offer, hcall, hopen⟩ := h.waiting c hc
    exact ⟨offer, hcall, hopen.phase⟩
  · intro c event s' hstep hfine hfailed
    rcases (moved_step h hstep).failure with ⟨hsame, -⟩ | ⟨-, hthrown⟩
    · simp [hsame, hfine] at hfailed
    · exact hthrown
  · intro hfailed
    obtain ⟨exn, hexn⟩ := ne_none_iff_exists'.mp (h.failed hfailed)
    refine ⟨exn, hexn, fun s' hrest => ?_⟩
    obtain ⟨hfailed', hfirst, hlog⟩ := failed_reaches h hfailed hrest
    have h' : Inv s' := inv_reaches h hrest
    refine ⟨hlog, ?_, ?_⟩
    · intro c offer t hc hphase
      have hfine := (h'.active c offer t hc hphase).2.1
      simp [hfailed'] at hfine
    · intro c offer hc hclaimed hopen
      exact ⟨step_ready h' hfailed' hc hopen, fun event s'' hevent hstep =>
        step_of_failed h' hfailed' (hfirst.trans hexn) hc hclaimed hevent hstep⟩

/-- A run of given steps. -/
def replay (s : Batch) : List (Nat × Event) → Option Batch
  | [] => some s
  | (c, event) :: rest => (step s c event).bind fun s' => replay s' rest

theorem reaches_replay {events : List (Nat × Event)} (h : replay s events = some s') : Reaches s s' := by
  induction events generalizing s with
  | nil =>
    cases h
    exact .refl
  | cons item rest ih =>
    obtain ⟨s1, hstep, hrest⟩ := bind_eq_some_iff.mp h
    exact .head ⟨item.1, item.2, hstep⟩ (ih hrest)

/-- Two offers of one model, the first of which waits for the second. -/
def pairedRun : List (Nat × Event) :=
  [(0, .begin ⟨0, 10, 7, [5], by decide, by decide⟩ false), (0, .enter),
    (1, .begin ⟨1, 11, 7, [6], by decide, by decide⟩ false), (1, .enter), (1, .claim), (1, .copy none), (1, .join none),
    (1, .read none), (1, .deliver none none), (1, .relock), (0, .wake)]

theorem paired_offers_get_their_rows : ∃ s, Reaches {} s ∧ s.transports = [(some 0, 1)] ∧
    (s.calls 0).map (·.phase) = some (.returned (.packet [5])) ∧
    (s.calls 1).map (·.phase) = some (.returned (.packet [6])) ∧ (s.transports.flatMap members).Nodup := by
  obtain ⟨s, hrun⟩ : ∃ s, replay {} pairedRun = some s := ⟨_, rfl⟩
  have hreach := reaches_replay hrun
  cases hrun
  exact ⟨_, hreach, rfl, rfl, rfl, (batch_transports_safe hreach).2.1⟩

end VoidInfer.Exl3.GreedyPacketBatch
