import VoidInfer.Exl3.GreedyPacketBatchInv

/-
  Every step keeps the invariant, whatever the order of the calls. The sections of the three paths of `finish` come
  first, then the stages of a transport.
-/

namespace VoidInfer.Exl3.GreedyPacketBatch
open List Option

variable {s s' : Batch} {c : Nat} {offer : Offer} {t : Transport}

variable {d : Nat} {q : Offer} {event : Event}

/-! ## Sections -/

theorem Inv.not_peer (h : Inv s) (hc : s.calls c = some offer) (hfree : offer.claimed = false ∨ offer.done = true)
      (hd : s.calls d = some q) (hphase : q.phase = .transporting t) : t.peer ≠ some c := by
  intro hpeer
  obtain ⟨-, peer, hcall, hheld, -⟩ := (h.active d q t hd hphase).2.2.peer c hpeer
  obtain rfl := mem_unique hc hcall
  rcases hfree with hfree | hfree
  · simp [hheld.claimed] at hfree
  · simp [hheld.done] at hfree

theorem Inv.idle (h : Inv s) (hbusy : s.busy = false) (hd : s.calls d = some q)
    (hphase : q.phase = .transporting t) : False := by
  have hb := (h.active d q t hd hphase).1
  simp [hbusy] at hb

theorem inv_local (waiting : Option Nat) (h : Inv s) {offer' : Offer} (hc : s.calls c = some offer)
    (hsource : offer'.source = offer.source) (hphase : ∀ u, offer.phase ≠ .transporting u)
    (hphase' : ∀ u, offer'.phase ≠ .transporting u) (hok : OfferOk offer')
    (hclaimed : offer.claimed = true → offer'.claimed = true) (hdone : offer.done = true → offer'.done = true)
    (hpeer : (∀ d q u, s.calls d = some q → q.phase = .transporting u → u.peer ≠ some c) ∨ offer'.Held)
    (hwaiting : ∀ d, waiting = some d → (d = c ∧ offer'.Open) ∨ (d ≠ c ∧ s.waiting = some d)) :
    Inv (upd { s with waiting } c offer') := by
  refine inv_upd h hc rfl rfl hsource hok ?_ (fun u hu => absurd hu (hphase' u)) ?_ hwaiting h.failed h.lengths
  · rintro (hspent | hspent | ⟨u, hu, -⟩)
    · exact .inl (hclaimed hspent)
    · exact .inr (.inl (hdone hspent))
    · exact absurd hu (hphase u)
  intro d q u _ hd hu
  obtain ⟨hbusy, hfine, -⟩ := h.active d q u hd hu
  refine ⟨hbusy, hfine, rfl, rfl, hphase', fun hp => ?_⟩
  rcases hpeer with hnone | hheld
  · exact absurd hp (hnone d q u hd hu)
  · exact hheld

theorem Inv.waiting_ne (h : Inv s) (hc : s.calls c = some offer) (hnot : ¬ offer.Open)
    (hd : s.waiting = some d) : d ≠ c ∧ s.waiting = some d := by
  refine ⟨?_, hd⟩
  rintro rfl
  obtain ⟨q, hq, hopen⟩ := h.waiting d hd
  obtain rfl := mem_unique hc hq
  exact hnot hopen

theorem inv_queue (waiting : Option Nat) (h : Inv s) (hc : s.calls c = some offer) (hclaimed : offer.claimed = false)
    (hdone : offer.done = false) (hphase : ∀ u, offer.phase ≠ .transporting u)
    (hresult : ∀ rows, offer.result = some rows → rows = offer.source.data)
    (hwaiting : ∀ d, waiting = some d → d ≠ c ∧ s.waiting = some d) : Inv (queue { s with waiting } c offer) := by
  have hpeer : ∀ d q u, s.calls d = some q → q.phase = .transporting u → u.peer ≠ some c :=
    fun d q u hd hu => h.not_peer hc (.inl hclaimed) hd hu
  unfold queue
  split
  · exact inv_local waiting h hc rfl hphase (by simp) ⟨fun _ => ⟨hclaimed, hdone⟩, by simp, by simp, hresult, by simp⟩
      id id (.inl hpeer) fun d hd => .inr (hwaiting d hd)
  next hfree =>
  split
  · exact inv_local waiting h hc rfl hphase (by simp) ⟨by simp, by simp, by simp, hresult, by simp⟩ id id (.inl hpeer)
      fun d hd => .inr (hwaiting d hd)
  next hfine =>
  have hfine : s.failed = false := by simpa using hfine
  have hidle : s.busy = false := by
    by_contra hbusy
    exact hfree ⟨by simpa using hbusy, hfine⟩
  refine inv_upd h hc rfl rfl rfl ⟨by simp, by simp, by simp, hresult, by simp⟩ ?_ ?_ ?_
    (fun d hd => .inr (hwaiting d hd)) h.failed h.lengths
  · rintro (hspent | hspent | ⟨u, hu, -⟩)
    · simp [hclaimed] at hspent
    · simp [hdone] at hspent
    · exact absurd hu (hphase u)
  · intro u hu
    obtain rfl : ({ stage := .checking } : Transport) = u := by simpa using hu
    exact ⟨rfl, hfine, hdone, fun _ => ⟨hclaimed, rfl⟩, by simp, by simp, by simp, by simp, by simp⟩
  intro d q u _ hd hu
  exact (h.idle hidle hd hu).elim

theorem inv_finishCall (h : Inv s) (hc : s.calls c = some offer) (hdone : offer.done = true)
    (hphase : ∀ u, offer.phase ≠ .transporting u) : Inv (finishCall s c offer) := by
  have hok := h.offers c offer hc
  refine inv_local s.waiting h hc rfl hphase (by simp) ⟨by simp, by simp, by simp, hok.result, ?_⟩ id id
    (.inl fun d q u hd hu => h.not_peer hc (.inr hdone) hd hu) fun d hd => .inr (h.waiting_ne hc ?_ hd)
  · intro rows hrows
    have houtcome : outcome offer = .packet rows := by simpa using hrows
    unfold outcome at houtcome
    split at houtcome
    · simp at houtcome
    · next hresult =>
      cases houtcome
      exact hok.result _ hresult
    · simp at houtcome
  intro hopen
  simp [hopen.done] at hdone

theorem inv_wake (h : Inv s) (hc : s.calls c = some offer) (hphase : offer.phase = .waiting) : Inv (wake s c offer) := by
  have hok := h.offers c offer hc
  have hnot : ∀ u, offer.phase ≠ .transporting u := by simp [hphase]
  unfold wake
  split
  · next hfree =>
    have hshape : (if s.waiting = some c then { s with waiting := none } else s) =
        { s with waiting := if s.waiting = some c then none else s.waiting } := by
      split <;> rfl
    rw [hshape]
    refine inv_queue _ h hc hfree.2 hfree.1 hnot hok.result fun d hd => ?_
    split at hd
    · simp at hd
    next hother =>
    refine ⟨?_, hd⟩
    rintro rfl
    exact hother hd
  next hbusy =>
  split
  · next hdone => exact inv_finishCall h hc hdone hnot
  next hdone =>
  have hdone : offer.done = false := by simpa using hdone
  have hclaimed : offer.claimed = true := by
    by_contra hfree
    exact hbusy ⟨hdone, by simpa using hfree⟩
  refine inv_local s.waiting h hc rfl hnot (by simp)
    ⟨by simp, by simp, fun _ => hclaimed, hok.result, by simp⟩ id id (.inr ⟨.inr rfl, hclaimed, hdone⟩)
    fun d hd => .inr (h.waiting_ne hc ?_ hd)
  intro hopen
  simp [hopen.claimed] at hclaimed

theorem pairing_some {p : Nat} {peer : Offer} (hpair : pairing s offer = some (p, peer)) :
    s.busy = false ∧ s.waiting = some p ∧ s.calls p = some peer ∧ compatible peer.source offer.source = true ∧
      peer.cancelled = false ∧ offer.cancelled = false := by
  unfold pairing at hpair
  split at hpair
  · simp at hpair
  next hbusy =>
  obtain ⟨hbind, hgood⟩ := filter_eq_some_iff.mp hpair
  obtain ⟨p', hwaiting, hmap⟩ := bind_eq_some_iff.mp hbind
  obtain ⟨peer', hcall, heq⟩ := map_eq_some_iff.mp hmap
  cases heq
  simp only [Bool.and_eq_true, Bool.not_eq_true'] at hgood
  exact ⟨by simpa using hbusy, hwaiting, hcall, hgood.1.1, hgood.1.2, hgood.2⟩

theorem inv_enter (h : Inv s) (hc : s.calls c = some offer) (hphase : offer.phase = .start) : Inv (enter s c offer) := by
  have hok := h.offers c offer hc
  obtain ⟨hclaimed, hdone⟩ := hok.fresh (.inl hphase)
  have hnot : ∀ u, offer.phase ≠ .transporting u := by simp [hphase]
  have hopen : ¬ offer.Open := fun hopen => by simpa [hphase] using hopen.phase
  have hpeer : ∀ d q u, s.calls d = some q → q.phase = .transporting u → u.peer ≠ some c :=
    fun d q u hd hu => h.not_peer hc (.inl hclaimed) hd hu
  have hfresh : ∀ l ∈ s.transports, c ∉ members l := by
    intro l hl hmem
    obtain ⟨q, hq, hspent⟩ := h.logged l hl c hmem
    obtain rfl := mem_unique hc hq
    rcases hspent with hspent | hspent | ⟨u, hu, -⟩
    · simp [hclaimed] at hspent
    · simp [hdone] at hspent
    · exact hnot u hu
  unfold enter
  split
  · exact inv_local s.waiting h hc rfl hnot (by simp) ⟨by simp, by simp, by simp, hok.result, by simp⟩ id id
      (.inl hpeer) fun d hd => .inr (h.waiting_ne hc hopen hd)
  next hfine =>
  have hfine : s.failed = false := by simpa using hfine
  split
  · next p peer hpair =>
    obtain ⟨hidle, hwaiting, hp, hcompatible, -⟩ := pairing_some hpair
    obtain ⟨_, hp', hpopen⟩ := h.waiting p hwaiting
    obtain rfl := mem_unique hp hp'
    have hpc : p ≠ c := by
      rintro rfl
      obtain rfl := mem_unique hc hp
      exact hopen hpopen
    have hpok := h.offers p peer hp
    have hpfresh : ∀ l ∈ s.transports, p ∉ members l := by
      intro l hl hmem
      obtain ⟨q, hq, hspent⟩ := h.logged l hl p hmem
      obtain rfl := mem_unique hp hq
      rcases hspent with hspent | hspent | ⟨u, hu, -⟩
      · simp [hpopen.claimed] at hspent
      · simp [hpopen.done] at hspent
      · simp [hpopen.phase] at hu
    -- the peer is claimed, then the caller begins the transport, then it is recorded
    have hone : Inv (upd { s with waiting := none } p { peer with claimed := true }) :=
      inv_local none h hp rfl (by simp [hpopen.phase]) (by simp [hpopen.phase])
        ⟨by simp [hpopen.phase], fun _ _ => rfl, fun _ => rfl, hpok.result, hpok.packet⟩ (fun _ => rfl) id
        (.inr ⟨.inl hpopen.phase, rfl, hpopen.done⟩) (by simp)
    have hc' : (upd { s with waiting := none } p { peer with claimed := true }).calls c = some offer := by
      rw [upd_calls_ne _ _ (Ne.symm hpc)]
      exact hc
    have htwo : Inv (upd { upd { s with waiting := none } p { peer with claimed := true } with busy := true } c
        { offer with claimed := true, phase := .transporting { peer := some p, stage := .claiming } }) := by
      refine inv_upd hone hc' rfl rfl rfl ⟨by simp, by simp, by simp, hok.result, by simp⟩ (fun _ => .inl rfl) ?_ ?_
        (by simp [upd]) h.failed h.lengths
      · intro u hu
        obtain rfl : ({ peer := some p, stage := .claiming } : Transport) = u := by simpa using hu
        refine ⟨rfl, hfine, hdone, by simp, ?_, by simp, by simp, by simp, by simp⟩
        intro p' hp'
        obtain rfl : p = p' := by simpa using hp'
        refine ⟨hpc, { peer with claimed := true }, ?_, ⟨.inl hpopen.phase, rfl, hpopen.done⟩, hcompatible⟩
        rw [upd_calls_ne _ _ hpc]
        exact upd_calls_self ..
      intro d q u hne hd hu
      exact (hone.idle hidle hd hu).elim
    refine inv_logged htwo (l := (some p, c)) ?_ ?_ ?_ ?_
    · intro d hd
      rcases mem_append.mp hd with hd | hd
      · obtain rfl : d = p := by simpa using hd
        exact ⟨{ peer with claimed := true }, by rw [upd_calls_ne _ _ hpc]; exact upd_calls_self .., .inl rfl⟩
      obtain rfl := mem_singleton.mp hd
      exact ⟨_, upd_calls_self .., .inl rfl⟩
    · intro d hd hmem
      obtain ⟨l, hl, hin⟩ := mem_flatMap.mp hmem
      rcases mem_append.mp hd with hd | hd
      · obtain rfl : d = p := by simpa using hd
        exact hpfresh l hl hin
      obtain rfl := mem_singleton.mp hd
      exact hfresh l hl hin
    · simp [members, hpc]
    intro p' d heq
    obtain ⟨hp', rfl⟩ := Prod.mk.inj heq
    obtain rfl : p = p' := by simpa using hp'
    exact ⟨{ peer with claimed := true }, _, by rw [upd_calls_ne _ _ hpc]; exact upd_calls_self .., upd_calls_self ..,
      hcompatible⟩
  · split
    · next hfree =>
      exact inv_local _ h hc rfl hnot (by simp)
        ⟨by simp, by simp [hdone], by simp, hok.result, by simp⟩ id id (.inl hpeer)
        fun d hd => .inl ⟨(some.inj hd).symm, ⟨rfl, hclaimed, hdone⟩⟩
    · exact inv_queue s.waiting h hc hclaimed hdone hnot hok.result fun d hd => h.waiting_ne hc hopen hd

/-! ## Transports -/

section
variable (h : Inv s) (hc : s.calls c = some offer) (hphase : offer.phase = .transporting t)
include h hc hphase

theorem inv_self {offer' : Offer}
    (hcalls : s'.calls = Function.update s.calls c (some offer')) (hlog : s'.transports = s.transports)
    (hsource : offer'.source = offer.source) (hok : OfferOk offer') (hspent : offer'.Spent)
    (hself : ∀ u, offer'.phase = .transporting u → s'.busy = true ∧ s'.failed = false ∧ TransportOk s' c offer' u)
    (hwaiting : s'.waiting = s.waiting) (hfailed : s'.failed = true → s'.firstFailure ≠ none)
    (hlengths : s'.device.length = bufferRows ∧ s'.host.length = bufferRows) : Inv s' := by
  refine inv_upd h hc hcalls hlog hsource hok (fun _ => hspent) hself ?_ ?_ hfailed hlengths
  · intro d q u hne hd hu
    exact absurd (h.sole d c q offer u t hd hc hu hphase) hne
  intro d hd
  rw [hwaiting] at hd
  refine .inr (h.waiting_ne hc ?_ hd)
  intro hopen
  simp [hopen.phase] at hphase

theorem inv_onPeer {f : Offer → Offer} (hsource : ∀ peer, (f peer).source = peer.source)
    (hf : ∀ p peer, t.peer = some p → s.calls p = some peer → peer.Held → OfferOk peer → (f peer).Held ∧ OfferOk (f peer)) :
    Inv (onPeer s t f) ∧ (onPeer s t f).calls c = some offer ∧
      (leading (onPeer s t f) offer t).source = (leading s offer t).source := by
  unfold onPeer
  cases hp : t.peer with
  | none => exact ⟨h, hc, rfl⟩
  | some p =>
    obtain ⟨hne, peer, hcall, hheld, -⟩ := (h.active c offer t hc hphase).2.2.peer p hp
    have hpok := h.offers p peer hcall
    obtain ⟨hheld', hok'⟩ := hf p peer hp hcall hheld hpok
    dsimp only
    rw [hcall]
    have hnot : ∀ {q : Offer}, q.Held → ∀ u, q.phase ≠ .transporting u := by
      intro q hq u hu
      rcases hq.phase with hphase | hphase <;> simp [hphase] at hu
    refine ⟨?_, ?_, leading_source hcall rfl (hsource peer) rfl⟩
    · refine inv_local s.waiting h hcall (hsource peer) (hnot hheld) (hnot hheld') hok' (fun _ => hheld'.claimed) ?_
        (.inr hheld') fun d hd => .inr (h.waiting_ne hcall ?_ hd)
      · intro hdone
        simp [hheld.done] at hdone
      · intro hopen
        have hclaimed := hheld.claimed
        simp [hopen.claimed] at hclaimed
    · rw [upd_calls_ne _ _ (Ne.symm hne), hc]

end

theorem inv_stage (offer' : Offer) (h : Inv s) {stage : Stage} {device host : List Nat} (hc : s.calls c = some offer)
    (hphase : offer.phase = .transporting t) (hsource : offer'.source = offer.source) (hdone : offer'.done = offer.done)
    (hresult : ∀ rows, offer'.result = some rows → rows = offer.source.data) (hnot : stage ≠ .checking)
    (hjoining : stage = .joining → (leading s offer t).source.data <+: device)
    (hreading : stage = .reading → gathered s offer t <+: device)
    (hdelivering : stage = .delivering → gathered s offer t <+: host)
    (hbroken : stage = .over false → offer'.failure ≠ none)
    (hlengths : device.length = bufferRows ∧ host.length = bufferRows) :
    Inv (upd { s with device, host } c (atStage offer' t stage)) := by
  obtain ⟨hbusy, hfine, htok⟩ := h.active c offer t hc hphase
  have hsource' : (atStage offer' t stage).source = offer.source := hsource
  have hleading : (leading (upd { s with device, host } c (atStage offer' t stage)) (atStage offer' t stage)
      { t with stage }).source = (leading s offer t).source :=
    leading_source (t := t) hc rfl hsource' hsource'
  refine inv_self h hc hphase rfl rfl hsource
    ⟨by simp [atStage], by simp [atStage], by simp [atStage], ?_, by simp [atStage]⟩
    (.inr (.inr ⟨{ t with stage }, rfl, hnot⟩)) ?_ rfl h.failed hlengths
  · rw [hsource']
    exact hresult
  intro u hu
  obtain rfl : ({ t with stage } : Transport) = u := by simpa [atStage] using hu
  have hgathered : gathered (upd { s with device, host } c (atStage offer' t stage)) (atStage offer' t stage)
      { t with stage } = gathered s offer t := by
    unfold gathered
    rw [hleading, hsource']
  refine ⟨hbusy, hfine, ⟨?_, fun hchecking => absurd hchecking hnot, ?_, ?_, ?_, ?_, hbroken⟩⟩
  · show offer'.done = false
    rw [hdone]
    exact htok.live
  · intro p hp
    obtain ⟨hne, peer, hcall, hheld, hcompatible⟩ := htok.peer p hp
    refine ⟨hne, peer, ?_, hheld, ?_⟩
    · rw [upd_calls_ne _ _ hne]
      exact hcall
    · rw [hsource']
      exact hcompatible
  · rw [hleading]
    exact hjoining
  · rw [hgathered]
    exact hreading
  · rw [hgathered]
    exact hdelivering

theorem or_ne_none {failure : Option Exn} {exn : Exn} : failure.or (some exn) ≠ none := by
  cases failure <;> simp

section
variable (h : Inv s) (hc : s.calls c = some offer) (hphase : offer.phase = .transporting t)
include h hc hphase

theorem inv_fail (exn : Exn) : Inv (fail s c offer t exn) := by
  have hok := h.offers c offer hc
  obtain ⟨hinv, hc', -⟩ := inv_onPeer h (f := fun peer => { peer with failure := peer.failure.or (some exn) }) hc hphase
    (fun _ => rfl) fun p peer _ _ hheld hpok =>
      ⟨⟨hheld.phase, hheld.claimed, hheld.done⟩, ⟨hpok.fresh, hpok.waiting, hpok.held, hpok.result, hpok.packet⟩⟩
  exact inv_stage { offer with failure := offer.failure.or _ } hinv hc' hphase rfl rfl hok.result
    (by simp) (by simp) (by simp) (by simp) (fun _ => or_ne_none) hinv.lengths

theorem inv_claimBoth : Inv (claimBoth s c offer t) := by
  have hok := h.offers c offer hc
  obtain ⟨hinv, hc', -⟩ := inv_onPeer h (f := claim) hc hphase (fun _ => rfl) fun p peer _ _ hheld hpok =>
    ⟨⟨hheld.phase, rfl, hheld.done⟩,
      ⟨fun hfresh => absurd hfresh (by rcases hheld.phase with hp | hp <;> simp [claim, hp]), fun _ _ => rfl,
        fun _ => rfl, hpok.result, hpok.packet⟩⟩
  unfold claimBoth
  split
  · exact inv_fail h hc hphase claimedFailure
  split
  · exact inv_fail hinv hc' hphase claimedFailure
  exact inv_stage _ hinv hc' hphase rfl rfl hok.result (by simp) (by simp) (by simp) (by simp) (by simp) hinv.lengths

theorem inv_check (hstage : t.stage = .checking) (hstep : transportStep s c offer t .check = some s') : Inv s' := by
  have hok := h.offers c offer hc
  obtain ⟨-, -, htok⟩ := h.active c offer t hc hphase
  unfold transportStep at hstep
  rw [hstage] at hstep
  cases hstep
  split
  · exact inv_stage { offer with failure := some cancelledFailure } h hc hphase rfl rfl hok.result (by simp) (by simp)
      (by simp) (by simp) (by simp) h.lengths
  have hone := inv_stage offer h hc hphase rfl rfl hok.result (show Stage.claiming ≠ .checking by simp) (by simp)
    (by simp) (by simp) (by simp) h.lengths
  refine inv_logged hone (l := (none, c)) ?_ ?_ (by simp [members]) (by simp)
  · intro d hd
    obtain rfl : d = c := by simpa [members] using hd
    exact ⟨_, upd_calls_self .., .inr (.inr ⟨_, rfl, by simp⟩)⟩
  intro d hd hmem
  obtain rfl : d = c := by simpa [members] using hd
  obtain ⟨l, hl, hin⟩ := mem_flatMap.mp hmem
  obtain ⟨q, hq, hspent⟩ := h.logged l hl d hin
  obtain rfl := mem_unique hc hq
  rcases hspent with hspent | hspent | ⟨u, hu, hnot⟩
  · simp [(htok.unclaimed hstage).1] at hspent
  · simp [htok.live] at hspent
  obtain rfl : t = u := by simpa [hphase] using hu
  exact hnot hstage

end

theorem TransportOk.fits (h : TransportOk s c offer t) : (gathered s offer t).length ≤ bufferRows := by
  unfold gathered leading
  cases hp : t.peer with
  | none => simpa using offer.source.rows_le
  | some p =>
    obtain ⟨-, peer, hcall, -, hcompatible⟩ := h.peer p hp
    simp only [compatible, Bool.and_eq_true, decide_eq_true_eq] at hcompatible
    simpa [hcall] using hcompatible.2

section
variable (h : Inv s) (hc : s.calls c = some offer) (hphase : offer.phase = .transporting t)
include h hc hphase

theorem inv_copy :
    Inv (upd { s with device := overwrite s.device 0 (leading s offer t).source.data } c (atStage offer t .joining)) := by
  have hok := h.offers c offer hc
  refine inv_stage offer h hc hphase rfl rfl hok.result (by simp) (fun _ => prefix_overwrite_zero _ _) (by simp)
    (by simp) (by simp) ⟨?_, h.lengths.2⟩
  rw [length_overwrite, h.lengths.1]
  rw [h.lengths.1, Nat.zero_add]
  exact (leading s offer t).source.rows_le

theorem inv_join (hstage : t.stage = .joining) :
    Inv (upd (if t.peer.isSome then
        { s with device := overwrite s.device (leading s offer t).source.data.length offer.source.data }
      else s) c (atStage offer t .reading)) := by
  have hok := h.offers c offer hc
  obtain ⟨-, -, htok⟩ := h.active c offer t hc hphase
  have hfirst := htok.joining hstage
  have hfits := htok.fits
  split
  · next hpeer =>
    rw [gathered, if_pos hpeer, length_append] at hfits
    refine inv_stage offer h hc hphase rfl rfl hok.result (by simp) (by simp) (fun _ => ?_) (by simp) (by simp)
      ⟨?_, h.lengths.2⟩
    · rw [gathered, if_pos hpeer]
      exact prefix_overwrite hfirst
    rw [length_overwrite, h.lengths.1]
    rw [h.lengths.1]
    exact hfits
  next hpeer =>
  refine inv_stage offer h hc hphase rfl rfl hok.result (by simp) (by simp) (fun _ => ?_) (by simp) (by simp)
    h.lengths
  rw [gathered, if_neg hpeer, append_nil]
  exact hfirst

theorem inv_read (hstage : t.stage = .reading) {rows : Nat} (hrows : rows = (gathered s offer t).length) :
    Inv (upd { s with host := overwrite s.host 0 (s.device.take rows) } c (atStage offer t .delivering)) := by
  have hok := h.offers c offer hc
  obtain ⟨-, -, htok⟩ := h.active c offer t hc hphase
  have hgathered : s.device.take rows = gathered s offer t := by
    rw [hrows]
    exact (prefix_iff_eq_take.mp (htok.reading hstage)).symm
  rw [hgathered]
  refine inv_stage offer h hc hphase rfl rfl hok.result (by simp) (by simp) (by simp)
    (fun _ => prefix_overwrite_zero _ _) (by simp) ⟨h.lengths.1, ?_⟩
  rw [length_overwrite, h.lengths.2]
  rw [h.lengths.2, Nat.zero_add]
  exact htok.fits

end

theorem finishOne_result {rows : List Nat} {error : Option Exn} (hold : ∀ r, q.result = some r → r = q.source.data)
    (hrows : rows = q.source.data) : ∀ r, (finishOne q rows error).result = some r → r = q.source.data := by
  intro r hr
  cases error with
  | none =>
    obtain rfl : rows = r := by simpa [finishOne] using hr
    exact hrows
  | some exn => exact hold r hr

theorem finishOne_fields (q : Offer) (rows : List Nat) (error : Option Exn) :
    (finishOne q rows error).source = q.source ∧ (finishOne q rows error).claimed = q.claimed ∧
      (finishOne q rows error).done = q.done ∧ (finishOne q rows error).phase = q.phase := by
  cases error <;> exact ⟨rfl, rfl, rfl, rfl⟩

section
variable (h : Inv s) (hc : s.calls c = some offer) (hphase : offer.phase = .transporting t)
include h hc hphase

theorem inv_deliver
    (hstage : t.stage = .delivering) (first second : Option Exn) : Inv (deliver s c offer t first second) := by
  have hok := h.offers c offer hc
  obtain ⟨-, -, htok⟩ := h.active c offer t hc hphase
  have hgathered := htok.delivering hstage
  obtain ⟨hfirst, hsecond⟩ := take_of_prefix hgathered
  unfold deliver
  cases hp : t.peer with
  | none =>
    have hleading : leading s offer t = offer := by simp [leading, hp]
    rw [hleading] at hfirst
    dsimp only
    rw [hleading, hfirst]
    obtain ⟨hsource, -, hdone, -⟩ := finishOne_fields offer offer.source.data first
    exact inv_stage _ h hc hphase hsource hdone (finishOne_result hok.result rfl)
      (by simp) (by simp) (by simp) (by simp) (by simp) h.lengths
  | some p =>
    obtain ⟨-, peer, hcall, -, -⟩ := htok.peer p hp
    have hleading : leading s offer t = peer := by simp [leading, hp, hcall]
    rw [hleading] at hfirst hsecond
    rw [if_pos (by simp [hp])] at hsecond
    dsimp only
    rw [hleading, hsecond]
    obtain ⟨hinv, hc', -⟩ := inv_onPeer h (f := fun peer' => finishOne peer' (s.host.take peer.source.data.length) first)
      hc hphase (fun q => (finishOne_fields q _ first).1) (by
        intro p' q hp' hq hheld hqok
        obtain rfl : p = p' := by simpa [hp] using hp'
        obtain rfl := mem_unique hcall hq
        obtain ⟨hsource, hclaimed, hdone, hphase⟩ := finishOne_fields peer _ first
        refine ⟨⟨by rw [hphase]; exact hheld.phase, by rw [hclaimed]; exact hheld.claimed, by rw [hdone]; exact hheld.done⟩,
          ⟨?_, ?_, ?_, ?_, ?_⟩⟩
        · rw [hphase, hclaimed, hdone]
          exact hqok.fresh
        · rw [hphase, hclaimed, hdone]
          exact hqok.waiting
        · rw [hphase, hclaimed]
          exact hqok.held
        · rw [hsource]
          exact finishOne_result hqok.result hfirst
        · rw [hphase, hsource]
          exact hqok.packet)
    obtain ⟨hsource, -, hdone, -⟩ := finishOne_fields offer offer.source.data second
    exact inv_stage _ hinv hc' hphase hsource hdone
      (finishOne_result hok.result rfl) (by simp) (by simp) (by simp) (by simp) (by simp) hinv.lengths

/-- The caller has returned; its peer is not told yet. -/
def returned (s : Batch) (c : Nat) (offer : Offer) (completed : Bool) : Batch :=
  finishCall { s with
    busy := false, failed := if completed then s.failed else true
    firstFailure := if completed then s.firstFailure else offer.failure } c { offer with done := true }

theorem relock_eq (completed : Bool) :
    relock s c offer t completed =
      onPeer (returned s c offer completed) t fun peer => { peer with done := true } := by
  obtain ⟨-, -, htok⟩ := h.active c offer t hc hphase
  unfold relock onPeer returned finishCall upd
  cases hp : t.peer with
  | none => cases completed <;> rfl
  | some p =>
    obtain ⟨hne, peer, hcall, -, -⟩ := htok.peer p hp
    cases completed <;> simp [hcall, Function.update_of_ne hne, Function.update_comm hne]

theorem inv_relock {completed : Bool} (hstage : t.stage = .over completed) : Inv (relock s c offer t completed) := by
  have hok := h.offers c offer hc
  obtain ⟨-, hfine, htok⟩ := h.active c offer t hc hphase
  rw [relock_eq h hc hphase]
  -- the caller returns; then nobody transports, and the peer may be done
  have hfinished : Inv (returned s c offer completed) := by
    refine inv_self h hc hphase rfl rfl rfl ⟨by simp, by simp, by simp, hok.result, ?_⟩ (.inr (.inl rfl)) (by simp)
      rfl ?_ h.lengths
    · intro rows hrows
      have houtcome : outcome { offer with done := true } = .packet rows := by simpa using hrows
      unfold outcome at houtcome
      split at houtcome
      · simp at houtcome
      · next hresult =>
        cases houtcome
        exact hok.result _ hresult
      · simp at houtcome
    intro hfailed
    cases completed with
    | true => exact h.failed hfailed
    | false => exact htok.broken hstage
  have hnobody : ∀ d q u, (returned s c offer completed).calls d = some q → q.phase ≠ .transporting u := by
    intro d q u hd hu
    have hbusy := (hfinished.active d q u hd hu).1
    simp [returned, finishCall, upd] at hbusy
  unfold onPeer
  cases hp : t.peer with
  | none => exact hfinished
  | some p =>
    obtain ⟨hne, peer, hcall, hheld, -⟩ := htok.peer p hp
    have hpok := h.offers p peer hcall
    have hcall' : (returned s c offer completed).calls p = some peer := by
      unfold returned finishCall
      rw [upd_calls_ne _ _ hne]
      exact hcall
    dsimp only
    rw [hcall']
    have hnot : ∀ u, peer.phase ≠ .transporting u := by
      intro u hu
      rcases hheld.phase with hphase | hphase <;> simp [hphase] at hu
    have hlive : ¬ (peer.phase = .start ∨ peer.phase = .queued) := by
      rcases hheld.phase with hphase | hphase <;> simp [hphase]
    refine inv_local s.waiting hfinished hcall' rfl hnot hnot
      ⟨fun hfresh => absurd hfresh hlive, fun _ _ => hheld.claimed, fun _ => hheld.claimed, hpok.result, hpok.packet⟩
      id (fun _ => rfl) (.inl fun d q u hd hu => absurd hu (hnobody d q u hd)) fun d hd => .inr ?_
    refine hfinished.waiting_ne hcall' ?_ hd
    intro hopen
    have hclaimed := hheld.claimed
    simp [hopen.claimed] at hclaimed

theorem inv_transportStep (hstep : transportStep s c offer t event = some s') : Inv s' := by
  have hstep' := hstep
  unfold transportStep at hstep
  split at hstep
  · next hstage => exact inv_check h hc hphase hstage hstep'
  · cases hstep
    exact inv_claimBoth h hc hphase
  · cases hstep
    exact inv_copy h hc hphase
  · next hstage =>
    cases hstep
    exact inv_join h hc hphase hstage
  · next hstage =>
    cases hstep
    refine inv_read h hc hphase hstage ?_
    unfold gathered
    rw [length_append]
    split <;> rfl
  · cases hstep
    exact inv_fail h hc hphase _
  · cases hstep
    exact inv_fail h hc hphase _
  · cases hstep
    exact inv_fail h hc hphase _
  · next hstage =>
    cases hstep
    exact inv_deliver h hc hphase hstage _ _
  · next hstage =>
    cases hstep
    exact inv_relock h hc hphase hstage
  · simp at hstep

end

/-! ## Runs -/

theorem inv_begin (h : Inv s) (hc : s.calls c = none) (source : Source) (consumerClaimed : Bool) :
    Inv (upd s c { source, consumerClaimed }) := by
  have hold : ∀ {d : Nat} {q : Offer}, s.calls d = some q → d ≠ c := by
    rintro d q hd rfl
    simp [hc] at hd
  have hkeep : ∀ {d : Nat} {q : Offer}, s.calls d = some q → (upd s c { source, consumerClaimed }).calls d = some q := by
    intro d q hd
    rw [upd_calls_ne _ _ (hold hd), hd]
  have hcases : ∀ {d : Nat} {q : Offer}, (upd s c { source, consumerClaimed }).calls d = some q →
      (d = c ∧ q = { source, consumerClaimed }) ∨ s.calls d = some q := by
    intro d q hd
    rcases calls_update rfl hd with heq | ⟨-, hd⟩
    · exact .inl heq
    · exact .inr hd
  refine ⟨?_, ?_, ?_, ?_, h.failed, h.lengths, ?_, h.once, ?_⟩
  · intro d q hd
    rcases hcases hd with ⟨-, rfl⟩ | hd
    · exact ⟨fun _ => ⟨rfl, rfl⟩, by simp, by simp, by simp, by simp⟩
    · exact h.offers d q hd
  · intro d q u hd hu
    rcases hcases hd with ⟨-, rfl⟩ | hd
    · simp at hu
    obtain ⟨hbusy, hfine, htok⟩ := h.active d q u hd hu
    have hleading : leading (upd s c { source, consumerClaimed }) q u = leading s q u := by
      unfold leading
      cases hp : u.peer with
      | none => rfl
      | some p =>
        obtain ⟨-, peer, hcall, -, -⟩ := htok.peer p hp
        simp [hcall, hkeep hcall]
    have hgathered : gathered (upd s c { source, consumerClaimed }) q u = gathered s q u := by
      unfold gathered
      rw [hleading]
    refine ⟨hbusy, hfine, ⟨htok.live, htok.unclaimed, ?_, ?_, ?_, ?_, htok.broken⟩⟩
    · intro p hp
      obtain ⟨hne, peer, hcall, hrest⟩ := htok.peer p hp
      exact ⟨hne, peer, hkeep hcall, hrest⟩
    · rw [hleading]
      exact htok.joining
    · rw [hgathered]
      exact htok.reading
    · rw [hgathered]
      exact htok.delivering
  · intro d e a b u v hd he hu hv
    rcases hcases hd with ⟨-, rfl⟩ | hd
    · simp at hu
    rcases hcases he with ⟨-, rfl⟩ | he
    · simp at hv
    · exact h.sole d e a b u v hd he hu hv
  · intro d hd
    obtain ⟨q, hq, hopen⟩ := h.waiting d hd
    exact ⟨q, hkeep hq, hopen⟩
  · intro l hl d hd
    obtain ⟨q, hq, hspent⟩ := h.logged l hl d hd
    exact ⟨q, hkeep hq, hspent⟩
  · intro p d hmem
    obtain ⟨a, b, ha, hb, hcompatible⟩ := h.pairs p d hmem
    exact ⟨a, b, hkeep ha, hkeep hb, hcompatible⟩

theorem inv_cancel (h : Inv s) (hc : s.calls c = some offer) : Inv (upd s c { offer with cancelled := true }) := by
  have hok := h.offers c offer hc
  by_cases hphase : ∃ t, offer.phase = .transporting t
  · obtain ⟨t, hphase⟩ := hphase
    obtain ⟨hbusy, hfine, htok⟩ := h.active c offer t hc hphase
    have hsource : ({ offer with cancelled := true } : Offer).source = offer.source := rfl
    have hleading : (leading (upd s c { offer with cancelled := true }) { offer with cancelled := true } t).source =
        (leading s offer t).source := leading_source hc rfl hsource hsource
    refine inv_upd h hc rfl rfl rfl ⟨hok.fresh, hok.waiting, hok.held, hok.result, hok.packet⟩ id ?_ ?_ ?_ h.failed
      h.lengths
    · intro u hu
      obtain rfl : t = u := by simpa [hphase] using hu
      have hgathered : gathered (upd s c { offer with cancelled := true }) { offer with cancelled := true } t =
          gathered s offer t := by
        unfold gathered
        rw [hleading]
      refine ⟨hbusy, hfine, ⟨htok.live, htok.unclaimed, ?_, ?_, ?_, ?_, htok.broken⟩⟩
      · intro p hp
        obtain ⟨hne, peer, hcall, hrest⟩ := htok.peer p hp
        exact ⟨hne, peer, by rw [upd_calls_ne _ _ hne, hcall], hrest⟩
      · rw [hleading]
        exact htok.joining
      · rw [hgathered]
        exact htok.reading
      · rw [hgathered]
        exact htok.delivering
    · intro d q u hne hd hu
      exact absurd (h.sole d c q offer u t hd hc hu hphase) hne
    intro d hd
    refine .inr (h.waiting_ne hc ?_ hd)
    intro hopen
    simp [hopen.phase] at hphase
  have hnot : ∀ u, offer.phase ≠ .transporting u := fun u hu => hphase ⟨u, hu⟩
  refine inv_upd h hc rfl rfl rfl ⟨hok.fresh, hok.waiting, hok.held, hok.result, hok.packet⟩ id
    (fun u hu => absurd hu (hnot u)) ?_ ?_ h.failed h.lengths
  · intro d q u _ hd hu
    obtain ⟨hbusy, hfine, htok⟩ := h.active d q u hd hu
    refine ⟨hbusy, hfine, rfl, rfl, hnot, fun hp => ?_⟩
    obtain ⟨-, peer, hcall, hheld, -⟩ := htok.peer c hp
    obtain rfl := mem_unique hc hcall
    exact ⟨hheld.phase, hheld.claimed, hheld.done⟩
  intro d hd
  by_cases hdc : d = c
  · subst hdc
    obtain ⟨q, hq, hopen⟩ := h.waiting d hd
    obtain rfl := mem_unique hc hq
    exact .inl ⟨rfl, ⟨hopen.phase, hopen.claimed, hopen.done⟩⟩
  · exact .inr ⟨hdc, hd⟩

theorem step_cases (hstep : step s c event = some s') :
    (∃ source consumerClaimed, s.calls c = none ∧ s' = upd s c { source, consumerClaimed }) ∨
    ∃ offer, s.calls c = some offer ∧ ((event = .cancel ∧ s' = upd s c { offer with cancelled := true }) ∨
      (offer.phase = .start ∧ s' = enter s c offer) ∨
      (offer.phase = .waiting ∧ s' = wake s c offer) ∨
      (offer.phase = .held ∧ s' = if offer.done then finishCall s c offer else s) ∨
      (offer.phase = .queued ∧ s' = queue s c offer) ∨
      ∃ t, offer.phase = .transporting t ∧ transportStep s c offer t event = some s') := by
  unfold step at hstep
  cases hc : s.calls c with
  | none =>
    cases event with
    | begin source consumerClaimed =>
      rw [hc] at hstep
      exact .inl ⟨source, consumerClaimed, rfl, (some.inj hstep).symm⟩
    | _ => simp [hc] at hstep
  | some offer =>
    refine .inr ⟨offer, rfl, ?_⟩
    rw [hc] at hstep
    by_cases hcancel : event = .cancel
    · subst hcancel
      exact .inl ⟨rfl, (some.inj hstep).symm⟩
    refine .inr ?_
    split at hstep
    · next hnone => simp at hnone
    · exact absurd rfl hcancel
    · next heq _ =>
      cases heq
      split at hstep
      · next hphase _ => exact .inl ⟨hphase, (some.inj hstep).symm⟩
      · next hphase _ => exact .inr (.inl ⟨hphase, (some.inj hstep).symm⟩)
      · next hphase _ => exact .inr (.inr (.inl ⟨hphase, (some.inj hstep).symm⟩))
      · next hphase _ => exact .inr (.inr (.inr (.inl ⟨hphase, (some.inj hstep).symm⟩)))
      · next hphase _ => exact .inr (.inr (.inr (.inr ⟨_, hphase, hstep⟩)))
      · simp at hstep
    · next hnone _ => simp at hnone

theorem inv_step (h : Inv s) (hstep : step s c event = some s') : Inv s' := by
  rcases step_cases hstep with ⟨source, consumerClaimed, hc, rfl⟩ | ⟨offer, hc, hcases⟩
  · exact inv_begin h hc _ _
  have hok := h.offers c offer hc
  rcases hcases with ⟨-, rfl⟩ | ⟨hphase, rfl⟩ | ⟨hphase, rfl⟩ | ⟨hphase, rfl⟩ | ⟨hphase, rfl⟩ | ⟨t, hphase, hstep⟩
  · exact inv_cancel h hc
  · exact inv_enter h hc hphase
  · exact inv_wake h hc hphase
  · split
    · next hdone => exact inv_finishCall h hc hdone (by simp [hphase])
    · exact h
  · obtain ⟨hclaimed, hdone⟩ := hok.fresh (.inr hphase)
    refine inv_queue s.waiting h hc hclaimed hdone (by simp [hphase]) hok.result fun d hd => h.waiting_ne hc ?_ hd
    intro hopen
    simp [hopen.phase] at hphase
  · exact inv_transportStep h hc hphase hstep

theorem inv_start : Inv {} := by
  refine ⟨by simp, by simp, by simp, by simp, by simp, by simp, by simp, by simp, by simp⟩

theorem inv_reaches (h : Inv s) (hreach : Reaches s s') : Inv s' := by
  induction hreach with
  | refl => exact h
  | tail _ hstep ih =>
    obtain ⟨c, event, hstep⟩ := hstep
    exact inv_step ih hstep

end VoidInfer.Exl3.GreedyPacketBatch
