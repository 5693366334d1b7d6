import VoidInfer.Exl3.GreedyPacketBatch

/-
  The invariant of the batch: at most one call is in a transport; its peer waits for it; the buffers hold the rows of
  its offers, in order; and an offer of a transport is spent.
-/

namespace VoidInfer.Exl3.GreedyPacketBatch
open List Option Function

variable {buffer data first : List Nat}

/-! ## Buffers -/

theorem length_overwrite {offset : Nat} (h : offset + data.length ≤ buffer.length) :
    (overwrite buffer offset data).length = buffer.length := by
  unfold overwrite
  simp only [length_append, length_take, length_drop]
  omega

theorem prefix_overwrite_zero (buffer data : List Nat) : data <+: overwrite buffer 0 data := by
  unfold overwrite
  exact prefix_append _ _

theorem prefix_overwrite (h : first <+: buffer) :
    first ++ data <+: overwrite buffer first.length data := by
  obtain ⟨rest, rfl⟩ := h
  unfold overwrite
  rw [take_left]
  exact prefix_append _ _

theorem take_of_prefix {second : List Nat} (h : first ++ second <+: buffer) :
    buffer.take first.length = first ∧ (buffer.drop first.length).take second.length = second := by
  obtain ⟨rest, rfl⟩ := h
  rw [append_assoc]
  exact ⟨take_left, by rw [drop_left, take_left]⟩

@[simp] theorem upd_calls_self (s : Batch) (c : Nat) (offer : Offer) : (upd s c offer).calls c = some offer :=
  update_self ..

theorem upd_calls_ne (s : Batch) {c d : Nat} (offer : Offer) (h : d ≠ c) : (upd s c offer).calls d = s.calls d :=
  update_of_ne h ..

/-! ## The invariant -/

/-- The offer is claimed, or its call has got beyond its own cancellation check. -/
def Offer.Spent (offer : Offer) : Prop :=
  offer.claimed = true ∨ offer.done = true ∨ ∃ t, offer.phase = .transporting t ∧ t.stage ≠ .checking

/-- An offer that nobody has claimed, of a call in `wait_for`. -/
structure Offer.Open (offer : Offer) : Prop where
  phase : offer.phase = .waiting
  claimed : offer.claimed = false
  done : offer.done = false

/-- An offer that waits for the transport of another call. -/
structure Offer.Held (offer : Offer) : Prop where
  phase : offer.phase = .waiting ∨ offer.phase = .held
  claimed : offer.claimed = true
  done : offer.done = false

/-- The offers of a transport. -/
def members (transport : Option Nat × Nat) : List Nat := transport.1.toList ++ [transport.2]

structure OfferOk (offer : Offer) : Prop where
  fresh : offer.phase = .start ∨ offer.phase = .queued → offer.claimed = false ∧ offer.done = false
  waiting : offer.phase = .waiting → offer.done = true → offer.claimed = true
  held : offer.phase = .held → offer.claimed = true
  result : ∀ rows, offer.result = some rows → rows = offer.source.data
  packet : ∀ rows, offer.phase = .returned (.packet rows) → rows = offer.source.data

/-- The rows of a transport, in the order in which they are copied. -/
def gathered (s : Batch) (offer : Offer) (t : Transport) : List Nat :=
  (leading s offer t).source.data ++ if t.peer.isSome then offer.source.data else []

structure TransportOk (s : Batch) (c : Nat) (offer : Offer) (t : Transport) : Prop where
  live : offer.done = false
  unclaimed : t.stage = .checking → offer.claimed = false ∧ t.peer = none
  peer : ∀ p, t.peer = some p → p ≠ c ∧
    ∃ peer, s.calls p = some peer ∧ peer.Held ∧ compatible peer.source offer.source = true
  joining : t.stage = .joining → (leading s offer t).source.data <+: s.device
  reading : t.stage = .reading → gathered s offer t <+: s.device
  delivering : t.stage = .delivering → gathered s offer t <+: s.host
  broken : t.stage = .over false → offer.failure ≠ none

structure Inv (s : Batch) : Prop where
  offers : ∀ (c : Nat) (offer : Offer), s.calls c = some offer → OfferOk offer
  active : ∀ (c : Nat) (offer : Offer) (t : Transport), s.calls c = some offer → offer.phase = .transporting t →
    s.busy = true ∧ s.failed = false ∧ TransportOk s c offer t
  sole : ∀ (c d : Nat) (a b : Offer) (t u : Transport), s.calls c = some a → s.calls d = some b →
    a.phase = .transporting t → b.phase = .transporting u → c = d
  waiting : ∀ c, s.waiting = some c → ∃ offer, s.calls c = some offer ∧ offer.Open
  failed : s.failed = true → s.firstFailure ≠ none
  lengths : s.device.length = bufferRows ∧ s.host.length = bufferRows
  logged : ∀ l ∈ s.transports, ∀ c ∈ members l, ∃ offer, s.calls c = some offer ∧ offer.Spent
  once : (s.transports.flatMap members).Nodup
  pairs : ∀ p c, (some p, c) ∈ s.transports → ∃ a b, s.calls p = some a ∧ s.calls c = some b ∧
    compatible a.source b.source = true

section Updates

variable {s s' : Batch} {c : Nat} {offer offer' : Offer} {t : Transport}

variable {d : Nat} {q : Offer}

theorem calls_update (hcalls : s'.calls = update s.calls c (some offer'))
    (hd : s'.calls d = some q) : (d = c ∧ q = offer') ∨ (d ≠ c ∧ s.calls d = some q) := by
  rw [hcalls] at hd
  by_cases hdc : d = c
  · subst hdc
    rw [update_self] at hd
    exact .inl ⟨rfl, (some.inj hd).symm⟩
  rw [update_of_ne hdc] at hd
  exact .inr ⟨hdc, hd⟩

section
variable (hc : s.calls c = some offer) (hcalls : s'.calls = update s.calls c (some offer'))
include hc hcalls

theorem calls_after (hd : s.calls d = some q) :
    ∃ q', s'.calls d = some q' ∧ ((d = c ∧ q = offer ∧ q' = offer') ∨ (d ≠ c ∧ q' = q)) := by
  rw [hcalls]
  by_cases hdc : d = c
  · subst hdc
    obtain rfl := mem_unique hc hd
    exact ⟨offer', update_self .., .inl ⟨rfl, rfl, rfl⟩⟩
  · exact ⟨q, by rw [update_of_ne hdc, hd], .inr ⟨hdc, rfl⟩⟩

theorem leading_source (hsource : offer'.source = offer.source) {q' : Offer}
    (hq : q'.source = q.source) : (leading s' q' t).source = (leading s q t).source := by
  unfold leading
  cases hp : t.peer with
  | none => exact hq
  | some p =>
    rw [bind_some, bind_some]
    cases hcall : s.calls p with
    | none =>
      have hpc : p ≠ c := by
        rintro rfl
        simp [hc] at hcall
      have hnone : s'.calls p = none := by rw [hcalls, update_of_ne hpc, hcall]
      rw [hnone]
      exact hq
    | some peer =>
      obtain ⟨peer', hpeer', hcases⟩ := calls_after hc hcalls hcall
      rw [hpeer']
      rcases hcases with ⟨-, rfl, rfl⟩ | ⟨-, rfl⟩
      · exact hsource
      · rfl

end

theorem TransportOk.frame (h : TransportOk s d q t) (hc : s.calls c = some offer)
    (hcalls : s'.calls = update s.calls c (some offer')) (hsource : offer'.source = offer.source)
    (hpeer : t.peer = some c → offer'.Held) (hdevice : s'.device = s.device) (hhost : s'.host = s.host) :
    TransportOk s' d q t := by
  have hleading := leading_source (t := t) hc hcalls hsource (rfl : q.source = q.source)
  have hgathered : gathered s' q t = gathered s q t := by
    unfold gathered
    rw [hleading]
  refine ⟨h.live, h.unclaimed, ?_, ?_, ?_, ?_, h.broken⟩
  · intro p hp
    obtain ⟨hne, peer, hcall, hheld, hcompatible⟩ := h.peer p hp
    obtain ⟨peer', hpeer', hcases⟩ := calls_after hc hcalls hcall
    refine ⟨hne, peer', hpeer', ?_⟩
    rcases hcases with ⟨rfl, rfl, rfl⟩ | ⟨-, rfl⟩
    · exact ⟨hpeer hp, by rw [hsource]; exact hcompatible⟩
    · exact ⟨hheld, hcompatible⟩
  · intro hstage
    rw [hleading, hdevice]
    exact h.joining hstage
  · intro hstage
    rw [hgathered, hdevice]
    exact h.reading hstage
  · intro hstage
    rw [hgathered, hhost]
    exact h.delivering hstage

/-- A call is updated: what it must be itself, and what another call in a transport needs. -/
theorem inv_upd (h : Inv s) (hc : s.calls c = some offer)
    (hcalls : s'.calls = update s.calls c (some offer')) (hlog : s'.transports = s.transports)
    (hsource : offer'.source = offer.source) (hok : OfferOk offer') (hspent : offer.Spent → offer'.Spent)
    (hself : ∀ t, offer'.phase = .transporting t → s'.busy = true ∧ s'.failed = false ∧ TransportOk s' c offer' t)
    (hothers : ∀ d q t, d ≠ c → s.calls d = some q → q.phase = .transporting t →
      s'.busy = true ∧ s'.failed = false ∧ s'.device = s.device ∧ s'.host = s.host ∧
        (∀ u, offer'.phase ≠ .transporting u) ∧ (t.peer = some c → offer'.Held))
    (hwaiting : ∀ d, s'.waiting = some d → (d = c ∧ offer'.Open) ∨ (d ≠ c ∧ s.waiting = some d))
    (hfailed : s'.failed = true → s'.firstFailure ≠ none)
    (hlengths : s'.device.length = bufferRows ∧ s'.host.length = bufferRows) : Inv s' := by
  refine ⟨?_, ?_, ?_, ?_, hfailed, hlengths, ?_, ?_, ?_⟩
  · intro d q hd
    rcases calls_update hcalls hd with ⟨-, rfl⟩ | ⟨-, hd⟩
    · exact hok
    · exact h.offers d q hd
  · intro d q u hd hphase
    rcases calls_update hcalls hd with ⟨rfl, rfl⟩ | ⟨hne, hd⟩
    · exact hself u hphase
    obtain ⟨hbusy, hfine, hdevice, hhost, -, hheld⟩ := hothers d q u hne hd hphase
    exact ⟨hbusy, hfine, (h.active d q u hd hphase).2.2.frame hc hcalls hsource hheld hdevice hhost⟩
  · intro d e a b u v hd he hu hv
    rcases calls_update hcalls hd with ⟨rfl, rfl⟩ | ⟨hne, hd⟩
    · rcases calls_update hcalls he with ⟨rfl, -⟩ | ⟨hne, he⟩
      · rfl
      · exact absurd hu ((hothers e b v hne he hv).2.2.2.2.1 u)
    rcases calls_update hcalls he with ⟨rfl, rfl⟩ | ⟨-, he⟩
    · exact absurd hv ((hothers d a u hne hd hu).2.2.2.2.1 v)
    · exact h.sole d e a b u v hd he hu hv
  · intro d hd
    rcases hwaiting d hd with ⟨rfl, hopen⟩ | ⟨hne, hold⟩
    · exact ⟨offer', by rw [hcalls, update_self], hopen⟩
    obtain ⟨q, hq, hopen⟩ := h.waiting d hold
    exact ⟨q, by rw [hcalls, update_of_ne hne, hq], hopen⟩
  · rw [hlog]
    intro l hl d hd
    obtain ⟨q, hq, hq'⟩ := h.logged l hl d hd
    obtain ⟨q', hafter, hcases⟩ := calls_after hc hcalls hq
    refine ⟨q', hafter, ?_⟩
    rcases hcases with ⟨-, rfl, rfl⟩ | ⟨-, rfl⟩
    · exact hspent hq'
    · exact hq'
  · rw [hlog]
    exact h.once
  · rw [hlog]
    intro p d hmem
    obtain ⟨a, b, ha, hb, hcompatible⟩ := h.pairs p d hmem
    obtain ⟨a', ha', hacases⟩ := calls_after hc hcalls ha
    obtain ⟨b', hb', hbcases⟩ := calls_after hc hcalls hb
    have hsa : a'.source = a.source := by
      rcases hacases with ⟨-, rfl, rfl⟩ | ⟨-, rfl⟩
      · exact hsource
      · rfl
    have hsb : b'.source = b.source := by
      rcases hbcases with ⟨-, rfl, rfl⟩ | ⟨-, rfl⟩
      · exact hsource
      · rfl
    exact ⟨a', b', ha', hb', by rw [hsa, hsb]; exact hcompatible⟩

theorem inv_logged (h : Inv s) {l : Option Nat × Nat} (hspent : ∀ d ∈ members l, ∃ q, s.calls d = some q ∧ q.Spent)
    (hnew : ∀ d ∈ members l, d ∉ s.transports.flatMap members) (hnodup : (members l).Nodup)
    (hpair : ∀ p d, l = (some p, d) → ∃ a b, s.calls p = some a ∧ s.calls d = some b ∧ compatible a.source b.source = true) :
    Inv { s with transports := s.transports ++ [l] } := by
  have hactive : ∀ d q u, s.calls d = some q → q.phase = .transporting u →
      s.busy = true ∧ s.failed = false ∧ TransportOk { s with transports := s.transports ++ [l] } d q u := by
    intro d q u hd hu
    obtain ⟨hbusy, hfine, hok⟩ := h.active d q u hd hu
    exact ⟨hbusy, hfine, ⟨hok.live, hok.unclaimed, hok.peer, hok.joining, hok.reading, hok.delivering, hok.broken⟩⟩
  refine ⟨h.offers, hactive, h.sole, h.waiting, h.failed, h.lengths, ?_, ?_, ?_⟩
  · intro l' hl'
    rcases mem_append.mp hl' with hl' | hl'
    · exact h.logged l' hl'
    obtain rfl := mem_singleton.mp hl'
    exact hspent
  · rw [flatMap_append, flatMap_singleton, nodup_append]
    refine ⟨h.once, hnodup, ?_⟩
    intro a ha b hb hab
    exact hnew b hb (hab ▸ ha)
  · intro p d hmem
    rcases mem_append.mp hmem with hmem | hmem
    · exact h.pairs p d hmem
    · exact hpair p d (mem_singleton.mp hmem).symm

end Updates

end VoidInfer.Exl3.GreedyPacketBatch
