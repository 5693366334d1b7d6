import VoidInfer.Exl3.ServingCoordinator

/-
  What one call on the coordinator can do. Each call is a row of checks and one commit; its spec says which lease the
  commit went through and which commit it was, and that a call that throws leaves the state alone (an admission may have
  reserved queue storage).

  `Change` lists the commits with their guards, and `perform_changes` says that every call is a row of them. The
  invariants and the publication log are derived from `Change` only.
-/

namespace VoidInfer.Exl3
open List Option

open Throwing Exl3VeriCacheRequest

section Rules

variable {bad : Prop} [Decidable bad] {e : Exn} {Q : Unit → ServingCoordinator → Prop}
  {E : Exn → ServingCoordinator → Prop} {s : ServingCoordinator}

theorem wp_refuseIf (hE : bad → E e s) (hQ : ¬ bad → Q () s) : wp (refuseIf bad e) Q E s := by
  unfold refuseIf
  split
  · next h => exact hE h
  · next h => exact hQ h

theorem wp_outcome {thrown : Option Exn} (hE : ∀ e, thrown = some e → E e s)
    (hQ : thrown = none → Q () s) : wp (outcome thrown) Q E s := by
  cases thrown with
  | none => exact hQ rfl
  | some e => exact hE e rfl

end Rules

namespace ServingCoordinator

variable {R : Requests} {out : Outside} {s : ServingCoordinator}

/-- `require_open` returns. -/
structure IsOpen (s : ServingCoordinator) (out : Outside) (closing : Bool) : Prop where
  runtimeFactory : out.runtimeFactory = false
  closed : s.closed = false
  closingStarted : closing = false → s.closingStarted = false
  allocating : s.allocating = false
  retired : closing = false → s.startupRetirementFailed = false

variable {E : Exn → ServingCoordinator → Prop} {lease : DeviceLogicalLease} {root : Option Nat}
  {tokens : List Int} {roots : List (Option Nat)}

theorem wp_requireOpen {closing : Bool} {Q : Unit → ServingCoordinator → Prop}
     (hE : ¬ s.IsOpen out closing → ∀ e, E e s)
    (hQ : s.IsOpen out closing → Q () s) : wp (requireOpen out closing) Q E s := by
  simp only [requireOpen, wp_bind, wp_get]
  refine wp_refuseIf (fun h => hE (fun ho => ?_) _) fun h1 => ?_
  · exact absurd h (by simp [ho.runtimeFactory])
  refine wp_refuseIf (fun h => hE (fun ho => ?_) _) fun h2 => ?_
  · exact absurd h (by simp [ho.closed])
  refine wp_refuseIf (fun h => hE (fun ho => ?_) _) fun h3 => ?_
  · exact absurd h.2 (by simp [ho.closingStarted h.1])
  refine wp_refuseIf (fun h => hE (fun ho => ?_) _) fun h4 => ?_
  · exact absurd h (by simp [ho.allocating])
  refine wp_refuseIf (fun h => hE (fun ho => ?_) _) fun h5 => ?_
  · exact absurd h.2 (by simp [ho.retired h.1])
  exact hQ ⟨by simpa using h1, by simpa using h2, fun hc => by simpa [hc] using h3,
    by simpa using h4, fun hc => by simpa [hc] using h5⟩

variable {id outputs : Nat} {l : List Entry} {Q : Nat × Entry → ServingCoordinator → Prop}
  {child : Option Nat} {workerComplete : Bool} {selected : List Selected}

theorem find_some {i : Nat} {e : Entry} (h : find id l = some (i, e)) : l[i]? = some e ∧ e.id = id := by
  induction l generalizing i with
  | nil => exact absurd h (by simp [find])
  | cons a l ih =>
    unfold find at h
    split at h
    · next hid =>
      cases h
      exact ⟨rfl, hid⟩
    obtain ⟨⟨j, e'⟩, hfind, heq⟩ := map_eq_some_iff.mp h
    cases heq
    exact ih hfind

theorem find_none (h : find id l = none) : ∀ e ∈ l, e.id ≠ id := by
  induction l with
  | nil => simp
  | cons a l ih =>
    unfold find at h
    split at h
    · cases h
    next hid =>
    intro e he
    rcases mem_cons.mp he with rfl | he
    · exact hid
    · exact ih (by simpa using h) e he

/-- The entry at `i` is the one the lease is for, and the lease is current. -/
structure HostHeld (s : ServingCoordinator) (lease : Lease) (i : Nat) (e : Entry) : Prop where
  found : s.entries[i]? = some e
  id : e.id = lease.ticket.requestId
  host : e.deviceMode = false
  active : e.active = true
  generation : e.generation = lease.ticket.generation
  root : some e.root = lease.root
  acquisition : e.acquisition = lease.acquisition

/-- The same of a device lease. -/
structure DeviceHeld (s : ServingCoordinator) (lease : DeviceLogicalLease) (i : Nat) (e : Entry) :
    Prop where
  found : s.entries[i]? = some e
  id : e.id = lease.ticket.requestId
  device : e.deviceMode = true
  active : e.active = true
  generation : e.generation = lease.ticket.generation
  root : some e.root = lease.initialRoot
  acquisition : e.acquisition = lease.acquisition
  owner : lease.physicalOwner.isSome = true ∧ lease.physicalOwner = e.deviceOwner
  frontier : lease.frontier = e.deviceInitialFrontier + e.deviceSuffix.length

theorem wp_requireLeaseLocked {lease : Lease} (hE : ∀ e, E e s)
    (hQ : ∀ i e, s.HostHeld lease i e → Q (i, e) s) : wp (requireLeaseLocked lease) Q E s := by
  simp only [requireLeaseLocked, findLocked, wp_bind, wp_get]
  cases hfind : find lease.ticket.requestId s.entries with
  | none => exact hE _
  | some found =>
    obtain ⟨i, e⟩ := found
    refine wp_refuseIf (fun _ => hE _) fun h => ?_
    simp only [not_or, ne_eq, Decidable.not_not, Bool.not_eq_true, Bool.not_eq_false] at h
    obtain ⟨hat, hid⟩ := find_some hfind
    exact hQ i e ⟨hat, hid, h.1, h.2.1, h.2.2.1, h.2.2.2.1, h.2.2.2.2⟩

theorem wp_requireDeviceLease (hE : ∀ e, E e s) (hQ : ∀ i e, s.DeviceHeld lease i e → Q (i, e) s) :
    wp (requireDeviceLogicalLeaseLocked lease) Q E s := by
  simp only [requireDeviceLogicalLeaseLocked, findLocked, wp_bind, wp_get]
  cases hfind : find lease.ticket.requestId s.entries with
  | none => exact hE _
  | some found =>
    obtain ⟨i, e⟩ := found
    refine wp_refuseIf (fun _ => hE _) fun h => ?_
    simp only [not_or, ne_eq, Decidable.not_not, Bool.not_eq_false] at h
    obtain ⟨h1, h2, h3, h4, h5, h6, -, h8, h9⟩ := h
    obtain ⟨hat, hid⟩ := find_some hfind
    exact hQ i e ⟨hat, hid, h1, h2, h3, h5, h4, ⟨isSome_iff_ne_none.mpr h6, h8⟩, h9⟩

/-- What `validate_root` promises of a checkpoint. -/
structure RootValid (R : Requests) (root : Nat) : Prop where
  nonempty : (R root).history ≠ []
  position : (R root).position = (R root).history.length

theorem validateRoot_ok {r : Nat} (h : validateRoot R root = .ok r) : root = some r ∧ RootValid R r := by
  cases root with
  | none => exact absurd h (by simp [validateRoot])
  | some q =>
    obtain ⟨_, -, h⟩ := bind_ok h
    obtain ⟨tokens, htok, h⟩ := bind_ok h
    obtain ⟨hgood, h⟩ := check_ok h
    cases h
    obtain ⟨-, -, rfl⟩ := tokenSuffix_ok htok
    simp only [Int.toNat_zero, drop_zero, not_or, ne_eq, Decidable.not_not] at hgood
    exact ⟨rfl, hgood.1, hgood.2.symm⟩

/-- `child` extends `parent` by exactly `tokens`, as far as the coordinator checks it. -/
structure ChildBy (R : Requests) (parent child : Nat) (tokens : List Int) : Prop where
  valid : RootValid R child
  lineage : (R child).isChildOf (R parent)
  identity : (R child).modelIdentity = (R parent).modelIdentity
  position : (R child).position = (R parent).position + tokens.length
  suffix : (R child).history.drop (R parent).position.toNat = tokens

theorem validateChild_ok {parent c : Nat} {token : Int}
    (h : validateChild R parent child token = .ok c) : ChildBy R parent c [token] := by
  obtain ⟨c', hvalid, h⟩ := bind_ok h
  obtain ⟨hgood, h⟩ := check_ok h
  obtain ⟨suffix, hsuffix, h⟩ := bind_ok h
  obtain ⟨_, hsame, h⟩ := bind_ok h
  cases h
  have hsame := not_not.mp (throwIf_ok.mp hsame)
  simp only [not_or, ne_eq, Decidable.not_not] at hgood
  obtain ⟨-, -, hdrop⟩ := tokenSuffix_ok hsuffix
  exact ⟨(validateRoot_ok hvalid).2, hgood.1, hgood.2.1, hgood.2.2, hdrop.symm.trans hsame⟩

/-! ## Specs of the calls -/

theorem wp_acquire :
    wp (acquire out)
      (fun r s' => (r = none ∧ s' = s) ∨ ∃ i e rest, s.entries[i]? = some e ∧
        s.queue = e.id :: rest ∧ e.active = false ∧ s.active < s.policy.physicalCapacity ∧
        s' = s.acquireEntry i e rest)
      (fun _ s' => s' = s) s := by
  simp only [acquire, wp_bind]
  refine wp_requireOpen (fun _ _ => rfl) fun _ => ?_
  simp only [wp_get]
  split
  · exact .inl ⟨rfl, rfl⟩
  next hroom =>
  split
  · exact .inl ⟨rfl, rfl⟩
  next id rest hq =>
  simp only [findLocked, wp_bind, wp_get]
  cases hfind : find id s.entries with
  | none => exact rfl
  | some found =>
    obtain ⟨i, e⟩ := found
    obtain ⟨hat, rfl⟩ := find_some hfind
    refine wp_refuseIf (fun _ => rfl) fun hidle => ?_
    refine wp_refuseIf (fun _ => rfl) fun _ => ?_
    exact .inr ⟨i, e, rest, hat, hq, by simpa using hidle, by omega, rfl⟩

theorem wp_yield {lease : Lease} :
    wp (yield out lease)
      (fun _ s' => ∃ i e, s.HostHeld lease i e ∧ s.queue.length ≠ s.queueCapacity ∧ s' = s.yieldEntry i e)
      (fun _ s' => s' = s) s := by
  simp only [yield, wp_bind]
  refine wp_requireOpen (fun _ _ => rfl) fun _ => ?_
  refine wp_requireLeaseLocked (fun _ => rfl) fun i e held => ?_
  refine wp_refuseIf (fun _ => rfl) fun hroom => ?_
  exact ⟨i, e, held, hroom, rfl⟩

theorem wp_enterDeviceLogical {lease : Lease} {owner : Option PhysicalOwner} {frontier : Int}
    {capacity : Nat} {maxContext : Int} :
    wp (enterDeviceLogical R out lease owner frontier capacity maxContext)
      (fun _ s' => ∃ i e, s.HostHeld lease i e ∧ frontier = (R e.root).position ∧
        s' = s.enterEntry i e owner frontier capacity)
      (fun _ s' => s' = s) s := by
  simp only [enterDeviceLogical, wp_bind]
  refine wp_requireOpen (fun _ _ => rfl) fun _ => ?_
  refine wp_requireLeaseLocked (fun _ => rfl) fun i e held => ?_
  refine wp_refuseIf (fun _ => rfl) fun hgood => ?_
  refine wp_refuseIf (fun _ => rfl) fun _ => ?_
  refine wp_outcome (fun _ _ => rfl) fun _ => ?_
  simp only [not_or, ne_eq, Decidable.not_not] at hgood
  exact ⟨i, e, held, hgood.2.2.2.1, rfl⟩

theorem wp_publishDeviceLogicalWindow :
    wp (publishDeviceLogicalWindow out lease tokens)
      (fun r s' => ∃ i e, s.DeviceHeld lease i e ∧ tokens.length ≤ e.deviceCapacity - e.deviceSuffix.length ∧
        r.lease.ticket.requestId = e.id ∧ r.sequence = s.nextPublicationSequence ∧
        s' = s.publishDeviceEntry i e tokens)
      (fun _ s' => s' = s) s := by
  simp only [publishDeviceLogicalWindow, wp_bind]
  refine wp_requireOpen (fun _ _ => rfl) fun _ => ?_
  refine wp_requireDeviceLease (fun _ => rfl) fun i e held => ?_
  refine wp_refuseIf (fun _ => rfl) fun hgood => ?_
  refine wp_refuseIf (fun _ => rfl) fun _ => ?_
  simp only [not_or] at hgood
  exact ⟨i, e, held, by omega, rfl, rfl, rfl⟩

theorem wp_materializeDeviceLogical :
    wp (materializeDeviceLogical R out lease child)
      (fun _ s' => ∃ i e c, s.DeviceHeld lease i e ∧ RootValid R c ∧
        (R c).isChildOf (R e.root) ∧ (R c).modelIdentity = (R e.root).modelIdentity ∧
        (R c).position = lease.frontier ∧
        (R c).history.drop e.deviceInitialFrontier.toNat = e.deviceSuffix ∧
        s' = s.materializeEntry i e c)
      (fun _ s' => s' = s) s := by
  simp only [materializeDeviceLogical, wp_bind]
  refine wp_ofExcept.mpr ⟨fun c hc => ?_, fun _ _ => rfl⟩
  refine wp_requireOpen (fun _ _ => rfl) fun _ => ?_
  refine wp_requireDeviceLease (fun _ => rfl) fun i e held => ?_
  refine wp_refuseIf (fun _ => rfl) fun _ => ?_
  refine wp_refuseIf (fun _ => rfl) fun hgood => ?_
  refine wp_ofExcept.mpr ⟨fun suffix hsuffix => ?_, fun _ _ => rfl⟩
  refine wp_refuseIf (fun _ => rfl) fun hsame => ?_
  refine wp_outcome (fun _ _ => rfl) fun _ => ?_
  simp only [not_or, ne_eq, Decidable.not_not] at hgood hsame
  obtain ⟨-, -, hdrop⟩ := tokenSuffix_ok hsuffix
  exact ⟨i, e, c, held, (validateRoot_ok hc).2, hgood.2.1, hgood.2.2.1, hgood.2.2.2, hdrop.symm.trans hsame, rfl⟩

theorem wp_cancelDeviceLogical :
    wp (cancelDeviceLogical out lease workerComplete)
      (fun _ s' => ∃ i e, s.DeviceHeld lease i e ∧ s' = s.cancelDeviceEntry i)
      (fun _ s' => s' = s) s := by
  simp only [cancelDeviceLogical, wp_bind]
  refine wp_requireOpen (fun _ _ => rfl) fun _ => ?_
  refine wp_requireDeviceLease (fun _ => rfl) fun i e held => ?_
  refine wp_refuseIf (fun _ => rfl) fun _ => ?_
  refine wp_outcome (fun _ _ => rfl) fun _ => ?_
  exact ⟨i, e, held, rfl⟩

theorem wp_publishWindow {lease : Lease} :
    wp (publishWindow R out lease root tokens)
      (fun r s' => ∃ i e c, s.HostHeld lease i e ∧ ChildBy R e.root c tokens ∧
        r.lease.ticket.requestId = e.id ∧ r.tokens = tokens ∧
        r.sequence = s.nextPublicationSequence ∧ s' = s.publishEntry i e c)
      (fun _ s' => s' = s) s := by
  simp only [publishWindow, wp_bind]
  refine wp_ofExcept.mpr ⟨fun c hc => ?_, fun _ _ => rfl⟩
  refine wp_refuseIf (fun _ => rfl) fun _ => ?_
  refine wp_requireOpen (fun _ _ => rfl) fun _ => ?_
  refine wp_requireLeaseLocked (fun _ => rfl) fun i e held => ?_
  refine wp_refuseIf (fun _ => rfl) fun hgood => ?_
  refine wp_ofExcept.mpr ⟨fun suffix hsuffix => ?_, fun _ _ => rfl⟩
  refine wp_refuseIf (fun _ => rfl) fun hsame => ?_
  refine wp_outcome (fun _ _ => rfl) fun _ => ?_
  refine wp_outcome (fun _ _ => rfl) fun _ => ?_
  simp only [not_or, ne_eq, Decidable.not_not] at hgood hsame
  obtain ⟨-, -, hdrop⟩ := tokenSuffix_ok hsuffix
  exact ⟨i, e, c, held, ⟨(validateRoot_ok hc).2, hgood.1, hgood.2.1, hgood.2.2,
    hdrop.symm.trans hsame⟩, rfl, rfl, rfl, rfl⟩

theorem wp_complete {lease : Lease} :
    wp (complete out lease) (fun _ s' => ∃ i e, s.HostHeld lease i e ∧ s' = s.completeEntry i)
      (fun _ s' => s' = s) s := by
  simp only [complete, wp_bind]
  refine wp_requireOpen (fun _ _ => rfl) fun _ => ?_
  refine wp_requireLeaseLocked (fun _ => rfl) fun i e held => ?_
  refine wp_outcome (fun _ _ => rfl) fun _ => ?_
  exact ⟨i, e, held, rfl⟩

theorem wp_completeAndAdmit {lease : Lease} :
    wp (completeAndAdmit R out lease root)
      (fun r s' => ∃ i e c, s.HostHeld lease i e ∧ root = some c ∧ RootValid R c ∧
        s.modelIdentity = some (R c).modelIdentity ∧ s.queue.length ≠ s.queueCapacity ∧
        r.admitted.requestId = s.nextRequestId ∧ s' = s.turnOverEntry i c)
      (fun _ s' => s' = s) s := by
  simp only [completeAndAdmit, wp_bind]
  refine wp_ofExcept.mpr ⟨fun c hc => ?_, fun _ _ => rfl⟩
  refine wp_requireOpen (fun _ _ => rfl) fun _ => ?_
  refine wp_requireLeaseLocked (fun _ => rfl) fun i e held => ?_
  refine wp_refuseIf (fun _ => rfl) fun hid => ?_
  refine wp_refuseIf (fun _ => rfl) fun hroom => ?_
  refine wp_outcome (fun _ _ => rfl) fun _ => ?_
  exact ⟨i, e, c, held, (validateRoot_ok hc).1, (validateRoot_ok hc).2, (not_not.mp hid).symm, hroom, rfl, rfl⟩

theorem wp_cancel {ticket : Ticket} :
    wp (cancel out ticket workerComplete)
      (fun _ s' => ∃ i e, find ticket.requestId s.entries = some (i, e) ∧
        e.generation = ticket.generation ∧ (e.active = true → workerComplete = true) ∧
        s.IsOpen out false ∧ out.residency = none ∧ s' = s.cancelEntry i e)
      (fun _ s' => s' = s ∧ ¬ (s.IsOpen out false ∧ out.residency = none ∧
        ∃ i e, find ticket.requestId s.entries = some (i, e) ∧ e.generation = ticket.generation ∧
          (e.active = true → workerComplete = true))) s := by
  simp only [cancel, wp_bind]
  refine wp_requireOpen (fun hno e => ⟨rfl, fun h => hno h.1⟩) fun hopen => ?_
  simp only [wp_get]
  cases hfind : find ticket.requestId s.entries with
  | none => exact ⟨rfl, fun ⟨_, _, i, e, h, _⟩ => nomatch h⟩
  | some found =>
    obtain ⟨i, e⟩ := found
    have hpair : ∀ {j : Nat} {e' : Entry}, some (i, e) = some (j, e') → e = e' := by
      intro j e' h
      exact (Prod.mk.inj (some.inj h)).2
    simp only [wp_bind]
    refine wp_refuseIf (fun hgen => ⟨rfl, fun ⟨_, _, j, e', h, hgen', _⟩ => ?_⟩) fun hgen => ?_
    · exact hgen (hpair h ▸ hgen')
    refine wp_refuseIf (fun hact => ⟨rfl, fun ⟨_, _, j, e', h, _, hact'⟩ => ?_⟩) fun hact => ?_
    · have := hact' (hpair h ▸ hact.1)
      exact absurd this (by simp [hact.2])
    refine wp_outcome (fun x hx => ⟨rfl, fun ⟨_, hres, _⟩ => ?_⟩) fun hres => ?_
    · cases hx.symm.trans hres
    have hact : e.active = true → workerComplete = true := by
      intro h
      simpa [h] using hact
    exact ⟨i, e, rfl, not_not.mp hgen, hact, hopen, hres, rfl⟩

theorem wp_close :
    wp (close out) (fun _ s' => s' = s ∨ (s.active = 0 ∧ s' = { s.clearEntries with closed := true }))
      (fun _ s' => s' = s ∨ (s.active = 0 ∧ s' = s.clearEntries)) s := by
  simp only [close, wp_bind, wp_get]
  split
  · exact .inl rfl
  simp only [wp_bind]
  refine wp_requireOpen (fun _ _ => .inl rfl) fun _ => ?_
  refine wp_refuseIf (fun _ => .inl rfl) fun hactive => ?_
  have hactive := not_not.mp hactive
  refine wp_outcome (fun _ _ => .inr ⟨hactive, rfl⟩) fun _ => ?_
  exact .inr ⟨hactive, rfl⟩

/-! ## Changes -/

/-- Tokens published for a request, under their sequence number. -/
structure LogRecord where
  sequence : Nat
  id : Nat
  tokens : List Int

/-- What the outside learns from a call: publications, and requests admitted with their root. -/
structure Effects where
  published : List LogRecord := []
  admitted : List (Nat × Nat) := []

/-- The commits, each with what was checked before it. -/
inductive Change (R : Requests) : ServingCoordinator → Effects → ServingCoordinator → Prop
  | reserved {s : ServingCoordinator} (extent : Nat) : Change R s {} (s.reserveQueue extent)
  | admitted {s : ServingCoordinator} {root : Nat} (hv : RootValid R root)
      (hroom : s.entries.length < s.policy.logicalCapacity)
      (hqueue : s.entries.length < s.queueCapacity)
      (hid : s.modelIdentity = none ∨ s.modelIdentity = some (R root).modelIdentity) :
      Change R s { admitted := [(s.nextRequestId, root)] } (s.admitEntry R root)
  | acquired {s : ServingCoordinator} {i : Nat} {e : Entry} {rest : List Nat}
      (hat : s.entries[i]? = some e) (hq : s.queue = e.id :: rest) (hidle : e.active = false)
      (hroom : s.active < s.policy.physicalCapacity) : Change R s {} (s.acquireEntry i e rest)
  | yielded {s : ServingCoordinator} {lease : Lease} {i : Nat} {e : Entry}
      (held : s.HostHeld lease i e) : Change R s {} (s.yieldEntry i e)
  | entered {s : ServingCoordinator} {lease : Lease} {i : Nat} {e : Entry}
      (held : s.HostHeld lease i e) (owner : Option PhysicalOwner) (capacity : Nat) :
      Change R s {} (s.enterEntry i e owner (R e.root).position capacity)
  | publishedDevice {s : ServingCoordinator} {lease : DeviceLogicalLease} {i : Nat} {e : Entry}
      {tokens : List Int} (held : s.DeviceHeld lease i e)
      (hroom : tokens.length ≤ e.deviceCapacity - e.deviceSuffix.length) :
      Change R s { published := [⟨s.nextPublicationSequence, e.id, tokens⟩] } (s.publishDeviceEntry i e tokens)
  | materialized {s : ServingCoordinator} {lease : DeviceLogicalLease} {i : Nat} {e : Entry}
      {c : Nat} (held : s.DeviceHeld lease i e) (hv : RootValid R c)
      (hchild : (R c).isChildOf (R e.root))
      (hid : (R c).modelIdentity = (R e.root).modelIdentity) (hpos : (R c).position = lease.frontier)
      (hsuffix : (R c).history.drop e.deviceInitialFrontier.toNat = e.deviceSuffix) :
      Change R s {} (s.materializeEntry i e c)
  | published {s : ServingCoordinator} {lease : Lease} {i : Nat} {e : Entry} {c : Nat}
      {tokens : List Int} (held : s.HostHeld lease i e) (hchild : ChildBy R e.root c tokens) :
      Change R s { published := [⟨s.nextPublicationSequence, e.id, tokens⟩] } (s.publishEntry i e c)
  | cancelledDevice {s : ServingCoordinator} {lease : DeviceLogicalLease} {i : Nat} {e : Entry}
      (held : s.DeviceHeld lease i e) : Change R s {} (s.cancelDeviceEntry i)
  | cancelled {s : ServingCoordinator} {i : Nat} {e : Entry} (hat : s.entries[i]? = some e) :
      Change R s {} (s.cancelEntry i e)
  | completed {s : ServingCoordinator} {lease : Lease} {i : Nat} {e : Entry}
      (held : s.HostHeld lease i e) : Change R s {} (s.completeEntry i)
  | turnedOver {s : ServingCoordinator} {lease : Lease} {i : Nat} {e : Entry} {c : Nat}
      (held : s.HostHeld lease i e) (hv : RootValid R c)
      (hid : s.modelIdentity = some (R c).modelIdentity) :
      Change R s { admitted := [(s.nextRequestId, c)] } (s.turnOverEntry i c)
  | cleared {s : ServingCoordinator} (hactive : s.active = 0) : Change R s {} s.clearEntries
  | flags {s : ServingCoordinator} (closed allocating startupRetirementFailed : Bool) :
      Change R s {} { s with closed, allocating, startupRetirementFailed }

/-- A row of commits, with everything they published and admitted. -/
inductive Changes (R : Requests) : ServingCoordinator → Effects → ServingCoordinator → Prop
  | refl (s : ServingCoordinator) : Changes R s {} s
  | step {s s₁ s₂ : ServingCoordinator} {eff eff' : Effects} (h : Change R s eff s₁)
      (hs : Changes R s₁ eff' s₂) :
      Changes R s ⟨eff.published ++ eff'.published, eff.admitted ++ eff'.admitted⟩ s₂

theorem Change.changes {s s' : ServingCoordinator} {eff : Effects} (h : Change R s eff s') : Changes R s eff s' := by
  have := Changes.step h (Changes.refl s')
  simpa using this

/-! ## Batches -/

theorem admitBatch_changes {identity : Nat} {roots : List Nat} {s : ServingCoordinator}
    (hv : ∀ r ∈ roots, RootValid R r ∧ (R r).modelIdentity = identity)
    (hroom : s.entries.length + roots.length ≤ s.policy.logicalCapacity)
    (hqueue : s.entries.length + roots.length ≤ s.queueCapacity)
    (hid : s.modelIdentity = none ∨ s.modelIdentity = some identity) :
    Changes R s ⟨[], (List.range' s.nextRequestId roots.length).zip roots⟩ (roots.foldl (admitEntry R) s) := by
  induction roots generalizing s with
  | nil => exact Changes.refl s
  | cons r roots ih =>
    obtain ⟨hvalid, hident⟩ := hv r mem_cons_self
    rw [length_cons] at hroom hqueue
    rw [← hident] at hid
    have hfirst : Change R s { admitted := [(s.nextRequestId, r)] } (s.admitEntry R r) :=
      Change.admitted hvalid (by omega) (by omega) hid
    have hlen : (s.admitEntry R r).entries.length = s.entries.length + 1 := by simp [admitEntry]
    have hident' : (s.admitEntry R r).modelIdentity = some identity := by
      rcases hid with hid | hid
      · simp [admitEntry, hid, hident]
      · simp [admitEntry, hid, hident]
    have hrest := ih (s := s.admitEntry R r) (fun q hq => hv q (mem_cons_of_mem _ hq))
      (by show _ ≤ s.policy.logicalCapacity; omega)
      (by show _ ≤ s.queueCapacity; omega) (.inr hident')
    exact Changes.step hfirst hrest

theorem mapM_validateRoot_ok {rs : List Nat} (h : roots.mapM (validateRoot R) = .ok rs) :
    rs = roots.map (·.getD 0) ∧ ∀ r ∈ rs, RootValid R r := by
  induction roots generalizing rs with
  | nil =>
    cases h
    exact ⟨rfl, by simp⟩
  | cons root roots ih =>
    rw [mapM_cons] at h
    obtain ⟨r, hr, h⟩ := bind_ok h
    obtain ⟨rest, hrest, h⟩ := bind_ok h
    cases h
    obtain ⟨rfl, hvalid⟩ := validateRoot_ok hr
    obtain ⟨rfl, hvalids⟩ := ih hrest
    exact ⟨rfl, by simpa using ⟨hvalid, by simpa using hvalids⟩⟩

theorem wp_admitOne :
    wp (admitOne R out root) (fun ticket s' => Changes R s { admitted := [(ticket.requestId, root.getD 0)] } s')
      (fun _ s' => Changes R s {} s') s := by
  simp only [admitOne, wp_bind]
  refine wp_ofExcept.mpr ⟨fun r hr => ?_, fun _ _ => Changes.refl s⟩
  obtain ⟨rfl, hvalid⟩ := validateRoot_ok hr
  refine wp_requireOpen (fun _ _ => Changes.refl s) fun _ => ?_
  refine wp_refuseIf (fun _ => Changes.refl s) fun hroom => ?_
  refine wp_refuseIf (fun _ => Changes.refl s) fun hid => ?_
  refine wp_outcome (fun _ _ => Changes.refl s) fun _ => ?_
  refine wp_outcome (fun _ _ => (Change.reserved _).changes) fun _ => ?_
  have hid : s.modelIdentity = none ∨ s.modelIdentity = some (R r).modelIdentity := by
    cases hm : s.modelIdentity with
    | none => exact .inl rfl
    | some m => exact .inr (by simpa [hm] using hid)
  have hcommit : Change R (s.reserveQueue (s.entries.length + 1)) { admitted := [(s.nextRequestId, r)] }
      ((s.reserveQueue (s.entries.length + 1)).admitEntry R r) :=
    Change.admitted hvalid (Nat.lt_of_not_le hroom) (Nat.le_max_right _ _) hid
  exact Changes.step (Change.reserved _) hcommit.changes

theorem wp_admitBatchInto :
    wp (admitBatchInto R out roots outputs)
      (fun tickets s' => Changes R s { admitted := (tickets.map (·.requestId)).zip (roots.map (·.getD 0)) } s')
      (fun _ s' => Changes R s {} s') s := by
  simp only [admitBatchInto, wp_bind]
  refine wp_refuseIf (fun _ => Changes.refl s) fun hne => ?_
  refine wp_refuseIf (fun _ => Changes.refl s) fun _ => ?_
  refine wp_ofExcept.mpr ⟨fun rs hrs => ?_, fun _ _ => Changes.refl s⟩
  obtain ⟨rfl, hvalid⟩ := mapM_validateRoot_ok hrs
  have hpos : 0 < (roots.map (·.getD 0)).length := by
    rw [length_map]
    exact length_pos_iff.mpr hne
  generalize roots.map (·.getD 0) = rs at *
  refine wp_requireOpen (fun _ _ => Changes.refl s) fun _ => ?_
  refine wp_refuseIf (fun _ => Changes.refl s) fun hroom => ?_
  refine wp_refuseIf (fun _ => Changes.refl s) fun hid => ?_
  refine wp_refuseIf (fun _ => Changes.refl s) fun hsame => ?_
  refine wp_outcome (fun _ _ => Changes.refl s) fun _ => ?_
  refine wp_outcome (fun _ _ => (Change.reserved _).changes) fun _ => ?_
  refine wp_outcome (fun _ _ => (Change.reserved _).changes) fun _ => ?_
  generalize (R (rs.headD 0)).modelIdentity = identity at *
  have hid : s.modelIdentity = none ∨ s.modelIdentity = some identity := by
    cases hm : s.modelIdentity with
    | none => exact .inl rfl
    | some m => exact .inr (by simpa [hm] using hid)
  have hall : ∀ r ∈ rs, RootValid R r ∧ (R r).modelIdentity = identity := by
    intro r hr
    refine ⟨hvalid r hr, ?_⟩
    by_contra hne
    exact hsame ⟨r, hr, hne⟩
  have htickets : ((List.range rs.length).map fun index =>
      ({ requestId := s.nextRequestId + index, generation := 1 } : Ticket)).map (·.requestId) =
        List.range' s.nextRequestId rs.length := by
    rw [List.map_map, range'_eq_map_range]
    rfl
  have hcommit := admitBatch_changes (s := s.reserveQueue (s.entries.length + rs.length)) hall
    (by show s.entries.length + _ ≤ s.policy.logicalCapacity; omega) (Nat.le_max_right _ _) hid
  rw [wp_pure, htickets]
  exact Changes.step (Change.reserved _) hcommit

/-- What the checking loop knows of a lease it has accepted. -/
def SelectedOk (R : Requests) (s : ServingCoordinator) (x : Selected) : Prop :=
  (∃ lease, s.HostHeld lease x.index x.entry) ∧ ChildBy R x.entry.root x.root [x.token]

section
variable (hok : ∀ x ∈ selected, SelectedOk R s x) (hn : (selected.map (·.index)).Nodup)
include hok hn

theorem wp_selectLeases {todo : List (Lease × Option Nat × Int)} :
    wp (selectLeases R todo selected)
      (fun r s' => s' = s ∧ (∀ x ∈ r, SelectedOk R s x) ∧ (r.map (·.index)).Nodup ∧
        ∀ p ∈ todo, ∃ i e, s.HostHeld p.1 i e)
      (fun _ s' => s' = s) s := by
  induction todo generalizing selected with
  | nil => exact ⟨rfl, hok, hn, by simp⟩
  | cons p todo ih =>
    obtain ⟨lease, root, token⟩ := p
    simp only [selectLeases, wp_bind]
    refine wp_requireLeaseLocked (fun _ => rfl) fun i e held => ?_
    refine wp_refuseIf (fun _ => rfl) fun hfresh => ?_
    refine wp_ofExcept.mpr ⟨fun c hc => ?_, fun _ _ => rfl⟩
    have hok' : ∀ x ∈ selected ++ [⟨i, e, c, token⟩], SelectedOk R s x := by
      intro x hx
      rcases mem_append.mp hx with hx | hx
      · exact hok x hx
      obtain rfl := mem_singleton.mp hx
      exact ⟨⟨lease, held⟩, validateChild_ok hc⟩
    have hn' : (List.map (·.index) (selected ++ [(⟨i, e, c, token⟩ : Selected)])).Nodup := by
      rw [map_append]
      refine nodup_append.mpr ⟨hn, by simp, fun a ha b hb hab => ?_⟩
      obtain rfl : b = i := by simpa using hb
      obtain ⟨x, hx, hxi⟩ := List.mem_map.mp ha
      exact hfresh ⟨x, hx, hxi.trans hab⟩
    refine wp_imp (ih hok' hn') fun r s' ⟨h1, h2, h3, h4⟩ => ⟨h1, h2, h3, ?_⟩
    intro p hp
    rcases mem_cons.mp hp with rfl | hp
    · exact ⟨i, e, held⟩
    · exact h4 p hp

theorem wp_commitSelected :
    wp (commitSelected selected)
      (fun output s' => Changes R s
        { published := output.map fun p => ⟨p.sequence, p.lease.ticket.requestId, [p.token]⟩ } s')
      E s := by
  induction selected generalizing s with
  | nil => exact Changes.refl s
  | cons x selected ih =>
    simp only [commitSelected, wp_bind, wp_get, wp_modify, wp_pure]
    obtain ⟨⟨lease, held⟩, hchild⟩ := hok x mem_cons_self
    rw [map_cons, nodup_cons] at hn
    have hrest : ∀ y ∈ selected, SelectedOk R (s.publishEntry x.index x.entry x.root) y := by
      intro y hy
      obtain ⟨⟨lease', held'⟩, hchild'⟩ := hok y (mem_cons_of_mem _ hy)
      refine ⟨⟨lease', ?_, held'.id, held'.host, held'.active, held'.generation, held'.root,
        held'.acquisition⟩, hchild'⟩
      have hne : x.index ≠ y.index := by
        intro heq
        exact hn.1 (heq ▸ List.mem_map_of_mem hy)
      show (s.entries.set x.index _)[y.index]? = some y.entry
      rw [getElem?_set_ne hne]
      exact held'.found
    refine wp_imp (ih hrest hn.2) fun output s' hs => ?_
    exact Changes.step (Change.published held hchild) hs

end

theorem wp_publishBatchInto {leases : List Lease} :
    wp (publishBatchInto R out leases roots tokens outputs)
      (fun output s' => (∀ lease ∈ leases, ∃ i e, s.HostHeld lease i e) ∧ Changes R s
        { published := output.map fun p => ⟨p.sequence, p.lease.ticket.requestId, [p.token]⟩ } s')
      (fun _ s' => s' = s) s := by
  simp only [publishBatchInto, wp_bind]
  refine wp_refuseIf (fun _ => rfl) fun hlen => ?_
  refine wp_requireOpen (fun _ _ => rfl) fun _ => ?_
  refine wp_refuseIf (fun _ => rfl) fun _ => ?_
  refine wp_outcome (fun _ _ => rfl) fun _ => ?_
  refine wp_imp (wp_selectLeases (by simp) (by simp)) fun selected s' h => ?_
  obtain ⟨rfl, hok, hn, hheld⟩ := h
  refine wp_outcome (fun _ _ => rfl) fun _ => ?_
  refine wp_imp (wp_commitSelected hok hn) fun output s'' hs => ⟨fun lease hl => ?_, hs⟩
  have hmap : (leases.zip (roots.zip tokens)).map Prod.fst = leases :=
    map_fst_zip (by rw [length_zip]; omega)
  rw [← hmap] at hl
  obtain ⟨p, hp, rfl⟩ := List.mem_map.mp hl
  exact hheld p hp

/-! ## Calls -/

/-- A call on the coordinator. -/
inductive Call where
  | admitOne (root : Option Nat)
  | admitBatchInto (roots : List (Option Nat)) (outputs : Nat)
  | acquire
  | yield (lease : Lease)
  | enterDeviceLogical (lease : Lease) (physicalOwner : Option PhysicalOwner)
      (initialFrontier : Int) (outputTokenCapacity : Nat) (maxContext : Int)
  | publishDeviceLogicalWindow (lease : DeviceLogicalLease) (tokens : List Int)
  | materializeDeviceLogical (lease : DeviceLogicalLease) (child : Option Nat)
  | cancelDeviceLogical (lease : DeviceLogicalLease) (workerComplete : Bool)
  | publishBatchInto (leases : List Lease) (roots : List (Option Nat)) (tokens : List Int)
      (outputs : Nat)
  | publishWindow (lease : Lease) (root : Option Nat) (tokens : List Int)
  | cancel (ticket : Ticket) (workerComplete : Bool)
  | complete (lease : Lease)
  | completeRetired (lease : Lease) (retirement : Retirement)
  | cancelRetired (lease : Lease) (retirement : Retirement)
  | yieldRetired (lease : Lease) (retirement : Retirement)
  | completeAndAdmit (lease : Lease) (root : Option Nat)
  | close
deriving DecidableEq

/-- The call, and what it tells the outside. -/
def perform (R : Requests) (out : Outside) : Call → CoordExec Effects
  | .admitOne root => do
    let ticket ← admitOne R out root
    return { admitted := [(ticket.requestId, root.getD 0)] }
  | .admitBatchInto roots outputs => do
    let tickets ← admitBatchInto R out roots outputs
    return { admitted := (tickets.map (·.requestId)).zip (roots.map (·.getD 0)) }
  | .acquire => do
    let _ ← acquire out
    return {}
  | .yield lease => do
    yield out lease
    return {}
  | .enterDeviceLogical lease physicalOwner initialFrontier outputTokenCapacity maxContext => do
    let _ ← enterDeviceLogical R out lease physicalOwner initialFrontier outputTokenCapacity
      maxContext
    return {}
  | .publishDeviceLogicalWindow lease tokens => do
    let p ← publishDeviceLogicalWindow out lease tokens
    return { published := [⟨p.sequence, p.lease.ticket.requestId, tokens⟩] }
  | .materializeDeviceLogical lease child => do
    let _ ← materializeDeviceLogical R out lease child
    return {}
  | .cancelDeviceLogical lease workerComplete => do
    cancelDeviceLogical out lease workerComplete
    return {}
  | .publishBatchInto leases roots tokens outputs => do
    let output ← publishBatchInto R out leases roots tokens outputs
    return { published := output.map fun p => ⟨p.sequence, p.lease.ticket.requestId, [p.token]⟩ }
  | .publishWindow lease root tokens => do
    let p ← publishWindow R out lease root tokens
    return { published := [⟨p.sequence, p.lease.ticket.requestId, p.tokens⟩] }
  | .cancel ticket workerComplete => do
    cancel out ticket workerComplete
    return {}
  | .complete lease => do
    complete out lease
    return {}
  | .completeRetired lease retirement => do
    completeRetired out lease retirement
    return {}
  | .cancelRetired lease retirement => do
    cancelRetired out lease retirement
    return {}
  | .yieldRetired lease retirement => do
    yieldRetired out lease retirement
    return {}
  | .completeAndAdmit lease root => do
    let turnover ← completeAndAdmit R out lease root
    return { admitted := [(turnover.admitted.requestId, root.getD 0)] }
  | .close => do
    close out
    return {}

/-- Every call is a row of commits, also when it throws; then it publishes and admits nothing. -/
theorem perform_changes (c : Call) :
    wp (perform R out c) (fun eff s' => Changes R s eff s') (fun _ s' => Changes R s {} s') s := by
  have hsame : ∀ {s' : ServingCoordinator}, s' = s → Changes R s {} s' := by
    intro s' h
    rw [h]
    exact Changes.refl s
  cases c with simp only [perform, wp_bind]
  | admitOne root =>
    exact wp_fail wp_admitOne fun _ _ h => h
  | admitBatchInto roots outputs =>
    exact wp_fail wp_admitBatchInto fun _ _ h => h
  | acquire =>
    refine wp_mono wp_acquire (fun _ s' h => ?_) fun _ _ h => hsame h
    obtain ⟨-, h⟩ | ⟨i, e, rest, hat, hq, hidle, hroom, rfl⟩ := h
    · exact hsame h
    · exact (Change.acquired hat hq hidle hroom).changes
  | yield lease =>
    refine wp_mono wp_yield (fun _ s' h => ?_) fun _ _ h => hsame h
    obtain ⟨i, e, held, -, rfl⟩ := h
    exact (Change.yielded held).changes
  | enterDeviceLogical lease owner frontier capacity maxContext =>
    refine wp_mono wp_enterDeviceLogical (fun _ s' h => ?_) fun _ _ h => hsame h
    obtain ⟨i, e, held, rfl, rfl⟩ := h
    exact (Change.entered held owner capacity).changes
  | publishDeviceLogicalWindow lease tokens =>
    refine wp_mono wp_publishDeviceLogicalWindow (fun p s' h => ?_) fun _ _ h => hsame h
    obtain ⟨i, e, held, hroom, hid, hseq, rfl⟩ := h
    rw [wp_pure, hid, hseq]
    exact (Change.publishedDevice held hroom).changes
  | materializeDeviceLogical lease child =>
    refine wp_mono wp_materializeDeviceLogical (fun _ s' h => ?_) fun _ _ h => hsame h
    obtain ⟨i, e, c, held, hv, hchild, hid, hpos, hsuffix, rfl⟩ := h
    exact (Change.materialized held hv hchild hid hpos hsuffix).changes
  | cancelDeviceLogical lease workerComplete =>
    refine wp_mono wp_cancelDeviceLogical (fun _ s' h => ?_) fun _ _ h => hsame h
    obtain ⟨i, e, held, rfl⟩ := h
    exact (Change.cancelledDevice held).changes
  | publishBatchInto leases roots tokens outputs =>
    exact wp_mono wp_publishBatchInto (fun _ _ h => h.2) fun _ _ h => hsame h
  | publishWindow lease root tokens =>
    refine wp_mono wp_publishWindow (fun p s' h => ?_) fun _ _ h => hsame h
    obtain ⟨i, e, c, held, hchild, hid, htok, hseq, rfl⟩ := h
    rw [wp_pure, hid, htok, hseq]
    exact (Change.published held hchild).changes
  | cancel ticket workerComplete =>
    refine wp_mono wp_cancel (fun _ s' h => ?_) fun _ _ h => hsame h.1
    obtain ⟨i, e, hfind, -, -, -, -, rfl⟩ := h
    exact (Change.cancelled (find_some hfind).1).changes
  | complete lease =>
    refine wp_mono wp_complete (fun _ s' h => ?_) fun _ _ h => hsame h
    obtain ⟨i, e, held, rfl⟩ := h
    exact (Change.completed held).changes
  | completeRetired lease retirement =>
    simp only [completeRetired, wp_bind]
    refine wp_ofExcept.mpr ⟨fun _ _ => ?_, fun _ _ => Changes.refl s⟩
    refine wp_mono wp_complete (fun _ s' h => ?_) fun _ _ h => hsame h
    obtain ⟨i, e, held, rfl⟩ := h
    exact (Change.completed held).changes
  | cancelRetired lease retirement =>
    simp only [cancelRetired, wp_bind]
    refine wp_ofExcept.mpr ⟨fun _ _ => ?_, fun _ _ => Changes.refl s⟩
    refine wp_mono wp_cancel (fun _ s' h => ?_) fun _ _ h => hsame h.1
    obtain ⟨i, e, hfind, -, -, -, -, rfl⟩ := h
    exact (Change.cancelled (find_some hfind).1).changes
  | yieldRetired lease retirement =>
    simp only [yieldRetired, wp_bind]
    refine wp_ofExcept.mpr ⟨fun _ _ => ?_, fun _ _ => Changes.refl s⟩
    refine wp_mono wp_yield (fun _ s' h => ?_) fun _ _ h => hsame h
    obtain ⟨i, e, held, -, rfl⟩ := h
    exact (Change.yielded held).changes
  | completeAndAdmit lease root =>
    refine wp_mono wp_completeAndAdmit (fun t s' h => ?_) fun _ _ h => hsame h
    obtain ⟨i, e, c, held, rfl, hv, hid, -, hadm, rfl⟩ := h
    rw [wp_pure, hadm]
    exact (Change.turnedOver held hv hid).changes
  | close =>
    refine wp_mono wp_close (fun _ s' h => ?_) fun _ s' h => ?_
    · obtain h | ⟨hactive, rfl⟩ := h
      · exact hsame h
      · exact Changes.step (Change.cleared hactive) (Change.flags true s.allocating s.startupRetirementFailed).changes
    obtain h | ⟨hactive, rfl⟩ := h
    · exact hsame h
    · exact (Change.cleared hactive).changes

end ServingCoordinator
end VoidInfer.Exl3
