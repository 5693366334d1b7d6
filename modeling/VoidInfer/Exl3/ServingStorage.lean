import VoidInfer.Exl3.ServingRun

/-
  The two storages of the coordinator. Entries and queue live in the fallback storage, or, once
  `reserve_metadata_startup` has returned, in one that was reserved for every logical slot; `close` gives that one back.

  Whichever is in use, its queue has room for every entry, because the entries that are not queued are the active ones
  (`queue_has_room`).
-/

namespace VoidInfer.Exl3
open List

open Throwing Relation

/-- The part of `MetadataStorage` that the calls use. -/
structure MetadataStorage where
  entries : List Entry := []
  queue : List Nat := []
  queueCapacity : Nat := 0

/-- The coordinator, with the entries and the queue of the storage in use, and the fallback
    storage while it is not in use: `metadata_` is set exactly then. -/
structure StoredCoordinator where
  coordinator : ServingCoordinator
  fallback : Option MetadataStorage := none

/-- What `reserve_metadata_startup` meets outside this model. -/
structure Startup where
  physicalBound : Bool := true
  residentUpdates : Nat := 0
  entriesCapacity : Nat := 0
  /-- What `allocate_reserved` throws. -/
  allocation : Option Exn := none

namespace StoredCoordinator

open ServingCoordinator

variable {R : Requests} {s : StoredCoordinator}

/-- `metadata_.reset()`: the fallback storage is in use again. -/
def resetMetadata (s : StoredCoordinator) : StoredCoordinator :=
  match s.fallback with
  | none => s
  | some storage =>
    { coordinator := { s.coordinator with
        entries := storage.entries, queue := storage.queue, queueCapacity := storage.queueCapacity } }

/-- A call on the storage in use. `close` gives the reserved storage back when it closes. -/
def perform (R : Requests) (out : Outside) (c : Call) (s : StoredCoordinator) :
    Except (Exn × StoredCoordinator) (Effects × StoredCoordinator) :=
  match ServingCoordinator.perform R out c s.coordinator with
  | .error e coordinator => .error (e, { s with coordinator })
  | .ok effects coordinator =>
    if c = .close ∧ s.coordinator.closed = false ∧ coordinator.closed = true then
      .ok (effects, resetMetadata { s with coordinator })
    else .ok (effects, { s with coordinator })

/-- `reserve_metadata_startup`. The lock is not held while it allocates, but `allocating_` is
    set, and `require_open` refuses every other call until it has returned. -/
def reserveMetadataStartup (out : Outside) (startup : Startup) (s : StoredCoordinator) :
    Except Exn StoredCoordinator :=
  match requireOpen out false s.coordinator with
  | .error e _ => .error e
  | .ok _ _ => do
    throwIf (startup.physicalBound = false ∨ s.fallback.isSome = true ∨ startup.entriesCapacity ≠ 0 ∨
        s.coordinator.queueCapacity ≠ 0 ∨ startup.residentUpdates ≠ 0)
      (.logicError "coordinator metadata reservation must precede admission")
    match startup.allocation with
    | some e => .error e
    | none =>
      return { coordinator := { s.coordinator with
                 entries := [], queue := [], queueCapacity := s.coordinator.policy.logicalCapacity }
               fallback := some ⟨s.coordinator.entries, s.coordinator.queue, s.coordinator.queueCapacity⟩ }

/-- One call, the reservation of the storage, or a change of the flags that startup and runtime allocation set. -/
inductive Step (R : Requests) : StoredCoordinator → StoredCoordinator → Prop
  | call {s s' : StoredCoordinator} {c : Call} {effects : Effects} (out : Outside)
      (h : perform R out c s = .ok (effects, s')) : Step R s s'
  | throws {s s' : StoredCoordinator} {c : Call} {e : Exn} (out : Outside) (h : perform R out c s = .error (e, s')) :
      Step R s s'
  | reserved {s s' : StoredCoordinator} (out : Outside) (startup : Startup)
      (h : reserveMetadataStartup out startup s = .ok s') : Step R s s'
  | environment {s : StoredCoordinator} (allocating startupRetirementFailed : Bool) :
      Step R s { s with coordinator := { s.coordinator with allocating, startupRetirementFailed } }

/-- Reached from a new coordinator. -/
def Reachable (R : Requests) (s : StoredCoordinator) : Prop :=
  ∃ policy coordinator, make policy = .ok coordinator ∧ ReflTransGen (Step R) { coordinator } s

/-! ## The storage in use -/

/-- The books hold for the storage in use; the other one was never used. -/
structure Inv (R : Requests) (s : StoredCoordinator) : Prop where
  books : ServingCoordinator.Inv R s.coordinator
  unused : ∀ storage, s.fallback = some storage → storage = {}

theorem resetMetadata_inv (h : Inv R s) (hactive : s.coordinator.active = 0)
    (hidentity : s.coordinator.modelIdentity = none) : Inv R (resetMetadata s) := by
  unfold resetMetadata
  split
  · exact h
  next storage hstorage =>
  rw [h.unused storage hstorage]
  refine ⟨⟨nodup_nil, by simp, List.Perm.refl _, hactive, h.books.physical, Nat.zero_le _, Nat.zero_le _,
    by simp, by simp, fun _ => hidentity⟩, by simp⟩

variable {out : Outside} {s' : StoredCoordinator} {c : ServingCoordinator} {lease : Lease}

theorem perform_inv {c : Call} {effects : Effects} (h : Inv R s)
    (hp : perform R out c s = .ok (effects, s')) : Inv R s' := by
  unfold perform at hp
  split at hp
  · cases hp
  next effects' coordinator hc =>
  have hbooks := (wp_ok (perform_changes c) hc).inv h.books
  split at hp
  · next hclose =>
    obtain ⟨rfl, hopen, hclosed⟩ := hclose
    obtain rfl := (Prod.mk.inj (Except.ok.inj hp)).2
    have hshut : wp (ServingCoordinator.perform R out .close) (fun _ s' => s' = s.coordinator ∨
        (s.coordinator.active = 0 ∧ s' = { s.coordinator.clearEntries with closed := true })) (fun _ _ => True)
        s.coordinator := by
      simp only [ServingCoordinator.perform, wp_bind]
      exact wp_fail wp_close fun _ _ _ => trivial
    rcases wp_ok hshut hc with hsame | ⟨hactive, rfl⟩
    · rw [hsame, hopen] at hclosed
      cases hclosed
    · exact resetMetadata_inv ⟨hbooks, h.unused⟩ hactive rfl
  obtain rfl := (Prod.mk.inj (Except.ok.inj hp)).2
  exact ⟨hbooks, h.unused⟩

theorem perform_error_inv {c : Call} {e : Exn} (h : Inv R s)
    (hp : perform R out c s = .error (e, s')) : Inv R s' := by
  unfold perform at hp
  split at hp
  · next e' coordinator hc =>
    obtain rfl := (Prod.mk.inj (Except.error.inj hp)).2
    exact ⟨(wp_error (perform_changes c) hc).inv h.books, h.unused⟩
  split at hp
  · cases hp
  · cases hp

theorem reserveMetadataStartup_inv {startup : Startup} (h : Inv R s)
    (hr : reserveMetadataStartup out startup s = .ok s') : Inv R s' := by
  unfold reserveMetadataStartup at hr
  split at hr
  · cases hr
  obtain ⟨hfresh, hr⟩ := check_ok hr
  simp only [not_or, ne_eq, Decidable.not_not] at hfresh
  split at hr
  · cases hr
  cases hr
  have hreserved := h.books.reserved
  have hentries : s.coordinator.entries = [] := eq_nil_of_length_eq_zero (by omega)
  have hqueue : s.coordinator.queue = [] := by
    have hperm := h.books.queue
    rw [hentries] at hperm
    exact hperm.eq_nil
  have hactive : s.coordinator.active = 0 := by
    rw [h.books.active, hentries]
    rfl
  refine ⟨⟨nodup_nil, by simp, List.Perm.refl _, hactive, h.books.physical, Nat.zero_le _, Nat.zero_le _, by simp,
    by simp, fun _ => h.books.empty hentries⟩, ?_⟩
  intro storage hstorage
  rw [← Option.some.inj hstorage, hentries, hqueue, hfresh.2.2.2.1]

theorem Step.inv {s s' : StoredCoordinator} (h : Inv R s) (hstep : Step R s s') : Inv R s' := by
  cases hstep with
  | call out hp => exact perform_inv h hp
  | throws out hp => exact perform_error_inv h hp
  | reserved out startup hr => exact reserveMetadataStartup_inv h hr
  | environment allocating failed =>
    exact ⟨(Change.flags s.coordinator.closed allocating failed).inv h.books, h.unused⟩

theorem Reachable.inv (hr : Reachable R s) : Inv R s := by
  obtain ⟨policy, coordinator, hmake, hsteps⟩ := hr
  induction hsteps with
  | refl => exact ⟨make_inv hmake, by simp⟩
  | tail _ hstep ih => exact hstep.inv ih

/-! ## Room in the queue -/

theorem queue_lt_of_held (h : ServingCoordinator.Inv R c) {i : Nat} {e : Entry}
    (held : c.HostHeld lease i e) : c.queue.length < c.queueCapacity := by
  have hreserved := h.reserved
  have hqueue := h.queue.length_eq
  rw [length_map] at hqueue
  have hlt : (c.entries.filter fun e => !e.active).length < c.entries.length := by
    refine Nat.lt_of_le_of_ne (length_filter_le _ _) fun heq => ?_
    have hall := length_filter_eq_length_iff.mp heq e (mem_of_getElem? held.found)
    simp [held.active] at hall
  omega

/-- The two refusals of a full queue. -/
def QueueFull (e : Exn) : Prop :=
  e = .logicError "serving coordinator yield exceeds reserved queue" ∨
    e = .logicError "serving coordinator turnover exceeds reserved queue"

theorem wp_requireOpen_error {closing : Bool} :
    wp (requireOpen out closing) (fun _ s' => s' = c) (fun e _ => ¬ QueueFull e) c := by
  simp only [requireOpen, wp_bind, wp_get]
  refine wp_refuseIf (fun _ => by simp [QueueFull]) fun _ => ?_
  refine wp_refuseIf (fun _ => by simp [QueueFull]) fun _ => ?_
  refine wp_refuseIf (fun _ => by simp [QueueFull]) fun _ => ?_
  refine wp_refuseIf (fun _ => by simp [QueueFull]) fun _ => ?_
  exact wp_refuseIf (fun _ => by simp [QueueFull]) fun _ => rfl

theorem wp_requireLease_error :
    wp (requireLeaseLocked lease) (fun r s' => s' = c ∧ c.HostHeld lease r.1 r.2) (fun e _ => ¬ QueueFull e) c := by
  have hheld : wp (requireLeaseLocked lease) (fun r s' => s' = c ∧ c.HostHeld lease r.1 r.2) (fun _ _ => True) c :=
    wp_requireLeaseLocked (fun _ => trivial) fun i e held => ⟨rfl, held⟩
  have herror : wp (requireLeaseLocked lease) (fun _ _ => True) (fun e _ => ¬ QueueFull e) c := by
    simp only [requireLeaseLocked, findLocked, wp_bind, wp_get]
    cases find lease.ticket.requestId c.entries with
    | none => simp [QueueFull]
    | some found => exact wp_refuseIf (fun _ => by simp [QueueFull]) fun _ => trivial
  exact wp_mono (wp_and hheld herror) (fun _ _ h => h.1) fun _ _ h => h.2

theorem validateRoot_error {root : Option Nat} {e : Exn} (h : validateRoot R root = .error e) : ¬ QueueFull e := by
  unfold validateRoot at h
  split at h
  · rw [← Except.error.inj h]
    simp [QueueFull]
  rcases bind_error h with hthrow | ⟨_, _, h⟩
  · rw [(throwIf_error hthrow).2]
    simp [QueueFull]
  rcases bind_error h with hsuffix | ⟨tokens, _, h⟩
  · rcases bind_error hsuffix with hthrow | ⟨_, _, hsuffix⟩
    · rw [(throwIf_error hthrow).2]
      simp [QueueFull]
    · cases hsuffix
  rcases bind_error h with hthrow | ⟨_, _, h⟩
  · rw [(throwIf_error hthrow).2]
    simp [QueueFull]
  · cases h

theorem wp_yield_room (h : ServingCoordinator.Inv R c) :
    wp (yield out lease) (fun _ s' => s'.queueCapacity = c.queueCapacity ∧ s'.queue.length ≤ c.queueCapacity)
      (fun e _ => ¬ QueueFull e) c := by
  simp only [yield, wp_bind]
  refine wp_imp wp_requireOpen_error fun _ s' hs => ?_
  rw [hs]
  refine wp_imp wp_requireLease_error fun r s' hs => ?_
  obtain ⟨hs, held⟩ := hs
  rw [hs]
  have hroom := queue_lt_of_held h held
  refine wp_refuseIf (fun hfull => absurd hfull (by omega)) fun _ => ⟨rfl, ?_⟩
  show (c.queue ++ [r.2.id]).length ≤ c.queueCapacity
  rw [length_append, length_singleton]
  omega

theorem wp_completeAndAdmit_room {root : Option Nat} (h : ServingCoordinator.Inv R c) :
    wp (completeAndAdmit R out lease root)
      (fun _ s' => s'.queueCapacity = c.queueCapacity ∧ s'.queue.length ≤ c.queueCapacity)
      (fun e _ => QueueFull e → out.residency = some e) c := by
  simp only [completeAndAdmit, wp_bind]
  refine wp_ofExcept.mpr ⟨fun root _ => ?_, fun e he hfull => absurd hfull (validateRoot_error he)⟩
  refine wp_mono wp_requireOpen_error (fun _ s' hs => ?_) fun _ _ he hfull => absurd hfull he
  rw [hs]
  refine wp_mono wp_requireLease_error (fun r s' hs => ?_) fun _ _ he hfull => absurd hfull he
  obtain ⟨hs, held⟩ := hs
  rw [hs]
  have hroom := queue_lt_of_held h held
  refine wp_refuseIf (fun _ => by simp [QueueFull]) fun _ => ?_
  refine wp_refuseIf (fun hfull => absurd hfull (by omega)) fun _ => ?_
  refine wp_outcome (fun e he _ => he) fun _ => ⟨rfl, ?_⟩
  show (c.queue ++ [c.nextRequestId]).length ≤ c.queueCapacity
  rw [length_append, length_singleton]
  omega

/-- In every reachable state, over the fallback storage or over the reserved one: the queue
    has room for every entry; `yield` and `complete_and_admit` are not refused for a full
    queue, unless the residency change throws that very error; and they leave its capacity. -/
theorem queue_has_room (hr : Reachable R s) :
    s.coordinator.entries.length ≤ s.coordinator.queueCapacity ∧
    (∀ storage, s.fallback = some storage → storage.entries.length ≤ storage.queueCapacity) ∧
    (∀ (out : Outside) (lease : Lease), (∀ u s', yield out lease s.coordinator = .ok u s' →
        s'.queueCapacity = s.coordinator.queueCapacity ∧ s'.queue.length ≤ s.coordinator.queueCapacity) ∧
      ∀ e s', yield out lease s.coordinator = .error e s' → ¬ QueueFull e) ∧
    ∀ (out : Outside) (lease : Lease) (root : Option Nat),
      (∀ turnover s', completeAndAdmit R out lease root s.coordinator = .ok turnover s' →
        s'.queueCapacity = s.coordinator.queueCapacity ∧ s'.queue.length ≤ s.coordinator.queueCapacity) ∧
      ∀ e s', completeAndAdmit R out lease root s.coordinator = .error e s' → QueueFull e →
        out.residency = some e := by
  have h := hr.inv
  refine ⟨h.books.reserved, fun storage hstorage => ?_, fun out lease => ⟨fun u s' hy => ?_, fun e s' hy => ?_⟩,
    fun out lease root => ⟨fun turnover s' hc => ?_, fun e s' hc => ?_⟩⟩
  · rw [h.unused storage hstorage]
    exact le_rfl
  · have hroom := wp_ok (wp_yield_room h.books) hy
    exact hroom
  · exact wp_error (wp_yield_room h.books) hy
  · have hroom := wp_ok (wp_completeAndAdmit_room h.books) hc
    exact hroom
  · exact wp_error (wp_completeAndAdmit_room h.books) hc

/-- Two slots reserved at startup, two prompts admitted, and the older one acquired. -/
def sampleStored : StoredCoordinator where
  coordinator :=
    { policy := ⟨2, 1, 1, 2 ^ 30⟩
      entries := [{ id := 1, generation := 1, active := true, root := 0, acquisition := 1 },
        { id := 2, generation := 1, root := 2 }]
      queue := [2], queueCapacity := 2, modelIdentity := some 3, nextRequestId := 3, active := 1 }
  fallback := some {}

theorem sampleStored_reachable : Reachable World.sampleRequests sampleStored := by
  refine ⟨⟨2, 1, 1, 2 ^ 30⟩, { policy := ⟨2, 1, 1, 2 ^ 30⟩ }, rfl, ?_⟩
  have hreserved : ReflTransGen (Step World.sampleRequests) { coordinator := { policy := ⟨2, 1, 1, 2 ^ 30⟩ } }
      { coordinator := { policy := ⟨2, 1, 1, 2 ^ 30⟩, queueCapacity := 2 }, fallback := some {} } :=
    .single (.reserved {} {} rfl)
  have hfirst := hreserved.tail (Step.call (c := .admitOne (some 0)) {} (by rfl))
  have hsecond := hfirst.tail (Step.call (c := .admitOne (some 2)) {} (by rfl))
  exact hsecond.tail (Step.call (c := .acquire) {} (by rfl))

/-- Both entries are in the queue after a yield, and after a turnover. -/
theorem queue_has_room_sample :
    (∃ after, yield {} World.sampleLease sampleStored.coordinator = .ok () after ∧ after.queue = [2, 1] ∧
      after.queueCapacity = 2 ∧ after.queue.length ≤ 2) ∧
    ∃ turnover after, completeAndAdmit World.sampleRequests {} World.sampleLease (some 0) sampleStored.coordinator =
      .ok turnover after ∧ after.queue = [2, 3] ∧ after.queueCapacity = 2 ∧ after.queue.length ≤ 2 := by
  obtain ⟨-, -, hyield, hturnover⟩ := queue_has_room sampleStored_reachable
  exact ⟨⟨_, rfl, rfl, (hyield {} World.sampleLease).1 () _ rfl⟩,
    _, _, rfl, rfl, (hturnover {} World.sampleLease (some 0)).1 _ _ rfl⟩

end StoredCoordinator
end VoidInfer.Exl3
