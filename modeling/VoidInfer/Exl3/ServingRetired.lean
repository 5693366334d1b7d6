import VoidInfer.Exl3.ServingRun

/-
  The operations that take a physical retirement. `complete_retired` and `yield_retired` present the lease and go
  through `require_lease_locked`. `cancel_retired` passes on the ticket only, and `cancel` compares id and generation: a
  yield keeps both, so a worker that yielded and kept its lease and retirement can cancel the request under the next
  holder.
-/

namespace VoidInfer.Exl3
open List

open Throwing Relation

namespace ServingCoordinator

variable {R : Requests} {s : ServingCoordinator}

/-- The state a call leaves, returning or throwing. -/
def after (x : CoordExec Unit) (s : ServingCoordinator) : ServingCoordinator :=
  match x s with
  | .ok _ s' => s'
  | .error _ s' => s'

theorem after_of_wp {x : CoordExec Unit} {P : ServingCoordinator → Prop}
    (h : wp x (fun _ s' => P s') (fun _ s' => P s') s) : P (after x s) := by
  unfold wp at h
  unfold after
  split at h
  · next heq => rw [heq]; exact h
  · next heq => rw [heq]; exact h

/-- The call changes the state only if the lease's acquisition is the one the request is
    active under, if it is active. -/
def OnlyByHolder (x : CoordExec Unit) (s : ServingCoordinator) (lease : Lease) : Prop :=
  after x s ≠ s → ∀ e ∈ s.entries, e.id = lease.ticket.requestId → e.active = true →
    lease.acquisition = e.acquisition

/-- All three operations do. -/
def RetiredByHolder (s : ServingCoordinator) (out : Outside) (lease : Lease) (retirement : Retirement) : Prop :=
  OnlyByHolder (completeRetired out lease retirement) s lease ∧
  OnlyByHolder (cancelRetired out lease retirement) s lease ∧
  OnlyByHolder (yieldRetired out lease retirement) s lease

/-- A cancellation that nothing stops although another acquisition holds the request. -/
def StaleCancellation (s : ServingCoordinator) (out : Outside) (lease : Lease) : Prop :=
  s.IsOpen out false ∧ out.residency = none ∧
    ∃ e ∈ s.entries, e.id = lease.ticket.requestId ∧ e.generation = lease.ticket.generation ∧
      e.active = true ∧ e.acquisition ≠ lease.acquisition

variable {lease : Lease} {retirement : Retirement}

theorem Inv.acquisition_of_hasLease (h : Inv R s) (hhas : s.HasLease lease) :
    ∀ e ∈ s.entries, e.id = lease.ticket.requestId → lease.acquisition = e.acquisition := by
  intro e he hid
  obtain ⟨i, e', held⟩ := hhas
  obtain rfl := h.entry_unique he (mem_of_getElem? held.found) (hid.trans held.id.symm)
  exact held.acquisition.symm

theorem Inv.onlyByHolder (h : Inv R s) {x : CoordExec Unit} (hcall : after x s = s ∨ s.HasLease lease) :
    OnlyByHolder x s lease := fun hne e he hid _ => h.acquisition_of_hasLease (hcall.resolve_left hne) e he hid

theorem Inv.completeRetired_onlyByHolder (h : Inv R s) (out : Outside) (lease : Lease)
    (retirement : Retirement) : OnlyByHolder (completeRetired out lease retirement) s lease := by
  refine h.onlyByHolder (after_of_wp (P := fun s' => s' = s ∨ s.HasLease lease) ?_)
  simp only [completeRetired, wp_bind]
  refine wp_ofExcept.mpr ⟨fun _ _ => ?_, fun _ _ => .inl rfl⟩
  refine wp_mono wp_complete ?_ fun _ _ h => .inl h
  rintro _ _ ⟨i, e, held, -⟩
  exact .inr ⟨i, e, held⟩

theorem Inv.yieldRetired_onlyByHolder (h : Inv R s) (out : Outside) (lease : Lease)
    (retirement : Retirement) : OnlyByHolder (yieldRetired out lease retirement) s lease := by
  refine h.onlyByHolder (after_of_wp (P := fun s' => s' = s ∨ s.HasLease lease) ?_)
  simp only [yieldRetired, wp_bind]
  refine wp_ofExcept.mpr ⟨fun _ _ => ?_, fun _ _ => .inl rfl⟩
  refine wp_mono wp_yield ?_ fun _ _ h => .inl h
  rintro _ _ ⟨i, e, held, -⟩
  exact .inr ⟨i, e, held⟩

theorem Inv.find_of_mem (h : Inv R s) {e : Entry} (he : e ∈ s.entries) : ∃ i, find e.id s.entries = some (i, e) := by
  cases hfind : find e.id s.entries with
  | none => exact absurd rfl (find_none hfind e he)
  | some found =>
    obtain ⟨i, e'⟩ := found
    obtain ⟨hat, hid⟩ := find_some hfind
    obtain rfl := h.entry_unique (mem_of_getElem? hat) he hid
    exact ⟨i, rfl⟩

/-- `cancel` of the lease's ticket gets as far as its commit, at the entry `e`. -/
structure CanCancel (s : ServingCoordinator) (out : Outside) (lease : Lease) (i : Nat)
    (e : Entry) : Prop where
  isOpen : s.IsOpen out false
  residency : out.residency = none
  found : find lease.ticket.requestId s.entries = some (i, e)
  generation : e.generation = lease.ticket.generation

theorem after_cancelRetired (s : ServingCoordinator) (out : Outside)
    (hret : requireRetirement lease retirement = .ok ()) :
    (after (cancelRetired out lease retirement) s = s ∧ ∀ i e, ¬ s.CanCancel out lease i e) ∨
    ∃ i e, s.CanCancel out lease i e ∧ after (cancelRetired out lease retirement) s = s.cancelEntry i e := by
  apply after_of_wp (P := fun s' => (s' = s ∧ ∀ i e, ¬ s.CanCancel out lease i e) ∨
    ∃ i e, s.CanCancel out lease i e ∧ s' = s.cancelEntry i e)
  simp only [cancelRetired, wp_bind]
  refine wp_ofExcept.mpr ⟨fun _ _ => ?_, fun e he => by cases hret.symm.trans he⟩
  refine wp_mono wp_cancel (fun _ s' h => .inr ?_) fun _ s' h => .inl ⟨h.1, fun i e hcan => h.2 ?_⟩
  · obtain ⟨i, e, hfind, hgen, -, hopen, hres, hs'⟩ := h
    exact ⟨i, e, ⟨hopen, hres, hfind, hgen⟩, hs'⟩
  · exact ⟨hcan.isOpen, hcan.residency, i, e, hcan.found, hcan.generation, fun _ => rfl⟩

theorem Inv.cancelRetired_onlyByHolder_iff (h : Inv R s) {out : Outside}
    (hret : requireRetirement lease retirement = .ok ()) :
    OnlyByHolder (cancelRetired out lease retirement) s lease ↔ ¬ s.StaleCancellation out lease := by
  have hafter := after_cancelRetired s out hret
  constructor
  · rintro honly ⟨hopen, hres, e, he, hid, hgen, hact, hacq⟩
    obtain ⟨i, hfind⟩ := h.find_of_mem he
    rw [hid] at hfind
    rcases hafter with ⟨-, hno⟩ | ⟨j, e', hcan, hs'⟩
    · exact hno i e ⟨hopen, hres, hfind, hgen⟩
    refine hacq (honly (fun hsame => ?_) e he hid hact).symm
    -- the entry is gone, so the state is another
    have hlen : (s.entries.eraseIdx j).length = s.entries.length :=
      congrArg (fun s => s.entries.length) (hs'.symm.trans hsame)
    have hj := (List.getElem?_eq_some_iff.mp (find_some hcan.found).1).1
    have herase := length_eraseIdx_of_lt hj
    omega
  · intro hno hne e he hid hact
    rcases hafter with ⟨hsame, -⟩ | ⟨i, e', hcan, -⟩
    · exact absurd hsame hne
    obtain ⟨hat, hid'⟩ := find_some hcan.found
    obtain rfl := h.entry_unique he (mem_of_getElem? hat) (hid.trans hid'.symm)
    by_contra hacq
    exact hno ⟨hcan.isOpen, hcan.residency, e, he, hid, hcan.generation, hact, fun h => hacq h.symm⟩

namespace World

/-- In every reachable state and for every accepted retirement: only the holder's operations change the state, unless
    this is a cancellation by a lease whose request is active under another acquisition. -/
theorem retired_by_holder_iff {w : World} (hr : Reachable R w) (out : Outside) {lease : Lease}
    {retirement : Retirement} (hret : requireRetirement lease retirement = .ok ()) :
    RetiredByHolder w.coordinator out lease retirement ↔
      ¬ w.coordinator.StaleCancellation out lease := by
  have h := hr.inv
  constructor
  · rintro ⟨-, hcancel, -⟩
    exact (h.cancelRetired_onlyByHolder_iff hret).mp hcancel
  · intro hno
    exact ⟨h.completeRetired_onlyByHolder out lease retirement,
      (h.cancelRetired_onlyByHolder_iff hret).mpr hno,
      h.yieldRetired_onlyByHolder out lease retirement⟩

/-- The retirement of the first worker's lane. -/
def sampleRetirement : Retirement :=
  { ticket := ⟨1, 1⟩, acquisition := 1, execution := 1, finalUseGeneration := 1
    retirementGeneration := 1 }

theorem retired_by_holder_iff_sample :
    Reachable sampleRequests sampleAcquired ∧
      requireRetirement sampleLease sampleRetirement = .ok () ∧
      RetiredByHolder sampleAcquired.coordinator {} sampleLease sampleRetirement := by
  have hret : requireRetirement sampleLease sampleRetirement = .ok () := rfl
  refine ⟨sampleAcquired_reachable, hret, ?_⟩
  refine (retired_by_holder_iff sampleAcquired_reachable {} hret).mpr ?_
  rintro ⟨-, -, e, he, -, -, -, hacq⟩
  obtain rfl := mem_singleton.mp he
  exact hacq rfl

/-- The first worker has yielded and the second holds the request. -/
def sampleReacquired : World :=
  { coordinator :=
      { policy := ⟨2, 1, 1, 2 ^ 30⟩
        entries := [{ id := 1, generation := 1, active := true, root := 0, acquisition := 2 }]
        queueCapacity := 1, modelIdentity := some 3, nextRequestId := 2, active := 1 }
    admitted := [(1, 0)] }

theorem sampleReacquired_reachable : Reachable sampleRequests sampleReacquired := by
  obtain ⟨policy, s, hmake, hs⟩ := sampleAcquired_reachable
  have h1 : Step sampleRequests sampleAcquired
      { coordinator :=
          { policy := ⟨2, 1, 1, 2 ^ 30⟩
            entries := [{ id := 1, generation := 1, root := 0, acquisition := 1 }]
            queue := [1], queueCapacity := 1, modelIdentity := some 3, nextRequestId := 2 }
        admitted := [(1, 0)] } :=
    Step.of_perform (.yieldRetired sampleLease sampleRetirement) {} {} rfl rfl rfl
  exact ⟨policy, s, hmake, (hs.tail h1).tail (Step.of_perform .acquire {} {} rfl rfl rfl)⟩

/-- Its old lease and retirement still cancel it. -/
theorem cancelled_under_the_next_holder :
    Reachable sampleRequests sampleReacquired ∧
      requireRetirement sampleLease sampleRetirement = .ok () ∧
      ¬ RetiredByHolder sampleReacquired.coordinator {} sampleLease sampleRetirement := by
  refine ⟨sampleReacquired_reachable, rfl, fun h => ?_⟩
  have hgone : after (cancelRetired {} sampleLease sampleRetirement)
      sampleReacquired.coordinator ≠ sampleReacquired.coordinator := by decide
  have := h.2.1 hgone _ (mem_singleton.mpr rfl) rfl rfl
  cases this

end World
end ServingCoordinator
end VoidInfer.Exl3
