import VoidInfer.Exl3.ServingSteps
import Mathlib.Data.List.Permutation

/-
  The books of the coordinator: ids, queue, active count, capacities, device entries and the model identity agree with
  the entries (`Inv`). Every commit keeps them, whatever came before (`Change.inv`): an entry is replaced in place,
  taken out, or put at the end, and the three lemmas below say what each needs. The order of the entries never matters.
-/

namespace VoidInfer.Exl3.ServingCoordinator
open List

variable {R : Requests} {s : ServingCoordinator}

/-- What holds of an entry by itself. -/
structure EntryOk (R : Requests) (e : Entry) : Prop where
  valid : RootValid R e.root
  device : e.deviceMode = true → e.active = true ∧ e.deviceSuffix.length ≤ e.deviceCapacity ∧
    e.deviceInitialFrontier = (R e.root).position
  host : e.deviceMode = false → e.deviceSuffix = []

/-- The books. -/
structure Inv (R : Requests) (s : ServingCoordinator) : Prop where
  ids : (s.entries.map (·.id)).Nodup
  below : ∀ e ∈ s.entries, e.id < s.nextRequestId
  queue : s.queue.Perm ((s.entries.filter fun e => !e.active).map (·.id))
  active : s.active = s.entries.countP (·.active)
  physical : s.active ≤ s.policy.physicalCapacity
  logical : s.entries.length ≤ s.policy.logicalCapacity
  reserved : s.entries.length ≤ s.queueCapacity
  entry : ∀ e ∈ s.entries, EntryOk R e
  identity : ∀ e ∈ s.entries, s.modelIdentity = some (R e.root).modelIdentity
  empty : s.entries = [] → s.modelIdentity = none

theorem Inv.perm (h : Inv R s) {l : List Entry} (hl : s.entries.Perm l) : Inv R { s with entries := l } where
  ids := (hl.map _).nodup_iff.mp h.ids
  below e he := h.below e (hl.mem_iff.mpr he)
  queue := h.queue.trans ((hl.filter _).map _)
  active := h.active.trans (hl.countP_eq _)
  physical := h.physical
  logical := hl.length_eq ▸ h.logical
  reserved := hl.length_eq ▸ h.reserved
  entry e he := h.entry e (hl.mem_iff.mpr he)
  identity e he := h.identity e (hl.mem_iff.mpr he)
  empty hnil := h.empty (hl.trans (Perm.of_eq hnil)).eq_nil

variable {i : Nat} {e : Entry}

theorem cons_eraseIdx_perm (hat : s.entries[i]? = some e) : s.entries.Perm (e :: s.entries.eraseIdx i) := by
  obtain ⟨hi, rfl⟩ := List.getElem?_eq_some_iff.mp hat
  exact (getElem_cons_eraseIdx_perm hi).symm

theorem set_perm_cons (hat : s.entries[i]? = some e) (e' : Entry) :
    (s.entries.set i e').Perm (e' :: s.entries.eraseIdx i) :=
  set_perm_cons_eraseIdx (lt_of_getElem? hat) e'

theorem Inv.replace (h : Inv R s) {e' : Entry} (hat : s.entries[i]? = some e)
    (hok : EntryOk R e') (hid : e'.id = e.id) (hact : e'.active = e.active)
    (hident : (R e'.root).modelIdentity = (R e.root).modelIdentity) :
    Inv R { s with entries := s.entries.set i e' } := by
  have hc := h.perm (cons_eraseIdx_perm hat)
  have hbelow := hc.below e mem_cons_self
  have hident' := hc.identity e mem_cons_self
  have hgoal : Inv R { s with entries := e' :: s.entries.eraseIdx i } := by
    refine ⟨?_, ?_, ?_, ?_, hc.physical, hc.logical, hc.reserved, ?_, ?_, ?_⟩
    · simpa only [map_cons, hid] using hc.ids
    · intro x hx
      rcases mem_cons.mp hx with rfl | hx
      · rw [hid]
        exact hbelow
      · exact hc.below x (mem_cons_of_mem _ hx)
    · have := hc.queue
      simp only [filter_cons, hact] at this ⊢
      split at this
      · next hidle =>
        rw [if_pos hidle]
        simpa only [map_cons, hid] using this
      next hidle =>
      rw [if_neg hidle]
      exact this
    · simpa only [countP_cons, hact] using hc.active
    · exact forall_mem_cons.mpr ⟨hok, fun x hx => hc.entry x (mem_cons_of_mem _ hx)⟩
    · intro x hx
      rcases mem_cons.mp hx with rfl | hx
      · rw [hident]
        exact hident'
      · exact hc.identity x (mem_cons_of_mem _ hx)
    · intro hnil
      cases hnil
  exact hgoal.perm (set_perm_cons hat e').symm

theorem Inv.remove (h : Inv R s) (hat : s.entries[i]? = some e) (queue : List Nat) (active : Nat)
    (hqueue : queue = s.queue.filter (· ≠ e.id) ∨ (e.active = true ∧ queue = s.queue))
    (hactive : active = if e.active then s.active - 1 else s.active) :
    Inv R (resetIdentity { s with queue, active, entries := s.entries.eraseIdx i }) := by
  have hc := h.perm (cons_eraseIdx_perm hat)
  have hids := hc.ids
  have hqueue' := hc.queue
  have hcount := hc.active
  have hlogical := hc.logical
  have hreserved := hc.reserved
  have hphysical := hc.physical
  simp only [map_cons, nodup_cons, length_cons, countP_cons, filter_cons] at hids hlogical hreserved hcount hqueue'
  -- the entry's id is nowhere else
  have hrest : ∀ x ∈ ((s.entries.eraseIdx i).filter fun e => !e.active).map (·.id), decide (x ≠ e.id) = true := by
    intro x hx
    obtain ⟨y, hy, rfl⟩ := List.mem_map.mp hx
    refine decide_eq_true fun heq => hids.1 ?_
    rw [← heq]
    exact List.mem_map_of_mem (mem_of_mem_filter hy)
  have hperm : queue.Perm (((s.entries.eraseIdx i).filter fun e => !e.active).map (·.id)) := by
    rcases hqueue with rfl | ⟨hact, rfl⟩
    · refine (hqueue'.filter _).trans (Perm.of_eq ?_)
      split
      · rw [map_cons, filter_cons, if_neg (by simp)]
        exact filter_eq_self.mpr hrest
      · exact filter_eq_self.mpr hrest
    rw [hact] at hqueue'
    exact hqueue'
  refine ⟨hids.2, fun x hx => hc.below x (mem_cons_of_mem _ hx), hperm, ?_, ?_,
    Nat.le_of_succ_le hlogical, Nat.le_of_succ_le hreserved,
    fun x hx => hc.entry x (mem_cons_of_mem _ hx), fun x hx => ?_, fun hnil => ?_⟩
  · show active = (s.entries.eraseIdx i).countP _
    rw [hactive]
    split
    · next hact =>
      rw [if_pos hact] at hcount
      omega
    next hact =>
    rw [if_neg hact] at hcount
    omega
  · rw [hactive]
    split
    · exact Nat.le_trans (Nat.sub_le _ _) hphysical
    · exact hphysical
  · show (if s.entries.eraseIdx i = [] then none else s.modelIdentity) = _
    have hne : s.entries.eraseIdx i ≠ [] := ne_nil_of_mem hx
    rw [if_neg hne]
    exact hc.identity x (mem_cons_of_mem _ hx)
  · exact if_pos hnil

theorem Inv.reserve (h : Inv R s) (extent : Nat) : Inv R (s.reserveQueue extent) :=
  { h with reserved := Nat.le_trans h.reserved (Nat.le_max_left _ _) }

theorem EntryOk.admitted {id root : Nat} (hv : RootValid R root) : EntryOk R { id, generation := 1, root } :=
  ⟨hv, nofun, fun _ => rfl⟩

section
variable (h : Inv R s)
include h

theorem Inv.admitEntry {root : Nat} (hv : RootValid R root) (hroom : s.entries.length < s.policy.logicalCapacity)
    (hqueue : s.entries.length < s.queueCapacity)
    (hid : s.modelIdentity = none ∨ s.modelIdentity = some (R root).modelIdentity) :
    Inv R (s.admitEntry R root) := by
  have hident : (s.admitEntry R root).modelIdentity = some (R root).modelIdentity := by
    rcases hid with hid | hid
    · simp [ServingCoordinator.admitEntry, hid]
    · simp [ServingCoordinator.admitEntry, hid]
  refine ⟨?_, ?_, ?_, ?_, h.physical, ?_, ?_, ?_, ?_, ?_⟩
  · show (List.map _ (s.entries ++ [({ id := s.nextRequestId, generation := 1, root } : Entry)])).Nodup
    rw [map_append]
    refine nodup_append.mpr ⟨h.ids, by simp, fun a ha b hb hab => ?_⟩
    obtain rfl : b = s.nextRequestId := by simpa using hb
    obtain ⟨x, hx, rfl⟩ := List.mem_map.mp ha
    exact absurd hab (Nat.ne_of_lt (h.below x hx))
  · intro x hx
    rcases mem_append.mp hx with hx | hx
    · exact Nat.lt_succ_of_lt (h.below x hx)
    obtain rfl := mem_singleton.mp hx
    exact Nat.lt_succ_self _
  · show (s.queue ++ [s.nextRequestId]).Perm (((s.entries ++ [_]).filter _).map _)
    rw [filter_append, map_append]
    exact h.queue.append (List.Perm.refl _)
  · show s.active = (s.entries ++ [_]).countP _
    rw [countP_append, h.active]
    rfl
  · show (s.entries ++ [_]).length ≤ _
    rw [length_append]
    exact hroom
  · show (s.entries ++ [_]).length ≤ _
    rw [length_append]
    exact hqueue
  · intro x hx
    rcases mem_append.mp hx with hx | hx
    · exact h.entry x hx
    obtain rfl := mem_singleton.mp hx
    exact EntryOk.admitted hv
  · intro x hx
    rw [hident]
    rcases mem_append.mp hx with hx | hx
    · have := h.identity x hx
      rcases hid with hid | hid
      · cases this.symm.trans hid
      · exact hid.symm.trans this
    obtain rfl := mem_singleton.mp hx
    rfl
  · intro hnil
    exact absurd hnil (by simp [ServingCoordinator.admitEntry])

theorem Inv.acquireEntry {rest : List Nat}
    (hat : s.entries[i]? = some e) (hq : s.queue = e.id :: rest) (hidle : e.active = false)
    (hroom : s.active < s.policy.physicalCapacity) : Inv R (s.acquireEntry i e rest) := by
  have hc := h.perm (cons_eraseIdx_perm hat)
  have hqueue := hc.queue
  have hcount := hc.active
  have hok := hc.entry e mem_cons_self
  simp only [filter_cons, countP_cons, hidle] at hqueue hcount
  have hgoal : Inv R { s with
      queue := rest, active := s.active + 1
      entries := { e with acquisition := e.acquisition + 1, active := true } :: s.entries.eraseIdx i } := by
    refine ⟨hc.ids, ?_, ?_, ?_, hroom, hc.logical, hc.reserved, ?_, ?_, ?_⟩
    · exact forall_mem_cons.mpr ⟨hc.below e mem_cons_self, fun x hx => hc.below x (mem_cons_of_mem _ hx)⟩
    · rw [hq] at hqueue
      exact hqueue.cons_inv
    · rw [hcount, countP_cons]
      rfl
    · exact forall_mem_cons.mpr ⟨⟨hok.valid, fun hd => ⟨rfl, (hok.device hd).2⟩, hok.host⟩, fun x hx => hc.entry x (mem_cons_of_mem _ hx)⟩
    · exact forall_mem_cons.mpr ⟨hc.identity e mem_cons_self, fun x hx => hc.identity x (mem_cons_of_mem _ hx)⟩
    · intro hnil
      cases hnil
  exact hgoal.perm (set_perm_cons hat _).symm

theorem Inv.requeue (e' : Entry) (next completions : Nat)
    (hat : s.entries[i]? = some e) (hact : e.active = true) (hidle : e'.active = false)
    (hid : e'.id ∉ (s.entries.eraseIdx i).map (·.id)) (hnext : s.nextRequestId ≤ next)
    (hbelow : e'.id < next) (hok : EntryOk R e')
    (hident : (R e'.root).modelIdentity = (R e.root).modelIdentity) :
    Inv R { s with
      entries := s.entries.set i e', queue := s.queue ++ [e'.id], active := s.active - 1
      nextRequestId := next, completions } := by
  have hc := h.perm (cons_eraseIdx_perm hat)
  have hids := hc.ids
  have hqueue := hc.queue
  have hcount := hc.active
  have hphysical := hc.physical
  have hident' := hc.identity e mem_cons_self
  simp only [map_cons, nodup_cons] at hids
  simp only [filter_cons, countP_cons, hact] at hqueue hcount
  have hgoal : Inv R { s with
      entries := e' :: s.entries.eraseIdx i, queue := s.queue ++ [e'.id], active := s.active - 1
      nextRequestId := next, completions } := by
    refine ⟨nodup_cons.mpr ⟨hid, hids.2⟩, ?_, ?_, ?_, ?_, hc.logical, hc.reserved, ?_, ?_, ?_⟩
    · exact forall_mem_cons.mpr ⟨hbelow, fun x hx => Nat.lt_of_lt_of_le (hc.below x (mem_cons_of_mem _ hx)) hnext⟩
    · rw [filter_cons, if_pos (by simp [hidle]), map_cons]
      refine (perm_append_singleton _ _).trans (List.Perm.cons _ ?_)
      simpa using hqueue
    · rw [countP_cons, hidle]
      simp only [if_true] at hcount
      simp only [Bool.false_eq_true, if_false]
      omega
    · exact Nat.le_trans (Nat.sub_le _ _) hphysical
    · exact forall_mem_cons.mpr ⟨hok, fun x hx => hc.entry x (mem_cons_of_mem _ hx)⟩
    · intro x hx
      rcases mem_cons.mp hx with rfl | hx
      · rw [hident]
        exact hident'
      · exact hc.identity x (mem_cons_of_mem _ hx)
    · intro hnil
      cases hnil
  exact hgoal.perm (set_perm_cons hat e').symm

theorem Inv.clearEntries (hactive : s.active = 0) : Inv R s.clearEntries where
  ids := nodup_nil
  below e he := absurd he (by simp [ServingCoordinator.clearEntries])
  queue := List.Perm.refl _
  active := hactive
  physical := h.physical
  logical := Nat.zero_le _
  reserved := Nat.zero_le _
  entry e he := absurd he (by simp [ServingCoordinator.clearEntries])
  identity e he := absurd he (by simp [ServingCoordinator.clearEntries])
  empty _ := rfl

theorem Inv.id_notMem (hat : s.entries[i]? = some e) : e.id ∉ (s.entries.eraseIdx i).map (·.id) := by
  have := (h.perm (cons_eraseIdx_perm hat)).ids
  exact (nodup_cons.mp this).1

end

/-- Every commit keeps the books. -/
theorem Change.inv {s s' : ServingCoordinator} {eff : Effects} (h : Inv R s) (hc : Change R s eff s') : Inv R s' := by
  cases hc with
  | reserved extent => exact h.reserve extent
  | admitted hv hroom hqueue hid => exact h.admitEntry hv hroom hqueue hid
  | acquired hat hq hidle hroom => exact h.acquireEntry hat hq hidle hroom
  | @yielded lease i e held =>
    have hmem := mem_of_getElem? held.found
    have hok := h.entry e hmem
    have hok' : EntryOk R { e with active := false } :=
      ⟨hok.valid, fun hd => absurd (hd.symm.trans held.host) (by simp), hok.host⟩
    have hnot := h.id_notMem held.found
    exact h.requeue { e with active := false } s.nextRequestId s.completions held.found
      held.active rfl hnot le_rfl (h.below e hmem) hok' rfl
  | @entered lease i e held owner capacity =>
    have hok := h.entry e (mem_of_getElem? held.found)
    have hok' : EntryOk R { e with
        deviceSuffix := [], deviceOwner := owner, deviceInitialFrontier := (R e.root).position
        deviceCapacity := capacity, deviceMode := true, generation := e.generation + 1 } :=
      ⟨hok.valid, fun _ => ⟨held.active, Nat.zero_le _, rfl⟩, nofun⟩
    exact { h.replace held.found hok' rfl rfl rfl with }
  | @publishedDevice lease i e tokens held hroom =>
    have hok := h.entry e (mem_of_getElem? held.found)
    obtain ⟨hact, hfit, hfrontier⟩ := hok.device held.device
    have hok' : EntryOk R { e with
        deviceSuffix := e.deviceSuffix ++ tokens, generation := e.generation + 1
        publications := e.publications + 1 } := by
      refine ⟨hok.valid, fun _ => ⟨hact, ?_, hfrontier⟩, fun hd => ?_⟩
      · show (e.deviceSuffix ++ tokens).length ≤ e.deviceCapacity
        rw [length_append]
        omega
      · cases held.device.symm.trans hd
    exact { h.replace held.found hok' rfl rfl rfl with }
  | @materialized lease i e c held hv hchild hid hpos hsuffix =>
    have hok' : EntryOk R { e with
        root := c, deviceOwner := none, deviceSuffix := [], deviceInitialFrontier := 0
        deviceCapacity := 0, deviceMode := false, generation := e.generation + 1
        publications := e.publications + 1 } :=
      ⟨hv, nofun, fun _ => rfl⟩
    exact { h.replace held.found hok' rfl rfl hid with }
  | @published lease i e c tokens held hchild =>
    have hok := h.entry e (mem_of_getElem? held.found)
    have hok' : EntryOk R { e with
        root := c, generation := e.generation + 1, publications := e.publications + 1 } :=
      ⟨hchild.valid, fun hd => absurd (hd.symm.trans held.host) (by simp), hok.host⟩
    exact { h.replace held.found hok' rfl rfl hchild.identity with }
  | @cancelledDevice lease i e held =>
    exact { h.remove held.found s.queue _ (.inr ⟨held.active, rfl⟩) (by rw [held.active]; rfl) with }
  | @cancelled i e hat => exact { h.remove hat _ _ (.inl rfl) rfl with }
  | @completed lease i e held =>
    exact { h.remove held.found s.queue _ (.inr ⟨held.active, rfl⟩) (by rw [held.active]; rfl) with }
  | @turnedOver lease i e c held hv hid =>
    have hmem := mem_of_getElem? held.found
    have hnew : s.nextRequestId ∉ (s.entries.eraseIdx i).map (·.id) := by
      intro hx
      obtain ⟨x, hx, hxid⟩ := List.mem_map.mp hx
      exact absurd hxid (Nat.ne_of_lt (h.below x (mem_of_mem_eraseIdx hx)))
    have hident : (R c).modelIdentity = (R e.root).modelIdentity :=
      Option.mem_unique hid (h.identity e hmem)
    exact h.requeue { id := s.nextRequestId, generation := 1, root := c } _
      _ held.found held.active rfl hnew (Nat.le_succ _) (Nat.lt_succ_self _)
      (EntryOk.admitted hv) hident
  | cleared hactive => exact h.clearEntries hactive
  | flags closed allocating failed => exact { h with }

theorem Changes.inv {s s' : ServingCoordinator} {eff : Effects} (h : Inv R s)
    (hc : Changes R s eff s') : Inv R s' := by
  induction hc with
  | refl => exact h
  | step hc _ ih => exact ih (hc.inv h)

theorem make_inv {policy : Policy} (h : make policy = .ok s) : Inv R s := by
  obtain ⟨_, -, h⟩ := bind_ok h
  cases h
  exact ⟨nodup_nil, by simp, List.Perm.refl _, rfl, Nat.zero_le _, Nat.zero_le _,
    Nat.zero_le _, by simp, by simp, fun _ => rfl⟩

end VoidInfer.Exl3.ServingCoordinator
