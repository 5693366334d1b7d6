import VoidInfer.Exl3.BatchedVerifyInv

/-
  Every interleaving of the lanes. Each step keeps `Inv`, and a closed group keeps its members and its leader (`Kept`).

  `groups_are_exact`: every call that neither ran alone nor threw on arrival is in exactly one group; a group is led
  once, by a member, closed groups do not grow, and a call returns when its group is done, with its error. A forward
  that throws leaves the later forwards of its group unrun (`rows_unrun_after_error`); without an error every member's
  rows ran once, in the order of registration.
-/

namespace VoidInfer.Exl3.BatchedVerify
open List Option Function

variable {cfg : Config} {s s' : State} {grp : Group} {k : Kind} {i g order : Nat} {call : Call}

variable {gate : Gate} {p : Phase} {j context : Nat} {lanes : List Nat}

/-! ## Steps -/

@[simp] theorem setGate_gate_self : (s.setGate k gate).gate k = gate :=
  update_self ..

theorem setGate_gate_of_ne {k' : Kind} (h : k' ≠ k) : (s.setGate k gate).gate k' = s.gate k' :=
  update_of_ne h ..

@[simp] theorem setPhase_gate : (s.setPhase i call p).gate = s.gate := rfl

theorem setPhase_getElem?_self (hi : s.calls[i]? = some call) :
    (s.setPhase i call p).calls[i]? = some { call with phase := p } := by
  simp [State.setPhase, lt_of_getElem? hi]

theorem setPhase_getElem?_of_ne (h : j ≠ i) : (s.setPhase i call p).calls[j]? = s.calls[j]? := by
  simp [State.setPhase, getElem?_set_ne h.symm]

theorem getElem?_append_singleton_of_ne {α : Type} {l : List α} {a : α}
    (h : j ≠ l.length) : (l ++ [a])[j]? = l[j]? := by
  by_cases hlt : j < l.length
  · exact getElem?_append_left hlt
  · rw [getElem?_eq_none (by simp; omega), getElem?_eq_none (by omega)]

theorem putGroup_getElem?_self (hg : g ≤ gate.groups.length) : (gate.putGroup g grp).groups[g]? = some grp := by
  unfold Gate.putGroup
  split
  · rename_i hlt
    simp [hlt]
  obtain rfl : g = gate.groups.length := by omega
  simp

theorem putGroup_getElem?_of_ne {g' : Nat} (hg : g ≤ gate.groups.length)
    (hne : g' ≠ g) : (gate.putGroup g grp).groups[g']? = gate.groups[g']? := by
  unfold Gate.putGroup
  split
  · simp [getElem?_set_ne hne.symm]
  obtain rfl : g = gate.groups.length := by omega
  exact getElem?_append_singleton_of_ne hne

theorem laneFor_prefix : lanes <+: (laneFor lanes context).1 := by
  unfold laneFor
  split
  · exact prefix_rfl
  · exact prefix_append _ _

theorem laneFor_nodup (h : lanes.Nodup) : (laneFor lanes context).1.Nodup := by
  unfold laneFor
  split
  · exact h
  rename_i hnot
  refine nodup_append.mpr ⟨h, nodup_singleton _, fun a ha b hb hab => hnot ?_⟩
  obtain rfl := mem_singleton.mp hb
  exact hab ▸ ha

theorem laneFor_order : (laneFor lanes context).1[(laneFor lanes context).2]? = some context := by
  unfold laneFor
  split
  · rename_i hin
    rw [getElem?_eq_getElem (idxOf_lt_length_of_mem hin), getElem_idxOf]
  · simp

theorem getElem?_of_prefix {l l' : List Nat} {a : Nat} (h : l <+: l') (ha : l[j]? = some a) : l'[j]? = some a := by
  obtain ⟨t, rfl⟩ := h
  rw [getElem?_append_left (lt_of_getElem? ha), ha]

namespace Inv

theorem register (h : Inv cfg s) (context : Nat) :
    Inv cfg (s.setGate k { s.gate k with lanes := (laneFor (s.gate k).lanes context).1 }) := by
  have hgate : ∀ k', ((s.setGate k { s.gate k with lanes := (laneFor (s.gate k).lanes context).1 }).gate k').groups =
        (s.gate k').groups ∧
      ((s.setGate k { s.gate k with lanes := (laneFor (s.gate k).lanes context).1 }).gate k').opened =
        (s.gate k').opened ∧
      (s.gate k').lanes <+:
        ((s.setGate k { s.gate k with lanes := (laneFor (s.gate k).lanes context).1 }).gate k').lanes ∧
      ((s.setGate k { s.gate k with lanes := (laneFor (s.gate k).lanes context).1 }).gate k').lanes.Nodup := by
    intro k'
    by_cases hk : k' = k
    · subst hk
      rw [setGate_gate_self]
      exact ⟨rfl, rfl, laneFor_prefix, laneFor_nodup (h.lanes k')⟩
    rw [setGate_gate_of_ne hk]
    exact ⟨rfl, rfl, prefix_rfl, h.lanes k'⟩
  refine ⟨fun k' => (hgate k').2.2.2, fun k' g grp hg => ?_, fun k' g hopen => ?_,
    fun i c g hc hg => ?_, h.alone, fun k' grp hin m hm => ?_⟩
  · rw [(hgate k').1] at hg
    rw [(hgate k').2.1]
    exact h.groups k' g grp hg
  · rw [(hgate k').2.1] at hopen
    rw [(hgate k').1]
    exact h.opened k' g hopen
  · rw [(hgate c.kind).1]
    exact h.grouped i c g hc hg
  · rw [(hgate k').1] at hin
    obtain ⟨c, hc, hlane⟩ := h.orders k' grp hin m hm
    exact ⟨c, hc, getElem?_of_prefix (hgate k').2.2.1 hlane⟩

theorem updateAlone {c : Call} (h : Inv cfg s) (hgate : s'.gate = s.gate)
    (hcalls : ∀ j, j ≠ i → s'.calls[j]? = s.calls[j]?) (hcall : s'.calls[i]? = some c)
    (hg : c.group = none) (hp : c.phase.alone)
    (hbefore : ∀ c', s.calls[i]? = some c' → c'.group = none) : Inv cfg s' := by
  have hphase : ∀ k g, phaseOf s'.calls k g = phaseOf s.calls k g := by
    intro k g
    funext j
    by_cases hj : j = i
    · subst hj
      have hnone : ∀ calls, (∀ c', calls[j]? = some c' → c'.group = none) → phaseOf calls k g j = none := by
        intro calls hcalls
        by_contra hsome
        obtain ⟨p, hp⟩ := ne_none_iff_exists'.mp hsome
        obtain ⟨c', hc', -, hg', -⟩ := of_phaseOf hp
        cases hg'.symm.trans (hcalls c' hc')
      rw [hnone _ hbefore, hnone]
      intro c' hc'
      obtain rfl := mem_unique hcall hc'
      exact hg
    · exact phaseOf_congr (hcalls j hj)
  refine ⟨fun k => hgate ▸ h.lanes k, fun k g grp hgrp => ?_, fun k g hopen => ?_,
    fun j c' g' hj hg' => ?_, fun j c' hj hnone => ?_, fun k grp hin m hm => ?_⟩
  · rw [hphase k g, hgate]
    exact h.groups k g grp (hgate ▸ hgrp)
  · rw [hgate] at hopen ⊢
    exact h.opened k g hopen
  · rw [hgate]
    by_cases hji : j = i
    · subst hji
      obtain rfl := mem_unique hcall hj
      cases hg.symm.trans hg'
    · exact h.grouped j c' g' ((hcalls j hji).symm.trans hj) hg'
  · by_cases hji : j = i
    · subst hji
      obtain rfl := mem_unique hcall hj
      exact hp
    · exact h.alone j c' ((hcalls j hji).symm.trans hj) hnone
  · rw [hgate] at hin ⊢
    obtain ⟨c', hc', hlane⟩ := h.orders k grp hin m hm
    -- `m` is in a group, so it is not call `i`
    have hne : m.call ≠ i := by
      intro heq
      obtain ⟨g, hgrp⟩ := mem_iff_getElem?.mp hin
      obtain ⟨p, hp⟩ := ((h.groups k g grp hgrp).member m.call).mpr (List.mem_map_of_mem hm)
      obtain ⟨c'', hc'', -, hg'', -⟩ := of_phaseOf hp
      exact absurd (hg''.symm.trans (hbefore c'' (heq ▸ hc''))) (by simp)
    exact ⟨c', (hcalls _ hne).trans hc', hlane⟩

theorem appendAlone {c : Call} (h : Inv cfg s) (hg : c.group = none) (hp : c.phase.alone) :
    Inv cfg { s with calls := s.calls ++ [c] } := by
  refine h.updateAlone (i := s.calls.length) rfl (fun j hj => ?_) (by simp) hg hp (by simp)
  exact getElem?_append_singleton_of_ne hj

variable {p : Phase}

section
variable (h : Inv cfg s) (hi : s.calls[i]? = some call) (hg : call.group = some g) (hgrp : (s.gate call.kind).groups[g]? = some grp)
include h hi hg hgrp

theorem turn {grp' : Group} {opened : Option Nat}
    (hopened : ∀ g', g' ≠ g → (opened = some g' ↔ (s.gate call.kind).opened = some g'))
    (hmem : ∀ m ∈ grp'.members, m ∈ grp.members)
    (hok : GroupOk cfg (opened = some g) grp' (Function.update (phaseOf s.calls call.kind g) i (some p))) :
    Inv cfg ((s.setGate call.kind { (s.gate call.kind).putGroup g grp' with opened }).setPhase i call p) := by
  have hlt : g ≤ (s.gate call.kind).groups.length := (lt_of_getElem? hgrp).le
  refine h.update (i := i) (g := g) (k := call.kind) (c := { call with phase := p }) (fun k' hk' => ?_)
    ?_ (fun g' hg' => ?_) ?_ ?_ (fun j hj => ?_) ?_ rfl hg (fun c' hc' => ?_) (fun m hm => .inl ⟨grp, ?_, hmem m hm⟩) ?_
  · rw [setPhase_gate, setGate_gate_of_ne hk']
  · rw [setPhase_gate, setGate_gate_self]
    rfl
  · rw [setPhase_gate, setGate_gate_self]
    exact putGroup_getElem?_of_ne hlt hg'
  · rw [setPhase_gate, setGate_gate_self]
    exact hopened
  · rw [setPhase_gate, setGate_gate_self]
    exact putGroup_getElem?_self hlt
  · exact setPhase_getElem?_of_ne hj
  · exact setPhase_getElem?_self hi
  · obtain rfl := mem_unique hi hc'
    exact ⟨rfl, hg, rfl⟩
  · exact mem_of_getElem? hgrp
  rw [setPhase_gate, setGate_gate_self]
  exact hok

theorem setPhase
    (hok : GroupOk cfg ((s.gate call.kind).opened = some g) grp
      (Function.update (phaseOf s.calls call.kind g) i (some p))) :
    Inv cfg (s.setPhase i call p) := by
  refine h.update (i := i) (g := g) (k := call.kind) (c := { call with phase := p })
    (fun _ _ => rfl) rfl (fun _ _ => rfl) (fun _ _ => Iff.rfl) hgrp
    (fun j hj => setPhase_getElem?_of_ne hj) (setPhase_getElem?_self hi) rfl hg (fun c' hc' => ?_)
    (fun m hm => .inl ⟨grp, mem_of_getElem? hgrp, hm⟩) hok
  obtain rfl := mem_unique hi hc'
  exact ⟨rfl, hg, rfl⟩

end

theorem append {grp' : Group} {opened : Option Nat} {context : Nat} (h : Inv cfg s)
    (hg : g ≤ (s.gate k).groups.length)
    (hopened : ∀ g', g' ≠ g → (opened = some g' ↔ (s.gate k).opened = some g'))
    (hlane : (s.gate k).lanes[order]? = some context)
    (hmem : ∀ m ∈ grp'.members, (∃ grp ∈ (s.gate k).groups, m ∈ grp.members) ∨ m = ⟨s.calls.length, order⟩)
    (hok : GroupOk cfg (opened = some g) grp' (Function.update (phaseOf s.calls k g) s.calls.length (some p))) :
    Inv cfg { s.setGate k { (s.gate k).putGroup g grp' with opened } with
      calls := s.calls ++ [⟨k, context, some g, p⟩] } := by
  have hgate : (s.setGate k { (s.gate k).putGroup g grp' with opened }).gate k =
      { (s.gate k).putGroup g grp' with opened } := setGate_gate_self
  have hgrp : ((s.setGate k { (s.gate k).putGroup g grp' with opened }).gate k).groups[g]? = some grp' := by
    rw [hgate]
    exact putGroup_getElem?_self hg
  refine h.update (i := s.calls.length) (g := g) (k := k) (c := ⟨k, context, some g, p⟩)
    (fun k' hk' => setGate_gate_of_ne hk') ?_ (fun g' hg' => ?_)
    (fun g' hg' => ?_) hgrp (fun j hj => getElem?_append_singleton_of_ne hj) (by simp) rfl rfl (by simp)
    (fun m hm => ?_) ?_
  · simp only [hgate]
    rfl
  · simp only [hgate]
    exact putGroup_getElem?_of_ne hg hg'
  · simp only [hgate]
    exact hopened g' hg'
  · rcases hmem m hm with hold | rfl
    · exact .inl hold
    · exact .inr ⟨rfl, hlane⟩
  simp only [hgate]
  exact hok

end Inv

theorem target_le (cfg : Config) (active : Int) : target cfg active ≤ cfg.maxGroup :=
  min_le_left _ _

theorem two_le_target {active : Int} (h : 2 ≤ active) : 2 ≤ target cfg active := by
  have := cfg.maxGroup_range.1
  unfold target
  omega

theorem phaseOf_length (calls : List Call) : phaseOf calls k g calls.length = none := by
  simp [phaseOf]

namespace Inv

section
variable (h : Inv cfg s)
include h

theorem phaseOf_new : phaseOf s.calls k (s.gate k).groups.length = fun _ => none := by
  funext j
  by_contra hsome
  obtain ⟨p, hp⟩ := ne_none_iff_exists'.mp hsome
  obtain ⟨c, hc, rfl, hg, -⟩ := of_phaseOf hp
  exact absurd (h.grouped j c _ hc hg) (by omega)

theorem join {context : Nat} (hlane : (s.gate k).lanes[order]? = some context)
    (hactive : ¬ (s.active < 2 ∧ (s.gate k).opened = none)) :
    Inv cfg (join cfg s k context order) := by
  unfold BatchedVerify.join
  cases hopen : (s.gate k).opened with
  | none =>
    have hjoined : (s.gate k).joined = ((s.gate k).groups.length, {}) := by
      simp [Gate.joined, hopen]
    have htarget : 2 ≤ target cfg s.active :=
      two_le_target (not_lt.mp fun hlt => hactive ⟨hlt, hopen⟩)
    simp only [hjoined, nil_append, length_singleton]
    rw [if_neg (by omega)]
    refine h.append le_rfl (fun g' hg' => ?_) hlane (fun m hm => .inr (mem_singleton.mp hm)) ?_
    · simp [hopen, hg'.symm]
    rw [h.phaseOf_new, if_pos hopen]
    exact (GroupOk.fresh cfg.maxGroup_range.1).congr (by simp)
  | some g =>
    have hlt := h.opened k g hopen
    obtain ⟨grp, hgrp⟩ : ∃ grp, (s.gate k).groups[g]? = some grp := ⟨_, getElem?_eq_getElem hlt⟩
    have hjoined : (s.gate k).joined = (g, grp) := by
      simp [Gate.joined, hopen, hgrp]
    have hok : GroupOk cfg True grp (phaseOf s.calls k g) := (h.groups k g grp hgrp).congr (by simp [hopen])
    have hmem : ∀ m ∈ grp.members ++ [⟨s.calls.length, order⟩],
        (∃ grp ∈ (s.gate k).groups, m ∈ grp.members) ∨ m = ⟨s.calls.length, order⟩ := by
      intro m hm
      rcases mem_append.mp hm with hm | hm
      · exact .inl ⟨grp, mem_of_getElem? hgrp, hm⟩
      · exact .inr (mem_singleton.mp hm)
    simp only [hjoined, length_append, length_singleton]
    split
    · refine h.append hlt.le (fun g' hg' => ?_) hlane (fun m hm => hmem m ?_)
        (hok.joinClose (phaseOf_length _) (by simp))
      · simp [hopen, hg'.symm]
      · exact (perm_insertionSort _ _).mem_iff.mp hm
    have := target_le cfg s.active
    refine h.append hlt.le (fun g' hg' => ?_) hlane hmem ?_
    · simp [hopen]
    rw [hopen, if_neg (some_ne_none g)]
    exact (hok.join (phaseOf_length _) (by omega)).congr (by simp)

theorem arrive {context : Nat} {failure : Option Exn} : Inv cfg (arrive cfg s k context failure) := by
  unfold BatchedVerify.arrive
  have hreg := h.register (k := k) context
  simp only
  split
  · split
    · exact hreg.appendAlone rfl trivial
    · exact h.appendAlone rfl trivial
  rename_i hactive
  split
  · exact hreg.appendAlone rfl trivial
  refine hreg.join ?_ ?_
  · rw [setGate_gate_self]
    exact laneFor_order
  rw [setGate_gate_self]
  exact hactive

section
variable (hi : s.calls[i]? = some call) (hg : call.group = some g) (hgrp : (s.gate call.kind).groups[g]? = some grp)
include hi hg hgrp

theorem wakeOpener {timeout : Bool}
    (hp : call.phase = .opener) : Inv cfg (wakeOpener cfg s i call g grp timeout) := by
  have hok := h.groups _ g grp hgrp
  have hph := hp ▸ phaseOf_some hi rfl hg
  unfold BatchedVerify.wakeOpener
  simp only
  split
  · rename_i hc
    refine h.setPhase hi hg hgrp (hok.advance hc hph rfl rfl rfl trivial (fun hl hd => ?_)
      (fun _ => rfl) hok.ranPrefix (fun hd => (hok.finished hd).2) (fun j q _ hj => hok.phases j q hj))
    -- the opener of a group that someone else leads
    obtain ⟨l, -, hleads, hlphase⟩ := hok.led hc
    obtain rfl := singleton_inj.mp (hl.symm.trans hleads)
    rw [hph] at hlphase
    simpa using hlphase hd
  split
  · rename_i hc _
    have hc : grp.closed = false := by simpa using hc
    have hopen := hok.isOpen.mpr hc
    refine h.turn hi hg hgrp (fun g' hg' => ?_) (fun m hm => ?_) (hok.closeBy hc hph (by simp))
    · simp [hopen, hg'.symm]
    · exact (perm_insertionSort _ _).mem_iff.mp hm
  · exact h

theorem turnStep {t : Turn} : Inv cfg (BatchedVerify.turn cfg s i call g grp t) := by
  have hok := h.groups _ g grp hgrp
  have hph := phaseOf_some hi rfl hg
  have hphase := hok.phases i _ hph
  unfold BatchedVerify.turn
  cases t with
  | wake timeout =>
    simp only
    split
    · rename_i hp
      exact h.wakeOpener hi hg hgrp hp
    · split
      · rename_i hp hd
        refine h.setPhase hi hg hgrp (hok.advance (hok.finished hd).1 hph rfl rfl rfl ⟨hd, rfl⟩
          (fun _ hd' => by cases hd.symm.trans hd') (fun _ => rfl) hok.ranPrefix
          (fun hd => (hok.finished hd).2) (fun j q _ hj => hok.phases j q hj))
      · exact h
    · exact h
  | plan =>
    simp only
    split
    · rename_i hp
      rw [hp] at hph hphase
      obtain ⟨hc, hd, hl, hr⟩ := hphase
      refine h.setPhase hi hg hgrp (hok.advance hc hph rfl rfl rfl ⟨hc, hd, hl, fun _ => ?_⟩
        (fun _ _ => .inr ⟨_, _, rfl⟩) (fun _ => rfl) hok.ranPrefix
        (fun hd => (hok.finished hd).2) (fun j q _ hj => hok.phases j q hj))
      rw [hr, batches_flatten (hok.sorted hc), nil_append, Group.calls]
    · exact h
  | forward error =>
    simp only
    split
    · rename_i batch rest hp
      rw [hp] at hph hphase
      obtain ⟨hc, hd, hl, hr⟩ := hphase
      have hrun := hr rfl
      rw [flatten_cons, map_append, ← append_assoc] at hrun
      cases error with
      | some e =>
        refine h.setPhase hi hg hgrp (hok.advance hc hph rfl rfl rfl
          ⟨hc, hd, hl, by simp⟩ (fun _ _ => .inr ⟨_, _, rfl⟩) (fun _ => rfl)
          hok.ranPrefix (fun hd => (hok.finished hd).2) (fun j q _ hj => hok.phases j q hj))
      | none =>
        refine h.turn hi hg hgrp (fun _ _ => Iff.rfl) (fun m hm => hm) (hok.advance hc hph rfl rfl rfl
          ⟨hc, hd, hl, fun _ => hrun⟩ (fun _ _ => .inr ⟨_, _, rfl⟩) (fun _ => rfl) ⟨_, hrun⟩
          (fun hd' => by cases hd.symm.trans hd')
          (fun j q hj hq => PhaseOk.other (hok.phases j q hq) hl hj hd))
    · exact h
  | finish =>
    simp only
    split
    · rename_i left error hp
      rw [hp] at hph hphase
      obtain ⟨hc, hd, hl, hr⟩ := hphase
      split
      · rename_i hend
        have hall : error = none → grp.ran = grp.calls := by
          intro hnone
          obtain rfl := hend.resolve_right (fun hne => hne hnone)
          simpa using hr hnone
        refine h.turn hi hg hgrp (fun _ _ => Iff.rfl) (fun m hm => hm) (hok.advance hc hph rfl rfl rfl
          ⟨rfl, rfl⟩ (fun _ hd' => by cases hd') (fun hne => absurd hl hne) hok.ranPrefix
          (fun _ => hall) (fun j q hj hq => PhaseOk.other (hok.phases j q hq) hl hj hd))
      · exact h
    · exact h

end

theorem step (e : Event) : Inv cfg (step cfg s e) := by
  cases e with
  | setActive active => exact ⟨h.lanes, h.groups, h.opened, h.grouped, h.alone, h.orders⟩
  | register context => exact h.register context
  | arrive k context failure => exact h.arrive
  | soloDone i error =>
    simp only [BatchedVerify.step]
    split
    · rename_i call hi
      split
      · rename_i hp
        have hg : call.group = none := by
          by_contra hsome
          obtain ⟨g, hg⟩ := ne_none_iff_exists'.mp hsome
          have hgrp := getElem?_eq_getElem (h.grouped i call g hi hg)
          have hphase := (h.groups _ g _ hgrp).phases i _ (phaseOf_some hi rfl hg)
          rw [hp] at hphase
          exact hphase.elim
        refine h.updateAlone (i := i) rfl (fun j hj => setPhase_getElem?_of_ne hj)
          (setPhase_getElem?_self hi) hg trivial (fun c' hc' => ?_)
        obtain rfl := mem_unique hi hc'
        exact hg
      · exact h
    · exact h
  | turn i t =>
    simp only [BatchedVerify.step]
    split
    · rename_i call hi
      split
      · rename_i g hg
        split
        · rename_i grp hgrp
          exact h.turnStep hi hg hgrp
        · exact h
      · exact h
    · exact h

end

theorem start : Inv cfg {} :=
  ⟨fun _ => nodup_nil, fun _ _ _ hg => by simp at hg, fun _ _ hopen => by simp at hopen,
    fun _ _ _ hc => by simp at hc, fun _ _ hc => by simp at hc, fun _ _ hin => by simp at hin⟩

end Inv

theorem run_inv (cfg : Config) (events : List Event) : Inv cfg (run cfg events) :=
  List.foldlRecOn events _ Inv.start fun _ h e _ => h.step e

/-! ## Closed groups -/

/-- A group that is closed keeps its members and its leader. -/
def Kept (s s' : State) : Prop :=
  ∀ (k : Kind) (g : Nat) (grp : Group), (s.gate k).groups[g]? = some grp → grp.closed = true →
    ∃ grp', (s'.gate k).groups[g]? = some grp' ∧ grp'.closed = true ∧
      grp'.members = grp.members ∧ grp'.leaders = grp.leaders

namespace Kept

theorem of_groups (h : ∀ k, (s'.gate k).groups = (s.gate k).groups) : Kept s s' :=
  fun k g grp hg hc => ⟨grp, by rw [h k]; exact hg, hc, rfl, rfl⟩

theorem refl (s : State) : Kept s s := of_groups fun _ => rfl

theorem trans {s'' : State} (h : Kept s s') (h' : Kept s' s'') : Kept s s'' := by
  intro k g grp hg hc
  obtain ⟨grp', hg', hc', hm', hl'⟩ := h k g grp hg hc
  obtain ⟨grp'', hg'', hc'', hm'', hl''⟩ := h' k g grp' hg' hc'
  exact ⟨grp'', hg'', hc'', hm''.trans hm', hl''.trans hl'⟩

theorem putGroup {grp' : Group} {opened : Option Nat} (hg : g ≤ (s.gate k).groups.length)
    (hgate : s'.gate = (s.setGate k { (s.gate k).putGroup g grp' with opened }).gate)
    (h : ∀ grp, (s.gate k).groups[g]? = some grp → grp.closed = true →
      grp'.closed = true ∧ grp'.members = grp.members ∧ grp'.leaders = grp.leaders) :
    Kept s s' := by
  intro k' g' grp hgrp hc
  rw [hgate]
  by_cases hk : k' = k
  · subst hk
    rw [setGate_gate_self]
    by_cases hg' : g' = g
    · subst hg'
      exact ⟨grp', putGroup_getElem?_self hg, h grp hgrp hc⟩
    · exact ⟨grp, (putGroup_getElem?_of_ne hg hg').trans hgrp, hc, rfl, rfl⟩
  rw [setGate_gate_of_ne hk]
  exact ⟨grp, hgrp, hc, rfl, rfl⟩

theorem join {context : Nat} (h : Inv cfg s) : Kept s (join cfg s k context order) := by
  have hle : (s.gate k).joined.1 ≤ (s.gate k).groups.length := by
    unfold Gate.joined
    split
    · rename_i g hopen
      exact (h.opened k g hopen).le
    · exact le_rfl
  have hnot : ∀ grp, (s.gate k).groups[(s.gate k).joined.1]? = some grp → ¬ grp.closed = true := by
    intro grp hgrp hc
    unfold Gate.joined at hgrp
    split at hgrp
    · rename_i g hopen
      have hfalse := (h.groups k g grp hgrp).isOpen.mp hopen
      cases hfalse.symm.trans hc
    · simp at hgrp
  unfold BatchedVerify.join
  simp only
  split
  · exact putGroup hle rfl fun grp hgrp hc => absurd hc (hnot grp hgrp)
  · exact putGroup hle rfl fun grp hgrp hc => absurd hc (hnot grp hgrp)

theorem arrive {context : Nat} {failure : Option Exn} (h : Inv cfg s) : Kept s (arrive cfg s k context failure) := by
  have hreg : Kept s (s.setGate k { s.gate k with lanes := (laneFor (s.gate k).lanes context).1 }) := by
    refine of_groups fun k' => ?_
    by_cases hk : k' = k
    · subst hk
      rw [setGate_gate_self]
    · rw [setGate_gate_of_ne hk]
  unfold BatchedVerify.arrive
  simp only
  split
  · split
    · exact hreg.trans (of_groups fun _ => rfl)
    · exact of_groups fun _ => rfl
  split
  · exact hreg.trans (of_groups fun _ => rfl)
  · exact hreg.trans (join (h.register context))

theorem turn {t : Turn} (hgrp : (s.gate call.kind).groups[g]? = some grp) : Kept s (turn cfg s i call g grp t) := by
  have hle : g ≤ (s.gate call.kind).groups.length := (lt_of_getElem? hgrp).le
  have hsame : ∀ grp', (s.gate call.kind).groups[g]? = some grp' → grp' = grp :=
    fun grp' hgrp' => mem_unique hgrp' hgrp
  unfold BatchedVerify.turn
  cases t with
  | wake timeout =>
    simp only
    split
    · unfold wakeOpener
      split
      · exact of_groups fun _ => rfl
      rename_i hc
      split
      · refine putGroup hle rfl fun grp' hgrp' hc' => absurd ?_ hc
        exact hsame grp' hgrp' ▸ hc'
      · exact refl s
    · split
      · exact of_groups fun _ => rfl
      · exact refl s
    · exact refl s
  | plan =>
    simp only
    split
    · exact of_groups fun _ => rfl
    · exact refl s
  | forward error =>
    simp only
    split
    · cases error with
      | some e => exact of_groups fun _ => rfl
      | none =>
        refine putGroup hle rfl fun grp' hgrp' hc' => ?_
        obtain rfl := hsame grp' hgrp'
        exact ⟨hc', rfl, rfl⟩
    · exact refl s
  | finish =>
    simp only
    split
    · split
      · refine putGroup hle rfl fun grp' hgrp' hc' => ?_
        obtain rfl := hsame grp' hgrp'
        exact ⟨hc', rfl, rfl⟩
      · exact refl s
    · exact refl s

theorem step (h : Inv cfg s) (e : Event) : Kept s (step cfg s e) := by
  cases e with
  | setActive active => exact of_groups fun _ => rfl
  | register context =>
    refine of_groups fun k => ?_
    by_cases hk : k = .verify
    · subst hk
      simp [BatchedVerify.step]
    simp only [BatchedVerify.step]
    rw [setGate_gate_of_ne hk]
  | arrive k context failure => exact arrive h
  | soloDone i error =>
    simp only [BatchedVerify.step]
    split
    · split
      · exact of_groups fun _ => rfl
      · exact refl s
    · exact refl s
  | turn i t =>
    simp only [BatchedVerify.step]
    split
    · split
      · split
        · rename_i hgrp
          exact turn hgrp
        · exact refl s
      · exact refl s
    · exact refl s

theorem run (events later : List Event) :
    Kept (BatchedVerify.run cfg events) (BatchedVerify.run cfg (events ++ later)) := by
  induction later generalizing events with
  | nil =>
    rw [append_nil]
    exact refl _
  | cons e later ih =>
    have hstep : Kept (BatchedVerify.run cfg events) (BatchedVerify.run cfg (events ++ [e])) := by
      rw [BatchedVerify.run, BatchedVerify.run, foldl_append]
      exact step (run_inv cfg events) e
    rw [append_cons]
    exact hstep.trans (ih _)

end Kept

/-! ## Every run -/

/-- What a group is at any time. Its open time ends at the latest when its opener's wait ends. -/
structure GroupExact (cfg : Config) (s : State) (k : Kind) (g : Nat) (grp : Group) : Prop where
  once : grp.calls.Nodup
  size : 1 ≤ grp.members.length ∧ grp.members.length ≤ cfg.maxGroup
  opened : (s.gate k).opened = some g ↔ grp.closed = false
  led : grp.closed = true → ∃ i ∈ grp.calls, grp.leaders = [i]
  notLed : grp.closed = false → grp.leaders = [] ∧
    ∃ i ∈ grp.calls, ((step cfg s (.turn i (.wake true))).gate k).groups[g]? = some (grp.close i)
  order : ∀ m ∈ grp.members,
    ∃ c, s.calls[m.call]? = some c ∧ (s.gate k).lanes[m.order]? = some c.context
  sorted : grp.closed = true → grp.members.Pairwise fun a b => a.order ≤ b.order
  ran : grp.ran <+: grp.calls
  ranAll : grp.done = true → grp.error = none → grp.ran = grp.calls

theorem step_wake_timeout (hi : s.calls[i]? = some call) (hg : call.group = some g)
    (hgrp : (s.gate call.kind).groups[g]? = some grp) (hp : call.phase = .opener)
    (hc : grp.closed = false) :
    ((step cfg s (.turn i (.wake true))).gate call.kind).groups[g]? = some (grp.close i) := by
  have hle : g ≤ (s.gate call.kind).groups.length := (lt_of_getElem? hgrp).le
  simp only [step, hi, hg, hgrp, turn, hp, wakeOpener, hc, Bool.false_eq_true, if_false, Bool.true_or,
    if_true, setPhase_gate, setGate_gate_self]
  exact putGroup_getElem?_self hle

namespace Inv

theorem groupExact (h : Inv cfg s) (hgrp : (s.gate k).groups[g]? = some grp) : GroupExact cfg s k g grp := by
  have hok := h.groups k g grp hgrp
  refine ⟨hok.once, ⟨length_pos_iff.mpr hok.nonempty, hok.size⟩, hok.isOpen, fun hc => ?_,
    fun hc => ?_, h.orders k grp (mem_of_getElem? hgrp), hok.sorted, hok.ranPrefix,
    fun hd => (hok.finished hd).2⟩
  · obtain ⟨i, hi, hl, -⟩ := hok.led hc
    exact ⟨i, hi, hl⟩
  · obtain ⟨-, hl, -, -, i, hi⟩ := hok.opening hc
    obtain ⟨c, hcall, rfl, hg, hp⟩ := of_phaseOf hi
    exact ⟨hl, i, (hok.member i).mp ⟨_, hi⟩, step_wake_timeout hcall hg hgrp hp hc⟩

theorem inGroup {c : Call} (h : Inv cfg s) (hi : s.calls[i]? = some c) (hg : c.group = some g) :
    ∃! g : Nat, ∃ grp, (s.gate c.kind).groups[g]? = some grp ∧ i ∈ grp.calls := by
  have hgrp := getElem?_eq_getElem (h.grouped i c g hi hg)
  refine ⟨g, ⟨_, hgrp, ((h.groups _ g _ hgrp).member i).mp ⟨_, phaseOf_some hi rfl hg⟩⟩, ?_⟩
  rintro g' ⟨grp', hgrp', hin⟩
  obtain ⟨p, hp⟩ := ((h.groups _ g' _ hgrp').member i).mpr hin
  obtain ⟨c', hc', -, hg', -⟩ := of_phaseOf hp
  obtain rfl := mem_unique hi hc'
  exact mem_unique hg' hg

theorem returned {c : Call} {error : Option Exn} (h : Inv cfg s) (hi : s.calls[i]? = some c)
    (hp : c.phase = .returned error) :
    ∃ (g : Nat) (grp : Group), (s.gate c.kind).groups[g]? = some grp ∧ i ∈ grp.calls ∧ grp.done = true ∧
      error = grp.error := by
  cases hg : c.group with
  | none =>
    have halone := h.alone i c hi hg
    rw [hp] at halone
    exact halone.elim
  | some g =>
    have hgrp := getElem?_eq_getElem (h.grouped i c g hi hg)
    have hok := h.groups _ g _ hgrp
    have hphase := hok.phases i _ (phaseOf_some hi rfl hg)
    rw [hp] at hphase
    exact ⟨g, _, hgrp, (hok.member i).mp ⟨_, phaseOf_some hi rfl hg⟩, hphase.1, hphase.2⟩

end Inv

/-- At both gates, after any steps of any lanes: a call that neither runs alone nor threw on
    arrival is in exactly one group, groups are exact, the open group is not closed, a call
    returns when its group is done and with its error, and closed groups stay as they are. -/
theorem groups_are_exact (cfg : Config) (events : List Event) :
    (∀ (i : Nat) (c : Call), (run cfg events).calls[i]? = some c → c.phase.alone ∨
      ∃! g : Nat, ∃ grp : Group, ((run cfg events).gate c.kind).groups[g]? = some grp ∧ i ∈ grp.calls) ∧
    (∀ (k : Kind) (g : Nat) (grp : Group), ((run cfg events).gate k).groups[g]? = some grp →
      GroupExact cfg (run cfg events) k g grp) ∧
    (∀ (k : Kind) (g : Nat), ((run cfg events).gate k).opened = some g →
      ∃ grp : Group, ((run cfg events).gate k).groups[g]? = some grp ∧ grp.closed = false) ∧
    (∀ (i : Nat) (c : Call) (error : Option Exn), (run cfg events).calls[i]? = some c →
      c.phase = .returned error → ∃ (g : Nat) (grp : Group), ((run cfg events).gate c.kind).groups[g]? = some grp ∧
        i ∈ grp.calls ∧ grp.done = true ∧ error = grp.error) ∧
    ∀ later, Kept (run cfg events) (run cfg (events ++ later)) := by
  have h := run_inv cfg events
  refine ⟨fun i c hi => ?_, fun k g grp hgrp => h.groupExact hgrp, fun k g hopen => ?_,
    fun i c error hi hp => h.returned hi hp, Kept.run events⟩
  · cases hg : c.group with
    | none => exact .inl (h.alone i c hi hg)
    | some g => exact .inr (h.inGroup hi hg)
  · have hgrp := getElem?_eq_getElem (h.opened k g hopen)
    exact ⟨_, hgrp, (h.groups k g _ hgrp).isOpen.mp hopen⟩

/-- Five lanes, of which the first and the last meet: two forwards, and the first one throws. -/
def splitEvents : List Event :=
  [.register 0, .register 1, .register 2, .register 3, .register 4, .setActive true, .setActive true,
    .arrive .verify 0 none, .arrive .verify 4 none, .turn 1 .plan, .turn 1 (.forward (some .badAlloc)),
    .turn 1 .finish, .turn 0 (.wake false)]

/-- The second lane's rows are never run, though its call returned; and a call that cannot record
    its event is in no group. -/
theorem rows_unrun_after_error :
    (∃ grp : Group, ((run ⟨8, 0, 4, by decide⟩ splitEvents).gate .verify).groups[0]? = some grp ∧
      grp.done = true ∧ 1 ∈ grp.calls ∧ grp.ran.count 1 = 0) ∧
    ((run ⟨8, 0, 4, by decide⟩ splitEvents).calls[1]?.map Call.phase = some (.returned (some .badAlloc))) ∧
    (run ⟨8, 0, 4, by decide⟩ [.setActive true, .setActive true,
        .arrive .verify 0 (some (.runtimeError "batched verify arrival: out of memory"))]).calls =
      [⟨.verify, 0, none, .failed (.runtimeError "batched verify arrival: out of memory")⟩] := by
  refine ⟨⟨⟨[⟨0, 0⟩, ⟨1, 4⟩], true, true, some .badAlloc, [1], []⟩, ?_⟩, ?_, ?_⟩
  all_goals decide +kernel

end VoidInfer.Exl3.BatchedVerify
