import VoidInfer.Exl3.BatchedVerify

/-
  What holds of one group of lanes, and of all of them. `GroupOk` says of a group, against the phases of its members,
  who may lead it and what its forwards have run; each step changes one group and one call, and the other groups do not
  see it (`Inv.update`).
-/

namespace VoidInfer.Exl3.BatchedVerify
open List Option Function

open Chunks

variable {cfg : Config} {s s' : State} {grp : Group} {ph : Nat → Option Phase} {k : Kind}
  {i g order : Nat} {call : Call} {opened : Prop}

/-! ## The batches of a forward -/

theorem filter_append_filter_of_sorted {l : List Member} (h : l.Pairwise fun a b => a.order ≤ b.order) :
    (l.filter fun m => m.order < 4) ++ (l.filter fun m => ¬ m.order < 4) = l := by
  induction l with
  | nil => rfl
  | cons m l ih =>
    obtain ⟨hm, hl⟩ := pairwise_cons.mp h
    by_cases h4 : m.order < 4
    · simp only [filter_cons, h4, decide_true, not_true_eq_false, decide_false, if_true,
        Bool.false_eq_true, if_false, cons_append]
      exact congrArg _ (ih hl)
    -- the orders after `m` are not below it either
    have hlow : ∀ a ∈ m :: l, ¬ a.order < 4 := by
      intro a ha
      rcases mem_cons.mp ha with rfl | ha
      · exact h4
      have := hm a ha
      omega
    rw [filter_eq_nil_iff.mpr (by simpa using hlow), nil_append, filter_eq_self.mpr (by simpa using hlow)]

theorem batches_flatten {n : Nat} {members : List Member}
    (h : members.Pairwise fun a b => a.order ≤ b.order) : (batches cfg k n members).flatten = members := by
  unfold batches
  cases k with
  | verify =>
    simp only
    split
    · have hdrop : ∀ ls : List (List Member), (ls.filter fun l => !l.isEmpty).flatten = ls.flatten := by
        intro ls
        induction ls with
        | nil => rfl
        | cons l ls ih =>
          cases l with
          | nil => simpa using ih
          | cons a l => simp [ih]
      rw [hdrop]
      simpa using filter_append_filter_of_sorted h
    · simp
  | draft =>
    simp only
    split
    · simp
    · rw [chunks_flatten, nil_append]

/-! ## One group -/

/-- What a member's phase says about its group. -/
def PhaseOk (grp : Group) (i : Nat) : Phase → Prop
  | .opener | .waiting => True
  | .lead => grp.closed = true ∧ grp.done = false ∧ grp.leaders = [i] ∧ grp.ran = []
  | .forward left error => grp.closed = true ∧ grp.done = false ∧ grp.leaders = [i] ∧
      (error = none → grp.ran ++ left.flatten.map Member.call = grp.calls)
  | .returned error => grp.done = true ∧ error = grp.error
  | .solo | .soloDone _ | .failed _ => False

/-- A group, whether it is the open one, and the phases of the calls in it. -/
structure GroupOk (cfg : Config) (opened : Prop) (grp : Group) (ph : Nat → Option Phase) : Prop where
  member : ∀ i, (∃ p, ph i = some p) ↔ i ∈ grp.calls
  once : grp.calls.Nodup
  nonempty : grp.members ≠ []
  size : grp.members.length ≤ cfg.maxGroup
  isOpen : opened ↔ grp.closed = false
  opening : grp.closed = false → grp.members.length < cfg.maxGroup ∧ grp.leaders = [] ∧
    grp.ran = [] ∧ grp.done = false ∧ ∃ i, ph i = some .opener
  led : grp.closed = true → ∃ i ∈ grp.calls, grp.leaders = [i] ∧
    (grp.done = false → ph i = some .lead ∨ ∃ left error, ph i = some (.forward left error))
  sorted : grp.closed = true → grp.members.Pairwise fun a b => a.order ≤ b.order
  ranPrefix : grp.ran <+: grp.calls
  finished : grp.done = true → grp.closed = true ∧ (grp.error = none → grp.ran = grp.calls)
  phases : ∀ i p, ph i = some p → PhaseOk grp i p

variable {grp' : Group} {j : Nat} {q p : Phase} {c : Call}

theorem PhaseOk.other (h : PhaseOk grp j q)
    (hl : grp.leaders = [i]) (hj : j ≠ i) (hdone : grp.done = false) : PhaseOk grp' j q := by
  match q with
  | .opener => trivial
  | .waiting => trivial
  | .lead => exact absurd (singleton_inj.mp (h.2.2.1.symm.trans hl)) hj
  | .forward _ _ => exact absurd (singleton_inj.mp (h.2.2.1.symm.trans hl)) hj
  | .returned _ => cases hdone.symm.trans h.1
  | .solo => exact h.elim
  | .soloDone _ => exact h.elim
  | .failed _ => exact h.elim

theorem update_some (h : update ph i (some p) j = some q) : j = i ∧ q = p ∨ j ≠ i ∧ ph j = some q := by
  by_cases hj : j = i
  · subst hj
    rw [update_self] at h
    exact .inl ⟨rfl, (some.inj h).symm⟩
  rw [update_of_ne hj] at h
  exact .inr ⟨hj, h⟩

theorem close_calls_perm : (grp.close i).calls.Perm grp.calls :=
  (perm_insertionSort _ _).map _

theorem close_sorted : (grp.close i).members.Pairwise fun a b => a.order ≤ b.order :=
  pairwise_insertionSort _ _

namespace GroupOk

variable {opened' : Prop}

theorem congr (h : GroupOk cfg opened grp ph) (hiff : opened ↔ opened') : GroupOk cfg opened' grp ph :=
  propext hiff ▸ h

variable {p : Phase}

theorem waits (h : GroupOk cfg opened grp ph) (hc : grp.closed = false) {j : Nat}
    (hj : ph j = some p) : p = .opener ∨ p = .waiting := by
  have hp := h.phases j p hj
  have hd := (h.opening hc).2.2.2.1
  match p with
  | .opener => exact .inl rfl
  | .waiting => exact .inr rfl
  | .lead => cases hc.symm.trans hp.1
  | .forward _ _ => cases hc.symm.trans hp.1
  | .returned _ => cases hd.symm.trans hp.1
  | .solo => exact hp.elim
  | .soloDone _ => exact hp.elim
  | .failed _ => exact hp.elim

theorem fresh (hcfg : 1 < cfg.maxGroup) :
    GroupOk cfg True { members := [⟨i, order⟩] } (update (fun _ => none) i (some .opener)) := by
  refine ⟨fun j => ?_, nodup_singleton _, by simp, by simpa using hcfg.le, by simp,
    fun _ => ⟨by simpa using hcfg, rfl, rfl, rfl, i, update_self ..⟩, by simp, by simp,
    nil_prefix, by simp, fun j p hj => ?_⟩
  · constructor
    · rintro ⟨p, hp⟩
      rcases update_some hp with ⟨rfl, -⟩ | ⟨-, hp⟩
      · simp [Group.calls]
      · simp at hp
    · intro hj
      obtain rfl : j = i := by simpa [Group.calls] using hj
      exact ⟨_, update_self ..⟩
  · rcases update_some hj with ⟨-, rfl⟩ | ⟨-, hp⟩
    · trivial
    · simp at hp

theorem member_append (h : GroupOk cfg opened grp ph) (p : Phase) (j : Nat) :
    (∃ q, update ph i (some p) j = some q) ↔
      j ∈ ({ grp with members := grp.members ++ [⟨i, order⟩] } : Group).calls := by
  have hcalls : ({ grp with members := grp.members ++ [⟨i, order⟩] } : Group).calls =
      grp.calls ++ [i] := by simp [Group.calls]
  rw [hcalls, mem_append, mem_singleton]
  by_cases hj : j = i
  · simp [hj]
  rw [update_of_ne hj, h.member j]
  simp [hj]

theorem once_append (h : GroupOk cfg opened grp ph) (hi : ph i = none) :
    ({ grp with members := grp.members ++ [⟨i, order⟩] } : Group).calls.Nodup := by
  have hcalls : ({ grp with members := grp.members ++ [⟨i, order⟩] } : Group).calls =
      grp.calls ++ [i] := by simp [Group.calls]
  have hnot : i ∉ grp.calls := fun hin => by
    obtain ⟨p, hp⟩ := (h.member i).mpr hin
    cases hi.symm.trans hp
  rw [hcalls]
  exact nodup_append.mpr ⟨h.once, by simp, fun a ha b hb heq => by
    obtain rfl := mem_singleton.mp hb
    exact hnot (heq ▸ ha)⟩

theorem join (h : GroupOk cfg True grp ph) (hi : ph i = none) (hsize : grp.members.length + 1 < cfg.maxGroup) :
    GroupOk cfg True { grp with members := grp.members ++ [⟨i, order⟩] } (update ph i (some .waiting)) := by
  have hc : grp.closed = false := h.isOpen.mp trivial
  obtain ⟨-, hl, hr, hd, j, hj⟩ := h.opening hc
  refine ⟨h.member_append _, h.once_append hi, by simp, by simp; omega, by simp [hc],
    fun _ => ⟨by simpa using hsize, hl, hr, hd, j, ?_⟩, fun hc' => absurd (hc.symm.trans hc') (by simp),
    fun hc' => absurd (hc.symm.trans hc') (by simp), ?_, fun hd' => absurd (hd.symm.trans hd') (by simp),
    fun j p hp => ?_⟩
  · rw [update_of_ne (fun heq => ?_), hj]
    cases hi.symm.trans (heq ▸ hj)
  · rw [hr]
    exact nil_prefix
  · rcases update_some hp with ⟨-, rfl⟩ | ⟨-, hp⟩
    · trivial
    · rcases h.waits hc hp with rfl | rfl
      · trivial
      · trivial

theorem close (hmember : ∀ j, (∃ p, ph j = some p) ↔ j ∈ grp.calls)
    (honce : grp.calls.Nodup) (hsize : grp.members.length ≤ cfg.maxGroup) (hopen : ¬ opened')
    (hl : grp.leaders = []) (hr : grp.ran = []) (hd : grp.done = false) (hi : ph i = some .lead)
    (hph : ∀ j p, j ≠ i → ph j = some p → p = .opener ∨ p = .waiting) :
    GroupOk cfg opened' (grp.close i) ph := by
  have hperm : (grp.close i).calls.Perm grp.calls := close_calls_perm
  have hmem : i ∈ grp.calls := (hmember i).mp ⟨_, hi⟩
  have hlen : (grp.close i).members.length = grp.members.length :=
    (perm_insertionSort _ _).length_eq
  have hl' : (grp.close i).leaders = [i] := by simp [Group.close, hl]
  refine ⟨fun j => ?_, hperm.nodup_iff.mpr honce, fun hnil => ?_, by omega, ?_,
    fun hc' => absurd hc' (by simp [Group.close]), fun _ => ⟨i, hperm.mem_iff.mpr hmem, hl', fun _ => .inl hi⟩,
    fun _ => close_sorted, ?_, fun hd' => absurd (hd.symm.trans hd') (by simp), fun j p hj => ?_⟩
  · rw [hperm.mem_iff]
    exact hmember j
  · have : grp.calls = [] := by
      rw [← perm_nil]
      refine hperm.symm.trans ?_
      simp [Group.calls, hnil]
    rw [this] at hmem
    simp at hmem
  · simp [Group.close, hopen]
  · show grp.ran <+: _
    rw [hr]
    exact nil_prefix
  · by_cases hji : j = i
    · subst hji
      obtain rfl := mem_unique hi hj
      exact ⟨rfl, hd, hl', hr⟩
    · rcases hph j p hji hj with rfl | rfl
      · trivial
      · trivial

theorem joinClose (h : GroupOk cfg True grp ph) (hi : ph i = none) (hopen : ¬ opened') :
    GroupOk cfg opened' (({ grp with members := grp.members ++ [⟨i, order⟩] } : Group).close i)
      (update ph i (some .lead)) := by
  have hc : grp.closed = false := h.isOpen.mp trivial
  obtain ⟨hsize, hl, hr, hd, -⟩ := h.opening hc
  refine close (h.member_append _) (h.once_append hi) (by simp; omega) hopen hl hr hd
    (update_self ..) fun j p hj hp => ?_
  rw [update_of_ne hj] at hp
  exact h.waits hc hp

theorem closeBy (h : GroupOk cfg opened grp ph) (hc : grp.closed = false)
    (hi : ph i = some .opener) (hopen : ¬ opened') :
    GroupOk cfg opened' (grp.close i) (update ph i (some .lead)) := by
  obtain ⟨hsize, hl, hr, hd, -⟩ := h.opening hc
  refine close (fun j => ?_) h.once h.size hopen hl hr hd (update_self ..) fun j p hj hp => ?_
  · rw [← h.member j]
    by_cases hj : j = i
    · subst hj
      simp [hi]
    · rw [update_of_ne hj]
  rw [update_of_ne hj] at hp
  exact h.waits hc hp

theorem advance {grp' : Group} {p' : Phase} (h : GroupOk cfg opened grp ph) (hc : grp.closed = true)
    (hi : ph i = some p) (hmembers : grp'.members = grp.members) (hclosed : grp'.closed = grp.closed)
    (hleaders : grp'.leaders = grp.leaders) (hp' : PhaseOk grp' i p')
    (hled : grp.leaders = [i] → grp'.done = false → p' = .lead ∨ ∃ left error, p' = .forward left error)
    (hdone : grp.leaders ≠ [i] → grp'.done = grp.done)
    (hran : grp'.ran <+: grp'.calls)
    (hfinished : grp'.done = true → grp'.error = none → grp'.ran = grp'.calls)
    (hothers : ∀ j q, j ≠ i → ph j = some q → PhaseOk grp' j q) :
    GroupOk cfg opened grp' (update ph i (some p')) := by
  have hcalls : grp'.calls = grp.calls := by rw [Group.calls, Group.calls, hmembers]
  have hmem : ∀ j, (∃ q, update ph i (some p') j = some q) ↔ ∃ q, ph j = some q := by
    intro j
    by_cases hj : j = i
    · subst hj
      simp [hi]
    · rw [update_of_ne hj]
  refine ⟨fun j => ?_, hcalls ▸ h.once, hmembers ▸ h.nonempty, hmembers ▸ h.size,
    by rw [hclosed]; exact h.isOpen, fun hc' => ?_, fun _ => ?_,
    fun _ => hmembers ▸ h.sorted hc, hran, fun hd => ⟨hclosed.trans hc, hfinished hd⟩,
    fun j q hj => ?_⟩
  · rw [hmem j, hcalls]
    exact h.member j
  · rw [hclosed] at hc'
    cases hc.symm.trans hc'
  · obtain ⟨l, hl, hleads, hlphase⟩ := h.led hc
    refine ⟨l, hcalls ▸ hl, hleaders.trans hleads, fun hd => ?_⟩
    by_cases hli : l = i
    · subst hli
      rw [update_self]
      rcases hled hleads hd with rfl | ⟨left, error, rfl⟩
      · exact .inl rfl
      · exact .inr ⟨left, error, rfl⟩
    rw [update_of_ne hli]
    refine hlphase ((hdone fun heq => hli ?_).symm.trans hd)
    rw [hleads] at heq
    exact singleton_inj.mp heq
  · rcases update_some hj with ⟨rfl, rfl⟩ | ⟨hne, hj⟩
    · exact hp'
    · exact hothers j q hne hj

end GroupOk

/-! ## The state -/

/-- The phase of call `i`, if it is in group `g` of gate `k`. -/
def phaseOf (calls : List Call) (k : Kind) (g i : Nat) : Option Phase :=
  calls[i]?.bind fun c => if c.kind = k ∧ c.group = some g then some c.phase else none

/-- A call in no group. -/
def Phase.alone : Phase → Prop
  | .solo | .soloDone _ | .failed _ => True
  | _ => False

structure Inv (cfg : Config) (s : State) : Prop where
  lanes : ∀ k, (s.gate k).lanes.Nodup
  groups : ∀ k g grp, (s.gate k).groups[g]? = some grp →
    GroupOk cfg ((s.gate k).opened = some g) grp (phaseOf s.calls k g)
  opened : ∀ k g, (s.gate k).opened = some g → g < (s.gate k).groups.length
  grouped : ∀ (i : Nat) (c : Call) (g : Nat), s.calls[i]? = some c → c.group = some g →
    g < (s.gate c.kind).groups.length
  alone : ∀ (i : Nat) (c : Call), s.calls[i]? = some c → c.group = none → c.phase.alone
  orders : ∀ k, ∀ grp ∈ (s.gate k).groups, ∀ m ∈ grp.members,
    ∃ c, s.calls[m.call]? = some c ∧ (s.gate k).lanes[m.order]? = some c.context

variable {calls : List Call}

theorem phaseOf_some (hi : calls[i]? = some c) (hk : c.kind = k)
    (hg : c.group = some g) : phaseOf calls k g i = some c.phase := by
  simp [phaseOf, hi, hk, hg]

theorem of_phaseOf (h : phaseOf calls k g i = some p) :
    ∃ c, calls[i]? = some c ∧ c.kind = k ∧ c.group = some g ∧ c.phase = p := by
  obtain ⟨c, hc, hp⟩ := bind_eq_some_iff.mp h
  split at hp
  · rename_i hkg
    exact ⟨c, hc, hkg.1, hkg.2, some.inj hp⟩
  · simp at hp

theorem phaseOf_congr {calls' : List Call} (h : calls'[i]? = calls[i]?) :
    phaseOf calls' k g i = phaseOf calls k g i := by
  rw [phaseOf, phaseOf, h]

theorem phaseOf_of_not {g' : Nat} {k' : Kind}
    (h : ∀ c, calls[i]? = some c → c.kind = k ∧ c.group = some g) (hne : ¬ (k' = k ∧ g' = g)) :
    phaseOf calls k' g' i = none := by
  by_contra hsome
  obtain ⟨p, hp⟩ := ne_none_iff_exists'.mp hsome
  obtain ⟨c, hc, hk, hg, -⟩ := of_phaseOf hp
  obtain ⟨hk', hg'⟩ := h c hc
  exact hne ⟨hk.symm.trans hk', mem_unique hg hg'⟩

/-- A step of call `c`, number `i`, in group `g` of gate `k`: the rest of the state does not see it. -/
theorem Inv.update (h : Inv cfg s) (hother : ∀ k', k' ≠ k → s'.gate k' = s.gate k')
    (hlanes : (s'.gate k).lanes = (s.gate k).lanes)
    (hgroups : ∀ g', g' ≠ g → (s'.gate k).groups[g']? = (s.gate k).groups[g']?)
    (hopened : ∀ g', g' ≠ g → ((s'.gate k).opened = some g' ↔ (s.gate k).opened = some g'))
    (hgrp : (s'.gate k).groups[g]? = some grp')
    (hcalls : ∀ j, j ≠ i → s'.calls[j]? = s.calls[j]?)
    (hcall : s'.calls[i]? = some c) (hk : c.kind = k) (hg : c.group = some g)
    (hbefore : ∀ c', s.calls[i]? = some c' → c'.kind = k ∧ c'.group = some g ∧ c'.context = c.context)
    (hmem : ∀ m ∈ grp'.members, (∃ grp ∈ (s.gate k).groups, m ∈ grp.members) ∨
      m.call = i ∧ (s.gate k).lanes[m.order]? = some c.context)
    (hok : GroupOk cfg ((s'.gate k).opened = some g) grp'
      (update (phaseOf s.calls k g) i (some c.phase))) : Inv cfg s' := by
  have hphase : ∀ k' g', ¬ (k' = k ∧ g' = g) → phaseOf s'.calls k' g' = phaseOf s.calls k' g' := by
    intro k' g' hne
    funext j
    by_cases hj : j = i
    · subst hj
      rw [phaseOf_of_not (fun c' hc' => ?_) hne,
        phaseOf_of_not (fun c' hc' => ⟨(hbefore c' hc').1, (hbefore c' hc').2.1⟩) hne]
      obtain rfl := mem_unique hcall hc'
      exact ⟨hk, hg⟩
    · exact phaseOf_congr (hcalls j hj)
  have hphase_self : phaseOf s'.calls k g = Function.update (phaseOf s.calls k g) i (some c.phase) := by
    funext j
    by_cases hj : j = i
    · subst hj
      rw [update_self]
      exact phaseOf_some hcall hk hg
    rw [update_of_ne hj]
    exact phaseOf_congr (hcalls j hj)
  have hlen : ∀ k' g', g' < (s.gate k').groups.length → g' < (s'.gate k').groups.length := by
    intro k' g' hlt
    by_cases hk' : k' = k
    · subst hk'
      by_cases hg' : g' = g
      · exact hg' ▸ (lt_of_getElem? hgrp)
      have hsome := hgroups g' hg'
      rw [getElem?_eq_getElem hlt] at hsome
      exact lt_of_getElem? hsome
    · rwa [hother k' hk']
  have hgrplen : g < (s'.gate k).groups.length := lt_of_getElem? hgrp
  -- a member of the changed state is one of the old state, or call `i`
  have hkept : ∀ k', ∀ m, (∃ grp ∈ (s.gate k').groups, m ∈ grp.members) →
      ∃ c', s'.calls[m.call]? = some c' ∧ (s'.gate k').lanes[m.order]? = some c'.context := by
    rintro k' m ⟨grp, hin, hm⟩
    obtain ⟨c', hc', hlane⟩ := h.orders k' grp hin m hm
    have hlanes' : (s'.gate k').lanes = (s.gate k').lanes := by
      by_cases hk' : k' = k
      · rw [hk', hlanes]
      · rw [hother k' hk']
    rw [hlanes']
    by_cases hj : m.call = i
    · exact ⟨c, hj ▸ hcall, (hbefore c' (hj ▸ hc')).2.2 ▸ hlane⟩
    · exact ⟨c', (hcalls _ hj).trans hc', hlane⟩
  refine ⟨fun k' => ?_, fun k' g' grp hg' => ?_, fun k' g' hopen => ?_, fun j c' g' hj hg' => ?_,
    fun j c' hj hnone => ?_, fun k' grp hin m hm => ?_⟩
  · by_cases hk' : k' = k
    · rw [hk', hlanes]
      exact h.lanes k
    · rw [hother k' hk']
      exact h.lanes k'
  · by_cases hk' : k' = k
    · subst hk'
      by_cases hgg : g' = g
      · subst hgg
        obtain rfl := mem_unique hgrp hg'
        rw [hphase_self]
        exact hok
      rw [hphase k' g' (fun hne => hgg hne.2), hopened g' hgg]
      exact h.groups k' g' grp ((hgroups g' hgg).symm.trans hg')
    · rw [hphase k' g' (fun hne => hk' hne.1)]
      rw [hother k' hk'] at hg' ⊢
      exact h.groups k' g' grp hg'
  · by_cases hk' : k' = k
    · subst hk'
      by_cases hgg : g' = g
      · exact hgg ▸ hgrplen
      · exact hlen k' g' (h.opened k' g' ((hopened g' hgg).mp hopen))
    · rw [hother k' hk'] at hopen ⊢
      exact h.opened k' g' hopen
  · by_cases hji : j = i
    · subst hji
      obtain rfl := mem_unique hcall hj
      obtain rfl := mem_unique hg hg'
      rw [hk]
      exact hgrplen
    · exact hlen _ _ (h.grouped j c' g' ((hcalls j hji).symm.trans hj) hg')
  · by_cases hji : j = i
    · subst hji
      obtain rfl := mem_unique hcall hj
      cases hg.symm.trans hnone
    · exact h.alone j c' ((hcalls j hji).symm.trans hj) hnone
  · by_cases hk' : k' = k
    · subst hk'
      obtain ⟨g', hg'⟩ := mem_iff_getElem?.mp hin
      by_cases hgg : g' = g
      · subst hgg
        obtain rfl := mem_unique hgrp hg'
        rcases hmem m hm with hold | ⟨hmi, hlane⟩
        · exact hkept k' m hold
        · exact ⟨c, hmi ▸ hcall, hlanes ▸ hlane⟩
      · exact hkept k' m ⟨grp, mem_of_getElem? ((hgroups g' hgg).symm.trans hg'), hm⟩
    · exact hkept k' m ⟨grp, hother k' hk' ▸ hin, hm⟩

end VoidInfer.Exl3.BatchedVerify
