import VoidInfer.Exl3.CompletionEventPool

/-
  What every run of the pool keeps. `Effect` says what an operation can do to the slots; the invariant follows from it,
  and the rest from the invariant. Only an acquisition after the device was drained takes a slot whose last use is not
  settled.
-/

namespace VoidInfer.Exl3.CompletionEventPool
open List Option ListUpdate

open Throwing

variable {h : History} {op : Op}

/-! ## Effects -/

/-- How a ticket's slot changes. -/
inductive Move (h : History) (op : Op) (slot : Slot) : Slot → Prop
  | submitted (finalUse : FinalUseWitness) (hphase : slot.phase = .acquired)
      (hsubmits : op.submits h.pool = some slot.generation) (hreports : op.reports h.pool = none) :
      Move h op slot { slot with finalUse, finalUseGeneration := finalUse.generation, phase := .pending }
  | refused (hphase : slot.phase = .acquired) (hsubmits : op.submits h.pool = some slot.generation)
      (hreports : op.reports h.pool = none) : Move h op slot { slot with phase := .failed }
  | failed (finalUse : FinalUseWitness) {error : Int} (hphase : slot.phase = .pending) (herror : finalUse.error ≠ 0)
      (hne : error ≠ 0) (hsubmits : op.submits h.pool = none)
      (hreports : op.reports h.pool = some (slot.generation, error)) :
      Move h op slot { slot with finalUse, phase := .failed }
  | completed (finalUse : FinalUseWitness) (hphase : slot.phase = .pending) (hsubmits : op.submits h.pool = none)
      (hreports : op.reports h.pool = some (slot.generation, 0)) :
      Move h op slot { slot with finalUse, phase := .ready }
  | completedCancelled (finalUse : FinalUseWitness) (hphase : slot.phase = .pending)
      (hsubmits : op.submits h.pool = none) (hreports : op.reports h.pool = some (slot.generation, 0)) :
      Move h op slot { slot with finalUse }.retire
  | flagged (hphase : slot.phase = .pending) (hsubmits : op.submits h.pool = none)
      (hreports : op.reports h.pool = none) : Move h op slot { slot with cancelled := true }
  | retired (hphase : slot.phase = .acquired ∨ slot.phase = .ready) (hsubmits : op.submits h.pool = none)
      (hreports : op.reports h.pool = none) : Move h op slot slot.retire

/-- What an operation does: the ticket handed out and the pool. -/
inductive Effect (h : History) (op : Op) : Option Ticket → Pool → Prop
  | same (hsubmits : op.submits h.pool = none) (hreports : op.reports h.pool = none) (hdrain : op.isDrain = false) :
      Effect h op none h.pool
  | configured {events : List Nat} {authorityGeneration : Nat} (hempty : h.pool.slots = []) (hnodup : events.Nodup)
      (hsubmits : op.submits h.pool = none) (hreports : op.reports h.pool = none) (hdrain : op.isDrain = false) :
      Effect h op none { h.pool with
        slots := events.map fun event => { event, phase := .retired }, authorityGeneration }
  | acquired {i : Nat} {slot : Slot} {acquisition execution retirementGeneration owner : Nat}
      (hi : h.pool.slots[i]? = some slot) (hphase : slot.phase = .retired)
      (hop : op = .acquire acquisition execution retirementGeneration (some owner)) (hquiet : Quiet h op → h.drained = false) :
      Effect h op
        (some { slot := i, authorityGeneration := h.pool.authorityGeneration, generation := h.pool.nextGeneration + 1
                acquisition, execution, retirementGeneration, event := slot.event })
        { h.pool with
          nextGeneration := h.pool.nextGeneration + 1
          slots := h.pool.slots.set i
            (slot.take (h.pool.nextGeneration + 1) acquisition execution retirementGeneration (some owner)) }
  | moved {i : Nat} {slot slot' : Slot} (hi : h.pool.slots[i]? = some slot) (hmove : Move h op slot slot')
      (hdrain : op.isDrain = false) :
      Effect h op none { h.pool with slots := h.pool.slots.set i slot' }
  | drained (hop : op = .drain) :
      Effect h op none { h.pool with
        slots := h.pool.slots.map fun slot =>
          { slot with owner := none, phase := if slot.phase = .unavailable then .unavailable else .retired } }

variable {pool : Pool} {ticket : Ticket} {slot slot' : Slot} {i : Nat}

theorem matchAny_some (hmatch : matchAny pool ticket = some slot) :
    pool.slots[ticket.slot]? = some slot ∧ slot.generation = ticket.generation := by
  obtain ⟨hslot, hsame⟩ := filter_eq_some_iff.mp hmatch
  simp only [Bool.and_eq_true, beq_iff_eq] at hsame
  exact ⟨hslot, hsame.1.1.1.1.2⟩

theorem matchPhase_some {phase : Phase} (hmatch : matchPhase pool ticket phase = some slot) :
    pool.slots[ticket.slot]? = some slot ∧ slot.generation = ticket.generation ∧ slot.phase = phase := by
  obtain ⟨hany, hphase⟩ := filter_eq_some_iff.mp hmatch
  obtain ⟨hslot, hgeneration⟩ := matchAny_some hany
  exact ⟨hslot, hgeneration, by simpa using hphase⟩

variable {error : Int} {events : List Nat} {slots : List Slot}
  {g acquisition execution retirementGeneration : Nat} {t : Ticket × Nat}

theorem notifies_some {event : Nat}
    {finalUse : FinalUseWitness} (hsome : notifies pool ticket event error = some (slot, finalUse)) :
    matchPhase pool ticket .pending = some slot ∧ (error ≠ 0 → finalUse.error ≠ 0) := by
  obtain ⟨slot', hmatch, hsome⟩ := bind_eq_some_iff.mp hsome
  split at hsome
  · simp at hsome
  obtain ⟨finalUse', hfinish, hpair⟩ := map_eq_some_iff.mp hsome
  cases hpair
  refine ⟨hmatch, fun hne => ?_⟩
  unfold FinalUseWitness.finish at hfinish
  split at hfinish
  · simp at hfinish
  cases hfinish
  exact hne

theorem checkEvents_ok {earlier : List Nat} (hok : checkEvents earlier events = .ok ()) (hearlier : earlier.Nodup) :
    (earlier ++ events).Nodup := by
  induction events generalizing earlier with
  | nil => simpa using hearlier
  | cons event events ih =>
    obtain ⟨_, -, hok⟩ := bind_ok hok
    obtain ⟨hnew, hok⟩ := check_ok hok
    have hnext : (earlier ++ [event]).Nodup := by
      rw [nodup_append]
      refine ⟨hearlier, nodup_singleton _, ?_⟩
      intro a ha b hb hab
      rw [mem_singleton.mp hb] at hab
      exact hnew (hab ▸ ha)
    simpa using ih hok hnext

theorem findIdx_some {p : Slot → Bool}
    (hfind : ((slots.findIdx? p).bind fun i => (slots[i]?).map fun slot => (i, slot)) = some (i, slot)) :
    slots[i]? = some slot ∧ p slot = true := by
  obtain ⟨j, hj, hmap⟩ := bind_eq_some_iff.mp hfind
  obtain ⟨slot', hslot, hpair⟩ := map_eq_some_iff.mp hmap
  cases hpair
  obtain ⟨hlt, hp, -⟩ := findIdx?_eq_some_iff_getElem.mp hj
  rw [getElem?_eq_getElem hlt] at hslot
  cases hslot
  exact ⟨getElem?_eq_getElem hlt, hp⟩

theorem apply_of_wp {P : Option Ticket → Pool → Prop} (hwp : wp op.run P (fun _ => P none) pool) :
    P (op.apply pool).1 (op.apply pool).2 := by
  unfold wp at hwp
  unfold Op.apply
  split at hwp
  · next heq =>
    rw [heq]
    exact hwp
  next heq =>
  rw [heq]
  exact hwp

theorem acquire_effect (acquisition execution retirementGeneration : Nat) (owner : Option Nat)
    (hop : op = .acquire acquisition execution retirementGeneration owner) :
    wp (acquire acquisition execution retirementGeneration owner) (Effect h op) (fun _ => Effect h op none) h.pool := by
  have hsame : Effect h op none h.pool := by
    subst hop
    exact .same rfl rfl rfl
  unfold acquire
  rw [wp_get_bind]
  rw [wp_bind, wp_ofExcept]
  refine ⟨fun _ hscope => ?_, fun _ _ => hsame⟩
  rw [wp_bind, wp_ofExcept]
  refine ⟨fun _ hleft => ?_, fun _ _ => hsame⟩
  have hscope := throwIf_ok.mp hscope
  have hleft := throwIf_ok.mp hleft
  split
  · exact hsame
  next i slot hfind =>
  obtain ⟨hi, hretired⟩ := findIdx_some hfind
  cases owner with
  | none => exact absurd (.inr (.inr (.inr (.inr (.inr rfl))))) hscope
  | some owner =>
    refine .acquired hi (by simpa using hretired) hop fun hquiet => ?_
    by_contra hdrained
    rcases hquiet (by simpa using hdrained) _ _ _ _ hop with hbad | hexhausted
    · exact hscope hbad
    · exact hleft hexhausted

theorem submit_effect (ticket : Ticket) (hop : op = .submit ticket) :
    wp (submit ticket) (fun _ => Effect h op none) (fun _ => Effect h op none) h.pool := by
  subst hop
  unfold submit
  rw [wp_get_bind]
  split
  · next hnone =>
    exact .same (by simp [Op.submits, hnone]) rfl rfl
  next slot hmatch =>
  obtain ⟨hi, hgeneration, hphase⟩ := matchPhase_some hmatch
  have hsubmits : Op.submits h.pool (.submit ticket) = some slot.generation := by
    simp [Op.submits, hmatch, hgeneration]
  split
  · exact .moved hi (.refused hphase hsubmits rfl) rfl
  exact .moved hi (.submitted _ hphase hsubmits rfl) rfl

theorem notify_effect (ticket : Ticket) (event : Nat) (error : Int) (hop : op = .notify ticket event error) :
    wp (notify ticket event error) (fun _ => Effect h op none) (fun _ => Effect h op none) h.pool := by
  subst hop
  unfold notify
  rw [wp_get_bind]
  split
  · next hnone =>
    exact .same rfl (by simp [Op.reports, hnone]) rfl
  next slot finalUse hsome =>
  obtain ⟨hmatch, herror⟩ := notifies_some hsome
  obtain ⟨hi, hgeneration, hphase⟩ := matchPhase_some hmatch
  have hreports : Op.reports h.pool (.notify ticket event error) = some (slot.generation, error) := by
    simp [Op.reports, hsome, hgeneration]
  split
  · next hne =>
    exact .moved hi (.failed finalUse hphase (herror hne) hne rfl hreports) rfl
  next hzero =>
  have hzero : error = 0 := by simpa using hzero
  subst hzero
  split
  · exact .moved hi (.completedCancelled finalUse hphase rfl hreports) rfl
  · exact .moved hi (.completed finalUse hphase rfl hreports) rfl

theorem cancel_effect (ticket : Ticket) (hop : op = .cancel ticket) :
    wp (cancel ticket) (fun _ => Effect h op none) (fun _ => Effect h op none) h.pool := by
  subst hop
  unfold cancel
  rw [wp_get_bind]
  split
  · exact .same rfl rfl rfl
  next slot hmatch =>
  obtain ⟨hi, -⟩ := matchAny_some hmatch
  split
  · next hphase =>
    exact .moved hi (.retired (.inl hphase) rfl rfl) rfl
  · next hphase =>
    exact .moved hi (.retired (.inr hphase) rfl rfl) rfl
  · next hphase =>
    exact .moved hi (.flagged hphase rfl rfl) rfl
  exact .same rfl rfl rfl

theorem retire_effect (generation : Nat) (hop : op = .retire generation) :
    wp (retire generation) (fun _ => Effect h op none) (fun _ => Effect h op none) h.pool := by
  subst hop
  unfold retire
  rw [wp_get_bind]
  split
  · exact .same rfl rfl rfl
  next i slot hfind =>
  split
  · next hready =>
    exact .moved (findIdx_some hfind).1 (.retired (.inr hready.1) rfl rfl) rfl
  exact .same rfl rfl rfl

variable (h op) in
theorem op_effect : Effect h op (op.apply h.pool).1 (op.apply h.pool).2 := by
  apply apply_of_wp
  cases op with simp only [Op.run, wp_bind, wp_discard, wp_pure]
  | configure events authorityGeneration =>
    unfold configure
    rw [wp_get_bind]
    rw [wp_bind, wp_ofExcept]
    refine ⟨fun _ hgood => ?_, fun _ _ => .same rfl rfl rfl⟩
    rw [wp_bind, wp_ofExcept]
    refine ⟨fun _ hevents => ?_, fun _ _ => .same rfl rfl rfl⟩
    have hgood := throwIf_ok.mp hgood
    have hempty : h.pool.slots = [] := by
      by_contra hne
      exact hgood (.inl hne)
    rw [wp_set]
    refine .configured hempty ?_ rfl rfl rfl
    simpa using checkEvents_ok hevents nodup_nil
  | acquire acquisition execution retirementGeneration owner =>
    exact acquire_effect acquisition execution retirementGeneration owner rfl
  | submit ticket =>
    exact submit_effect ticket rfl
  | notify ticket event error =>
    exact notify_effect ticket event error rfl
  | cancel ticket =>
    exact cancel_effect ticket rfl
  | retire generation =>
    exact retire_effect generation rfl
  | drain =>
    unfold retireAllAfterDeviceDrain
    rw [wp_modify]
    exact .drained rfl

/-! ## The invariant -/

structure Inv (h : History) : Prop where
  available : ∀ (i : Nat) (slot : Slot), h.pool.slots[i]? = some slot → slot.phase ≠ .unavailable
  bound : ∀ (i : Nat) (slot : Slot), h.pool.slots[i]? = some slot → slot.generation ≤ h.pool.nextGeneration
  events : ∀ (i j : Nat) (a b : Slot), h.pool.slots[i]? = some a → h.pool.slots[j]? = some b → a.event = b.event → i = j
  /-- A ticket names a slot with its event. While the slot is the ticket's, it keeps the owner. -/
  tickets : ∀ t ∈ h.tickets, t.1.generation ≤ h.pool.nextGeneration ∧
    ∃ slot, h.pool.slots[t.1.slot]? = some slot ∧ slot.event = t.1.event ∧
      (slot.generation = t.1.generation → slot.phase ≠ .retired → slot.owner = some t.2)
  /-- No other slot has the ticket's generation. -/
  unique : ∀ t ∈ h.tickets, ∀ (j : Nat) (slot : Slot), h.pool.slots[j]? = some slot →
    slot.generation = t.1.generation → j = t.1.slot
  /-- A use that is submitted and not notified holds its slot. -/
  submitted : h.drained = false → ∀ g ∈ h.submitted, (g, 0) ∈ h.notified ∨
    ∃ (i : Nat) (slot : Slot), h.pool.slots[i]? = some slot ∧ slot.generation = g ∧
      (slot.phase = .pending ∨ slot.phase = .failed)
  /-- A slot with an error keeps it, and is failed until the drain. -/
  failures : ∀ g error, error ≠ 0 → (g, error) ∈ h.notified →
    ∃ (i : Nat) (slot : Slot), h.pool.slots[i]? = some slot ∧ slot.generation = g ∧ slot.finalUse.error ≠ 0 ∧
      (h.drained = false → slot.phase = .failed)
  quiet : h.drained = true → ∀ (i : Nat) (slot : Slot), h.pool.slots[i]? = some slot → slot.phase = .retired

section
variable (hmove : Move h op slot slot')
include hmove

theorem Move.keeps :
    slot'.generation = slot.generation ∧ slot'.event = slot.event ∧ slot'.phase ≠ .unavailable ∧
      slot.phase ≠ .retired ∧ slot.phase ≠ .failed ∧ (slot'.phase ≠ .retired → slot'.owner = slot.owner) := by
  cases hmove with
  | retired hphase =>
    refine ⟨rfl, rfl, by simp [Slot.retire], ?_, ?_, by simp [Slot.retire]⟩
    · rcases hphase with hphase | hphase <;> simp [hphase]
    · rcases hphase with hphase | hphase <;> simp [hphase]
  | submitted _ hphase | refused hphase | failed _ hphase | completed _ hphase | completedCancelled _ hphase
  | flagged hphase => simp [hphase, Slot.retire]

theorem Move.ofPending (hphase : slot.phase = .pending) :
    op.reports h.pool = some (slot.generation, 0) ∨ slot'.phase = .pending ∨ slot'.phase = .failed := by
  cases hmove with
  | completed _ _ _ hreports | completedCancelled _ _ _ hreports => exact .inl hreports
  | failed => exact .inr (.inr rfl)
  | flagged => exact .inr (.inl hphase)
  | submitted | refused => simp_all
  | retired hother => rcases hother with hother | hother <;> simp [hphase] at hother

theorem Move.ofSubmits
    (hsubmits : op.submits h.pool = some g) : slot.generation = g ∧ (slot'.phase = .pending ∨ slot'.phase = .failed) := by
  cases hmove <;> simp_all

theorem Move.ofError (hne : error ≠ 0) (hreports : op.reports h.pool = some (g, error)) :
    slot.generation = g ∧ slot'.finalUse.error ≠ 0 ∧ slot'.phase = .failed := by
  cases hmove <;> simp_all

end

theorem step_notified : (step h op).notified = h.notified ++ (op.reports h.pool).toList := rfl

theorem slot_set (slot' : Slot) {j : Nat} {other : Slot} (hi : slots[i]? = some slot) (hj : slots[j]? = some other) :
    ∃ other', (slots.set i slot')[j]? = some other' ∧ ((j = i ∧ other = slot ∧ other' = slot') ∨ (j ≠ i ∧ other' = other)) := by
  by_cases hij : j = i
  · subst hij
    obtain rfl := mem_unique hi hj
    refine ⟨slot', ?_, .inl ⟨rfl, rfl, rfl⟩⟩
    rw [getElem?_set_self (lt_of_getElem? hi)]
  refine ⟨other, ?_, .inr ⟨hij, rfl⟩⟩
  rw [getElem?_set_ne (Ne.symm hij), hj]

section
variable (hinv : Inv h)
include hinv

theorem inv_moved (hi : h.pool.slots[i]? = some slot)
    (hmove : Move h op slot slot') (hdrain : op.isDrain = false) (hreply : (op.apply h.pool).1 = none)
    (hpool : (op.apply h.pool).2 = { h.pool with slots := h.pool.slots.set i slot' }) : Inv (step h op) := by
  obtain ⟨hgeneration, hevent, havailable, hnotRetired, hnotFailed, howner⟩ := hmove.keeps
  have hlive : h.drained = false := by
    by_contra hdrained
    exact hnotRetired (hinv.quiet (by simpa using hdrained) i slot hi)
  have hdrained : (step h op).drained = h.drained := by simp [step, hdrain]
  have htickets : (step h op).tickets = h.tickets := by simp [step, hreply]
  have hslots : (step h op).pool.slots = h.pool.slots.set i slot' := by simp [step, hpool]
  have hnext : (step h op).pool.nextGeneration = h.pool.nextGeneration := by simp [step, hpool]
  -- what a slot was before
  have hbefore : ∀ {j : Nat} {other' : Slot}, (step h op).pool.slots[j]? = some other' →
      ∃ other, h.pool.slots[j]? = some other ∧ other'.generation = other.generation ∧ other'.event = other.event ∧
        other'.phase ≠ .unavailable := by
    intro j other' hj
    rw [hslots] at hj
    rcases getElem?_set_cases hj with ⟨rfl, rfl⟩ | ⟨-, hj⟩
    · exact ⟨slot, hi, hgeneration, hevent, havailable⟩
    · exact ⟨other', hj, rfl, rfl, hinv.available j other' hj⟩
  refine ⟨?_, ?_, ?_, ?_, ?_, ?_, ?_, ?_⟩
  · intro j other hj
    obtain ⟨_, -, -, -, hok⟩ := hbefore hj
    exact hok
  · intro j other hj
    obtain ⟨old, hold, hsame, -⟩ := hbefore hj
    rw [hnext, hsame]
    exact hinv.bound j old hold
  · intro j k a b hj hk hab
    obtain ⟨a', ha', -, haevent, -⟩ := hbefore hj
    obtain ⟨b', hb', -, hbevent, -⟩ := hbefore hk
    exact hinv.events j k a' b' ha' hb' (by rw [← haevent, ← hbevent, hab])
  · rw [htickets, hnext]
    intro t ht
    obtain ⟨hbound, old, hold, hname, hheld⟩ := hinv.tickets t ht
    refine ⟨hbound, ?_⟩
    obtain ⟨new, hnew, hcases⟩ := slot_set slot' hi hold
    rw [hslots]
    refine ⟨new, hnew, ?_⟩
    rcases hcases with ⟨-, rfl, rfl⟩ | ⟨-, rfl⟩
    · refine ⟨hevent.trans hname, fun hgen hphase => ?_⟩
      rw [howner hphase]
      exact hheld (hgeneration.symm.trans hgen) hnotRetired
    · exact ⟨hname, hheld⟩
  · rw [htickets]
    intro t ht j other hj hgen
    obtain ⟨old, hold, hsame, -⟩ := hbefore hj
    exact hinv.unique t ht j old hold (hsame.symm.trans hgen)
  · intro _ g hg
    rw [step_notified, hslots]
    rcases mem_append.mp hg with hg | hg
    · rcases hinv.submitted hlive g hg with hdone | ⟨j, old, hold, hgen, hphase⟩
      · exact .inl (mem_append_left _ hdone)
      · obtain ⟨new, hnew, hcases⟩ := slot_set slot' hi hold
        rcases hcases with ⟨-, rfl, rfl⟩ | ⟨-, rfl⟩
        · rcases hmove.ofPending (hphase.resolve_right hnotFailed) with hreports | hheld
          · rw [hreports, hgen]
            exact .inl (by simp)
          · exact .inr ⟨j, new, hnew, hgeneration.trans hgen, hheld⟩
        · exact .inr ⟨j, new, hnew, hgen, hphase⟩
    obtain ⟨rfl, hheld⟩ := hmove.ofSubmits (mem_toList.mp hg)
    obtain ⟨new, hnew, hcases⟩ := slot_set slot' hi hi
    rcases hcases with ⟨-, -, rfl⟩ | ⟨hne, -⟩
    · exact .inr ⟨i, new, hnew, hgeneration, hheld⟩
    · exact absurd rfl hne
  · intro g error hne hmem
    rw [hslots]
    rcases mem_append.mp hmem with hmem | hmem
    · obtain ⟨j, old, hold, hgen, herror, hfailed⟩ := hinv.failures g error hne hmem
      obtain ⟨new, hnew, hcases⟩ := slot_set slot' hi hold
      rcases hcases with ⟨-, rfl, -⟩ | ⟨-, rfl⟩
      · exact absurd (hfailed hlive) hnotFailed
      · exact ⟨j, new, hnew, hgen, herror, fun _ => hfailed hlive⟩
    obtain ⟨new, hnew, hcases⟩ := slot_set slot' hi hi
    rcases hcases with ⟨-, -, rfl⟩ | ⟨hne, -⟩
    · obtain ⟨hgen, herror, hfailed⟩ := hmove.ofError hne (mem_toList.mp hmem)
      exact ⟨i, new, hnew, hgeneration.trans hgen, herror, fun _ => hfailed⟩
    · exact absurd rfl hne
  · intro hd
    rw [hdrained, hlive] at hd
    cases hd

theorem inv_same (hsubmits : op.submits h.pool = none) (hreports : op.reports h.pool = none)
    (hdrain : op.isDrain = false) (hreply : (op.apply h.pool).1 = none) (hpool : (op.apply h.pool).2 = h.pool) :
    Inv (step h op) := by
  have hsame : step h op = h := by simp [step, hsubmits, hreports, hdrain, hreply, hpool]
  rw [hsame]
  exact hinv

theorem inv_acquired {owner : Nat} (hi : h.pool.slots[i]? = some slot)
    (hphase : slot.phase = .retired) (hlive : h.drained = false)
    (hop : op = .acquire acquisition execution retirementGeneration (some owner))
    (hreply : (op.apply h.pool).1 = some ticket) (hslot : ticket.slot = i)
    (hgeneration : ticket.generation = h.pool.nextGeneration + 1) (hevent : ticket.event = slot.event)
    (hpool : (op.apply h.pool).2 = { h.pool with
      nextGeneration := h.pool.nextGeneration + 1
      slots := h.pool.slots.set i
        (slot.take (h.pool.nextGeneration + 1) acquisition execution retirementGeneration (some owner)) }) :
    Inv (step h op) := by
  have hsubmitted : (step h op).submitted = h.submitted := by
    subst hop
    simp [step, Op.submits]
  have hnotified : (step h op).notified = h.notified := by
    subst hop
    simp [step, Op.reports]
  have hdrained : (step h op).drained = h.drained := by
    subst hop
    simp [step, Op.isDrain]
  have htickets : (step h op).tickets = h.tickets ++ [(ticket, owner)] := by
    have howner : op.owner = owner := by simp [hop, Op.owner]
    simp [step, hreply, howner]
  have hslots : (step h op).pool.slots = h.pool.slots.set i
      (slot.take (h.pool.nextGeneration + 1) acquisition execution retirementGeneration (some owner)) := by
    simp [step, hpool]
  have hnext : (step h op).pool.nextGeneration = h.pool.nextGeneration + 1 := by simp [step, hpool]
  generalize hnew : slot.take (h.pool.nextGeneration + 1) acquisition execution retirementGeneration (some owner) = slot'
    at hslots
  have hkeeps : slot'.generation = h.pool.nextGeneration + 1 ∧ slot'.event = slot.event ∧ slot'.phase = .acquired ∧
      slot'.owner = some owner := by
    subst hnew
    exact ⟨rfl, rfl, rfl, rfl⟩
  have hcases : ∀ {j : Nat} {other' : Slot}, (step h op).pool.slots[j]? = some other' →
      (j = i ∧ other' = slot') ∨ (j ≠ i ∧ h.pool.slots[j]? = some other') := by
    intro j other' hj
    rw [hslots] at hj
    rcases getElem?_set_cases hj with ⟨rfl, rfl⟩ | ⟨hne, hj⟩
    · exact .inl ⟨rfl, rfl⟩
    · exact .inr ⟨hne, hj⟩
  -- the slots of the tickets so far are of older generations
  have hold : ∀ {j : Nat} {other : Slot}, h.pool.slots[j]? = some other → other.phase ≠ .retired →
      (step h op).pool.slots[j]? = some other := by
    intro j other hj hother
    obtain ⟨other', hother', hset⟩ := slot_set slot' hi hj
    rw [hslots]
    rcases hset with ⟨-, rfl, -⟩ | ⟨-, rfl⟩
    · exact absurd hphase hother
    · exact hother'
  refine ⟨?_, ?_, ?_, ?_, ?_, ?_, ?_, ?_⟩
  · intro j other hj
    rcases hcases hj with ⟨-, rfl⟩ | ⟨-, hj⟩
    · simp [hkeeps.2.2.1]
    · exact hinv.available j other hj
  · intro j other hj
    rw [hnext]
    rcases hcases hj with ⟨-, rfl⟩ | ⟨-, hj⟩
    · exact hkeeps.1.le
    · exact (hinv.bound j other hj).trans (Nat.le_succ _)
  · intro j k a b hj hk hab
    rcases hcases hj with ⟨rfl, rfl⟩ | ⟨hne, hj⟩
    · rcases hcases hk with ⟨rfl, rfl⟩ | ⟨-, hk⟩
      · rfl
      · exact hinv.events j k slot b hi hk (by rw [← hkeeps.2.1, hab])
    rcases hcases hk with ⟨rfl, rfl⟩ | ⟨-, hk⟩
    · exact hinv.events j k a slot hj hi (by rw [hab, hkeeps.2.1])
    · exact hinv.events j k a b hj hk hab
  · rw [htickets, hnext]
    intro t ht
    rcases mem_append.mp ht with ht | ht
    · obtain ⟨hbound, old, hat, hname, hheld⟩ := hinv.tickets t ht
      refine ⟨hbound.trans (Nat.le_succ _), ?_⟩
      obtain ⟨new, hnew', hset⟩ := slot_set slot' hi hat
      rw [hslots]
      refine ⟨new, hnew', ?_⟩
      rcases hset with ⟨-, rfl, rfl⟩ | ⟨-, rfl⟩
      · refine ⟨hkeeps.2.1.trans hname, fun hgen => ?_⟩
        omega
      · exact ⟨hname, hheld⟩
    obtain rfl := mem_singleton.mp ht
    obtain ⟨new, hnew', hset⟩ := slot_set slot' hi hi
    rw [hslots, hslot]
    refine ⟨hgeneration.le, new, hnew', ?_⟩
    rcases hset with ⟨-, -, rfl⟩ | ⟨hne, -⟩
    · exact ⟨hkeeps.2.1.trans hevent.symm, fun _ _ => hkeeps.2.2.2⟩
    · exact absurd rfl hne
  · rw [htickets]
    intro t ht j other hj hgen
    rcases mem_append.mp ht with ht | ht
    · rcases hcases hj with ⟨rfl, rfl⟩ | ⟨-, hj⟩
      · have hbound := (hinv.tickets t ht).1
        omega
      · exact hinv.unique t ht j other hj hgen
    obtain rfl := mem_singleton.mp ht
    rcases hcases hj with ⟨rfl, -⟩ | ⟨-, hj⟩
    · exact hslot.symm
    have hbound := hinv.bound j other hj
    rw [hgen, hgeneration] at hbound
    omega
  · intro _ g hg
    rw [hsubmitted] at hg
    rw [hnotified]
    rcases hinv.submitted hlive g hg with hdone | ⟨j, old, hat, hgen, hbusy⟩
    · exact .inl hdone
    refine .inr ⟨j, old, hold hat ?_, hgen, hbusy⟩
    rcases hbusy with hbusy | hbusy <;> simp [hbusy]
  · intro g error hne hmem
    rw [hnotified] at hmem
    obtain ⟨j, old, hat, hgen, herror, hfailed⟩ := hinv.failures g error hne hmem
    exact ⟨j, old, hold hat (by simp [hfailed hlive]), hgen, herror, fun _ => hfailed hlive⟩
  · intro hd
    rw [hdrained, hlive] at hd
    cases hd

theorem inv_configured {authorityGeneration : Nat} (hempty : h.pool.slots = [])
    (hnodup : events.Nodup) (hsubmits : op.submits h.pool = none) (hreports : op.reports h.pool = none)
    (hdrain : op.isDrain = false) (hreply : (op.apply h.pool).1 = none)
    (hpool : (op.apply h.pool).2 = { h.pool with
      slots := events.map fun event => { event, phase := .retired }, authorityGeneration }) : Inv (step h op) := by
  have hnotickets : h.tickets = [] := by
    rw [eq_nil_iff_forall_not_mem]
    intro t ht
    obtain ⟨-, slot, hat, -⟩ := hinv.tickets t ht
    simp [hempty] at hat
  have hstep : step h op = { h with pool := { h.pool with
      slots := events.map fun event => { event, phase := .retired }, authorityGeneration } } := by
    simp [step, hsubmits, hreports, hdrain, hreply, hpool]
  have hslot : ∀ {i : Nat} {slot : Slot}, (step h op).pool.slots[i]? = some slot →
      ∃ event, events[i]? = some event ∧ slot = { event, phase := .retired } := by
    intro i slot hi
    rw [hstep] at hi
    rw [getElem?_map] at hi
    obtain ⟨event, hevent, rfl⟩ := map_eq_some_iff.mp hi
    exact ⟨event, hevent, rfl⟩
  refine ⟨?_, ?_, ?_, ?_, ?_, ?_, ?_, ?_⟩
  · intro i slot hi
    obtain ⟨event, -, rfl⟩ := hslot hi
    simp
  · intro i slot hi
    obtain ⟨event, -, rfl⟩ := hslot hi
    exact Nat.zero_le _
  · intro i j a b hi hj hab
    obtain ⟨e, he, rfl⟩ := hslot hi
    obtain ⟨e', he', rfl⟩ := hslot hj
    subst hab
    have hlt := lt_of_getElem? he
    exact (getElem?_inj hlt hnodup).mp (he.trans he'.symm)
  · rw [hstep]
    simp [hnotickets]
  · rw [hstep]
    simp [hnotickets]
  · intro hd g hg
    rw [hstep] at hd hg ⊢
    rcases hinv.submitted hd g hg with hdone | ⟨j, old, hat, -⟩
    · exact .inl hdone
    · simp [hempty] at hat
  · intro g error hne hmem
    rw [hstep] at hmem
    obtain ⟨j, old, hat, -⟩ := hinv.failures g error hne hmem
    simp [hempty] at hat
  · intro _ i slot hi
    obtain ⟨event, -, rfl⟩ := hslot hi
    rfl

theorem inv_drained (hop : op = .drain) (hreply : (op.apply h.pool).1 = none)
    (hpool : (op.apply h.pool).2 = { h.pool with
      slots := h.pool.slots.map fun slot =>
        { slot with owner := none, phase := if slot.phase = .unavailable then .unavailable else .retired } }) :
    Inv (step h op) := by
  have hreports : op.reports h.pool = none := by simp [hop, Op.reports]
  have htickets : (step h op).tickets = h.tickets := by simp [step, hreply]
  have hnext : (step h op).pool.nextGeneration = h.pool.nextGeneration := by simp [step, hpool]
  have hnotified : (step h op).notified = h.notified := by simp [step, hreports]
  have hafter : ∀ {i : Nat} {slot : Slot}, h.pool.slots[i]? = some slot →
      (step h op).pool.slots[i]? = some { slot with owner := none, phase := .retired } := by
    intro i slot hi
    have hok := hinv.available i slot hi
    show ((op.apply h.pool).2).slots[i]? = _
    rw [hpool, getElem?_map, hi]
    simp [hok]
  have hbefore : ∀ {i : Nat} {slot' : Slot}, (step h op).pool.slots[i]? = some slot' →
      ∃ slot, h.pool.slots[i]? = some slot ∧ slot' = { slot with owner := none, phase := .retired } := by
    intro i slot' hi
    have hlt : i < h.pool.slots.length := by
      have hi : ((op.apply h.pool).2).slots[i]? = some slot' := hi
      rw [hpool] at hi
      simpa using (lt_of_getElem? hi)
    have hat : h.pool.slots[i]? = some h.pool.slots[i] := getElem?_eq_getElem hlt
    exact ⟨h.pool.slots[i], hat, mem_unique hi (hafter hat)⟩
  refine ⟨?_, ?_, ?_, ?_, ?_, ?_, ?_, ?_⟩
  · intro i slot hi
    obtain ⟨old, -, rfl⟩ := hbefore hi
    simp
  · intro i slot hi
    obtain ⟨old, hold, rfl⟩ := hbefore hi
    rw [hnext]
    exact hinv.bound i old hold
  · intro i j a b hi hj hab
    obtain ⟨a', ha', rfl⟩ := hbefore hi
    obtain ⟨b', hb', rfl⟩ := hbefore hj
    exact hinv.events i j a' b' ha' hb' hab
  · rw [htickets, hnext]
    intro t ht
    obtain ⟨hbound, slot, hat, hname, -⟩ := hinv.tickets t ht
    exact ⟨hbound, _, hafter hat, hname, fun _ hphase => absurd rfl hphase⟩
  · rw [htickets]
    intro t ht j slot hj hgen
    obtain ⟨old, hold, rfl⟩ := hbefore hj
    exact hinv.unique t ht j old hold hgen
  · intro hd
    simp [step, hop, Op.isDrain] at hd
  · intro g error hne hmem
    rw [hnotified] at hmem
    obtain ⟨i, slot, hat, hgen, herror, -⟩ := hinv.failures g error hne hmem
    refine ⟨i, _, hafter hat, hgen, herror, fun hd => ?_⟩
    simp [step, hop, Op.isDrain] at hd
  · intro _ i slot hi
    obtain ⟨old, -, rfl⟩ := hbefore hi
    rfl

theorem inv_step (hquiet : Quiet h op) : Inv (step h op) := by
  have heffect := op_effect h op
  generalize hreply : (op.apply h.pool).1 = reply at heffect
  generalize hpool : (op.apply h.pool).2 = pool at heffect
  cases heffect with
  | same hsubmits hreports hdrain => exact inv_same hinv hsubmits hreports hdrain hreply hpool
  | configured hempty hnodup hsubmits hreports hdrain =>
    exact inv_configured hinv hempty hnodup hsubmits hreports hdrain hreply hpool
  | acquired hi hphase hop hlive => exact inv_acquired hinv hi hphase (hlive hquiet) hop hreply rfl rfl rfl hpool
  | moved hi hmove hdrain => exact inv_moved hinv hi hmove hdrain hreply hpool
  | drained hop => exact inv_drained hinv hop hreply hpool

theorem inv_reaches {h' : History} (hreach : Reaches Quiet h h') : Inv h' := by
  induction hreach with
  | refl => exact hinv
  | tail _ hstep ih =>
    obtain ⟨op, hquiet, rfl⟩ := hstep
    exact inv_step ih hquiet

end

theorem inv_start : Inv {} := by
  refine ⟨?_, ?_, ?_, ?_, ?_, ?_, ?_, ?_⟩ <;> simp

/-! ## What the pool owes -/

theorem firstError_ne_zero (hi : pool.slots[i]? = some slot)
    (herror : slot.finalUse.error ≠ 0) : pool.firstError ≠ 0 := by
  have hfold : ∀ (slots : List Slot) result, (result ≠ 0 ∨ slot ∈ slots) →
      slots.foldl (fun result slot => if result = 0 then slot.finalUse.error else result) result ≠ 0 := by
    intro slots
    induction slots with
    | nil => simp
    | cons other slots ih =>
      intro result hor
      rw [foldl_cons]
      apply ih
      by_cases hzero : result = 0
      · rw [if_pos hzero]
        rcases mem_cons.mp (hor.resolve_left (by simp [hzero])) with rfl | hmem
        · exact .inl herror
        · exact .inr hmem
      rw [if_neg hzero]
      exact .inl hzero
  exact hfold pool.slots 0 (.inr (mem_of_getElem? hi))

section
variable (hinv : Inv h) (ht : t ∈ h.tickets) (hdead : Dead h t.1)
include hinv ht hdead

theorem dead_step : Dead (step h op) t.1 := by
  obtain ⟨hbound, old, hat, -⟩ := hinv.tickets t ht
  intro slot' hslot'
  have heffect := op_effect h op
  have hslot' : ((op.apply h.pool).2).slots[t.1.slot]? = some slot' := hslot'
  generalize (op.apply h.pool).1 = reply at heffect
  generalize (op.apply h.pool).2 = pool at heffect hslot'
  cases heffect with
  | same => exact hdead slot' hslot'
  | configured hempty => simp [hempty] at hat
  | @acquired i slot =>
    rename_i hi hphase _ _
    rcases getElem?_set_cases hslot' with ⟨-, rfl⟩ | ⟨-, hslot'⟩
    · left
      show h.pool.nextGeneration + 1 ≠ t.1.generation
      omega
    · exact hdead slot' hslot'
  | @moved i slot moved hi hmove =>
    rcases getElem?_set_cases hslot' with ⟨hij, rfl⟩ | ⟨-, hslot'⟩
    · obtain ⟨hgen, -, -, hnotRetired, -⟩ := hmove.keeps
      rcases hdead slot (by rw [hij]; exact hi) with hother | hretired
      · exact .inl (by rw [hgen]; exact hother)
      · exact absurd hretired hnotRetired
    · exact hdead slot' hslot'
  | drained =>
    rw [getElem?_map, hat] at hslot'
    cases hslot'
    simp [hinv.available _ old hat]

theorem dead_inert (huses : op.uses t.1) : (step h op).pool = h.pool := by
  have hnone : ∀ phase, phase ≠ .retired → matchPhase h.pool t.1 phase = none := by
    intro phase hphase
    rw [eq_none_iff_forall_ne_some]
    intro slot hmatch
    obtain ⟨hat, hgen, rfl⟩ := matchPhase_some hmatch
    rcases hdead slot hat with hother | hretired
    · exact hother hgen
    · exact hphase hretired
  refine apply_of_wp (P := fun _ pool => pool = h.pool) ?_
  rcases huses with rfl | ⟨event, error, rfl⟩ | rfl | rfl
  · simp only [Op.run, wp_bind, wp_discard, wp_pure]
    unfold submit
    rw [wp_get_bind]
    rw [hnone .acquired (by simp)]
    exact rfl
  · simp only [Op.run, wp_bind, wp_discard, wp_pure]
    unfold notify notifies
    rw [wp_get_bind]
    rw [hnone .pending (by simp)]
    exact rfl
  · simp only [Op.run, wp_bind, wp_discard, wp_pure]
    unfold cancel
    rw [wp_get_bind]
    split
    · exact rfl
    next slot hmatch =>
    obtain ⟨hat, hgen⟩ := matchAny_some hmatch
    have hretired := (hdead slot hat).resolve_left (by simp [hgen])
    rw [hretired]
    exact rfl
  simp only [Op.run, wp_bind, wp_discard, wp_pure]
  unfold retire
  rw [wp_get_bind]
  split
  · exact rfl
  next i slot hfind =>
  obtain ⟨hat, hgen⟩ := findIdx_some hfind
  have hgen : slot.generation = t.1.generation := by simpa using hgen
  obtain rfl := hinv.unique t ht i slot hat hgen
  have hretired := (hdead slot hat).resolve_left (by simp [hgen])
  rw [if_neg (by simp [hretired])]
  exact rfl

end

theorem handedOut_cases (hreply : (op.apply h.pool).1 = some ticket) :
    ∃ slot, h.pool.slots[ticket.slot]? = some slot ∧ slot.phase = .retired ∧ slot.event = ticket.event ∧
      ticket.generation = h.pool.nextGeneration + 1 ∧ (Quiet h op → h.drained = false) := by
  have heffect := op_effect h op
  rw [hreply] at heffect
  generalize (op.apply h.pool).2 = pool at heffect
  cases heffect with
  | acquired hi hphase _ hquiet => exact ⟨_, hi, hphase, rfl, rfl, hquiet⟩

theorem owed_of_quiet (hinv : Inv h) (hquiet : Quiet h op) : Owed h op := by
  have hnext := inv_step hinv hquiet
  refine ⟨?_, ?_, ?_, ?_, ?_⟩
  · intro ticket hreply
    obtain ⟨slot, hat, hretired, hevent, -, hlive⟩ := handedOut_cases hreply
    refine ⟨hlive hquiet, fun old hold hsame => ?_⟩
    -- the slot of an old ticket of the event is the one that is retired now
    obtain ⟨-, slot', hat', hname, -⟩ := hinv.tickets old hold
    have hslot := hinv.events _ _ slot' slot hat' hat (by rw [hname, hsame, hevent])
    have hown : ∀ (i : Nat) s, h.pool.slots[i]? = some s → s.generation = old.1.generation → s.phase = .retired := by
      intro i s hs hgen
      rw [hinv.unique old hold i s hs hgen, hslot, hat] at hs
      cases hs
      exact hretired
    constructor
    · by_cases hsubmitted : old.1.generation ∈ h.submitted
      · rcases hinv.submitted (hlive hquiet) _ hsubmitted with hdone | ⟨i, s, hs, hgen, hbusy⟩
        · exact .inr hdone
        · have hphase := hown i s hs hgen
          rcases hbusy with hbusy | hbusy <;> simp [hphase] at hbusy
      · exact .inl hsubmitted
    · intro error hne hmem
      obtain ⟨i, s, hs, hgen, -, hfailed⟩ := hinv.failures _ error hne hmem
      have hphase := hown i s hs hgen
      simp [hphase] at hfailed
      exact absurd (hlive hquiet) (by simp [hfailed])
  · intro ticket hreply old hold
    obtain ⟨_, -, -, -, hgen, -⟩ := handedOut_cases hreply
    have hbound := (hinv.tickets old hold).1
    omega
  · exact fun t ht hdead => ⟨dead_step hinv ht hdead, dead_inert hinv ht hdead⟩
  · intro g error hne hmem
    obtain ⟨i, slot, hat, -, herror, -⟩ := hnext.failures g error hne hmem
    exact firstError_ne_zero hat herror
  · intro t ht slot hat hgen hphase
    obtain ⟨-, slot', hat', -, hheld⟩ := hnext.tickets t ht
    obtain rfl := mem_unique hat hat'
    exact hheld hgen hphase

theorem drained_acquires (hinv : Inv h) (hdrained : h.drained = true) {owner : Option Nat}
    (hscope : ¬ badScope h.pool acquisition execution retirementGeneration owner)
    (hleft : h.pool.nextGeneration ≠ uint64Max) :
    ((Op.acquire acquisition execution retirementGeneration owner).apply h.pool).1.isSome = true := by
  refine apply_of_wp (P := fun reply _ => reply.isSome = true) ?_
  unfold Op.run acquire
  rw [wp_get_bind]
  rw [throwIf, if_neg hscope, throwIf, if_neg hleft]
  simp only [MonadExcept.ofExcept, wp_bind, wp_pure]
  obtain ⟨slot, rest, hslots⟩ : ∃ slot rest, h.pool.slots = slot :: rest := by
    cases hslots : h.pool.slots with
    | nil => exact absurd (.inl hslots) hscope
    | cons slot rest => exact ⟨slot, rest, rfl⟩
  have hretired := hinv.quiet hdrained 0 slot (by rw [hslots]; rfl)
  rw [hslots]
  simp [hretired, findIdx?_cons]

/-- In every run in which nothing is acquired after the drain, whatever the tickets, events and
    errors presented: an event is handed out again only when its tickets are settled, tickets are
    numbered in increasing order, a dead ticket changes nothing, errors stay and owners are held.
    The next operation keeps to this exactly when it acquires nothing after the drain either. -/
theorem pool_owed_iff_quiet {h : History} (hreach : Reaches Quiet {} h) (op : Op) : Owed h op ↔ Quiet h op := by
  have hinv := inv_reaches inv_start hreach
  refine ⟨?_, owed_of_quiet hinv⟩
  intro howed hdrained acquisition execution retirementGeneration owner hop
  subst hop
  by_contra hgood
  rw [not_or] at hgood
  obtain ⟨ticket, hticket⟩ := isSome_iff_exists.mp (drained_acquires hinv hdrained hgood.1 hgood.2)
  have hlive := (howed.handedOut ticket hticket).1
  simp [hdrained] at hlive

/-- The history after the operations. -/
def after (ops : List Op) : History := ops.foldl step {}

theorem reaches_after (ops : List Op) (hops : ∀ op ∈ ops, op.isDrain = false) :
    (after ops).drained = false ∧ Reaches Quiet {} (after ops) := by
  induction ops using List.reverseRecOn with
  | nil => exact ⟨rfl, .refl⟩
  | append_singleton ops op ih =>
    obtain ⟨hlive, hreach⟩ := ih fun op' hop' => hops op' (mem_append_left _ hop')
    have hstep : after (ops ++ [op]) = step (after ops) op := by simp [after]
    have hop := hops op (by simp)
    rw [hstep]
    refine ⟨by simp [step, hlive, hop], .tail hreach ⟨op, ?_, rfl⟩⟩
    intro hdrained
    simp [hlive] at hdrained

/-- The ticket of the first acquisition in a pool of one event. -/
def firstTicket : Ticket :=
  { slot := 0, authorityGeneration := 1, generation := 1, acquisition := 1, execution := 1, retirementGeneration := 1
    event := 5 }

/-- A submitted event that nobody has notified is handed out again once the device is drained,
    and the error of a failed one is forgotten. -/
theorem drained_event_reused :
    ((Op.acquire 2 2 2 (some 9)).apply (after
      [.configure [5] 1, .acquire 1 1 1 (some 8), .submit firstTicket, .drain]).pool).1.map (·.event) = some 5 ∧
    ¬ Owed (after [.configure [5] 1, .acquire 1 1 1 (some 8), .submit firstTicket, .drain])
      (.acquire 2 2 2 (some 9)) ∧
    (after [.configure [5] 1, .acquire 1 1 1 (some 8), .submit firstTicket, .notify firstTicket 5 7, .drain,
      .acquire 2 2 2 (some 9)]).pool.firstError = 0 := by
  refine ⟨by decide, fun howed => ?_, by decide⟩
  have hlive := (howed.handedOut { slot := 0, authorityGeneration := 1, generation := 2, acquisition := 2, execution := 2
                                   retirementGeneration := 2, event := 5 } (by decide)).1
  simp [after, step, Op.isDrain] at hlive

/-- A notified and retired event is handed out again. -/
theorem settled_event_reused :
    ((Op.acquire 2 2 2 (some 9)).apply (after [.configure [5] 1, .acquire 1 1 1 (some 8), .submit firstTicket,
      .notify firstTicket 5 0, .retire 1]).pool).1.map (·.event) = some 5 ∧
    Owed (after [.configure [5] 1, .acquire 1 1 1 (some 8), .submit firstTicket, .notify firstTicket 5 0, .retire 1])
      (.acquire 2 2 2 (some 9)) := by
  refine ⟨by decide, ?_⟩
  obtain ⟨hlive, hreach⟩ := reaches_after [.configure [5] 1, .acquire 1 1 1 (some 8), .submit firstTicket,
    .notify firstTicket 5 0, .retire 1] (by decide)
  refine (pool_owed_iff_quiet hreach _).mpr fun hdrained => ?_
  simp [hlive] at hdrained

end VoidInfer.Exl3.CompletionEventPool
