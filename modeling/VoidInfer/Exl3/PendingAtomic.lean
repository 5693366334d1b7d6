import VoidInfer.Exl3.PendingRun

/-
  Runs of a round. After each call that prepares, settles or cancels, and was not refused, exactly one of four things
  holds (`Verdict`): the candidate waits, its prefix is settled, everything is as it was before the round was prepared,
  or the round is poisoned and refuses all but a reset. A ticket is spent at most once (`pending_is_atomic`).
-/

namespace VoidInfer.Exl3.Pending
open List Option

open Throwing Outer

/-! ## What a run shows -/

/-- The ticket a call settles or cancels. -/
def Call.ticket : Call → Option Nat
  | .settlePending ticket .. => some ticket
  | .cancelPending ticket => some ticket
  | .settleDevicePending ticket .. => some ticket
  | .cancelDevicePending ticket => some ticket
  | _ => none

/-- How many candidate tokens a call settles. -/
def Call.retained : Call → Option Nat
  | .settlePending _ retained _ => some retained
  | .settleDevicePending _ retained _ => some retained
  | _ => none

/-- The calls that prepare a round. -/
def Call.Prepares : Call → Prop
  | .preparePending _ => True
  | .prepareDevicePending _ => True
  | _ => False

namespace Event

variable (e : Event)

/-- The call threw and changed nothing. -/
def Refused : Prop := (∃ x, e.result = .error x) ∧ e.after = e.before

/-- The call returned this ticket and candidate. -/
def Gives (ticket : Nat) (candidate : Step) : Prop := e.result = .ok (.prepared ticket candidate)

/-- The call settled or cancelled this ticket, or tried to. -/
def Spends (ticket : Nat) : Prop := e.call.ticket = some ticket ∧ ¬ e.Refused

/-- The round before the candidate of a call was prepared, and the candidate, where it was prepared
    by an earlier call. -/
inductive From (earlier : List Event) : Round → Option Step → Prop
  | prepares (h : e.call.Prepares) : From earlier e.before none
  | spends (ticket : Nat) (g : Event) (candidate : Step) (ht : e.call.ticket = some ticket) (hg : g ∈ earlier)
      (hc : g.Gives ticket candidate) : From earlier g.before (some candidate)

end Event

/-- The same rows in the ring, and the same state of it. -/
structure SameRing (r r' : DraftRing) : Prop where
  base : r'.base = r.base
  count : r'.count = r.count
  failed : r'.failed = r.failed
  undo : r'.undo = r.undo

/-- What a call does to a prepared round. -/
inductive Verdict
  | prepared | settled | restored | poisoned

/-- The verdict holds of a call, for the round before its candidate was prepared. -/
def Verdict.Holds (root : Round) (candidate : Option Step) (e : Event) : Verdict → Prop
  | .prepared => ∃ c, e.Gives e.after.pendingTicket c ∧ e.after.pendingTicket = root.pendingTicket + 1 ∧
      (e.after.phase = .pending ∨ e.after.phase = .devicePending) ∧ c.committedTokens ≠ [] ∧
      e.after.owners.context.tokens = root.owners.context.tokens ++ c.committedTokens ∧
      SameRing root.owners.ring e.after.owners.ring ∧ e.after.frontier = root.frontier ∧ e.after.totals = root.totals
  | .settled => ∃ c retained value, candidate = some c ∧ e.call.retained = some retained ∧
      e.result = .ok (.settled value) ∧ value.committedTokens = c.committedTokens.take retained ∧
      (e.after.phase = .ready ∨ e.after.phase = .closed) ∧
      At e.after.owners.context (root.owners.context.tokens ++ c.committedTokens.take retained) none ∧
      e.after.owners.ring.position = e.after.owners.context.position ∧
      e.after.frontier = e.after.owners.context.position
  | .restored => (∀ value, e.result ≠ .ok (.settled value)) ∧ e.after.phase = .ready ∧
      At e.after.owners.context root.owners.context.tokens none ∧
      SameRing root.owners.ring e.after.owners.ring ∧ e.after.frontier = root.frontier ∧ e.after.totals = root.totals
  | .poisoned => (∃ x, e.result = .error x) ∧ e.after.phase = .poisoned

/-! ## The verdict of a call -/

variable {d : Device} {r r' : Round} {e : Event} {l : List Int} {root : Round} {earlier : List Event}
  {candidate : Option Step}

theorem sameRing_full {s s' : DraftRing} {n : Nat} (h : s.Full n) (h' : s'.Full n) : SameRing s s' := by
  have hbase := h.base
  have hbase' := h'.base
  exact ⟨by omega, h'.count.trans h.count.symm, h'.failed.trans h.failed.symm, h'.undo.trans h.undo.symm⟩

/-- The verdict that the phase and the answer leave. -/
def Event.verdict (e : Event) : Verdict :=
  match e.after.phase, e.result with
  | .poisoned, _ => .poisoned
  | .pending, _ => .prepared
  | .devicePending, _ => .prepared
  | _, .ok (.settled _) => .settled
  | _, _ => .restored

theorem Verdict.Holds.eq_verdict {v : Verdict} (h : v.Holds root candidate e) : v = e.verdict := by
  unfold Event.verdict
  cases v with
  | prepared =>
    obtain ⟨c, -, -, hphase | hphase, -⟩ := h
    · rw [hphase]
    · rw [hphase]
  | settled =>
    obtain ⟨c, retained, value, -, -, hresult, -, hphase | hphase, -⟩ := h
    · rw [hphase, hresult]
    · rw [hphase, hresult]
  | restored =>
    obtain ⟨hresult, hphase, -⟩ := h
    rw [hphase]
    cases hr : e.result with
    | error x => rfl
    | ok answer =>
      cases answer with
      | done => rfl
      | prepared ticket c => rfl
      | settled value => exact absurd hr (hresult value)
  | poisoned =>
    obtain ⟨-, hphase⟩ := h
    rw [hphase]

theorem Verdict.Holds.unique {v : Verdict} (h : v.Holds root candidate e) : ∃! v : Verdict, v.Holds root candidate e :=
  ⟨v, h, fun _ h' => h'.eq_verdict.trans h.eq_verdict.symm⟩

variable {call : Call} {x : Exn} {c : Step} {g : Event} {ticket : Nat}

theorem Back.holds {before : Round} {result : Except Exn Answer} (h : Back l before r')
    (hroot : Ready l root) (hfrontier : before.frontier = root.frontier) (htotals : before.totals = root.totals)
    (hresult : ∀ value, result ≠ .ok (.settled value)) :
    Verdict.Holds root candidate ⟨call, before, result, r'⟩ .restored := by
  refine ⟨hresult, h.phase, ?_, sameRing_full hroot.owners.ring h.ready.owners.ring,
    h.kept.frontier.trans hfrontier, h.kept.totals.trans htotals⟩
  rw [hroot.owners.context.tokens]
  exact h.ready.owners.context

theorem Undone.holds {before : Round} (h : Undone l before r') (hroot : Ready l root)
    (hfrontier : before.frontier = root.frontier) (htotals : before.totals = root.totals) :
    ∃ v, Verdict.Holds root candidate ⟨call, before, .error x, r'⟩ v := by
  rcases h with h | h
  · exact ⟨_, h.holds hroot hfrontier htotals fun _ => by simp⟩
  · exact ⟨.poisoned, ⟨x, rfl⟩, h.phase⟩

/-! ## Runs -/

/-- A call of a run: refused, or with one verdict. -/
def Event.Judged (earlier : List Event) (e : Event) : Prop :=
  e.Refused ∨ ∃ root candidate, e.From earlier root candidate ∧ ∃! v : Verdict, v.Holds root candidate e

/-- What holds of a round after the calls so far. -/
structure Sound (earlier : List Event) (r : Round) : Prop where
  unstarted : r.phase = .unstarted → Idle r
  ready : r.phase = .ready → ∃ l, Ready l r
  pending : r.phase = .pending → ∃ g ∈ earlier, ∃ l c, Ready l g.before ∧ g.Gives r.pendingTicket c ∧
    Waits l c g.before r
  devicePending : r.phase = .devicePending → ∃ g ∈ earlier, ∃ l c, Ready l g.before ∧ g.Gives r.pendingTicket c ∧
    DeviceWaits l c g.before r
  spent : ∀ x ∈ earlier, ∀ t, x.Spends t → t ≤ r.pendingTicket
  unspent : r.phase = .pending ∨ r.phase = .devicePending → ∀ x ∈ earlier, ¬ x.Spends r.pendingTicket

section
variable (h : Sound earlier e.before)
include h

theorem Sound.after_plain (hticket : e.after.pendingTicket = e.before.pendingTicket)
    (hspends : ∀ t, e.Spends t → t = e.before.pendingTicket)
    (hunstarted : e.after.phase = .unstarted → Idle e.after) (hready : e.after.phase = .ready → ∃ l, Ready l e.after)
    (hpending : e.after.phase ≠ .pending) (hdevice : e.after.phase ≠ .devicePending) :
    Sound (earlier ++ [e]) e.after := by
  refine ⟨hunstarted, hready, fun hp => absurd hp hpending, fun hp => absurd hp hdevice, fun x hx t ht => ?_, fun hp => ?_⟩
  · rw [hticket]
    rcases mem_append.mp hx with hx | hx
    · exact h.spent x hx t ht
    obtain rfl := mem_singleton.mp hx
    exact Nat.le_of_eq (hspends t ht)
  · rcases hp with hp | hp
    · exact absurd hp hpending
    · exact absurd hp hdevice

theorem Sound.after_refused (hrefused : e.Refused) : Sound (earlier ++ [e]) e.after := by
  rw [hrefused.2]
  have hspends : ∀ x ∈ earlier ++ [e], ∀ t, x.Spends t → x ∈ earlier := by
    intro x hx t ht
    rcases mem_append.mp hx with hx | hx
    · exact hx
    obtain rfl := mem_singleton.mp hx
    exact absurd hrefused ht.2
  refine ⟨h.unstarted, h.ready, fun hp => ?_, fun hp => ?_, fun x hx t ht => h.spent x (hspends x hx t ht) t ht,
    fun hp x hx ht => h.unspent hp x (hspends x hx _ ht) ht⟩
  · obtain ⟨g, hg, hrest⟩ := h.pending hp
    exact ⟨g, mem_append_left _ hg, hrest⟩
  · obtain ⟨g, hg, hrest⟩ := h.devicePending hp
    exact ⟨g, mem_append_left _ hg, hrest⟩

theorem Sound.after_prepared (hticket : e.after.pendingTicket = e.before.pendingTicket + 1)
    (hgives : e.Gives e.after.pendingTicket c) (hcall : e.call.ticket = none) (hroot : Ready l e.before)
    (hwaits : Waits l c e.before e.after ∨ DeviceWaits l c e.before e.after) : Sound (earlier ++ [e]) e.after := by
  have hlater : ∀ x ∈ earlier ++ [e], ∀ t, x.Spends t → t < e.after.pendingTicket := by
    intro x hx t ht
    rcases mem_append.mp hx with hx | hx
    · have := h.spent x hx t ht
      omega
    obtain rfl := mem_singleton.mp hx
    cases hcall.symm.trans ht.1
  have hin : e ∈ earlier ++ [e] := mem_append_right _ (.head _)
  refine ⟨fun hp => ?_, fun hp => ?_, fun hp => ?_, fun hp => ?_, fun x hx t ht => Nat.le_of_lt (hlater x hx t ht),
    fun _ x hx ht => absurd (hlater x hx _ ht) (Nat.lt_irrefl _)⟩
  · rcases hwaits with hw | hw
    · cases hw.phase.symm.trans hp
    · cases hw.phase.symm.trans hp
  · rcases hwaits with hw | hw
    · cases hw.phase.symm.trans hp
    · cases hw.phase.symm.trans hp
  · rcases hwaits with hw | hw
    · exact ⟨e, hin, l, c, hroot, hgives, hw⟩
    · cases hw.phase.symm.trans hp
  · rcases hwaits with hw | hw
    · cases hw.phase.symm.trans hp
    · exact ⟨e, hin, l, c, hroot, hgives, hw⟩

end

theorem Sound.after_other {answer : Answer} (h : Sound earlier r) (hcall : call.ticket = none)
    (hplain : Plain r r') : Sound (earlier ++ [⟨call, r, .ok answer, r'⟩]) r' := by
  refine h.after_plain (e := ⟨call, r, .ok answer, r'⟩) hplain.ticket (fun t ht => ?_) (fun hp => ?_) (fun hp => ?_) ?_ ?_
  · cases hcall.symm.trans ht.1
  · rcases hplain.state with ⟨-, hidle⟩ | ⟨hready, -⟩ | hclosed
    · exact hidle
    · cases hready.symm.trans hp
    · cases hclosed.symm.trans hp
  · rcases hplain.state with ⟨hun, -⟩ | ⟨-, hready⟩ | hclosed
    · cases hun.symm.trans hp
    · exact hready
    · cases hclosed.symm.trans hp
  · rcases hplain.state with ⟨hp, -⟩ | ⟨hp, -⟩ | hp
    all_goals exact fun hq => nomatch hp.symm.trans hq
  rcases hplain.state with ⟨hp, -⟩ | ⟨hp, -⟩ | hp
  all_goals exact fun hq => nomatch hp.symm.trans hq

section
variable (h : Sound earlier e.before)
include h

theorem Sound.after_poison (hpoison : Poison e.before e.after)
    (hspends : ∀ t, e.Spends t → t = e.before.pendingTicket) : Sound (earlier ++ [e]) e.after := by
  have hnot : ∀ p, p ≠ .poisoned → e.after.phase ≠ p := fun p hp heq => hp (heq.symm.trans hpoison.phase)
  exact h.after_plain hpoison.ticket hspends (fun hp => absurd hp (hnot _ (by simp))) (fun hp => absurd hp (hnot _ (by simp)))
    (hnot _ (by simp)) (hnot _ (by simp))

theorem Sound.after_back (hback : Back l e.before e.after)
    (hspends : ∀ t, e.Spends t → t = e.before.pendingTicket) : Sound (earlier ++ [e]) e.after := by
  have hnot : ∀ p, p ≠ .ready → e.after.phase ≠ p := fun p hp heq => hp (heq.symm.trans hback.phase)
  exact h.after_plain hback.kept.ticket hspends (fun hp => absurd hp (hnot _ (by simp))) (fun _ => ⟨l, hback.ready⟩)
    (hnot _ (by simp)) (hnot _ (by simp))

theorem Sound.after_undone (hundone : Undone l e.before e.after)
    (hspends : ∀ t, e.Spends t → t = e.before.pendingTicket) : Sound (earlier ++ [e]) e.after := by
  rcases hundone with hback | hpoison
  · exact h.after_back hback hspends
  · exact h.after_poison hpoison hspends

end

/-- One call: what is to be shown of it. -/
def Event.Fine (earlier : List Event) (e : Event) : Prop :=
  (e.call.Prepares ∨ e.call.ticket ≠ none → e.Judged earlier) ∧ Sound (earlier ++ [e]) e.after

theorem Event.Refused.fine (hrefused : e.Refused) (h : Sound earlier e.before) : e.Fine earlier :=
  ⟨fun _ => .inl hrefused, h.after_refused hrefused⟩

section
variable (h : Sound earlier r) (hg : g ∈ earlier) (hroot : Ready l g.before) (hc : g.Gives ticket c) (ht : call.ticket = some ticket)
include h hg hroot hc ht

theorem settled_fine {retained : Nat} {value : Step}
    (hr : call.retained = some retained) (hticket : ticket = r.pendingTicket) (hsettled : SettledAt l c retained value r r') :
    Event.Fine earlier ⟨call, r, .ok (.settled value), r'⟩ := by
  refine ⟨fun _ => .inr ⟨g.before, some c, .spends ticket g c ht hg hc, Verdict.Holds.unique (v := .settled) ?_⟩, ?_⟩
  · refine ⟨c, retained, value, rfl, hr, rfl, hsettled.tokens, hsettled.phase, ?_, ?_, ?_⟩
    · rw [hroot.owners.context.tokens, ← hsettled.tokens]
      exact hsettled.ready.owners.context
    · rw [hsettled.ready.owners.ring.position]
      exact congrArg Nat.cast (congrArg List.length hsettled.ready.owners.context.tokens).symm
    · exact hsettled.ready.frontier.trans (congrArg List.length hsettled.ready.owners.context.tokens).symm
  refine h.after_plain (e := ⟨call, r, .ok (.settled value), r'⟩) hsettled.ticket (fun t hspends => ?_) (fun hp => ?_)
    (fun _ => ⟨_, hsettled.ready⟩) ?_ ?_
  · exact (mem_unique ht hspends.1).symm.trans hticket
  · rcases hsettled.phase with hq | hq
    all_goals cases hq.symm.trans hp
  · rcases hsettled.phase with hq | hq
    all_goals exact fun hp => nomatch hq.symm.trans hp
  rcases hsettled.phase with hq | hq
  all_goals exact fun hp => nomatch hq.symm.trans hp

section
variable (hticket : ticket = r.pendingTicket) (hfrontier : r.frontier = g.before.frontier) (htotals : r.totals = g.before.totals)
include hticket hfrontier htotals

theorem undone_fine (hundone : Undone l r r') : Event.Fine earlier ⟨call, r, .error x, r'⟩ := by
  have hholds : ∃ v, Verdict.Holds g.before (some c) ⟨call, r, .error x, r'⟩ v :=
    hundone.holds hroot hfrontier htotals
  obtain ⟨v, hv⟩ := hholds
  refine ⟨fun _ => .inr ⟨g.before, some c, .spends ticket g c ht hg hc, hv.unique⟩, ?_⟩
  refine h.after_undone (e := ⟨call, r, .error x, r'⟩) hundone fun t hspends => ?_
  exact (mem_unique ht hspends.1).symm.trans hticket

theorem cancelled_fine (hback : Back l r r') : Event.Fine earlier ⟨call, r, .ok .done, r'⟩ := by
  have hv : Verdict.Holds g.before (some c) ⟨call, r, .ok .done, r'⟩ .restored :=
    hback.holds hroot hfrontier htotals fun _ => by simp
  refine ⟨fun _ => .inr ⟨g.before, some c, .spends ticket g c ht hg hc, hv.unique⟩, ?_⟩
  refine h.after_back (e := ⟨call, r, .ok .done, r'⟩) hback fun t hspends => ?_
  exact (mem_unique ht hspends.1).symm.trans hticket

end

end

section
variable (h : Sound earlier r)
include h

section
variable (hcall : call.Prepares) (hnone : call.ticket = none) (hroot : Ready l r)
include hcall hnone hroot

theorem prepared_fine (hticket : r'.pendingTicket = r.pendingTicket + 1)
    (hwaits : Waits l c r r' ∨ DeviceWaits l c r r') :
    Event.Fine earlier ⟨call, r, .ok (.prepared r'.pendingTicket c), r'⟩ := by
  refine ⟨fun _ => .inr ⟨r, none, .prepares hcall, Verdict.Holds.unique (v := .prepared) ?_⟩,
    h.after_prepared (e := ⟨call, r, .ok (.prepared r'.pendingTicket c), r'⟩) hticket rfl hnone hroot hwaits⟩
  have hl : r.owners.context.tokens = l := hroot.owners.context.tokens
  rcases hwaits with hw | hw
  · refine ⟨c, rfl, hticket, .inl hw.phase, hw.some_row, ?_, sameRing_full hroot.owners.ring hw.full, hw.frontier, hw.totals⟩
    rw [hl]
    exact hw.context.tokens
  obtain ⟨tx, hat, -⟩ := hw.context
  refine ⟨c, rfl, hticket, .inr hw.phase, hw.some_row, ?_, sameRing_full hroot.owners.ring hw.full, hw.frontier, hw.totals⟩
  rw [hl]
  exact hat.tokens

theorem unprepared_fine (hundone : Undone l r r') : Event.Fine earlier ⟨call, r, .error x, r'⟩ := by
  have hholds : ∃ v, Verdict.Holds r none ⟨call, r, .error x, r'⟩ v := hundone.holds hroot rfl rfl
  obtain ⟨v, hv⟩ := hholds
  refine ⟨fun _ => .inr ⟨r, none, .prepares hcall, hv.unique⟩, ?_⟩
  exact h.after_undone (e := ⟨call, r, .error x, r'⟩) hundone fun t hspends => nomatch hnone.symm.trans hspends.1

end

theorem other_fine {α : Type} (hprepares : ¬ call.Prepares)
    (hnone : call.ticket = none) {x : RoundM α} {answer : α → Answer}
    (hx : wp x (fun _ => Plain r) (fun _ r' => r' = r ∨ Poison r r') r) :
    wp (do let value ← x; return answer value) (fun answer r' => Event.Fine earlier ⟨call, r, .ok answer, r'⟩)
      (fun e r' => Event.Fine earlier ⟨call, r, .error e, r'⟩) r := by
  have hnot : ¬ (call.Prepares ∨ call.ticket ≠ none) := by
    rintro (hp | hp)
    · exact hprepares hp
    · exact hp hnone
  simp only [wp_bind, wp_pure]
  refine wp_mono hx (fun _ r' hplain => ?_) fun e r' he => ?_
  · exact ⟨fun hp => absurd hp hnot, h.after_other hnone hplain⟩
  rcases he with rfl | hpoison
  · exact Event.Refused.fine ⟨⟨e, rfl⟩, rfl⟩ h
  refine ⟨fun hp => absurd hp hnot, h.after_poison (e := ⟨call, r, .error e, r'⟩) hpoison fun t ht => ?_⟩
  cases hnone.symm.trans ht.1

theorem Sound.atRoot : ∃ l, r.phase = .ready → Ready l r := by
  by_cases hphase : r.phase = .ready
  · obtain ⟨l, hl⟩ := h.ready hphase
    exact ⟨l, fun _ => hl⟩
  · exact ⟨[], fun hp => absurd hp hphase⟩

end

theorem waiting {phase : Phase} {W : List Int → Step → Round → Round → Prop}
    (h : r.phase = phase → ∃ g ∈ earlier, ∃ l c, Ready l g.before ∧ g.Gives r.pendingTicket c ∧ W l c g.before r) :
    ∃ root l c, l ≠ [] ∧ root.frontier = l.length ∧
      (r.phase = phase → W l c root r ∧ Ready l root ∧ ∃ g ∈ earlier, g.before = root ∧ g.Gives r.pendingTicket c) := by
  by_cases hphase : r.phase = phase
  · obtain ⟨g, hg, l, c, hready, hgives, hwaits⟩ := h hphase
    exact ⟨g.before, l, c, hready.nonempty, hready.frontier, fun _ => ⟨hwaits, hready, g, hg, rfl, hgives⟩⟩
  · exact ⟨{ r with frontier := 1 }, [0], .from 0 0, by simp, rfl, fun h => absurd h hphase⟩

theorem fine_call (call : Call) (h : Sound earlier r) :
    wp (d.call call) (fun answer r' => Event.Fine earlier ⟨call, r, .ok answer, r'⟩)
      (fun e r' => Event.Fine earlier ⟨call, r, .error e, r'⟩) r := by
  have hsame : ∀ x, Event.Fine earlier ⟨call, r, .error x, r⟩ := fun x => Event.Refused.fine ⟨⟨x, rfl⟩, rfl⟩ h
  obtain ⟨root, l, c, hne, hroot, hwaits⟩ := waiting (W := Waits) h.pending
  obtain ⟨root', l', c', hne', hroot', hwaits'⟩ := waiting (W := DeviceWaits) h.devicePending
  obtain ⟨base, hbase⟩ := h.atRoot
  cases call with
  | beginFresh input => exact other_fine h (by simp [Call.Prepares]) rfl (wp_beginFresh h.unstarted)
  | beginPrefilled => exact other_fine h (by simp [Call.Prepares]) rfl (wp_beginPrefilled h.unstarted)
  | finish => exact other_fine h (by simp [Call.Prepares]) rfl wp_finish
  | reset => exact other_fine h (by simp [Call.Prepares]) rfl wp_reset
  | step a => exact other_fine h (by simp [Call.Prepares]) rfl (wp_step h.ready)
  | preparePending a =>
    simp only [Device.call, wp_bind]
    refine wp_mono (wp_preparePending hbase) ?_ ?_
    · rintro ⟨ticket, candidate⟩ r' ⟨hphase, hw, hticket, rfl⟩
      exact prepared_fine h trivial rfl (hbase hphase) hticket (.inl hw)
    rintro x r' (rfl | ⟨hphase, hundone⟩)
    · exact hsame x
    · exact unprepared_fine h trivial rfl (hbase hphase) hundone
  | prepareDevicePending a =>
    simp only [Device.call, wp_bind]
    refine wp_mono (wp_prepareDevicePending hbase) ?_ ?_
    · rintro ⟨ticket, candidate⟩ r' ⟨hphase, hw, hticket, rfl⟩
      exact prepared_fine h trivial rfl (hbase hphase) hticket (.inr hw)
    rintro x r' (rfl | ⟨hphase, hundone⟩)
    · exact hsame x
    · exact unprepared_fine h trivial rfl (hbase hphase) hundone
  | settlePending ticket retained publish =>
    simp only [Device.call, wp_bind]
    refine wp_mono (wp_settlePending hne (fun hp => (hwaits hp).1) hroot) ?_ ?_
    · rintro value r' ⟨hphase, rfl, hsettled⟩
      obtain ⟨hw, hready, g, hg, rfl, hgives⟩ := hwaits hphase
      exact settled_fine h hg hready hgives rfl rfl rfl hsettled
    rintro x r' (rfl | ⟨hphase, rfl, hundone⟩)
    · exact hsame x
    obtain ⟨hw, hready, g, hg, rfl, hgives⟩ := hwaits hphase
    exact undone_fine h hg hready hgives rfl rfl hw.frontier hw.totals hundone
  | cancelPending ticket =>
    simp only [Device.call, wp_bind]
    refine wp_mono (wp_cancelPending hne (fun hp => (hwaits hp).1) hroot) ?_ ?_
    · rintro value r' ⟨hphase, rfl, hback⟩
      obtain ⟨hw, hready, g, hg, rfl, hgives⟩ := hwaits hphase
      exact cancelled_fine h hg hready hgives rfl rfl hw.frontier hw.totals hback
    rintro x r' (rfl | ⟨hphase, rfl, hpoison⟩)
    · exact hsame x
    obtain ⟨hw, hready, g, hg, rfl, hgives⟩ := hwaits hphase
    exact undone_fine h hg hready hgives rfl rfl hw.frontier hw.totals (.inr hpoison)
  | settleDevicePending ticket retained beforeCommit =>
    simp only [Device.call, wp_bind]
    refine wp_mono (wp_settleDevicePending hne' (fun hp => (hwaits' hp).1) hroot') ?_ ?_
    · rintro value r' ⟨hphase, rfl, hsettled⟩
      obtain ⟨hw, hready, g, hg, rfl, hgives⟩ := hwaits' hphase
      exact settled_fine h hg hready hgives rfl rfl rfl hsettled
    rintro x r' (rfl | ⟨hphase, rfl, hundone⟩)
    · exact hsame x
    obtain ⟨hw, hready, g, hg, rfl, hgives⟩ := hwaits' hphase
    exact undone_fine h hg hready hgives rfl rfl hw.frontier hw.totals hundone
  | cancelDevicePending ticket =>
    simp only [Device.call, wp_bind]
    refine wp_mono (wp_cancelDevicePending hne' (fun hp => (hwaits' hp).1) hroot') ?_ ?_
    · rintro value r' ⟨hphase, rfl, hback⟩
      obtain ⟨hw, hready, g, hg, rfl, hgives⟩ := hwaits' hphase
      exact cancelled_fine h hg hready hgives rfl rfl hw.frontier hw.totals hback
    rintro x r' (rfl | ⟨hphase, rfl, hpoison⟩)
    · exact hsame x
    obtain ⟨hw, hready, g, hg, rfl, hgives⟩ := hwaits' hphase
    exact undone_fine h hg hready hgives rfl rfl hw.frontier hw.totals (.inr hpoison)

/-- A poisoned round refuses every call but a reset. -/
theorem poisoned_refuses (hpoisoned : r.phase = .poisoned) (hreset : call ≠ .reset) :
    wp (d.call call) (fun _ _ => False) (fun _ r' => r' = r) r := by
  have hready : ∀ {width : Int} {α : Type} {x : Unit → RoundM α},
      wp (d.requireReadyWidth width >>= x) (fun _ _ => False) (fun _ r' => r' = r) r := by
    intro width α x
    rw [wp_bind]
    exact wp_requireReadyWidth (fun _ => rfl) fun hp => by cases hp.symm.trans hpoisoned
  have hticket : ∀ {ticket : Nat} {α : Type} {x : Step → RoundM α},
      wp (Device.requirePendingTicket ticket >>= x) (fun _ _ => False) (fun _ r' => r' = r) r := by
    intro ticket α x
    rw [wp_bind]
    exact wp_requirePendingTicket (fun _ => rfl) fun _ _ hp => by cases hp.symm.trans hpoisoned
  have hdevice : ∀ {ticket : Nat} {α : Type} {x : Step → RoundM α},
      wp (Device.requireDevicePendingTicket ticket >>= x) (fun _ _ => False) (fun _ r' => r' = r) r := by
    intro ticket α x
    rw [wp_bind]
    exact wp_requireDevicePendingTicket (fun _ => rfl) fun _ _ hp => by cases hp.symm.trans hpoisoned
  have hreturn : ∀ {α : Type} {x : RoundM α} {f : α → Answer}, wp x (fun _ _ => False) (fun _ r' => r' = r) r →
      wp (do let value ← x; return f value) (fun _ _ => False) (fun _ r' => r' = r) r := by
    intro α x f hx
    rw [wp_bind]
    exact wp_imp hx fun _ _ hf => hf.elim
  cases call with
  | beginFresh input =>
    refine hreturn ?_
    simp only [Device.beginFresh, wp_bind, wp_get]
    refine wp_ofExcept.mpr ⟨fun u hok => ?_, fun _ _ => rfl⟩
    obtain ⟨u₁, hphase, -⟩ := bind_ok hok
    exact absurd ((not_not.mp (throwIf_ok.mp hphase)).symm.trans hpoisoned) (by simp)
  | beginPrefilled =>
    refine hreturn ?_
    simp only [Device.beginPrefilled, wp_bind, wp_get]
    exact wp_check (fun _ => rfl) fun hphase => by
      cases (not_not.mp hphase).symm.trans hpoisoned
  | finish =>
    refine hreturn ?_
    simp only [Device.finish, wp_bind, wp_get]
    refine wp_check (fun _ => rfl) fun hphase => absurd ⟨?_, ?_⟩ hphase
    · rw [hpoisoned]; simp
    · rw [hpoisoned]; simp
  | reset => exact absurd rfl hreset
  | step a => exact hreturn hready
  | preparePending a => exact hreturn hready
  | prepareDevicePending a => exact hreturn hready
  | settlePending ticket retained publish => exact hreturn hticket
  | cancelPending ticket => exact hreturn hticket
  | settleDevicePending ticket retained beforeCommit => exact hreturn hdevice
  | cancelDevicePending ticket => exact hreturn hdevice

theorem Device.event_of_wp {P : Event → Prop}
    (h : wp (d.call call) (fun answer r' => P ⟨call, r, .ok answer, r'⟩) (fun e r' => P ⟨call, r, .error e, r'⟩) r) :
    P (d.event r call) := by
  unfold Device.event
  unfold wp at h
  split
  · rename_i hrun
    rw [hrun] at h
    exact h
  rename_i hrun
  rw [hrun] at h
  exact h

@[simp] theorem Device.event_call : (d.event r call).call = call := by
  unfold Device.event
  split <;> rfl

@[simp] theorem Device.event_before : (d.event r call).before = r := by
  unfold Device.event
  split <;> rfl

theorem Device.event_refused (h : wp (d.call call) (fun _ _ => False) (fun _ r' => r' = r) r) :
    (d.event r call).Refused := by
  refine Device.event_of_wp (P := Event.Refused) (wp_mono h (fun _ _ hf => hf.elim) fun e r' he => ?_)
  exact ⟨⟨e, rfl⟩, he⟩

theorem stale_refused (hticket : call.ticket = some ticket)
    (hstale : ¬ ((r.phase = .pending ∨ r.phase = .devicePending) ∧ ticket = r.pendingTicket)) :
    (d.event r call).Refused := by
  refine Device.event_refused ?_
  have hhost : ∀ {α : Type} {x : Step → RoundM α} {f : α → Answer},
      wp (do let value ← Device.requirePendingTicket ticket >>= x; return f value) (fun _ _ => False)
        (fun _ r' => r' = r) r := by
    intro α x f
    simp only [wp_bind]
    exact wp_requirePendingTicket (fun _ => rfl) fun _ _ hp ht => absurd ⟨.inl hp, ht⟩ hstale
  have hdevice : ∀ {α : Type} {x : Step → RoundM α} {f : α → Answer},
      wp (do let value ← Device.requireDevicePendingTicket ticket >>= x; return f value) (fun _ _ => False)
        (fun _ r' => r' = r) r := by
    intro α x f
    simp only [wp_bind]
    exact wp_requireDevicePendingTicket (fun _ => rfl) fun _ _ hp ht => absurd ⟨.inr hp, ht⟩ hstale
  cases call with
  | settlePending ticket' retained publish =>
    cases hticket
    exact hhost
  | cancelPending ticket' =>
    cases hticket
    exact hhost
  | settleDevicePending ticket' retained beforeCommit =>
    cases hticket
    exact hdevice
  | cancelDevicePending ticket' =>
    cases hticket
    exact hdevice
  | _ => exact absurd hticket (by simp [Call.ticket])

theorem sound_run {calls : List Call} {done rest : List Event} (h : Sound earlier r)
    (hevents : d.events r calls = done ++ e :: rest) :
    ∃ r' call, Sound (earlier ++ done) r' ∧ e = d.event r' call := by
  induction calls generalizing earlier r done with
  | nil => exact absurd hevents (by simp [Device.events])
  | cons call calls ih =>
    cases done with
    | nil =>
      cases hevents
      exact ⟨r, call, by simpa using h, rfl⟩
    | cons x done =>
      obtain ⟨rfl, hrest⟩ := List.cons.inj hevents
      have hfine : Event.Fine earlier (d.event r call) := Device.event_of_wp (fine_call call h)
      obtain ⟨r', call', hsound, rfl⟩ := ih hfine.2 hrest
      refine ⟨r', call', ?_, rfl⟩
      rw [append_assoc] at hsound
      exact hsound

theorem sound_new : Sound [] Round.new := by
  refine ⟨fun _ => ⟨rfl, rfl, .inl ⟨rfl, rfl, rfl, rfl⟩⟩, fun hp => absurd hp (by simp [Round.new]),
    fun hp => absurd hp (by simp [Round.new]), fun hp => absurd hp (by simp [Round.new]), fun x hx => absurd hx (by simp),
    fun _ x hx => nomatch hx⟩

/-- A prepared round is atomic. In any run, whatever the calls it makes throw: after a call that prepares, settles or
    cancels, and was not refused without a change, exactly one verdict holds; a poisoned round refuses everything but a
    reset; and a ticket that is settled or cancelled was returned by an earlier call and not spent before. -/
theorem pending_is_atomic (d : Device) (calls : List Call) (earlier later : List Event) (e : Event)
    (hrun : d.events .new calls = earlier ++ e :: later) :
    (e.call.Prepares ∨ e.call.ticket ≠ none → e.Refused ∨
      ∃ root candidate, e.From earlier root candidate ∧ ∃! v : Verdict, v.Holds root candidate e) ∧
    (e.before.phase = .poisoned → e.call ≠ .reset → e.Refused) ∧
    ∀ ticket, e.Spends ticket →
      (∃ g ∈ earlier, ∃ candidate, g.Gives ticket candidate) ∧ ∀ x ∈ earlier, ¬ x.Spends ticket := by
  obtain ⟨r, call, hsound, rfl⟩ := sound_run sound_new hrun
  have hfine : Event.Fine earlier (d.event r call) := Device.event_of_wp (fine_call call hsound)
  have hjudged := hfine.1
  refine ⟨hjudged, fun hpoisoned hreset => ?_, fun ticket hspends => ?_⟩
  · rw [Device.event_before] at hpoisoned
    rw [Device.event_call] at hreset
    exact Device.event_refused (poisoned_refuses hpoisoned hreset)
  · have hticket : call.ticket = some ticket := by
      rw [← hspends.1, Device.event_call]
    have hcurrent : (r.phase = .pending ∨ r.phase = .devicePending) ∧ ticket = r.pendingTicket := by
      by_contra hstale
      exact hspends.2 (stale_refused hticket hstale)
    refine ⟨?_, fun x hx ht => hsound.unspent hcurrent.1 x hx (hcurrent.2 ▸ ht)⟩
    rcases hjudged (.inr (by rw [hspends.1]; simp)) with hrefused | ⟨root, candidate, hfrom, -⟩
    · exact absurd hrefused hspends.2
    cases hfrom with
    | prepares hprepares =>
      rw [Device.event_call] at hprepares
      cases call with
      | preparePending a => exact absurd hticket (by simp [Call.ticket])
      | prepareDevicePending a => exact absurd hticket (by simp [Call.ticket])
      | _ => exact hprepares.elim
    | spends ticket' g c ht hg hc =>
      obtain rfl := mem_unique hspends.1 ht
      exact ⟨g, hg, c, hc⟩

/-- A device on the machine that counts. -/
def countingDevice : Device where
  machine := countingMachine
  draft := ⟨fun _ => none, true⟩
  maxContext := 100

/-- A row is prepared and settled. -/
def settlingCalls : List Call :=
  [.beginFresh [7], .beginPrefilled, .preparePending { width := 1 }, .settlePending 1 1 none]

theorem pending_is_atomic_settled :
    ∃ earlier e, countingDevice.events .new settlingCalls = earlier ++ [e] ∧ e.Spends 1 ∧
      e.after.owners.context.tokens = [7, 1] ∧
      ∃ root candidate, e.From earlier root candidate ∧ ∃! v : Verdict, v.Holds root candidate e := by
  have hcheck : ((countingDevice.events .new settlingCalls).getLast?.any fun e =>
      decide (e.call.ticket = some 1) && decide (e.after.owners.context.tokens = [7, 1]) && e.result.toBool) = true := by
    decide +kernel
  obtain ⟨e, hlast, he⟩ := (Option.any_eq_true _ _).mp hcheck
  simp only [Bool.and_eq_true, decide_eq_true_eq] at he
  obtain ⟨⟨hticket, htokens⟩, hok⟩ := he
  obtain ⟨earlier, hrun⟩ := getLast?_eq_some_iff.mp hlast
  have hnot : ¬ e.Refused := by
    rintro ⟨⟨x, hx⟩, -⟩
    rw [hx] at hok
    exact absurd hok (by simp [Except.toBool])
  obtain ⟨hjudged, -, -⟩ := pending_is_atomic countingDevice settlingCalls earlier [] e hrun
  refine ⟨earlier, e, hrun, ⟨hticket, hnot⟩, htokens, ?_⟩
  rcases hjudged (.inr (by rw [hticket]; simp)) with hrefused | hverdict
  · exact absurd hrefused hnot
  · exact hverdict

/-- A candidate waits. -/
def waitingCalls : List Call :=
  [.beginFresh [7], .beginPrefilled, .preparePending { width := 1 }, .settlePending 1 0 none]

/-- A prefix of no tokens is refused and the candidate goes on waiting: it is not settled, nothing is
    as it was, and the round is not poisoned. -/
theorem empty_prefix_keeps_waiting :
    ∃ e ∈ countingDevice.events .new waitingCalls, e.call.ticket = some 1 ∧ e.after.phase = .pending ∧
      ∀ root candidate v, ¬ Verdict.Holds root candidate e v := by
  have hcheck : ((countingDevice.events .new waitingCalls).getLast?.any fun e =>
      decide (e.call.ticket = some 1) && decide (e.after.phase = .pending) && !e.result.toBool) = true := by
    decide +kernel
  obtain ⟨e, hlast, he⟩ := (Option.any_eq_true _ _).mp hcheck
  simp only [Bool.and_eq_true, decide_eq_true_eq, Bool.not_eq_true'] at he
  obtain ⟨⟨hticket, hphase⟩, hthrew⟩ := he
  refine ⟨e, mem_of_getLast? hlast, hticket, hphase, fun root candidate v hv => ?_⟩
  cases v with
  | prepared =>
    obtain ⟨c, hgives, -⟩ := hv
    rw [show e.result = _ from hgives] at hthrew
    exact absurd hthrew (by simp [Except.toBool])
  | settled =>
    obtain ⟨c, retained, value, -, -, hresult, -⟩ := hv
    rw [hresult] at hthrew
    exact absurd hthrew (by simp [Except.toBool])
  | restored => cases hphase.symm.trans hv.2.1
  | poisoned => cases hphase.symm.trans hv.2

end VoidInfer.Exl3.Pending
