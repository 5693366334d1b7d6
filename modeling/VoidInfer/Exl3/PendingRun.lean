import VoidInfer.Exl3.PendingOwners

/-
  What each call of a round does: it is refused and changes nothing, or it returns, or it goes back to the root
  (`Back`), or it poisons the round (`Poison`). A prepared round waits with what it needs to go back (`Waits`,
  `DeviceWaits`).
-/

namespace VoidInfer.Exl3.Pending
open Option MonadExcept

open Throwing Outer

variable {d : Device} {r r' : Round} {s : Owners} {l : List Int} {a : Attempt} {α : Type}

variable {Q : Unit → Round → Prop} {E : Exn → Round → Prop} {ticket : Nat} {candidate : Step}
  {root : Round}

/-! ## Parts of a call -/

theorem wp_onOwners {x : OwnersM α} {Q : α → Round → Prop} :
    wp (onOwners x) Q E r ↔
      wp x (fun a s => Q a { r with owners := s }) (fun e s => E e { r with owners := s }) r.owners := by
  unfold wp onOwners
  cases x r.owners with
  | ok a s => exact Iff.rfl
  | error e s => exact Iff.rfl

variable {body : RoundM α} {poison : Round → Round} {retained : Nat} {armed : Bool}

theorem wp_guarded {back : RoundM Unit} {ready : Round → Round} {Q : α → Round → Prop}
    {E B P : Round → Prop} (hbody : wp body Q (fun _ => E) (r.inPhase .executing))
    (hback : ∀ r', E r' → wp back (fun _ => B) (fun _ => P) r') :
    wp (Device.guarded body back ready poison) Q
      (fun _ r' => (∃ r'', B r'' ∧ r' = (ready r'').inPhase .ready) ∨
        ∃ r'', P r'' ∧ r' = (poison r'').inPhase .poisoned) r := by
  simp only [Device.guarded, wp_bind, wp_modify, wp_tryCatch, wp_throw]
  refine wp_fail hbody fun _ r₁ he => ?_
  exact wp_mono (hback r₁ he) (fun _ r₂ hb => .inl ⟨r₂, hb, rfl⟩) fun _ r₂ hp => .inr ⟨r₂, hp, rfl⟩

theorem wp_poisoning {Q : α → Round → Prop} {P : Round → Prop}
    (hbody : wp body Q (fun _ => P) (r.inPhase .executing)) :
    wp (Device.poisoning body poison) Q (fun _ r' => ∃ r'', P r'' ∧ r' = (poison r'').inPhase .poisoned) r := by
  simp only [Device.poisoning, wp_bind, wp_modify, wp_tryCatch, wp_throw]
  exact wp_fail hbody fun _ r₁ he => ⟨r₁, he, rfl⟩

theorem wp_requireReadyWidth {width : Int}
    (hE : ∀ e, E e r) (hQ : r.phase = .ready → Q () r) : wp (d.requireReadyWidth width) Q E r := by
  refine wp_ofExcept.mpr ⟨fun u hok => ?_, fun e _ => hE e⟩
  obtain ⟨u₁, hphase, -⟩ := bind_ok hok
  exact hQ (not_not.mp (throwIf_ok.mp hphase))

theorem wp_check {bad : Prop} [Decidable bad] {e : Exn}
    (hE : ∀ e, E e r) (hQ : ¬ bad → Q () r) : wp (ofExcept (throwIf bad e)) Q E r :=
  wp_ofExcept.mpr ⟨fun _ hok => hQ (throwIf_ok.mp hok), fun e _ => hE e⟩

theorem wp_requireTicketLeft (hE : ∀ e, E e r) (hQ : Q () r) : wp Device.requireTicketLeft Q E r := by
  exact wp_check hE fun _ => hQ

/-! ## What the calls do -/

/-- Both owners at a root, and nothing pending. -/
structure Ready (l : List Int) (r : Round) : Prop where
  nonempty : l ≠ []
  owners : AtRoot l r.owners
  frontier : r.frontier = l.length
  pendingRoot : r.pendingRoot = none
  pendingRing : r.pendingRing = none

/-- The same ticket, frontier and totals. -/
structure Kept (r r' : Round) : Prop where
  ticket : r'.pendingTicket = r.pendingTicket
  frontier : r'.frontier = r.frontier
  totals : r'.totals = r.totals

/-- The round is ready again at its root. -/
structure Back (l : List Int) (r r' : Round) : Prop where
  phase : r'.phase = .ready
  ready : Ready l r'
  kept : Kept r r'

/-- The round is poisoned. -/
structure Poison (r r' : Round) : Prop where
  phase : r'.phase = .poisoned
  ticket : r'.pendingTicket = r.pendingTicket

/-- A candidate waits, with host states of the root. -/
structure Waits (l : List Int) (candidate : Step) (r r' : Round) : Prop where
  phase : r'.phase = .pending
  pending : r'.pending = some candidate
  root : ∃ host, r'.pendingRoot = some host ∧ host.tokens = l
  ring : ∃ ring, r'.pendingRing = some ring ∧ ring.Of l.length
  position : candidate.rootPosition = l.length
  some_row : candidate.committedTokens ≠ []
  context : At r'.owners.context (l ++ candidate.committedTokens) none
  full : r'.owners.ring.Full l.length
  frontier : r'.frontier = r.frontier
  totals : r'.totals = r.totals

/-- A candidate waits, with its transaction left open. -/
structure DeviceWaits (l : List Int) (candidate : Step) (r r' : Round) : Prop where
  phase : r'.phase = .devicePending
  pending : r'.devicePending = some candidate
  position : candidate.rootPosition = l.length
  some_row : candidate.committedTokens ≠ []
  context : ∃ tx, At r'.owners.context (l ++ candidate.committedTokens) tx ∧ Saved l tx
  full : r'.owners.ring.Full l.length
  frontier : r'.frontier = r.frontier
  totals : r'.totals = r.totals
  pendingRoot : r'.pendingRoot = none
  pendingRing : r'.pendingRing = none

theorem wp_export (h : At s.context l none) :
    wp (onContext d.machine.exportExactHostState)
      (fun state s' => state = (l, l) ∧ ∃ c, s' = { s with context := c } ∧ At c l none) (fun _ _ => True) s := by
  refine wp_onContext.mpr ?_
  simp only [Machine.exportExactHostState, wp_bind]
  refine wp_require (fun _ => trivial) fun _ => wp_observe (fun _ _ _ => trivial) fun c hc => ?_
  have h' := h.same hc
  exact ⟨by rw [h'.tokens, h'.head], c, rfl, h'⟩

theorem wp_restorePendingRoot (hroot : ∀ host, r.pendingRoot = some host → host.tokens = l)
    (hring : ∀ ring, r.pendingRing = some ring → ring.Of l.length) (hfrontier : r.frontier = l.length) :
    wp d.restorePendingRoot (fun _ r' => ∃ s, r' = { r with owners := s } ∧ AtRoot l s)
      (fun _ r' => ∃ s, r' = { r with owners := s }) r := by
  refine wp_onOwners.mpr ?_
  cases hr : r.pendingRoot with
  | none => exact ⟨r.owners, rfl⟩
  | some host =>
    cases hg : r.pendingRing with
    | none => exact ⟨r.owners, rfl⟩
    | some ring =>
      obtain rfl := hroot host hr
      rw [hfrontier]
      exact wp_mono (wp_restoreOwners (hring ring hg)) (fun _ s hs => ⟨s, rfl, hs⟩) fun _ s _ => ⟨s, rfl⟩

/-- A round that was preparing and threw. -/
def Preparing (l : List Int) (r r' : Round) : Prop :=
  (∃ s root ring, r' = { r with owners := s, phase := .executing, pendingRoot := root, pendingRing := ring }) ∧
    (∀ host, r'.pendingRoot = some host → host.tokens = l) ∧ ∀ ring, r'.pendingRing = some ring → ring.Of l.length

theorem wp_prepareBody (h : Ready l r) :
    wp (d.prepareBody a) (fun p r' => Waits l p.2 r r' ∧ r'.pendingTicket = r.pendingTicket + 1 ∧ p.1 = r'.pendingTicket)
      (fun _ => Preparing l r) (r.inPhase .executing) := by
  have hnone : ∀ s, Preparing l r { r.inPhase .executing with owners := s } := by
    intro s
    refine ⟨⟨s, r.pendingRoot, r.pendingRing, rfl⟩, fun host hh => ?_, fun ring hh => ?_⟩
    · cases h.pendingRoot.symm.trans hh
    · cases h.pendingRing.symm.trans hh
  have hhost : Round.hostState (l, l) r.pendingTicket = some ⟨r.pendingTicket, l, h.nonempty⟩ :=
    dif_pos ⟨h.nonempty, rfl⟩
  simp only [Device.prepareBody, wp_bind]
  refine wp_onOwners.mpr (wp_mono (wp_export h.owners.context) (fun state s₁ h₁ => ?_) fun _ s _ => hnone s)
  obtain ⟨rfl, c₁, rfl, hat₁⟩ := h₁
  refine wp_onOwners.mpr (wp_onRing.mpr (wp_mono (wp_exportHostRing h.owners.ring ?_) (fun ring r₂ h₂ => ?_) fun _ r₂ _ => ?_))
  · exact List.length_pos_iff.mpr h.nonempty
  · -- from here on both host states are there
    have hboth : ∀ s, Preparing l r { r with
        owners := s, phase := .executing, pendingRoot := some ⟨r.pendingTicket, l, h.nonempty⟩
        pendingRing := some ring } := by
      intro s
      refine ⟨⟨s, _, _, rfl⟩, fun host hh => ?_, fun ring' hh => ?_⟩
      · cases hh
        rfl
      · cases hh
        exact h₂.2
    simp only [wp_get, Round.inPhase, hhost]
    refine wp_check (fun _ => hboth _) fun _ => ?_
    refine wp_onOwners.mpr (wp_mono (wp_runRound hat₁ h₂.1 h.nonempty h.frontier rfl) (fun value s₃ h₃ => ?_) fun _ s _ => hboth s)
    refine wp_check (fun _ => hboth _) fun hchecked => ?_
    obtain ⟨tx, hat₃, hleaves⟩ := h₃.context
    obtain rfl : tx = none := hleaves
    refine ⟨⟨rfl, rfl, ⟨_, rfl, rfl⟩, ⟨ring, rfl, h₂.2⟩, h₃.root, fun hnil => hchecked (.inl hnil), hat₃, h₃.ring, rfl, rfl⟩, by trivial, by trivial⟩
  refine ⟨⟨_, _, r.pendingRing, rfl⟩, fun host hh => ?_, fun ring hh => ?_⟩
  · obtain rfl := mem_unique hhost hh
    rfl
  · cases h.pendingRing.symm.trans hh

/-- Back at the root, or poisoned. -/
def Undone (l : List Int) (r r' : Round) : Prop := Back l r r' ∨ Poison r r'

theorem wp_preparePending (h : r.phase = .ready → Ready l r) :
    wp (d.preparePending a)
      (fun p r' => r.phase = .ready ∧ Waits l p.2 r r' ∧ r'.pendingTicket = r.pendingTicket + 1 ∧
        p.1 = r'.pendingTicket)
      (fun _ r' => r' = r ∨ r.phase = .ready ∧ Undone l r r') r := by
  simp only [Device.preparePending, wp_bind]
  refine wp_requireReadyWidth (fun _ => .inl rfl) fun hphase => wp_requireTicketLeft (fun _ => .inl rfl) ?_
  have hready := h hphase
  have hback : ∀ r', Preparing l r r' → wp d.restorePendingRoot
      (fun _ r'' => ∃ s root ring, r'' = { r with owners := s, phase := .executing, pendingRoot := root, pendingRing := ring } ∧ AtRoot l s)
      (fun _ r'' => ∃ s root ring, r'' = { r with owners := s, phase := .executing, pendingRoot := root, pendingRing := ring }) r' := by
    rintro r' ⟨⟨s, root, ring, rfl⟩, hroot, hring⟩
    refine wp_mono (wp_restorePendingRoot hroot hring hready.frontier) ?_ ?_
    · rintro _ r'' ⟨s', rfl, hs'⟩
      exact ⟨s', root, ring, rfl, hs'⟩
    rintro _ r'' ⟨s', rfl⟩
    exact ⟨s', root, ring, rfl⟩
  refine wp_mono (wp_guarded (wp_prepareBody hready) hback) (fun p r' hp => ⟨hphase, hp⟩) fun _ r' he => .inr ⟨hphase, ?_⟩
  rcases he with ⟨r'', ⟨s, root, ring, rfl, hs⟩, rfl⟩ | ⟨r'', ⟨s, root, ring, rfl⟩, rfl⟩
  · exact .inl ⟨rfl, ⟨hready.nonempty, hs, hready.frontier, rfl, rfl⟩, rfl, rfl, rfl⟩
  · exact .inr ⟨rfl, rfl⟩

theorem wp_requirePendingTicket {Q : Step → Round → Prop} (hE : ∀ e, E e r)
    (hQ : ∀ value, r.pending = some value → r.phase = .pending → ticket = r.pendingTicket → Q value r) :
    wp (Device.requirePendingTicket ticket) Q E r := by
  simp only [Device.requirePendingTicket, wp_bind, wp_get]
  split
  · rename_i value hvalue
    simp only [wp_bind]
    refine wp_check hE fun hok => ?_
    refine hQ value hvalue ?_ ?_
    · by_contra hnot
      exact hok (.inl hnot)
    by_contra hnot
    exact hok (.inr (.inr (.inl hnot)))
  · exact hE _

/-- The settled prefix. -/
structure SettledAt (l : List Int) (candidate : Step) (retained : Nat) (value : Step) (r r' : Round) : Prop where
  phase : r'.phase = .ready ∨ r'.phase = .closed
  tokens : value.committedTokens = candidate.committedTokens.take retained
  ready : Ready (l ++ value.committedTokens) r'
  ticket : r'.pendingTicket = r.pendingTicket

theorem Round.settled_phase (r : Round) (value : Step) :
    (r.settled value).phase = .ready ∨ (r.settled value).phase = .closed := by
  unfold Round.settled
  cases value.terminal with
  | true => exact .inr rfl
  | false => exact .inl rfl

/-- The owners changed while the call ran. -/
def Running (r r' : Round) : Prop := ∃ s, r' = { r with owners := s, phase := .executing }

theorem Waits.restore (h : Waits l candidate root r) (hroot : root.frontier = l.length) (hr : Running r r') :
    wp d.restorePendingRoot (fun _ r'' => ∃ s, r'' = { r with owners := s, phase := .executing } ∧ AtRoot l s)
      (fun _ => Running r) r' := by
  obtain ⟨s, rfl⟩ := hr
  obtain ⟨host, hhost, hl⟩ := h.root
  obtain ⟨ring, hring, hof⟩ := h.ring
  refine wp_mono (wp_restorePendingRoot (l := l) ?_ ?_ (h.frontier.trans hroot)) ?_ ?_
  · intro host' hh
    obtain rfl := mem_unique hhost hh
    exact hl
  · intro ring' hh
    obtain rfl := mem_unique hring hh
    exact hof
  · rintro _ r'' ⟨s', rfl, hs'⟩
    exact ⟨s', rfl, hs'⟩
  rintro _ r'' ⟨s', rfl⟩
  exact ⟨s', rfl⟩

theorem Waits.back (hne : l ≠ []) (h : Waits l candidate root r)
    (hroot : root.frontier = l.length) (hs : AtRoot l s) :
    Back l r ((Round.clearPending { r with owners := s, phase := .executing }).inPhase .ready) :=
  ⟨rfl, ⟨hne, hs, h.frontier.trans hroot, rfl, rfl⟩, rfl, rfl, rfl⟩

section
variable (hne : l ≠ []) (h : r.phase = .pending → Waits l candidate root r) (hroot : root.frontier = l.length)
include hne h hroot

theorem wp_settlePending {publish : Option Exn} :
    wp (d.settlePending ticket retained publish)
      (fun value r' => r.phase = .pending ∧ ticket = r.pendingTicket ∧ SettledAt l candidate retained value r r')
      (fun _ r' => r' = r ∨ r.phase = .pending ∧ ticket = r.pendingTicket ∧ Undone l r r') r := by
  simp only [Device.settlePending, wp_bind]
  refine wp_requirePendingTicket (fun _ => .inl rfl) fun value hvalue hphase hticket => ?_
  have hwaits := h hphase
  obtain rfl := mem_unique hwaits.pending hvalue
  refine wp_check (fun _ => .inl rfl) fun hretained => ?_
  obtain ⟨host, hhost, rfl⟩ := hwaits.root
  obtain ⟨ring, hring, hof⟩ := hwaits.ring
  have hle : retained ≤ candidate.committedTokens.length := by omega
  have hbody : wp (d.settleBody candidate retained publish)
      (fun value r' => r.phase = .pending ∧ ticket = r.pendingTicket ∧
        SettledAt host.tokens candidate retained value r r')
      (fun _ => Running r) (r.inPhase .executing) := by
    have hsettle : wp (d.settleOwners r.pendingRoot r.pendingRing r.frontier candidate r.pendingTerminal retained publish)
        (fun v s' => v.committedTokens = candidate.committedTokens.take retained ∧
          AtRoot (host.tokens ++ v.committedTokens) s') (fun _ _ => True) r.owners := by
      rw [hhost, hring, hwaits.frontier.trans hroot]
      exact wp_settleOwners hof hwaits.position hwaits.context hwaits.full hle
    simp only [Device.settleBody, wp_bind, wp_get]
    refine wp_onOwners.mpr (wp_mono hsettle (fun v s₁ h₁ => ?_) fun _ s _ => ⟨s, rfl⟩)
    refine ⟨hphase, hticket, ?_, h₁.1, ⟨by simp [hne], h₁.2, ?_, rfl, rfl⟩, rfl⟩
    · exact Round.settled_phase { r with owners := s₁, phase := .executing } v
    · exact congrArg List.length h₁.2.context.tokens
  refine wp_fail (wp_guarded hbody fun r' hr' => hwaits.restore hroot hr') fun _ r' he => ?_
  refine .inr ⟨hphase, hticket, ?_⟩
  rcases he with ⟨r'', ⟨s, rfl, hs⟩, rfl⟩ | ⟨r'', ⟨s, rfl⟩, rfl⟩
  · exact .inl (hwaits.back hne hroot hs)
  · exact .inr ⟨rfl, rfl⟩

theorem wp_cancelPending :
    wp (d.cancelPending ticket) (fun _ r' => r.phase = .pending ∧ ticket = r.pendingTicket ∧ Back l r r')
      (fun _ r' => r' = r ∨ r.phase = .pending ∧ ticket = r.pendingTicket ∧ Poison r r') r := by
  simp only [Device.cancelPending, wp_bind]
  refine wp_requirePendingTicket (fun _ => .inl rfl) fun value hvalue hphase hticket => ?_
  have hwaits := h hphase
  refine wp_fail (wp_poisoning (P := Running r) ?_) fun _ r' he => .inr ⟨hphase, hticket, ?_⟩
  · simp only [wp_bind, wp_modify]
    refine wp_imp (hwaits.restore hroot ⟨r.owners, rfl⟩) ?_
    rintro _ r'' ⟨s, rfl, hs⟩
    exact ⟨hphase, hticket, hwaits.back hne hroot hs⟩
  obtain ⟨r'', ⟨s, rfl⟩, rfl⟩ := he
  exact ⟨rfl, rfl⟩

end

/-! ## With the transaction left open -/

theorem wp_restoreDevice (hfrontier : r.frontier = l.length) (hcontext : Rooted l s.context)
    (hring : RingBack armed l.length s.ring) :
    wp (d.restoreDevicePendingRoot armed)
      (fun _ r' => ∃ s', r' = { r with owners := s', phase := .executing } ∧ AtRoot l s') (fun _ => Running r)
      { r with owners := s, phase := .executing } := by
  have hroll : wp (d.rollbackOwners armed r.frontier) (fun _ => AtRoot l) (fun _ _ => True) s := by
    rw [hfrontier]
    exact wp_rollbackOwners hcontext hring
  simp only [Device.restoreDevicePendingRoot, wp_bind, wp_get]
  exact wp_onOwners.mpr (wp_mono hroll (fun _ s' hs => ⟨s', rfl, hs⟩) fun _ s' _ => ⟨s', rfl⟩)

theorem wp_prepareDevicePending (h : r.phase = .ready → Ready l r) :
    wp (d.prepareDevicePending a)
      (fun p r' => r.phase = .ready ∧ DeviceWaits l p.2 r r' ∧ r'.pendingTicket = r.pendingTicket + 1 ∧
        p.1 = r'.pendingTicket)
      (fun _ r' => r' = r ∨ r.phase = .ready ∧ Undone l r r') r := by
  simp only [Device.prepareDevicePending, Device.requireDevicePending, wp_bind, wp_get]
  refine wp_requireReadyWidth (fun _ => .inl rfl) fun hphase => wp_check (fun _ => .inl rfl) fun _ =>
    wp_requireTicketLeft (fun _ => .inl rfl) ?_
  have hready := h hphase
  have hbody : wp (d.prepareDeviceBody a)
      (fun p r' => DeviceWaits l p.2 r r' ∧ r'.pendingTicket = r.pendingTicket + 1 ∧ p.1 = r'.pendingTicket)
      (fun _ r' => ∃ s, r' = { r with owners := s, phase := .executing } ∧ Rooted l s.context ∧
        s.ring.Full l.length) (r.inPhase .executing) := by
    simp only [Device.prepareDeviceBody, wp_bind, wp_get]
    refine wp_onOwners.mpr (wp_mono (wp_runDeferred hready.owners.context hready.owners.ring hready.nonempty
      hready.frontier rfl) (fun value s₁ h₁ => ?_) fun _ s hs => ⟨s, rfl, hs⟩)
    obtain ⟨tx, hat, hleaves⟩ := h₁.context
    have hsaved : Rooted l s₁.context := .inl (hat.transaction ▸ hleaves)
    refine wp_check (fun _ => ⟨s₁, rfl, hsaved, h₁.ring⟩) fun hchecked => ?_
    exact ⟨⟨rfl, rfl, h₁.root, fun hnil => hchecked (.inl hnil), ⟨tx, hat, hleaves⟩, h₁.ring, rfl, rfl,
      hready.pendingRoot, hready.pendingRing⟩, by trivial, by trivial⟩
  have hback : ∀ r', (∃ s, r' = { r with owners := s, phase := .executing } ∧ Rooted l s.context ∧
      s.ring.Full l.length) → wp (d.restoreDevicePendingRoot false)
        (fun _ r'' => ∃ s, r'' = { r with owners := s, phase := .executing } ∧ AtRoot l s) (fun _ => Running r) r' := by
    rintro r' ⟨s, rfl, hcontext, hring⟩
    exact wp_restoreDevice hready.frontier hcontext ⟨(fun hf => by cases hf), fun _ => hring⟩
  refine wp_mono (wp_guarded hbody hback) (fun _ _ hq => ⟨hphase, hq⟩) fun _ r' he => .inr ⟨hphase, ?_⟩
  rcases he with ⟨r'', ⟨s, rfl, hs⟩, rfl⟩ | ⟨r'', ⟨s, rfl⟩, rfl⟩
  · exact .inl ⟨rfl, ⟨hready.nonempty, hs, hready.frontier, hready.pendingRoot, hready.pendingRing⟩, rfl, rfl, rfl⟩
  · exact .inr ⟨rfl, rfl⟩

theorem wp_requireDevicePendingTicket {Q : Step → Round → Prop} (hE : ∀ e, E e r)
    (hQ : ∀ value, r.devicePending = some value → r.phase = .devicePending → ticket = r.pendingTicket → Q value r) :
    wp (Device.requireDevicePendingTicket ticket) Q E r := by
  simp only [Device.requireDevicePendingTicket, wp_bind, wp_get]
  split
  · rename_i value hvalue
    simp only [wp_bind]
    refine wp_check hE fun hok => ?_
    refine hQ value hvalue ?_ ?_
    · by_contra hnot
      exact hok (.inl hnot)
    by_contra hnot
    exact hok (.inr (.inr (.inl hnot)))
  · exact hE _

theorem DeviceWaits.back (hne : l ≠ []) (h : DeviceWaits l candidate root r)
    (hroot : root.frontier = l.length) (hs : AtRoot l s) :
    Back l r ((Round.clearDevicePending { r with owners := s, phase := .executing }).inPhase .ready) :=
  ⟨rfl, ⟨hne, hs, h.frontier.trans hroot, h.pendingRoot, h.pendingRing⟩, rfl, rfl, rfl⟩

section
variable (hne : l ≠ []) (h : r.phase = .devicePending → DeviceWaits l candidate root r) (hroot : root.frontier = l.length)
include hne h hroot

theorem wp_settleDevicePending {beforeCommit : Option Exn} :
    wp (d.settleDevicePending ticket retained beforeCommit)
      (fun value r' => r.phase = .devicePending ∧ ticket = r.pendingTicket ∧ SettledAt l candidate retained value r r')
      (fun _ r' => r' = r ∨ r.phase = .devicePending ∧ ticket = r.pendingTicket ∧ Undone l r r') r := by
  simp only [Device.settleDevicePending, wp_bind]
  refine wp_requireDevicePendingTicket (fun _ => .inl rfl) fun value hvalue hphase hticket => ?_
  have hwaits := h hphase
  obtain rfl := mem_unique hwaits.pending hvalue
  obtain ⟨tx, hat, hsaved⟩ := hwaits.context
  refine wp_check (fun _ => .inl rfl) fun hretained => ?_
  have hle : retained ≤ candidate.committedTokens.length := by omega
  have hbody : wp (d.settleDeviceBody candidate retained beforeCommit)
      (fun value r' => r.phase = .devicePending ∧ ticket = r.pendingTicket ∧ SettledAt l candidate retained value r r')
      (fun _ r' => ∃ s, r' = { r with owners := s, phase := .executing } ∧ Undecided l s) (r.inPhase .executing) := by
    simp only [Device.settleDeviceBody, wp_bind, wp_get, wp_modify]
    refine wp_onOwners.mpr (wp_mono (wp_settleDeviceOwners hsaved hwaits.position hat hwaits.full hle rfl)
      (fun v s₁ h₁ => ?_) fun _ s hs => ⟨s, rfl, hs⟩)
    refine ⟨hphase, hticket, ?_, h₁.1, ⟨by simp [hne], h₁.2, ?_, hwaits.pendingRoot, hwaits.pendingRing⟩, rfl⟩
    · exact Round.settled_phase { r with owners := s₁, phase := .executing } v
    · exact congrArg List.length h₁.2.context.tokens
  have hback : ∀ r', (∃ s, r' = { r with owners := s, phase := .executing } ∧ Undecided l s) →
      wp d.undoDevicePending (fun _ r'' => ∃ s, r'' = { r with owners := s, phase := .executing } ∧ AtRoot l s)
        (fun _ => Running r) r' := by
    rintro r' ⟨s, rfl, hs⟩
    simp only [Device.undoDevicePending, wp_bind, wp_get]
    refine wp_check (fun _ => ⟨s, rfl⟩) fun hchecked => ?_
    rcases hs with hirreversible | hadmitted | ⟨hcontext, hring⟩
    · exact absurd (.inl hirreversible) hchecked
    · exact absurd (.inr hadmitted) hchecked
    · exact wp_restoreDevice (hwaits.frontier.trans hroot) hcontext hring
  refine wp_fail (wp_guarded hbody hback) fun _ r' he => .inr ⟨hphase, hticket, ?_⟩
  rcases he with ⟨r'', ⟨s, rfl, hs⟩, rfl⟩ | ⟨r'', ⟨s, rfl⟩, rfl⟩
  · exact .inl (hwaits.back hne hroot hs)
  · exact .inr ⟨rfl, rfl⟩

theorem wp_cancelDevicePending :
    wp (d.cancelDevicePending ticket) (fun _ r' => r.phase = .devicePending ∧ ticket = r.pendingTicket ∧ Back l r r')
      (fun _ r' => r' = r ∨ r.phase = .devicePending ∧ ticket = r.pendingTicket ∧ Poison r r') r := by
  simp only [Device.cancelDevicePending, wp_bind]
  refine wp_requireDevicePendingTicket (fun _ => .inl rfl) fun value hvalue hphase hticket => ?_
  have hwaits := h hphase
  obtain ⟨tx, hat, hsaved⟩ := hwaits.context
  refine wp_fail (wp_poisoning (P := Running r) ?_) fun _ r' he => .inr ⟨hphase, hticket, ?_⟩
  · simp only [wp_bind, wp_modify]
    have hcontext : Rooted l r.owners.context := .inl (hat.transaction ▸ hsaved)
    refine wp_imp (wp_restoreDevice (hwaits.frontier.trans hroot) hcontext
      ⟨nofun, fun _ => hwaits.full⟩) ?_
    rintro _ r'' ⟨s, rfl, hs⟩
    exact ⟨hphase, hticket, hwaits.back hne hroot hs⟩
  obtain ⟨r'', ⟨s, rfl⟩, rfl⟩ := he
  exact ⟨rfl, rfl⟩

end

/-! ## The other calls -/

/-- Not begun: nothing pending, and the context empty or prefilled. -/
structure Idle (r : Round) : Prop where
  pendingRoot : r.pendingRoot = none
  pendingRing : r.pendingRing = none
  owners : (At r.owners.context [] none) ∨ ∃ l, l ≠ [] ∧ AtRoot l r.owners

/-- Nothing is pending: the round has not begun, is ready, or is closed. -/
structure Plain (r r' : Round) : Prop where
  ticket : r'.pendingTicket = r.pendingTicket
  state : r'.phase = .unstarted ∧ Idle r' ∨ r'.phase = .ready ∧ (∃ l, Ready l r') ∨ r'.phase = .closed

theorem wp_beginFresh {input : List Int} (h : r.phase = .unstarted → Idle r) :
    wp (d.beginFresh input) (fun _ => Plain r) (fun _ r' => r' = r ∨ Poison r r') r := by
  simp only [Device.beginFresh, wp_bind, wp_get]
  refine wp_ofExcept.mpr ⟨fun u hok => ?_, fun _ _ => .inl rfl⟩
  obtain ⟨u₁, hphase, hextent⟩ := bind_ok hok
  have hidle := h (not_not.mp (throwIf_ok.mp hphase))
  have hinput : input ≠ [] := fun hnil => throwIf_ok.mp hextent (.inr (.inl hnil))
  have hat : At r.owners.context [] none := by
    rcases hidle.owners with hat | ⟨l, hne, hroot⟩
    · exact hat
    refine absurd (.inl fun hzero => hne ?_) (throwIf_ok.mp hextent)
    rw [← hroot.context.tokens]
    exact List.length_eq_zero_iff.mp hzero
  refine wp_fail (wp_poisoning (P := Running r) ?_) fun _ r' he => .inr ?_
  · simp only [wp_bind, wp_modify]
    refine wp_onOwners.mpr (wp_onRing.mpr ?_)
    refine wp_ringAttempt (fun _ _ => ⟨_, rfl⟩) ?_
    refine wp_onOwners.mpr (wp_onContext.mpr ?_)
    have hput : wp (d.machine.attempt fun c => c.put input input [] [] 1) (fun _ c => At c input none)
        (Threw d.machine fun _ => True) r.owners.context :=
      wp_attempt trivial ⟨rfl, rfl, hat.transaction, hat.torn⟩
    refine wp_mono hput (fun _ c hc => ?_) fun _ c _ => ⟨_, rfl⟩
    refine wp_onOwners.mpr (wp_onRing.mpr ?_)
    refine wp_ringAttempt (fun _ _ => ⟨_, rfl⟩) ?_
    refine wp_onOwners.mpr (wp_sync (fun _ _ _ => ⟨_, rfl⟩) fun c' hc' => ?_)
    refine ⟨rfl, .inl ⟨rfl, hidle.pendingRoot, hidle.pendingRing, .inr ⟨input, hinput, hc.same hc', ?_⟩⟩⟩
    exact (DraftRing.full_fresh (List.length_pos_iff.mpr hinput)).same
  obtain ⟨r'', ⟨s, rfl⟩, rfl⟩ := he
  exact ⟨rfl, rfl⟩

theorem wp_beginPrefilled (h : r.phase = .unstarted → Idle r) :
    wp d.beginPrefilled (fun _ => Plain r) (fun _ r' => r' = r ∨ Poison r r') r := by
  simp only [Device.beginPrefilled, wp_bind, wp_get]
  refine wp_check (fun _ => .inl rfl) fun hphase => ?_
  have hidle := h (not_not.mp hphase)
  refine wp_fail (wp_poisoning (P := fun r' => r'.pendingTicket = r.pendingTicket) ?_) fun _ r' he => .inr ?_
  · simp only [wp_bind, wp_modify, wp_get]
    refine wp_check (fun _ => rfl) fun hfrontier => ?_
    refine wp_onOwners.mpr (wp_onContext.mpr (wp_observe (fun _ _ _ => rfl) fun c hc => ?_))
    rcases hidle.owners with hat | ⟨l, hne, hroot⟩
    · exact absurd (.inl (congrArg List.length hat.tokens)) hfrontier
    refine ⟨rfl, .inr (.inl ⟨rfl, l, hne, ⟨hroot.context.same hc, hroot.ring⟩, ?_, hidle.pendingRoot, hidle.pendingRing⟩)⟩
    exact congrArg List.length hroot.context.tokens
  obtain ⟨r'', hticket, rfl⟩ := he
  exact ⟨rfl, hticket⟩

theorem wp_step (h : r.phase = .ready → ∃ l, Ready l r) :
    wp (d.step a) (fun _ => Plain r) (fun _ r' => r' = r ∨ Poison r r') r := by
  simp only [Device.step, wp_bind]
  refine wp_requireReadyWidth (fun _ => .inl rfl) fun hphase => ?_
  obtain ⟨l, hready⟩ := h hphase
  refine wp_fail (wp_poisoning (P := Running r) ?_) fun _ r' he => .inr ?_
  · simp only [wp_bind, wp_get, wp_modify, wp_pure]
    refine wp_onOwners.mpr (wp_mono (wp_runRound hready.owners.context hready.owners.ring hready.nonempty
      hready.frontier rfl) (fun value s₁ h₁ => ?_) fun _ s _ => ⟨s, rfl⟩)
    refine wp_check (fun _ => ⟨s₁, rfl⟩) fun _ => ⟨rfl, ?_⟩
    obtain ⟨tx, hat, hleaves⟩ := h₁.context
    obtain rfl : tx = none := hleaves
    have hring : s₁.ring.Full (l ++ value.committedTokens).length := by
      rw [List.length_append]
      exact h₁.ring
    rcases Round.settled_phase { r with owners := s₁, phase := .executing }
      { value with terminal := value.terminal || Device.ends value a.terminal } with hready' | hclosed
    · refine .inr (.inl ⟨hready', l ++ value.committedTokens, by simp [hready.nonempty], ⟨hat, hring⟩, ?_,
        hready.pendingRoot, hready.pendingRing⟩)
      exact congrArg List.length hat.tokens
    · exact .inr (.inr hclosed)
  obtain ⟨r'', ⟨s, rfl⟩, rfl⟩ := he
  exact ⟨rfl, rfl⟩

theorem wp_finish : wp d.finish (fun _ => Plain r) (fun _ r' => r' = r ∨ Poison r r') r := by
  simp only [Device.finish, wp_bind, wp_get, wp_tryCatch, wp_modify, wp_throw]
  refine wp_check (fun _ => .inl rfl) fun _ => ?_
  refine wp_onOwners.mpr (wp_sync (fun _ _ _ => .inr ⟨rfl, rfl⟩) fun c _ => ?_)
  exact wp_check (fun _ => .inr ⟨rfl, rfl⟩) fun _ => ⟨rfl, .inr (.inr rfl)⟩

theorem wp_reset : wp d.reset (fun _ => Plain r) (fun _ r' => r' = r ∨ Poison r r') r := by
  have hcontext : wp (Device.caught (onContext d.machine.reset))
      (fun first s => first = none → At s.context [] none) (fun _ _ => False) r.owners := by
    simp only [Device.caught, wp_tryCatch, wp_bind, wp_pure]
    refine wp_onContext.mpr ?_
    have hreset : wp d.machine.reset (fun _ c => At c [] none) (Threw d.machine fun _ => True) r.owners.context :=
      wp_attempt trivial ⟨rfl, rfl, rfl, rfl⟩
    exact wp_mono hreset (fun _ c hc _ => hc) fun _ _ _ hnone => nomatch hnone
  have hring : ∀ s, wp (Device.caught (onRing d.draft.reset)) (fun _ s' => s'.context = s.context) (fun _ _ => False) s := by
    intro s
    simp only [Device.caught, wp_tryCatch, wp_bind, wp_pure]
    exact wp_onRing.mpr (wp_const (fun _ _ => rfl) fun _ _ => rfl)
  simp only [Device.reset, wp_bind, wp_get, wp_modify]
  refine wp_check (fun _ => .inl rfl) fun _ => ?_
  refine wp_onOwners.mpr (wp_mono hcontext (fun first s₁ h₁ => ?_) fun _ _ hf => hf.elim)
  refine wp_onOwners.mpr (wp_mono (hring s₁) (fun second s₂ h₂ => ?_) fun _ _ hf => hf.elim)
  cases first with
  | some failure => exact .inr ⟨rfl, rfl⟩
  | none =>
    cases second with
    | some failure => exact .inr ⟨rfl, rfl⟩
    | none =>
      refine ⟨rfl, .inl ⟨rfl, rfl, rfl, .inl ?_⟩⟩
      show At s₂.context [] none
      rw [h₂]
      exact h₁ rfl

end VoidInfer.Exl3.Pending
