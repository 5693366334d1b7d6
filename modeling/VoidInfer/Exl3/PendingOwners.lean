import VoidInfer.Exl3.DeviceRoundOpen
import VoidInfer.Exl3.PendingRound

/-
  What the parts of a round do to its two owners. A round that ran holds the root and the committed tokens in the
  context (`Ran`); one that threw with its transaction left open can be undone (`Rooted`). Before the ring admitted
  rows, or while it can take them back, a settlement that threw can be undone too (`Undecided`).
-/

namespace VoidInfer.Exl3.Pending
open List MonadExcept

open Throwing Outer

variable {d : Device} {s s' : Owners} {c : Context} {l ts : List Int} {tx : Option Snapshot} {n retained : Nat}
  {α : Type} {value : Step} {a : Attempt} {settlement : Settlement} {deferred : Bool}

variable {E : Exn → Owners → Prop} {Q : Unit → Owners → Prop} {token : Int} {root : HostState}
  {ring : HostRing} {rounds : Nat}

theorem wp_onContext {x : ContextM α} {Q : α → Owners → Prop} :
    wp (onContext x) Q E s ↔
      wp x (fun a c => Q a { s with context := c }) (fun e c => E e { s with context := c }) s.context := by
  unfold wp onContext
  cases x s.context with
  | ok a c => exact Iff.rfl
  | error e c => exact Iff.rfl

theorem wp_onRing {x : RingM α} {Q : α → Owners → Prop} :
    wp (onRing x) Q E s ↔
      wp x (fun a r => Q a { s with ring := r }) (fun e r => E e { s with ring := r }) s.ring := by
  unfold wp onRing
  cases x s.ring with
  | ok a r => exact Iff.rfl
  | error e r => exact Iff.rfl

theorem wp_callback {failure : Option Exn} (hE : ∀ e, E e s) (hQ : Q () s) : wp (callback failure) Q E s := by
  unfold callback
  split
  · exact hE _
  · exact hQ

theorem wp_sync (hE : ∀ e c, Same s.context c → E e { s with context := c })
    (hQ : ∀ c, Same s.context c → Q () { s with context := c }) : wp d.sync Q E s :=
  wp_onContext.mpr (wp_observe hE hQ)

variable {m : Machine} {o : DeviceOptions} {tentative terminal : List Int}
  {verification : OuterResult}

/-! ## The context -/

section
variable (h : At c l tx)
include h

theorem wp_decodeKept :
    wp (m.decode token) (fun _ c' => At c' (l ++ [token]) tx) (fun _ c' => c'.transaction = tx) c := by
  have hdecode : wp (m.decode token) (fun _ c' => At c' (l ++ [token]) tx) (Threw m (· = tx)) c :=
    wp_decode h.tokens h.transaction h.torn rfl fun c' hs _ => hs.at
  exact wp_fail hdecode fun _ _ he => he.2

theorem wp_replayRow :
    wp (d.replayRow token) (fun _ c' => At c' (l ++ [token]) tx) (fun _ c' => c'.transaction = tx) c := by
  simp only [Device.replayRow, wp_bind]
  refine wp_mono (wp_greedyKept h) (fun greedy c₁ h₁ => ?_) fun _ _ he => he.transaction
  refine wp_ofExcept.mpr ⟨fun _ _ => ?_, fun _ _ => h₁.2.transaction⟩
  refine wp_imp (wp_decodeKept h₁.2) fun _ c₂ h₂ => ?_
  exact wp_observe (fun _ c₃ hc₃ => (h₂.same hc₃).transaction) fun c₃ hc₃ => h₂.same hc₃

theorem wp_replay :
    wp (ts.forM d.replayRow) (fun _ c' => At c' (l ++ ts) tx) (fun _ c' => c'.transaction = tx) c := by
  induction ts generalizing c l with
  | nil =>
    rw [append_nil]
    exact h
  | cons t ts ih =>
    show wp (d.replayRow t >>= fun _ => ts.forM d.replayRow) _ _ _
    rw [wp_bind]
    refine wp_imp (wp_replayRow h) fun _ c₁ h₁ => ?_
    have hrest := ih h₁
    rw [append_assoc] at hrest
    exact hrest

end

/-! ## Going back -/

/-- Both owners at the root. -/
structure AtRoot (l : List Int) (s : Owners) : Prop where
  context : At s.context l none
  ring : s.ring.Full l.length

theorem wp_restoreOwners (hring : ring.Of root.tokens.length) :
    wp (d.restoreOwners (some root) (some ring) root.tokens.length) (fun _ => AtRoot root.tokens)
      (fun _ _ => True) s := by
  simp only [Device.restoreOwners, wp_bind]
  refine wp_onContext.mpr ?_
  by_cases hnone : s.context.transaction = none
  · refine wp_fail (wp_restore (P := fun _ => True) hnone trivial fun c hs => ?_) fun _ _ _ => trivial
    refine wp_onRing.mpr (wp_mono (wp_restoreHostRing hring) (fun _ r hr => ?_) fun _ _ _ => trivial)
    refine wp_sync (fun _ _ _ => trivial) fun c' hc' => ?_
    exact wp_ofExcept.mpr ⟨fun _ _ => ⟨hs.at.same hc', hr⟩, fun _ _ => trivial⟩
  simp only [Machine.restoreExactHostState, wp_bind]
  exact wp_require (fun _ => trivial) fun h => absurd h hnone

/-- A ring that can be taken back to the root. -/
def RingBack (armed : Bool) (n : Nat) (r : DraftRing) : Prop :=
  (armed = true → r.Undoable n) ∧ (armed = false → r.Full n)

theorem wp_rollbackOwners {armed : Bool} (hcontext : Rooted l s.context) (hring : RingBack armed l.length s.ring) :
    wp (d.rollbackOwners armed l.length) (fun _ => AtRoot l) (fun _ _ => True) s := by
  have hback : ∀ r, r.Full l.length →
      wp (d.rollbackOwners false l.length) (fun _ => AtRoot l) (fun _ _ => True) { s with ring := r } := by
    intro r hr
    have hfinal : ∀ c, At c l none →
        wp (do
          d.sync
          let s ← get
          ofExcept (throwIf (s.context.position ≠ l.length ∨ s.ring.position ≠ l.length)
            (.logicError "fast device numerical pending rollback frontier")))
          (fun _ => AtRoot l) (fun _ _ => True) { s with ring := r, context := c } := by
      intro c hat
      simp only [wp_bind]
      refine wp_sync (fun _ _ _ => trivial) fun c' hc' => ?_
      exact wp_ofExcept.mpr ⟨fun _ _ => ⟨hat.same hc', hr⟩, fun _ _ => trivial⟩
    unfold Device.rollbackOwners
    simp only [wp_bind, wp_get] at hfinal ⊢
    refine wp_whenever (fun ht => by cases ht) fun _ => wp_whenever (fun hsome => ?_) fun hnone => ?_
    · refine wp_onContext.mpr ?_
      have hsaved : Saved l s.context.transaction := by
        refine hcontext.resolve_right fun hat => ?_
        rw [show ({ s with ring := r } : Owners).context.transaction = none from hat.transaction] at hsome
        cases hsome
      exact wp_mono (wp_rollbackSaved hsaved) (fun _ c hat => hfinal c hat) fun _ _ _ => trivial
    have hclosed : s.context.transaction = none := by
      simpa using hnone
    exact hfinal s.context (hcontext.resolve_left fun hsaved => hsaved.ne_none hclosed)
  unfold Device.rollbackOwners
  rw [wp_bind]
  refine wp_whenever (fun ht => ?_) fun hf => hback s.ring (hring.2 hf)
  exact wp_onRing.mpr (wp_mono (wp_rollbackPrefillRingUndo (hring.1 ht)) (fun _ r hr => hback r hr) fun _ _ _ => trivial)

/-! ## Running a round -/

/-- A round ran from the root: the context holds the root and the committed tokens, and the ring
    their rows, unless that is left for later. -/
structure Ran (settlement : Settlement) (deferred : Bool) (l : List Int) (value : Step) (s : Owners) : Prop where
  root : value.rootPosition = l.length
  context : ∃ tx, At s.context (l ++ value.committedTokens) tx ∧ settlement.Leaves l tx
  ring : s.ring.Full (l.length + if deferred then 0 else value.committedTokens.length)

/-- A round that was to leave its transaction open threw. -/
def Broken (settlement : Settlement) (l : List Int) (s : Owners) : Prop :=
  settlement = .deferTargetCommit → Rooted l s.context ∧ s.ring.Full l.length

theorem wp_ringUnlessDeferred {rows : Nat} (hring : s.ring.Full n) (hE : deferred = false → ∀ e s', E e s')
    (hQ : ∀ r, r.Full (n + if deferred then 0 else rows) → Q () { s with ring := r }) :
    wp (whenever (!deferred) (onRing (d.draft.commitPrefillBlock rows n))) Q E s := by
  refine wp_whenever (fun ht => ?_) fun hf => ?_
  · obtain rfl : deferred = false := by simpa using ht
    exact wp_onRing.mpr (wp_mono (wp_commitFull hring) (fun _ r hr => hQ r hr) fun e _ _ => hE rfl e _)
  obtain rfl : deferred = true := by simpa using hf
  exact hQ s.ring hring

theorem wp_runSingle (h : At s.context l tx) (hring : s.ring.Full l.length) (hleaves : settlement.Leaves l tx)
    (hroot : value.rootPosition = l.length) (hempty : value.committedTokens = [])
    (hdeferred : settlement = .deferTargetCommit → deferred = true) :
    wp (d.runSingle value a.terminal deferred) (Ran settlement deferred l) (fun _ => Broken settlement l) s := by
  have hbroken : ∀ c, c.transaction = tx → Broken settlement l { s with context := c } := by
    intro c hc hs
    refine ⟨.inl ?_, hring⟩
    rw [hs] at hleaves
    rw [hc]
    exact hleaves
  simp only [Device.runSingle, wp_bind]
  refine wp_onContext.mpr (wp_mono (wp_greedyKept h) (fun token c₁ h₁ => ?_) fun _ c he => hbroken c he.transaction)
  refine wp_onContext.mpr (wp_mono (wp_decodeKept h₁.2) (fun _ c₂ h₂ => ?_) fun _ c he => hbroken c he)
  refine wp_onContext.mpr (wp_observe (fun _ c hc => hbroken c (h₂.same hc).transaction) fun c₃ hc₃ => ?_)
  rw [hroot]
  refine wp_ringUnlessDeferred hring (fun hf _ _ hs => absurd (hdeferred hs) (by simp [hf])) fun r hr => ?_
  refine ⟨rfl, ⟨tx, ?_, hleaves⟩, ?_⟩
  · rw [hempty, nil_append]
    exact h₂.same hc₃
  · rw [hempty]
    exact hr

theorem reusedSeed_bound {position : Nat} {seed : Int}
    (hseed : ∀ packet, o.readySeed = some packet → packet.token = seed)
    (h : reusedSeed o position tentative = some token) : token = seed := by
  unfold reusedSeed at h
  split at h
  · rename_i binding packet front _ hpacket _
    split at h
    · exact (Option.some.inj h).symm.trans (hseed packet hpacket)
    · cases h
  · cases h

theorem wp_verified {offsets : List Nat}
    (hready : Ready s.context l) (hopen : o.settlement = .deferTargetCommit → Saved l s.context.transaction)
    (hring : s.ring.Full l.length) (hne : l ≠ []) (hroot : value.rootPosition = l.length)
    (hhead : tentative.head? = some (d.machine.next l))
    (hseed : ∀ packet, o.readySeed = some packet → packet.token = d.machine.next l) :
    wp (d.verified value a o tentative offsets)
      (fun v s' => v.rootPosition = l.length ∧ s'.ring.Full l.length ∧
        ∃ tx, At s'.context (l ++ v.committedTokens) tx ∧ o.settlement.Leaves l tx)
      (fun _ => Broken o.settlement l) s := by
  have hdone : wp (d.machine.verifyDeviceResident o tentative a.terminal offsets)
      (RoundDone d.machine o.settlement l a.terminal) (fun _ _ => True) s.context :=
    wp_fail (wp_verifyDevice hready hne fun token h => reusedSeed_bound hseed h) fun _ _ _ => trivial
  have hundo : wp (d.machine.verifyDeviceResident o tentative a.terminal offsets) (fun _ _ => True)
      (fun _ c => o.settlement = .deferTargetCommit → Rooted l c) s.context := by
    by_cases hs : o.settlement = .deferTargetCommit
    · refine wp_mono (wp_verifyOpen hs (hopen hs) hready.at hhead fun token h => ?_) (fun _ _ _ => trivial)
        fun _ _ hb _ => hb
      exact reusedSeed_bound hseed h
    · exact wp_const (fun _ _ => trivial) fun _ _ h => absurd h hs
  simp only [Device.verified, wp_bind]
  refine wp_callback (fun _ hs => ⟨.inl (hopen hs), hring⟩) ?_
  refine wp_onContext.mpr (wp_mono (wp_and hdone hundo) (fun result c₁ hresult => ?_) fun _ c he hs => ⟨he.2 hs, hring⟩)
  obtain ⟨tx, hat, hleaves⟩ := hresult.1.context
  have hbroken : Broken o.settlement l { s with context := c₁ } := by
    intro hs
    rw [hs] at hleaves
    refine ⟨.inl ?_, hring⟩
    rw [hat.transaction]
    exact hleaves
  refine wp_callback (fun _ => hbroken) ?_
  refine wp_ofExcept.mpr ⟨fun _ _ => ?_, fun _ _ => hbroken⟩
  exact ⟨hroot, hring, tx, hat, hleaves⟩

theorem wp_boundSeed {binding : TapBinding} {Q : Option SeedPacket → Owners → Prop} (hE : ∀ e, E e s)
    (hQ : ∀ seed, (∀ packet, seed = some packet → packet.token = token) → Q seed s) :
    wp (d.boundSeed binding token) Q E s := by
  simp only [Device.boundSeed, wp_bind, wp_get]
  refine wp_ofExcept.mpr ⟨fun _ _ => ?_, fun e _ => hE e⟩
  refine hQ _ fun packet hpacket => ?_
  split at hpacket
  · cases hpacket
    rfl
  · cases hpacket

section
variable (h : At s.context l none) (hring : s.ring.Full l.length) (hne : l ≠ []) (hroot : value.rootPosition = l.length)
include h hring hne hroot

theorem wp_runBatch (hdeferred : settlement = .deferTargetCommit → deferred = true) :
    wp (d.runBatch value rounds a deferred settlement) (Ran settlement deferred l)
      (fun _ => Broken settlement l) s := by
  have hat : ∀ c, At c l none → Broken settlement l { s with context := c } :=
    fun c hc _ => ⟨.inr hc, hring⟩
  simp only [Device.runBatch, wp_bind]
  refine wp_onContext.mpr (wp_mono (wp_greedyKept h) (fun token c₁ h₁ => ?_) fun _ c he => hat c he)
  obtain ⟨rfl, h₁⟩ := h₁
  refine wp_boundSeed (fun _ => hat c₁ h₁) fun seed hseed => ?_
  refine wp_ofExcept.mpr ⟨fun width _ => ?_, fun _ _ => hat c₁ h₁⟩
  simp only [wp_get]
  -- the transaction is open from here on, if the round is to leave it open
  have hrest : ∀ c₂, Ready c₂ l → (settlement = .deferTargetCommit → Saved l c₂.transaction) →
      wp (do
        let drafts ← ofExcept (Device.proposed width (deferred && decide (0 < d.siblingCount)) a.drafted)
        let laid := Device.layout (d.machine.next l) drafts (deferred && decide (0 < d.siblingCount)) a.tree
        let value ← d.verified value a
          (d.options ⟨d.self, rounds + 1, value.rootPosition, d.acquisition, d.execution⟩ seed settlement) laid.1 laid.2
        whenever (!deferred) (onRing (d.draft.commitPrefillBlock value.committedTokens.length value.rootPosition))
        return value) (Ran settlement deferred l) (fun _ => Broken settlement l) { s with context := c₂ } := by
    intro c₂ hready hopen
    simp only [wp_bind]
    refine wp_ofExcept.mpr ⟨fun drafts _ => ?_, fun _ _ hs => ⟨.inl (hopen hs), hring⟩⟩
    have hhead : (Device.layout (d.machine.next l) drafts (deferred && decide (0 < d.siblingCount)) a.tree).1.head? =
        some (d.machine.next l) := by
      unfold Device.layout
      split
      · rfl
      · rfl
    refine wp_imp (wp_verified hready hopen hring hne hroot hhead hseed) fun v s₃ hv => ?_
    obtain ⟨hv, hring₃, tx, hat₃, hleaves⟩ := hv
    rw [hv]
    refine wp_ringUnlessDeferred hring₃ (fun hf _ _ hs => absurd (hdeferred hs) (by simp [hf])) fun r hr => ?_
    exact ⟨hv, ⟨tx, hat₃, hleaves⟩, hr⟩
  simp only [wp_bind] at hrest
  refine wp_whenever (fun ht => ?_) fun hf => ?_
  · refine wp_onContext.mpr (wp_mono (wp_beginRooted h₁) (fun _ c₂ h₂ => ?_) fun _ c he => hat c he)
    obtain ⟨hat₂, hsaved, hfresh⟩ := h₂
    refine hrest c₂ (.inr ?_) fun _ => hsaved
    obtain ⟨saved, htx, htokens, hhead⟩ := hsaved
    have hroot : saved = ⟨l, l, saved.tapRows⟩ := by
      calc saved = ⟨saved.tokens, saved.head, saved.tapRows⟩ := rfl
        _ = ⟨l, l, saved.tapRows⟩ := by rw [htokens, hhead]
    rw [htx, hroot] at hat₂
    exact ⟨_, hat₂, hfresh⟩
  refine hrest c₁ (.inl h₁) fun hs => ?_
  rw [hdeferred hs, show ({ s with context := c₁ } : Owners).context.transaction = none from h₁.transaction] at hf
  cases hf

theorem wp_runRound (hempty : value.committedTokens = []) :
    wp (d.runRound value rounds a deferred .eager) (Ran .eager deferred l) (fun _ _ => True) s := by
  unfold Device.runRound
  split
  · have hleaves : Settlement.eager.Leaves l none := rfl
    exact wp_fail (wp_runSingle h hring hleaves hroot hempty nofun) fun _ _ _ => trivial
  exact wp_fail (wp_runBatch h hring hne hroot nofun) fun _ _ _ => trivial

theorem wp_runDeferred (hempty : value.committedTokens = []) :
    wp (d.runDeferred value rounds a) (Ran .deferTargetCommit true l)
      (fun _ s' => Rooted l s'.context ∧ s'.ring.Full l.length) s := by
  simp only [Device.runDeferred, Device.runRound, wp_bind]
  refine wp_whenever (fun ht => ?_) fun hf => ?_
  · refine wp_onContext.mpr (wp_mono (wp_beginRooted h) (fun _ c₁ h₁ => ?_) fun _ c he => ⟨.inr he, hring⟩)
    rw [if_pos (of_decide_eq_true ht)]
    exact wp_fail (wp_runSingle h₁.1 hring h₁.2.1 hroot hempty fun _ => rfl) fun _ _ he => he rfl
  rw [if_neg (of_decide_eq_false hf)]
  exact wp_fail (wp_runBatch h hring hne hroot fun _ => rfl) fun _ _ he => he rfl

end

/-! ## Settling -/

theorem wp_retainHost (hring : ring.Of root.tokens.length)
    (h : At s.context (root.tokens ++ value.committedTokens) none) (hfull : s.ring.Full root.tokens.length) :
    wp (d.retain (d.restoreOwners (some root) (some ring) root.tokens.length) verification value retained)
      (fun v s' => v.rootPosition = value.rootPosition ∧ v.committedTokens = value.committedTokens.take retained ∧
        At s'.context (root.tokens ++ v.committedTokens) none ∧ s'.ring.Full root.tokens.length)
      (fun _ _ => True) s := by
  unfold Device.retain
  split
  · simp only [wp_bind]
    refine wp_mono (wp_restoreOwners hring) (fun _ s₁ h₁ => ?_) fun _ _ _ => trivial
    refine wp_onContext.mpr (wp_mono (wp_replay h₁.context) (fun _ c₂ h₂ => ?_) fun _ _ _ => trivial)
    exact ⟨rfl, rfl, h₂, h₁.ring⟩
  rename_i hnot
  have hall : value.committedTokens.take retained = value.committedTokens :=
    take_of_length_le (Nat.le_of_not_lt hnot)
  exact ⟨rfl, hall.symm, h, hfull⟩

theorem wp_settleOwners {publish : Option Exn}
    (hring : ring.Of root.tokens.length) (hroot : value.rootPosition = root.tokens.length)
    (h : At s.context (root.tokens ++ value.committedTokens) none) (hfull : s.ring.Full root.tokens.length)
    (hle : retained ≤ value.committedTokens.length) :
    wp (d.settleOwners (some root) (some ring) root.tokens.length value terminal retained publish)
      (fun v s' => v.committedTokens = value.committedTokens.take retained ∧
        AtRoot (root.tokens ++ v.committedTokens) s')
      (fun _ _ => True) s := by
  simp only [Device.settleOwners, wp_bind]
  refine wp_mono (wp_retainHost hring h hfull) (fun v s₁ h₁ => ?_) fun _ _ _ => trivial
  obtain ⟨hv, htokens, hat₁, hfull₁⟩ := h₁
  rw [hv, hroot]
  refine wp_onRing.mpr (wp_mono (wp_commitFull hfull₁) (fun _ r hr => ?_) fun _ _ _ => trivial)
  refine wp_sync (fun _ _ _ => trivial) fun c₂ hc₂ => ?_
  refine wp_ofExcept.mpr ⟨fun _ _ => ?_, fun _ _ => trivial⟩
  refine wp_callback (fun _ => trivial) ?_
  refine ⟨htokens, hat₁.same hc₂, ?_⟩
  rw [length_append, htokens, length_take, Nat.min_eq_left hle]
  exact hr

/-- A settlement that threw where the root can still be reached. -/
def Undecided (l : List Int) (s : Owners) : Prop :=
  s.irreversible = true ∨ (s.ringBeginAttempted = true ∧ s.ringUndoArmed = false) ∨
    Rooted l s.context ∧ RingBack s.ringUndoArmed l.length s.ring

theorem wp_retainDevice (hsaved : Saved l tx) (h : At s.context (l ++ value.committedTokens) tx) :
    wp (d.retain d.reopen verification value retained)
      (fun v s' => v.rootPosition = value.rootPosition ∧
        (retained ≤ value.committedTokens.length → v.committedTokens = value.committedTokens.take retained) ∧
        ∃ c tx', s' = { s with context := c } ∧ At c (l ++ v.committedTokens) tx' ∧ Saved l tx')
      (fun _ s' => ∃ c, s' = { s with context := c } ∧ Rooted l c) s := by
  unfold Device.retain
  split
  · simp only [Device.reopen, wp_bind]
    refine wp_onContext.mpr (wp_mono (wp_rollbackSaved (h.transaction ▸ hsaved)) (fun _ c₁ h₁ => ?_)
      fun _ c he => ⟨c, rfl, .inl he⟩)
    refine wp_onContext.mpr (wp_mono (wp_beginRooted h₁) (fun _ c₂ h₂ => ?_) fun _ c he => ⟨c, rfl, .inr he⟩)
    obtain ⟨hat₂, hsaved₂, -⟩ := h₂
    refine wp_onContext.mpr (wp_mono (wp_replay hat₂) (fun _ c₃ h₃ => ?_) fun _ c he => ⟨c, rfl, .inl (he ▸ hsaved₂)⟩)
    exact ⟨rfl, fun _ => rfl, c₃, _, rfl, h₃, hsaved₂⟩
  rename_i hnot
  exact ⟨rfl, fun _ => (take_of_length_le (Nat.le_of_not_lt hnot)).symm, s.context, tx, rfl, h, hsaved⟩

theorem wp_admitRows (hroot : value.rootPosition = n) (hring : s.ring.Full n)
    (hlost : ∀ e r, E e { s with ring := r, ringBeginAttempted := true })
    (hback : ∀ e c r, Same s.context c → r.Undoable n →
      E e { s with context := c, ring := r, ringBeginAttempted := true, ringUndoArmed := true })
    (hQ : ∀ c r, Same s.context c → r.Applied n retained →
      Q () { s with context := c, ring := r, ringBeginAttempted := true, ringUndoArmed := true }) :
    wp (d.admitRows value retained) Q E s := by
  simp only [Device.admitRows, wp_bind, wp_modify]
  rw [hroot]
  refine wp_onRing.mpr (wp_mono (wp_beginPrefillRingUndo hring) (fun _ r₁ h₁ => ?_) fun e r _ => hlost e r)
  refine wp_onRing.mpr (wp_mono (wp_commitArmed h₁) (fun _ r₂ h₂ => ?_) fun e r he => hback e _ r (.refl _) he)
  refine wp_sync (fun e c hc => hback e c r₂ hc h₂.undoable) fun c₃ hc₃ => ?_
  exact wp_ofExcept.mpr ⟨fun _ _ => hQ c₃ r₂ hc₃ h₂, fun e _ => hback e c₃ r₂ hc₃ h₂.undoable⟩

theorem wp_acceptRows {n rows : Nat} (h : At s.context l tx) (htx : tx ≠ none) (hring : s.ring.Applied n rows)
    (hn : n + rows = l.length) :
    wp d.acceptRows (fun _ => AtRoot l) (fun _ s' => s'.irreversible = true) s := by
  simp only [Device.acceptRows, wp_bind, wp_modify]
  refine wp_onRing.mpr (wp_mono (wp_acceptPrefillRingUndo hring) (fun _ r hr => ?_) fun _ _ _ => rfl)
  refine wp_onContext.mpr (wp_fail (wp_commitAt h htx fun c₂ h₂ _ _ => ?_) fun _ _ _ => rfl)
  have hdone : ∀ c, At c l none → wp d.sync (fun _ => AtRoot l) (fun _ s' => s'.irreversible = true)
      { s with context := c, ring := r, ringUndoArmed := false, irreversible := true } :=
    fun c hc => wp_sync (fun _ _ _ => rfl) fun c' hc' => ⟨hc.same hc', hn ▸ hr⟩
  refine wp_whenever (fun _ => wp_onContext.mpr ?_) fun _ => hdone c₂ h₂
  simp only [Machine.finishExactContinuation, wp_bind]
  refine wp_require (fun _ => trivial) fun _ => ?_
  have hfinish : wp (d.machine.attempt fun c => c.put c.tokens c.head c.base [] 1) (fun _ c => At c l none)
      (Threw d.machine fun _ => True) c₂ :=
    wp_attempt trivial ⟨h₂.tokens, h₂.head, h₂.transaction, h₂.torn⟩
  exact wp_mono hfinish (fun _ c₃ h₃ => hdone c₃ h₃) fun _ _ _ => trivial

theorem wp_settleDeviceOwners {beforeCommit : Option Exn} (hsaved : Saved l tx)
    (hroot : value.rootPosition = l.length) (h : At s.context (l ++ value.committedTokens) tx)
    (hring : s.ring.Full l.length) (hle : retained ≤ value.committedTokens.length)
    (hflags : s.ringUndoArmed = false) :
    wp (d.settleDeviceOwners value terminal retained beforeCommit)
      (fun v s' => v.committedTokens = value.committedTokens.take retained ∧ AtRoot (l ++ v.committedTokens) s')
      (fun _ => Undecided l) s := by
  have hbefore : ∀ c, Rooted l c → Undecided l { s with context := c } := by
    intro c hc
    refine .inr (.inr ⟨hc, ?_⟩)
    rw [hflags]
    exact ⟨(fun hf => by cases hf), fun _ => hring⟩
  simp only [Device.settleDeviceOwners, wp_bind]
  refine wp_mono (wp_retainDevice hsaved h) (fun v s₁ h₁ => ?_) ?_
  · obtain ⟨hv, htokens, c₁, tx₁, rfl, hat₁, hsaved₁⟩ := h₁
    have hrooted : ∀ c, Same c₁ c → Rooted l c := fun c hc => .inl ((hat₁.same hc).transaction ▸ hsaved₁)
    refine wp_ofExcept.mpr ⟨fun _ _ => ?_, fun _ _ => hbefore c₁ (hrooted c₁ (.refl c₁))⟩
    refine wp_admitRows (hv.trans hroot) hring (fun e r => .inr (.inl ⟨rfl, hflags⟩))
      (fun e c r hc hr => .inr (.inr ⟨hrooted c hc, fun _ => hr, fun hf => by cases hf⟩)) fun c₂ r₂ hc₂ hr₂ => ?_
    refine wp_callback (fun _ => .inr (.inr ⟨hrooted c₂ hc₂, fun _ => hr₂.undoable, fun hf => by cases hf⟩)) ?_
    have hlength : l.length + retained = (l ++ v.committedTokens).length := by
      rw [length_append, htokens hle, length_take, Nat.min_eq_left hle]
    refine wp_mono (wp_acceptRows (hat₁.same hc₂) hsaved₁.ne_none hr₂ hlength) (fun _ s₃ h₃ => ?_) fun _ _ he => .inl he
    exact ⟨htokens hle, h₃⟩
  rintro e s' ⟨c, rfl, hc⟩
  exact hbefore c hc

end VoidInfer.Exl3.Pending
