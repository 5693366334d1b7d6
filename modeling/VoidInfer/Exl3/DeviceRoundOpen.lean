import VoidInfer.Exl3.DeviceRoundRun
import VoidInfer.Exl3.OuterAgree

/-
  A device-resident round that leaves its transaction open, and throws: its root can be rolled back to (`Rooted`). The
  first row of the block is the greedy choice at the root, so the round accepts at least that row, and neither rolls
  the transaction back nor begins it again (`stays_settle`).
-/

namespace VoidInfer.Exl3.Outer
open List

open Throwing

variable {m : Machine} {o : DeviceOptions} {c c' : Context} {l root terminal : List Int} {α β : Type}
  {promoted : Option Nat} {r : OuterResult} {tx : Option Snapshot}

/-- The transaction began at the root. -/
def Saved (root : List Int) (tx : Option Snapshot) : Prop := Settlement.deferTargetCommit.Leaves root tx

theorem Saved.ne_none (h : Saved root tx) : tx ≠ none := by
  obtain ⟨saved, rfl, -⟩ := h
  simp

/-- The context can still be rolled back to the root, or is there. -/
def Rooted (root : List Int) (c : Context) : Prop := Saved root c.transaction ∨ At c root none

theorem Ready.at (h : Ready c root) : At c root c.transaction := by
  rcases h with hat | ⟨n, hat, -⟩
  · rw [hat.transaction]
    exact hat
  · rw [hat.transaction]
    exact hat

/-! ## Calls in an open transaction -/

variable {x : ContextM α} {attemptRows rootPosition : Nat} {P : Option Snapshot → Prop}
  {tentative : List Int} {offsets : List Nat}

theorem stays_stageTaps {rows destinationFirst : Nat} {repair correction : Bool} :
    Stays P (m.deviceStageTaps o rootPosition attemptRows r rows destinationFirst repair correction) :=
  Stays.get.bind fun _ => stays_emit

variable {n : Nat} {Q : Unit → Context → Prop} {E : Exn → Context → Prop}

theorem stays_retain : Stays P (m.retainTransactionPrefix n) := by
  refine Stays.require.bind fun _ => Stays.require.bind fun _ => Stays.attempt fun c => ?_
  split <;> rfl

theorem stays_promote {row : Option Nat} : Stays P (m.promote row n) := by
  unfold Machine.promote
  split
  · refine Stays.require.bind fun _ => Stays.require.bind fun _ => Stays.attempt fun c => ?_
    split <;> rfl
  · exact .pure _

theorem stays_deviceDecision {seed : Int} : Stays P (m.deviceDecision seed tentative terminal offsets) := by
  refine Stays.ite ?_ ?_
  · exact stays_outerGreedyPath.bind fun _ => (Stays.ofExcept _).bind fun _ => .pure _
  exact (Stays.observe.bind fun _ => Stays.get.bind fun _ => .pure _).bind fun _ =>
    (Stays.ofExcept _).bind fun _ => .pure _

theorem wp_require {condition : Context → Prop} [DecidablePred condition] {what : String}
    (hE : ∀ e, E e c) (hQ : condition c → Q () c) : wp (Machine.require condition what) Q E c := by
  exact wp_ofExcept.mpr ⟨fun u hok => hQ (not_not.mp (throwIf_ok.mp hok)), fun e _ => hE e⟩

theorem wp_observe (hE : ∀ e c', Same c c' → E e c') (hQ : ∀ c', Same c c' → Q () c') : wp m.observe Q E c := by
  unfold wp Machine.observe Machine.attemptIntact
  cases m.fails c.clock with
  | some e => exact hE e _ ⟨_, rfl⟩
  | none => exact hQ _ ⟨_, rfl⟩

theorem wp_beginRooted (h : At c root none) :
    wp m.beginTransaction (fun _ c' => At c' root c'.transaction ∧ Saved root c'.transaction ∧ c'.fresh = true)
      (fun _ c' => At c' root none) c := by
  simp only [Machine.beginTransaction, wp_bind]
  refine wp_require (fun _ => h) fun _ => wp_require (fun _ => h) fun _ => ?_
  unfold wp Machine.attemptIntact
  cases m.fails c.clock with
  | some e => exact h.same ⟨_, rfl⟩
  | none => exact ⟨⟨h.tokens, h.head, rfl, h.torn⟩, ⟨_, rfl, h.tokens, h.head⟩, rfl⟩

theorem wp_rollbackSaved (h : Saved root c.transaction) :
    wp m.rollbackTransaction (fun _ c' => At c' root none) (fun _ c' => Saved root c'.transaction) c := by
  obtain ⟨saved, hsome, htokens, hhead⟩ := h
  have hsaved : Saved root (some saved) := ⟨saved, rfl, htokens, hhead⟩
  refine wp_fail (wp_rollback hsome (hhead.trans htokens.symm) hsaved fun c' hs => ?_) fun _ _ h => h.2
  rw [← htokens]
  exact hs.at

theorem wp_greedyKept (h : At c l tx) :
    wp m.branchGreedy (fun token c' => token = m.next l ∧ At c' l tx) (fun _ c' => At c' l tx) c := by
  simp only [Machine.branchGreedy, wp_bind]
  refine wp_observe (fun _ c' hc' => h.same hc') fun c' hc' => ?_
  exact ⟨congrArg m.next (h.same hc').head, h.same hc'⟩

/-! ## The first row is accepted -/

theorem decideLoop_accepted {path ts : List Int} {d : Decision} :
    d.accepted ≤ (decideLoop terminal path ts d).accepted := by
  induction path generalizing ts d with
  | nil => exact Nat.le_refl _
  | cons authorized path ih =>
    cases ts with
    | nil => exact Nat.le_refl _
    | cons proposal ts =>
      -- a row that differs ends the decision
      by_cases hrow : proposal = authorized
      · simp only [decideLoop, if_pos hrow]
        split
        · exact Nat.le_succ _
        · refine Nat.le_trans ?_ ih
          exact Nat.le_succ _
      · simp [decideLoop, hrow]

theorem decideOuterPrefix_accepted {seed : Int} {path ts : List Int} {d : Decision}
    (h : decideOuterPrefix (seed :: path) (seed :: ts) terminal = .ok d) : 0 < d.accepted := by
  obtain ⟨u, -, h⟩ := bind_ok h
  cases h
  simp only [decideLoop, if_pos]
  split
  · exact Nat.one_pos
  · refine Nat.lt_of_lt_of_le ?_ decideLoop_accepted
    exact Nat.one_pos

theorem siblingDecision_accepted {seed : Int} {chain decisions : List Int} {siblings : List (Nat × Int)}
    {p : Decision × Option Nat} (h : siblingDecision seed (seed :: chain) terminal siblings decisions = .ok p) :
    0 < p.1.accepted := by
  obtain ⟨d, hd, h⟩ := bind_ok h
  have hpos := decideOuterPrefix_accepted hd
  dsimp only at h
  generalize (if (d.rejected && !d.stopped) = true then _ else _ : Option Nat) = promoted at h
  cases promoted with
  | none =>
    cases h
    exact hpos
  | some row =>
    cases h
    exact Nat.succ_pos _

theorem wp_decisionAccepts {seed : Int} {ts : List Int} (hlayout : offsets.length ≤ ts.length) :
    wp (m.deviceDecision seed (seed :: ts) terminal offsets) (fun p _ => 0 < p.1.accepted) (fun _ _ => True) c := by
  unfold Machine.deviceDecision
  split
  · simp only [Machine.outerGreedyPath, wp_bind, wp_pure]
    refine wp_imp (wp_const (fun _ _ => trivial) fun _ _ => trivial) fun decisions c₁ _ => ?_
    refine wp_ofExcept.mpr ⟨fun _ _ => ?_, fun _ _ => trivial⟩
    exact wp_ofExcept.mpr ⟨fun d hd => decideOuterPrefix_accepted hd, fun _ _ => trivial⟩
  have hchain : (seed :: ts).take ((seed :: ts).length - offsets.length) =
      seed :: ts.take (ts.length - offsets.length) := by
    rw [length_cons, Nat.succ_sub hlayout, take_succ_cons]
  simp only [wp_bind, wp_pure, hchain]
  refine wp_imp (wp_const (fun _ _ => trivial) fun _ _ => trivial) fun decisions c₁ _ => ?_
  exact wp_ofExcept.mpr ⟨fun p hp => siblingDecision_accepted hp, fun _ _ => trivial⟩

theorem w1Bonus_accepted {outer : OuterOptions} {bonus : Int} {full : Bool} {what : String} {r' : OuterResult}
    (h : Machine.w1Bonus outer r bonus full what = .ok r') : r'.accepted = r.accepted := by
  unfold Machine.w1Bonus at h
  split at h
  · obtain ⟨u, -, h⟩ := bind_ok h
    cases h
    rfl
  · cases h
    rfl

/-! ## The round -/

section
variable (hs : o.settlement = .deferTargetCommit)
include hs

theorem Stays.deferred {x : ContextM Unit} {b : Bool} :
    Stays P (Throwing.whenever (b && decide (o.settlement = .eager)) x) := by
  intro c hc
  refine wp_whenever (fun ht => ?_) fun _ => hc
  simp [hs] at ht

theorem stays_settleRejected (hpos : 0 < r.accepted) : Stays P (m.settleRejected o rootPosition attemptRows r) := by
  have hrest : ∀ r' : OuterResult, Stays P (do
      m.decode (r'.committedTokens.getLast?.getD (-1))
      let result ← m.deviceStageTaps o rootPosition attemptRows { r' with replayRows := r'.replayRows + 1 } 1
        r.accepted true true
      whenever (decide (0 < r.accepted) && decide (o.settlement = .eager)) m.commitTransaction
      return result) :=
    fun r' => stays_decode.bind fun _ => stays_stageTaps.bind fun _ => (Stays.deferred hs).bind fun _ => .pure _
  unfold Machine.settleRejected
  dsimp only
  rw [if_pos hpos]
  exact stays_retain.bind fun _ => stays_stageTaps.bind hrest

theorem stays_settle (hpos : 0 < r.accepted) : Stays P (m.settle o rootPosition attemptRows terminal promoted r) := by
  have heager : ∀ x, Stays P (whenever (decide (o.settlement = .eager)) x) := by
    intro x c hc
    refine wp_whenever (fun ht => absurd (of_decide_eq_true ht) ?_) fun _ => hc
    simp [hs]
  refine Stays.ite ?_ (Stays.ite (stays_settleRejected hs hpos) ?_)
  · exact stays_promote.bind fun _ => stays_retain.bind fun _ =>
      stays_stageTaps.bind fun _ => (heager _).bind fun _ => .pure _
  exact (Stays.whenever stays_retain).bind fun _ => stays_stageTaps.bind fun _ =>
    (heager _).bind fun _ => .pure _

section
variable (hsaved : Saved root tx) (h : At c root tx)
include hsaved h

theorem wp_bodyOpen {reused : Option Int} (hhead : tentative.head? = some (m.next root))
    (hlayout : offsets.length < tentative.length) (hreused : ∀ token, reused = some token → token = m.next root) :
    wp (m.deviceBody o rootPosition reused tentative terminal offsets) (fun _ _ => True)
      (fun _ c' => Saved root c'.transaction) c := by
  have hopen : c.transaction.isNone = false := by
    rw [h.transaction]
    exact Option.isNone_eq_false_iff.mpr (Option.isSome_iff_ne_none.mpr hsaved.ne_none)
  have hseed : wp (m.deviceSeed reused) (fun seed c' => seed = m.next root ∧ Saved root c'.transaction)
      (fun _ c' => Saved root c'.transaction) c := by
    unfold Machine.deviceSeed
    split
    · rename_i token
      exact ⟨hreused token rfl, h.transaction ▸ hsaved⟩
    · exact wp_mono (wp_greedyKept h) (fun _ _ hk => ⟨hk.1, hk.2.transaction ▸ hsaved⟩) fun _ _ hk =>
        hk.transaction ▸ hsaved
  obtain ⟨ts, rfl⟩ := head?_eq_some_iff.mp hhead
  simp only [Machine.deviceBody, wp_bind, wp_get]
  refine wp_whenever (fun ht => absurd ht (by simp [hopen])) fun _ => ?_
  refine wp_imp hseed fun seed c₁ h₁ => ?_
  obtain ⟨rfl, h₁⟩ := h₁
  refine wp_imp (stays_continueRows c₁ h₁) fun _ c₂ h₂ => ?_
  refine wp_mono (wp_and (stays_deviceDecision c₂ h₂) (wp_decisionAccepts (Nat.le_of_lt_succ hlayout)))
    (fun p c₃ h₃ => ?_) fun _ _ he => he.1
  refine wp_ofExcept.mpr ⟨fun r' hr' => ?_, fun _ _ => h₃.1⟩
  have hpos : 0 < r'.accepted := by
    rw [w1Bonus_accepted hr']
    exact h₃.2
  refine wp_imp (stays_settle hs hpos c₃ h₃.1) fun _ c₄ h₄ => ?_
  exact wp_ofExcept.mpr ⟨fun _ _ => trivial, fun _ _ => h₄⟩

theorem wp_verifyOpen (hhead : tentative.head? = some (m.next root))
    (hreused : ∀ token, reusedSeed o c.position tentative = some token → token = m.next root) :
    wp (m.verifyDeviceResident o tentative terminal offsets) (fun _ _ => True) (fun _ => Rooted root) c := by
  have hrecover : ∀ c₁, Saved root c₁.transaction →
      wp m.rollbackOrReset (fun _ => Rooted root) (fun _ => Rooted root) c₁ := by
    intro c₁ h₁
    simp only [Machine.rollbackOrReset, wp_bind, wp_get]
    rw [if_pos h₁.ne_none]
    exact wp_mono (wp_rollbackSaved h₁) (fun _ _ hat => .inr hat) fun _ _ h' => .inl h'
  simp only [Machine.verifyDeviceResident, wp_bind]
  refine wp_ofExcept.mpr ⟨fun u hchecked => ?_, fun e _ => .inl (h.transaction ▸ hsaved)⟩
  have hlayout := (checkDevice_ok hchecked).layout
  simp only [wp_get, wp_tryCatch, wp_bind, wp_throw, wp_pure]
  refine wp_fail (wp_bodyOpen hs hsaved h hhead (by omega) hreused) fun e c₁ h₁ => ?_
  exact wp_fail (hrecover c₁ h₁) fun _ _ h' => h'

end

end

end VoidInfer.Exl3.Outer
