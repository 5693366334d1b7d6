import VoidInfer.Exl3.ExactContextSpec
import VoidInfer.Exl3.OuterDecision

/-
  The verifiers one row at a time and in one block. Each body, started at the root, ends with the outcome of the
  proposal (`Verified`) or throws because a call of the context threw.
-/

namespace VoidInfer.Exl3.Outer
open List

open Throwing Chunks

variable {m : Machine} {o : OuterOptions} {root : HostState} {c c' : Context}
  {tentative terminal base ts : List Int} {tx : Option Snapshot} {P : Option Snapshot → Prop}
  {r : OuterResult}

/-! ## Committed taps -/

/-- The segments follow each other from row `first` to row `n`. -/
def Tiles (rootRows : Nat) : Nat → List TapSegment → Nat → Prop
  | first, [], n => first = n
  | first, s :: segments, n =>
    s.destinationFirst = first ∧ s.logicalFirst = rootRows + first ∧ 1 ≤ s.rows ∧
      Tiles rootRows (first + s.rows) segments n

/-- Taps are captured or consumed. -/
def OuterOptions.Taps (o : OuterOptions) : Prop := o.captureTaps = true ∨ o.tapConsumer = true

/-- The segments of the first `n` committed rows. -/
def Staged (o : OuterOptions) (root : HostState) (segments : List TapSegment) (n : Nat) : Prop :=
  (o.Taps → Tiles root.tokens.length 0 segments n) ∧ (¬ o.Taps → segments = [])

variable {n attemptFirst destinationFirst logicalFirst partitionRows rows : Nat}
  {partitionFirst : Int} {correction : Bool} {E : Exn → Context → Prop}

theorem Tiles.append {rootRows first : Nat} {segments : List TapSegment} {s : TapSegment}
    (h : Tiles rootRows first segments n) (hdestination : s.destinationFirst = n)
    (hlogical : s.logicalFirst = rootRows + n) (hrows : 1 ≤ s.rows) :
    Tiles rootRows first (segments ++ [s]) (n + s.rows) := by
  induction segments generalizing first with
  | nil =>
    obtain rfl : first = n := h
    exact ⟨hdestination, hlogical, hrows, rfl⟩
  | cons s' segments ih => exact ⟨h.1, h.2.1, h.2.2.1, ih h.2.2.2⟩

theorem Staged.nil : Staged o root [] 0 := ⟨fun _ => rfl, fun _ => rfl⟩

theorem wp_captureHostTaps {Q : Unit → Context → Prop} (hP : P c.transaction)
    (hQ : ∀ c', Same c c' → Q () c') : wp (m.captureHostTaps o) Q (Threw m P) c := by
  exact wp_whenever (fun _ => wp_read hP hQ) fun _ => hQ c (.refl c)

variable {Q : OuterResult → Context → Prop} {attemptRows : Nat} {repair : Bool}

section
variable (hP : P c.transaction) (hbinding : o.tapConsumer = true → o.tapBinding = true)
include hP hbinding

theorem wp_emitRows
    (hQ : ∀ s segments c', Same c c' → s.rows = rows →
      s.logicalFirst = logicalFirst → s.destinationFirst = destinationFirst →
      (o.Taps ∧ 1 ≤ rows ∧ segments = r.segments ++ [s] ∨
        ¬ (o.Taps ∧ 1 ≤ rows) ∧ segments = r.segments) → Q { r with segments } c') :
    wp (m.emitTapSegment o r rows logicalFirst destinationFirst attemptFirst attemptRows
      partitionFirst partitionRows repair correction) Q (Threw m P) c := by
  unfold Machine.emitTapSegment
  split
  · rename_i htaps
    simp only [wp_bind, wp_get]
    refine wp_whenever (fun hconsumer => ?_) fun _ => ?_
    · simp only [wp_bind]
      refine wp_ofExcept.mpr ⟨fun _ _ => ?_, fun e he => ?_⟩
      · refine wp_read hP fun c' hc => ?_
        exact hQ _ _ c' hc rfl rfl rfl (.inl ⟨htaps.1, htaps.2, rfl⟩)
      rw [throwIf_neg (fun hnot => hnot (hbinding hconsumer))] at he
      cases he
    exact hQ _ _ c (.refl c) rfl rfl rfl (.inl ⟨htaps.1, htaps.2, rfl⟩)
  rename_i htaps
  exact hQ ⟨0, 0, rows, logicalFirst, destinationFirst, 0, 0, 0, 0, false, false⟩ r.segments c (.refl c) rfl rfl rfl
    (.inr ⟨htaps, rfl⟩)

theorem wp_emit (hstaged : Staged o root r.segments n) (hrows : 1 ≤ rows)
    (hdestination : destinationFirst = n) (hlogical : logicalFirst = root.tokens.length + n)
    (hQ : ∀ segments c', Same c c' → Staged o root segments (n + rows) → Q { r with segments } c') :
    wp (m.emitTapSegment o r rows logicalFirst destinationFirst attemptFirst attemptRows
      partitionFirst partitionRows repair correction) Q (Threw m P) c := by
  refine wp_emitRows hP hbinding fun s segments c' hc hr hl hd hsegments => hQ segments c' hc ?_
  rcases hsegments with ⟨htaps, -, rfl⟩ | ⟨hnot, rfl⟩
  · refine ⟨fun _ => ?_, fun hno => absurd htaps hno⟩
    rw [← hr]
    exact (hstaged.1 htaps).append (hd.trans hdestination) (hl.trans hlogical) (hr ▸ hrows)
  have hno : ¬ o.Taps := fun ht => hnot ⟨ht, hrows⟩
  exact ⟨fun ht => absurd ht hno, hstaged.2⟩

end

/-! ## Results -/

/-- The result of a verifier, and the context it leaves. -/
structure Verified (m : Machine) (o : OuterOptions) (root : HostState) (tentative terminal : List Int)
    (r : OuterResult) (c : Context) : Prop where
  outcome : IsOutcome m.next root.tokens tentative terminal r.toDecision
  context : Settled c (root.tokens ++ r.committedTokens) none
  exported : r.committedState = some (root.tokens ++ r.committedTokens, root.tokens ++ r.committedTokens)
  segments : Staged o root r.segments r.committedTokens.length
  rows : r.executedRows = r.verificationRows + r.replayRows

/-- What was decided before, and then `d'`. -/
def Decision.append (d d' : Decision) : Decision :=
  { committedTokens := d.committedTokens ++ d'.committedTokens
    accepted := d.accepted + d'.accepted, rejected := d'.rejected, stopped := d'.stopped }

theorem Decision.append_empty (d : Decision) (hrejected : d.rejected = false) (hstopped : d.stopped = false) :
    d.append {} = d := by
  cases d
  simp_all [Decision.append]

theorem wp_exported (hdecision : r.toDecision = greedyDecision m.next terminal root.tokens tentative)
    (hne : tentative ≠ []) (hsettled : Settled c (root.tokens ++ r.committedTokens) none)
    (hstaged : Staged o root r.segments r.committedTokens.length)
    (hrows : r.executedRows = r.verificationRows + r.replayRows) (hP : P none) :
    wp (m.exported r) (Verified m o root tentative terminal) (Threw m P) c := by
  have hroot : root.tokens ++ r.committedTokens ≠ [] := by
    simp [root.nonempty]
  simp only [Machine.exported, wp_bind]
  refine wp_export hsettled hroot hP fun c' hc' => ?_
  refine ⟨?_, hc', rfl, hstaged, hrows⟩
  rw [hdecision]
  exact greedyDecision_isOutcome hne

/-- What the checks ensure. -/
structure Checked (o : OuterOptions) (tentative terminal : List Int) : Prop where
  tokens : ∀ token ∈ tentative, InVocabulary token
  binding : o.tapConsumer = true → o.tapBinding = true

/-! ## The path of a block -/

theorem wp_outerGreedyPath {Q : List Int × Int → Context → Prop} (h : Block c base ts tx) (hne : ts ≠ []) (hP : P tx)
    (hQ : ∀ c', Same c c' → Q (proposalPath m.next base ts, m.next (base ++ ts)) c') :
    wp (m.outerGreedyPath (m.next base) ts.length) Q (Threw m P) c := by
  have hpos : 0 < ts.length := length_pos_iff.mpr hne
  have hat : ∀ i, i < ts.length →
      (c.rows.map fun row => m.next (c.base ++ row.path))[i]? = some (m.next (base ++ ts.take (i + 1))) := by
    intro i hi
    rw [getElem?_map, h.rows, layoutRows_getElem?, getElem?_eq_getElem hi, h.base]
    simp [Row.path]
  have hlen : (c.rows.map fun row => m.next (c.base ++ row.path)).length = ts.length := by
    rw [length_map, h.rows, length_layoutRows]
  simp only [Machine.outerGreedyPath, Machine.continuationGreedy, wp_bind]
  refine wp_read (h.transaction ▸ hP) fun c' hc => ?_
  obtain ⟨n, rfl⟩ := hc
  refine wp_ofExcept.mpr ⟨fun _ _ => ?_, fun e he => ?_⟩
  · have hpath : m.next base :: (c.rows.map fun row => m.next (c.base ++ row.path)).take (ts.length - 1) =
        proposalPath m.next base ts := by
      apply ext_getElem?
      intro i
      by_cases hi : i < ts.length
      · rw [proposalPath_getElem? hi]
        cases i with
        | zero => simp
        | succ i =>
          rw [getElem?_cons_succ, getElem?_take_of_lt (by omega), hat i (by omega)]
      · rw [getElem?_eq_none (by simp; omega), getElem?_eq_none (by simp; omega)]
    have hlast : (c.rows.map fun row => m.next (c.base ++ row.path)).getLast?.getD (-1) = m.next (base ++ ts) := by
      rw [getLast?_eq_getElem?, hlen, hat _ (by omega), Nat.sub_add_cancel hpos]
      simp
    simp only [hpath, hlast]
    exact hQ _ ⟨n, rfl⟩
  rw [throwIf_neg (fun hne => hne hlen)] at he
  cases he

/-! ## One row at a time -/

theorem wp_referenceLoop (hbinding : o.tapConsumer = true → o.tapBinding = true)
    (hsettled : Settled c (root.tokens ++ r.committedTokens) none)
    (hstaged : Staged o root r.segments r.committedTokens.length)
    (hrejected : r.rejected = false) (hstopped : r.stopped = false)
    (hrows : r.executedRows = r.verificationRows + r.replayRows) (hP : P none)
    (hQ : ∀ r' c', r'.toDecision = r.toDecision.append
        (greedyDecision m.next terminal (root.tokens ++ r.committedTokens) tentative) →
      Settled c' (root.tokens ++ r'.committedTokens) none →
      Staged o root r'.segments r'.committedTokens.length →
      r'.executedRows = r'.verificationRows + r'.replayRows → Q r' c') :
    wp (m.referenceLoop o root terminal tentative r) Q (Threw m P) c := by
  induction tentative generalizing r c with
  | nil =>
    refine hQ r c ?_ hsettled hstaged hrows
    exact (r.toDecision.append_empty hrejected hstopped).symm
  | cons t ts ih =>
    simp only [Machine.referenceLoop, wp_bind]
    refine wp_branchGreedy hsettled hP fun c₁ hc₁ => ?_
    have hs₁ := hsettled.same hc₁
    refine wp_decode hs₁.tokens hs₁.transaction hs₁.torn hP fun c₂ hs₂ _ => ?_
    refine wp_captureHostTaps (hs₂.transaction ▸ hP) fun c₃ hc₃ => ?_
    have hs₃ := hs₂.same hc₃
    refine wp_emit (hs₃.transaction ▸ hP) hbinding hstaged (Nat.le_refl 1) rfl rfl fun segments c₄ hc₄ hstaged₄ => ?_
    have hs₄ := hs₃.same hc₄
    rw [append_assoc] at hs₄
    rcases end_or_go m.next (root.tokens ++ r.committedTokens) terminal t with hend | ⟨rfl, hstop⟩
    · rw [if_pos (by rcases hend with ht | ht <;> simp [ht])]
      refine hQ _ c₄ ?_ hs₄ (by simpa using hstaged₄) (by simp only; omega)
      rw [greedyDecision_end hend]
      by_cases ht : t = m.next (root.tokens ++ r.committedTokens)
      · simp [Decision.append, ht, hrejected]
      · simp [Decision.append, ht]
    rw [if_neg (by simp [hrejected, hstop])]
    refine ih hs₄ (by simpa using hstaged₄) (by simpa using hrejected) (by simpa using hstop)
      (by simp only; omega) fun r' c' hd => hQ r' c' ?_
    rw [hd, greedyDecision_go rfl hstop]
    simp [Decision.append, Nat.add_assoc, Nat.add_comm]

/-! ## One block, with replay -/

/-- After a replay: one row, or a block. -/
def Ran (c : Context) (base ts : List Int) : Prop :=
  (ts.length = 1 ∧ Settled c (base ++ ts) none) ∨ (1 < ts.length ∧ Block c base ts none)

theorem Ran.transaction (h : Ran c base ts) : c.transaction = none := by
  rcases h with ⟨-, hs⟩ | ⟨-, hb⟩
  · exact hs.transaction
  · exact hb.transaction

theorem Ran.same (h : Ran c base ts) (hc : Same c c') : Ran c' base ts := by
  rcases h with ⟨hlen, hs⟩ | ⟨hlen, hb⟩
  · exact .inl ⟨hlen, hs.same hc⟩
  · exact .inr ⟨hlen, hb.same hc⟩

theorem wp_replay {Q : Unit → Context → Prop} (h : Settled c base none) (hbase : base ≠ [])
    (hne : ts ≠ []) (hle : ts.length ≤ m.capacity) (hvocab : ∀ token ∈ ts, InVocabulary token)
    (hP : P none) (hQ : ∀ c', Ran c' base ts → Q () c') : wp (m.replay ts) Q (Threw m P) c := by
  unfold Machine.replay
  split
  · exact wp_decode h.tokens h.transaction h.torn hP fun c' hs _ => hQ c' (.inl ⟨rfl, hs⟩)
  rename_i hmany
  have hlen : 2 ≤ ts.length := by
    match ts, hne, hmany with
    | [a], _, hmany => exact absurd rfl (hmany a)
    | a :: b :: l, _, _ => simp
  exact wp_continueRows h hbase ⟨hlen, hle⟩ hvocab hP fun c' hb _ => hQ c' (.inr ⟨hlen, hb⟩)

theorem wp_finishRan {Q : Unit → Context → Prop} {finish : Bool} (h : Ran c base ts)
    (hfinish : finish = decide (1 < ts.length)) (hP : P none)
    (hQ : ∀ c', Settled c' (base ++ ts) none → Q () c') :
    wp (whenever finish m.finishExactContinuation) Q (Threw m P) c := by
  rcases h with ⟨hlen, hs⟩ | ⟨hlen, hb⟩
  · refine wp_whenever (fun htrue => ?_) fun _ => hQ c hs
    simp [hfinish, hlen] at htrue
  refine wp_whenever (fun _ => wp_finish hb (fun hnil => by simp [hnil] at hlen) hP hQ) fun hfalse => ?_
  simp [hfinish, hlen] at hfalse

theorem wp_ofExceptOk {α : Type} {x : Except Exn α} {a : α} {Q : α → Context → Prop}
    (hx : x = .ok a) (hQ : Q a c) : wp (MonadExcept.ofExcept x : ContextM α) Q E c := by
  subst hx
  exact hQ

theorem wp_w1Bonus {bonus : Int} {full : Bool} {what : String}
    (hbonus : r.rejected = false → full = true → InVocabulary bonus)
    (hQ : ∀ pending, Q { r with pending } c) :
    wp (MonadExcept.ofExcept (Machine.w1Bonus o r bonus full what) : ContextM OuterResult) Q E c := by
  unfold Machine.w1Bonus
  split
  · rename_i hw
    rw [throwIf_neg (fun hnot => hnot (hbonus hw.2.1 hw.2.2.2))]
    exact hQ _
  · exact hQ r.pending

theorem wp_batchedSettle (hbinding : o.tapConsumer = true → o.tapBinding = true) (hne : tentative ≠ [])
    (hdecision : r.toDecision = greedyDecision m.next terminal root.tokens tentative)
    (hran : Ran c root.tokens r.committedTokens) (hsegments : r.segments = [])
    (hrows : r.executedRows = r.verificationRows + r.replayRows)
    (hrepair : repair = false → 1 < r.committedTokens.length) (hP : P none) :
    wp (m.batchedSettle o root attemptRows r repair) (Verified m o root tentative terminal) (Threw m P) c := by
  have hsome : 1 ≤ r.committedTokens.length := by
    have houtcome : IsOutcome m.next root.tokens tentative terminal _ := greedyDecision_isOutcome hne
    rw [← hdecision] at houtcome
    exact houtcome.some_row
  have hfinish : (!repair || decide (1 < r.committedTokens.length)) = decide (1 < r.committedTokens.length) := by
    cases repair with
    | true => rfl
    | false => simp [hrepair rfl]
  simp only [Machine.batchedSettle, wp_bind]
  refine wp_captureHostTaps (hran.transaction ▸ hP) fun c₁ hc₁ => ?_
  have hr₁ := hran.same hc₁
  refine wp_emit (n := 0) (hr₁.transaction ▸ hP) hbinding (hsegments ▸ .nil) hsome rfl rfl
    fun segments c₂ hc₂ hstaged => ?_
  refine wp_finishRan (hr₁.same hc₂) hfinish hP fun c' hs => ?_
  exact wp_exported hdecision hne hs (by simpa using hstaged) hrows hP

theorem wp_batchedBody (hchecked : Checked o tentative terminal)
    (hextent : 2 ≤ tentative.length ∧ tentative.length ≤ m.capacity)
    (hsettled : Settled c root.tokens none) (hP : P none) :
    wp (m.batchedBody o root tentative terminal) (Verified m o root tentative terminal) (Threw m P) c := by
  have hne : tentative ≠ [] := fun hnil => by simp [hnil] at hextent
  have houtcome : IsOutcome m.next root.tokens tentative terminal _ := greedyDecision_isOutcome hne
  simp only [Machine.batchedBody, wp_bind]
  refine wp_branchGreedy hsettled hP fun c₁ hc₁ => ?_
  refine wp_continueRows (hsettled.same hc₁) root.nonempty hextent hchecked.tokens hP fun c₂ hb₂ _ => ?_
  refine wp_outerGreedyPath hb₂ hne hP fun c₃ hc₃ => ?_
  have hb₃ := hb₂.same hc₃
  refine wp_ofExceptOk (decideOuterPrefix_eq hne) ?_
  refine wp_w1Bonus (fun _ _ => m.next_range _) fun pending => ?_
  have hwhole : _ → _ → (greedyDecision m.next terminal root.tokens tentative).committedTokens = tentative :=
    fun hrejected hlen => (greedyDecision_whole hrejected hlen).1
  generalize hd : greedyDecision m.next terminal root.tokens tentative = d at houtcome hwhole ⊢
  cases hrepair : d.rejected || decide (d.committedTokens.length < tentative.length) with
  | true =>
    simp only [if_true, wp_bind]
    refine wp_restore hb₃.transaction hP fun c₄ hs₄ => ?_
    refine wp_replay hs₄ root.nonempty (length_pos_iff.mp houtcome.some_row)
      (Nat.le_trans houtcome.in_proposal hextent.2) (houtcome.vocabulary m.next_range) hP fun c₅ hr₅ => ?_
    exact wp_batchedSettle hchecked.binding hne hd.symm hr₅ rfl (by simp) (nofun) hP
  | false =>
    simp only [Bool.or_eq_false_iff, decide_eq_false_iff_not] at hrepair
    have hcommitted := hwhole hrepair.1 (by have := houtcome.in_proposal; omega)
    refine wp_batchedSettle hchecked.binding hne hd.symm (.inr ?_) rfl rfl (fun _ => ?_) hP
    · rw [hcommitted]
      exact ⟨hextent.1, hb₃⟩
    rw [hcommitted]
    exact hextent.1

end VoidInfer.Exl3.Outer
