import VoidInfer.Exl3.OuterRun

/-
  The verifier in a transaction and the one in windows. A transaction keeps the accepted rows and runs the correction
  behind them; windows go on while they are accepted as a whole, and are run again from the root, cut anew, once one is
  not.
-/

namespace VoidInfer.Exl3.Outer
open List

open Throwing Chunks

variable {m : Machine} {o : OuterOptions} {root : HostState} {c c' : Context}
 {tentative terminal base ts : List Int} {P : Option Snapshot → Prop}
 {r : OuterResult}

variable {Q : OuterResult → Context → Prop} {windows : List (List Int)} {offset : Nat}

/-! ## In a transaction -/

theorem wp_stageTaps {n rows attemptRows : Nat} {repair correction : Bool} (hP : P c.transaction)
    (hbinding : o.tapConsumer = true → o.tapBinding = true) (hstaged : Staged o root r.segments n)
    (hrows : 1 ≤ rows)
    (hQ : ∀ segments c', Same c c' → Staged o root segments (n + rows) → Q { r with segments } c') :
    wp (m.stageTaps o root attemptRows r rows n repair correction) Q (Threw m P) c := by
  simp only [Machine.stageTaps, wp_bind, wp_get]
  exact wp_emit hP hbinding hstaged hrows rfl rfl hQ

section
variable (hbinding : o.tapConsumer = true → o.tapBinding = true) (houtcome : IsOutcome m.next root.tokens tentative terminal r.toDecision)
include hbinding houtcome

theorem wp_checkpointedRejected {saved : Snapshot} (hrejected : r.rejected = true) (hsegments : r.segments = [])
    (hblock : Block c root.tokens tentative (some saved)) (havailable : c.prefixAvailable = true)
    (hsaved : saved.tokens = root.tokens ∧ saved.head = root.tokens) (hP : P none) (hPs : P (some saved))
    (hQ : ∀ segments c', Settled c' (root.tokens ++ r.committedTokens) none →
      Staged o root segments r.committedTokens.length →
      Q { r with segments, replayRows := r.replayRows + 1 } c') :
    wp (m.checkpointedRejected o root tentative.length r (r.committedTokens.getLast?.getD (-1))) Q (Threw m P) c := by
  have hlen : r.accepted + 1 = r.committedTokens.length := by
    have hacc := houtcome.accepted
    have hpos := houtcome.some_row
    rw [hrejected, Bool.toNat_true] at hacc
    omega
  have htokens := houtcome.eq_take_append
  rw [← hlen, Nat.add_sub_cancel] at htokens
  have hin := houtcome.in_proposal
  simp only [Machine.checkpointedRejected]
  by_cases hacc : 0 < r.accepted
  · rw [if_pos hacc]
    simp only [wp_bind]
    refine wp_retain hblock (by simp) havailable hacc (by omega) hPs fun c₁ hb₁ => ?_
    refine wp_captureHostTaps (hb₁.transaction ▸ hPs) fun c₂ hc₂ => ?_
    have hb₂ := hb₁.same hc₂
    refine wp_stageTaps (hb₂.transaction ▸ hPs) hbinding (hsegments ▸ .nil) hacc fun segments c₃ hc₃ hstaged => ?_
    have hb₃ := hb₂.same hc₃
    refine wp_decode hb₃.tokens hb₃.transaction hb₃.torn hPs fun c₄ hs₄ _ => ?_
    refine wp_captureHostTaps (hs₄.transaction ▸ hPs) fun c₅ hc₅ => ?_
    have hs₅ := hs₄.same hc₅
    refine wp_stageTaps (hs₅.transaction ▸ hPs) hbinding (by simpa using hstaged) (Nat.le_refl 1)
      fun segments' c₆ hc₆ hstaged' => ?_
    have hs₆ := hs₅.same hc₆
    refine wp_whenever (fun _ => ?_) fun hf => absurd (of_decide_eq_false hf) (not_not.mpr hacc)
    refine wp_commitSettled hs₆ (by simp) hPs fun c₇ hs₇ => ?_
    refine hQ segments' c₇ ?_ (hlen ▸ hstaged')
    rw [htokens, ← append_assoc]
    exact hs₇
  have hzero : r.accepted = 0 := by omega
  rw [if_neg hacc]
  simp only [wp_bind]
  refine wp_rollback hblock.transaction (hsaved.2.trans hsaved.1.symm) hPs fun c₁ hs₁ => ?_
  refine wp_decode hs₁.tokens hs₁.transaction hs₁.torn hP fun c₂ hs₂ _ => ?_
  refine wp_captureHostTaps (hs₂.transaction ▸ hP) fun c₃ hc₃ => ?_
  have hs₃ := hs₂.same hc₃
  refine wp_stageTaps (hs₃.transaction ▸ hP) hbinding (by rw [hzero]; exact hsegments ▸ .nil)
    (Nat.le_refl 1) fun segments c₄ hc₄ hstaged => ?_
  have hs₄ := hs₃.same hc₄
  refine wp_whenever (fun ht => absurd (of_decide_eq_true ht) hacc) fun _ => ?_
  refine hQ segments c₄ ?_ (hlen ▸ hstaged)
  rw [htokens, hzero, take_zero, nil_append, ← hsaved.1]
  exact hs₄

theorem wp_checkpointedAccepted {saved : Snapshot} (hrejected : r.rejected = false) (hsegments : r.segments = [])
    (hblock : Block c root.tokens tentative (some saved)) (havailable : c.prefixAvailable = true)
    (hP : P none) (hPs : P (some saved))
    (hQ : ∀ segments c', Settled c' (root.tokens ++ r.committedTokens) none →
      Staged o root segments r.committedTokens.length → Q { r with segments } c') :
    wp (m.checkpointedAccepted o root tentative.length r) Q (Threw m P) c := by
  have hpos := houtcome.some_row
  have hin := houtcome.in_proposal
  have htokens := houtcome.eq_take hrejected
  have hnil : r.committedTokens ≠ [] := length_pos_iff.mp hpos
  -- either way the block is now that of the committed tokens
  have hkept : ∀ {Q' : Unit → Context → Prop}, (∀ c', Block c' root.tokens r.committedTokens (some saved) → Q' () c') →
      wp (whenever (decide (r.committedTokens.length < tentative.length))
        (m.retainTransactionPrefix r.committedTokens.length)) Q' (Threw m P) c := by
    intro Q' hQ'
    refine wp_whenever (fun _ => wp_retain hblock (by simp) havailable hpos hin hPs fun c₁ hb₁ => ?_) fun hf => ?_
    · rw [← htokens] at hb₁
      exact hQ' c₁ hb₁
    have hall : r.committedTokens = tentative := by
      rw [htokens]
      exact take_of_length_le (by simpa using hf)
    exact hQ' c (hall ▸ hblock)
  simp only [Machine.checkpointedAccepted, wp_bind]
  refine hkept fun c₁ hb₁ => ?_
  refine wp_captureHostTaps (hb₁.transaction ▸ hPs) fun c₂ hc₂ => ?_
  have hb₂ := hb₁.same hc₂
  refine wp_stageTaps (hb₂.transaction ▸ hPs) hbinding (hsegments ▸ .nil) hpos fun segments c₃ hc₃ hstaged => ?_
  refine wp_commitBlock (hb₂.same hc₃) (by simp) hPs fun c₄ hb₄ => ?_
  refine wp_whenever (fun _ => wp_finish hb₄ hnil hP fun c₅ hs₅ => ?_) fun hf => ?_
  · exact hQ segments c₅ hs₅ (by simpa using hstaged)
  have hempty : c₄.rows = [] := by simpa using hf
  have hlen : c₄.rows.length = r.committedTokens.length := by rw [hb₄.rows, length_layoutRows]
  rw [hempty, length_nil] at hlen
  omega

end

theorem wp_checkpointedBody (hchecked : Checked o tentative terminal)
    (hextent : 2 ≤ tentative.length ∧ tentative.length ≤ m.capacity) (hprepared : m.prepared = true)
    (hsettled : Settled c root.tokens none) (hP : P none)
    (hPs : ∀ n, P (some ⟨root.tokens, root.tokens, n⟩)) :
    wp (m.checkpointedBody o root tentative terminal) (Verified m o root tentative terminal) (Threw m P) c := by
  have hne : tentative ≠ [] := fun hnil => by simp [hnil] at hextent
  have houtcome : IsOutcome m.next root.tokens tentative terminal _ := greedyDecision_isOutcome hne
  simp only [Machine.checkpointedBody, wp_bind]
  refine wp_begin hsettled hprepared root.nonempty hP fun c₁ hs₁ hfresh => ?_
  refine wp_branchGreedy hs₁ (hPs _) fun c₂ hc₂ => ?_
  have hfresh₂ : c₂.fresh = true := by
    obtain ⟨n, rfl⟩ := hc₂
    exact hfresh
  refine wp_continueRows (hs₁.same hc₂) root.nonempty hextent hchecked.tokens (hPs _) fun c₃ hb₃ havail => ?_
  rw [hfresh₂] at havail
  refine wp_outerGreedyPath hb₃ hne (hPs _) fun c₄ hc₄ => ?_
  have hb₄ := hb₃.same hc₄
  have havail₄ : c₄.prefixAvailable = true := by
    obtain ⟨n, rfl⟩ := hc₄
    exact havail
  refine wp_ofExceptOk (decideOuterPrefix_eq hne) ?_
  refine wp_w1Bonus (fun _ _ => m.next_range _) fun pending => ?_
  generalize hd : greedyDecision m.next terminal root.tokens tentative = d at houtcome ⊢
  cases hrejected : d.rejected with
  | true =>
    simp only [if_true, wp_bind]
    refine wp_checkpointedRejected (r := { d with verificationRows := tentative.length, pending })
      hchecked.binding houtcome hrejected rfl hb₄ havail₄ ⟨rfl, rfl⟩ hP (hPs _)
      fun segments c₅ hs₅ hstaged => ?_
    exact wp_exported hd.symm hne hs₅ hstaged rfl hP
  | false =>
    simp only [Bool.false_eq_true, if_false, wp_bind]
    refine wp_checkpointedAccepted (r := { d with verificationRows := tentative.length, pending })
      hchecked.binding houtcome hrejected rfl hb₄ havail₄ hP (hPs _)
      fun segments c₅ hs₅ hstaged => ?_
    exact wp_exported hd.symm hne hs₅ hstaged rfl hP

/-! ## In windows -/

theorem wp_windowPath (terminal : List Int) {Q : List Int → Context → Prop} (hsettled : Settled c base none) (hbase : base ≠ [])
    (hne : ts ≠ []) (hle : ts.length ≤ m.capacity) (hvocab : ∀ token ∈ ts, InVocabulary token)
    (hP : P none)
    (hQ : ∀ c', c'.transaction = none →
      ((greedyDecision m.next terminal base ts).committedTokens = ts → Ran c' base ts) →
      Q (proposalPath m.next base ts) c') :
    wp (m.windowPath ts) Q (Threw m P) c := by
  simp only [Machine.windowPath, wp_bind]
  refine wp_branchGreedy hsettled hP fun c₁ hc₁ => ?_
  have hs₁ := hsettled.same hc₁
  split
  · rename_i hone
    obtain ⟨t, rfl⟩ := length_eq_one_iff.mp hone
    simp only [wp_bind, wp_pure]
    refine wp_decode hs₁.tokens hs₁.transaction hs₁.torn hP fun c₂ hs₂ _ => ?_
    refine hQ c₂ hs₂.transaction fun hcommitted => .inl ⟨rfl, ?_⟩
    obtain rfl : m.next base = t := by
      rcases end_or_go m.next base terminal t with hend | ⟨ht, -⟩
      · rw [greedyDecision_end hend] at hcommitted
        simpa using hcommitted
      · exact ht.symm
    exact hs₂
  have hlen : 2 ≤ ts.length := by
    have := length_pos_iff.mpr hne
    omega
  simp only [wp_bind, wp_pure]
  refine wp_continueRows hs₁ hbase ⟨hlen, hle⟩ hvocab hP fun c₂ hb₂ _ => ?_
  refine wp_outerGreedyPath hb₂ hne hP fun c₃ hc₃ => ?_
  have hb₃ := hb₂.same hc₃
  exact hQ c₃ hb₃.transaction fun _ => .inr ⟨hlen, hb₃⟩

/-- What may be cut into windows. -/
structure Windows (m : Machine) (windows : List (List Int)) : Prop where
  nonempty : ∀ window ∈ windows, window ≠ []
  fits : ∀ window ∈ windows, window.length ≤ m.capacity
  tokens : ∀ window ∈ windows, ∀ token ∈ window, InVocabulary token

theorem Windows.tail {window : List Int} (h : Windows m (window :: windows)) : Windows m windows :=
  ⟨fun w hw => h.nonempty w (.tail _ hw), fun w hw => h.fits w (.tail _ hw), fun w hw => h.tokens w (.tail _ hw)⟩

theorem windows_chunks (hcapacity : 8 ≤ m.capacity) (hvocab : ∀ token ∈ ts, InVocabulary token) :
    Windows m (chunks m.nativeWidth [] ts) := by
  have hwidth : 0 < m.nativeWidth ∧ m.nativeWidth ≤ m.capacity := by
    unfold Machine.nativeWidth
    split
    · omega
    · omega
  have hflat : (chunks m.nativeWidth [] ts).flatten = ts := chunks_flatten [] ts
  refine ⟨fun w hw => (mem_chunks hwidth.1 (Nat.zero_le _) hw).1,
    fun w hw => Nat.le_trans (mem_chunks hwidth.1 (Nat.zero_le _) hw).2 hwidth.2, fun w hw token htoken => ?_⟩
  apply hvocab
  rw [← hflat]
  exact mem_flatten.mpr ⟨w, hw, htoken⟩

theorem windowLoop_stopped (h : r.stopped = true) :
    m.windowLoop o root terminal windows offset r = pure (r, false) := by
  cases windows with
  | nil => rfl
  | cons window windows => simp only [Machine.windowLoop, h, if_true]

section
variable (hbinding : o.tapConsumer = true → o.tapBinding = true) (hwindows : Windows m windows)
include hbinding hwindows

theorem wp_windowLoop {Q : OuterResult × Bool → Context → Prop}
    (hsettled : Settled c (root.tokens ++ r.committedTokens) none)
    (hstaged : Staged o root r.segments r.committedTokens.length) (hoffset : offset = r.committedTokens.length)
    (hrejected : r.rejected = false) (hstopped : r.stopped = false) (hP : P none)
    (hQ : ∀ r' repair c', r'.toDecision = r.toDecision.append
        (greedyDecision m.next terminal (root.tokens ++ r.committedTokens) windows.flatten) →
      c'.transaction = none →
      (repair = false → Settled c' (root.tokens ++ r'.committedTokens) none ∧
        Staged o root r'.segments r'.committedTokens.length) → Q (r', repair) c') :
    wp (m.windowLoop o root terminal windows offset r) Q (Threw m P) c := by
  induction windows generalizing r c offset with
  | nil =>
    refine hQ r false c ?_ hsettled.transaction fun _ => ⟨hsettled, hstaged⟩
    exact (r.toDecision.append_empty hrejected hstopped).symm
  | cons window windows ih =>
    have hne := hwindows.nonempty window (.head _)
    have hbase : root.tokens ++ r.committedTokens ≠ [] := by simp [root.nonempty]
    simp only [Machine.windowLoop, hstopped, Bool.false_eq_true, if_false, wp_bind]
    refine wp_windowPath terminal hsettled hbase hne (hwindows.fits window (.head _))
      (hwindows.tokens window (.head _)) hP fun c₁ htx hran => ?_
    refine wp_ofExceptOk (decideOuterPrefix_eq hne) ?_
    have houtcome : IsOutcome m.next (root.tokens ++ r.committedTokens) window terminal _ :=
      greedyDecision_isOutcome hne
    generalize hd : greedyDecision m.next terminal (root.tokens ++ r.committedTokens) window = d
      at houtcome hran ⊢
    rw [flatten_cons] at hQ
    cases hrepair : d.rejected || decide (d.committedTokens.length < window.length) with
    | true =>
      refine hQ _ true c₁ ?_ htx nofun
      have hend : d.rejected = true ∨ d.stopped = true := by
        rcases Bool.or_eq_true_iff.mp hrepair with hr | hlt
        · exact .inl hr
        · exact houtcome.ended (of_decide_eq_true hlt)
      rw [greedyDecision_append_end (hd ▸ hend), hd]
      rfl
    | false =>
      obtain ⟨hr, hlen⟩ := Bool.or_eq_false_iff.mp hrepair
      have hlen := of_decide_eq_false hlen
      have hin := houtcome.in_proposal
      obtain ⟨hcommitted, haccepted⟩ := greedyDecision_whole (hd ▸ hr) (by rw [hd]; omega)
      rw [hd] at hcommitted haccepted
      have hran₁ := hran hcommitted
      simp only [Bool.false_eq_true, if_false, wp_bind]
      refine wp_captureHostTaps (htx ▸ hP) fun c₂ hc₂ => ?_
      have hran₂ := hran₁.same hc₂
      refine wp_emit (n := r.committedTokens.length) (hran₂.transaction ▸ hP) hbinding hstaged
        (length_pos_iff.mpr hne) hoffset (by rw [hoffset]) fun segments c₃ hc₃ hstaged₃ => ?_
      refine wp_finishRan (hran₂.same hc₃) rfl hP fun c₄ hs₄ => ?_
      rw [append_assoc] at hs₄
      rw [← hcommitted, ← length_append] at hstaged₃
      rw [← hcommitted] at hs₄
      by_cases hstop : d.stopped = true
      · rw [windowLoop_stopped hstop]
        refine hQ _ false c₄ ?_ hs₄.transaction fun _ => ⟨hs₄, hstaged₃⟩
        rw [greedyDecision_append_end (hd ▸ .inr hstop), hd]
        rfl
      have hstop : d.stopped = false := by simpa using hstop
      refine ih hwindows.tail hs₄ hstaged₃ (by simp [hoffset, hcommitted]) hr hstop fun r' repair c' hd' => ?_
      refine hQ r' repair c' ?_
      rw [hd', greedyDecision_append (hd ▸ hr) (hd ▸ hstop)]
      simp only [Decision.append, hcommitted, haccepted, append_assoc, Nat.add_assoc]

theorem wp_repairLoop {size : Nat}
    (hsettled : Settled c (root.tokens ++ ts) none) (hstaged : Staged o root r.segments ts.length)
    (hoffset : offset = ts.length) (hP : P none)
    (hQ : ∀ segments replayRows c', Settled c' (root.tokens ++ (ts ++ windows.flatten)) none →
      Staged o root segments (ts ++ windows.flatten).length → Q { r with segments, replayRows } c') :
    wp (m.repairLoop o root size windows offset r) Q (Threw m P) c := by
  induction windows generalizing r c offset ts with
  | nil =>
    rw [flatten_nil, append_nil] at hQ
    exact hQ r.segments r.replayRows c hsettled hstaged
  | cons window windows ih =>
    have hne := hwindows.nonempty window (.head _)
    have hbase : root.tokens ++ ts ≠ [] := by simp [root.nonempty]
    simp only [Machine.repairLoop, wp_bind]
    refine wp_replay hsettled hbase hne (hwindows.fits window (.head _)) (hwindows.tokens window (.head _)) hP
      fun c₁ hran₁ => ?_
    refine wp_captureHostTaps (hran₁.transaction ▸ hP) fun c₂ hc₂ => ?_
    have hran₂ := hran₁.same hc₂
    refine wp_emit (n := ts.length) (hran₂.transaction ▸ hP) hbinding hstaged
      (length_pos_iff.mpr hne) hoffset (by rw [hoffset]) fun segments c₃ hc₃ hstaged₃ => ?_
    refine wp_finishRan (hran₂.same hc₃) rfl hP fun c₄ hs₄ => ?_
    rw [append_assoc] at hs₄
    rw [← length_append] at hstaged₃
    refine ih hwindows.tail hs₄ hstaged₃ (by simp [hoffset]) fun segments' replayRows c' hs' hstaged' => ?_
    rw [append_assoc, ← flatten_cons] at hs' hstaged'
    exact hQ segments' replayRows c' hs' hstaged'

end

theorem wp_windowedBody (hchecked : Checked o tentative terminal) (hne : tentative ≠ [])
    (hcapacity : 8 ≤ m.capacity) (hsettled : Settled c root.tokens none) (hP : P none) :
    wp (m.windowedBody o root tentative terminal) (Verified m o root tentative terminal) (Threw m P) c := by
  have houtcome : IsOutcome m.next root.tokens tentative terminal _ := greedyDecision_isOutcome hne
  have hflat : (chunks m.nativeWidth [] tentative).flatten = tentative := chunks_flatten [] tentative
  simp only [Machine.windowedBody, wp_bind]
  refine wp_windowLoop hchecked.binding (windows_chunks hcapacity hchecked.tokens) (by simpa using hsettled)
    .nil rfl rfl rfl hP fun r' repair c₁ hd htx hkept => ?_
  have hd : r'.toDecision = greedyDecision m.next terminal root.tokens tentative := by
    rw [hd, hflat, append_nil]
    simp [Decision.append]
  rw [← hd] at houtcome
  cases repair with
  | true =>
    simp only [if_true, wp_bind]
    refine wp_restore htx hP fun c₂ hs₂ => ?_
    have hcommitted : (chunks m.nativeWidth [] r'.committedTokens).flatten = r'.committedTokens :=
      chunks_flatten [] _
    have hs₂ : Settled c₂ (root.tokens ++ []) none := by rwa [append_nil]
    refine wp_repairLoop hchecked.binding
      (windows_chunks hcapacity (houtcome.vocabulary m.next_range)) hs₂ .nil rfl hP
      fun segments replayRows c₃ hs₃ hstaged => ?_
    rw [nil_append, hcommitted] at hs₃ hstaged
    exact wp_exported hd hne hs₃ hstaged rfl hP
  | false =>
    obtain ⟨hs, hstaged⟩ := hkept rfl
    exact wp_exported hd hne hs hstaged rfl hP

end VoidInfer.Exl3.Outer
