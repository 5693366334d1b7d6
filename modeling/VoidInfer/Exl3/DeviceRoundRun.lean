import VoidInfer.Exl3.DeviceRoundSpec

/-
  Rounds and lanes. `laneRun_greedy`: whatever is proposed, over any number of rounds that are settled at once, the
  committed tokens one after the other are the greedy continuation of the first root, at least one a round, and the
  context holds the root and them. A seed is reused only where its packet was bound at this very root, so it is the
  greedy choice there.
-/

namespace VoidInfer.Exl3.Outer
open List Option

open Throwing Continuation

variable {m : Machine} {o : DeviceOptions} {c c' : Context} {base chain terminal l kept : List Int}
  {siblings : List (Nat × Int)} {tx : Option Snapshot} {saved : Snapshot} {d : Decision}
  {promoted : Option Nat} {r : OuterResult}

variable {Q : Unit → Context → Prop} {attemptRows rootPosition : Nat} {tentative : List Int}
  {offsets : List Nat} {reused : Option Int}

/-! ## Keeping rows -/

theorem wp_retainRows {n : Nat} (hbase : c.base = base)
    (htx : c.transaction = some saved) (htorn : c.torn = false) (havailable : c.prefixAvailable = true)
    (hpos : 0 < n) (hlt : n < c.rows.length) (htokens : (c.rows.take n).map Row.token = kept)
    (hpath : (c.rows[n - 1]?.elim [] Row.path) = kept)
    (hQ : ∀ c', At c' (base ++ kept) (some saved) → c'.rows ≠ [] → c'.tapRows = c'.rows.length → Q () c') :
    wp (m.retainTransactionPrefix n) Q (Broke m) c := by
  simp only [Machine.retainTransactionPrefix, wp_bind]
  refine wp_requireTrue ⟨by simp [htx], havailable⟩ (wp_requireTrue ⟨hpos, Nat.le_of_lt hlt⟩ ?_)
  refine wp_attempt trivial ?_
  rw [if_neg (Nat.ne_of_lt hlt)]
  have hlen : (c.rows.take n).length = n := by rw [length_take, Nat.min_eq_left (Nat.le_of_lt hlt)]
  refine hQ _ ⟨?_, ?_, htx, htorn⟩ ?_ hlen.symm
  · show c.base ++ _ = _
    rw [htokens, hbase]
  · show c.base ++ _ = _
    rw [hpath, hbase]
  show c.rows.take n ≠ []
  intro hnil
  rw [hnil, length_nil] at hlen
  omega

section
variable (h : Tree c base chain siblings (some saved))
include h

theorem wp_retainChain {n : Nat} (hpos : 0 < n) (hle : n ≤ chain.length) (hlt : n < chain.length + siblings.length)
    (hQ : ∀ c', At c' (base ++ chain.take n) (some saved) → c'.rows ≠ [] → c'.tapRows = c'.rows.length → Q () c') :
    wp (m.retainTransactionPrefix n) Q (Broke m) c := by
  refine wp_retainRows h.base h.transaction h.torn h.available hpos (by rw [h.rows, length_layout]; exact hlt)
    ?_ ?_ hQ
  · rw [h.rows, layout_take hle, layoutRows_tokens]
  · rw [h.rows, layout_path (by omega), Nat.sub_add_cancel hpos]

theorem wp_promoteRetain {j depth : Nat} {token : Int} (hsibling : siblings[j]? = some (depth, token))
    (hdepth : 1 ≤ depth) (hlt : depth < chain.length)
    (hQ : ∀ c', At c' (base ++ (chain.take depth ++ [token])) (some saved) → Q () c') :
    wp (m.promoteSiblingRow (chain.length + j) depth) (fun _ c' =>
      wp (m.retainTransactionPrefix (depth + 1)) Q (Broke m) c') (Broke m) c := by
  have hj : j < siblings.length := lt_of_getElem? hsibling
  have hlen : c.rows.length = chain.length + siblings.length := by rw [h.rows, length_layout]
  have hrow : c.rows[chain.length + j]? = some ⟨chain.take depth, token⟩ := by
    rw [h.rows, layout_sibling, hsibling]
    rfl
  simp only [Machine.promoteSiblingRow, wp_bind]
  refine wp_requireTrue ⟨by simp [h.transaction], h.available⟩ (wp_requireTrue ⟨hdepth, by omega, by omega⟩ ?_)
  refine wp_attempt trivial ?_
  simp only [hrow]
  have hat : (c.rows.set depth ⟨chain.take depth, token⟩)[depth]? = some ⟨chain.take depth, token⟩ :=
    getElem?_set_self (by omega)
  refine wp_retainRows h.base h.transaction h.torn h.available
    (Nat.succ_pos depth) ?_ ?_ ?_ fun c' hat' _ _ => hQ c' hat'
  · show depth + 1 < (c.rows.set depth _).length
    rw [length_set]
    omega
  · show ((c.rows.set depth _).take _).map Row.token = _
    rw [take_add_one, hat, take_set_of_le (Nat.le_refl depth), h.rows, layout_take (Nat.le_of_lt hlt),
      map_append, layoutRows_tokens]
    rfl
  show ((c.rows.set depth _)[depth + 1 - 1]?.elim [] Row.path) = _
  rw [Nat.add_sub_cancel, hat]
  rfl

end

/-! ## Settlement -/

/-- What a settlement leaves of the transaction: nothing, or the root to roll back to. -/
def Settlement.Leaves (base : List Int) : Settlement → Option Snapshot → Prop
  | .eager, tx => tx = none
  | .deferTargetCommit, tx => ∃ saved, tx = some saved ∧ saved.tokens = base ∧ saved.head = base

/-- A round is done: what it committed, and where it left the context. -/
structure RoundDone (m : Machine) (s : Settlement) (base terminal : List Int) (r : OuterResult) (c : Context) :
    Prop where
  greedy : r.committedTokens = extend m.next base r.committedTokens.length
  some_row : 0 < r.committedTokens.length
  stopped : r.stopped = true ↔ ∃ token, r.committedTokens.getLast? = some token ∧ token ∈ terminal
  context : ∃ tx, At c (base ++ r.committedTokens) tx ∧ s.Leaves base tx

theorem RoundDone.settled (h : RoundDone m .eager base terminal r c) : At c (base ++ r.committedTokens) none := by
  obtain ⟨tx, hat, rfl⟩ := h.context
  exact hat

theorem wp_commitEager (h : At c l (some saved)) (hsaved : saved.tokens = base ∧ saved.head = base)
    (hQ : ∀ c' tx, At c' l tx → o.settlement.Leaves base tx → Q () c') :
    wp (whenever (decide (o.settlement = .eager)) m.commitTransaction) Q (Broke m) c := by
  cases hs : o.settlement with
  | eager =>
    refine wp_whenever (fun _ => ?_) fun hf => absurd rfl (of_decide_eq_false hf)
    exact wp_commitAt h (by simp) fun c' hat _ _ => hQ c' none hat (hs ▸ rfl)
  | deferTargetCommit =>
    refine wp_whenever (fun ht => nomatch of_decide_eq_true ht) fun _ => ?_
    exact hQ c _ h (hs ▸ ⟨saved, rfl, hsaved⟩)

theorem wp_deviceStageTaps {Q : OuterResult → Context → Prop} {rows destinationFirst : Nat}
    {repair correction : Bool} (hbinding : o.tapConsumer = true → o.bound = true)
    (hQ : ∀ segments c', Same c c' → Q { r with segments } c') :
    wp (m.deviceStageTaps o rootPosition attemptRows r rows destinationFirst repair correction) Q (Broke m) c := by
  simp only [Machine.deviceStageTaps, wp_bind, wp_get]
  exact wp_emitRows trivial hbinding fun _ segments c' hc _ _ _ _ => hQ segments c' hc

theorem Decided.kept_rows (h : Decided m base chain siblings terminal d promoted) (hne : chain ≠ [])
    (hrejected : d.rejected = true) :
    d.committedTokens.dropLast.length = d.accepted ∧ d.committedTokens.dropLast = extend m.next base d.accepted := by
  cases h with
  | chain =>
    have houtcome : IsOutcome m.next base chain terminal _ := greedyDecision_isOutcome hne
    obtain ⟨hlen, -, -⟩ := rejected_tokens hne rfl hrejected
    rw [houtcome.greedy, ← hlen, dropLast_extend]
    simp
  | sibling j d hd hrejected' hsibling =>
    have houtcome : IsOutcome m.next base chain terminal d := hd ▸ greedyDecision_isOutcome hne
    obtain ⟨hlen, -, -⟩ := rejected_tokens hne hd hrejected'
    rw [dropLast_concat]
    refine ⟨hlen.symm, ?_⟩
    rw [hlen]
    exact houtcome.greedy

theorem wp_keep (hdecided : Decided m base chain siblings terminal d promoted)
    (hne : chain ≠ []) (hrejected : d.rejected = true) (haccepted : 0 < d.accepted)
    (hoffsets : ∀ sibling ∈ siblings, 1 ≤ sibling.1) (h : Tree c base chain siblings (some saved))
    (hQ : ∀ c', At c' (base ++ d.committedTokens.dropLast) (some saved) → Q () c') :
    wp (m.promote promoted (d.accepted - 1)) (fun _ c' =>
      wp (m.retainTransactionPrefix d.accepted) Q (Broke m) c') (Broke m) c := by
  cases hdecided with
  | chain =>
    obtain ⟨hlen, hlt, htokens⟩ := rejected_tokens hne rfl hrejected
    refine wp_retainChain h haccepted (Nat.le_of_lt hlt) (by omega) fun c' hat _ _ => hQ c' ?_
    rw [htokens, dropLast_concat]
    exact hat
  | sibling j d hd hrejected' hsibling =>
    obtain ⟨hlen, hlt, htokens⟩ := rejected_tokens hne hd hrejected'
    have hdepth : 1 ≤ d.accepted := hoffsets _ (mem_of_getElem? hsibling)
    refine wp_promoteRetain h hsibling hdepth hlt fun c' hat => hQ c' ?_
    have hat : At c' (base ++ (chain.take d.accepted ++ [d.committedTokens.getLast?.getD (-1)])) (some saved) := hat
    rw [← htokens] at hat
    rw [dropLast_concat]
    exact hat

theorem wp_settleFolded (hbinding : o.tapConsumer = true → o.bound = true)
    (hdecided : Decided m base chain siblings terminal r.toDecision promoted) (hne : chain ≠ [])
    (hrejected : r.rejected = true) (haccepted : 0 < r.accepted)
    (hoffsets : ∀ sibling ∈ siblings, 1 ≤ sibling.1) (hsaved : saved.tokens = base ∧ saved.head = base)
    (h : Tree c base chain siblings (some saved)) :
    wp (m.settleFolded o rootPosition attemptRows terminal promoted r)
      (RoundDone m o.settlement base terminal) (Broke m) c := by
  obtain ⟨hlen, hkept⟩ := hdecided.kept_rows hne hrejected
  simp only [Machine.settleFolded, wp_bind]
  refine wp_keep hdecided hne hrejected haccepted hoffsets h fun c₁ hat₁ => ?_
  refine wp_deviceStageTaps hbinding fun segments c₂ hc₂ => ?_
  refine wp_commitEager (hat₁.same hc₂) hsaved fun c₃ tx hat₃ hleaves => ?_
  refine ⟨?_, ?_, ?_, tx, hat₃, hleaves⟩
  · rw [hlen]
    exact hkept
  · show 0 < r.committedTokens.dropLast.length
    omega
  · rw [Option.any_eq_true]
    simp

theorem outcome_stopped (houtcome : IsOutcome m.next base chain terminal d) :
    d.stopped = true ↔ ∃ token, d.committedTokens.getLast? = some token ∧ token ∈ terminal := by
  rw [getLast?_eq_getElem?]
  exact houtcome.stopped

theorem wp_settleRejected (hprepared : m.prepared = true) (hroot : base ≠ [])
    (hbinding : o.tapConsumer = true → o.bound = true)
    (hd : r.toDecision = greedyDecision m.next terminal base chain) (hne : chain ≠ [])
    (hrejected : r.rejected = true) (hsaved : saved.tokens = base ∧ saved.head = base)
    (h : Tree c base chain siblings (some saved)) :
    wp (m.settleRejected o rootPosition attemptRows r) (RoundDone m o.settlement base terminal) (Broke m) c := by
  have houtcome : IsOutcome m.next base chain terminal r.toDecision := hd ▸ greedyDecision_isOutcome hne
  obtain ⟨hlen, hlt, htokens⟩ := rejected_tokens hne hd hrejected
  have hdone : ∀ r' c' tx, r'.toDecision = r.toDecision →
      At c' (base ++ (chain.take r.accepted ++ [r.committedTokens.getLast?.getD (-1)])) tx →
      o.settlement.Leaves base tx → RoundDone m o.settlement base terminal r' c' := by
    intro r' c' tx hr' hat hleaves
    rw [← htokens, ← hr'] at hat
    rw [← hr'] at houtcome
    exact ⟨houtcome.greedy, houtcome.some_row, outcome_stopped houtcome, tx, hat, hleaves⟩
  simp only [Machine.settleRejected]
  by_cases hacc : 0 < r.accepted
  · rw [if_pos hacc]
    simp only [wp_bind]
    refine wp_retainChain h hacc (Nat.le_of_lt hlt) (by omega) fun c₁ hat₁ _ _ => ?_
    refine wp_deviceStageTaps hbinding fun segments c₂ hc₂ => ?_
    have hat₂ := hat₁.same hc₂
    refine wp_decode hat₂.tokens hat₂.transaction hat₂.torn trivial fun c₃ hs₃ _ => ?_
    refine wp_deviceStageTaps hbinding fun segments' c₄ hc₄ => ?_
    rw [decide_eq_true hacc, Bool.true_and]
    refine wp_commitEager (hs₃.at.same hc₄) hsaved fun c₅ tx hat₅ hleaves => ?_
    rw [append_assoc] at hat₅
    exact hdone _ c₅ tx rfl hat₅ hleaves
  have hzero : r.accepted = 0 := by omega
  rw [if_neg hacc]
  simp only [wp_bind]
  refine wp_rollback h.transaction (hsaved.2.trans hsaved.1.symm) trivial fun c₁ hs₁ => ?_
  rw [hsaved.1] at hs₁
  have hopen : ∀ {Q : Unit → Context → Prop}, (∀ c' tx, At c' base tx → o.settlement.Leaves base tx → Q () c') →
      wp (whenever (decide (o.settlement = .deferTargetCommit)) m.beginTransaction) Q (Broke m) c₁ := by
    intro Q hQ
    cases hs : o.settlement with
    | eager =>
      refine wp_whenever (fun ht => nomatch of_decide_eq_true ht) fun _ => ?_
      exact hQ c₁ none hs₁.at (hs ▸ rfl)
    | deferTargetCommit =>
      refine wp_whenever (fun _ => ?_) fun hf => absurd rfl (of_decide_eq_false hf)
      exact wp_beginAt hs₁.at hprepared hroot fun c' hat _ => hQ c' _ hat (hs ▸ ⟨_, rfl, rfl, rfl⟩)
  refine hopen fun c₂ tx hat₂ hleaves => ?_
  refine wp_decode hat₂.tokens hat₂.transaction hat₂.torn trivial fun c₃ hs₃ _ => ?_
  refine wp_deviceStageTaps hbinding fun segments c₄ hc₄ => ?_
  refine wp_whenever (fun ht => absurd ht (by simp [hzero])) fun _ => ?_
  refine hdone _ c₄ tx rfl ?_ hleaves
  rw [hzero, take_zero, nil_append]
  exact hs₃.at.same hc₄

theorem wp_settleAccepted (hbinding : o.tapConsumer = true → o.bound = true)
    (hd : r.toDecision = greedyDecision m.next terminal base chain) (hne : chain ≠ [])
    (hrejected : r.rejected = false) (hsaved : saved.tokens = base ∧ saved.head = base)
    (h : Tree c base chain siblings (some saved)) :
    wp (m.settleAccepted o rootPosition (chain.length + siblings.length) r)
      (RoundDone m o.settlement base terminal) (Broke m) c := by
  have houtcome : IsOutcome m.next base chain terminal r.toDecision := hd ▸ greedyDecision_isOutcome hne
  have hpos := houtcome.some_row
  have hin := houtcome.in_proposal
  have htokens := houtcome.eq_take hrejected
  -- either way the context now holds the committed tokens, with the rows of the block
  have hkept : ∀ {Q : Unit → Context → Prop}, (∀ c', At c' (base ++ r.committedTokens) (some saved) →
        c'.rows ≠ [] → c'.tapRows = c'.rows.length → Q () c') →
      wp (whenever (decide (r.committedTokens.length < chain.length + siblings.length))
        (m.retainTransactionPrefix r.committedTokens.length)) Q (Broke m) c := by
    intro Q hQ
    refine wp_whenever (fun ht => ?_) fun hf => ?_
    · refine wp_retainChain h hpos hin (of_decide_eq_true ht) fun c' hat => hQ c' ?_
      rw [htokens]
      exact hat
    have hf := of_decide_eq_false hf
    have hnone : siblings = [] := length_eq_zero_iff.mp (by omega)
    have hall : r.committedTokens = chain := by
      rw [htokens]
      exact take_of_length_le (by omega)
    obtain ⟨hat, htap⟩ := h.whole hnone
    have hrows : c.rows.length = chain.length := by rw [h.rows, hnone, length_layoutRows]
    refine hQ c (by rw [hall]; exact hat) (fun hnil => ?_) (htap.trans hrows.symm)
    rw [hnil, length_nil] at hrows
    exact hne (length_eq_zero_iff.mp hrows.symm)
  simp only [Machine.settleAccepted, wp_bind]
  refine hkept fun c₁ hat₁ hrows₁ htap₁ => ?_
  refine wp_deviceStageTaps hbinding fun segments c₂ hc₂ => ?_
  have hdone : ∀ c' tx, At c' (base ++ r.committedTokens) tx → o.settlement.Leaves base tx →
      RoundDone m o.settlement base terminal { r with segments } c' :=
    fun c' tx hat hleaves => ⟨houtcome.greedy, hpos, outcome_stopped houtcome, tx, hat, hleaves⟩
  have hat₂ := hat₁.same hc₂
  cases hs : o.settlement with
  | deferTargetCommit =>
    refine wp_whenever (fun ht => nomatch of_decide_eq_true ht) fun _ => ?_
    exact hs ▸ hdone c₂ _ hat₂ (hs ▸ ⟨saved, rfl, hsaved⟩)
  | eager =>
    rw [hs] at hdone
    refine wp_whenever (fun _ => ?_) fun hf => absurd rfl (of_decide_eq_false hf)
    simp only [wp_bind]
    refine wp_commitAt hat₂ (by simp) fun c₃ hat₃ hrows₃ htap₃ => ?_
    obtain ⟨n, rfl⟩ := hc₂
    refine wp_whenever (fun _ => ?_) fun _ => hdone c₃ none hat₃ rfl
    refine wp_finishAt hat₃ (by rw [hrows₃]; exact hrows₁) (by rw [htap₃, hrows₃]; exact htap₁) fun c₄ hat₄ => ?_
    exact hdone c₄ none hat₄ rfl

theorem wp_settle (hprepared : m.prepared = true) (hroot : base ≠ [])
    (hbinding : o.tapConsumer = true → o.bound = true)
    (hdecided : Decided m base chain siblings terminal r.toDecision promoted) (hne : chain ≠ [])
    (hfold : siblings ≠ [] → o.foldCorrection = true) (hoffsets : ∀ sibling ∈ siblings, 1 ≤ sibling.1)
    (hsaved : saved.tokens = base ∧ saved.head = base) (h : Tree c base chain siblings (some saved)) :
    wp (m.settle o rootPosition (chain.length + siblings.length) terminal promoted r)
      (RoundDone m o.settlement base terminal) (Broke m) c := by
  unfold Machine.settle
  split
  · rename_i hif
    simp only [Bool.and_eq_true, decide_eq_true_eq] at hif
    exact wp_settleFolded hbinding hdecided hne hif.1.1 hif.1.2 hoffsets hsaved h
  rename_i hif
  -- a promoted sibling is settled by folding
  have hd : r.toDecision = greedyDecision m.next terminal base chain := by
    generalize hr : r.toDecision = d at hdecided
    cases hdecided with
    | chain => rfl
    | sibling j d hd hrejected hsibling =>
      have hsome : siblings ≠ [] := fun hnil => by simp [hnil] at hsibling
      refine absurd ?_ hif
      rw [show r.rejected = true from (congrArg Decision.rejected hr).trans hrejected,
        show r.accepted = d.accepted + 1 from congrArg Decision.accepted hr, hfold hsome]
      simp
  split
  · rename_i hrejected
    exact wp_settleRejected hprepared hroot hbinding hd hne hrejected hsaved h
  rename_i hrejected
  exact wp_settleAccepted hbinding hd hne (by simpa using hrejected) hsaved h

/-! ## A round -/

/-- The arguments a round does not refuse. -/
structure DeviceAccepts (m : Machine) (o : DeviceOptions) (tentative terminal : List Int)
    (offsets : List Nat) : Prop where
  checked : m.checkDevice o tentative terminal offsets = .ok ()
  offsets : ∀ offset ∈ offsets, 1 ≤ offset ∧ offset < tentative.length - offsets.length

/-- The context a round finds: at the root, or just after the transaction began there. -/
def Ready (c : Context) (base : List Int) : Prop :=
  At c base none ∨ ∃ n, At c base (some ⟨base, base, n⟩) ∧ c.fresh = true

/-- What the checks ensure. -/
structure DeviceChecked (m : Machine) (o : DeviceOptions) (tentative : List Int) (offsets : List Nat) : Prop where
  rows : 2 ≤ tentative.length ∧ tentative.length ≤ 8 ∧ tentative.length ≤ m.capacity
  prepared : m.prepared = true
  layout : offsets.length + 2 ≤ tentative.length
  fold : offsets ≠ [] → o.foldCorrection = true
  tokens : ∀ token ∈ tentative, InVocabulary token
  binding : o.tapConsumer = true → o.bound = true

theorem checkDevice_ok {u : Unit}
    (h : m.checkDevice o tentative terminal offsets = .ok u) : DeviceChecked m o tentative offsets := by
  obtain ⟨u₁, hrows, h⟩ := bind_ok h
  obtain ⟨u₂, hlayout, h⟩ := bind_ok h
  obtain ⟨u₃, htokens, h⟩ := bind_ok h
  obtain ⟨u₄, -, h⟩ := bind_ok h
  obtain ⟨u₅, hbinding, -⟩ := bind_ok h
  obtain ⟨h2, h8, hcapacity, hprepared⟩ := not_not.mp (throwIf_ok.mp hrows)
  obtain ⟨hlen, hfold⟩ := not_not.mp (throwIf_ok.mp hlayout)
  refine ⟨⟨h2, h8, hcapacity⟩, hprepared, hlen, fun hne => (hfold hne).2, not_not.mp (throwIf_ok.mp htokens),
    fun hconsumer => ?_⟩
  by_contra hnot
  exact throwIf_ok.mp hbinding ⟨hconsumer, hnot⟩

theorem wp_beginReady (h : Ready c base) (hprepared : m.prepared = true) (hne : base ≠ [])
    (hQ : ∀ c' n, At c' base (some ⟨base, base, n⟩) → c'.fresh = true → Q () c') :
    wp (whenever c.transaction.isNone m.beginTransaction) Q (Broke m) c := by
  rcases h with hat | ⟨n, hat, hfresh⟩
  · refine wp_whenever (fun _ => wp_beginAt hat hprepared hne fun c' hat' hfresh => hQ c' _ hat' hfresh) fun hf => ?_
    simp [hat.transaction] at hf
  refine wp_whenever (fun ht => ?_) fun _ => hQ c n hat hfresh
  simp [hat.transaction] at ht

theorem wp_deviceSeed {Q : Int → Context → Prop} (h : At c base tx)
    (hreused : ∀ token, reused = some token → token = m.next base)
    (hQ : ∀ c', Same c c' → Q (m.next base) c') : wp (m.deviceSeed reused) Q (Broke m) c := by
  unfold Machine.deviceSeed
  split
  · rename_i token
    rw [hreused token rfl]
    exact hQ c (.refl c)
  · exact wp_greedyAt h hQ

theorem Decided.accepted_fits (h : Decided m base chain siblings terminal d promoted) (hne : chain ≠ [])
    (hrejected : d.rejected = false) : d.committedTokens.length ≤ chain.length := by
  cases h with
  | chain =>
    have houtcome : IsOutcome m.next base chain terminal _ := greedyDecision_isOutcome hne
    exact houtcome.in_proposal
  | sibling j d hd hrejected' hsibling => cases hrejected.symm.trans hrejected'

theorem wp_deviceBody (hchecked : DeviceChecked m o tentative offsets) (hready : Ready c base)
    (hne : base ≠ []) (hreused : ∀ token, reused = some token → token = m.next base)
    (hoffsets : ∀ offset ∈ offsets, 1 ≤ offset ∧ offset < tentative.length - offsets.length) :
    wp (m.deviceBody o rootPosition reused tentative terminal offsets)
      (RoundDone m o.settlement base terminal) (Broke m) c := by
  have hrows := hchecked.rows
  have hlayout := hchecked.layout
  simp only [Machine.deviceBody, wp_bind, wp_get]
  refine wp_beginReady hready hchecked.prepared hne fun c₁ n hat₁ hfresh => ?_
  refine wp_deviceSeed hat₁ hreused fun c₂ hc₂ => ?_
  have hfresh₂ : c₂.fresh = true := by
    obtain ⟨k, rfl⟩ := hc₂
    exact hfresh
  refine wp_continueTree (hat₁.same hc₂) hne hfresh₂ hrows hchecked.tokens hlayout hoffsets fun c₃ htree => ?_
  have hchain : tentative.take (tentative.length - offsets.length) ≠ [] := by
    intro hnil
    have hlen := congrArg List.length hnil
    rw [length_take, length_nil] at hlen
    omega
  refine wp_deviceDecision rfl rfl htree hchain fun d promoted bonus c₄ hc₄ hdecided hbonus => ?_
  have hlen : (tentative.take (tentative.length - offsets.length)).length = tentative.length - offsets.length := by
    rw [length_take]
    omega
  refine wp_w1Bonus (fun hrejected hfull => hbonus ?_) fun pending => ?_
  · have hfits := hdecided.accepted_fits hchain hrejected
    simp only [Bool.not_eq_true', decide_eq_false_iff_not] at hfull
    rw [← length_eq_zero_iff]
    omega
  have hcount : tentative.length = (tentative.take (tentative.length - offsets.length)).length +
      (offsets.zip (tentative.drop (tentative.length - offsets.length))).length := by
    rw [hlen, length_zip, length_drop]
    omega
  have hfold : offsets.zip (tentative.drop (tentative.length - offsets.length)) ≠ [] → o.foldCorrection = true := by
    intro hsome
    refine hchecked.fold fun hnil => hsome ?_
    rw [hnil, zip_nil_left]
  have hsibling : ∀ sibling ∈ offsets.zip (tentative.drop (tentative.length - offsets.length)), 1 ≤ sibling.1 :=
    fun sibling hin => (hoffsets sibling.1 (of_mem_zip hin).1).1
  have hsettle : wp (m.settle o rootPosition tentative.length terminal promoted
      { d with verificationRows := tentative.length, pending })
      (RoundDone m o.settlement base terminal) (Broke m) c₄ := by
    rw [show m.settle o rootPosition tentative.length = m.settle o rootPosition _ from
      congrArg (m.settle o rootPosition) hcount]
    exact wp_settle hchecked.prepared hne hchecked.binding hdecided hchain hfold hsibling ⟨rfl, rfl⟩ (htree.same hc₄)
  refine wp_imp hsettle fun r' c₅ hdone => ?_
  refine wp_ofExcept.mpr ⟨fun _ _ => ?_, fun e he => ?_⟩
  · exact ⟨hdone.greedy, hdone.some_row, hdone.stopped, hdone.context⟩
  obtain ⟨tx, hat, hleaves⟩ := hdone.context
  have hopen : ¬ (o.settlement = .deferTargetCommit ∧ c₅.transaction = none) := by
    rintro ⟨hs, hnone⟩
    rw [hs] at hleaves
    obtain ⟨saved, rfl, -⟩ := hleaves
    cases hat.transaction.symm.trans hnone
  rw [throwIf_neg hopen] at he
  cases he

theorem wp_deviceBody_refused
    (hoffsets : ¬ ∀ offset ∈ offsets, 1 ≤ offset ∧ offset < tentative.length - offsets.length) :
    wp (m.deviceBody o rootPosition reused tentative terminal offsets) (fun _ _ => False) (fun _ _ => True) c := by
  have hcontinue : ∀ c₁, wp (m.continueRows tentative offsets) (fun _ _ => False) (fun _ _ => True) c₁ := by
    intro c₁
    simp only [Machine.continueRows, wp_bind]
    refine wp_imp (wp_const (fun _ _ => trivial) fun _ _ => trivial) fun _ c₂ _ => ?_
    refine wp_imp (wp_const (fun _ _ => trivial) fun _ _ => trivial) fun _ c₃ _ => ?_
    refine wp_imp (wp_const (fun _ _ => trivial) fun _ _ => trivial) fun _ c₄ _ => ?_
    refine wp_imp (wp_const (fun _ _ => trivial) fun _ _ => trivial) fun _ c₅ _ => ?_
    exact wp_ofExcept.mpr ⟨fun u hok => absurd (not_not.mp (throwIf_ok.mp hok)) hoffsets, fun _ _ => trivial⟩
  simp only [Machine.deviceBody, wp_bind, wp_get]
  refine wp_imp (wp_const (fun _ _ => trivial) fun _ _ => trivial) fun _ c₂ _ => ?_
  refine wp_imp (wp_const (fun _ _ => trivial) fun _ _ => trivial) fun _ c₃ _ => ?_
  exact wp_imp (hcontinue c₃) fun _ _ hf => hf.elim

theorem wp_verifyDevice (hready : Ready c base) (hne : base ≠ [])
    (hreused : ∀ token, reusedSeed o c.position tentative = some token → token = m.next base) :
    wp (m.verifyDeviceResident o tentative terminal offsets) (RoundDone m o.settlement base terminal)
      (fun _ _ => DeviceAccepts m o tentative terminal offsets → m.Failing) c := by
  simp only [Machine.verifyDeviceResident, wp_bind]
  refine wp_ofExcept.mpr ⟨fun u hchecked => ?_, fun e he haccepts => ?_⟩
  · simp only [wp_get, wp_tryCatch, wp_bind, wp_throw, wp_pure]
    by_cases hoffsets : ∀ offset ∈ offsets, 1 ≤ offset ∧ offset < tentative.length - offsets.length
    · refine wp_fail (wp_deviceBody (checkDevice_ok hchecked) hready hne hreused hoffsets) fun e c₁ hbroke => ?_
      exact wp_const (fun _ _ _ => hbroke.1) fun _ _ _ => hbroke.1
    refine wp_mono (wp_deviceBody_refused hoffsets) (fun _ _ hf => hf.elim) fun e c₁ _ => ?_
    exact wp_const (fun _ _ haccepts => absurd haccepts.offsets hoffsets)
      fun _ _ haccepts => absurd haccepts.offsets hoffsets
  rw [haccepts.checked] at he
  cases he

/-! ## A lane -/

/-- The lane at a root: packets of this revision hold the greedy choice there. -/
structure LaneOk (m : Machine) (l : List Int) (w : Lane) : Prop where
  root : At w.context l none
  nonempty : l ≠ []
  packets : ∀ p ∈ w.packets, p.binding.rootRevision ≤ w.revision ∧
    (p.binding.rootRevision = w.revision → p.token = m.next l)

/-- Its rounds are settled at once. -/
def LaneOp.Eager : LaneOp → Prop
  | .bind .. => True
  | .round o .. => o.settlement = .eager

theorem wp_onContext {α : Type} {x : ContextM α} {Q : α → Lane → Prop} {E : Exn → Lane → Prop} {w : Lane} :
    wp (onContext x) Q E w ↔
      wp x (fun a c => Q a { w with context := c }) (fun e c => E e { w with context := c }) w.context := by
  unfold wp onContext
  cases x w.context with
  | ok a c => exact Iff.rfl
  | error e c => exact Iff.rfl

variable {w w' : Lane} {root : List Int}

theorem wp_bindSeed {acquisition execution policy stream generation self : Nat} {greedy : Bool}
    (h : LaneOk m root w) :
    wp (m.bindSeed acquisition execution policy stream generation self greedy)
      (fun _ => LaneOk m root) (fun _ _ => True) w := by
  simp only [Machine.bindSeed, wp_bind]
  refine wp_onContext.mpr (wp_fail (wp_greedyAt h.root fun c hc => ?_) fun _ _ _ => trivial)
  refine wp_ofExcept.mpr ⟨fun _ _ => ?_, fun _ _ => trivial⟩
  refine ⟨h.root.same hc, h.nonempty, fun p hp => ?_⟩
  rcases mem_append.mp hp with hp | hp
  · exact h.packets p hp
  obtain rfl := mem_singleton.mp hp
  exact ⟨Nat.le_refl _, fun _ => rfl⟩

theorem reusedSeed_greedy {position : Nat} {token : Int} (h : LaneOk m root w)
    (hbinding : ∀ binding, o.tapBinding = some binding → binding.rootRevision = w.revision)
    (hseed : ∀ seed, o.readySeed = some seed → seed ∈ w.packets)
    (hreused : reusedSeed o position tentative = some token) : token = m.next root := by
  unfold reusedSeed at hreused
  split at hreused
  · rename_i binding seed front hb hs _
    split at hreused
    · rename_i hmatch
      cases hreused
      have hrevision : seed.binding.rootRevision = w.revision := hmatch.2.2.2.1.trans (hbinding binding hb)
      exact (h.packets seed (hseed seed hs)).2 hrevision
    · cases hreused
  · cases hreused

theorem wp_laneRound {binding : Option (Nat × Nat × Nat)} {packet : Option Nat} {begun : Bool}
    (h : LaneOk m root w) (heager : o.settlement = .eager) :
    wp (m.laneRound o binding packet begun tentative terminal offsets)
      (fun r w' => RoundDone m .eager root terminal r w'.context ∧ LaneOk m (root ++ r.committedTokens) w')
      (fun _ _ => DeviceAccepts m (w.options o binding packet) tentative terminal offsets → m.Failing) w := by
  have hreused : ∀ position token, reusedSeed (w.options o binding packet) position tentative = some token →
      token = m.next root := by
    intro position token
    refine reusedSeed_greedy h (fun b hb => ?_) fun seed hseed => ?_
    · obtain ⟨_, _, rfl⟩ := map_eq_some_iff.mp hb
      rfl
    obtain ⟨i, -, hi⟩ := bind_eq_some_iff.mp hseed
    exact mem_of_getElem? hi
  have hdone : ∀ c r, RoundDone m .eager root terminal r c →
      LaneOk m (root ++ r.committedTokens) ⟨c, w.revision + 1, w.packets⟩ := by
    intro c r hr
    refine ⟨hr.settled, by simp [h.nonempty], fun p hp => ?_⟩
    have hle := (h.packets p hp).1
    exact ⟨Nat.le_succ_of_le hle, fun heq => absurd heq (Nat.ne_of_lt (Nat.lt_succ_of_le hle))⟩
  have hround : ∀ c, Ready c root →
      wp (m.verifyDeviceResident (w.options o binding packet) tentative terminal offsets)
        (RoundDone m .eager root terminal)
        (fun _ _ => DeviceAccepts m (w.options o binding packet) tentative terminal offsets → m.Failing) c :=
    fun c hready => heager ▸ wp_verifyDevice hready h.nonempty (hreused c.position)
  simp only [Machine.laneRound, wp_bind, wp_get]
  refine wp_onContext.mpr (wp_whenever (fun _ => ?_) fun _ => ?_)
  · by_cases hprepared : m.prepared = true
    · refine wp_fail (wp_beginAt h.root hprepared h.nonempty fun c₁ hat₁ hfresh => ?_) fun _ _ hbroke _ => hbroke.1
      refine wp_onContext.mpr (wp_imp (hround c₁ (.inr ⟨_, hat₁, hfresh⟩)) fun r c₂ hr => ?_)
      exact ⟨hr, hdone c₂ r hr⟩
    · have hnot : ¬ DeviceAccepts m (w.options o binding packet) tentative terminal offsets :=
        fun haccepts => hprepared (checkDevice_ok haccepts.checked).prepared
      have hbegin : wp m.beginTransaction (fun _ _ => False) (fun _ _ => True) w.context := by
        simp only [Machine.beginTransaction, Machine.require, wp_bind, wp_get]
        exact wp_ofExcept.mpr ⟨fun u hok => absurd (not_not.mp (throwIf_ok.mp hok)).1 hprepared, fun _ _ => trivial⟩
      exact wp_mono hbegin (fun _ _ hf => hf.elim) fun _ _ _ haccepts => absurd haccepts hnot
  refine wp_onContext.mpr (wp_imp (hround w.context (.inl h.root)) fun r c₂ hr => ?_)
  exact ⟨hr, hdone c₂ r hr⟩

/-- What the rounds of a lane committed. -/
def committed (results : List (List Int × OuterResult)) : List Int :=
  results.flatMap fun result => result.2.committedTokens

theorem wp_laneRun {ops : List LaneOp} (h : LaneOk m root w) (heager : ∀ op ∈ ops, op.Eager) :
    wp (m.laneRun ops) (fun results w' => LaneOk m (root ++ committed results) w' ∧
      committed results = extend m.next root (committed results).length ∧
      ∀ terminal r, (terminal, r) ∈ results → 0 < r.committedTokens.length ∧
        (r.stopped = true ↔ ∃ token, r.committedTokens.getLast? = some token ∧ token ∈ terminal))
      (fun _ _ => True) w := by
  induction ops generalizing w root with
  | nil =>
    simp only [Machine.laneRun, wp_pure, committed, flatMap_nil, append_nil]
    exact ⟨h, rfl, fun _ _ hin => nomatch hin⟩
  | cons op ops ih =>
    have heager' : ∀ op ∈ ops, op.Eager := fun op hop => heager op (.tail _ hop)
    cases op with
    | bind acquisition execution policy stream generation self greedy =>
      simp only [Machine.laneRun, wp_bind]
      exact wp_mono (wp_bindSeed h) (fun _ w₁ h₁ => ih h₁ heager') fun _ _ _ => trivial
    | round o binding packet begun tentative terminal offsets =>
      simp only [Machine.laneRun, wp_bind]
      refine wp_mono (wp_laneRound h (heager _ (.head _))) (fun r w₁ hr => ?_) fun _ _ _ => trivial
      obtain ⟨hdone, h₁⟩ := hr
      refine wp_mono (ih h₁ heager') (fun results w₂ hrest => ?_) fun _ _ _ => trivial
      obtain ⟨h₂, hgreedy, hall⟩ := hrest
      have hcons : committed ((terminal, r) :: results) = r.committedTokens ++ committed results := rfl
      simp only [wp_pure]
      rw [hcons]
      refine ⟨append_assoc _ _ _ ▸ h₂, ?_, fun terminal' r' hin => ?_⟩
      · rw [length_append, extend_add, ← hdone.greedy, ← hgreedy]
      · rcases mem_cons.mp hin with heq | hin
        · cases heq
          exact ⟨hdone.some_row, hdone.stopped⟩
        · exact hall terminal' r' hin

/-- Device-resident rounds that are settled at once never change the greedy output. From any root,
    whatever the rounds propose: the tokens they commit are the greedy continuation of the root, at
    least one a round, the context holds the root and them, and a round stopped exactly if the last
    token it committed is terminal. The next round the caller may make returns, if no call throws. -/
theorem rounds_are_greedy (m : Machine) (root : List Int) (c : Context) (revision : Nat) (ops : List LaneOp)
    (results : List (List Int × OuterResult)) (w : Lane) (hroot : At c root none) (hne : root ≠ [])
    (heager : ∀ op ∈ ops, op.Eager) (hrun : m.laneRun ops ⟨c, revision, []⟩ = .ok results w) :
    committed results = extend m.next root (committed results).length ∧
    (∀ terminal r, (terminal, r) ∈ results → 0 < r.committedTokens.length ∧
      (r.stopped = true ↔ ∃ token, r.committedTokens.getLast? = some token ∧ token ∈ terminal)) ∧
    At w.context (root ++ committed results) none ∧
    ∀ (o : DeviceOptions) (binding : Option (Nat × Nat × Nat)) (packet : Option Nat) (begun : Bool)
      (tentative terminal : List Int) (offsets : List Nat), o.settlement = .eager →
      DeviceAccepts m (w.options o binding packet) tentative terminal offsets → (∀ n, m.fails n = none) →
      ∃ r w', m.laneRound o binding packet begun tentative terminal offsets w = .ok r w' := by
  have h : LaneOk m root ⟨c, revision, []⟩ := ⟨hroot, hne, fun p hp => nomatch hp⟩
  obtain ⟨hok, hgreedy, hall⟩ := wp_ok (wp_laneRun h heager) hrun
  refine ⟨hgreedy, hall, hok.root, ?_⟩
  intro o binding packet begun tentative terminal offsets hsettle haccepts hquiet
  cases hround : m.laneRound o binding packet begun tentative terminal offsets w with
  | ok r w' => exact ⟨r, w', rfl⟩
  | error e w' =>
    obtain ⟨n, e', hn⟩ := wp_error (wp_laneRound hok hsettle) hround haccepts
    cases (hquiet n).symm.trans hn

/-- A machine that counts. -/
def countingMachine : Machine where
  next tokens := (tokens.length : Int) % 10
  next_range tokens := by unfold InVocabulary vocabulary; omega
  capacity := 8
  prepared := true
  fails _ := none

/-- A seed that is reused and a sibling that is promoted, then a round accepted as a whole. -/
def countingOps : List LaneOp :=
  [.bind 1 1 1 0 0 1 true,
    .round { self := 1, numericalPolicy := 1 } (some (1, 1, 1)) (some 0) true [1, 5, 2] [] [1],
    .round { self := 1 } none none false [3, 4] [4] []]

theorem rounds_are_greedy_sample :
    ∃ results w, countingMachine.laneRun countingOps
      ⟨{ tokens := [7], head := [7], resident_ok := by simp }, 1, []⟩ = .ok results w ∧
    committed results = [1, 2, 3, 4] ∧ At w.context [7, 1, 2, 3, 4] none := by
  have hcheck : (match countingMachine.laneRun countingOps
      ⟨{ tokens := [7], head := [7], resident_ok := by simp }, 1, []⟩ with
    | .ok results _ => decide (committed results = [1, 2, 3, 4])
    | .error _ _ => false) = true := by decide +kernel
  cases hrun : countingMachine.laneRun countingOps
      ⟨{ tokens := [7], head := [7], resident_ok := by simp }, 1, []⟩ with
  | error e w =>
    rw [hrun] at hcheck
    cases hcheck
  | ok results w =>
    rw [hrun] at hcheck
    have htokens : committed results = [1, 2, 3, 4] := of_decide_eq_true hcheck
    obtain ⟨-, -, hat, -⟩ := rounds_are_greedy countingMachine [7] _ 1 countingOps results w ⟨rfl, rfl, rfl, rfl⟩
      (by decide) (by simp [countingOps, LaneOp.Eager]) hrun
    rw [htokens] at hat
    exact ⟨results, w, rfl, htokens, hat⟩

end VoidInfer.Exl3.Outer
