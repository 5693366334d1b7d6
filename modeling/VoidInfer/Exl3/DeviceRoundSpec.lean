import VoidInfer.Exl3.DeviceRound
import VoidInfer.Exl3.OuterRun

/-
  Blocks with siblings. A row of the chain has the chain before it as ancestors, a sibling the chain before its offset;
  so the choice after a sibling that equals the correction is the greedy choice after the committed tokens, and the
  sibling's row in place of the chain's makes the rows those of the committed tokens.
-/

namespace VoidInfer.Exl3.Outer
open List

open Throwing Continuation

variable {m : Machine} {c c' : Context} {base chain terminal l : List Int} {siblings : List (Nat × Int)}
  {tx : Option Snapshot} {saved : Snapshot} {d : Decision} {promoted : Option Nat}

/-- The calls that throw do so because the machine says so. -/
def Broke (m : Machine) : Exn → Context → Prop := Threw m fun _ => True

/-- The context holds the rows of these tokens, and the logits after them. -/
structure At (c : Context) (l : List Int) (tx : Option Snapshot) : Prop where
  tokens : c.tokens = l
  head : c.head = l
  transaction : c.transaction = tx
  torn : c.torn = false

theorem Settled.at (h : Settled c l tx) : At c l tx := ⟨h.tokens, h.head, h.transaction, h.torn⟩

theorem At.same (h : At c l tx) (hc : Same c c') : At c' l tx := by
  obtain ⟨n, rfl⟩ := hc
  exact ⟨h.tokens, h.head, h.transaction, h.torn⟩

/-! ## Calls at a root -/

theorem wp_greedyAt {Q : Int → Context → Prop} (h : At c l tx)
    (hQ : ∀ c', Same c c' → Q (m.next l) c') : wp m.branchGreedy Q (Broke m) c := by
  simp only [Machine.branchGreedy, wp_bind]
  refine wp_read trivial fun c' hc => ?_
  simp only [wp_get, wp_pure]
  rw [(h.same hc).head]
  exact hQ c' hc

variable {Q : Unit → Context → Prop}

theorem wp_beginAt (h : At c l none) (hprepared : m.prepared = true) (hne : l ≠ [])
    (hQ : ∀ c', At c' l (some ⟨l, l, c.tapRows⟩) → c'.fresh = true → Q () c') :
    wp m.beginTransaction Q (Broke m) c := by
  simp only [Machine.beginTransaction, wp_bind]
  refine wp_requireTrue ⟨hprepared, h.transaction⟩ (wp_requireTrue (by rw [h.tokens]; exact hne) ?_)
  refine wp_attemptIntact trivial (hQ _ ⟨h.tokens, h.head, ?_, h.torn⟩ rfl)
  show some _ = some _
  rw [h.tokens, h.head]

theorem wp_commitAt (h : At c l tx) (htx : tx ≠ none)
    (hQ : ∀ c', At c' l none → c'.rows = c.rows → c'.tapRows = c.tapRows → Q () c') :
    wp m.commitTransaction Q (Broke m) c := by
  refine wp_commit (by rw [h.transaction]; exact htx) trivial fun c' ht hh _ hr htap htorn hnone => hQ c' ?_ hr htap
  exact ⟨ht.trans h.tokens, hh.trans h.head, hnone, htorn.trans h.torn⟩

theorem wp_finishAt (h : At c l none) (hrows : c.rows ≠ []) (htap : c.tapRows = c.rows.length)
    (hQ : ∀ c', At c' l none → Q () c') : wp m.finishExactContinuation Q (Broke m) c := by
  simp only [Machine.finishExactContinuation, wp_bind]
  refine wp_requireTrue ⟨h.transaction, hrows, htap⟩ (wp_attempt trivial (hQ _ ?_))
  exact ⟨h.tokens, h.head, h.transaction, h.torn⟩

/-! ## A block with siblings -/

/-- The block was run after `base`, just after its transaction began. -/
structure Tree (c : Context) (b chain : List Int) (siblings : List (Nat × Int)) (tx : Option Snapshot) :
    Prop where
  base : c.base = b
  rows : c.rows = Machine.layoutRows chain siblings
  transaction : c.transaction = tx
  torn : c.torn = false
  available : c.prefixAvailable = true
  whole : siblings = [] → At c (b ++ chain) tx ∧ c.tapRows = chain.length

theorem Tree.same (h : Tree c base chain siblings tx) (hc : Same c c') : Tree c' base chain siblings tx := by
  obtain ⟨n, rfl⟩ := hc
  refine ⟨h.base, h.rows, h.transaction, h.torn, h.available, fun hnil => ?_⟩
  obtain ⟨hat, htap⟩ := h.whole hnil
  exact ⟨hat.same ⟨n, rfl⟩, htap⟩

theorem Tree.block (h : Tree c base chain [] tx) : Block c base chain tx := by
  obtain ⟨hat, htap⟩ := h.whole rfl
  exact ⟨h.base, h.rows, hat.tokens, hat.head, h.transaction, h.torn, htap⟩

theorem length_layout : (Machine.layoutRows chain siblings).length = chain.length + siblings.length := by
  simp [Machine.layoutRows]

theorem layout_chain {i : Nat} (hi : i < chain.length) :
    (Machine.layoutRows chain siblings)[i]? = chain[i]?.map fun token => ⟨chain.take i, token⟩ := by
  unfold Machine.layoutRows
  rw [getElem?_append_left (by simpa using hi), getElem?_mapIdx]

theorem layout_sibling (j : Nat) :
    (Machine.layoutRows chain siblings)[chain.length + j]? =
      siblings[j]?.map fun sibling => ⟨chain.take sibling.1, sibling.2⟩ := by
  unfold Machine.layoutRows
  rw [getElem?_append_right (by simp), getElem?_map]
  simp

theorem layout_take {n : Nat} (hn : n ≤ chain.length) :
    (Machine.layoutRows chain siblings).take n = Machine.layoutRows (chain.take n) [] := by
  rw [← layoutRows_take]
  unfold Machine.layoutRows
  rw [take_append_of_le_length (by simpa using hn)]
  simp

theorem layout_path {i : Nat} (hi : i < chain.length) :
    ((Machine.layoutRows chain siblings)[i]?.elim [] Row.path) = chain.take (i + 1) := by
  rw [layout_chain hi, getElem?_eq_getElem hi]
  exact take_append_getElem hi

theorem wp_continueTree {tentative : List Int} {offsets : List Nat}
    (h : At c base (some saved)) (hne : base ≠ []) (hfresh : c.fresh = true)
    (hlen : 2 ≤ tentative.length ∧ tentative.length ≤ 8 ∧ tentative.length ≤ m.capacity)
    (hvocab : ∀ token ∈ tentative, InVocabulary token) (hlayout : offsets.length + 2 ≤ tentative.length)
    (hoffsets : ∀ offset ∈ offsets, 1 ≤ offset ∧ offset < tentative.length - offsets.length)
    (hQ : ∀ c', Tree c' base (tentative.take (tentative.length - offsets.length))
      (offsets.zip (tentative.drop (tentative.length - offsets.length))) (some saved) → Q () c') :
    wp (m.continueRows tentative offsets) Q (Broke m) c := by
  simp only [Machine.continueRows, wp_bind]
  refine wp_requireTrue (by rw [h.tokens]; exact hne) (wp_requireTrue ⟨hlen.1, hlen.2.2⟩
    (wp_requireTrue hvocab (wp_requireTrue (.inr ⟨by omega, by omega⟩) ?_)))
  refine wp_ofExcept.mpr ⟨fun _ _ => ?_, fun e he => ?_⟩
  · refine wp_attempt trivial (hQ _ ⟨h.tokens, rfl, h.transaction, h.torn, ?_, fun hnil => ?_⟩)
    · rw [h.transaction, hfresh]
      rfl
    · have hoff : offsets = [] := by
        have hzip := congrArg List.length hnil
        rw [length_zip, length_drop] at hzip
        rw [← length_eq_zero_iff]
        simp only [length_nil] at hzip
        omega
      subst hoff
      have hpath : ((Machine.layoutRows tentative []).getLast?.elim [] Row.path) = tentative := by
        rw [getLast?_eq_getElem?, length_layoutRows, layoutRows_path (by omega)]
        exact take_of_length_le (by omega)
      simp only [length_nil, Nat.sub_zero, take_length]
      refine ⟨⟨?_, ?_, h.transaction, h.torn⟩, rfl⟩
      · show c.tokens ++ tentative = _
        rw [h.tokens]
      · show c.tokens ++ _ = _
        simp only [zip_nil_left, hpath, h.tokens]
  rw [throwIf_neg (not_not.mpr hoffsets)] at he
  cases he

/-! ## The decision -/

theorem siblingAt_some {depth row r : Nat} {token : Int} (h : siblingAt depth token siblings row = some r) :
    ∃ j, r = row + j ∧ siblings[j]? = some (depth, token) := by
  induction siblings generalizing row with
  | nil => simp [siblingAt] at h
  | cons sibling siblings ih =>
    unfold siblingAt at h
    split at h
    · rename_i heq
      cases h
      exact ⟨0, rfl, by simp [heq]⟩
    obtain ⟨j, rfl, hj⟩ := ih h
    exact ⟨j + 1, by omega, by simpa using hj⟩

/-- What a round decides: the decision on the chain, or one token more through a sibling that is the correction. -/
inductive Decided (m : Machine) (base chain : List Int) (siblings : List (Nat × Int)) (terminal : List Int) :
    Decision → Option Nat → Prop
  | chain : Decided m base chain siblings terminal (greedyDecision m.next terminal base chain) none
  | sibling (j : Nat) (d : Decision) (hd : d = greedyDecision m.next terminal base chain)
      (hrejected : d.rejected = true)
      (hsibling : siblings[j]? = some (d.accepted, d.committedTokens.getLast?.getD (-1))) :
      Decided m base chain siblings terminal
        { d with
          committedTokens := d.committedTokens ++ [m.next (base ++ d.committedTokens)]
          accepted := d.accepted + 1
          stopped := decide (m.next (base ++ d.committedTokens) ∈ terminal) }
        (some (chain.length + j))

theorem rejected_tokens (hne : chain ≠ []) (hd : d = greedyDecision m.next terminal base chain)
    (hrejected : d.rejected = true) :
    d.accepted + 1 = d.committedTokens.length ∧ d.accepted < chain.length ∧
      d.committedTokens = chain.take d.accepted ++ [d.committedTokens.getLast?.getD (-1)] := by
  have houtcome : IsOutcome m.next base chain terminal d := hd ▸ greedyDecision_isOutcome hne
  have hacc := houtcome.accepted
  have hpos := houtcome.some_row
  have hin := houtcome.in_proposal
  rw [hrejected, Bool.toNat_true] at hacc
  refine ⟨by omega, by omega, ?_⟩
  rw [hacc]
  exact houtcome.eq_take_append

/-- The choices after the rows of a block. -/
def Machine.choices (m : Machine) (base chain : List Int) (siblings : List (Nat × Int)) : List Int :=
  (Machine.layoutRows chain siblings).map fun row => m.next (base ++ row.path)

theorem choices_path (hne : chain ≠ []) :
    m.next base :: (m.choices base chain siblings).take (chain.length - 1) = proposalPath m.next base chain := by
  have hpos := length_pos_iff.mpr hne
  apply ext_getElem?
  intro i
  by_cases hi : i < chain.length
  · rw [proposalPath_getElem? hi]
    cases i with
    | zero => simp
    | succ i =>
      have hi' : i < chain.length := by omega
      rw [getElem?_cons_succ, getElem?_take_of_lt (by omega), Machine.choices, getElem?_map,
        layout_chain hi', getElem?_eq_getElem hi']
      simp [Row.path]
  · rw [getElem?_eq_none (by simp; omega), getElem?_eq_none (by simp; omega)]

theorem siblingDecision_decided (m : Machine) (base terminal : List Int) (siblings : List (Nat × Int))
    (hne : chain ≠ []) :
    ∃ d promoted, siblingDecision (m.next base) chain terminal siblings (m.choices base chain siblings) =
      .ok (d, promoted) ∧ Decided m base chain siblings terminal d promoted := by
  have hdecide : decideOuterPrefix (proposalPath m.next base chain) chain terminal = _ :=
    decideOuterPrefix_eq hne
  have hpath : m.next base :: (m.choices base chain siblings).take (chain.length - 1) = _ := choices_path hne
  rw [← hpath] at hdecide
  unfold siblingDecision
  rw [hdecide]
  generalize hd : greedyDecision m.next terminal base chain = d
  simp only [bind, Except.bind]
  cases hp : (if (d.rejected && !d.stopped) = true then
      siblingAt d.accepted _ siblings chain.length else none) with
  | none => exact ⟨d, none, rfl, hd ▸ .chain⟩
  | some row =>
    split at hp
    · rename_i hif
      have hrejected : d.rejected = true := (Bool.and_eq_true_iff.mp hif).1
      obtain ⟨j, rfl, hj⟩ := siblingAt_some hp
      obtain ⟨-, -, htokens⟩ := rejected_tokens hne hd.symm hrejected
      -- the sibling's ancestors and itself are the committed tokens
      have hnext : (m.choices base chain siblings)[chain.length + j]?.getD (-1) =
          m.next (base ++ d.committedTokens) := by
        rw [Machine.choices, getElem?_map, layout_sibling, hj, htokens]
        simp [Row.path]
      exact ⟨_, _, rfl, hnext ▸ .sibling j d hd.symm hrejected hj⟩
    · cases hp

theorem wp_deviceDecision {Q : Decision × Option Nat × Int → Context → Prop} {tentative : List Int}
    {offsets : List Nat} (hchain : chain = tentative.take (tentative.length - offsets.length))
    (hsiblings : siblings = offsets.zip (tentative.drop (tentative.length - offsets.length)))
    (h : Tree c base chain siblings tx) (hne : chain ≠ [])
    (hQ : ∀ d promoted bonus c', Same c c' → Decided m base chain siblings terminal d promoted →
      (offsets = [] → InVocabulary bonus) → Q (d, promoted, bonus) c') :
    wp (m.deviceDecision (m.next base) tentative terminal offsets) Q (Broke m) c := by
  unfold Machine.deviceDecision
  split
  · rename_i hnil
    obtain rfl : chain = tentative := by rw [hchain, hnil]; simp
    obtain rfl : siblings = [] := by rw [hsiblings, hnil]; rfl
    simp only [wp_bind]
    refine wp_outerGreedyPath h.block hne trivial fun c' hc => ?_
    refine wp_ofExceptOk (decideOuterPrefix_eq hne) ?_
    exact hQ _ _ _ c' hc .chain fun _ => m.next_range _
  rename_i hsome
  obtain ⟨d, promoted, hdecision, hdecided⟩ :=
    siblingDecision_decided m base terminal siblings hne
  simp only [Machine.continuationGreedy, wp_bind]
  refine wp_read trivial fun c' hc => ?_
  have h' := h.same hc
  simp only [wp_get, wp_pure]
  rw [← hchain, ← hsiblings, h'.base, h'.rows]
  refine wp_ofExceptOk hdecision ?_
  exact hQ d promoted (-1) c' hc hdecided fun hnil => absurd hnil hsome

end VoidInfer.Exl3.Outer
