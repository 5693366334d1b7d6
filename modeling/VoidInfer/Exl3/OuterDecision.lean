import VoidInfer.Exl3.OuterVerify
import VoidInfer.Lib.Continuation

/-
  What the verifiers decide. `IsOutcome` says it without a loop: the committed tokens are the greedy continuation up to
  and including the first token that differs from the proposal or is terminal. `decideLoop` over a path of greedy
  choices under the proposal computes it, and so do the windows one after the other, whatever the choices behind the
  first mismatch are.
-/

namespace VoidInfer.Exl3.Outer
open List

open Continuation

variable {next : List Int → Int} {base tentative terminal : List Int} {d d' : Decision}

/-! ## The outcome -/

/-- What is committed of a proposal after `base`. -/
structure IsOutcome (next : List Int → Int) (base tentative terminal : List Int) (d : Decision) : Prop where
  greedy : d.committedTokens = extend next base d.committedTokens.length
  some_row : 0 < d.committedTokens.length
  in_proposal : d.committedTokens.length ≤ tentative.length
  accepted : d.accepted = d.committedTokens.length - d.rejected.toNat
  before : ∀ i, i + 1 < d.committedTokens.length → d.committedTokens[i]? = tentative[i]? ∧
    ∀ token, d.committedTokens[i]? = some token → token ∉ terminal
  rejected : d.rejected = true ↔
    d.committedTokens[d.committedTokens.length - 1]? ≠ tentative[d.committedTokens.length - 1]?
  stopped : d.stopped = true ↔
    ∃ token, d.committedTokens[d.committedTokens.length - 1]? = some token ∧ token ∈ terminal
  ended : d.committedTokens.length < tentative.length → d.rejected = true ∨ d.stopped = true

/-- The decision, one row after the other. -/
def greedyDecision (next : List Int → Int) (terminal : List Int) : List Int → List Int → Decision
  | _, [] => {}
  | base, proposal :: tentative =>
    let authorized := next base
    if proposal ≠ authorized ∨ authorized ∈ terminal then
      { committedTokens := [authorized]
        accepted := if proposal = authorized then 1 else 0
        rejected := decide (proposal ≠ authorized)
        stopped := decide (authorized ∈ terminal) }
    else
      let d := greedyDecision next terminal (base ++ [authorized]) tentative
      { d with committedTokens := authorized :: d.committedTokens, accepted := d.accepted + 1 }

theorem end_or_go (next : List Int → Int) (base terminal : List Int) (t : Int) :
    (t ≠ next base ∨ next base ∈ terminal) ∨ t = next base ∧ next base ∉ terminal := by
  by_cases ht : t = next base
  · by_cases hstop : next base ∈ terminal
    · exact .inl (.inr hstop)
    · exact .inr ⟨ht, hstop⟩
  · exact .inl (.inl ht)

variable {t : Int} {ts rest window : List Int}

theorem greedyDecision_end (h : t ≠ next base ∨ next base ∈ terminal) :
    greedyDecision next terminal base (t :: ts) =
      { committedTokens := [next base], accepted := if t = next base then 1 else 0
        rejected := decide (t ≠ next base), stopped := decide (next base ∈ terminal) } := by
  exact if_pos h

theorem greedyDecision_go (ht : t = next base) (hstop : next base ∉ terminal) :
    greedyDecision next terminal base (t :: ts) =
      { greedyDecision next terminal (base ++ [next base]) ts with
        committedTokens :=
          next base :: (greedyDecision next terminal (base ++ [next base]) ts).committedTokens
        accepted := (greedyDecision next terminal (base ++ [next base]) ts).accepted + 1 } := by
  exact if_neg (by simp [ht, hstop])

/-- The greedy choices under the proposal: the path of a block forward. -/
def proposalPath (next : List Int → Int) : List Int → List Int → List Int
  | _, [] => []
  | base, proposal :: tentative => next base :: proposalPath next (base ++ [proposal]) tentative

@[simp] theorem length_proposalPath : (proposalPath next base tentative).length = tentative.length := by
  induction tentative generalizing base with
  | nil => rfl
  | cons t ts ih => rw [proposalPath, length_cons, ih, length_cons]

theorem proposalPath_getElem? {i : Nat} (hi : i < tentative.length) :
    (proposalPath next base tentative)[i]? = some (next (base ++ tentative.take i)) := by
  induction tentative generalizing base i with
  | nil => simp at hi
  | cons t ts ih =>
    cases i with
    | zero => simp [proposalPath]
    | succ i =>
      rw [proposalPath, getElem?_cons_succ, ih (by simpa using hi)]
      simp

theorem decideLoop_eq (hrejected : d.rejected = false) (hstopped : d.stopped = false) :
    decideLoop terminal (proposalPath next base tentative) tentative d =
      { committedTokens :=
          d.committedTokens ++ (greedyDecision next terminal base tentative).committedTokens
        accepted := d.accepted + (greedyDecision next terminal base tentative).accepted
        rejected := (greedyDecision next terminal base tentative).rejected
        stopped := (greedyDecision next terminal base tentative).stopped } := by
  induction tentative generalizing base d with
  | nil =>
    simp only [proposalPath, decideLoop, greedyDecision, append_nil, Nat.add_zero]
    cases d
    simp_all
  | cons t ts ih =>
    rcases end_or_go next base terminal t with hend | ⟨rfl, hstop⟩
    · simp only [proposalPath, decideLoop, greedyDecision_end hend]
      rw [if_pos (by rcases hend with ht | hstop <;> simp [*])]
      by_cases ht : t = next base
      · simp [ht, hrejected]
      · simp [ht]
    simp only [proposalPath, decideLoop, greedyDecision_go rfl hstop]
    rw [if_neg (by simp [hstop, hrejected]), ih (by simp [hrejected]) (by simp [hstop])]
    simp [Nat.add_assoc, Nat.add_comm]

theorem decideOuterPrefix_eq (hne : tentative ≠ []) :
    decideOuterPrefix (proposalPath next base tentative) tentative terminal =
      .ok (greedyDecision next terminal base tentative) := by
  have hpath : ¬ (proposalPath next base tentative = [] ∨
      (proposalPath next base tentative).length ≠ tentative.length) := by
    rintro (hnil | hlen)
    · have := congrArg List.length hnil
      rw [length_proposalPath] at this
      exact hne (length_eq_zero_iff.mp this)
    · exact hlen length_proposalPath
  have hloop : decideLoop terminal (proposalPath next base tentative) tentative {} = _ :=
    decideLoop_eq rfl rfl
  have hcheck : throwIf (proposalPath next base tentative = [] ∨
      (proposalPath next base tentative).length ≠ tentative.length)
      (.invalidArgument "outer decision extent") = .ok () := throwIf_ok.mpr hpath
  simp only [decideOuterPrefix, hcheck, hloop, nil_append, Nat.zero_add]
  rfl

/-! ## The decision is the outcome -/

theorem getElem?_cons_last {l : List Int} {a : Int} (h : 0 < l.length) :
    (a :: l)[(a :: l).length - 1]? = l[l.length - 1]? := by
  obtain ⟨n, hn⟩ : ∃ n, l.length = n + 1 := ⟨l.length - 1, by omega⟩
  simp [hn]

theorem IsOutcome.cons (h : IsOutcome next (base ++ [next base]) ts terminal d) (hstop : next base ∉ terminal) :
    IsOutcome next base (next base :: ts) terminal
      { d with committedTokens := next base :: d.committedTokens, accepted := d.accepted + 1 } := by
  have hpos := h.some_row
  have hlast := getElem?_cons_last (a := next base) hpos
  have hlast' : (next base :: ts)[(next base :: d.committedTokens).length - 1]? =
      ts[d.committedTokens.length - 1]? := by
    obtain ⟨n, hn⟩ : ∃ n, d.committedTokens.length = n + 1 := ⟨_, (Nat.succ_pred_eq_of_pos hpos).symm⟩
    simp [hn]
  refine ⟨?_, by simp, by simpa using h.in_proposal, ?_, fun i hi => ?_, ?_, ?_, fun hlt => ?_⟩
  · exact congrArg _ h.greedy
  · have hacc := h.accepted
    have hle : d.rejected.toNat ≤ 1 := Bool.toNat_le _
    simp only [length_cons]
    omega
  · cases i with
    | zero => exact ⟨rfl, fun token htoken => Option.some.inj htoken ▸ hstop⟩
    | succ i => exact h.before i (by simpa using hi)
  · rw [hlast, hlast']
    exact h.rejected
  · rw [hlast]
    exact h.stopped
  · exact h.ended (by simpa using hlt)

theorem IsOutcome.single (hend : ts = [] ∨ t ≠ next base ∨ next base ∈ terminal) :
    IsOutcome next base (t :: ts) terminal
      { committedTokens := [next base], accepted := if t = next base then 1 else 0
        rejected := decide (t ≠ next base), stopped := decide (next base ∈ terminal) } := by
  refine ⟨rfl, by simp, by simp, ?_, fun i hi => absurd hi (by simp), ?_, ?_, fun hlt => ?_⟩
  · by_cases ht : t = next base
    · simp [ht]
    · simp [ht]
  · simp only [decide_eq_true_eq, length_singleton, Nat.sub_self, getElem?_cons_zero, ne_eq, Option.some.injEq]
    exact not_congr eq_comm
  · simp
  · rcases hend with rfl | ht | hstop
    · simp at hlt
    · exact .inl (by simpa using ht)
    · exact .inr (by simpa using hstop)

theorem greedyDecision_isOutcome (hne : tentative ≠ []) :
    IsOutcome next base tentative terminal (greedyDecision next terminal base tentative) := by
  induction tentative generalizing base with
  | nil => exact absurd rfl hne
  | cons t ts ih =>
    rcases end_or_go next base terminal t with hend | ⟨rfl, hstop⟩
    · rw [greedyDecision_end hend]
      exact .single (.inr hend)
    rw [greedyDecision_go rfl hstop]
    by_cases hts : ts = []
    · subst hts
      have hsingle : IsOutcome next base [next base] terminal _ := .single (.inl rfl)
      simpa [greedyDecision, hstop] using hsingle
    · exact (ih hts).cons hstop

section
variable (h : IsOutcome next base tentative terminal d)
include h

theorem IsOutcome.unique (h' : IsOutcome next base tentative terminal d') : d = d' := by
  -- the longer one would go on behind a row that ends the shorter one
  have hle : ∀ {x y : Decision}, IsOutcome next base tentative terminal x → IsOutcome next base tentative terminal y →
      x.committedTokens.length ≤ y.committedTokens.length := by
    intro x y hx hy
    by_contra hlt
    have hlt : y.committedTokens.length < x.committedTokens.length := Nat.lt_of_not_le hlt
    have hpos := hy.some_row
    have hsame : x.committedTokens[y.committedTokens.length - 1]? =
        y.committedTokens[y.committedTokens.length - 1]? := by
      rw [hx.greedy, hy.greedy]
      obtain ⟨r, hr⟩ := extend_prefix next base (Nat.le_of_lt hlt)
      rw [← hr, getElem?_append_left (by simp; omega)]
    obtain ⟨heq, hnot⟩ := hx.before (y.committedTokens.length - 1) (by omega)
    have hin := hx.in_proposal
    rcases hy.ended (by omega) with hr | hs
    · exact hy.rejected.mp hr (hsame.symm.trans heq)
    obtain ⟨token, htoken, hterm⟩ := hy.stopped.mp hs
    exact hnot token (hsame.trans htoken) hterm
  have hlen := Nat.le_antisymm (hle h h') (hle h' h)
  have htokens : d.committedTokens = d'.committedTokens := by
    rw [h.greedy, h'.greedy, hlen]
  have hrejected : d.rejected = d'.rejected := by
    rw [Bool.eq_iff_iff, h.rejected, h'.rejected, htokens]
  have hstopped : d.stopped = d'.stopped := by
    rw [Bool.eq_iff_iff, h.stopped, h'.stopped, htokens]
  have haccepted : d.accepted = d'.accepted := by
    rw [h.accepted, h'.accepted, htokens, hrejected]
  cases d
  simp_all

theorem IsOutcome.take_eq {n : Nat}
    (hn : n + 1 ≤ d.committedTokens.length) : d.committedTokens.take n = tentative.take n := by
  apply ext_getElem?
  intro i
  by_cases hi : i < n
  · rw [getElem?_take_of_lt hi, getElem?_take_of_lt hi]
    exact (h.before i (by omega)).1
  · rw [getElem?_eq_none (by simp; omega), getElem?_eq_none (by simp; omega)]

theorem IsOutcome.eq_take_append :
    d.committedTokens = tentative.take (d.committedTokens.length - 1) ++ [d.committedTokens.getLast?.getD (-1)] := by
  have hpos := h.some_row
  have htake := h.take_eq (n := d.committedTokens.length - 1) (by omega)
  have hne : d.committedTokens ≠ [] := length_pos_iff.mp hpos
  rw [← htake, getLast?_eq_some_getLast hne, Option.getD_some, ← dropLast_eq_take, dropLast_append_getLast hne]

theorem IsOutcome.eq_take (hrejected : d.rejected = false) :
    d.committedTokens = tentative.take d.committedTokens.length := by
  have hlast : d.committedTokens[d.committedTokens.length - 1]? = tentative[d.committedTokens.length - 1]? := by
    by_contra hne
    cases hrejected.symm.trans (h.rejected.mpr hne)
  apply ext_getElem?
  intro i
  by_cases hi : i + 1 < d.committedTokens.length
  · rw [getElem?_take_of_lt (by omega)]
    exact (h.before i hi).1
  by_cases heq : i + 1 = d.committedTokens.length
  · rw [getElem?_take_of_lt (by omega), show i = d.committedTokens.length - 1 by omega]
    exact hlast
  · rw [getElem?_eq_none (by omega), getElem?_eq_none (by simp; omega)]

theorem IsOutcome.vocabulary
    (hrange : ∀ tokens, InVocabulary (next tokens)) : ∀ token ∈ d.committedTokens, InVocabulary token := by
  have hextend : ∀ n l, ∀ token ∈ extend next l n, InVocabulary token := by
    intro n
    induction n with
    | zero => simp [extend]
    | succ n ih =>
      intro l token hin
      rcases mem_cons.mp hin with rfl | hin
      · exact hrange l
      · exact ih _ token hin
  rw [h.greedy]
  exact hextend _ _

end

/-! ## Windows -/

theorem greedyDecision_whole (hrejected : (greedyDecision next terminal base tentative).rejected = false)
    (hlen : (greedyDecision next terminal base tentative).committedTokens.length = tentative.length) :
    (greedyDecision next terminal base tentative).committedTokens = tentative ∧
      (greedyDecision next terminal base tentative).accepted = tentative.length := by
  induction tentative generalizing base with
  | nil => exact ⟨rfl, rfl⟩
  | cons t ts ih =>
    rcases end_or_go next base terminal t with hend | ⟨rfl, hstop⟩
    · rw [greedyDecision_end hend] at hrejected hlen ⊢
      have ht : t = next base := by simpa using hrejected
      have hts : ts = [] := by
        simpa using hlen.symm
      simp [ht, hts]
    rw [greedyDecision_go rfl hstop] at hrejected hlen ⊢
    obtain ⟨htokens, haccepted⟩ := ih hrejected (by simpa using hlen)
    simp [htokens, haccepted]

theorem greedyDecision_append (hrejected : (greedyDecision next terminal base window).rejected = false)
    (hstopped : (greedyDecision next terminal base window).stopped = false) :
    greedyDecision next terminal base (window ++ rest) =
      { greedyDecision next terminal (base ++ window) rest with
        committedTokens :=
          window ++ (greedyDecision next terminal (base ++ window) rest).committedTokens
        accepted := window.length + (greedyDecision next terminal (base ++ window) rest).accepted } := by
  induction window generalizing base with
  | nil => simp
  | cons t ts ih =>
    rcases end_or_go next base terminal t with hend | ⟨rfl, hstop⟩
    · rw [greedyDecision_end hend] at hrejected hstopped
      rcases hend with ht | hstop
      · simp [ht] at hrejected
      · simp [hstop] at hstopped
    rw [greedyDecision_go rfl hstop] at hrejected hstopped
    rw [cons_append, greedyDecision_go rfl hstop, ih hrejected hstopped]
    simp [Nat.add_right_comm]

theorem greedyDecision_append_end
    (hend : (greedyDecision next terminal base window).rejected = true ∨
      (greedyDecision next terminal base window).stopped = true) :
    greedyDecision next terminal base (window ++ rest) = greedyDecision next terminal base window := by
  induction window generalizing base with
  | nil => simp [greedyDecision] at hend
  | cons t ts ih =>
    rcases end_or_go next base terminal t with hend | ⟨rfl, hstop⟩
    · rw [cons_append, greedyDecision_end hend, greedyDecision_end hend]
    rw [greedyDecision_go rfl hstop] at hend ⊢
    rw [cons_append, greedyDecision_go rfl hstop, ih hend]

end VoidInfer.Exl3.Outer
