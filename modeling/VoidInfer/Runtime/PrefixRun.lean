import VoidInfer.Runtime.PrefixDigests
import Mathlib.Data.List.GetD

/-
  A token list, its identity and its digests, changed in step. The abstract history of the calls is the prompt that a
  from-scratch construction would be given; after every run the three objects are those of that prompt.
-/

namespace VoidInfer.Runtime
open List ResidentPrefixIdentity

open ResidentPrefixIdentity (Content)

/-! ## The calls -/

/-- A call applied to the token list, the identity and the digests. -/
inductive PrefixCall where
  | assign (prompt : PreparedPromptData)
  | appendGenerated (tokens : List TokenId) (ropeDelta : Int)
  | truncate (tokens : Nat)

structure Resident where
  tokens : List TokenId
  identity : ResidentPrefixIdentity
  digests : PrefixShortlistDigests

namespace Resident

def empty : Resident := ⟨[], ResidentPrefixIdentity.empty, Vec.empty⟩

/-- The object of a call that did not throw. -/
def returned {σ : Type} (call : Logged σ × Except Exn Unit) : Except Exn σ :=
  match call with
  | (s, .ok ()) => .ok s.1
  | (_, .error e) => .error e

/-- One call on all three. -/
def perform (grants : Grants) (resident : Resident) : PrefixCall → Except Exn Resident
  | .assign prompt => do
    let identity ← resident.identity.assign prompt
    let digests ← resident.digests.assign prompt
    .ok ⟨prompt.tokenIds, identity, digests⟩
  | .appendGenerated tokens ropeDelta => do
    let identity ← returned (ResidentPrefixIdentity.appendGenerated grants tokens.length ropeDelta
      (resident.identity, []))
    let digests ← returned (PrefixShortlistDigests.appendGenerated grants tokens ropeDelta (resident.digests, []))
    .ok ⟨resident.tokens ++ tokens, identity, digests⟩
  | .truncate tokens => do
    let identity ← resident.identity.truncate tokens
    let digests ← resident.digests.truncate tokens
    .ok ⟨resident.tokens.take tokens, identity, digests⟩

/-- A run of calls, none of which throws. -/
def performAll (grants : Grants) (calls : List PrefixCall) : Except Exn Resident :=
  calls.foldlM (perform grants) empty

end Resident

/-! ## What the calls say -/

/-- The tokens with all that identifies them. -/
structure History where
  tokens : List TokenId
  content : Content

namespace History

def empty : History := ⟨[], ⟨[], fun _ => [], [], []⟩⟩

/-- What a call makes of it: generated tokens are text at their index plus the delta, and end no rewrite. -/
def after (history : History) : PrefixCall → History
  | .assign prompt =>
    ⟨prompt.tokenIds, ⟨prompt.tokenTypes, prompt.axis, prompt.visionItems, prompt.rewriteExecutionFrontiers⟩⟩
  | .appendGenerated tokens ropeDelta =>
    ⟨history.tokens ++ tokens, ⟨history.content.tokenTypes ++ List.replicate tokens.length 0,
        fun axis => history.content.positions axis ++ (List.range tokens.length).map fun offset =>
          ((history.tokens.length + offset : Nat) : Int) + ropeDelta,
        history.content.visionItems, history.content.rewriteExecutionFrontiers⟩⟩
  | .truncate tokens =>
    ⟨history.tokens.take tokens,
      ⟨history.content.tokenTypes.take tokens, fun axis => (history.content.positions axis).take tokens,
        history.content.visionItems.take ((prefixItemCount tokens history.content.visionItems 0 false).getD 0),
        frontiersUpTo history.content.rewriteExecutionFrontiers tokens⟩⟩

def ofCalls (calls : List PrefixCall) : History := calls.foldl after empty

/-- The prompt with these tokens, types, positions, items and rewrite frontiers. -/
def prompt (history : History) : PreparedPromptData where
  tokenIds := history.tokens
  tokenTypes := history.content.tokenTypes
  positions := history.content.positions 0 ++ history.content.positions 1 ++ history.content.positions 2
  visionItems := history.content.visionItems
  rewriteExecutionFrontiers := history.content.rewriteExecutionFrontiers

def inputs (history : History) : List DigestInput :=
  (List.range history.tokens.length).map fun index =>
    ⟨history.tokens.getD index 0, history.content.tokenTypes.getD index 0,
      fun axis => (history.content.positions axis).getD index 0⟩

@[simp] theorem length_inputs (history : History) : history.inputs.length = history.tokens.length := by
  simp [inputs]

/-- One entry per token, and ordered rewrite frontiers within them. -/
structure Shaped (history : History) : Prop where
  types : history.content.tokenTypes.length = history.tokens.length
  positions : ∀ axis, (history.content.positions axis).length = history.tokens.length
  sorted : history.content.rewriteExecutionFrontiers.Pairwise (· < ·)
  within : ∀ i ∈ history.content.rewriteExecutionFrontiers, 0 < i ∧ i ≤ history.tokens.length
  extent : history.tokens.length < sizeMax

end History

theorem mem_frontiersUpTo {frontiers : List Nat} (hsorted : frontiers.Pairwise (· < ·)) (i count : Nat) :
    i ∈ frontiersUpTo frontiers count ↔ i ∈ frontiers ∧ i ≤ count := by
  unfold frontiersUpTo
  induction frontiers with
  | nil => simp
  | cons frontier rest ih =>
    obtain ⟨hhead, htail⟩ := pairwise_cons.mp hsorted
    rw [takeWhile_cons]
    split
    · next hle =>
      have hle := of_decide_eq_true hle
      rw [mem_cons, ih htail, mem_cons]
      constructor
      · intro h
        rcases h with rfl | ⟨hmem, hi⟩
        · exact ⟨.inl rfl, hle⟩
        · exact ⟨.inr hmem, hi⟩
      · intro ⟨h, hi⟩
        exact h.imp id fun hmem => ⟨hmem, hi⟩
    next hgt =>
    refine ⟨fun h => by simp at h, fun ⟨h, hi⟩ => ?_⟩
    have hgt : ¬ frontier ≤ count := fun hle => hgt (decide_eq_true hle)
    rcases mem_cons.mp h with rfl | hmem
    · exact absurd hi hgt
    have := hhead i hmem
    omega

/-! ## The prompt of a history -/

namespace History

variable {history : History}

theorem prompt_axis (hshaped : history.Shaped) (axis : Fin 3) :
    history.prompt.axis axis = history.content.positions axis := by
  have h0 := hshaped.positions 0
  have h1 := hshaped.positions 1
  have h2 := hshaped.positions 2
  unfold PreparedPromptData.axis prompt
  match axis with
  | 0 =>
    rw [show (0 : Fin 3).val * history.tokens.length = 0 by simp, drop_zero, append_assoc, take_left' h0]
  | 1 =>
    rw [show (1 : Fin 3).val * history.tokens.length = history.tokens.length by simp, append_assoc,
      drop_left' h0, take_left' h1]
  | 2 =>
    rw [show (2 : Fin 3).val * history.tokens.length = history.tokens.length + history.tokens.length by
        omega,
      drop_left' (by rw [length_append, h0, h1]), take_of_length_le (Nat.le_of_eq h2)]

theorem inputs_of_prompt {prompt : PreparedPromptData} :
    prompt.inputs = (History.empty.after (.assign prompt)).inputs := by
  refine map_congr_left fun index hindex => ?_
  have hlt := mem_range.mp hindex
  congr 1
  funext axis
  simp only [after, PreparedPromptData.axis, getD_eq_getElem?_getD]
  rw [getElem?_take, if_pos hlt, getElem?_drop]

section
variable (hshaped : history.Shaped)
include hshaped

theorem after_assign_prompt (other : History) : other.after (.assign history.prompt) = history := by
  have haxes : history.prompt.axis = history.content.positions := funext (prompt_axis hshaped)
  change History.mk history.tokens ⟨history.content.tokenTypes, history.prompt.axis, _, _⟩ = history
  rw [haxes]
  rfl

theorem assignable : PrefixShortlistDigests.Assignable history.prompt where
  types := hshaped.types
  positions := by
    simp only [prompt, length_append, hshaped.positions]
    omega
  sorted := hshaped.sorted
  within := hshaped.within
  extent := hshaped.extent

theorem assign_prompt (digests : PrefixShortlistDigests) :
    ∃ built, digests.assign history.prompt = .ok built ∧
      built.items = frontierDigests history.content.rewriteExecutionFrontiers history.inputs := by
  obtain ⟨built, h, hitems⟩ := PrefixShortlistDigests.assign_of_assignable digests (assignable hshaped)
  refine ⟨built, h, ?_⟩
  rw [hitems, inputs_of_prompt, after_assign_prompt hshaped]
  rfl

theorem inputs_append (tokens : List TokenId) (ropeDelta : Int) :
    (history.after (.appendGenerated tokens ropeDelta)).inputs =
      history.inputs ++ PrefixShortlistDigests.generatedInputs history.tokens.length tokens ropeDelta := by
  refine ext_getElem ?_ fun index h1 h2 => ?_
  · simp [after, PrefixShortlistDigests.generatedInputs]
  simp only [inputs, after, getElem_map, getElem_range, PrefixShortlistDigests.generatedInputs]
  have htypes := hshaped.types
  have hpositions := hshaped.positions
  by_cases hlt : index < history.tokens.length
  · rw [getElem_append_left (by simpa using hlt)]
    simp only [getElem_map, getElem_range]
    rw [getD_append _ _ _ _ hlt, getD_append _ _ _ _ (by rw [htypes]; exact hlt)]
    congr 1
    funext axis
    rw [getD_append _ _ _ _ (by rw [hpositions]; exact hlt)]
  have hlen : index < history.tokens.length + tokens.length := by simpa [after] using h1
  rw [getElem_append_right (by simpa using Nat.le_of_not_lt hlt)]
  simp only [length_map, length_range, getElem_mapIdx]
  rw [getD_append_right _ _ _ _ (by omega), getD_append_right _ _ _ _ (by omega), htypes]
  congr 1
  · exact getD_eq_getElem _ _ (by omega)
  · rw [getD_eq_getElem?_getD, getElem?_replicate, if_pos (by omega), Option.getD_some]
  · funext axis
    rw [getD_append_right _ _ _ _ (by rw [hpositions]; omega), hpositions]
    rw [getD_eq_getElem _ _ (by simp; omega)]
    simp

end

theorem inputs_take (n : Nat) : (history.after (.truncate n)).inputs = history.inputs.take n := by
  refine ext_getElem (by simp [after]) fun index h1 h2 => ?_
  have hlt : index < n := by
    simp [after] at h1
    omega
  simp only [inputs, after, getElem_map, getElem_range, getElem_take, getD_eq_getElem?_getD,
    getElem?_take, if_pos hlt]

end History

/-! ## Runs -/

/-- The three objects are those of the history. -/
structure Follows (resident : Resident) (history : History) : Prop where
  tokens : resident.tokens = history.tokens
  identity : resident.identity.content = history.content
  shaped : history.Shaped
  digests : resident.digests.items =
    frontierDigests history.content.rewriteExecutionFrontiers history.inputs

variable {grants : Grants} {resident resident' : Resident} {history : History}

theorem returned_ok {σ : Type} {call : Logged σ × Except Exn Unit} {s : σ} (h : Resident.returned call = .ok s) :
    call.2 = .ok () ∧ call.1.1 = s := by
  obtain ⟨⟨t, log⟩, e | ⟨⟩⟩ := call
  · cases h
  · exact ⟨rfl, Except.ok.inj h⟩

theorem Follows.size (hfollows : Follows resident history) :
    resident.identity.size = history.tokens.length ∧
      PrefixShortlistDigests.size resident.digests = history.tokens.length := by
  constructor
  · have := congrArg (fun content => content.tokenTypes.length) hfollows.identity
    exact this.trans hfollows.shaped.types
  · exact PrefixShortlistDigests.size_eq (by rw [hfollows.digests, length_frontierDigests, History.length_inputs])

variable {prompt : PreparedPromptData} {call : PrefixCall} {calls : List PrefixCall}
  {digests : PrefixShortlistDigests} {rewrites : List Nat} {inputs : List DigestInput} {n : Nat}

theorem follows_assign (h : resident.perform grants (.assign prompt) = .ok resident') :
    Follows resident' (history.after (.assign prompt)) := by
  obtain ⟨identity, hidentity, h⟩ := bind_ok h
  obtain ⟨digests, hdigests, h⟩ := bind_ok h
  cases h
  have hassignable := PrefixShortlistDigests.assignable_of_assign hdigests
  obtain ⟨built, hbuilt, hitems⟩ := PrefixShortlistDigests.assign_of_assignable resident.digests hassignable
  obtain rfl := Except.ok.inj (hbuilt.symm.trans hdigests)
  have hcontent : identity.content = (history.after (.assign prompt)).content := by
    unfold assign at hidentity
    rw [dif_pos ⟨hassignable.types, hassignable.positions⟩] at hidentity
    rw [← Except.ok.inj hidentity]
    rfl
  have hpositions : ∀ axis, (prompt.axis axis).length = prompt.tokenIds.length := fun axis => by
    have haxis : (identity.positions axis).items = prompt.axis axis :=
      congrFun (congrArg Content.positions hcontent) axis
    have htypes : identity.tokenTypes.items = prompt.tokenTypes := congrArg Content.tokenTypes hcontent
    rw [← haxis, identity.shape axis, htypes, hassignable.types]
  refine ⟨rfl, hcontent, ?_, ?_⟩
  · exact ⟨hassignable.types, hpositions, hassignable.sorted, hassignable.within, hassignable.extent⟩
  · rw [hitems, History.inputs_of_prompt]
    rfl

section
variable (hfollows : Follows resident history)
include hfollows

theorem follows_append {tokens : List TokenId} {ropeDelta : Int}
    (h : resident.perform grants (.appendGenerated tokens ropeDelta) = .ok resident') :
    Follows resident' (history.after (.appendGenerated tokens ropeDelta)) := by
  obtain ⟨identity, hidentity, h⟩ := bind_ok h
  obtain ⟨digests, hdigests, h⟩ := bind_ok h
  cases h
  obtain ⟨hsize, hsizeDigests⟩ := hfollows.size
  obtain ⟨hend, rfl⟩ := returned_ok hidentity
  obtain ⟨hendDigests, rfl⟩ := returned_ok hdigests
  rcases appendGenerated_cases grants (resident.identity, []) with ⟨e, he, -⟩ | ⟨room, hroom, -, -, hgenerated⟩
  · rw [he] at hend
    cases hend
  rcases PrefixShortlistDigests.appendGenerated_cases grants (resident.digests, [])
    with ⟨e, he, -⟩ | ⟨roomDigests, hroomDigests, hfits, -, -, hpushed⟩
  · rw [he] at hendDigests
    cases hendDigests
  rw [hsizeDigests] at hfits hpushed
  rw [hsize] at hgenerated
  have hshaped := hfollows.shaped
  have hlen : (history.after (.appendGenerated tokens ropeDelta)).tokens.length =
      history.tokens.length + tokens.length := length_append
  refine ⟨?_, ?_, ?_, ?_⟩
  · simp only [History.after, hfollows.tokens]
  · rw [hgenerated, generated_content]
    have hheld := hroom.trans hfollows.identity
    simp only [History.after, ← hheld]
    rfl
  · refine ⟨?_, fun axis => ?_, hshaped.sorted, fun i hi => ?_, ?_⟩
    · simp [History.after, hshaped.types]
    · simp [History.after, hshaped.positions axis]
    · have := hshaped.within i hi
      omega
    · rw [hlen]
      exact hfits
  · have hdigestLength : roomDigests.items.length = history.tokens.length + 1 := by
      rw [hroomDigests, hfollows.digests, length_frontierDigests, History.length_inputs]
    rw [hpushed, PrefixShortlistDigests.pushAll_items _ hdigestLength fun i hi => (hshaped.within i hi).2,
      hroomDigests, hfollows.digests, History.inputs_append hshaped]
    exact (foldl_append ..).symm

theorem follows_truncate {tokens : Nat} (h : resident.perform grants (.truncate tokens) = .ok resident') :
    Follows resident' (history.after (.truncate tokens)) := by
  obtain ⟨identity, hidentity, h⟩ := bind_ok h
  obtain ⟨digests, hdigests, h⟩ := bind_ok h
  cases h
  obtain ⟨hsize, hsizeDigests⟩ := hfollows.size
  have hshaped := hfollows.shaped
  obtain ⟨u1, hle, hidentity⟩ := bind_ok hidentity
  have hle : tokens ≤ history.tokens.length := by have := throwIf_ok.mp hle; omega
  obtain ⟨u2, -, hdigests⟩ := bind_ok hdigests
  cases hdigests
  have hitems := congrArg Content.visionItems hfollows.identity
  have hrewrites := congrArg Content.rewriteExecutionFrontiers hfollows.identity
  have hkept : ∀ i, i ∈ frontiersUpTo history.content.rewriteExecutionFrontiers tokens ↔
      i ∈ history.content.rewriteExecutionFrontiers ∧ i ≤ tokens := fun i => mem_frontiersUpTo hshaped.sorted i tokens
  have hlen : (history.after (.truncate tokens)).tokens.length = tokens := by
    simp only [History.after, length_take]
    omega
  refine ⟨?_, ?_, ?_, ?_⟩
  · simp only [History.after, hfollows.tokens]
  · split at hidentity
    · cases hidentity
    · next retained hretained =>
      rw [← Except.ok.inj hidentity]
      have htake : ∀ frontiers, frontiers.take (frontiersUpTo frontiers tokens).length =
          frontiersUpTo frontiers tokens := fun frontiers =>
        (prefix_iff_eq_take.mp <| takeWhile_prefix _).symm
      simp only [content, History.after, ← hfollows.identity, Vec.shrink_items, htake, hretained, Option.getD_some]
  · refine ⟨?_, fun axis => ?_, ?_, fun i hi => ?_, ?_⟩
    · rw [hlen]
      simp only [History.after, length_take, hshaped.types]
      omega
    · rw [hlen]
      simp only [History.after, length_take, hshaped.positions axis]
      omega
    · exact hshaped.sorted.sublist (takeWhile_sublist _)
    · obtain ⟨hmem, hi'⟩ := (hkept i).mp hi
      exact ⟨(hshaped.within i hmem).1, by rw [hlen]; exact hi'⟩
    · have := hshaped.extent
      omega
  · rw [Vec.shrink_items, hfollows.digests, take_frontierDigests tokens (by rw [History.length_inputs]; exact hle),
      History.inputs_take]
    refine frontierDigests_congr fun i hi => ?_
    have hi : i ≤ tokens := by
      rw [length_take, History.length_inputs] at hi
      omega
    exact ⟨fun hmem => (hkept i).mpr ⟨hmem, hi⟩, fun hmem => ((hkept i).mp hmem).1⟩

theorem follows_perform
    (h : resident.perform grants call = .ok resident') : Follows resident' (history.after call) := by
  cases call with
  | assign prompt => exact follows_assign h
  | appendGenerated tokens ropeDelta => exact follows_append hfollows h
  | truncate tokens => exact follows_truncate hfollows h

theorem follows_foldlM (h : calls.foldlM (Resident.perform grants) resident = .ok resident') :
    Follows resident' (calls.foldl History.after history) := by
  induction calls generalizing resident history with
  | nil =>
    cases h
    exact hfollows
  | cons call calls ih =>
    obtain ⟨next, hnext, h⟩ := bind_ok h
    exact ih (follows_perform hfollows hnext) h

end

theorem follows_first (h : Resident.empty.perform grants call = .ok resident) :
    Follows resident (History.empty.after call) := by
  cases call with
  | assign prompt => exact follows_assign h
  | appendGenerated tokens ropeDelta =>
    obtain ⟨identity, -, h⟩ := bind_ok h
    obtain ⟨digests, hdigests, -⟩ := bind_ok h
    cases hdigests
  | truncate tokens =>
    obtain ⟨identity, -, h⟩ := bind_ok h
    obtain ⟨digests, hdigests, -⟩ := bind_ok h
    obtain ⟨u, hnonempty, -⟩ := bind_ok hdigests
    exact absurd (.inl rfl) (throwIf_ok.mp hnonempty)

theorem follows_performAll (hne : calls ≠ [])
    (h : Resident.performAll grants calls = .ok resident) : Follows resident (History.ofCalls calls) := by
  obtain ⟨call, rest, rfl⟩ := exists_cons_of_ne_nil hne
  unfold Resident.performAll at h
  obtain ⟨next, hnext, h⟩ := bind_ok h
  exact show Follows resident (rest.foldl History.after (History.empty.after call)) from
    follows_foldlM (follows_first hnext) h

/-! ## The shortlist -/

theorem at_eq (h : digests.items = frontierDigests rewrites inputs) (hn : n ≤ inputs.length) :
    digests.«at» n = .ok ((frontierDigests rewrites (inputs.take n)).getLastD 0) := by
  have hlen : digests.items.length = inputs.length + 1 := by rw [h, length_frontierDigests]
  have hempty : digests.items.isEmpty = false := by
    rw [h]
    exact isEmpty_eq_false_iff.mpr frontierDigests_ne_nil
  unfold PrefixShortlistDigests.«at»
  rw [throwIf_neg (by rw [hempty, PrefixShortlistDigests.size_eq hlen]; simp; exact hn)]
  rw [h, ← take_frontierDigests n hn, getLastD_eq_getLast?, getLast?_take,
    if_neg (by omega), getD_eq_getElem?_getD, Nat.add_sub_cancel,
    getElem?_eq_getElem (by rw [length_frontierDigests]; omega)]
  rfl

theorem at_congr {left right : PrefixShortlistDigests} {rewrites' : List Nat}
    {inputs' : List DigestInput} (hleft : left.items = frontierDigests rewrites inputs)
    (hright : right.items = frontierDigests rewrites' inputs') (hn : n ≤ inputs.length)
    (hinputs : inputs.take n = inputs'.take n) (hrewrites : ∀ i ≤ n, i ∈ rewrites ↔ i ∈ rewrites') :
    ∃ digest, left.«at» n = .ok digest ∧ right.«at» n = .ok digest := by
  have hn' : n ≤ inputs'.length := by
    have := congrArg List.length hinputs
    rw [length_take, length_take] at this
    omega
  refine ⟨_, at_eq hleft hn, ?_⟩
  rw [at_eq hright hn', ← hinputs, frontierDigests_congr fun i hi => ?_]
  rw [length_take, Nat.min_eq_left hn] at hi
  exact (hrewrites i hi).symm

theorem inputs_take_congr {left right : History} (htokens : left.tokens.take n = right.tokens.take n)
    (htypes : left.content.tokenTypes.take n = right.content.tokenTypes.take n)
    (haxes : ∀ axis, (left.content.positions axis).take n = (right.content.positions axis).take n) :
    left.inputs.take n = right.inputs.take n := by
  rw [← History.inputs_take, ← History.inputs_take]
  unfold History.inputs History.after
  simp only [htokens, htypes, haxes]

theorem at_of_prefixMatches (hfollows : Follows resident history)
    {built : PrefixShortlistDigests} (hassign : digests.assign prompt = .ok built) {count : Nat}
    (hmatches : prefixMatches prompt resident.tokens resident.identity count = true) :
    ∃ digest, built.«at» count = .ok digest ∧ resident.digests.«at» count = .ok digest := by
  have hassignable := PrefixShortlistDigests.assignable_of_assign hassign
  obtain ⟨built', hbuilt, hitems⟩ := PrefixShortlistDigests.assign_of_assignable digests hassignable
  obtain rfl := Except.ok.inj (hbuilt.symm.trans hassign)
  rw [History.inputs_of_prompt] at hitems
  simp only [prefixMatches, ResidentPrefixIdentity.«matches», samePrefix, Bool.and_eq_true,
    beq_iff_eq, decide_eq_true_eq, List.all_eq_true] at hmatches
  obtain ⟨⟨hcount, htokens⟩, -, ⟨⟨htypes, haxes⟩, -⟩, hfrontiers⟩ := hmatches
  have hheld := hfollows.identity
  have hresident : ∀ i, i ∈ frontiersUpTo resident.identity.rewriteExecutionFrontiers.items count ↔
      i ∈ history.content.rewriteExecutionFrontiers ∧ i ≤ count := fun i => by
    rw [← hheld]
    exact mem_frontiersUpTo (by have := hfollows.shaped.sorted; rwa [← hheld] at this) i count
  refine at_congr hitems hfollows.digests ?_ ?_ fun i hi => ?_
  · rw [History.length_inputs]
    change count ≤ prompt.tokenIds.length
    omega
  · refine inputs_take_congr ?_ ?_ fun axis => ?_
    · rw [← hfollows.tokens]
      exact htokens
    · rw [← hheld]
      exact htypes
    · rw [← hheld]
      exact haxes axis (mem_finRange axis)
  have hincoming := mem_frontiersUpTo hassignable.sorted i count
  rw [hfrontiers, hresident] at hincoming
  exact ⟨fun hmem => (hincoming.mpr ⟨hmem, hi⟩).1, fun hmem => (hincoming.mp ⟨hmem, hi⟩).1⟩

end VoidInfer.Runtime
