import VoidInfer.Runtime.PrefixAppend
import Mathlib.Data.List.Induction

/-
  The digests as a function of the inputs: the digest of a frontier depends on the inputs before it and on the rewrite
  frontiers up to it, however the vector came about.
-/

namespace VoidInfer.Runtime
open List PrefixShortlistDigests

/-- The digest after `input`, which ends at `frontier`. -/
def nextDigest (rewrites : List Nat) (digest : UInt64) (frontier : Nat) (input : DigestInput) : UInt64 :=
  let digest := mixInput digest input
  let digest := if frontier ∈ rewrites then
      mixDigest (mixDigest digest kRewriteDigestDomain) (UInt64.ofNat frontier)
    else digest
  if digest = 0 then 1 else digest

/-- One more frontier. -/
def extendDigests (rewrites : List Nat) (digests : List UInt64) (input : DigestInput) : List UInt64 :=
  digests ++ [nextDigest rewrites (digests.getLastD 0) digests.length input]

/-- The digests of all frontiers of these inputs. -/
def frontierDigests (rewrites : List Nat) (inputs : List DigestInput) : List UInt64 :=
  inputs.foldl (extendDigests rewrites) [kDigestOffset]

section FrontierDigests

variable {rewrites rewrites' : List Nat} {inputs more : List DigestInput} {input : DigestInput}

theorem frontierDigests_concat :
    frontierDigests rewrites (inputs ++ [input]) = extendDigests rewrites (frontierDigests rewrites inputs) input := by
  simp [frontierDigests]

@[simp] theorem length_frontierDigests : (frontierDigests rewrites inputs).length = inputs.length + 1 := by
  induction inputs using List.reverseRecOn with
  | nil => rfl
  | append_singleton inputs input ih => simp [frontierDigests_concat, extendDigests, ih]

theorem frontierDigests_ne_nil : frontierDigests rewrites inputs ≠ [] := by
  intro h
  have := congrArg List.length h
  simp at this

theorem frontierDigests_prefix : frontierDigests rewrites inputs <+: frontierDigests rewrites (inputs ++ more) := by
  induction more using List.reverseRecOn with
  | nil => simp
  | append_singleton more input ih =>
    rw [← append_assoc, frontierDigests_concat]
    exact ih.trans (prefix_append _ _)

theorem take_frontierDigests (n : Nat) (hn : n ≤ inputs.length) :
    (frontierDigests rewrites inputs).take (n + 1) = frontierDigests rewrites (inputs.take n) := by
  have hprefix : frontierDigests rewrites (inputs.take n) <+: frontierDigests rewrites inputs := by
    have : frontierDigests rewrites (inputs.take n) <+: frontierDigests rewrites (inputs.take n ++ inputs.drop n) :=
      frontierDigests_prefix
    rwa [take_append_drop] at this
  have hlen : (frontierDigests rewrites (inputs.take n)).length = n + 1 := by
    rw [length_frontierDigests, length_take, Nat.min_eq_left hn]
  rw [prefix_iff_eq_take.mp hprefix, hlen]

theorem frontierDigests_congr (h : ∀ i ≤ inputs.length, i ∈ rewrites ↔ i ∈ rewrites') :
    frontierDigests rewrites inputs = frontierDigests rewrites' inputs := by
  induction inputs using List.reverseRecOn with
  | nil => rfl
  | append_singleton inputs input ih =>
    rw [length_append, length_singleton] at h
    rw [frontierDigests_concat, frontierDigests_concat, ih fun i hi => h i (by omega)]
    unfold extendDigests nextDigest
    rw [length_frontierDigests]
    simp only [h _ le_rfl]

end FrontierDigests

variable {left rewrites : List Nat}

/-! ## `append_digest` -/

theorem mixRewrites_above {frontier : Nat} {digest : UInt64}
    (h : ∀ rewrite ∈ left, frontier < rewrite) : mixRewrites frontier digest left = (digest, left) := by
  cases left with
  | nil => rfl
  | cons rewrite rest =>
    have := h rewrite mem_cons_self
    rw [mixRewrites, if_neg (by omega)]

/-- The rewrite frontiers left after `frontier`: ordered, and those of the prompt past it. -/
structure Left (rewrites : List Nat) (frontier : Nat) (left : List Nat) : Prop where
  sorted : left.Pairwise (· < ·)
  mem : ∀ i, i ∈ left ↔ i ∈ rewrites ∧ frontier < i

theorem appendDigest_spec {digests : Vec UInt64} (input : DigestInput) {n : Nat}
    (hleft : Left rewrites n left) (hlen : digests.items.length = n + 1) :
    (appendDigest digests input left).1.items = extendDigests rewrites digests.items input ∧
      Left rewrites (n + 1) (appendDigest digests input left).2 := by
  have hmix : ∃ left', mixRewrites (n + 1) (mixInput (digests.items.getLastD 0) input) left =
      (if n + 1 ∈ rewrites then
          mixDigest (mixDigest (mixInput (digests.items.getLastD 0) input) kRewriteDigestDomain)
            (UInt64.ofNat (n + 1))
        else mixInput (digests.items.getLastD 0) input, left') ∧ Left rewrites (n + 1) left' := by
    cases left with
    | nil =>
      have hnone : ∀ i, ¬ (i ∈ rewrites ∧ n < i) := fun i hi => by simpa using (hleft.mem i).mpr hi
      refine ⟨[], ?_, List.Pairwise.nil, fun i => ?_⟩
      · rw [if_neg fun hmem => hnone _ ⟨hmem, by omega⟩]
        rfl
      · exact ⟨fun hi => by simp at hi, fun hi => absurd ⟨hi.1, by omega⟩ (hnone i)⟩
    | cons rewrite rest =>
      have hrest := pairwise_cons.mp hleft.sorted
      have hhead := (hleft.mem rewrite).mp mem_cons_self
      by_cases heq : rewrite = n + 1
      · subst heq
        refine ⟨rest, ?_, hrest.2, fun i => ?_⟩
        · rw [mixRewrites, if_pos rfl, if_pos hhead.1, mixRewrites_above hrest.1]
        · constructor
          · intro hi
            exact ⟨((hleft.mem i).mp (mem_cons_of_mem _ hi)).1, hrest.1 i hi⟩
          · intro ⟨hi, hlt⟩
            rcases mem_cons.mp ((hleft.mem i).mpr ⟨hi, by omega⟩) with rfl | hmem
            · omega
            · exact hmem
      have habove : ∀ i ∈ rewrite :: rest, n + 1 < i := by
        intro i hi
        rcases mem_cons.mp hi with rfl | hmem
        · omega
        have := hrest.1 i hmem
        omega
      refine ⟨rewrite :: rest, ?_, hleft.sorted, fun i => ?_⟩
      · rw [mixRewrites_above habove, if_neg]
        intro hmem
        have := habove _ ((hleft.mem _).mpr ⟨hmem, by omega⟩)
        omega
      · exact ⟨fun hi => ⟨((hleft.mem i).mp hi).1, habove i hi⟩, fun hi => (hleft.mem i).mpr ⟨hi.1, by omega⟩⟩
  obtain ⟨left', hmix, hleft'⟩ := hmix
  unfold appendDigest
  rw [hlen, hmix]
  refine ⟨?_, hleft'⟩
  simp only [Vec.push_items, extendDigests, nextDigest, hlen]

theorem appendInputs_spec (inputs : List DigestInput) {digests : Vec UInt64} {n : Nat}
    (hleft : Left rewrites n left) (hlen : digests.items.length = n + 1) :
    (appendInputs inputs digests left).1.items = inputs.foldl (extendDigests rewrites) digests.items ∧
      Left rewrites (n + inputs.length) (appendInputs inputs digests left).2 := by
  induction inputs generalizing digests left n with
  | nil => exact ⟨rfl, hleft⟩
  | cons input inputs ih =>
    obtain ⟨hitems, hleft'⟩ := appendDigest_spec input hleft hlen
    have hlen' : (appendDigest digests input left).1.items.length = n + 1 + 1 := by
      rw [hitems, extendDigests, length_append, hlen, length_singleton]
    have := ih hleft' hlen'
    rw [hitems, show n + 1 + inputs.length = n + (input :: inputs).length by rw [length_cons]; omega] at this
    exact this

theorem rewritesOrdered_iff {tokens previous : Nat} :
    PreparedPromptData.rewritesOrdered tokens previous rewrites = true ↔
      rewrites.Pairwise (· < ·) ∧ ∀ i ∈ rewrites, previous < i ∧ i ≤ tokens := by
  induction rewrites generalizing previous with
  | nil => simp [PreparedPromptData.rewritesOrdered]
  | cons rewrite rest ih =>
    have hhead : (!(rewrite == 0 || decide (rewrite > tokens) || decide (rewrite ≤ previous))) = true ↔
        previous < rewrite ∧ rewrite ≤ tokens := by
      simp
      omega
    rw [PreparedPromptData.rewritesOrdered, Bool.and_eq_true, hhead, ih, pairwise_cons]
    constructor
    · intro ⟨⟨hlow, hhigh⟩, hsorted, hrest⟩
      refine ⟨⟨fun i hi => (hrest i hi).1, hsorted⟩, fun i hi => ?_⟩
      rcases mem_cons.mp hi with rfl | hmem
      · exact ⟨hlow, hhigh⟩
      have := hrest i hmem
      omega
    · intro ⟨⟨habove, hsorted⟩, hall⟩
      exact ⟨hall rewrite mem_cons_self, hsorted, fun i hi =>
        ⟨habove i hi, (hall i (mem_cons_of_mem _ hi)).2⟩⟩

namespace PrefixShortlistDigests

variable {digests : PrefixShortlistDigests} {n : Nat}

theorem size_eq (h : digests.items.length = n + 1) : size digests = n := by
  unfold size
  rw [if_neg (by rw [isEmpty_iff_length_eq_zero]; omega), h]
  rfl

/-- The shape that both `assign`s ask for, and the order of the rewrite frontiers. -/
structure Assignable (prompt : PreparedPromptData) : Prop where
  types : prompt.tokenTypes.length = prompt.tokenIds.length
  positions : prompt.positions.length = 3 * prompt.tokenIds.length
  sorted : prompt.rewriteExecutionFrontiers.Pairwise (· < ·)
  within : ∀ i ∈ prompt.rewriteExecutionFrontiers, 0 < i ∧ i ≤ prompt.tokenIds.length
  extent : prompt.tokenIds.length < sizeMax

theorem assign_of_assignable {prompt : PreparedPromptData} (digests : PrefixShortlistDigests)
    (h : Assignable prompt) : ∃ built, assign digests prompt = .ok built ∧
      built.items = frontierDigests prompt.rewriteExecutionFrontiers prompt.inputs := by
  have hleft : Left prompt.rewriteExecutionFrontiers 0 prompt.rewriteExecutionFrontiers :=
    ⟨h.sorted, fun i => ⟨fun hi => ⟨hi, (h.within i hi).1⟩, fun hi => hi.1⟩⟩
  let start : Vec UInt64 := ((digests.shrink 0).grown (prompt.tokenIds.length + 1)).push kDigestOffset
  have hstart : start.items = [kDigestOffset] := by simp [start]
  obtain ⟨hitems, hend⟩ := appendInputs_spec prompt.inputs hleft (show start.items.length = 0 + 1 by rfl)
  have hnone : (appendInputs prompt.inputs start prompt.rewriteExecutionFrontiers).2 = [] := by
    refine eq_nil_iff_forall_not_mem.mpr fun i hi => ?_
    obtain ⟨hmem, hlt⟩ := (hend.mem i).mp hi
    have := h.within i hmem
    have hlen : prompt.inputs.length = prompt.tokenIds.length := by simp [PreparedPromptData.inputs]
    omega
  refine ⟨_, ?_, hitems.trans (by rfl)⟩
  unfold assign
  rw [show throwIf (prompt.tokenTypes.length ≠ prompt.tokenIds.length ∨ _) _ = .ok () from
      throwIf_ok.mpr (by have := h.types; have := h.positions; omega),
    show throwIf (PreparedPromptData.rewritesOrdered _ 0 _ = false) _ = .ok () from
      throwIf_ok.mpr (by rw [rewritesOrdered_iff.mpr ⟨h.sorted, h.within⟩]; simp),
    show throwIf (prompt.tokenIds.length ≥ sizeMax) _ = .ok () from throwIf_neg (Nat.not_le.mpr h.extent)]
  change (throwIf ((appendInputs prompt.inputs start prompt.rewriteExecutionFrontiers).2 ≠ []) _ >>= fun _ => _) = _
  rw [throwIf_neg (by rw [hnone]; simp)]
  rfl

theorem assignable_of_assign {prompt : PreparedPromptData} {built : PrefixShortlistDigests}
    (h : assign digests prompt = .ok built) : Assignable prompt := by
  obtain ⟨u1, h1, h⟩ := bind_ok h
  obtain ⟨u2, h2, h⟩ := bind_ok h
  obtain ⟨u3, h3, h⟩ := bind_ok h
  have hshape := throwIf_ok.mp h1
  have hordered := rewritesOrdered_iff.mp (Bool.not_eq_false _ ▸ throwIf_ok.mp h2)
  exact ⟨by omega, by omega, hordered.1, hordered.2, Nat.not_le.mp (throwIf_ok.mp h3)⟩

/-! ## Generated tokens -/

variable {grants : Grants} {tokens : List TokenId} {delta : Int}

/-- The inputs of generated tokens from `first` on. -/
def generatedInputs (first : Nat) (tokens : List TokenId) (delta : Int) : List DigestInput :=
  tokens.mapIdx fun offset token => ⟨token, 0, fun _ => ((first + offset : Nat) : Int) + delta⟩

theorem generatedInputs_concat (first : Nat) (tokens : List TokenId) (token : TokenId) (delta : Int) :
    generatedInputs first (tokens ++ [token]) delta = generatedInputs first tokens delta ++
      [⟨token, 0, fun _ => ((first + tokens.length : Nat) : Int) + delta⟩] := mapIdx_concat

theorem left_nil (rewrites : List Nat) (n : Nat) (h : ∀ i ∈ rewrites, i ≤ n) : Left rewrites n [] :=
  ⟨List.Pairwise.nil, fun i => ⟨fun hi => by simp at hi, fun hi => by have := h i hi.1; omega⟩⟩

theorem pushed_items {rewrites : List Nat} (input : DigestInput)
    (hlen : digests.items.length = n + 1) (hrewrites : ∀ i ∈ rewrites, i ≤ n) :
    (appendDigest digests input []).1.items = extendDigests rewrites digests.items input :=
  (appendDigest_spec input (left_nil rewrites n hrewrites) hlen).1

/-- The digests after generated tokens. -/
def pushAll (digests : PrefixShortlistDigests) (inputs : List DigestInput) : PrefixShortlistDigests :=
  inputs.foldl (fun digests input => (appendDigest digests input []).1) digests

theorem pushAll_concat (digests : PrefixShortlistDigests) (inputs : List DigestInput) (input : DigestInput) :
    pushAll digests (inputs ++ [input]) = (appendDigest (pushAll digests inputs) input []).1 := by
  simp [pushAll]

theorem pushAll_items {rewrites : List Nat} (inputs : List DigestInput)
    (hlen : digests.items.length = n + 1) (hrewrites : ∀ i ∈ rewrites, i ≤ n) :
    (pushAll digests inputs).items = inputs.foldl (extendDigests rewrites) digests.items := by
  induction inputs generalizing digests n with
  | nil => rfl
  | cons input inputs ih =>
    have hitems := pushed_items input hlen hrewrites
    have hlen' : (appendDigest digests input []).1.items.length = n + 1 + 1 := by
      rw [hitems, extendDigests, length_append, hlen, length_singleton]
    have := ih hlen' fun i hi => by have := hrewrites i hi; omega
    rw [hitems] at this
    exact this

theorem pushes_eq {first : Nat} {log : List Nat} {u : Unit}
    (hcheck : checkGeneratedExtent first tokens.length delta = .ok u) :
    inPlace (tokens.mapIdx fun offset token => pushGenerated (first + offset) token delta) (digests, log) =
      ((pushAll digests (generatedInputs first tokens delta), log), .ok ()) := by
  have hok : ∀ done, done <+: tokens →
      inPlace (done.mapIdx fun offset token => pushGenerated (first + offset) token delta) (digests, log) =
        ((pushAll digests (generatedInputs first done delta), log), .ok ()) := by
    intro done
    induction done using List.reverseRecOn with
    | nil => exact fun _ => rfl
    | append_singleton done token ih =>
      intro hprefix
      have hlt : done.length < tokens.length := by
        have := hprefix.length_le
        rw [length_append, length_singleton] at this
        omega
      obtain ⟨h1, h2, h3⟩ := checkGeneratedExtent_ok hcheck (by omega)
      have hstep : ∀ s, pushGenerated (first + done.length) token delta s =
          .ok ((appendDigest s.1 ⟨token, 0, fun _ => ((first + done.length : Nat) : Int) + delta⟩ []).1, s.2) := by
        intro s
        unfold pushGenerated
        rw [show throwIf (first + done.length > int32Max) _ = .ok () from throwIf_neg (by omega),
          show throwIf (((first + done.length : Nat) : Int) + delta < int32Min ∨ _) _ = .ok () from
            throwIf_ok.mpr (by omega)]
        rfl
      rw [mapIdx_concat, inPlace_append, ih ((prefix_append _ _).trans hprefix)]
      simp only
      rw [inPlace_cons_ok (hstep _), inPlace_nil, generatedInputs_concat, pushAll_concat]
  exact hok tokens (prefix_refl _)

theorem appendGenerated_cases (grants : Grants) (s : Logged PrefixShortlistDigests) :
    (∃ e, (appendGenerated grants tokens delta s).2 = .error e ∧
      (appendGenerated grants tokens delta s).1.1.items = s.1.items) ∨
    ∃ room, room.items = s.1.items ∧ size s.1 + tokens.length < sizeMax ∧
      (∃ u, checkGeneratedExtent (size s.1) tokens.length delta = .ok u) ∧
      (appendGenerated grants tokens delta s).2 = .ok () ∧
      (appendGenerated grants tokens delta s).1.1 = pushAll room (generatedInputs (size s.1) tokens delta) := by
  unfold appendGenerated
  by_cases hempty : s.1.items.isEmpty
  · exact .inl ⟨_, by rw [if_pos hempty], by rw [if_pos hempty]⟩
  rw [if_neg hempty]
  cases hcheck : checkGeneratedExtent _ tokens.length delta with
  | error e => exact .inl ⟨e, by simp only [hcheck], by simp only [hcheck]⟩
  | ok u =>
    simp only [hcheck]
    by_cases hmax : size s.1 + tokens.length ≥ sizeMax
    · exact .inl ⟨_, by rw [if_pos hmax], by rw [if_pos hmax]⟩
    rw [if_neg hmax]
    cases hres : reserveDigests grants _ s with
    | error e => exact .inl ⟨e, by rw [inPlace_cons_error hres], by rw [inPlace_cons_error hres]⟩
    | ok s' =>
      obtain ⟨room, log⟩ := s'
      have hroom : room.items = s.1.items := by
        obtain ⟨⟨capacity, log'⟩, -, hres⟩ := bind_ok hres
        rw [← (Prod.mk.inj (Except.ok.inj hres)).1]
        rfl
      refine .inr ⟨room, hroom, Nat.not_le.mp hmax, ⟨u, trivial⟩, ?_, ?_⟩
      · rw [inPlace_cons_ok hres, pushes_eq hcheck]
      · rw [inPlace_cons_ok hres, pushes_eq hcheck]

end PrefixShortlistDigests

end VoidInfer.Runtime
