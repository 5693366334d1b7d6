import VoidInfer.Exl3.ColdReplay

/-
  The requests that `initialize`, `append_prompt` and `verify` make have a stream, and each extends the streams of its
  ancestors. What is run afresh adds blocks of eight rows to it, a verification one range.
-/

namespace VoidInfer.Exl3.DraftPartitions
open List

open Throwing

/-! ## Requests with a stream -/

/-- `request` holds what `stream`, all its ranges from the first row on, retains. -/
structure Streamed (request : Request) (stream : List Range) : Prop where
  state : request.state.isSome = true
  position : request.position = request.history.length
  chain : Chain 0 stream request.position
  tiled : Tiled request.partitions request.position
  partitions : request.partitions = retained stream request.position
  blocks : request.blocks = request.partitions
  host : request.projected = none
  unprepared : request.prepared = false
  some_row : 1 ≤ request.position
  extent : request.position ≤ int32Max

variable {s : Devices} {request : Request} {stream : List Range} {fits : Prop} {revision width : Nat}

variable {b : Builder} {position : Int} {bad : Prop} {e : Exn} {incoming : Nat}
  {older : List Request}

theorem streamed_finish {modelIdentity : Nat} {nativeExtentValid : Int → Bool}
    {result : Exl3VeriCacheRequest} (h : Streaming stream b position 0) (hsome : 1 ≤ position)
    (hstate : result.state = some { position, modelIdentity, nativeExtentValid })
    (hhistory : position = result.history.length) : Streamed (b.finish result) stream := by
  have hposition : (b.finish result).position = position := position_some hstate
  have hextent := h.extent
  refine ⟨?_, hposition.trans hhistory, ?_, ?_, ?_, h.blocks, rfl, rfl, ?_, ?_⟩
  · show result.state.isSome = true
    rw [hstate]
    rfl
  · rw [hposition]
    exact h.chain
  · rw [hposition]
    exact h.ready.partitions
  · rw [hposition]
    exact h.partitions
  · rw [hposition]
    exact hsome
  · omega

variable {Q : Unit → Devices → Prop} {E : Exn → Devices → Prop} {suffix : List Int}

/-! ## Calls -/

theorem wp_check_fails [Decidable bad] (hfits : fits → ¬ bad) (he : ∀ what, e ≠ .logicError what)
    (hgood : ¬ bad → Q () s) : wp (check bad e) Q (Fails fits) s := by
  unfold check
  rw [wp_ofExcept]
  constructor
  · intro _ hok
    exact hgood (throwIf_ok.mp hok)
  · intro e' herror
    obtain ⟨hbad, rfl⟩ := throwIf_error herror
    exact ⟨fun hfit => hfits hfit hbad, he⟩

theorem wp_check_never [Decidable bad] (hgood : ¬ bad) (hQ : Q () s) : wp (check bad e) Q E s := by
  unfold check throwIf
  rw [if_neg hgood]
  exact hQ

theorem wp_width_fails (hfits : fits → requirePrefillWidth width = .ok ())
    (hQ : Q () s) : wp (MonadExcept.ofExcept (requirePrefillWidth width)) Q (Fails fits) s := by
  rw [wp_ofExcept]
  refine ⟨fun _ _ => hQ, fun e he => ⟨fun hfit => ?_, requirePrefillWidth_fails he⟩⟩
  rw [hfits hfit] at he
  cases he

theorem wp_recovering_any {α : Type} {recover : Devices → Devices} {x : Exec α} {Q : α → Devices → Prop}
    {E : Exn → Prop} (h : wp x Q (fun e _ => E e) s) : wp (recovering recover x) Q (fun e _ => E e) s := by
  unfold wp at h ⊢
  unfold recovering
  cases hx : x s with
  | ok a s' =>
    rw [hx] at h
    exact h
  | error e s' =>
    rw [hx] at h
    exact h

theorem Streamed.source (hs : Streamed request stream) (source : Request) (hsource : some request = some source) :
    Tiled source.blocks request.position ∧ Tiled source.partitions request.position := by
  cases hsource
  rw [hs.blocks]
  exact ⟨hs.tiled, hs.tiled⟩

theorem wp_plan_streaming (hs : Streamed request stream)
    (hextent : request.position + incoming ≤ int32Max) {Q : Builder → Devices → Prop}
    (hQ : ∀ b, Streaming stream b request.position incoming → Q b s) :
    wp (plan (some request) incoming true) Q E s := by
  obtain ⟨b, hb, hready, hblocks, hpartitions⟩ := createPlanned_ok true hs.source s.exact.credited incoming
  unfold plan
  rw [wp_get_bind]
  refine wp_ofOk hb (hQ b ⟨hready, hextent, ?_, hs.chain, ?_⟩)
  · rw [hblocks, hpartitions]
    exact hs.blocks
  rw [hpartitions]
  exact hs.partitions

theorem wp_planRoot_streaming (hextent : (incoming : Int) ≤ int32Max) {Q : Builder → Devices → Prop}
    (hQ : ∀ b, Streaming [] b 0 incoming → Q b s) : wp (plan none incoming true) Q E s := by
  obtain ⟨b, hb, hready, hblocks, hpartitions⟩ :=
    createPlanned_ok true (by simp : ∀ request, (none : Option Request) = some request →
      Tiled request.blocks 0 ∧ Tiled request.partitions 0) s.exact.credited incoming
  unfold plan
  rw [wp_get_bind]
  refine wp_ofOk hb (hQ b ⟨hready, by omega, ?_, rfl, ?_⟩)
  · rw [hblocks, hpartitions]
    rfl
  rw [hpartitions]
  rfl

theorem wp_restoreState_fails (hs : Streamed request stream)
    (hfits : fits → request.modelIdentity = s.exact.modelIdentity ∧ request.position ≤ s.exact.maxContext)
    (hQ : request.modelIdentity = s.exact.modelIdentity → request.position ≤ s.exact.maxContext →
      Q () { s with exact := { s.exact with position := request.position } }) :
    wp (restoreExactHostState request.state) Q (Fails fits) s := by
  obtain ⟨state, hstate⟩ := Option.isSome_iff_exists.mp hs.state
  have hposition : request.position = state.position := by simp [Exl3VeriCacheRequest.position, hstate]
  have hmodel : request.modelIdentity = state.modelIdentity := by simp [Exl3VeriCacheRequest.modelIdentity, hstate]
  have hsome := hs.some_row
  unfold restoreExactHostState
  rw [wp_get_bind, hstate]
  dsimp only
  rw [wp_bind]
  refine wp_check_fails ?_ (by simp) fun hgood => ?_
  · intro hfit
    obtain ⟨hsame, hroom⟩ := hfits hfit
    rintro (hother | hlow | hhigh)
    · exact hother (by omega)
    · omega
    · omega
  rw [hposition] at hQ
  exact hQ (by omega) (by omega)

/-- The ranges of a root: the first call, then blocks of eight rows. -/
def rootStream (rows : Nat) : List Range :=
  ⟨0, (min 16 rows : Nat)⟩ :: eights (min 16 rows : Nat) (rows - min 16 rows)

theorem rootStream_single {rows : Nat} (h : rows ≤ 16) : rootStream rows = [⟨0, rows⟩] := by
  unfold rootStream
  rw [show min 16 rows = rows by omega, Nat.sub_self, eights_zero]

/-- What a prompt run afresh needs of its context. -/
structure RootFits (context : TextContext) (width : Nat) (prompt : List Int) : Prop where
  width : requirePrefillWidth width = .ok ()
  some_row : prompt ≠ []
  room : (prompt.length : Int) ≤ context.maxContext
  prepared : 8 ≤ context.continuationCapacity
  vocabulary : InVocabulary prompt

theorem wp_initializeRequest_streamed {prompt : List Int} {actualTail : Bool}
    (hfits : fits → RootFits s.exact width prompt) {Q : Request → Devices → Prop}
    (hQ : ∀ request, Streamed request (rootStream prompt.length) → request.history = prompt → InVocabulary prompt →
      request.modelIdentity = s.exact.modelIdentity → request.position = prompt.length →
      Q request { s with exact := { s.exact with position := 0 }.ran prompt.length }) :
    wp (initializeRequest revision prompt width actualTail) Q (Fails fits) s := by
  have hmax := s.exact.maxContext_range
  unfold initializeRequest
  rw [wp_bind]
  refine wp_width_fails (fun hfit => (hfits hfit).width) ?_
  rw [wp_get_bind]
  rw [wp_bind]
  refine wp_check_fails ?_ (by simp) fun hextent => ?_
  · intro hfit
    obtain ⟨-, hsome, hroom, hprepared, -⟩ := hfits hfit
    rintro (hnil | hlong | hnarrow)
    · exact hsome hnil
    · have := hlong.2
      omega
    · omega
  rw [wp_bind]
  refine wp_check_fails (fun hfit hout => hout (hfits hfit).vocabulary) (by simp) fun hvocabulary => ?_
  have hlength : 0 < prompt.length := length_pos_iff.mpr fun hnil => hextent (.inl hnil)
  have hroom : (prompt.length : Int) ≤ s.exact.maxContext :=
    length_le_of_not_exceeds (by omega) fun h => hextent (.inr (.inl h))
  rw [wp_bind]
  refine wp_planRoot_streaming (by omega) fun b hb => ?_
  simp only [runRows, wp_bind, wp_set, wp_modify]
  obtain ⟨happend, hfirst⟩ :=
    append_streaming hb (by omega : 0 < min 16 prompt.length) (by omega) (by omega)
  refine wp_ofOk happend ?_
  have hdrop : (prompt.drop (min 16 prompt.length)).length = prompt.length - min 16 prompt.length := length_drop
  let context := { s.exact with position := 0 }.ran (min 16 prompt.length)
  have hposition : context.position = 0 + (min 16 prompt.length : Nat) := rfl
  have hrows : context.position + ((prompt.drop (min 16 prompt.length)).length : Int) = prompt.length := by
    omega
  have hran : context.ran (prompt.drop (min 16 prompt.length)).length = { s.exact with position := 0 }.ran prompt.length := by
    rw [TextContext.ran_ran, hdrop]
    congr 1
    omega
  refine wp_ingest_streaming (s := { s with exact := context }) le_rfl hfirst (by omega) ?_ ?_
  · intro hfit _
    refine ⟨(hfits hfit).width, by rw [hposition]; omega, ?_⟩
    rw [hrows]
    exact hroom
  intro b' hb'
  rw [hran]
  rw [hrows] at hb'
  have hleft : prompt.length - min 16 prompt.length - (prompt.drop (min 16 prompt.length)).length = 0 := by omega
  have hstream : [] ++ [(⟨0, (min 16 prompt.length : Nat)⟩ : Range)] ++
      eights context.position (prompt.drop (min 16 prompt.length)).length = rootStream prompt.length := by
    rw [hposition, hdrop, Int.zero_add]
    rfl
  rw [hleft, hstream] at hb'
  have hend : (0 : Int) + prompt.length = prompt.length := Int.zero_add _
  refine hQ _ (streamed_finish hb' (by omega) (by rw [← hend]; rfl) rfl) rfl (not_not.mp hvocabulary) rfl ?_
  exact hend

/-- What an extension of `request` needs of its context. -/
structure SuffixFits (context : TextContext) (width : Nat) (request : Request) (suffix : List Int) : Prop where
  width : requirePrefillWidth width = .ok ()
  some_row : suffix ≠ []
  room : request.position + suffix.length ≤ context.maxContext
  prepared : 8 ≤ context.continuationCapacity
  vocabulary : InVocabulary suffix
  model : request.modelIdentity = context.modelIdentity

theorem wp_appendPrompt_streamed (hs : Streamed request stream)
    (hfits : fits → SuffixFits s.exact width request suffix) {Q : Request → Devices → Prop}
    (hQ : ∀ result, Streamed result (stream ++ eights request.position suffix.length) →
      result.history = request.history ++ suffix → InVocabulary suffix → suffix ≠ [] →
      result.modelIdentity = request.modelIdentity → result.modelIdentity = s.exact.modelIdentity →
      result.position = request.position + suffix.length →
      Q result { s with exact := { s.exact with position := request.position }.ran suffix.length }) :
    wp (appendPrompt request revision suffix width) Q (Fails fits) s := by
  have hmax := s.exact.maxContext_range
  have hsome := hs.some_row
  unfold appendPrompt
  rw [wp_bind]
  refine wp_check_never (by simp [hs.host]) ?_
  rw [wp_bind]
  refine wp_check_never (by simp [hs.unprepared]) ?_
  rw [wp_bind]
  refine wp_width_fails (fun hfit => (hfits hfit).width) ?_
  rw [wp_get_bind]
  rw [wp_bind]
  refine wp_check_fails ?_ (by simp) fun hextent => ?_
  · intro hfit
    obtain ⟨-, hsome, hroom, hprepared, -, -⟩ := hfits hfit
    rintro (hnil | hnarrow | hbehind | hlong)
    · exact hsome hnil
    · omega
    · omega
    have := hlong.2
    omega
  rw [wp_bind]
  refine wp_check_fails (fun hfit hout => hout (hfits hfit).vocabulary) (by simp) fun hvocabulary => ?_
  have hnil : suffix ≠ [] := fun hnil => hextent (.inl hnil)
  have hroom : (suffix.length : Int) ≤ s.exact.maxContext - request.position :=
    length_le_of_not_exceeds (by omega) fun h => hextent (.inr (.inr (.inr h)))
  rw [wp_bind]
  refine wp_plan_streaming hs (by omega) fun b hb => ?_
  rw [wp_bind]
  refine wp_restoreState_fails hs ?_ fun hmodel _ => ?_
  · intro hfit
    exact ⟨(hfits hfit).model, by omega⟩
  refine wp_recovering_any ?_
  rw [wp_bind]
  refine wp_ingest_streaming (s := { s with exact := { s.exact with position := request.position } })
    le_rfl hb le_rfl ?_ ?_
  · intro hfit _
    exact ⟨(hfits hfit).width, hsome, (hfits hfit).room⟩
  intro b' hb'
  dsimp only at hb' ⊢
  rw [Nat.sub_self] at hb'
  refine hQ _ (streamed_finish hb' (by omega) rfl ?_) rfl (not_not.mp hvocabulary) hnil hmodel.symm rfl rfl
  show _ = ((request.history ++ suffix).length : Int)
  rw [length_append, hs.position]
  omega

/-! ## Lineages -/

/-- `Lineage request older`: `initialize` made the last of `older`, and each of the requests after
    it, `request` at last, was made of the one before by `append_prompt` or `verify`. A verifier
    runs in a context of the request's model and commits tokens of the vocabulary. -/
inductive Lineage : Request → List Request → Prop
  | root {revision width : Nat} {prompt : List Int} {actualTail : Bool} {s s' : Devices} {request : Request}
      (hrun : initializeRequest revision prompt width actualTail s = .ok request s') : Lineage request []
  | append {parent request : Request} {older : List Request} {revision width : Nat} {suffix : List Int}
      {s s' : Devices} (hparent : Lineage parent older)
      (hrun : appendPrompt parent revision suffix width s = .ok request s') : Lineage request (parent :: older)
  | verify {parent request : Request} {older : List Request} {revision : Nat} {tentative : List Int}
      {verifier : Verifier parent.position tentative} {s s' : Devices} (hparent : Lineage parent older)
      (hmodel : s.exact.modelIdentity = parent.modelIdentity)
      (hvocabulary : ∀ maxContext verified, verifier.call maxContext = .ok verified →
        InVocabulary verified.committedTokens)
      (hrun : DraftPartitions.verify parent revision tentative verifier s = .ok request s') :
      Lineage request (parent :: older)

theorem Ready.fewer {remaining fewer : Nat} (h : Ready b position remaining)
    (hle : fewer ≤ remaining) : Ready b position fewer where
  blocks := h.blocks
  partitions := h.partitions
  blockRoom := h.blockRoom.imp (fun hroom => by omega) id
  partitionRoom := h.partitionRoom.imp (fun hroom => by omega) id

/-- A verification appends its rows as one range. -/
theorem wp_verify_streamed (hs : Streamed request stream) {tentative : List Int}
    (verifier : Verifier request.position tentative)
    (hvocabulary : ∀ maxContext verified, verifier.call maxContext = .ok verified →
      InVocabulary verified.committedTokens) :
    wp (verify request revision tentative verifier)
      (fun result _ => ∃ committed, committed ≠ [] ∧ InVocabulary committed ∧
        Streamed result (stream ++ [⟨request.position, committed.length⟩]) ∧
        result.history = request.history ++ committed ∧ result.modelIdentity = s.exact.modelIdentity ∧
        result.position = request.position + committed.length) (fun _ _ => True) s := by
  have hposition := hs.position
  unfold verify
  rw [wp_bind]
  refine wp_check_never (by simp [hs.host]) ?_
  rw [wp_bind]
  refine wp_fail (wp_plan (s := s) request.position hs.source fun b hready hblocks hpartitions => ?_) fun _ _ _ => trivial
  rw [wp_bind]
  unfold Verifier.run
  rw [wp_get_bind]
  rw [wp_bind, wp_ofExcept]
  refine ⟨fun verified hverified => ?_, fun _ _ => trivial⟩
  simp only [wp_bind, wp_modify, wp_pure]
  rw [wp_ofExcept]
  refine ⟨fun b' happended => ?_, fun _ _ => trivial⟩
  -- the range was accepted, so it has at most sixteen rows
  have hmost : verified.committedTokens.length ≤ 16 := by
    obtain ⟨_, -, happended⟩ := bind_ok happended
    obtain ⟨_, hcontinuous, -⟩ := bind_ok happended
    have hcontinuous := throwIf_ok.mp hcontinuous
    by_contra hlong
    exact hcontinuous (.inr (.inl (by omega)))
  have hfits := verified.in_context
  have hmax := s.exact.maxContext_range.2
  have hstreaming : Streaming stream b request.position verified.committedTokens.length := by
    refine ⟨hready.fewer verified.in_proposal, by omega, ?_, hs.chain, ?_⟩
    · rw [hblocks, hpartitions]
      exact hs.blocks
    · rw [hpartitions]
      exact hs.partitions
  obtain ⟨happend, hpushed⟩ := append_streaming hstreaming verified.some_row hmost le_rfl
  rw [happend] at happended
  cases happended
  rw [Nat.sub_self] at hpushed
  have hrows := verified.some_row
  have hhistory : request.position + verified.committedTokens.length =
      ((request.history ++ verified.committedTokens).length : Int) := by
    rw [length_append]
    omega
  have hstreamed (state : Exl3ExactHostState)
      (hstate : state.position = request.position + verified.committedTokens.length) :
      Streamed ((b.pushed request.position verified.committedTokens.length).finish
        (request.toExl3VeriCacheRequest.verify revision verified.committedTokens (some state))) _ :=
    streamed_finish hpushed (by omega) (by rw [← hstate]; rfl) hhistory
  refine ⟨verified.committedTokens, length_pos_iff.mp hrows, hvocabulary _ _ hverified, ?_, rfl, rfl, rfl⟩
  exact { hstreamed _ rfl with unprepared := hs.unprepared }

/-- What `request` keeps of an earlier one. -/
structure Ancestor (request : Request) (stream : List Range) (anchor : Request) : Prop where
  stream : ∃ before after, stream = before ++ after ∧ Streamed anchor before
  position : anchor.position < request.position
  model : anchor.modelIdentity = request.modelIdentity

theorem ancestors_extend {parent : Request} {more : List Range}
    (hs : Streamed parent stream) (holder : ∀ anchor ∈ older, Ancestor parent stream anchor)
    (hmodel : request.modelIdentity = parent.modelIdentity)
    (hposition : request.position = parent.position + suffix.length) (hsuffix : suffix ≠ []) :
    ∀ anchor ∈ parent :: older, Ancestor request (stream ++ more) anchor := by
  have hrows : 0 < suffix.length := length_pos_iff.mpr hsuffix
  intro anchor hanchor
  rcases mem_cons.mp hanchor with rfl | hanchor
  · exact ⟨⟨stream, more, rfl, hs⟩, by omega, hmodel.symm⟩
  obtain ⟨⟨before, after, hstream, hbefore⟩, hbehind, hsame⟩ := holder anchor hanchor
  refine ⟨⟨before, after ++ more, ?_, hbefore⟩, by omega, hsame.trans hmodel.symm⟩
  rw [hstream, append_assoc]

theorem inVocabulary_append {tokens : List Int} (htokens : InVocabulary tokens) (hsuffix : InVocabulary suffix) :
    InVocabulary (tokens ++ suffix) := by
  intro token htoken
  rcases mem_append.mp htoken with htoken | htoken
  · exact htokens token htoken
  · exact hsuffix token htoken

theorem Lineage.streamed (h : Lineage request older) :
    ∃ stream, Streamed request stream ∧ InVocabulary request.history ∧
      ∀ anchor ∈ older, Ancestor request stream anchor := by
  induction h with
  | @root revision width prompt actualTail s s' request hrun =>
    have hroot : ∃ stream, Streamed request stream ∧ InVocabulary request.history := by
      refine wp_ok (wp_initializeRequest_streamed (Q := fun r _ => ∃ stream, Streamed r stream ∧
        InVocabulary r.history) (fun hfalse : False => hfalse.elim) ?_) hrun
      intro result hstreamed hhistory hvocabulary _ _
      exact ⟨_, hstreamed, hhistory.symm ▸ hvocabulary⟩
    obtain ⟨stream, hs, hvocabulary⟩ := hroot
    exact ⟨stream, hs, hvocabulary, by simp⟩
  | @append parent request older revision width suffix s s' _ hrun ih =>
    obtain ⟨stream, hs, hparent, holder⟩ := ih
    refine wp_ok (wp_appendPrompt_streamed (Q := fun r _ => ∃ stream, Streamed r stream ∧
      InVocabulary r.history ∧ ∀ anchor ∈ parent :: older, Ancestor r stream anchor) hs
      (fun hfalse : False => hfalse.elim) ?_) hrun
    intro result hstreamed hhistory hvocabulary hnil hmodel _ hposition
    refine ⟨_, hstreamed, ?_, ancestors_extend hs holder hmodel hposition hnil⟩
    rw [hhistory]
    exact inVocabulary_append hparent hvocabulary
  | @verify parent request older revision tentative verifier s s' _ hmodel hvocabulary hrun ih =>
    obtain ⟨stream, hs, hparent, holder⟩ := ih
    obtain ⟨committed, hnil, hcommitted, hstreamed, hhistory, hsame, hposition⟩ :=
      wp_ok (wp_verify_streamed hs verifier hvocabulary) hrun
    refine ⟨_, hstreamed, ?_, ancestors_extend hs holder (hsame.trans hmodel) hposition hnil⟩
    rw [hhistory]
    exact inVocabulary_append hparent hcommitted

end VoidInfer.Exl3.DraftPartitions
