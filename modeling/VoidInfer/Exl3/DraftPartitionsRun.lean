import VoidInfer.Exl3.DraftPartitionsInv
import VoidInfer.Exl3.OuterAgree

/-
  Every operation keeps the partitions of its request in order, with two exceptions. A verification on the host appends
  its committed rows as one range, and a range of more than sixteen rows is refused; `verify_compact` cuts them. And the
  device routes copy the partitions of a compact request that was made on the host while its position moves on, so the
  next range is refused.
-/

namespace VoidInfer.Exl3.DraftPartitions
open List Option

open Throwing

variable {s : Devices} {request : Request}

/-! ## Requests -/

/-- The invariant of a request. -/
structure Good (request : Request) : Prop where
  state : request.state.isSome = true
  position : request.position = request.history.length
  partitions : Tiled request.partitions request.position
  blocks : request.blocks = if request.projected.isSome then [] else request.partitions
  projected : ∀ position, request.projected = some position → position = request.position

theorem Good.tiledBlocks (h : Good request) : Tiled request.blocks request.position := by
  rw [h.blocks]
  split
  · exact .inl rfl
  · exact h.partitions

theorem Good.source (h : Good request) (source : Request) (hsource : some request = some source) :
    Tiled source.blocks request.position ∧ Tiled source.partitions request.position := by
  cases hsource
  exact ⟨h.tiledBlocks, h.partitions⟩

theorem Good.nonneg (h : Good request) : 0 ≤ request.position := by
  rw [h.position]
  omega

variable {width : Nat} {source : Option Request} {position : Int} {nativeExtentValid : Int → Bool}
  {suffix tentative : List Int}

/-! ## Parts of the operations -/

theorem requirePrefillWidth_error {e : Exn} (h : requirePrefillWidth width = .error e) : ¬ Refusal e := by
  unfold requirePrefillWidth throwIf at h
  split at h
  · cases h
    decide
  · simp at h

variable {Q : Unit → Devices → Prop} {b : Builder}

theorem wp_requirePrefillWidth (h : Q () s) :
    wp (MonadExcept.ofExcept (requirePrefillWidth width)) Q Otherwise s := by
  rw [wp_ofExcept]
  exact ⟨fun _ _ => h, fun e he => requirePrefillWidth_error he⟩

theorem wp_plan (position : Int) {incoming : Nat} {retainBlocks : Bool} {Q : Builder → Devices → Prop}
    (hsource : ∀ request, source = some request → Tiled request.blocks position ∧ Tiled request.partitions position)
    (h : ∀ b, Ready b position incoming → b.blocks = (if retainBlocks then (source.map (·.blocks)).getD [] else []) →
      b.partitions = (source.map (·.partitions)).getD [] → Q b s) :
    wp (plan source incoming retainBlocks) Q Otherwise s := by
  obtain ⟨b, hb, hready, hblocks, hpartitions⟩ :=
    createPlanned_ok retainBlocks hsource s.exact.credited incoming
  unfold plan
  rw [wp_get_bind]
  exact wp_ofOk hb (h b hready hblocks hpartitions)

theorem wp_restoreExactHostState
    (h : request.position ≤ s.exact.maxContext →
      Q () { s with exact := { s.exact with position := request.position } }) :
    wp (restoreExactHostState request.state) Q Otherwise s := by
  unfold restoreExactHostState
  rw [wp_get_bind]
  cases hstate : request.state with
  | none =>
    show ¬ Refusal _
    decide
  | some state =>
    rw [wp_bind]
    refine wp_check fun hgood => ?_
    have hposition : request.position = state.position := by
      simp [Exl3VeriCacheRequest.position, hstate]
    rw [hposition] at h
    exact h (by omega)

theorem wp_restoreDraft (h : Q () { s with draft := request.position }) :
    wp (restoreDraft request) Q Otherwise s := by
  unfold restoreDraft
  split
  · rw [wp_bind]
    refine wp_check fun hsame => ?_
    have hsame := not_not.mp hsame
    rw [hsame]
    exact h
  simp only [wp_bind, wp_modify]
  refine wp_imp (wp_forM (I := fun _ s' => s'.exact = s.exact) ?_ rfl) ?_
  · intro block rest s' hs'
    exact hs'
  intro _ s' hs'
  refine wp_check fun hsame => ?_
  have hsame := not_not.mp hsame
  have hs : s' = { s with draft := request.position } := by
    rw [← hsame, ← hs']
  rw [hs]
  exact h

/-! ## Operations -/

/-- What an extension leaves: a good request with the new tokens, and the context behind them. -/
structure Extended (s : Devices) (base : Int) (history suffix : List Int) (request : Request) (s' : Devices) : Prop where
  good : Good request
  history : request.history = history ++ suffix
  exact : s'.exact = { s.exact with position := base }.ran suffix.length

theorem position_some {modelIdentity : Nat}
    {request : Exl3VeriCacheRequest} (h : request.state = some { position, modelIdentity, nativeExtentValid }) :
    request.position = position := by
  simp [Exl3VeriCacheRequest.position, h]

theorem length_le_of_not_exceeds {tokens : List Int} {room : Int} (hroom : 0 ≤ room) (h : ¬ exceeds tokens room) :
    (tokens.length : Int) ≤ room := by
  unfold exceeds at h
  omega

theorem wp_initializeRequest (revision : Nat) (prompt : List Int) (width : Nat) (actualTail : Bool) :
    wp (initializeRequest revision prompt width actualTail)
      (fun request s' => Extended s 0 [] prompt request s' ∧ request.projected = none ∧ request.prepared = false)
      Otherwise s := by
  unfold initializeRequest
  rw [wp_bind]
  refine wp_requirePrefillWidth ?_
  rw [wp_get_bind]
  rw [wp_bind]
  refine wp_check fun hextent => ?_
  rw [wp_bind]
  refine wp_check fun _ => ?_
  rw [wp_bind]
  refine wp_plan 0 (by simp) fun b hready hblocks hpartitions => ?_
  have hlength : 0 < prompt.length := length_pos_iff.mpr fun hnil => hextent (.inl hnil)
  have hmax := s.exact.maxContext_range
  have hfits : (prompt.length : Int) ≤ s.exact.maxContext :=
    length_le_of_not_exceeds (by omega) fun h => hextent (.inr (.inl h))
  simp only [runRows, wp_bind, wp_set, wp_modify]
  obtain ⟨happend, hready'⟩ := append_ok hready (Int.le_refl 0) (by omega : 1 ≤ min 16 prompt.length) (by omega)
    (by omega) (by omega)
  refine wp_ofOk happend ?_
  -- the context after the first rows, and the suffix to come
  let context := { s.exact with position := 0 }.ran (min 16 prompt.length)
  have hdrop : (prompt.drop (min 16 prompt.length)).length = prompt.length - min 16 prompt.length := length_drop
  have hposition : context.position = 0 + (min 16 prompt.length : Nat) := rfl
  have hfilling : Filling false context s.draft (b.pushed 0 (min 16 prompt.length : Nat)) context.position
      (prompt.drop (min 16 prompt.length)).length { s with exact := context } := by
    rw [hdrop, hposition]
    refine ⟨hready', by omega, by omega, fun _ => ?_, rfl, rfl⟩
    simp [Builder.pushed, hblocks, hpartitions]
  refine wp_imp (wp_ingest le_rfl hfilling) ?_
  intro b' s' h'
  have hexact : s'.exact = { s.exact with position := 0 }.ran prompt.length := by
    rw [h'.context, hdrop, TextContext.ran_ran]
    congr 1
    omega
  have hend : s'.exact.position = prompt.length := by
    rw [hexact]
    simp [TextContext.ran]
  have hstop : context.position + ((prompt.drop (min 16 prompt.length)).length : Int) = s'.exact.position := by
    omega
  have hpartitions := h'.ready.partitions
  rw [hstop] at hpartitions
  refine ⟨⟨⟨rfl, ?_, ?_, ?_, by simp [Builder.finish]⟩, rfl, hexact⟩, rfl, rfl⟩
  · rw [position_some rfl, hend]
    rfl
  · exact hpartitions
  · exact h'.same rfl

theorem filling_start (fresh : Bool) {maxContext : Int} (hgood : Good request)
    (hready : Ready b request.position suffix.length)
    (hblocks : b.blocks = if !fresh then request.blocks else []) (hpartitions : b.partitions = request.partitions)
    (hhost : fresh = false → request.projected = none) (hfits : request.position + suffix.length ≤ maxContext)
    (hmax : maxContext ≤ int32Max) (hexact : s.exact.position = request.position)
    (hdraft : fresh = true → s.draft = request.position) :
    Filling fresh s.exact s.draft b s.exact.position suffix.length s := by
  rw [hexact]
  refine ⟨hready, hgood.nonneg, by omega, ?_, rfl, ?_⟩
  · intro hfresh
    rw [hblocks, hpartitions, hgood.blocks, hhost hfresh, hfresh]
    rfl
  · split
    · next hfresh => exact hdraft hfresh
    · rfl

section
variable (hgood : Good request)
include hgood

theorem finish_good {fresh : Bool} {base : TextContext} {draft : Int} {s' : Devices} {result : Exl3VeriCacheRequest}
    (h : Filling fresh (base.ran suffix.length) draft b (base.position + suffix.length) 0 s')
    (hbase : base.position = request.position) (hhistory : result.history = request.history ++ suffix)
    (hstate : result.state = some { position := s'.exact.position, modelIdentity := s'.exact.modelIdentity, nativeExtentValid })
    (finished : Request) (hfinished : finished.toExl3VeriCacheRequest = result)
    (hpartitions : finished.partitions = b.partitions)
    (hkind : (fresh = false ∧ finished.projected = none ∧ finished.blocks = b.blocks) ∨
      (fresh = true ∧ finished.projected = some s'.draft ∧ finished.blocks = [])) : Good finished := by
  have hposition : finished.position = base.position + suffix.length := by
    rw [hfinished, position_some hstate, h.context]
    rfl
  refine ⟨?_, ?_, ?_, ?_, ?_⟩
  · rw [hfinished, hstate]
    rfl
  · rw [hposition, hfinished, hhistory, hbase, hgood.position, length_append]
    omega
  · rw [hposition, hpartitions]
    exact h.ready.partitions
  · rcases hkind with ⟨hfresh, hprojected, hblocks⟩ | ⟨hfresh, hprojected, hblocks⟩
    · rw [hblocks, hprojected, hpartitions, h.same hfresh]
      rfl
    · rw [hblocks, hprojected]
      rfl
  · intro position hsome
    rcases hkind with ⟨-, hprojected, -⟩ | ⟨hfresh, hprojected, -⟩
    · rw [hprojected] at hsome
      simp at hsome
    rw [hprojected] at hsome
    cases hsome
    rw [hposition, h.drafted, hfresh]
    rfl

theorem wp_appendPrompt (revision : Nat) (suffix : List Int) (width : Nat) :
    wp (appendPrompt request revision suffix width)
      (fun result s' => Extended s request.position request.history suffix result s' ∧ suffix ≠ [] ∧
        result.prepared = request.prepared) Otherwise s := by
  unfold appendPrompt
  rw [wp_bind]
  refine wp_check fun hhost => ?_
  have hhost : request.projected = none := by simpa using hhost
  rw [wp_bind]
  refine wp_check fun hprepared => ?_
  rw [wp_bind]
  refine wp_requirePrefillWidth ?_
  rw [wp_get_bind]
  rw [wp_bind]
  refine wp_check fun hextent => ?_
  rw [wp_bind]
  refine wp_check fun _ => ?_
  rw [wp_bind]
  refine wp_plan request.position hgood.source fun b hready hblocks hpartitions => ?_
  rw [wp_bind]
  refine wp_restoreExactHostState fun hle => wp_recovering ?_
  have hfits : (suffix.length : Int) ≤ s.exact.maxContext - request.position :=
    length_le_of_not_exceeds (by omega) fun h => hextent (.inr (.inr (.inr h)))
  have hfilling := filling_start false (s := { s with exact := { s.exact with position := request.position } })
    hgood hready hblocks hpartitions (fun _ => hhost) (by omega) s.exact.maxContext_range.2 rfl (by simp)
  rw [wp_bind]
  refine wp_imp (wp_ingest le_rfl hfilling) ?_
  intro b' s' h'
  refine ⟨⟨?_, rfl, h'.context⟩, fun hnil => hextent (.inl hnil), ?_⟩
  · exact finish_good hgood h' rfl rfl rfl _ rfl rfl (.inl ⟨rfl, rfl, rfl⟩)
  · simpa [Builder.finish] using hprepared

theorem wp_appendPromptCompact (revision : Nat) (suffix : List Int) (width : Nat) :
    wp (appendPromptCompact request revision suffix width)
      (fun result s' => Extended s request.position request.history suffix result s' ∧ suffix ≠ [] ∧
        result.prepared = request.prepared) Otherwise s := by
  unfold appendPromptCompact
  rw [wp_bind]
  refine wp_check fun hprepared => ?_
  split
  · exact wp_appendPrompt hgood revision suffix width
  rw [wp_bind]
  refine wp_requirePrefillWidth ?_
  rw [wp_get_bind]
  rw [wp_bind]
  refine wp_check fun hextent => ?_
  rw [wp_bind]
  refine wp_check fun _ => ?_
  rw [wp_bind]
  refine wp_plan request.position hgood.source fun b hready hblocks hpartitions => ?_
  rw [wp_bind]
  refine wp_restoreExactHostState fun hle => ?_
  rw [wp_bind]
  refine wp_restoreDraft (wp_recovering ?_)
  have hfits : (suffix.length : Int) ≤ s.exact.maxContext - request.position :=
    length_le_of_not_exceeds (by omega) fun h => hextent (.inr (.inr (.inr h)))
  have hfilling := filling_start true
    (s := { exact := { s.exact with position := request.position }, draft := request.position })
    hgood hready hblocks hpartitions (by simp) (by omega) s.exact.maxContext_range.2 rfl (by simp)
  rw [wp_bind]
  refine wp_imp (wp_ingest le_rfl hfilling) ?_
  intro b' s' h'
  refine ⟨⟨?_, rfl, h'.context⟩, fun hnil => hextent (.inl hnil), ?_⟩
  · exact finish_good hgood h' rfl rfl rfl _ rfl rfl (.inr ⟨rfl, rfl, rfl⟩)
  · simpa [Builder.finish] using hprepared

theorem wp_appendControlCompact (revision : Nat) (tokens : List Int) :
    wp (appendControlCompact request revision tokens) (fun result _ => Good result) Otherwise s := by
  unfold appendControlCompact
  split
  · have hparent : Good { request with prepared := false } :=
      ⟨hgood.state, hgood.position, hgood.partitions, hgood.blocks, hgood.projected⟩
    rw [wp_bind]
    refine wp_imp (wp_appendPromptCompact hparent revision tokens 8) ?_
    intro result s' h
    exact ⟨h.1.good.state, h.1.good.position, h.1.good.partitions, h.1.good.blocks, h.1.good.projected⟩
  · exact wp_imp (wp_appendPromptCompact hgood revision tokens 8) fun _ _ h => h.1.good

theorem wp_compactDraft : wp (compactDraft request) (fun result _ => Good result) Otherwise s := by
  unfold compactDraft
  split
  · exact hgood
  rw [wp_bind]
  refine wp_restoreDraft ?_
  refine ⟨hgood.state, hgood.position, hgood.partitions, rfl, ?_⟩
  intro position hsome
  exact (some.inj hsome).symm

theorem wp_composeVerifiedChild (parent intermediate : Request) (revision : Nat) :
    wp (composeVerifiedChild request parent intermediate revision) (fun result _ => Good result) Otherwise s := by
  unfold composeVerifiedChild
  rw [wp_bind]
  refine wp_check fun _ => ?_
  exact ⟨hgood.state, hgood.position, hgood.partitions, hgood.blocks, hgood.projected⟩

end

/-! ## Verification -/

theorem wp_verifier (verifier : Verifier position tentative) {Q : List Int → Devices → Prop}
    (h : ∀ committed, 0 < committed.length → committed.length ≤ tentative.length →
      position + committed.length ≤ s.exact.maxContext →
      Q committed { s with exact := { s.exact with position := position + committed.length } }) :
    wp verifier.run Q Otherwise s := by
  unfold Verifier.run
  rw [wp_get_bind]
  rw [wp_bind, wp_ofExcept]
  refine ⟨fun verified _ => ?_, fun e he => verifier.other _ e he⟩
  exact h verified.committedTokens verified.some_row verified.in_proposal verified.in_context

theorem wp_verify (hgood : Good request) (revision : Nat) (hlength : tentative.length ≤ 16)
    (verifier : Verifier request.position tentative) :
    wp (verify request revision tentative verifier) (fun result _ => Good result) Otherwise s := by
  unfold verify
  rw [wp_bind]
  refine wp_check fun hhost => ?_
  rw [wp_bind]
  refine wp_plan request.position hgood.source fun b hready hblocks hpartitions => ?_
  rw [wp_bind]
  refine wp_verifier verifier fun committed hsome hle hfits => ?_
  rw [wp_bind]
  have hmax := s.exact.maxContext_range.2
  obtain ⟨happend, hready'⟩ := append_ok hready hgood.nonneg (by omega : 1 ≤ committed.length) (by omega) hle (by omega)
  refine wp_ofOk happend ?_
  have hsame : b.blocks = b.partitions := by
    rw [hblocks, hpartitions]
    simp [hgood.blocks, hhost]
  refine ⟨rfl, ?_, hready'.partitions, ?_, by simp [Builder.finish]⟩
  · show request.position + committed.length = ((request.history ++ committed).length : Int)
    rw [hgood.position, length_append]
    omega
  · show push b.blocks _ _ = push b.partitions _ _
    rw [hsame]

/-- A builder in the course of the committed rows of a compact request: `left` of them are to
    come, and room was planned for `slack` more. -/
structure Committing (directStaging : Bool) (context : TextContext) (slack : Nat) (b : Builder) (first : Int)
    (left : Nat) (s : Devices) : Prop where
  ready : Ready b first (slack + left)
  nonneg : 0 ≤ first
  extent : first + left ≤ int32Max
  empty : directStaging = true → b.blocks = []
  context : s.exact = context
  drafted : s.draft = first

theorem wp_verifyBlock {directStaging : Bool} {context : TextContext} {first : Int}
    {slack left count : Nat} (h : Committing directStaging context slack b first left s) (hcount : 0 < count)
    (hmost : count ≤ 16) (hle : count ≤ left) :
    wp (verifyBlock directStaging first count b)
      (fun b' => Committing directStaging context slack b' (first + count) (left - count)) Otherwise s := by
  have hextent := h.extent
  have hnonneg := h.nonneg
  have hsub : slack + left - count = slack + (left - count) := by omega
  unfold verifyBlock
  rw [wp_bind]
  cases directStaging with
  | true =>
    refine wp_ofOk (appendPartition_ok h.ready hnonneg hcount hmost (by omega) (by omega)) ?_
    have hready := h.ready.pushPartition (h.empty rfl) hnonneg hcount hmost (by omega)
    exact ⟨hsub ▸ hready, by omega, by omega, h.empty, h.context, rfl⟩
  | false =>
    obtain ⟨happend, hready⟩ := append_ok h.ready hnonneg hcount hmost (by omega) (by omega)
    refine wp_ofOk happend ?_
    exact ⟨hsub ▸ hready, by omega, by omega, by simp, h.context, rfl⟩

theorem wp_verifyCompact (hgood : Good request) (revision : Nat) (tentative : List Int) (directStaging : Bool)
    (verifier : Verifier request.position tentative) :
    wp (verifyCompact request revision tentative directStaging verifier) (fun result _ => Good result)
      Otherwise s := by
  unfold verifyCompact
  rw [wp_get_bind]
  rw [wp_bind]
  refine wp_check fun hcompact => ?_
  have hcompact : request.projected ≠ none := fun hnone => hcompact (.inl (by simp [hnone]))
  obtain ⟨position, hposition⟩ := ne_none_iff_exists'.mp hcompact
  rw [wp_bind]
  refine wp_plan request.position hgood.source fun b hready hblocks hpartitions => ?_
  simp only [wp_bind, wp_modify]
  refine wp_recovering ?_
  rw [wp_bind]
  refine wp_verifier verifier fun committed hsome hle hfits => ?_
  have hmax := s.exact.maxContext_range.2
  dsimp only at hfits
  have hdraft : request.projected.getD s.draft = request.position := by
    rw [hposition]
    exact hgood.projected position hposition
  let context : TextContext := { s.exact with position := request.position + committed.length }
  have hstart : Committing directStaging context (tentative.length - committed.length) b request.position
      committed.length { exact := context, draft := request.projected.getD s.draft } := by
    have hadd : tentative.length - committed.length + committed.length = tentative.length := by omega
    refine ⟨hadd.symm ▸ hready, hgood.nonneg, by omega, fun _ => ?_, rfl, hdraft⟩
    rw [hblocks]
    rfl
  rw [wp_bind]
  refine wp_imp (wp_inPieces (by decide) (fun _ _ _ _ _ h => wp_verifyBlock h) le_rfl hstart) ?_
  intro b' s' h'
  have hend : s'.exact.position = request.position + committed.length := by
    rw [h'.context]
  simp only [wp_bind, wp_get]
  refine wp_check fun hdrafted => ?_
  refine ⟨rfl, ?_, ?_, rfl, ?_⟩
  · rw [position_some rfl, hend]
    show _ = ((request.history ++ committed).length : Int)
    rw [hgood.position, length_append]
    omega
  · rw [position_some rfl, hend]
    exact h'.ready.partitions
  · intro position hprojected
    rw [position_some rfl, ← not_not.mp hdrafted]
    exact (some.inj hprojected).symm

/-! ## The device routes -/

theorem wp_deviceResult {frontier : String}
    {result : Option Exl3ExactHostState → Exl3VeriCacheRequest} (history : List Int)
    (hsource : ∀ request, source = some request → request.partitions = [] ∧ request.blocks = [])
    (hstate : ∀ state, (result state).state = state) (hhistory : ∀ state, (result state).history = history)
    (hposition : s.exact.position = history.length) (hfrontier : ¬ Refusal (.logicError frontier)) :
    wp (deviceResult source frontier result) (fun request _ => Good request) Otherwise s := by
  unfold deviceResult exportExactHostState
  simp only [wp_bind, wp_get, wp_pure]
  refine wp_check (fun hdraft => ?_) hfrontier
  have htiled : ∀ request, source = some request → Tiled request.blocks 0 ∧ Tiled request.partitions 0 := by
    intro request hrequest
    exact ⟨.inl (hsource request hrequest).2, .inl (hsource request hrequest).1⟩
  refine wp_plan 0 htiled fun b _ hblocks hpartitions => ?_
  have hnone : b.partitions = [] := by
    rw [hpartitions]
    cases source with
    | none => rfl
    | some request => exact (hsource request rfl).1
  refine ⟨?_, ?_, .inl hnone, hblocks, ?_⟩
  · show (result _).state.isSome = true
    rw [hstate]
    rfl
  · show (result _).position = ((result _).history.length : Int)
    rw [position_some (hstate _), hposition, hhistory]
  · intro position hprojected
    show position = (result _).position
    rw [position_some (hstate _), ← not_not.mp hdraft]
    exact (some.inj hprojected).symm

theorem wp_initializeDeviceRoot (revision : Nat) (prompt : List Int) :
    wp (initializeDeviceRoot revision prompt) (fun request _ => Good request) Otherwise s := by
  unfold initializeDeviceRoot
  rw [wp_get_bind]
  rw [wp_bind]
  refine wp_check fun hfrontier => ?_
  rw [wp_bind]
  refine wp_check fun _ => ?_
  refine wp_deviceResult prompt (by simp) (fun _ => rfl) (fun _ => rfl) ?_ (by decide)
  by_contra hposition
  exact hfrontier (.inr (.inr (.inl hposition)))

theorem Good.deviceSource (h : Good request) (hempty : request.partitions = []) (source : Request)
    (hsource : some request = some source) : source.partitions = [] ∧ source.blocks = [] := by
  cases hsource
  refine ⟨hempty, ?_⟩
  rw [h.blocks, hempty]
  split <;> rfl

section
variable (hgood : Good request) (hempty : request.partitions = []) (revision : Nat)
include hgood hempty revision

theorem wp_appendDeviceTerminal (committedSuffix : List Int) :
    wp (appendDeviceTerminal request revision committedSuffix) (fun result _ => Good result) Otherwise s := by
  unfold appendDeviceTerminal
  rw [wp_get_bind]
  rw [wp_bind]
  refine wp_check fun hlineage => ?_
  rw [wp_bind]
  refine wp_check fun _ => ?_
  refine wp_deviceResult (request.history ++ committedSuffix) (hgood.deviceSource hempty) (fun _ => rfl) (fun _ => rfl) ?_
    (by decide)
  have hposition : s.exact.position = request.position + committedSuffix.length := by
    by_contra hne
    exact hlineage (.inr (.inr (.inr (.inr (.inr (.inl hne))))))
  rw [hposition, hgood.position, length_append]
  omega

theorem wp_appendDevicePrompt (suffix : List Int) (ingested : Int × Int) (resident : Bool) :
    wp (appendDevicePrompt request revision suffix ingested resident) (fun result _ => Good result) Otherwise s := by
  have hrest : ∀ s, wp (do
      modify fun s => { s with exact := { s.exact with position := ingested.1 }, draft := ingested.2 }
      check (ingested.1 ≠ request.position + suffix.length ∨ ingested.2 ≠ ingested.1)
        (.logicError "device prompt ingestion frontier")
      deviceResult (some request) "device prompt ingestion frontier"
        (request.toExl3VeriCacheRequest.append revision suffix)) (fun result _ => Good result) Otherwise s := by
    intro s
    simp only [wp_bind, wp_modify]
    refine wp_check fun hfrontier => ?_
    refine wp_deviceResult (request.history ++ suffix) (hgood.deviceSource hempty) (fun _ => rfl) (fun _ => rfl) ?_
      (by decide)
    have hposition : ingested.1 = request.position + suffix.length := by
      by_contra hne
      exact hfrontier (.inl hne)
    show ingested.1 = _
    rw [hposition, hgood.position, length_append]
    omega
  unfold appendDevicePrompt
  rw [wp_get_bind]
  rw [wp_bind]
  refine wp_check fun _ => ?_
  rw [wp_bind]
  refine wp_check fun _ => ?_
  split
  · rw [wp_bind]
    exact wp_check fun _ => hrest s
  rw [wp_bind]
  refine wp_restoreExactHostState fun _ => ?_
  rw [wp_bind]
  exact wp_restoreDraft (hrest _)

end

/-! ## Runs -/

/-- A proposal to a request that is not compact has at most 16 tokens, and the device routes are
    taken from requests without partitions. -/
def Op.Keeps : Op → Prop
  | .verify _ _ tentative _ => tentative.length ≤ 16
  | .appendDevicePrompt request _ _ _ _ | .appendDeviceTerminal request _ _ => request.partitions = []
  | _ => True

theorem wp_op {op : Op} (hkeeps : op.Keeps) (hsources : ∀ source ∈ op.sources, Good source) :
    wp op.run (fun request _ => Good request) Otherwise s := by
  cases op with
  | initializeRequest revision prompt width actualTail =>
    exact wp_imp (wp_initializeRequest revision prompt width actualTail) fun _ _ h => h.1.good
  | appendPrompt request revision suffix width =>
    have hgood := hsources request (mem_singleton.mpr rfl)
    exact wp_imp (wp_appendPrompt hgood revision suffix width) fun _ _ h => h.1.good
  | appendPromptCompact request revision suffix width =>
    have hgood := hsources request (mem_singleton.mpr rfl)
    exact wp_imp (wp_appendPromptCompact hgood revision suffix width) fun _ _ h => h.1.good
  | appendControlCompact request revision tokens =>
    exact wp_appendControlCompact (hsources request (mem_singleton.mpr rfl)) revision tokens
  | verify request revision tentative verifier =>
    exact wp_verify (hsources request (mem_singleton.mpr rfl)) revision hkeeps verifier
  | verifyCompact request revision tentative directStaging verifier =>
    exact wp_verifyCompact (hsources request (mem_singleton.mpr rfl)) revision tentative directStaging verifier
  | compactDraft request => exact wp_compactDraft (hsources request (mem_singleton.mpr rfl))
  | composeVerifiedChild request parent intermediate revision =>
    exact wp_composeVerifiedChild (hsources request mem_cons_self) parent intermediate revision
  | initializeDeviceRoot revision prompt => exact wp_initializeDeviceRoot revision prompt
  | appendDevicePrompt request revision suffix ingested resident =>
    exact wp_appendDevicePrompt (hsources request (mem_singleton.mpr rfl)) hkeeps revision suffix ingested resident
  | appendDeviceTerminal request revision committedSuffix =>
    exact wp_appendDeviceTerminal (hsources request (mem_singleton.mpr rfl)) hkeeps revision committedSuffix

theorem good_reachable (h : Reachable Op.Keeps request) : Good request := by
  induction h with
  | made _ hkeeps hrun ih => exact wp_ok (wp_op hkeeps ih) hrun

/-- Every request that such operations make has its history up to its position, partitions that tile the rows before it,
    and no blocks or the same ones; and no such operation on such requests is refused for a range or for its storage. -/
theorem partitions_tile_requests (s : Devices) :
    (∀ request, Reachable Op.Keeps request →
      request.position = request.history.length ∧ Tiled request.partitions request.position ∧
      (request.blocks = [] ∨ request.blocks = request.partitions)) ∧
    ∀ (op : Op) (s' : Devices) (e : Exn), op.Keeps → (∀ source ∈ op.sources, Reachable Op.Keeps source) →
      op.run s = .error e s' → e ≠ continuityRefusal ∧ e ≠ partitionRefusal ∧ e ≠ descriptorRefusal := by
  constructor
  · intro request hreach
    have hgood := good_reachable hreach
    refine ⟨hgood.position, hgood.partitions, ?_⟩
    rw [hgood.blocks]
    split
    · exact .inl rfl
    · exact .inr rfl
  · intro op s' e hkeeps hsources herror
    have hother : ¬ Refusal e := wp_error (wp_op hkeeps fun source hmem => good_reachable (hsources source hmem)) herror
    exact ⟨fun h => hother (.inl h), fun h => hother (.inr (.inl h)), fun h => hother (.inr (.inr h))⟩

/-! ## Where it fails -/

/-- A context of 100 rows, credited, with nothing in it. -/
def idle : Devices where
  exact := { position := 0, maxContext := 100, continuationCapacity := 8, modelIdentity := 7, credited := true
             maxContext_range := by decide }
  draft := 0

/-- The state that a context of this model exports. -/
def stateAt (position : Int) : Exl3ExactHostState :=
  { position, modelIdentity := 7, nativeExtentValid := fun maximum => Decidable.decide (position ≤ maximum) }

/-- The root of a prompt of one token. -/
def shortRoot : Request where
  revision := 1
  parentRevision := none
  replayAnchorRevision := none
  history := [5]
  state := some (stateAt 1)
  partitions := [⟨0, 1⟩]
  blocks := [⟨0, 1⟩]

/-- The same, compact. -/
def compactRoot : Request := { shortRoot with projected := some 1, blocks := [] }

/-- A token more, from the device. -/
def deviceRoot : Request where
  toExl3VeriCacheRequest := shortRoot.toExl3VeriCacheRequest.append 2 [6] (some (stateAt 2))
  partitions := [⟨0, 1⟩]
  projected := some 2

/-- A verifier that commits these rows of a proposal. -/
def committing (position : Int) (tentative committed : List Int) (hrow : 0 < committed.length)
    (hwithin : committed.length ≤ tentative.length) : Verifier position tentative where
  call maxContext :=
    if h : position + committed.length ≤ maxContext then .ok ⟨committed, hrow, hwithin, h⟩
    else .error (.runtimeError "exact continuation extent")
  other maxContext e h := by
    split at h
    · simp at h
    obtain rfl := Except.error.inj h
    decide

/-- What one of the host verifiers committed; each of them commits a row at least, and no more than are proposed. -/
def outerCommitted {m : Outer.Machine} {o : Outer.OuterOptions} {v : Outer.Verifier} {root : Outer.HostState}
    {tentative terminal : List Int} {c c' : Outer.Context} {r : Outer.OuterResult} (position : Int)
    (h : m.verify o v root tentative terminal c = .ok r c') : Verifier position tentative :=
  have houtcome := (Outer.verify_ok h).outcome
  committing position tentative r.committedTokens houtcome.some_row houtcome.in_proposal

variable {allowed : Op → Prop}

theorem Reachable.single {op : Op} {source : Request} {s s' : Devices} (hop : op.sources = [source])
    (hsource : Reachable allowed source) (hallowed : allowed op) (hrun : op.run s = .ok request s') :
    Reachable allowed request := by
  refine .made ?_ hallowed hrun
  rw [hop]
  exact forall_mem_singleton.mpr hsource

theorem shortRoot_reachable (hallowed : allowed (.initializeRequest 1 [5] 8 false)) : Reachable allowed shortRoot := by
  have hrun : ∃ s', (Op.initializeRequest 1 [5] 8 false).run idle = .ok shortRoot s' := ⟨_, rfl⟩
  obtain ⟨s', hrun⟩ := hrun
  exact .made (by simp [Op.sources]) hallowed hrun

theorem compactRoot_reachable (hinit : allowed (.initializeRequest 1 [5] 8 false))
    (hcompact : allowed (.compactDraft shortRoot)) : Reachable allowed compactRoot := by
  have hrun : ∃ s', (Op.compactDraft shortRoot).run idle = .ok compactRoot s' := ⟨_, rfl⟩
  obtain ⟨s', hrun⟩ := hrun
  exact .single rfl (shortRoot_reachable hinit) hcompact hrun

/-- The short root with the three rows that a verifier committed after it, compact. -/
def verifiedRoot : Request where
  toExl3VeriCacheRequest := shortRoot.toExl3VeriCacheRequest.verify 2 [1, 1, 1] (some (stateAt 4))
  partitions := [⟨0, 1⟩, ⟨1, 3⟩]
  projected := some 4

/-- A batched verification, then a compaction; the request can be verified again. -/
theorem partitions_of_verified_root :
    Tiled verifiedRoot.partitions verifiedRoot.position ∧ verifiedRoot.partitions = [⟨0, 1⟩, ⟨1, 3⟩] ∧
      verifiedRoot.position = 4 ∧
      ∀ verifier s s' e, (Op.verifyCompact verifiedRoot 3 (List.replicate 64 1) false verifier).run s = .error e s' →
        e ≠ continuityRefusal := by
  have houter : ∃ r c', Outer.onesMachine.verify {} .batched ⟨1, [5], by decide⟩ [1, 1, 1] []
      { tokens := [5], head := [5], resident_ok := by simp } = .ok r c' ∧ r.committedTokens = [1, 1, 1] :=
    ⟨_, _, rfl, rfl⟩
  obtain ⟨⟨⟨committed, accepted, rejected, stopped⟩, state, executed, verification, replayed, pending, segments⟩,
    c', houter, rfl⟩ := houter
  have hverify : ∃ s', (Op.verify shortRoot 2 [1, 1, 1] (outerCommitted 1 houter)).run idle =
      .ok { verifiedRoot with projected := none, blocks := [⟨0, 1⟩, ⟨1, 3⟩] } s' := ⟨_, rfl⟩
  have hcompact : ∃ s', (Op.compactDraft { verifiedRoot with projected := none, blocks := [⟨0, 1⟩, ⟨1, 3⟩] }).run idle =
      .ok verifiedRoot s' := ⟨_, rfl⟩
  obtain ⟨s₁, hverify⟩ := hverify
  obtain ⟨s₂, hcompact⟩ := hcompact
  have hshort : Reachable Op.Keeps shortRoot := shortRoot_reachable trivial
  have hkeeps : (Op.verify shortRoot 2 [1, 1, 1] (outerCommitted 1 houter)).Keeps := show [1, 1, 1].length ≤ 16 by decide
  have hverified := Reachable.single rfl hshort hkeeps hverify
  have hkeeps' : (Op.compactDraft { verifiedRoot with projected := none, blocks := [⟨0, 1⟩, ⟨1, 3⟩] }).Keeps := trivial
  have hreach : Reachable Op.Keeps verifiedRoot := .single rfl hverified hkeeps' hcompact
  refine ⟨((partitions_tile_requests idle).1 verifiedRoot hreach).2.1, rfl, rfl, fun verifier s s' e herror => ?_⟩
  have hsources : ∀ source ∈ [verifiedRoot], Reachable Op.Keeps source := forall_mem_singleton.mpr hreach
  exact ((partitions_tile_requests s).2 (.verifyCompact verifiedRoot 3 _ false verifier) s' e trivial hsources herror).1

/-- Seventeen accepted rows are refused as one range; and a compact request extended on the device
    keeps partitions that end before its position, so its extension on the host is refused. -/
theorem range_refused :
    (∃ op s s', (∀ source ∈ Op.sources op, Reachable (fun _ => True) source) ∧
      op.run s = .error continuityRefusal s' ∧ ∃ verifier, op = .verify shortRoot 2 (List.replicate 17 6) verifier) ∧
    (∃ op s s', (∀ source ∈ Op.sources op, Reachable (fun _ => True) source) ∧
      op.run s = .error continuityRefusal s' ∧ op = .appendPromptCompact deviceRoot 3 [6] 8) ∧
    Reachable (fun _ => True) deviceRoot ∧ ¬ Tiled deviceRoot.partitions deviceRoot.position := by
  have hshort : Reachable (fun _ => True) shortRoot := shortRoot_reachable trivial
  have hdevice : Reachable (fun _ => True) deviceRoot := by
    have hrun : ∃ s', (Op.appendDevicePrompt compactRoot 2 [6] (2, 2) false).run idle = .ok deviceRoot s' := ⟨_, rfl⟩
    obtain ⟨s', hrun⟩ := hrun
    exact .single rfl (compactRoot_reachable trivial trivial) trivial hrun
  refine ⟨⟨.verify shortRoot 2 _ (committing _ _ _ (by decide) (Nat.le_refl _)), idle, _, ?_, rfl, _, rfl⟩,
    ⟨.appendPromptCompact deviceRoot 3 [6] 8, idle, _, ?_, rfl, rfl⟩, hdevice, ?_⟩
  · exact forall_mem_singleton.mpr hshort
  · exact forall_mem_singleton.mpr hdevice
  · rintro (hnil | ⟨start, -, ⟨-, -, -, hstop⟩, -⟩)
    · simp [deviceRoot] at hnil
    · have hstop : (1 : Int) = 2 := hstop
      simp at hstop

end VoidInfer.Exl3.DraftPartitions
