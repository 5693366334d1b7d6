import Mathlib.Data.List.TakeWhile
import VoidInfer.Exl3.ColdReplayRun

/-
  A request made by `initialize`, `append_prompt` and `verify` is replayed with its own partitions, unless a
  verification left one of more than eight rows behind the checkpoint: the replay ingests every partition in blocks of
  eight rows, so that one comes back as two.
-/

namespace VoidInfer.Exl3.DraftPartitions
open List Option

open Throwing

variable {s : Devices} {request : Request} {stream : List Range} {fits : Prop} {revision width : Nat}

/-! ## Where a replay starts -/

/-- The partitions a replay that has come to `cursor` still ingests. -/
def behind (request : Request) (cursor : Int) : List Range :=
  request.partitions.dropWhile fun range => range.stop ≤ cursor

/-- The rows up to `cursor` are there, in the ranges `before`, and the rest of the partitions follows. -/
structure Started (request : Request) (checkpoint : Int) (before : List Range) (cursor : Int) : Prop where
  chain : Chain 0 before cursor
  behind : Chain cursor (behind request cursor) request.position
  kept : retained (before ++ DraftPartitions.behind request cursor) request.position = request.partitions
  covers : ∀ range ∈ request.partitions, checkpoint < range.stop → cursor < range.stop
  reached : checkpoint ≤ cursor

variable {ranges before : List Range} {start stop first : Int}

theorem Chain.stop_unique {stop' : Int} (h : Chain start ranges stop)
    (h' : Chain start ranges stop') : stop = stop' := by
  induction ranges generalizing start with
  | nil => exact Eq.trans (Eq.symm h) h'
  | cons range rest ih => exact ih h.2.2.2 h'.2.2.2

theorem Chain.last_stop (h : Chain start ranges stop) (hne : start ≠ stop) : ∃ last ∈ ranges, last.stop = stop := by
  induction ranges generalizing start with
  | nil => exact absurd h hne
  | cons range rest ih =>
    by_cases hlast : range.stop = stop
    · exact ⟨range, mem_cons_self, hlast⟩
    obtain ⟨last, hmem, hstop⟩ := ih h.2.2.2 hlast
    exact ⟨last, mem_cons_of_mem _ hmem, hstop⟩

theorem Streamed.split (hs : Streamed request stream) :
    ∃ evicted front rest, stream = evicted ++ request.partitions ∧ request.partitions = front :: rest ∧
      Chain 0 evicted front.first ∧ Chain front.first request.partitions request.position ∧
      (∀ range ∈ evicted, range.stop ≤ request.position - ringCapacity) ∧
      request.position - ringCapacity < front.stop := by
  let old : Range → Bool := fun range => range.stop ≤ request.position - ringCapacity
  have hstream : stream = stream.takeWhile old ++ request.partitions := by
    rw [hs.partitions]
    exact takeWhile_append_dropWhile.symm
  have hold : ∀ range ∈ stream.takeWhile old, range.stop ≤ request.position - ringCapacity := by
    intro range hrange
    simpa [old] using mem_takeWhile_imp hrange
  have hchain := hs.chain
  rw [hstream] at hchain
  obtain ⟨middle, hevicted, hkept⟩ := hchain.split
  have hring : (ringCapacity : Int) = 2048 := rfl
  have hsome := hs.some_row
  cases hpartitions : request.partitions with
  | nil =>
    -- the last range of all is not old
    rw [hpartitions] at hkept
    have hmiddle : middle = request.position := hkept
    obtain ⟨last, hlast, hstop⟩ := hevicted.last_stop (by omega)
    have := hold last hlast
    omega
  | cons front rest =>
    rw [hpartitions] at hkept hstream
    have hfirst : front.first = middle := hkept.1
    rw [← hfirst] at hevicted hkept
    refine ⟨_, front, rest, hstream, rfl, hevicted, hkept, hold, ?_⟩
    have hnew : (stream.dropWhile old).head? = some front := by
      have hretained : stream.dropWhile old = request.partitions := hs.partitions.symm
      rw [hretained, hpartitions]
      rfl
    have hhead := head?_dropWhile_not old stream
    rw [hnew] at hhead
    simpa [old] using hhead

variable {checkpoint : Int}

section
variable (hs : Streamed request stream) (hfront : request.partitions.head?.map (·.first) = some first)
include hs hfront

theorem started_of_chain (hcheckpoint : 0 ≤ checkpoint)
    (hlt : checkpoint < first) (hbefore : Chain 0 before first) : Started request checkpoint before first := by
  obtain ⟨evicted, front, rest, -, hpartitions, hevicted, hkept, hold, hnew⟩ := hs.split
  rw [hpartitions] at hfront
  obtain rfl : front.first = first := some.inj hfront
  have hfrontRows : front.first < front.stop := (hkept.bounds.2 front (by rw [hpartitions]; simp)).2.1
  have hbehind : behind request front.first = request.partitions := by
    unfold behind
    rw [hpartitions, dropWhile_cons_of_neg (by simpa using hfrontRows)]
  obtain ⟨last, hlast, hstop⟩ := hevicted.last_stop (by omega)
  have hfirstOld : front.first ≤ request.position - ringCapacity := hstop ▸ hold last hlast
  refine ⟨hbefore, by rw [hbehind]; exact hkept, ?_, ?_, by omega⟩
  · rw [hbehind]
    unfold retained
    rw [dropWhile_append_of_pos, hpartitions, dropWhile_cons_of_neg (by simpa using hnew)]
    intro range hrange
    have := (hbefore.bounds.2 range hrange).2.2
    simp only [decide_eq_true_eq]
    omega
  · intro range hrange _
    have := hkept.bounds.2 range hrange
    omega

theorem started_checkpoint {after : List Range} (hle : first ≤ checkpoint)
    (hstream : stream = before ++ after) (hbefore : Chain 0 before checkpoint) :
    Started request checkpoint before checkpoint := by
  obtain ⟨evicted, front, rest, hsplit, hpartitions, hevicted, -, -, -⟩ := hs.split
  rw [hpartitions] at hfront
  obtain rfl : front.first = first := some.inj hfront
  have hchain := hs.chain
  rw [hstream] at hchain
  obtain ⟨middle, hbefore', hafter⟩ := hchain.split
  have hmiddle : middle = checkpoint := hbefore'.stop_unique hbefore
  rw [hmiddle] at hafter
  have hbehind : behind request checkpoint = after := by
    have hdropped : stream.dropWhile (fun range => range.stop ≤ checkpoint) = behind request checkpoint := by
      unfold behind
      rw [hsplit, dropWhile_append_of_pos]
      intro range hrange
      have := (hevicted.bounds.2 range hrange).2.2
      simp only [decide_eq_true_eq]
      omega
    rw [← hdropped, hstream, dropWhile_append_of_pos]
    · cases after with
      | nil => rfl
      | cons next more =>
        have := (hafter.bounds.2 next mem_cons_self).2.1
        have hfirst : next.first = checkpoint := hafter.1
        rw [dropWhile_cons_of_neg (by simp only [decide_eq_true_eq]; omega)]
    intro range hrange
    have := (hbefore.bounds.2 range hrange).2.2
    simpa using this
  refine ⟨hbefore, by rw [hbehind]; exact hafter, ?_, fun _ _ h => h, Int.le_refl _⟩
  rw [hbehind, ← hstream]
  exact hs.partitions.symm

end

/-- What the replay of a partition retains: the first rows of all in one range, others in blocks of eight rows. -/
def replayed (range : Range) : List Range :=
  if range.first = 0 then [range] else eights range.first range.rows.toNat

/-- Every partition that is run again fits one block, or is the first of all. -/
def Replayable (request : Request) (anchor : Option Request) : Prop :=
  ∀ range ∈ request.partitions, (anchor.map fun a => a.position).getD 0 < range.stop →
    range.first ≠ 0 → range.rows ≤ 8

theorem flatMap_replayed (h : Chain start ranges stop)
    (hsmall : ∀ range ∈ ranges, range.first ≠ 0 → range.rows ≤ 8) : ranges.flatMap replayed = ranges := by
  induction ranges generalizing start with
  | nil => rfl
  | cons range rest ih =>
    obtain ⟨hhead, htail⟩ := forall_mem_cons.mp hsmall
    have hone : replayed range = [range] := by
      unfold replayed
      split
      · rfl
      next hfirst =>
      have hrows := h.2.1
      rw [eights_single (by omega) (by omega), Int.toNat_of_nonneg (by omega)]
    rw [flatMap_cons, hone, ih h.2.2.2 htail]
    rfl

theorem Started.retained_iff {anchor : Option Request} {cursor : Int}
    (h : Started request ((anchor.map fun a => a.position).getD 0) before cursor) :
    retained (before ++ (DraftPartitions.behind request cursor).flatMap replayed) request.position = request.partitions ↔
      Replayable request anchor := by
  constructor
  · intro hkept range hrange hcovered hfirst
    by_contra hlong
    have hstop := h.covers range hrange hcovered
    rw [← hkept] at hrange
    have hmem := (dropWhile_sublist _).subset hrange
    rcases mem_append.mp hmem with hmem | hmem
    · have := (h.chain.bounds.2 range hmem).2.2
      omega
    obtain ⟨source, -, hsource⟩ := mem_flatMap.mp hmem
    unfold replayed at hsource
    split at hsource
    · next hzero =>
      obtain rfl := mem_singleton.mp hsource
      exact hfirst hzero
    · exact hlong (rows_of_mem_eights hsource)
  · intro hsmall
    rw [flatMap_replayed h.behind]
    · exact h.kept
    intro range hrange hfirst
    have hbounds := h.behind.bounds.2 range hrange
    have hreached := h.reached
    exact hsmall range ((dropWhile_sublist _).subset hrange) (by omega) hfirst

/-! ## The replay -/

/-- What a replay of `request` needs of its context. -/
structure ReplayFits (context : TextContext) (width : Nat) (request : Request) : Prop where
  width : requirePrefillWidth width = .ok ()
  model : context.modelIdentity = request.modelIdentity
  room : request.position ≤ context.maxContext
  prepared : 8 ≤ context.continuationCapacity

/-- The context is at `position`, with the limits and the model of `context`. -/
structure At (context : TextContext) (position : Int) (s : Devices) : Prop where
  position : s.exact.position = position
  maxContext : s.exact.maxContext = context.maxContext
  continuationCapacity : s.exact.continuationCapacity = context.continuationCapacity
  modelIdentity : s.exact.modelIdentity = context.modelIdentity

theorem inVocabulary_subspan {tokens : List Int} (h : InVocabulary tokens) (first rows : Int) :
    InVocabulary (subspan tokens first rows) :=
  fun token htoken => h token (mem_of_mem_drop (mem_of_mem_take htoken))

theorem length_subspan (tokens : List Int) {rows : Int} (hfirst : 0 ≤ first) (hrows : 0 ≤ rows)
    (hstop : first + rows ≤ tokens.length) : ((subspan tokens first rows).length : Int) = rows := by
  unfold subspan
  rw [length_take, length_drop]
  omega

section Replay

variable {replay : Replay} {context : TextContext} {E : Exn → Prop}

variable {range : Range} {b : Builder} {Q : Option Builder × Int → Devices → Prop} {cursor : Int}

theorem wp_replayPartition_some {remaining : Nat}
    (h : Streaming stream b range.first remaining) (hat : At context range.first s) (hsome : 1 ≤ range.first)
    (hrows : 1 ≤ range.rows) (hle : range.rows ≤ remaining) (hhistory : range.first + range.rows ≤ replay.history.length)
    (hfits : fits → range.first + range.rows ≤ context.maxContext) {Q : Builder → Devices → Prop}
    (hQ : ∀ b' s', Streaming (stream ++ replayed range) b' range.stop (remaining - range.rows.toNat) →
      At context range.stop s' → Q b' s') :
    wp (replayPartition replay revision range (some b)) Q (Fails fits) s := by
  have hlength := length_subspan replay.history (by omega : 0 ≤ range.first) (by omega) hhistory
  unfold replayPartition
  have hposition := hat.position
  rw [← hposition] at h
  refine wp_ingest_streaming le_rfl h (by omega) ?_ fun b' hb' => ?_
  · intro hfit _
    rw [hat.maxContext, hposition, hlength]
    exact ⟨by decide, hsome, hfits hfit⟩
  have hnat : (subspan replay.history range.first range.rows).length = range.rows.toNat := by omega
  rw [hnat, hposition] at hb'
  have hstop : range.first + (range.rows.toNat : Int) = range.stop := by
    unfold Range.stop
    omega
  rw [hstop] at hb'
  refine hQ b' _ ?_ ⟨?_, hat.maxContext, hat.continuationCapacity, hat.modelIdentity⟩
  · unfold replayed
    rw [if_neg (by omega)]
    exact hb'
  simp only [TextContext.ran]
  rw [hposition, hnat, hstop]

theorem wp_replayPartition_none (hlimits : At context s.exact.position s) (hfirst : range.first = 0)
    (hrows : 1 ≤ range.rows) (hmost : range.rows ≤ 16) (hstop : range.stop ≤ replay.position)
    (hextent : replay.position ≤ int32Max) (hvocabulary : InVocabulary replay.history)
    (hfits : fits → replay.position ≤ context.maxContext ∧ 8 ≤ context.continuationCapacity)
    {Q : Builder → Devices → Prop}
    (hQ : ∀ b' s', Streaming (replayed range) b' range.stop (replay.position - range.stop).toNat →
      At context range.stop s' → Q b' s') :
    wp (replayPartition replay revision range none) Q (Fails fits) s := by
  have hend : range.stop = range.rows := by
    unfold Range.stop
    omega
  have hhistory : range.first + range.rows ≤ replay.history.length := by
    unfold Replay.position at hstop
    omega
  have hlength := length_subspan replay.history (by omega : 0 ≤ range.first) (by omega) hhistory
  unfold replayPartition
  rw [wp_bind]
  refine wp_initializeRequest_streamed ?_ fun root hroot _ _ _ hposition => ?_
  · intro hfit
    obtain ⟨hroom, hprepared⟩ := hfits hfit
    refine ⟨by decide, ?_, ?_, ?_, inVocabulary_subspan hvocabulary _ _⟩
    · apply length_pos_iff.mp
      omega
    · rw [hlimits.maxContext]
      omega
    · rw [hlimits.continuationCapacity]
      exact hprepared
  have hroots : rootStream (subspan replay.history range.first range.rows).length = replayed range := by
    unfold replayed
    rw [rootStream_single (by omega), if_pos hfirst, hlength, ← hfirst]
  rw [hroots] at hroot
  rw [hlength, ← hend] at hposition
  refine wp_plan_streaming hroot (by omega) fun b' hb' => ?_
  rw [hposition] at hb'
  refine hQ b' _ hb' ⟨?_, hlimits.maxContext, hlimits.continuationCapacity, hlimits.modelIdentity⟩
  simp only [TextContext.ran]
  omega

theorem replayPartitions_skip (ranges : List Range) (restored : Option Builder) (cursor : Int) :
    replayPartitions replay revision ranges restored cursor =
      replayPartitions replay revision (ranges.dropWhile fun range => range.stop ≤ cursor) restored cursor := by
  induction ranges with
  | nil => rfl
  | cons range rest ih =>
    by_cases hold : range.stop ≤ cursor
    · rw [replayPartitions, if_pos hold, dropWhile_cons_of_pos (by simpa using hold)]
      exact ih
    · rw [dropWhile_cons_of_neg (by simpa using hold)]

theorem wp_replayPartitions_some {ranges : List Range} (hchain : Chain cursor ranges replay.position)
    (h : Streaming stream b cursor (replay.position - cursor).toNat) (hat : At context cursor s) (hsome : 1 ≤ cursor)
    (hfits : fits → replay.position ≤ context.maxContext)
    (hQ : ∀ b' s', Streaming (stream ++ ranges.flatMap replayed) b' replay.position 0 →
      At context replay.position s' → Q (some b', replay.position) s') :
    wp (replayPartitions replay revision ranges (some b) cursor) Q (Fails fits) s := by
  induction ranges generalizing stream b cursor s with
  | nil =>
    obtain rfl : cursor = replay.position := hchain
    refine hQ b s ?_ hat
    simpa using h
  | cons range rest ih =>
    obtain ⟨hfirst, hone, hmost, hrest⟩ := hchain
    subst hfirst
    have hbounds := hrest.bounds.1
    have hstop : range.stop = range.first + range.rows := rfl
    have hposition : replay.position = replay.history.length := rfl
    rw [replayPartitions, if_neg (by omega), wp_bind]
    refine wp_check_never (by simp) ?_
    rw [wp_bind]
    refine wp_replayPartition_some h hat hsome hone (by omega) (by omega) ?_ fun b' s' hb' hat' => ?_
    · intro hfit
      have := hfits hfit
      omega
    have hleft : (replay.position - range.first).toNat - range.rows.toNat = (replay.position - range.stop).toNat := by
      omega
    rw [hleft] at hb'
    refine ih hrest hb' hat' (by omega) fun b'' s'' hb'' => ?_
    rw [append_assoc] at hb''
    exact hQ b'' s'' hb''

theorem wp_replayPartitions {request : Request} {checkpoint : Int} {before : List Range}
    {restored : Option Builder} (hpartitions : replay.partitions = request.partitions)
    (hposition : replay.position = request.position) (hextent : request.position ≤ int32Max)
    (hpositive : 1 ≤ request.position) (hvocabulary : InVocabulary replay.history)
    (hstarted : Started request checkpoint before cursor)
    (hsome : ∀ b, restored = some b → Streaming before b cursor (replay.position - cursor).toNat ∧
      At context cursor s ∧ 1 ≤ cursor)
    (hnone : restored = none → before = [] ∧ cursor = 0 ∧ At context s.exact.position s)
    (hfits : fits → replay.position ≤ context.maxContext ∧ 8 ≤ context.continuationCapacity)
    (hQ : ∀ b' s', Streaming (before ++ (behind request cursor).flatMap replayed) b' replay.position 0 →
      At context replay.position s' → Q (some b', replay.position) s') :
    wp (replayPartitions replay revision replay.partitions restored cursor) Q (Fails fits) s := by
  have hbehind := hstarted.behind
  rw [replayPartitions_skip, hpartitions]
  change wp (replayPartitions replay revision (behind request cursor) restored cursor) Q (Fails fits) s
  cases restored with
  | some b =>
    obtain ⟨hb, hat, hcursor⟩ := hsome b rfl
    rw [← hposition] at hbehind
    exact wp_replayPartitions_some hbehind hb hat hcursor (fun hfit => (hfits hfit).1) hQ
  | none =>
    obtain ⟨rfl, rfl, hlimits⟩ := hnone rfl
    revert hbehind hQ
    cases behind request 0 with
    | nil =>
      intro hbehind
      have hzero : (0 : Int) = request.position := hbehind
      omega
    | cons range rest =>
      intro ⟨hfirst, hone, hmost, hrest⟩ hQ
      have hstop : range.stop = range.first + range.rows := rfl
      have hbounds := hrest.bounds.1
      rw [replayPartitions, if_neg (by omega), wp_bind]
      refine wp_check_never (by simp [hfirst]) ?_
      rw [wp_bind]
      refine wp_replayPartition_none hlimits hfirst hone hmost (by omega) (by omega) hvocabulary hfits
        fun b' s' hb' hat' => ?_
      have hcursor : 0 + range.rows = range.stop := by omega
      rw [hcursor]
      rw [← hposition] at hrest
      refine wp_replayPartitions_some hrest hb' hat' (by omega) (fun hfit => (hfits hfit).1) fun b'' s'' hb'' => ?_
      exact hQ b'' s'' (by exact hb'')

end Replay

section Restore

variable {anchor : Option Request}

/-- The plan of `request`. -/
def planned (request : Request) (anchor : Option Request) : Replay :=
  { history := request.history, modelIdentity := request.modelIdentity, anchor, partitions := request.partitions }

section
variable (hs : Streamed request stream)
include hs

theorem replayPlan_ok
    (hanchor : ∀ a, anchor = some a → Ancestor request stream a ∧ request.replayAnchorRevision = some a.revision) :
    replayPlan request anchor = .ok (planned request anchor) := by
  have hposition := hs.position
  have hunprepared : ¬ (request.prepared = true ∨ (anchor.any fun a => a.prepared) = true) := by
    rw [hs.unprepared]
    cases anchor with
    | none => simp
    | some a =>
      obtain ⟨⟨⟨_, _, -, ha⟩, -, -⟩, -⟩ := hanchor a rfl
      simp [ha.unprepared]
  have hbound : ¬ (anchor.any fun a => some a.revision ≠ request.replayAnchorRevision ||
      a.position ≥ request.position) = true := by
    cases anchor with
    | none => simp
    | some a =>
      obtain ⟨ha, hrevision⟩ := hanchor a rfl
      have hlt := ha.position
      simp [hrevision, hlt]
  have hhost : ¬ (anchor.any fun a => a.projected.isSome) = true := by
    cases anchor with
    | none => simp
    | some a =>
      obtain ⟨⟨⟨_, _, -, ha⟩, -, -⟩, -⟩ := hanchor a rfl
      simp [ha.host]
  unfold replayPlan throwIf
  rw [if_neg hunprepared, if_neg (by rw [hposition]; simp), if_neg hbound, if_neg hhost]
  rfl

section
variable (hvocabulary : InVocabulary request.history) (hanchor : ∀ a, anchor = some a → Ancestor request stream a)
include hvocabulary hanchor

/-- The rows before the first retained partition, or the checkpoint. -/
theorem wp_restorePrefix {first : Int} (hfront : request.partitions.head?.map (·.first) = some first)
    (hfits : fits → ReplayFits s.exact width request) {Q : Option Request × Int → Devices → Prop}
    (hQ : ∀ before current cursor s', Started request ((anchor.map fun a => a.position).getD 0) before cursor →
      (∀ c, current = some c → Streamed c before ∧ c.position = cursor ∧ At s.exact cursor s') →
      (current = none → before = [] ∧ cursor = 0 ∧ At s.exact s'.exact.position s') → cursor ≤ request.position →
      Q (current, cursor) s') :
    wp (restorePrefix (planned request anchor) revision width first) Q (Fails fits) s := by
  obtain ⟨evicted, front, rest, hstream, hpartitions, hevicted, hkept, -, -⟩ := hs.split
  have hfirst : front.first = first := by
    rw [hpartitions] at hfront
    exact some.inj hfront
  rw [hfirst] at hevicted hkept
  have hfirstLe := hkept.bounds.1
  have hhistory := hs.position
  unfold restorePrefix
  dsimp only [planned, Replay.checkpointPosition]
  cases anchor with
  | none =>
    simp only [map_none, getD_none] at hQ ⊢
    split
    · next hlt =>
      have hlength := length_subspan request.history (Int.le_refl 0) (by omega : 0 ≤ first) (by omega)
      rw [wp_bind]
      refine wp_initializeRequest_streamed ?_ fun root hroot _ _ _ hposition => ?_
      · intro hfit
        obtain ⟨hwidth, -, hroom, hprepared⟩ := hfits hfit
        refine ⟨hwidth, length_pos_iff.mp (by omega), by omega, hprepared, inVocabulary_subspan hvocabulary _ _⟩
      rw [hlength] at hposition
      have hchain := hroot.chain
      rw [hposition] at hchain
      refine hQ _ _ _ _ (started_of_chain hs hfront (Int.le_refl 0) hlt hchain) ?_ (by simp) hfirstLe
      intro c hc
      cases hc
      refine ⟨hroot, hposition, ⟨?_, rfl, rfl, rfl⟩⟩
      simp only [TextContext.ran]
      omega
    next hle =>
    refine hQ [] none 0 s (started_checkpoint hs hfront (by omega) rfl rfl) (by simp) ?_ (by omega)
    exact fun _ => ⟨rfl, rfl, rfl, rfl, rfl, rfl⟩
  | some a =>
    obtain ⟨⟨before, after, hsplit, ha⟩, hbehind, hmodel⟩ := hanchor a rfl
    have hpositive := ha.some_row
    simp only [map_some, getD_some] at hQ ⊢
    split
    · next hlt =>
      have hlength := length_subspan request.history (by omega : 0 ≤ a.position)
        (by omega : 0 ≤ first - a.position) (by omega)
      rw [wp_bind]
      refine wp_appendPrompt_streamed ha ?_ fun result hresult _ _ _ _ _ hposition => ?_
      · intro hfit
        obtain ⟨hwidth, hsame, hroom, hprepared⟩ := hfits hfit
        refine ⟨hwidth, length_pos_iff.mp (by omega), by omega, hprepared, inVocabulary_subspan hvocabulary _ _, ?_⟩
        rw [hmodel, hsame]
      have hend : result.position = first := by omega
      have hchain := hresult.chain
      rw [hend] at hchain
      refine hQ _ _ _ _ (started_of_chain hs hfront (by omega) hlt hchain) ?_ (by simp) hfirstLe
      intro c hc
      cases hc
      refine ⟨hresult, hend, ⟨?_, rfl, rfl, rfl⟩⟩
      simp only [TextContext.ran]
      omega
    next hle =>
    rw [wp_bind]
    refine wp_restoreState_fails ha ?_ fun _ _ => ?_
    · intro hfit
      obtain ⟨-, hsame, hroom, -⟩ := hfits hfit
      exact ⟨by rw [hmodel, hsame], by omega⟩
    refine hQ before _ _ _ (started_checkpoint hs hfront (by omega) hsplit ha.chain) ?_ (by simp) (by omega)
    intro c hc
    cases hc
    exact ⟨ha, rfl, rfl, rfl, rfl, rfl⟩

/-- The replay up to its last checks: the rows are back, and the partitions are the ones that the
    blocks of eight rows retain. -/
theorem wp_restore (hfits : fits → ReplayFits s.exact width request) {Q : Request → Devices → Prop} {E : Exn → Prop}
    (hE : ∀ e s', Fails fits e s' → E e)
    (hQ : ∀ before cursor b s', Started request ((anchor.map fun a => a.position).getD 0) before cursor →
      Streaming (before ++ (behind request cursor).flatMap replayed) b request.position 0 →
      s'.exact.position = request.position →
      wp (finishRestore (planned request anchor) revision (some b) request.position) Q (fun e _ => E e) s') :
    wp (restore (planned request anchor) revision width) Q (fun e _ => E e) s := by
  obtain ⟨-, front, rest, -, hpartitions, -⟩ := hs.split
  have hposition : (planned request anchor).position = request.position := hs.position.symm
  have hfront : request.partitions.head?.map (·.first) = some front.first := by
    rw [hpartitions]
    rfl
  unfold restore
  rw [wp_bind]
  refine wp_mono (E := Fails fits) (wp_width_fails (Q := fun _ s' => s = s') (fun hfit => (hfits hfit).width) rfl) ?_ hE
  rintro _ _ rfl
  rw [wp_bind, wp_get]
  dsimp only
  rw [wp_bind]
  refine wp_mono (E := Fails fits) (wp_check_fails (Q := fun _ s' => s = s') ?_ (by simp) fun _ => rfl) ?_ hE
  · intro hfit
    obtain ⟨-, hmodel, hroom, -⟩ := hfits hfit
    rintro (hother | hlong)
    · exact hother hmodel
    · omega
  rintro _ _ rfl
  refine wp_recovering_any ?_
  have hmatch : (planned request anchor).partitions = front :: rest := hpartitions
  rw [hmatch]
  dsimp only
  rw [← hmatch, wp_bind]
  -- the loop, from a start that the prefix has made
  have hloop : ∀ before cursor restored s', Started request ((anchor.map fun a => a.position).getD 0) before cursor →
      (∀ b, restored = some b → Streaming before b cursor (request.position - cursor).toNat ∧
        At s.exact cursor s' ∧ 1 ≤ cursor) →
      (restored = none → before = [] ∧ cursor = 0 ∧ At s.exact s'.exact.position s') →
      wp (replayPartitions (planned request anchor) revision (planned request anchor).partitions restored cursor)
        (fun replayed => wp (finishRestore (planned request anchor) revision replayed.1 replayed.2) Q (fun e _ => E e))
        (fun e _ => E e) s' := by
    intro before cursor restored s' hstarted hsome hnone
    rw [← hposition] at hsome
    refine wp_mono (E := Fails fits) (wp_replayPartitions rfl hposition hs.extent hs.some_row hvocabulary hstarted hsome
      hnone ?_ ?_) (fun _ _ h => h) hE
    · intro hfit
      obtain ⟨-, -, hroom, hprepared⟩ := hfits hfit
      exact ⟨by omega, hprepared⟩
    intro b' s'' hb' hat'
    rw [hposition] at hb' hat' ⊢
    exact hQ before cursor b' s'' hstarted hb' hat'.position
  refine wp_mono (E := Fails fits) (wp_restorePrefix hs hvocabulary hanchor hfront hfits ?_) (fun _ _ h => h) hE
  intro before current cursor s' hstarted hsome hnone hcursor
  simp only [wp_bind]
  cases current with
  | none =>
    obtain ⟨hbefore, hzero, hlimits⟩ := hnone rfl
    exact hloop before cursor none s' hstarted (by simp) fun _ => ⟨hbefore, hzero, hlimits⟩
  | some c =>
    obtain ⟨hc, hat, hlimits⟩ := hsome c rfl
    have hpositive := hc.some_row
    have hextent := hs.extent
    unfold planRestored
    simp only [wp_bind]
    refine wp_plan_streaming hc (by omega) fun b hb => ?_
    rw [hposition, hat] at hb
    refine hloop before cursor _ s' hstarted ?_ (by simp)
    intro b' hb'
    cases hb'
    exact ⟨hb, hlimits, by omega⟩

end

end

end Restore

/-! ## Which requests come back -/

/-- `restored` stands for `request`: its tokens, its position, its partitions and their blocks. -/
structure Restored (request restored : Request) : Prop where
  history : restored.history = request.history
  position : restored.position = request.position
  blocks : restored.blocks = request.partitions
  partitions : restored.partitions = request.partitions

section Outcome

variable {anchor : Option Request} {b : Builder} {older : List Request}

theorem wp_finishRestore_ok (hs : Streamed request stream) (hb : b.blocks = b.partitions)
    (hkept : b.partitions = request.partitions) (hposition : s.exact.position = request.position)
    {E : Exn → Devices → Prop} :
    wp (finishRestore (planned request anchor) revision (some b) request.position)
      (fun restored _ => Restored request restored) E s := by
  have hend : (planned request anchor).position = request.position := hs.position.symm
  have hblocks : b.blocks = (planned request anchor).partitions := hb.trans hkept
  unfold finishRestore
  rw [wp_bind]
  refine wp_check_never ?_ ?_
  · rw [hend, hblocks]
    simp
  rw [wp_bind]
  refine wp_check_never (by simp [hblocks]) ?_
  exact ⟨rfl, hposition, hblocks, hkept⟩

theorem wp_finishRestore_changed (hchanged : b.blocks ≠ request.partitions) :
    wp (finishRestore (planned request anchor) revision (some b) request.position)
      (fun _ _ => False) (fun e _ => ∃ what, e = .logicError what) s := by
  have hlogic {bad : Prop} [Decidable bad] {what : String} {Q : Unit → Devices → Prop} (hQ : ¬ bad → Q () s) :
      wp (check bad (.logicError what)) Q (fun e _ => ∃ what, e = .logicError what) s := by
    unfold check
    rw [wp_ofExcept]
    exact ⟨fun _ hok => hQ (throwIf_ok.mp hok), fun e he => ⟨what, (throwIf_error he).2⟩⟩
  unfold finishRestore
  rw [wp_bind]
  refine hlogic fun _ => ?_
  rw [wp_bind]
  refine hlogic fun hsame => ?_
  exact absurd (not_not.mp hsame) hchanged

/-- A context that fits. -/
def fittingContext (request : Request) : Devices where
  exact := { position := 0, maxContext := int32Max, continuationCapacity := 8, modelIdentity := request.modelIdentity
             credited := false, maxContext_range := by decide }
  draft := 0

theorem replay_iff (hs : Streamed request stream) (hvocabulary : InVocabulary request.history)
    (hanchor : ∀ a, anchor = some a → Ancestor request stream a ∧ request.replayAnchorRevision = some a.revision) :
    (∀ width s, wp (coldReplay request anchor revision width) (fun restored _ => Restored request restored)
      (Fails (ReplayFits s.exact width request)) s) ↔ Replayable request anchor := by
  have hplan := replayPlan_ok hs hanchor
  have hancestor (a : Request) (ha : anchor = some a) := (hanchor a ha).1
  constructor
  · intro hall
    by_contra hcut
    have hfits : ReplayFits (fittingContext request).exact 8 request := ⟨rfl, rfl, hs.extent, Int.le_refl 8⟩
    have hthrows : wp (coldReplay request anchor revision 8) (fun _ _ => False)
        (fun e _ => ∃ what, e = .logicError what) (fittingContext request) := by
      unfold coldReplay
      rw [wp_bind]
      refine wp_ofOk hplan (wp_restore hs hvocabulary hancestor (fun _ : True => hfits) ?_ ?_)
      · intro e s' hfails
        exact (hfails.1 trivial).elim
      intro before cursor b s' hstarted hb hposition
      refine wp_finishRestore_changed ?_
      rw [hb.blocks, hb.partitions]
      exact fun hkept => hcut (hstarted.retained_iff.mp hkept)
    have hboth := wp_and (hall 8 _) hthrows
    unfold wp at hboth
    split at hboth
    · exact hboth.2
    obtain ⟨⟨hnot, -⟩, -⟩ := hboth
    exact hnot hfits
  · intro hsmall width s
    unfold coldReplay
    rw [wp_bind]
    refine wp_ofOk hplan (wp_restore hs hvocabulary hancestor (fun hfit => hfit) (fun _ _ h => h) ?_)
    intro before cursor b s' hstarted hb hposition
    refine wp_finishRestore_ok hs hb.blocks ?_ hposition
    rw [hb.partitions]
    exact hstarted.retained_iff.mpr hsmall

/-- A request is replayed in every context, from the checkpoint it is bound to or from its first
    row, exactly if all retained partitions behind that have at most eight rows, the first of all
    apart: then the replay never fails with a `logic_error`, it returns where the context fits, and
    it returns the tokens, the position and the partitions of the request. -/
theorem cold_replay_restores_iff (hlineage : Lineage request older)
    (hanchor : ∀ a, anchor = some a → a ∈ older ∧ request.replayAnchorRevision = some a.revision) (revision : Nat) :
    (∀ width s, wp (coldReplay request anchor revision width) (fun restored _ => Restored request restored)
      (Fails (ReplayFits s.exact width request)) s) ↔ Replayable request anchor := by
  obtain ⟨stream, hs, hvocabulary, hancestors⟩ := hlineage.streamed
  exact replay_iff hs hvocabulary fun a ha => ⟨hancestors a (hanchor a ha).1, (hanchor a ha).2⟩

end Outcome

/-! ## Runs -/

/-- An idle context of so many rows. -/
def idleDevices (maxContext : Int) (h : 0 < maxContext ∧ maxContext ≤ int32Max) : Devices where
  exact := { position := 0, maxContext, continuationCapacity := 16, modelIdentity := 1, credited := false
             maxContext_range := h }
  draft := 0

theorem committing_vocabulary {position maxContext : Int} {tentative committed : List Int} {hrow : 0 < committed.length}
    {hwithin : committed.length ≤ tentative.length} {verified : Verified position maxContext tentative}
    (hcommitted : InVocabulary committed)
    (h : (committing position tentative committed hrow hwithin).call maxContext = .ok verified) :
    InVocabulary verified.committedTokens := by
  simp only [committing] at h
  split at h
  · cases h
    exact hcommitted
  · cases h

/-- A prompt that fills the draft ring, two rows more, and eight that a verification committed. -/
def longRun : Option (Request × Request × Request) :=
  match initializeRequest 1 (replicate 2072 5) 1024 false (idleDevices 4096 (by decide)) with
  | .error .. => none
  | .ok root s =>
    match appendPrompt root 2 [6, 7] 8 s with
    | .error .. => none
    | .ok parent s =>
      if s.exact.modelIdentity ≠ parent.modelIdentity then none
      else
        match verify parent 3 (replicate 8 6)
          (committing parent.position (replicate 8 6) (replicate 8 6) (by decide) (Nat.le_refl _)) s with
        | .error .. => none
        | .ok child _ => some (root, parent, child)

theorem longRun_lineage {root parent child : Request} (h : longRun = some (root, parent, child)) :
    Lineage child [parent, root] := by
  unfold longRun at h
  split at h
  · cases h
  next hroot =>
  split at h
  · cases h
  next hparent =>
  split at h
  · cases h
  next hmodel =>
  split at h
  · cases h
  next hchild =>
  cases h
  refine .verify (.append (.root hroot) hparent) (not_not.mp hmodel) (fun maxContext verified hcall => ?_) hchild
  exact committing_vocabulary (by decide) hcall

/-- The first partitions are evicted, and any context with room for the request extends the
    checkpoint by the others. -/
theorem cold_replay_restores_iff_evicted : ∃ root parent child, Lineage child [parent, root] ∧ child.position = 2082 ∧
    child.partitions.head? = some ⟨32, 8⟩ ∧ child.partitions.getLast? = some ⟨2074, 8⟩ ∧
    ∀ width s, wp (coldReplay child (some root) 4 width) (fun restored _ => Restored child restored)
      (Fails (ReplayFits s.exact width child)) s := by
  have hrun : longRun.any (fun (root, _, child) => decide (child.position = 2082 ∧
      child.partitions.head? = some ⟨32, 8⟩ ∧ child.partitions.getLast? = some ⟨2074, 8⟩ ∧
      child.replayAnchorRevision = some root.revision ∧ ∀ range ∈ child.partitions, range.rows ≤ 8)) = true := by
    decide +kernel
  obtain ⟨⟨root, parent, child⟩, hrun, htest⟩ := (Option.any_eq_true _ _).mp hrun
  obtain ⟨hposition, hhead, hlast, hanchor, hsmall⟩ := of_decide_eq_true htest
  have hreplay : Replayable child (some root) := fun range hrange _ _ => hsmall range hrange
  refine ⟨root, parent, child, longRun_lineage hrun, hposition, hhead, hlast,
    (cold_replay_restores_iff (longRun_lineage hrun) (fun a ha => ?_) 4).mpr hreplay⟩
  cases ha
  exact ⟨mem_cons_of_mem _ mem_cons_self, hanchor⟩

/-- The request of `tokens` at its own position. -/
def smallRequest (revision : Nat) (parent : Option Nat) (tokens : List Int) (partitions : List Range) : Request where
  revision := revision
  parentRevision := parent
  replayAnchorRevision := none
  history := tokens
  state := some { position := tokens.length, modelIdentity := 1, nativeExtentValid := fun m => decide ((tokens.length : Int) ≤ m) }
  partitions := partitions
  blocks := partitions

def rootRequest : Request := smallRequest 1 none [5] [⟨0, 1⟩]

def verifiedRequest : Request := smallRequest 2 (some 1) (5 :: replicate 9 6) [⟨0, 1⟩, ⟨1, 9⟩]

/-- Nine rows verified at once come back as two blocks. -/
theorem replay_splits_nine_rows :
    Lineage verifiedRequest [rootRequest] ∧
      ∃ s', coldReplay verifiedRequest none 3 1024 (idleDevices 64 (by decide)) =
        .error (.logicError "cold replay final state/partition extent") s' := by
  have hroot : Lineage rootRequest [] :=
    .root (rfl : initializeRequest 1 [5] 8 false (idleDevices 64 (by decide)) = .ok rootRequest _)
  have hverify : verify rootRequest 2 (replicate 9 6)
      (committing 1 (replicate 9 6) (replicate 9 6) (by decide) (Nat.le_refl _)) (idleDevices 64 (by decide)) =
    .ok verifiedRequest _ := rfl
  exact ⟨.verify hroot rfl (fun _ _ h => committing_vocabulary (by decide) h) hverify, _, rfl⟩

end VoidInfer.Exl3.DraftPartitions
