import VoidInfer.Exl3.DraftPartitionsRun

/-
  `Exl3VeriCacheReplay`: a request put aside as its tokens, its draft partitions and at most one checkpoint, and run
  again from these. The rows before the first retained partition are run in the calls of the prefill width; the retained
  partitions are ingested one by one, eight rows to a block.

  All the ranges a request ever had, with the evicted ones, are its stream; its partitions are the ones of the stream
  that reach into the ring (`retained`).
-/

namespace VoidInfer.Exl3.DraftPartitions
open List

open Throwing

/-! ## Replay -/

structure Replay where
  history : List Int
  modelIdentity : Nat
  anchor : Option Request
  partitions : List Range

def Replay.position (replay : Replay) : Int := replay.history.length

def Replay.checkpointPosition (replay : Replay) : Int := (replay.anchor.map fun anchor => anchor.position).getD 0

def replayPlan (request : Request) (anchor : Option Request) : Except Exn Replay := do
  throwIf (request.prepared = true ∨ (anchor.any fun a => a.prepared) = true)
    (.logicError "prepared media cannot be reconstructed by token-only replay")
  throwIf ((request.history.length : Int) ≠ request.position)
    (.logicError "authoritative token/state position mismatch")
  throwIf ((anchor.any fun a => some a.revision ≠ request.replayAnchorRevision || a.position ≥ request.position) = true)
    (.invalidArgument "replay checkpoint is not the bound prefix ancestor")
  throwIf ((anchor.any fun a => a.projected.isSome) = true)
    (.invalidArgument "compact prefix-anchor replay needs explicit draft streaming")
  return { history := request.history, modelIdentity := request.modelIdentity, anchor, partitions := request.partitions }

/-- `view.subspan(first, rows)`. -/
def subspan (tokens : List Int) (first rows : Int) : List Int := (tokens.drop first.toNat).take rows.toNat

/-- Up to the first retained partition: the checkpoint extended, or the prefix run afresh. -/
def restorePrefix (replay : Replay) (revision width : Nat) (first : Int) : Exec (Option Request × Int) :=
  let cursor := replay.checkpointPosition
  if cursor < first then do
    let current ← match replay.anchor with
      | some anchor => appendPrompt anchor revision (subspan replay.history cursor (first - cursor)) width
      | none => initializeRequest revision (subspan replay.history 0 first) width false
    return (some current, first)
  else
    match replay.anchor with
    | some anchor => do
      restoreExactHostState anchor.state
      return (some anchor, cursor)
    | none => return (none, cursor)

/-- The result's storage, once there is a request to continue. -/
def planRestored (current : Option Request) (incomingRows : Int) : Exec (Option Builder) :=
  match current with
  | some request => do
    let b ← plan (some request) incomingRows.toNat true
    return some b
  | none => return none

/-- One retained partition, run again in calls of eight rows; the first rows of all are a root's. -/
def replayPartition (replay : Replay) (revision : Nat) (range : Range) (restored : Option Builder) : Exec Builder :=
  let view := subspan replay.history range.first range.rows
  match restored with
  | some b => ingestPromptSuffix 8 false false view.length view b
  | none => do
    let current ← initializeRequest revision view 8 false
    plan (some current) (replay.position - range.stop).toNat true

/-- The loop over the partitions; those before the cursor are in the checkpoint. -/
def replayPartitions (replay : Replay) (revision : Nat) :
    List Range → Option Builder → Int → Exec (Option Builder × Int)
  | [], restored, cursor => return (restored, cursor)
  | range :: rest, restored, cursor =>
    if range.stop ≤ cursor then replayPartitions replay revision rest restored cursor
    else do
      check (range.first ≠ cursor) (.logicError "cold replay checkpoint cuts a draft partition")
      let b ← replayPartition replay revision range restored
      replayPartitions replay revision rest (some b) (cursor + range.rows)

/-- The last checks, and the request. -/
def finishRestore (replay : Replay) (revision : Nat) (restored : Option Builder) (cursor : Int) : Exec Request :=
  match restored with
  | none => throw (.logicError "cold replay final state/partition extent")
  | some b => do
    check (cursor ≠ replay.position ∨ b.blocks.length ≠ replay.partitions.length)
      (.logicError "cold replay final state/partition extent")
    check (b.blocks ≠ replay.partitions) (.logicError "cold replay changed retained draft partitions")
    let state ← exportExactHostState
    let parent := replay.anchor.map fun anchor => anchor.revision
    return b.finish { revision, parentRevision := parent, replayAnchorRevision := parent, history := replay.history, state }

/-- `restore`; what fails resets the context. -/
def restore (replay : Replay) (revision width : Nat) : Exec Request := do
  MonadExcept.ofExcept (requirePrefillWidth width)
  let s ← get
  check (s.exact.modelIdentity ≠ replay.modelIdentity ∨ replay.position > s.exact.maxContext)
    (.invalidArgument "cold replay numerical reference or position mismatch")
  recovering (fun s => { s with exact := { s.exact with position := 0 } }) do
    match replay.partitions with
    | [] => throw (.logicError "cold replay draft partitions missing")
    | front :: _ => do
      let started ← restorePrefix replay revision width front.first
      let restored ← planRestored started.1 (replay.position - started.2)
      let replayed ← replayPartitions replay revision replay.partitions restored started.2
      finishRestore replay revision replayed.1 replayed.2

/-- `request.replay_plan(anchor).restore(exact, width)`. -/
def coldReplay (request : Request) (anchor : Option Request) (revision width : Nat) : Exec Request := do
  let replay ← MonadExcept.ofExcept (replayPlan request anchor)
  restore replay revision width

/-! ## Streams -/

/-- The ranges that reach into the ring of a request at `position`. -/
def retained (stream : List Range) (position : Int) : List Range :=
  stream.dropWhile fun range => range.stop ≤ position - ringCapacity

/-- `rows` rows from `first` on, eight to a range. -/
def eights (first : Int) (rows : Nat) : List Range :=
  if _ : rows = 0 then []
  else ⟨first, (min 8 rows : Nat)⟩ :: eights (first + (min 8 rows : Nat)) (rows - min 8 rows)
termination_by rows

variable {stream ranges : List Range} {start first position stop : Int} {rows : Nat}

theorem eights_zero (first : Int) : eights first 0 = [] := by
  rw [eights]
  rfl

theorem eights_single (hsome : 0 < rows) (hmost : rows ≤ 8) (first : Int) : eights first rows = [⟨first, rows⟩] := by
  rw [eights, dif_neg (by omega), show min 8 rows = rows by omega, Nat.sub_self, eights_zero]

theorem eights_eight (first : Int) (rows : Nat) : eights first (8 + rows) = ⟨first, 8⟩ :: eights (first + 8) rows := by
  rw [eights, dif_neg (by omega), show min 8 (8 + rows) = 8 by omega, Nat.add_sub_cancel_left]
  rfl

theorem eights_append (first : Int) (blocks rows : Nat) :
    eights first (8 * blocks + rows) = eights first (8 * blocks) ++ eights (first + 8 * blocks) rows := by
  induction blocks generalizing first with
  | zero =>
    rw [Nat.mul_zero, eights_zero, Nat.zero_add, nil_append]
    simp
  | succ blocks ih =>
    have hmore : 8 * (blocks + 1) + rows = 8 + (8 * blocks + rows) := by omega
    have hhere : 8 * (blocks + 1) = 8 + 8 * blocks := by omega
    have hbase : first + 8 * ((blocks + 1 : Nat) : Int) = first + 8 + 8 * (blocks : Int) := by omega
    rw [hmore, hhere, eights_eight, eights_eight, ih, cons_append, hbase]

theorem rows_of_mem_eights {range : Range} (h : range ∈ eights first rows) : range.rows ≤ 8 := by
  induction rows using Nat.strongRecOn generalizing first with
  | _ rows ih =>
    rw [eights] at h
    split at h
    · simp at h
    next hrows =>
    rcases mem_cons.mp h with rfl | h
    · dsimp only
      omega
    · exact ih _ (by omega) h

theorem Chain.bounds (h : Chain start ranges stop) :
    start ≤ stop ∧ ∀ range ∈ ranges, start ≤ range.first ∧ range.first < range.stop ∧ range.stop ≤ stop := by
  induction ranges generalizing start with
  | nil =>
    have h : start = stop := h
    exact ⟨by omega, by simp⟩
  | cons range rest ih =>
    obtain ⟨hfirst, hone, -, hrest⟩ := h
    obtain ⟨hle, hmembers⟩ := ih hrest
    unfold Range.stop at *
    refine ⟨by omega, forall_mem_cons.mpr ⟨by omega, fun r hr => ?_⟩⟩
    have := hmembers r hr
    omega

theorem Chain.split {before after : List Range} (h : Chain start (before ++ after) stop) :
    ∃ middle, Chain start before middle ∧ Chain middle after stop := by
  induction before generalizing start with
  | nil => exact ⟨start, rfl, h⟩
  | cons range rest ih =>
    obtain ⟨middle, hrest, hafter⟩ := ih h.2.2.2
    exact ⟨middle, ⟨h.1, h.2.1, h.2.2.1, hrest⟩, hafter⟩

theorem evict_eq_dropWhile {oldest : Int} (ranges : List Range) (last : Range) (hlast : oldest < last.stop) :
    evict oldest (ranges ++ [last]) = (ranges ++ [last]).dropWhile fun range => range.stop ≤ oldest := by
  have hkeep : decide (last.stop ≤ oldest) = false := by simpa using hlast
  induction ranges with
  | nil => simp [evict, hkeep]
  | cons range rest ih =>
    obtain ⟨next, more, hnext⟩ := exists_cons_of_ne_nil (append_ne_nil_of_right_ne_nil rest (cons_ne_nil last []))
    rw [hnext] at ih
    rw [cons_append, hnext, evict, dropWhile_cons]
    simp only [decide_eq_true_eq]
    split
    · exact ih
    · rfl

theorem dropWhile_dropWhile_append {α : Type} {p q : α → Bool} (hpq : ∀ a, q a = true → p a = true) (l more : List α) :
    (l.dropWhile q ++ more).dropWhile p = (l ++ more).dropWhile p := by
  induction l with
  | nil => rfl
  | cons a rest ih =>
    rw [dropWhile_cons]
    split
    · next hq => rw [ih, cons_append, dropWhile_cons, if_pos (hpq a hq)]
    · rfl

theorem push_retained {rows : Int} (hrows : 1 ≤ rows) (hmost : rows ≤ 16) (stream : List Range) (position : Int) :
    push (retained stream position) position rows = retained (stream ++ [⟨position, rows⟩]) (position + rows) := by
  have hring : (ringCapacity : Int) = 2048 := rfl
  unfold push retained
  rw [evict_eq_dropWhile _ _ (by unfold Range.stop; dsimp only; omega)]
  apply dropWhile_dropWhile_append
  intro range hold
  simp only [decide_eq_true_eq] at hold ⊢
  omega

/-! ## Filling a builder -/

/-- How a replay throws: not where it `fits`, and never with a `logic_error`. -/
def Fails (fits : Prop) : Exn → Devices → Prop := fun e _ => ¬ fits ∧ ∀ what, e ≠ .logicError what

/-- A builder that holds what `stream` retains, with `remaining` rows to come. -/
structure Streaming (stream : List Range) (b : Builder) (first : Int) (remaining : Nat) : Prop where
  ready : Ready b first remaining
  extent : first + remaining ≤ int32Max
  blocks : b.blocks = b.partitions
  chain : Chain 0 stream first
  partitions : b.partitions = retained stream first

section Filling

variable {s : Devices} {b : Builder} {remaining count : Nat} {E : Exn → Devices → Prop}

theorem append_streaming (h : Streaming stream b first remaining) (hcount : 0 < count) (hmost : count ≤ 16)
    (hle : count ≤ remaining) :
    append b first count = .ok (b.pushed first count) ∧
      Streaming (stream ++ [⟨first, count⟩]) (b.pushed first count) (first + count) (remaining - count) := by
  have hextent := h.extent
  have hnonneg := h.chain.bounds.1
  obtain ⟨happend, hready⟩ := append_ok h.ready hnonneg hcount hmost hle (by omega)
  refine ⟨happend, hready, by omega, ?_, h.chain.concat (by omega) (by omega), ?_⟩
  · simp [Builder.pushed, h.blocks]
  · show push b.partitions first count = _
    rw [h.partitions, push_retained (by omega) (by omega)]

variable {Q : Builder → Devices → Prop} {actualTail : Bool}

section
variable (h : Streaming stream b first remaining)
include h

theorem wp_retain_streaming (hcount : 0 < count) (hmost : count ≤ 16) (hle : count ≤ remaining)
    (hQ : ∀ b', Streaming (stream ++ [⟨first, count⟩]) b' (first + count) (remaining - count) → Q b' s) :
    wp (retain false first count b) Q E s := by
  obtain ⟨happend, hstreaming⟩ := append_streaming h hcount hmost hle
  exact wp_ofOk happend (hQ _ hstreaming)

theorem wp_pieces_streaming {fuel : Nat} (hfuel : rows ≤ fuel) (hle : rows ≤ remaining)
    (hQ : ∀ b', Streaming (stream ++ eights first rows) b' (first + rows) (remaining - rows) → Q b' s) :
    wp (inPieces 8 (retain false) fuel first rows b) Q E s := by
  induction fuel generalizing stream b first rows remaining with
  | zero =>
    obtain rfl : rows = 0 := by omega
    apply hQ
    simpa [eights_zero] using h
  | succ fuel ih =>
    unfold inPieces
    split
    · next hzero =>
      subst hzero
      apply hQ
      simpa [eights_zero] using h
    next hrows =>
    rw [wp_bind]
    refine wp_retain_streaming h (by omega : 0 < min 8 rows) (by omega) (by omega) fun b' h' => ?_
    refine ih h' (by omega) (by omega) fun b'' h'' => hQ b'' ?_
    have hstop : first + (min 8 rows : Nat) + (rows - min 8 rows : Nat) = first + rows := by omega
    have hleft : remaining - min 8 rows - (rows - min 8 rows) = remaining - rows := by omega
    rw [hstop, hleft, append_assoc] at h''
    rw [eights, dif_neg hrows]
    exact h''

theorem wp_retainChunk_streaming (hpos : 0 < rows) (hle : rows ≤ remaining)
    (hQ : ∀ b', Streaming (stream ++ eights first rows) b' (first + rows) (remaining - rows) → Q b' s) :
    wp (retainChunk false first rows b) Q E s := by
  unfold retainChunk
  split
  · next hsmall =>
    refine wp_retain_streaming h hpos (by omega) hle fun b' h' => hQ b' ?_
    rwa [eights_single hpos hsmall]
  · exact wp_pieces_streaming h (Nat.le_refl rows) hle hQ

end

theorem nextPrefillRows_eights {width remaining : Nat} (hwidth : requirePrefillWidth width = .ok ()) :
    (∃ blocks, nextPrefillRows width remaining = 8 * blocks) ∨ nextPrefillRows width remaining = remaining := by
  have hwidth := throwIf_ok.mp hwidth
  unfold nextPrefillRows
  dsimp only
  split
  · exact .inl ⟨128, rfl⟩
  split
  · exact .inl ⟨16, rfl⟩
  split
  · exact .inl ⟨4, rfl⟩
  split
  · exact .inl ⟨2, rfl⟩
  · rcases Nat.lt_or_ge remaining 8 with hless | hmore
    · exact .inr (by omega)
    · exact .inl ⟨1, by omega⟩

theorem prefillChunkStep_eights {width remaining rows : Nat} {position capacity : Int}
    (h : prefillChunkStep width remaining position capacity actualTail = .ok rows) :
    (∃ blocks, rows = 8 * blocks) ∨ rows = remaining := by
  obtain ⟨_, -, h⟩ := bind_ok h
  obtain ⟨_, hwidth, h⟩ := bind_ok h
  cases h
  split
  · exact .inr rfl
  · exact nextPrefillRows_eights hwidth

theorem requirePrefillWidth_fails {width : Nat} {e : Exn} (h : requirePrefillWidth width = .error e) :
    ∀ what, e ≠ .logicError what := by
  obtain ⟨-, rfl⟩ := throwIf_error h
  simp

theorem prefillChunkStep_fails {width remaining : Nat} {capacity : Int} {e : Exn}
    (h : prefillChunkStep width remaining position capacity actualTail = .error e) :
    ¬ (requirePrefillWidth width = .ok () ∧ 1 ≤ position ∧ position + remaining ≤ capacity) ∧
      ∀ what, e ≠ .logicError what := by
  rcases bind_error h with h | ⟨_, _, h⟩
  · obtain ⟨hbad, rfl⟩ := throwIf_error h
    exact ⟨fun hfit => by omega, by simp⟩
  rcases bind_error h with h | ⟨_, _, h⟩
  · refine ⟨fun hfit => ?_, requirePrefillWidth_fails h⟩
    rw [hfit.1] at h
    cases h
  · cases h

/-- Whatever the width, a suffix is retained in blocks of eight rows. -/
theorem wp_ingest_streaming {fits : Prop} {width fuel : Nat} {suffix : List Int}
    (hfuel : suffix.length ≤ fuel) (h : Streaming stream b s.exact.position remaining) (hle : suffix.length ≤ remaining)
    (hfits : fits → suffix ≠ [] → requirePrefillWidth width = .ok () ∧ 1 ≤ s.exact.position ∧
      s.exact.position + suffix.length ≤ s.exact.maxContext)
    (hQ : ∀ b', Streaming (stream ++ eights s.exact.position suffix.length) b' (s.exact.position + suffix.length)
        (remaining - suffix.length) → Q b' { s with exact := s.exact.ran suffix.length }) :
    wp (ingestPromptSuffix width false actualTail fuel suffix b) Q (Fails fits) s := by
  induction fuel generalizing suffix b stream remaining s with
  | zero =>
    obtain rfl := eq_nil_of_length_eq_zero (by omega : suffix.length = 0)
    simpa [ingestPromptSuffix, TextContext.ran, eights_zero] using hQ b (by simpa [eights_zero] using h)
  | succ fuel ih =>
    unfold ingestPromptSuffix
    split
    · next hnil =>
      subst hnil
      simpa [TextContext.ran, eights_zero] using hQ b (by simpa [eights_zero] using h)
    next hne =>
    have hlength : 0 < suffix.length := length_pos_iff.mpr hne
    rw [wp_get_bind]
    rw [wp_bind, wp_ofExcept]
    refine ⟨fun rows hrows => ?_, fun e he => ?_⟩
    · obtain ⟨hpos, hmost, -, -⟩ := prefillChunkStep_ok hrows hlength
      simp only [runRows, wp_bind, wp_modify]
      refine wp_retainChunk_streaming h hpos (by omega) fun b' h' => ?_
      have hdrop : (suffix.drop rows).length = suffix.length - rows := length_drop
      have hran : ((s.exact.ran rows).ran (suffix.drop rows).length) = s.exact.ran suffix.length := by
        rw [TextContext.ran_ran, hdrop]
        congr 1
        omega
      -- the call's blocks and the rest's are those of the whole suffix
      have heights : eights s.exact.position rows ++ eights (s.exact.position + rows) (suffix.length - rows) =
          eights s.exact.position suffix.length := by
        rcases prefillChunkStep_eights hrows with ⟨blocks, hblocks⟩ | hall
        · have happend := eights_append s.exact.position blocks (suffix.length - rows)
          rw [← hblocks, show rows + (suffix.length - rows) = suffix.length by omega] at happend
          rw [happend, hblocks]
          simp
        · rw [hall, Nat.sub_self, eights_zero, append_nil]
      refine ih (s := { s with exact := s.exact.ran rows }) (by omega) h' (by omega) ?_ ?_
      · intro hfit _
        obtain ⟨hwidth, hone, hroom⟩ := hfits hfit hne
        refine ⟨hwidth, ?_, ?_⟩
        · simp only [TextContext.ran]
          omega
        · simp only [TextContext.ran, hdrop]
          omega
      intro b'' h''
      have hstop : s.exact.position + rows + ((suffix.drop rows).length : Int) = s.exact.position + suffix.length := by
        omega
      have hleft : remaining - rows - (suffix.drop rows).length = remaining - suffix.length := by omega
      have hstart : (s.exact.ran rows).position = s.exact.position + rows := rfl
      rw [hran]
      apply hQ
      rw [hstart, hleft, hstop, append_assoc, hdrop, heights] at h''
      exact h''
    · obtain ⟨hnot, hlogic⟩ := prefillChunkStep_fails he
      exact ⟨fun hfit => hnot (hfits hfit hne), hlogic⟩

end Filling

end VoidInfer.Exl3.DraftPartitions
