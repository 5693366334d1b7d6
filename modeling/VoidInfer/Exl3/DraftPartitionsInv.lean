import VoidInfer.Exl3.DraftPartitions

/-
  The partitions of a request tile the rows up to its position, and there are never more of them than the ring has rows;
  so the storage planned from a row count is enough, and the next range is always accepted. The lemmas follow the layers
  of the source: one range, the blocks of one forward call, a whole suffix.
-/

namespace VoidInfer.Exl3.DraftPartitions
open List

open Throwing

/-! ## Ranges -/

/-- The ranges follow each other from `start` to `stop`, each of 1 to 16 rows. -/
def Chain : Int → List Range → Int → Prop
  | start, [], stop => start = stop
  | start, range :: rest, stop =>
    range.first = start ∧ 1 ≤ range.rows ∧ range.rows ≤ 16 ∧ Chain range.stop rest stop

/-- The ranges are contiguous, end at `position` unless there are none, and the first of them
    reaches into the last `ringCapacity` rows. -/
def Tiled (ranges : List Range) (position : Int) : Prop :=
  ranges = [] ∨ ∃ start, 0 ≤ start ∧ Chain start ranges position ∧
    ∀ front ∈ ranges.head?, position - ringCapacity < front.stop

variable {ranges : List Range} {start position rows : Int}

section
variable (h : Chain start ranges position)
include h

theorem Chain.concat (hrows : 1 ≤ rows) (hmost : rows ≤ 16) :
    Chain start (ranges ++ [⟨position, rows⟩]) (position + rows) := by
  induction ranges generalizing start with
  | nil =>
    exact ⟨h.symm, hrows, hmost, rfl⟩
  | cons range rest ih =>
    obtain ⟨hfirst, hone, hsixteen, hrest⟩ := h
    exact ⟨hfirst, hone, hsixteen, ih hrest⟩

theorem Chain.length_le : start + ranges.length ≤ position := by
  induction ranges generalizing start with
  | nil =>
    have h : start = position := h
    simp [h]
  | cons range rest ih =>
    obtain ⟨hfirst, hone, -, hrest⟩ := h
    have := ih hrest
    unfold Range.stop at this
    simp only [length_cons]
    omega

theorem Chain.getLast : (ranges.getLast?).any (fun last => last.stop != position) = false := by
  induction ranges generalizing start with
  | nil => rfl
  | cons range rest ih =>
    obtain ⟨-, -, -, hrest⟩ := h
    cases rest with
    | nil =>
      have hstop : range.stop = position := hrest
      simp [hstop]
    | cons next rest =>
      exact ih hrest

theorem Chain.evict (hne : ranges ≠ []) (oldest : Int) :
    ∃ start', start ≤ start' ∧ Chain start' (evict oldest ranges) position ∧
      ∀ front ∈ (DraftPartitions.evict oldest ranges).head?, oldest < front.stop ∨ front.stop = position := by
  induction ranges generalizing start with
  | nil => exact absurd rfl hne
  | cons front rest ih =>
    cases rest with
    | nil =>
      refine ⟨start, Int.le_refl _, h, ?_⟩
      intro front' hfront
      cases hfront
      exact .inr h.2.2.2
    | cons next rest =>
      unfold DraftPartitions.evict
      split
      · obtain ⟨hfirst, hone, -, hrest⟩ := h
        obtain ⟨start', hle, hchain, hfront⟩ := ih hrest (by simp)
        refine ⟨start', ?_, hchain, hfront⟩
        unfold Range.stop at hle
        omega
      next hold =>
      refine ⟨start, Int.le_refl _, h, ?_⟩
      intro front' hfront
      cases hfront
      exact .inl (by omega)

end

theorem length_evict (oldest : Int) (ranges : List Range) : (evict oldest ranges).length ≤ ranges.length := by
  induction ranges with
  | nil => exact le_refl _
  | cons front rest ih =>
    cases rest with
    | nil => exact le_refl _
    | cons next rest =>
      unfold evict
      split
      · exact ih.trans (by simp)
      · exact le_refl _

theorem length_push (ranges : List Range) (first rows : Int) : (push ranges first rows).length ≤ ranges.length + 1 := by
  refine (length_evict _ _).trans ?_
  simp

section
variable (h : Tiled ranges position)
include h

theorem Tiled.push (hposition : 0 ≤ position) (hrows : 1 ≤ rows) (hmost : rows ≤ 16) :
    Tiled (push ranges position rows) (position + rows) := by
  have hchain : ∃ start, 0 ≤ start ∧ Chain start (ranges ++ [⟨position, rows⟩]) (position + rows) := by
    rcases h with rfl | ⟨start, hstart, hchain, -⟩
    · exact ⟨position, hposition, rfl, hrows, hmost, rfl⟩
    · exact ⟨start, hstart, hchain.concat hrows hmost⟩
  obtain ⟨start, hstart, hchain⟩ := hchain
  obtain ⟨start', hle, hkept, hfront⟩ := hchain.evict (by simp) _
  refine .inr ⟨start', by omega, hkept, ?_⟩
  intro front hmem
  rcases hfront front hmem with hnew | hlast
  · exact hnew
  have : (0 : Int) < ringCapacity := by decide
  omega

theorem Tiled.length_le : ranges.length ≤ ringCapacity := by
  rcases h with rfl | ⟨start, -, hchain, hfront⟩
  · exact Nat.zero_le _
  cases ranges with
  | nil => exact Nat.zero_le _
  | cons front rest =>
    obtain ⟨-, -, -, hrest⟩ := hchain
    have hreach := hfront front rfl
    have hlength := hrest.length_le
    simp only [length_cons]
    omega

theorem Tiled.continuous (hposition : 0 ≤ position) (hrows : 1 ≤ rows) (hmost : rows ≤ 16)
    (hextent : position + rows ≤ int32Max) : ¬ Discontinuous ranges position rows := by
  have hlast : (ranges.getLast?).any (fun last => last.stop != position) = false := by
    rcases h with rfl | ⟨start, -, hchain, -⟩
    · rfl
    · exact hchain.getLast
  rintro (h | h | h | h | h)
  · omega
  · omega
  · omega
  · omega
  rw [hlast] at h
  simp at h

end

/-! ## Storage -/

/-- There is room for `remaining` more ranges, or for as many as there can ever be. -/
def Room (ranges : List Range) (capacity remaining : Nat) : Prop :=
  ranges.length + remaining ≤ capacity ∨ capacity = ringCapacity + 1

variable {capacity remaining : Nat}

theorem Room.lt (h : Room ranges capacity remaining) (htiled : Tiled ranges position)
    (hremaining : 0 < remaining) : ranges.length ≠ capacity := by
  have := htiled.length_le
  rcases h with h | h
  · omega
  · omega

theorem Room.push {count : Nat} (h : Room ranges capacity remaining) (hcount : 0 < count)
    (hle : count ≤ remaining) (first rows : Int) : Room (push ranges first rows) capacity (remaining - count) := by
  have := length_push ranges first rows
  rcases h with h | h
  · exact .inl (by omega)
  · exact .inr h

/-- A builder at `position` with `remaining` rows to come. -/
structure Ready (b : Builder) (position : Int) (remaining : Nat) : Prop where
  blocks : Tiled b.blocks position
  partitions : Tiled b.partitions position
  blockRoom : Room b.blocks b.blockCapacity remaining
  partitionRoom : Room b.partitions b.partitionCapacity remaining

theorem plannedDescriptorCount_ok (h : ranges.length ≤ ringCapacity) (incoming : Nat) :
    ∃ capacity, plannedDescriptorCount ranges.length incoming = .ok capacity ∧ Room ranges capacity incoming := by
  refine ⟨ranges.length + min incoming (ringCapacity + 1 - ranges.length), ?_, ?_⟩
  · unfold plannedDescriptorCount throwIf
    rw [if_neg (by omega)]
    rfl
  · unfold Room
    omega

theorem createPlanned_ok {source : Option Request} (retainBlocks : Bool)
    (hsource : ∀ request, source = some request →
      Tiled request.blocks position ∧ Tiled request.partitions position) (credited : Bool) (incoming : Nat) :
    ∃ b, createPlanned credited source incoming retainBlocks = .ok b ∧ Ready b position incoming ∧
      b.blocks = (if retainBlocks then (source.map (·.blocks)).getD [] else []) ∧
      b.partitions = (source.map (·.partitions)).getD [] := by
  have hblocks : Tiled (if retainBlocks then (source.map (·.blocks)).getD [] else []) position := by
    split
    · cases source with
      | none => exact .inl rfl
      | some request => exact (hsource request rfl).1
    · exact .inl rfl
  have hpartitions : Tiled ((source.map (·.partitions)).getD []) position := by
    cases source with
    | none => exact .inl rfl
    | some request => exact (hsource request rfl).2
  obtain ⟨blockCapacity, hblockCapacity, hblockRoom⟩ := plannedDescriptorCount_ok hblocks.length_le incoming
  obtain ⟨partitionCapacity, hpartitionCapacity, hpartitionRoom⟩ :=
    plannedDescriptorCount_ok hpartitions.length_le incoming
  let b : Builder := {
    blocks := if retainBlocks then (source.map (·.blocks)).getD [] else []
    partitions := (source.map (·.partitions)).getD [], blockCapacity, partitionCapacity, locked := credited }
  refine ⟨b, ?_, ⟨hblocks, hpartitions, hblockRoom, hpartitionRoom⟩, rfl, rfl⟩
  unfold createPlanned
  dsimp only
  rw [hblockCapacity, hpartitionCapacity]
  rfl

/-- A range behind the blocks and the partitions. -/
def Builder.pushed (b : Builder) (first rows : Int) : Builder :=
  { b with blocks := push b.blocks first rows, partitions := push b.partitions first rows }

section Append

variable {b : Builder} {remaining count : Nat}

section
variable (h : Ready b position remaining)
include h

theorem appendPartition_ok (hposition : 0 ≤ position) (hcount : 1 ≤ count)
    (hmost : count ≤ 16) (hle : count ≤ remaining) (hextent : position + count ≤ int32Max) :
    appendPartition b position count = .ok { b with partitions := push b.partitions position count } := by
  have hroom := h.partitionRoom.lt h.partitions (by omega)
  have hcontinuous := h.partitions.continuous hposition (by omega : (1 : Int) ≤ count) (by omega) hextent
  unfold appendPartition throwIf
  rw [if_neg fun hfull => hroom hfull.2, if_neg hcontinuous]
  rfl

theorem Ready.pushPartition (hempty : b.blocks = []) (hposition : 0 ≤ position)
    (hcount : 1 ≤ count) (hmost : count ≤ 16) (hle : count ≤ remaining) :
    Ready { b with partitions := push b.partitions position count } (position + count) (remaining - count) where
  blocks := .inl hempty
  partitions := h.partitions.push hposition (by omega) (by omega)
  blockRoom := by
    rcases h.blockRoom with hroom | hroom
    · exact .inl (by dsimp only; omega)
    · exact .inr hroom
  partitionRoom := h.partitionRoom.push hcount hle _ _

theorem append_ok (hposition : 0 ≤ position) (hcount : 1 ≤ count)
    (hmost : count ≤ 16) (hle : count ≤ remaining) (hextent : position + count ≤ int32Max) :
    append b position count = .ok (b.pushed position count) ∧
      Ready (b.pushed position count) (position + count) (remaining - count) := by
  have hblocks := h.blockRoom.lt h.blocks (by omega)
  have hpartitions := h.partitionRoom.lt h.partitions (by omega)
  have hcontinuous := h.partitions.continuous hposition (by omega : (1 : Int) ≤ count) (by omega) hextent
  have hfull : ¬ (b.locked = true ∧ (b.blocks.length = b.blockCapacity ∨ b.partitions.length = b.partitionCapacity)) := by
    rintro ⟨-, hfull | hfull⟩
    · exact hblocks hfull
    · exact hpartitions hfull
  constructor
  · unfold append appendPartition throwIf
    rw [if_neg hfull, if_neg hcontinuous]
    rw [if_neg fun hfull => hpartitions hfull.2]
    rfl
  · exact {
      blocks := h.blocks.push hposition (by omega) (by omega)
      partitions := h.partitions.push hposition (by omega) (by omega)
      blockRoom := h.blockRoom.push hcount hle _ _
      partitionRoom := h.partitionRoom.push hcount hle _ _ }

end

end Append

/-! ## Calls -/

/-- How the calls below throw. -/
def Otherwise : Exn → Devices → Prop := fun e _ => ¬ Refusal e

section Calls

variable {s : Devices}

variable {e : Exn} {α : Type} {E : Exn → Devices → Prop}

theorem wp_check {bad : Prop} [Decidable bad] {Q : Unit → Devices → Prop} (hgood : ¬ bad → Q () s)
    (he : ¬ Refusal e := by decide) : wp (check bad e) Q Otherwise s := by
  unfold check
  rw [wp_ofExcept]
  constructor
  · intro _ hok
    exact hgood (throwIf_ok.mp hok)
  · intro e' herror
    unfold throwIf at herror
    split at herror
    · cases herror
      exact he
    · simp at herror

theorem wp_ofOk {x : Except Exn α} {a : α} {Q : α → Devices → Prop}
    (hx : x = .ok a) (h : Q a s) : wp (MonadExcept.ofExcept x) Q E s := by
  subst hx
  exact h

theorem wp_recovering {recover : Devices → Devices} {x : Exec α} {Q : α → Devices → Prop}
    (h : wp x Q Otherwise s) : wp (recovering recover x) Q Otherwise s := by
  unfold wp at h ⊢
  unfold recovering
  cases hx : x s with
  | ok a s' =>
    rw [hx] at h
    exact h
  | error e s' =>
    rw [hx] at h
    exact h

variable {first draft : Int} {b : Builder} {fresh actualTail : Bool} {context : TextContext}
  {remaining width : Nat}

theorem wp_inPieces {size : Nat} {f : Int → Nat → Builder → Exec Builder}
    {P : Builder → Int → Nat → Devices → Prop} (hsize : 0 < size)
    (hstep : ∀ b first rows count s, P b first rows s → 0 < count → count ≤ size → count ≤ rows →
      wp (f first count b) (fun b' => P b' (first + count) (rows - count)) E s)
    {fuel rows : Nat} (hfuel : rows ≤ fuel) (h : P b first rows s) :
    wp (inPieces size f fuel first rows b) (fun b' => P b' (first + rows) 0) E s := by
  induction fuel generalizing first rows b s with
  | zero =>
    obtain rfl : rows = 0 := by omega
    simpa [inPieces] using h
  | succ fuel ih =>
    unfold inPieces
    split
    · next hzero =>
      subst hzero
      simpa using h
    next hrows =>
    rw [wp_bind]
    refine wp_imp (hstep b first rows _ s h (by omega) (by omega) (by omega)) ?_
    intro b' s' h'
    have hrest : wp _ _ E s' := ih (by omega) h'
    have hstop : first + (min size rows : Nat) + (rows - min size rows : Nat) = first + rows := by omega
    rwa [hstop] at hrest

/-- A builder in the course of a suffix: `remaining` rows are to come from `first` on, and the
    drafter is behind the last one of a compact extension. -/
structure Filling (fresh : Bool) (context : TextContext) (draft : Int) (b : Builder) (first : Int) (remaining : Nat)
    (s : Devices) : Prop where
  ready : Ready b first remaining
  nonneg : 0 ≤ first
  extent : first + remaining ≤ int32Max
  same : fresh = false → b.blocks = b.partitions
  context : s.exact = context
  drafted : s.draft = if fresh then first else draft

theorem wp_retain {count : Nat} (h : Filling fresh context draft b first remaining s)
    (hcount : 0 < count) (hmost : count ≤ 16) (hle : count ≤ remaining) :
    wp (retain fresh first count b) (fun b' => Filling fresh context draft b' (first + count) (remaining - count))
      Otherwise s := by
  have hextent := h.extent
  have hnonneg := h.nonneg
  obtain ⟨happend, hready⟩ := append_ok h.ready hnonneg hcount hmost hle (by omega)
  have hsame : fresh = false → push b.blocks first count = push b.partitions first count :=
    fun hfresh => by rw [h.same hfresh]
  unfold retain
  cases fresh with
  | false =>
    refine wp_ofOk happend ⟨hready, by omega, by omega, hsame, h.context, ?_⟩
    simpa using h.drafted
  | true =>
    exact wp_ofOk happend ⟨hready, by omega, by omega, hsame, h.context, rfl⟩

theorem wp_retainPieces {remaining rows : Nat}
    (h : Filling fresh context draft b first remaining s) (hle : rows ≤ remaining) :
    wp (inPieces 8 (retain fresh) rows first rows b)
      (fun b' => Filling fresh context draft b' (first + rows) (remaining - rows)) Otherwise s := by
  refine wp_inPieces (P := fun b first left => Filling fresh context draft b first (remaining - rows + left))
    (by decide) ?_ (Nat.le_refl rows) ?_
  · intro b first left count s hP hcount hsize hcle
    refine wp_imp (wp_retain hP hcount (by omega) (by omega)) ?_
    intro b' s' hP'
    have hsub : remaining - rows + left - count = remaining - rows + (left - count) := by omega
    exact hsub ▸ hP'
  have hadd : remaining - rows + rows = remaining := by omega
  exact hadd.symm ▸ h

theorem wp_retainChunk {remaining rows : Nat}
    (h : Filling fresh context draft b first remaining s) (hpos : 0 < rows) (hle : rows ≤ remaining) :
    wp (retainChunk fresh first rows b)
      (fun b' => Filling fresh context draft b' (first + rows) (remaining - rows)) Otherwise s := by
  unfold retainChunk
  split
  · exact wp_retain h hpos (by omega) hle
  · exact wp_retainPieces h hle

theorem nextPrefillRows_range (hwidth : requirePrefillWidth width = .ok ())
    (hremaining : 0 < remaining) : 0 < nextPrefillRows width remaining ∧ nextPrefillRows width remaining ≤ remaining := by
  have hwidth := throwIf_ok.mp hwidth
  unfold nextPrefillRows
  dsimp only
  split
  · omega
  split
  · omega
  split
  · omega
  split
  · omega
  · omega

theorem prefillChunkStep_ok {width remaining rows : Nat} {position capacity : Int}
    (h : prefillChunkStep width remaining position capacity actualTail = .ok rows) (hremaining : 0 < remaining) :
    0 < rows ∧ rows ≤ remaining ∧ 1 ≤ position ∧ position + remaining ≤ capacity := by
  obtain ⟨hextent, h⟩ := check_ok h
  obtain ⟨_, hwidth, h⟩ := bind_ok h
  have hrange := nextPrefillRows_range hwidth hremaining
  cases h
  split
  · exact ⟨by omega, by omega, by omega, by omega⟩
  · exact ⟨hrange.1, hrange.2, by omega, by omega⟩

theorem prefillChunkStep_error {position capacity : Int}
    (h : prefillChunkStep width remaining position capacity actualTail = .error e) : ¬ Refusal e := by
  unfold prefillChunkStep requirePrefillWidth throwIf at h
  split at h
  · cases h
    decide
  dsimp only [bind, Except.bind] at h
  split at h
  · next herror =>
    split at herror
    · cases herror
      cases h
      decide
    · simp at herror
  · simp [pure, Except.pure] at h

/-- The context after `n` more rows. -/
def TextContext.ran (context : TextContext) (n : Nat) : TextContext :=
  { context with position := context.position + n, executed := context.executed + n }

theorem TextContext.ran_ran (context : TextContext) (m n : Nat) : (context.ran m).ran n = context.ran (m + n) := by
  simp only [TextContext.ran, TextContext.mk.injEq, true_and]
  exact ⟨by omega, by omega⟩

theorem wp_ingest {fuel : Nat} {suffix : List Int} (hfuel : suffix.length ≤ fuel)
    (h : Filling fresh context draft b context.position suffix.length s) :
    wp (ingestPromptSuffix width fresh actualTail fuel suffix b)
      (fun b' => Filling fresh (context.ran suffix.length) draft b' (context.position + suffix.length) 0)
      Otherwise s := by
  induction fuel generalizing suffix context b s with
  | zero =>
    obtain rfl := eq_nil_of_length_eq_zero (by omega : suffix.length = 0)
    simpa [ingestPromptSuffix, TextContext.ran] using h
  | succ fuel ih =>
    unfold ingestPromptSuffix
    split
    · next hnil =>
      subst hnil
      simpa [TextContext.ran] using h
    next hne =>
    have hlength : 0 < suffix.length := length_pos_iff.mpr hne
    rw [wp_get_bind]
    rw [wp_bind, wp_ofExcept]
    refine ⟨fun rows hrows => ?_, fun e he => prefillChunkStep_error he⟩
    obtain ⟨hpos, hle, -, -⟩ := prefillChunkStep_ok hrows hlength
    simp only [runRows, wp_bind, wp_modify]
    rw [h.context]
    have hstart : Filling fresh (context.ran rows) draft b context.position suffix.length
        { s with exact := context.ran rows } := ⟨h.ready, h.nonneg, h.extent, h.same, rfl, h.drafted⟩
    refine wp_imp (wp_retainChunk hstart hpos hle) ?_
    intro b' s' h'
    have hdrop : (suffix.drop rows).length = suffix.length - rows := length_drop
    have hfilling : Filling fresh (context.ran rows) draft b' (context.ran rows).position (suffix.drop rows).length s' := by
      rw [hdrop]
      exact h'
    refine wp_imp (ih (by omega) hfilling) ?_
    intro b'' s'' h''
    rw [hdrop, TextContext.ran_ran] at h''
    have hall : rows + (suffix.length - rows) = suffix.length := by omega
    rw [hall] at h''
    have hend : (context.ran rows).position + ((suffix.length - rows : Nat) : Int) =
        context.position + suffix.length := by
      simp only [TextContext.ran]
      omega
    rwa [hend] at h''

end Calls

end VoidInfer.Exl3.DraftPartitions
