import VoidInfer.Base
import VoidInfer.Lib.Throwing

/-
  How `Exl3FastDeviceRound` ingests a prompt: the rows are run on the target in wide calls, and the draft is given the
  same rows in calls of sixteen, of which those before its ring are skipped. The schedules are those of a fresh prompt,
  row by row or layer by layer, and of a suffix behind a restored root.

  Positions and sizes are below the context's capacity, so `int` holds them. What the target, the draft and the CUDA
  runtime do is a parameter: any call may throw.
-/

namespace VoidInfer.Exl3.FreshPrefill
open List

open Throwing

/-! ## Calls -/

inductive DraftCall where
  | reset
  | beginFreshPrefill (start stop : Nat)
  | skipFreshPrefillBlock (rows first : Nat)
  | commitPrefillBlock (rows first : Nat)
  | commitPrefillBulk (rows first : Nat)
  | finishFreshPrefill

/-- The calls of a round on its devices; `rows` and `first` are those of the tokens or taps. -/
inductive Operation where
  | draft (call : DraftCall)
  | prefill (rows : Nat)
  | appendPrefill (rows : Nat)
  | appendPrefillWide (rows : Nat)
  /-- With the retained tap tail that the arena holds. -/
  | appendPrefillLayerMajor (rows tailFirst tailRows : Nat)
  | copyTapRowsToDevice (first rows : Nat)
  | cudaMalloc (bytes : Nat)
  | synchronize

/-- What is outside of the round: what an operation throws after those before it, where the
    draft's ring ends after them, and the process-wide settings. -/
structure Devices where
  throws : List Operation → Operation → Option Exn
  ringEnd : List Operation → Int
  layerMajorFromZero : Bool
  l0OscarEnabled : Bool

inductive Phase where
  | unstarted | ready | executing | pending | devicePending | poisoned | closed
deriving DecidableEq

/-- The fields that ingestion reads and writes, and the operations so far. -/
structure Round where
  phase : Phase
  /-- `context_->position()`. -/
  position : Nat
  maxContext : Nat
  operations : List Operation

abbrev RoundM := EStateM Exn Round

def check (bad : Prop) [Decidable bad] (e : Exn) : RoundM Unit := MonadExcept.ofExcept (throwIf bad e)

def setPhase (phase : Phase) : RoundM Unit := modify fun s => { s with phase }

section Round

variable (devices : Devices)

/-- The call is made; it may throw. -/
def perform (operation : Operation) : RoundM Unit := do
  let s ← get
  set { s with operations := s.operations ++ [operation] }
  match devices.throws s.operations operation with
  | some e => throw e
  | none => return

/-- A forward call of the target moves the context on. -/
def forward (operation : Operation) (rows : Nat) : RoundM Unit := do
  perform devices operation
  modify fun s => { s with position := s.position + rows }

/-- `for (at = first; at < stop; at += size)` over the blocks `at`, `min(size, stop - at)`. -/
def forBlocks (size : Nat) (body : Nat → Nat → RoundM Unit) : Nat → Nat → Nat → RoundM Unit
  | 0, _, _ => return
  | fuel + 1, at', stop =>
    if at' < stop then do
      body at' (min size (stop - at'))
      forBlocks size body fuel (at' + min size (stop - at')) stop
    else return

/-- The same loop, with a value that the body updates. -/
def foldBlocks {σ : Type} (size : Nat) (body : Nat → Nat → σ → σ) : Nat → Nat → Nat → σ → σ
  | 0, _, _, value => value
  | fuel + 1, at', stop, value =>
    if at' < stop then
      foldBlocks size body fuel (at' + min size (stop - at')) stop (body at' (min size (stop - at')) value)
    else value

/-! ## The schedules -/

def layerMajorInitialRows : Nat := if devices.layerMajorFromZero then 0 else 16

/-- The end of a block that lies before the ring of a prompt of `total` rows. -/
def passBlock (total at' count first : Nat) : Nat :=
  if ((at' + count : Nat) : Int) ≤ (total : Int) - 2048 then at' + count else first

/-- The loop of `retained_start_for` over the forwards. -/
def retainedStartLoop (total : Nat) : Nat → Nat → Nat → Nat
  | 0, _, first => first
  | fuel + 1, forward, first =>
    if forward < total then
      let forwardRows := if forward = 0 then 16 else min 1024 (total - forward)
      retainedStartLoop total fuel (forward + forwardRows)
        (foldBlocks 16 (passBlock total) forwardRows forward (forward + forwardRows) first)
    else first

def retainedStartFor (total : Nat) : Nat := retainedStartLoop total total 0 0

/-- `commit_captured`: the rows behind `firstAbs`, block by block. -/
def commitCaptured (rows firstAbs : Nat) (ringBegin : Int) : RoundM Unit := do
  check (rows < 1 ∨ rows > 1024) (.invalidArgument "fast device captured forward extent")
  forBlocks 16 (fun at' count => do
    if ((at' + count : Nat) : Int) ≤ ringBegin then
      perform devices (.draft (.skipFreshPrefillBlock count at'))
    else do
      perform devices (.copyTapRowsToDevice (at' - firstAbs) count)
      perform devices (.draft (.commitPrefillBlock count at'))) rows firstAbs (firstAbs + rows)

/-- `rows * 5 * tap_hidden * sizeof(std::uint16_t)`. -/
def arenaBytes (rows : Nat) : Nat := rows * 5 * 5120 * 2

/-- A block of the walk of `prefill_layer_major`: it is skipped, or it lies in the arena. -/
def walkBlock (total first absolute count : Nat) : RoundM Unit :=
  if ((absolute + count : Nat) : Int) ≤ (total : Int) - 2048 then
    perform devices (.draft (.skipFreshPrefillBlock count absolute))
  else
    check (absolute < first ∨ absolute + count > total) (.logicError "fast device retained tap call outside arena")

def prefillLayerMajor (total : Nat) : RoundM Unit := do
  let initial := layerMajorInitialRows devices
  let first := max initial (retainedStartFor total)
  let rows := total - first
  check (rows < 2032 ∨ rows > 2063) (.logicError "fast device retained tap partition halo")
  perform devices (.cudaMalloc (arenaBytes rows))
  forward devices (.appendPrefillLayerMajor (total - initial) first rows) (total - initial)
  forBlocks 1024 (fun at' forwardRows =>
    forBlocks 16 (walkBlock devices total first) forwardRows at' (at' + forwardRows)) total initial total
  perform devices (.draft (.commitPrefillBulk rows first))
  perform devices .synchronize

/-- What throws poisons the round. -/
def poisoning (body : RoundM Unit) : RoundM Unit :=
  tryCatch body fun e => do
    setPhase .poisoned
    throw e

/-- The first rows of a fresh prompt, if they are run apart. -/
def beginInitial (total initial : Nat) (layerMajor : Bool) : RoundM Unit :=
  if initial = 0 then return
  else do
    forward devices (.prefill initial) initial
    if layerMajor = true ∧ total ≥ 2064 then perform devices (.draft (.skipFreshPrefillBlock initial 0))
    else commitCaptured devices initial 0 0

/-- The rows behind the first ones, layer by layer or in wide calls. -/
def freshSchedule (total initial : Nat) (layerMajor : Bool) : RoundM Unit :=
  if layerMajor = true then prefillLayerMajor devices total
  else
    forBlocks 1024 (fun first rows => do
      forward devices (.appendPrefillWide rows) rows
      commitCaptured devices rows first ((total : Int) - 2048)) total initial total

/-- `begin_fresh`, with `total` tokens. -/
def beginFresh (total : Nat) (layerMajor : Bool) : RoundM Unit := do
  let s ← get
  check (s.phase ≠ .unstarted) (.logicError "fast device fresh request already began")
  check (s.position ≠ 0 ∨ total = 0 ∨ total > s.maxContext) (.invalidArgument "fast device fresh input extent")
  let layerMajor := layerMajor && decide (total ≥ 2048)
  setPhase .executing
  poisoning do
    perform devices (.draft .reset)
    perform devices (.draft (.beginFreshPrefill 0 total))
    let initial := if layerMajor then layerMajorInitialRows devices else min 16 total
    beginInitial devices total initial layerMajor
    freshSchedule devices total initial layerMajor
    perform devices (.draft .finishFreshPrefill)
    perform devices .synchronize
    setPhase .unstarted

/-- `kLayerMajorSuffixRows`. -/
def layerMajorSuffixRows : Nat := 4096

def ingestSuffixLayerMajor (total first : Nat) : RoundM Unit := do
  let tail := foldBlocks 16 (passBlock total) total first total first
  let rows := total - tail
  check (rows < 2032 ∨ rows > 2063) (.logicError "fast device suffix retained tap partition halo")
  setPhase .executing
  poisoning do
    perform devices (.cudaMalloc (arenaBytes rows))
    perform devices (.draft .reset)
    perform devices (.draft (.beginFreshPrefill first total))
    forward devices (.appendPrefillLayerMajor (total - first) tail rows) (total - first)
    forBlocks 16 (fun at' count => perform devices (.draft (.skipFreshPrefillBlock count at'))) total first tail
    perform devices (.draft (.commitPrefillBulk rows tail))
    perform devices (.draft .finishFreshPrefill)
    perform devices .synchronize
    setPhase .unstarted

/-- Up to eight rows take the decode-row route. -/
def suffixForward (rows : Nat) : RoundM Unit :=
  if rows ≤ 8 then forward devices (.appendPrefill rows) rows
  else forward devices (.appendPrefillWide rows) rows

/-- `ingest_suffix`, of the tokens from `first` on. -/
def ingestSuffix (total : Nat) (first : Int) : RoundM Unit := do
  let s ← get
  check (s.phase ≠ .unstarted ∨ first ≤ 0 ∨ (s.position : Int) ≠ first ∨ first ≥ total ∨
      devices.ringEnd s.operations ≠ first) (.invalidArgument "fast device suffix ingestion frontier")
  let first := first.toNat
  if devices.l0OscarEnabled = true ∧ total - first ≥ layerMajorSuffixRows then
    ingestSuffixLayerMajor devices total first
  else do
    setPhase .executing
    poisoning do
      forBlocks 1024 (fun at' rows => do
        suffixForward devices rows
        commitCaptured devices rows at' 0) total first total
      perform devices .synchronize
      setPhase .unstarted

end Round

variable {fuel passed rows : Nat} {call : DraftCall} {operation : Operation}

variable {size : Nat} {calls : List DraftCall} {Q : Unit → Round → Prop} {E : Exn → Round → Prop}
  {body : Nat → Nat → RoundM Unit} {ringBegin : Int} {layerMajor : Bool}

/-! ## Blocks -/

theorem foldBlocks_inv {σ : Type} {stop : Nat} {body : Nat → Nat → σ → σ} {P : Nat → σ → Prop} (hsize : 0 < size)
    (hstep : ∀ at' value, P at' value → at' < stop →
      P (at' + min size (stop - at')) (body at' (min size (stop - at')) value))
    {at' : Nat} {value : σ} (hfuel : stop ≤ at' + fuel) (hle : at' ≤ stop) (h : P at' value) :
    P stop (foldBlocks size body fuel at' stop value) := by
  induction fuel generalizing at' value with
  | zero =>
    obtain rfl : at' = stop := by omega
    exact h
  | succ fuel ih =>
    unfold foldBlocks
    split
    · next hlt => exact ih (by omega) (by omega) (hstep at' value h hlt)
    next hge =>
    obtain rfl : at' = stop := by omega
    exact h

/-- The end of the last block of sixteen that is wholly before the ring. -/
def ringBoundary (first total : Nat) : Nat := first + 16 * ((total - 2048 - first) / 16)

/-- A place of the walk from `base` to `stop` in blocks of sixteen rows. -/
def InStep (base stop at' : Nat) : Prop := (∃ k, at' = base + 16 * k) ∨ at' = stop

variable {base first stop total at' count : Nat}

theorem InStep.block (h : InStep base stop at') (hlt : at' < stop) (hstop : InStep base total stop) :
    (∃ k, at' = base + 16 * k) ∧ InStep base stop (at' + min 16 (stop - at')) ∧
      (min 16 (stop - at') = 16 ∨ min 16 (stop - at') < 16 ∧ at' + min 16 (stop - at') = total) := by
  rcases h with ⟨k, rfl⟩ | rfl
  · refine ⟨⟨k, rfl⟩, ?_, ?_⟩
    · rcases Nat.lt_or_ge (stop - (base + 16 * k)) 16 with hshort | hwhole
      · exact .inr (by omega)
      · exact .inl ⟨k + 1, by omega⟩
    · rcases hstop with ⟨k', rfl⟩ | rfl
      · omega
      · omega
  · omega

theorem InStep.forward {k : Nat} (hk : at' = 0 + 16 * k) (hle : at' ≤ total) :
    InStep 0 total (at' + min 1024 (total - at')) := by
  rcases Nat.lt_or_ge (total - at') 1024 with hshort | hwhole
  · exact .inr (by omega)
  · exact .inl ⟨k + 64, by omega⟩

theorem passBlock_eq (hat : ∃ k, at' = base + 16 * k)
    (hcount : count = 16 ∨ count < 16 ∧ at' + count = total) (hpassed : passed = min at' (ringBoundary base total)) :
    passBlock total at' count passed = min (at' + count) (ringBoundary base total) := by
  unfold passBlock ringBoundary at *
  split
  · omega
  · omega

theorem foldBlocks_passBlock (hat : InStep base stop at') (hstop : InStep base total stop)
    (hpassed : passed = min at' (ringBoundary base total)) (hfuel : stop ≤ at' + fuel) (hle : at' ≤ stop) :
    foldBlocks 16 (passBlock total) fuel at' stop passed = min stop (ringBoundary base total) := by
  have hinv : InStep base stop stop ∧
      foldBlocks 16 (passBlock total) fuel at' stop passed = min stop (ringBoundary base total) := by
    refine foldBlocks_inv (P := fun at' passed => InStep base stop at' ∧ passed = min at' (ringBoundary base total))
      (by decide) ?_ hfuel hle ⟨hat, hpassed⟩
    intro at' passed h hlt
    obtain ⟨hat, hnext, hcount⟩ := h.1.block hlt hstop
    exact ⟨hnext, passBlock_eq hat hcount h.2⟩
  exact hinv.2

theorem retainedStartLoop_eq (hat : InStep 0 total at') (hfuel : total ≤ at' + fuel)
    (hpassed : passed = min at' (ringBoundary 0 total)) :
    retainedStartLoop total fuel at' passed = ringBoundary 0 total := by
  have hboundary : ringBoundary 0 total ≤ total := by
    unfold ringBoundary
    omega
  induction fuel generalizing at' passed with
  | zero =>
    unfold retainedStartLoop
    omega
  | succ fuel ih =>
    unfold retainedStartLoop
    split
    · next hlt =>
      have hstart : ∃ k, at' = 0 + 16 * k := hat.resolve_right (by omega)
      obtain ⟨k, hk⟩ := hstart
      dsimp only
      -- the forward ends in step, or at the end of the prompt
      have hnext : InStep 0 total (at' + (if at' = 0 then 16 else min 1024 (total - at'))) := by
        split
        · exact .inl ⟨k + 1, by omega⟩
        · exact InStep.forward hk (by omega)
      have hrows : 0 < (if at' = 0 then 16 else min 1024 (total - at')) := by
        split
        · omega
        · omega
      refine ih hnext (by omega) ?_
      exact foldBlocks_passBlock (.inl ⟨k, hk⟩) hnext hpassed (by omega) (by omega)
    · omega

theorem retainedStartFor_eq (total : Nat) : retainedStartFor total = ringBoundary 0 total :=
  retainedStartLoop_eq (.inl ⟨0, rfl⟩) (by omega) (by omega)

/-! ## What the draft is given -/

/-- The rows a call gives the draft. -/
def DraftCall.extent : DraftCall → Option (Nat × Nat)
  | .skipFreshPrefillBlock rows first | .commitPrefillBlock rows first | .commitPrefillBulk rows first =>
    some (first, rows)
  | _ => none

/-- The calls give the draft the rows from `start` to `stop`, each once and in order. -/
def Tiles : Nat → List DraftCall → Nat → Prop
  | start, [], stop => start = stop
  | start, call :: rest, stop =>
    match call.extent with
    | some (first, rows) => first = start ∧ 0 < rows ∧ Tiles (start + rows) rest stop
    | none => Tiles start rest stop

/-- A call of a prompt of `total` rows: blocks have at most sixteen rows and are skipped before the
    ring only; a bulk call has the rows from `tail` to the end. -/
def DraftCall.Sound (total tail : Nat) : DraftCall → Prop
  | .skipFreshPrefillBlock rows first => rows ≤ 16 ∧ ((first + rows : Nat) : Int) ≤ (total : Int) - 2048
  | .commitPrefillBlock rows _ => rows ≤ 16
  | .commitPrefillBulk rows first => first = tail ∧ first + rows = total ∧ 2032 ≤ rows ∧ rows ≤ 2063
  | _ => True

/-- The draft's calls among the operations. -/
def draftCalls (operations : List Operation) : List DraftCall :=
  operations.filterMap fun operation =>
    match operation with
    | .draft call => some call
    | _ => none

/-- The draft has been given the rows from `start` to `at'` since `before`. -/
def Given (before : List Operation) (total tail start at' : Nat) (s : Round) : Prop :=
  ∃ calls, draftCalls s.operations = draftCalls before ++ calls ∧ Tiles start calls at' ∧
    ∀ call ∈ calls, call.Sound total tail

/-- Only the devices throw, and the draft has its rows up to somewhere. -/
def Stopped (devices : Devices) (before : List Operation) (total tail start : Nat) (e : Exn) (s : Round) : Prop :=
  (∃ operations operation, devices.throws operations operation = some e) ∧
    ∃ at', at' ≤ total ∧ Given before total tail start at' s

variable {devices : Devices} {before : List Operation} {tail start : Nat} {s : Round}

theorem Tiles.concat (h : Tiles start calls at')
    (hextent : call.extent = some (at', rows)) (hrows : 0 < rows) : Tiles start (calls ++ [call]) (at' + rows) := by
  induction calls generalizing start with
  | nil =>
    obtain rfl : start = at' := h
    simp [Tiles, hextent, hrows]
  | cons head rest ih =>
    rw [cons_append]
    unfold Tiles at h ⊢
    split
    · next hhead =>
      rw [hhead] at h
      exact ⟨h.1, h.2.1, ih h.2.2⟩
    next hhead =>
    rw [hhead] at h
    exact ih h

theorem Tiles.concat_none (h : Tiles start calls at')
    (hextent : call.extent = none) : Tiles start (calls ++ [call]) at' := by
  induction calls generalizing start with
  | nil => simpa [Tiles, hextent] using h
  | cons head rest ih =>
    rw [cons_append]
    unfold Tiles at h ⊢
    split
    · next hhead =>
      rw [hhead] at h
      exact ⟨h.1, h.2.1, ih h.2.2⟩
    next hhead =>
    rw [hhead] at h
    exact ih h

theorem wp_performed (hle : at' ≤ total)
    (hgiven : ∀ position maxContext phase, Given before total tail start at'
      { phase, position, maxContext, operations := s.operations ++ [operation] }) :
    wp (perform devices operation) (fun _ => Given before total tail start at')
      (Stopped devices before total tail start) s := by
  unfold perform
  rw [wp_get_bind]
  rw [wp_bind, wp_set]
  cases hthrows : devices.throws s.operations operation with
  | some e =>
    exact ⟨⟨_, _, hthrows⟩, at', hle, hgiven _ _ _⟩
  | none => exact hgiven _ _ _

section
variable (h : Given before total tail start at' s)
include h

theorem wp_give (hextent : call.extent = some (at', rows))
    (hrows : 0 < rows) (hle : at' + rows ≤ total) (hsound : call.Sound total tail) :
    wp (perform devices (.draft call)) (fun _ => Given before total tail start (at' + rows))
      (Stopped devices before total tail start) s := by
  have hgiven (position maxContext : Nat) (phase : Phase) : Given before total tail start (at' + rows)
      { phase, position, maxContext, operations := s.operations ++ [.draft call] } := by
    obtain ⟨calls, hcalls, htiles, hall⟩ := h
    refine ⟨calls ++ [call], ?_, htiles.concat hextent hrows, ?_⟩
    · rw [← append_assoc, ← hcalls]
      simp [draftCalls]
    · intro c hc
      rcases mem_append.mp hc with hc | hc
      · exact hall c hc
      · exact mem_singleton.mp hc ▸ hsound
  exact wp_performed hle hgiven

theorem wp_other (hle : at' ≤ total)
    (hother : ∀ call, operation = .draft call → call.extent = none ∧ call.Sound total tail) :
    wp (perform devices operation) (fun _ => Given before total tail start at')
      (Stopped devices before total tail start) s := by
  have hgiven (position maxContext : Nat) (phase : Phase) : Given before total tail start at'
      { phase, position, maxContext, operations := s.operations ++ [operation] } := by
    obtain ⟨calls, hcalls, htiles, hall⟩ := h
    by_cases hdraft : ∃ call, operation = .draft call
    · obtain ⟨call, rfl⟩ := hdraft
      obtain ⟨hextent, hsound⟩ := hother call rfl
      refine ⟨calls ++ [call], ?_, htiles.concat_none hextent, ?_⟩
      · rw [← append_assoc, ← hcalls]
        simp [draftCalls]
      · intro c hc
        rcases mem_append.mp hc with hc | hc
        · exact hall c hc
        · exact mem_singleton.mp hc ▸ hsound
    refine ⟨calls, ?_, htiles, hall⟩
    rw [← hcalls]
    cases operation with
    | draft call => exact absurd ⟨call, rfl⟩ hdraft
    | _ => simp [draftCalls]
  exact wp_performed hle hgiven

theorem wp_forward (hle : at' ≤ total) (hother : ∀ call, operation ≠ .draft call) :
    wp (forward devices operation rows) (fun _ => Given before total tail start at')
      (Stopped devices before total tail start) s := by
  unfold forward
  rw [wp_bind]
  exact wp_fail (wp_other h hle fun call hcall => absurd hcall (hother call)) fun _ _ he => he

end

theorem wp_check_never {bad : Prop} [Decidable bad] {e : Exn}
    (hgood : ¬ bad) (hQ : Q () s) : wp (check bad e) Q E s := by
  unfold check throwIf
  rw [if_neg hgood]
  exact hQ

theorem wp_forBlocks {P : Nat → Round → Prop} (hsize : 0 < size)
    (hstep : ∀ at' s, P at' s → at' < stop →
      wp (body at' (min size (stop - at'))) (fun _ s' => P (at' + min size (stop - at')) s') E s)
     (hfuel : stop ≤ at' + fuel) (hle : at' ≤ stop) (h : P at' s) :
    wp (forBlocks size body fuel at' stop) (fun _ => P stop) E s := by
  induction fuel generalizing at' s with
  | zero =>
    obtain rfl : at' = stop := by omega
    exact h
  | succ fuel ih =>
    unfold forBlocks
    split
    · next hlt =>
      rw [wp_bind]
      exact wp_imp (hstep at' s h hlt) fun _ _ h' => ih (by omega) (by omega) h'
    next hge =>
    obtain rfl : at' = stop := by omega
    exact h

/-! ## The schedules give every row once -/

theorem wp_commitCaptured (h : Given before total tail start at' s)
    (hrows : 1 ≤ rows) (hmost : rows ≤ 1024) (hle : at' + rows ≤ total)
    (hring : ringBegin ≤ 0 ∨ ringBegin ≤ (total : Int) - 2048) :
    wp (commitCaptured devices rows at' ringBegin) (fun _ => Given before total tail start (at' + rows))
      (Stopped devices before total tail start) s := by
  unfold commitCaptured
  rw [wp_bind]
  refine wp_check_never (by omega) ?_
  refine wp_forBlocks (P := Given before total tail start) (by decide) ?_ (by omega) (by omega) h
  intro block s hblock hlt
  split
  · exact wp_give hblock rfl (by omega) (by omega) ⟨by omega, by omega⟩
  rw [wp_bind]
  refine wp_imp (wp_other hblock (by omega) (by simp)) fun _ s' hs' => ?_
  exact wp_give hs' rfl (by omega) (by omega) (by
    show _ ≤ 16
    omega)

theorem wp_wideCalls
    (hbody : ∀ at' rows s, Given before total tail start at' s → at' ≤ total → 1 ≤ rows →
      wp (body at' rows) (fun _ => Given before total tail start at') (Stopped devices before total tail start) s)
    (hring : ringBegin ≤ 0 ∨ ringBegin ≤ (total : Int) - 2048) (hle : at' ≤ total)
    (h : Given before total tail start at' s) :
    wp (forBlocks 1024 (fun first rows => do
        body first rows
        commitCaptured devices rows first ringBegin) total at' total)
      (fun _ => Given before total tail start total) (Stopped devices before total tail start) s := by
  refine wp_forBlocks (P := Given before total tail start) (by decide) ?_ (by omega) hle h
  intro block s hblock hlt
  rw [wp_bind]
  refine wp_imp (hbody block _ s hblock (by omega) (by omega)) fun _ s' hs' => ?_
  exact wp_commitCaptured hs' (by omega) (by omega) (by omega) hring

theorem wp_poisoning {body : RoundM Unit} (h : wp body Q (Stopped devices before total tail start) s) :
    wp (poisoning body) Q (Stopped devices before total tail start) s := by
  unfold poisoning
  rw [wp_tryCatch]
  refine wp_fail h fun e s' he => ?_
  exact he

section LayerMajor

/-- The rows that the layer-major schedule of a fresh prompt passes as one tail. -/
def freshTail (devices : Devices) (total : Nat) : Nat :=
  max (layerMajorInitialRows devices) (retainedStartFor total)

theorem layerMajorInitialRows_cases (devices : Devices) :
    layerMajorInitialRows devices = 0 ∨ layerMajorInitialRows devices = 16 := by
  unfold layerMajorInitialRows
  split
  · exact .inl rfl
  · exact .inr rfl

theorem freshTail_rows (devices : Devices) (htotal : 2048 ≤ total) :
    freshTail devices total ≤ total ∧ 2032 ≤ total - freshTail devices total ∧
      total - freshTail devices total ≤ 2063 := by
  unfold freshTail
  rw [retainedStartFor_eq]
  unfold ringBoundary
  rcases layerMajorInitialRows_cases devices with hinitial | hinitial
  · omega
  · omega

/-- The walk has come to `at'`, and the draft has its rows as far as the tail. -/
structure Walked (devices : Devices) (before : List Operation) (total stop at' : Nat) (s : Round) : Prop where
  initial : layerMajorInitialRows devices ≤ at'
  step : InStep 0 stop at'
  given : Given before total (freshTail devices total) 0 (min at' (freshTail devices total)) s

theorem freshTail_eq (devices : Devices) (total : Nat) :
    freshTail devices total = max (layerMajorInitialRows devices) (16 * ((total - 2048) / 16)) := by
  unfold freshTail
  rw [retainedStartFor_eq]
  unfold ringBoundary
  omega

theorem inStep_initial (devices : Devices) (total : Nat) : InStep 0 total (layerMajorInitialRows devices) := by
  rcases layerMajorInitialRows_cases devices with hrows | hrows
  · exact .inl ⟨0, by omega⟩
  · exact .inl ⟨1, by omega⟩

section
variable (htotal : 2048 ≤ total)
include htotal

theorem wp_walkBlock (hstop : InStep 0 total stop) (hle : stop ≤ total)
    (h : Walked devices before total stop at' s) (hlt : at' < stop) :
    wp (walkBlock devices total (freshTail devices total) at' (min 16 (stop - at')))
      (fun _ s' => Walked devices before total stop (at' + min 16 (stop - at')) s')
      (Stopped devices before total (freshTail devices total) 0) s := by
  obtain ⟨hinitial, hat, hgiven⟩ := h
  obtain ⟨⟨k, hk⟩, hnext, hcount⟩ := hat.block hlt hstop
  have hboundary := freshTail_eq devices total
  unfold walkBlock
  split
  · next hold =>
    have hbefore : at' + min 16 (stop - at') ≤ freshTail devices total := by omega
    rw [Nat.min_eq_left (by omega)] at hgiven
    refine wp_imp (wp_give hgiven rfl (by omega) (by omega) ⟨by omega, hold⟩) fun _ s' hs' => ?_
    refine ⟨by omega, hnext, ?_⟩
    rwa [Nat.min_eq_left hbefore]
  next hnew =>
  have hbehind : freshTail devices total ≤ at' := by
    rcases layerMajorInitialRows_cases devices with hrows | hrows
    · omega
    · omega
  refine wp_check_never (by omega) ⟨by omega, hnext, ?_⟩
  rw [Nat.min_eq_right hbehind] at hgiven
  rwa [Nat.min_eq_right (by omega)]

theorem wp_walkForward (h : Walked devices before total total at' s) (hlt : at' < total) :
    wp (forBlocks 16 (walkBlock devices total (freshTail devices total)) (min 1024 (total - at')) at'
        (at' + min 1024 (total - at')))
      (fun _ s' => Walked devices before total total (at' + min 1024 (total - at')) s')
      (Stopped devices before total (freshTail devices total) 0) s := by
  obtain ⟨hinitial, hat, hgiven⟩ := h
  obtain ⟨k, hk⟩ := hat.resolve_right (by omega)
  have hstop : InStep 0 total (at' + min 1024 (total - at')) := InStep.forward hk (by omega)
  refine wp_imp (wp_forBlocks (P := Walked devices before total (at' + min 1024 (total - at')))
    (by decide) (fun at'' s hs hless => wp_walkBlock htotal hstop (by omega) hs hless) (by omega) (by omega)
    ⟨hinitial, .inl ⟨k, hk⟩, hgiven⟩) fun _ s' hs' => ⟨hs'.initial, hstop, hs'.given⟩

theorem wp_prefillLayerMajor (h : Given before total (freshTail devices total) 0 (layerMajorInitialRows devices) s) :
    wp (prefillLayerMajor devices total) (fun _ => Given before total (freshTail devices total) 0 total)
      (Stopped devices before total (freshTail devices total) 0) s := by
  obtain ⟨htail, hshort, hlong⟩ := freshTail_rows devices htotal
  have hfirst : max (layerMajorInitialRows devices) (retainedStartFor total) = freshTail devices total := rfl
  have hinitial : layerMajorInitialRows devices ≤ freshTail devices total := Nat.le_max_left _ _
  have hstart : InStep 0 total (layerMajorInitialRows devices) := inStep_initial devices total
  unfold prefillLayerMajor
  dsimp only
  rw [hfirst, wp_bind]
  refine wp_check_never (by omega) ?_
  rw [wp_bind]
  refine wp_imp (wp_other h (by omega) (by simp)) fun _ s' hs' => ?_
  rw [wp_bind]
  refine wp_imp (wp_forward hs' (by omega) (by simp)) fun _ s' hs' => ?_
  rw [wp_bind]
  rw [← Nat.min_eq_left hinitial] at hs'
  refine wp_imp (wp_forBlocks (P := Walked devices before total total) (by decide)
    (fun at' s hs hlt => wp_walkForward htotal hs hlt) (by omega) (by omega) ⟨Nat.le_refl _, hstart, hs'⟩)
    fun _ s' hs' => ?_
  have hgiven := hs'.given
  rw [Nat.min_eq_right htail] at hgiven
  rw [wp_bind]
  have hrows : freshTail devices total + (total - freshTail devices total) = total := by omega
  refine wp_imp (wp_give hgiven rfl (by omega) (by omega) ⟨rfl, hrows, hshort, hlong⟩) fun _ s' hs' => ?_
  rw [hrows] at hs'
  exact wp_other hs' (Nat.le_refl _) (by simp)

end

/-- The blocks that the walk of `prefill_layer_major` visits. -/
def walkedBlocks (devices : Devices) (total : Nat) : List (Nat × Nat) :=
  foldBlocks 1024 (fun at' forwardRows blocks =>
    foldBlocks 16 (fun absolute count blocks => blocks ++ [(absolute, count)]) forwardRows at' (at' + forwardRows) blocks)
    total (layerMajorInitialRows devices) total []

/-- The block is before the ring and before the tail, or reaches into the ring and lies in the tail. -/
def Agrees (devices : Devices) (total : Nat) (block : Nat × Nat) : Prop :=
  (((block.1 + block.2 : Nat) : Int) ≤ (total : Int) - 2048 ∧ block.1 + block.2 ≤ freshTail devices total) ∨
    ((total : Int) - 2048 < ((block.1 + block.2 : Nat) : Int) ∧ freshTail devices total ≤ block.1)

theorem walkedBlocks_agree (htotal : 2048 ≤ total) : ∀ block ∈ walkedBlocks devices total, Agrees devices total block := by
  have hboundary := freshTail_eq devices total
  have hinitial := layerMajorInitialRows_cases devices
  let P : Nat → Nat → List (Nat × Nat) → Prop := fun stop at' blocks =>
    layerMajorInitialRows devices ≤ at' ∧ InStep 0 stop at' ∧ ∀ block ∈ blocks, Agrees devices total block
  have hinner (at' stop : Nat) (blocks : List _) (hstop : InStep 0 total stop) (hle : stop ≤ total)
      (hless : at' ≤ stop) (fuel : Nat) (hfuel : stop ≤ at' + fuel) (h : P stop at' blocks) :
      P stop stop (foldBlocks 16 (fun absolute count blocks => blocks ++ [(absolute, count)]) fuel at' stop blocks) := by
    refine foldBlocks_inv (P := P stop) (by decide) ?_ hfuel hless h
    intro absolute blocks ⟨hmin, hat, hall⟩ hlt
    obtain ⟨⟨k, hk⟩, hnext, hcount⟩ := hat.block hlt hstop
    refine ⟨by omega, hnext, fun block hblock => ?_⟩
    rcases mem_append.mp hblock with hblock | hblock
    · exact hall block hblock
    obtain rfl := mem_singleton.mp hblock
    unfold Agrees
    omega
  have houter : P total total (walkedBlocks devices total) := by
    refine foldBlocks_inv (P := P total) (by decide) ?_ (by omega) (by omega) ⟨Nat.le_refl _, ?_, by simp⟩
    · intro at' blocks ⟨hmin, hat, hall⟩ hlt
      obtain ⟨k, hk⟩ := hat.resolve_right (by omega)
      have hstop : InStep 0 total (at' + min 1024 (total - at')) := InStep.forward hk (by omega)
      obtain ⟨hmin', -, hall'⟩ := hinner at' _ blocks hstop (by omega) (by omega)
        (min 1024 (total - at')) (by omega) ⟨hmin, .inl ⟨k, hk⟩, hall⟩
      exact ⟨hmin', hstop, hall'⟩
    · exact inStep_initial devices total
  exact houter.2.2

end LayerMajor

/-! ## Whole ingestions -/

theorem wp_beginInitial {initial : Nat} (h : Given before total tail 0 0 s)
    (hmost : initial ≤ 16) (hle : initial ≤ total) :
    wp (beginInitial devices total initial layerMajor) (fun _ => Given before total tail 0 initial)
      (Stopped devices before total tail 0) s := by
  unfold beginInitial
  split
  · next hzero =>
    subst hzero
    exact h
  next hsome =>
  rw [wp_bind]
  refine wp_imp (wp_forward h (by omega) (by simp)) fun _ s' hs' => ?_
  split
  · next hlong =>
    have hgive : wp (perform devices (.draft (.skipFreshPrefillBlock initial 0)))
        (fun _ => Given before total tail 0 (0 + initial)) (Stopped devices before total tail 0) s' :=
      wp_give hs' rfl (by omega) (by omega) ⟨hmost, by omega⟩
    rwa [Nat.zero_add] at hgive
  have hcommit : wp (commitCaptured devices initial 0 0)
      (fun _ => Given before total tail 0 (0 + initial)) (Stopped devices before total tail 0) s' :=
    wp_commitCaptured hs' (by omega) (by omega) (by omega) (.inl (Int.le_refl 0))
  rwa [Nat.zero_add] at hcommit

theorem wp_freshSchedule
    (h : Given before total (freshTail devices total) 0
      (if (layerMajor && decide (total ≥ 2048)) = true then layerMajorInitialRows devices else min 16 total) s)
    (hle : (if (layerMajor && decide (total ≥ 2048)) = true then layerMajorInitialRows devices else min 16 total) ≤ total) :
    wp (freshSchedule devices total
        (if (layerMajor && decide (total ≥ 2048)) = true then layerMajorInitialRows devices else min 16 total)
        (layerMajor && decide (total ≥ 2048)))
      (fun _ => Given before total (freshTail devices total) 0 total)
      (Stopped devices before total (freshTail devices total) 0) s := by
  unfold freshSchedule
  by_cases hlong : (layerMajor && decide (total ≥ 2048)) = true
  · rw [if_pos hlong] at h ⊢
    exact wp_prefillLayerMajor (by simpa using (Bool.and_eq_true_iff.mp hlong).2) h
  rw [if_neg hlong]
  exact wp_wideCalls (fun at' rows s' hs' hle _ => wp_forward hs' hle (by simp)) (.inr (Int.le_refl _)) hle h

theorem given_start (total tail start : Nat) (s : Round) : Given s.operations total tail start start s :=
  ⟨[], by simp, rfl, by simp⟩

theorem wp_beginFresh (layerMajor : Bool) (hphase : s.phase = .unstarted) (hposition : s.position = 0)
    (hpositive : 0 < total) (hroom : total ≤ s.maxContext) :
    wp (beginFresh devices total layerMajor) (fun _ => Given s.operations total (freshTail devices total) 0 total)
      (Stopped devices s.operations total (freshTail devices total) 0) s := by
  have hinitial := layerMajorInitialRows_cases devices
  unfold beginFresh
  rw [wp_get_bind]
  rw [wp_bind]
  refine wp_check_never (by simp [hphase]) ?_
  rw [wp_bind]
  refine wp_check_never (by omega) ?_
  rw [wp_bind]
  refine wp_poisoning ?_
  have hstart := given_start total (freshTail devices total) 0 s
  rw [wp_bind]
  refine wp_imp (wp_other hstart (by omega) (by simp [DraftCall.extent, DraftCall.Sound])) fun _ s' hs' => ?_
  rw [wp_bind]
  refine wp_imp (wp_other hs' (by omega) (by simp [DraftCall.extent, DraftCall.Sound])) fun _ s' hs' => ?_
  rw [wp_bind]
  -- the first rows, then the rest by the schedule
  have hrows : (if (layerMajor && decide (total ≥ 2048)) = true then layerMajorInitialRows devices else min 16 total) ≤ 16 ∧
      (if (layerMajor && decide (total ≥ 2048)) = true then layerMajorInitialRows devices else min 16 total) ≤ total := by
    split
    · next hlong =>
      have : total ≥ 2048 := by simpa using (Bool.and_eq_true_iff.mp hlong).2
      omega
    · omega
  refine wp_imp (wp_beginInitial hs' hrows.1 hrows.2) fun _ s' hs' => ?_
  rw [wp_bind]
  refine wp_imp (wp_freshSchedule hs' hrows.2) fun _ s' hs' => ?_
  rw [wp_bind]
  refine wp_imp (wp_other hs' (Nat.le_refl _) (by simp [DraftCall.extent, DraftCall.Sound])) fun _ s' hs' => ?_
  rw [wp_bind]
  exact wp_imp (wp_other hs' (Nat.le_refl _) (by simp)) fun _ s' hs' => hs'

theorem wp_ingestSuffixLayerMajor (hlong : first + layerMajorSuffixRows ≤ total) :
    wp (ingestSuffixLayerMajor devices total first)
      (fun _ => Given s.operations total (ringBoundary first total) first total)
      (Stopped devices s.operations total (ringBoundary first total) first) s := by
  have hsuffix : layerMajorSuffixRows = 4096 := rfl
  have htail : foldBlocks 16 (passBlock total) total first total first = ringBoundary first total := by
    rw [foldBlocks_passBlock (.inl ⟨0, by omega⟩ : InStep first total first) (.inr rfl) (by unfold ringBoundary; omega) (by omega)
      (by omega)]
    unfold ringBoundary
    omega
  have hbounds : first ≤ ringBoundary first total ∧
      ((ringBoundary first total : Nat) : Int) ≤ (total : Int) - 2048 ∧ total - ringBoundary first total ≤ 2063 := by
    unfold ringBoundary
    omega
  have hskip (at' : Nat) (s' : Round) (hs' : Given s.operations total (ringBoundary first total) first at' s')
      (hlt : at' < ringBoundary first total) :
      wp (perform devices (.draft (.skipFreshPrefillBlock (min 16 (ringBoundary first total - at')) at')))
        (fun _ s'' => Given s.operations total (ringBoundary first total) first
          (at' + min 16 (ringBoundary first total - at')) s'')
        (Stopped devices s.operations total (ringBoundary first total) first) s' := by
    refine wp_give hs' rfl (by omega) (by omega) ?_
    unfold DraftCall.Sound
    omega
  unfold ingestSuffixLayerMajor
  rw [htail, wp_bind]
  refine wp_check_never (by omega) ?_
  rw [wp_bind]
  refine wp_poisoning ?_
  have hstart := given_start total (ringBoundary first total) first s
  rw [wp_bind]
  refine wp_imp (wp_other hstart (by omega) (by simp)) fun _ s' hs' => ?_
  rw [wp_bind]
  refine wp_imp (wp_other hs' (by omega) (by simp [DraftCall.extent, DraftCall.Sound])) fun _ s' hs' => ?_
  rw [wp_bind]
  refine wp_imp (wp_other hs' (by omega) (by simp [DraftCall.extent, DraftCall.Sound])) fun _ s' hs' => ?_
  rw [wp_bind]
  refine wp_imp (wp_forward hs' (by omega) (by simp)) fun _ s' hs' => ?_
  rw [wp_bind]
  refine wp_imp (wp_forBlocks (P := Given s.operations total (ringBoundary first total) first)
    (by decide) hskip (by omega) hbounds.1 hs') fun _ s' hs' => ?_
  rw [wp_bind]
  have hrows : ringBoundary first total + (total - ringBoundary first total) = total := by omega
  refine wp_imp (wp_give hs' rfl (by omega) (by omega) ⟨rfl, hrows, by omega, hbounds.2.2⟩) fun _ s' hs' => ?_
  rw [hrows] at hs'
  rw [wp_bind]
  refine wp_imp (wp_other hs' (Nat.le_refl _) (by simp [DraftCall.extent, DraftCall.Sound])) fun _ s' hs' => ?_
  rw [wp_bind]
  exact wp_imp (wp_other hs' (Nat.le_refl _) (by simp)) fun _ s' hs' => hs'

theorem wp_ingestSuffix (hphase : s.phase = .unstarted) (hfirst : 0 < first) (hposition : s.position = first)
    (hsome : first < total) (hring : devices.ringEnd s.operations = first) :
    wp (ingestSuffix devices total first) (fun _ => Given s.operations total (ringBoundary first total) first total)
      (Stopped devices s.operations total (ringBoundary first total) first) s := by
  unfold ingestSuffix
  rw [wp_bind, wp_get]
  dsimp only
  rw [wp_bind]
  refine wp_check_never ?_ ?_
  · rw [hphase, hring]
    simp
    omega
  split
  · next hlong => exact wp_ingestSuffixLayerMajor (by omega)
  rw [wp_bind]
  refine wp_poisoning ?_
  have hstart := given_start total (ringBoundary first total) first s
  rw [wp_bind]
  refine wp_imp (wp_wideCalls ?_ (.inl (Int.le_refl 0)) (by omega) hstart) fun _ s' hs' => ?_
  · intro at' rows s' hs' hle _
    unfold suffixForward
    split
    · exact wp_forward hs' hle (by simp)
    · exact wp_forward hs' hle (by simp)
  rw [wp_bind]
  exact wp_imp (wp_other hs' (Nat.le_refl _) (by simp)) fun _ s' hs' => hs'

/-- Whatever the devices do: a fresh prompt of any admitted length, and a suffix from any admitted frontier, is given to
    the draft row by row, each row once and in order, until the devices throw. Blocks are skipped before the ring only,
    the bulk call has the rows behind the last of these, and nothing else throws. -/
theorem prefill_tiles_prompt (devices : Devices) :
    (∀ total layerMajor s, s.phase = .unstarted → s.position = 0 → 0 < total → total ≤ s.maxContext →
      wp (beginFresh devices total layerMajor)
        (fun _ s' => Given s.operations total (freshTail devices total) 0 total s')
        (Stopped devices s.operations total (freshTail devices total) 0) s) ∧
    (∀ total (first : Nat) s, s.phase = .unstarted → 0 < first → s.position = first → first < total →
      devices.ringEnd s.operations = first →
      wp (ingestSuffix devices total first)
        (fun _ s' => Given s.operations total (ringBoundary first total) first total s')
        (Stopped devices s.operations total (ringBoundary first total) first) s) ∧
    ∀ total, 2048 ≤ total → ∀ block ∈ walkedBlocks devices total, Agrees devices total block :=
  ⟨fun _ layerMajor _ hphase hposition hpositive hroom => wp_beginFresh layerMajor hphase hposition hpositive hroom,
    fun _ _ _ hphase hfirst hposition hsome hring => wp_ingestSuffix hphase hfirst hposition hsome hring,
    fun _ htotal => walkedBlocks_agree htotal⟩

/-! A prompt of several blocks, and a suffix behind it. -/

def quietDevices : Devices where
  throws _ _ := none
  ringEnd _ := 5000
  layerMajorFromZero := false
  l0OscarEnabled := true

def freshRound (position : Nat) : Round where
  phase := .unstarted
  position := position
  maxContext := 8192
  operations := []

theorem prefill_tiles_prompt_blocks :
    wp (beginFresh quietDevices 5000 true)
        (fun _ s' => Given (freshRound 0).operations 5000 (freshTail quietDevices 5000) 0 5000 s')
        (Stopped quietDevices (freshRound 0).operations 5000 (freshTail quietDevices 5000) 0) (freshRound 0) ∧
      wp (ingestSuffix quietDevices 7500 (5000 : Nat))
        (fun _ s' => Given (freshRound 5000).operations 7500 (ringBoundary 5000 7500) 5000 7500 s')
        (Stopped quietDevices (freshRound 5000).operations 7500 (ringBoundary 5000 7500) 5000) (freshRound 5000) ∧
      3 ≤ (walkedBlocks quietDevices 5000).length ∧
      ∀ block ∈ walkedBlocks quietDevices 5000, Agrees quietDevices 5000 block := by
  obtain ⟨hfresh, hsuffix, hblocks⟩ := prefill_tiles_prompt quietDevices
  refine ⟨?_, ?_, by decide +kernel, hblocks 5000 (by decide)⟩
  · -- with the round as it stands, elaboration would run it
    generalize hs : freshRound 0 = s
    have hroom : 5000 ≤ s.maxContext := by
      rw [← hs]
      decide
    exact hfresh 5000 true s (by rw [← hs]; rfl) (by rw [← hs]; rfl) (by decide) hroom
  · generalize hs : freshRound 5000 = s
    exact hsuffix 7500 5000 s (by rw [← hs]; rfl) (by decide) (by rw [← hs]; rfl) (by decide) rfl

end VoidInfer.Exl3.FreshPrefill
