import VoidInfer.Base
import VoidInfer.Lib.Throwing

/-
  `Exl3ExportCopyPlan` (`src/exl3/export_copy_plan.h`): copies to be submitted, with ranges that continue the last
  segment on both sides merged into it.

  `Joins s group` says what a segment stands for: copying it is copying the ranges of its group in order. `Inv` splits
  the accepted ranges into the groups of the plan's segments, from which `plan_run` reads off what submitting the plan
  writes and what the counters count.
-/

namespace VoidInfer.Exl3.ExportCopy
open Throwing List Option

inductive Precision where
  | fp16 | fp32
deriving DecidableEq

/-- `element`: the bytes of one. -/
def Precision.element : Precision → Nat
  | .fp16 => 2
  | .fp32 => 4

/-- The arguments of `add`, with the pointers as addresses. -/
structure Range where
  destination : Nat
  source : Nat
  bytes : Nat
  precision : Precision
  containsPadding : Bool := false
  coalesce : Bool := true

structure Segment where
  destination : Nat
  source : Nat
  bytes : Nat
  logicalRanges : Nat
  precision : Precision
deriving DecidableEq

/-- `Exl3ExportCopyPlan`; `segments` are the first `count_` of the array. -/
structure Plan where
  segments : List Segment := []
  logicalRanges : Nat := 0
  logicalBytes : Nat := 0
  coalescedRanges : Nat := 0
  lastContainsPadding : Bool := false
deriving DecidableEq

/-- `std::size_t` arithmetic. -/
def wrap (n : Nat) : Nat := n % 2 ^ 64

def checkedAdd (left right : Nat) : EStateM Exn Plan Nat :=
  if right > sizeMax - left then throw (.overflowError "export copy byte extent")
  else return left + right

/-- The segment that the range continues. -/
def Plan.previous (p : Plan) (r : Range) : Option Segment :=
  if r.coalesce ∧ ¬ r.containsPadding ∧ ¬ p.lastContainsPadding then
    p.segments.getLast?.filter fun previous => previous.precision = r.precision ∧
      wrap (previous.destination + previous.bytes) = r.destination ∧
      wrap (previous.source + previous.bytes) = r.source
  else none

def add (capacity : Nat) (r : Range) : EStateM Exn Plan Bool := do
  let p ← get
  if r.destination = 0 ∨ r.source = 0 ∨ r.bytes = 0 ∨ r.bytes % r.precision.element ≠ 0 then
    throw (.invalidArgument "export copy range identity/precision")
  else if r.bytes > sizeMax - r.destination ∨ r.bytes > sizeMax - r.source then
    throw (.invalidArgument "export copy range overflow")
  else match p.previous r with
  | some previous =>
    let mergedBytes ← checkedAdd previous.bytes r.bytes
    let nextLogicalBytes ← checkedAdd p.logicalBytes r.bytes
    let merged := { previous with
      bytes := mergedBytes, logicalRanges := wrap (previous.logicalRanges + 1) }
    set { segments := p.segments.dropLast ++ [merged],
          logicalRanges := wrap (p.logicalRanges + 1), logicalBytes := nextLogicalBytes,
          coalescedRanges := wrap (p.coalescedRanges + 1), lastContainsPadding := false : Plan }
    return true
  | none =>
    if p.segments.length = capacity then return false
    else
      let nextLogicalBytes ← checkedAdd p.logicalBytes r.bytes
      let segment : Segment := ⟨r.destination, r.source, r.bytes, 1, r.precision⟩
      set { p with
        segments := p.segments ++ [segment], logicalRanges := wrap (p.logicalRanges + 1),
        logicalBytes := nextLogicalBytes,
        lastContainsPadding := r.containsPadding || !r.coalesce }
      return true

structure Submission where
  attempted : Nat := 0
  completed : Nat := 0
  failedSegment : Nat
  status : Int := 0
deriving DecidableEq

/-- The loop of `submit`; `submitOne` acts on the caller's state. -/
def submitFrom {μ : Type} (submitOne : Segment → μ → Int × μ) :
    List Segment → Submission → μ → Submission × μ
  | [], result, m => (result, m)
  | segment :: rest, result, m =>
    let (status, m) := submitOne segment m
    if status ≠ 0 then
      ({ result with attempted := result.attempted + 1, failedSegment := result.attempted, status }, m)
    else submitFrom submitOne rest
      { result with attempted := result.attempted + 1, completed := result.completed + 1 } m

def Plan.submit {μ : Type} (capacity : Nat) (submitOne : Segment → μ → Int × μ) (p : Plan) (m : μ) : Submission × μ :=
  submitFrom submitOne p.segments { failedSegment := capacity } m

/-- The plan after some calls, and the ranges it accepted. -/
def run (capacity : Nat) : List Range → Plan × List Range → Plan × List Range
  | [], world => world
  | r :: rest, (p, accepted) =>
    match add capacity r p with
    | .ok ok p' => run capacity rest (p', if ok then accepted ++ [r] else accepted)
    | .error _ p' => run capacity rest (p', accepted)

/-! ## Copying -/

variable {α : Type} {src dst : Nat → α} {capacity : Nat} {r : Range} {s : Segment} {p : Plan}
  {group accepted : List Range}

/-- The destination after a copy from the source memory. -/
def copied (src : Nat → α) (destination source bytes : Nat) (dst : Nat → α) : Nat → α := fun a =>
  if destination ≤ a ∧ a < destination + bytes then src (source + (a - destination)) else dst a

/-- Copying the ranges one by one. -/
def copyAll (src : Nat → α) (ranges : List Range) (dst : Nat → α) : Nat → α :=
  ranges.foldl (fun dst r => copied src r.destination r.source r.bytes dst) dst

theorem copied_copied (d e n k : Nat) :
    copied src (d + n) (e + n) k (copied src d e n dst) = copied src d e (n + k) dst := by
  funext a
  unfold copied
  by_cases hlow : d ≤ a ∧ a < d + n
  · rw [if_neg (by omega), if_pos hlow, if_pos (by omega)]
  by_cases hhigh : d + n ≤ a ∧ a < d + n + k
  · rw [if_pos hhigh, if_pos (by omega), show e + n + (a - (d + n)) = e + (a - d) by omega]
  · rw [if_neg hhigh, if_neg hlow, if_neg (by omega)]

/-- The range asks not to be merged. -/
def Range.Apart (r : Range) : Prop := r.containsPadding = true ∨ r.coalesce = false

/-- What a segment stands for. -/
structure Joins (s : Segment) (group : List Range) : Prop where
  positive : 0 < group.length
  count : s.logicalRanges = group.length
  bytes : s.bytes = (group.map Range.bytes).sum
  precision : ∀ r ∈ group, r.precision = s.precision
  apart : 2 ≤ group.length → ∀ r ∈ group, ¬ r.Apart
  copies : ∀ {α : Type} (src dst : Nat → α),
    copied src s.destination s.source s.bytes dst = copyAll src group dst
  fits : s.destination + s.bytes ≤ sizeMax ∧ s.source + s.bytes ≤ sizeMax

theorem joins_singleton (h : ¬ (r.bytes > sizeMax - r.destination ∨ r.bytes > sizeMax - r.source))
    (hpos : r.destination ≠ 0 ∧ r.source ≠ 0 ∧ r.bytes ≠ 0) :
    Joins ⟨r.destination, r.source, r.bytes, 1, r.precision⟩ [r] where
  positive := by simp
  count := rfl
  bytes := by simp
  precision := by simp
  apart h := nomatch h
  copies _ _ := rfl
  fits := by constructor <;> dsimp only <;> omega

theorem Joins.merge (h : Joins s group) (hflags : ∀ r ∈ group, ¬ r.Apart) (hr : ¬ r.Apart)
    (hprecision : s.precision = r.precision) (hd : s.destination + s.bytes = r.destination)
    (hs : s.source + s.bytes = r.source)
    (hfit : ¬ (r.bytes > sizeMax - r.destination ∨ r.bytes > sizeMax - r.source))
    (hpos : r.bytes ≠ 0) :
    Joins { s with bytes := s.bytes + r.bytes, logicalRanges := s.logicalRanges + 1 } (group ++ [r]) where
  positive := by simp
  count := by simp [h.count]
  bytes := by simp [h.bytes]
  precision x hx := by
    rcases mem_append.mp hx with hx | hx
    · exact h.precision x hx
    · rw [mem_singleton.mp hx, hprecision]
  apart _ x hx := by
    rcases mem_append.mp hx with hx | hx
    · exact hflags x hx
    · rwa [mem_singleton.mp hx]
  copies src dst := by
    have hall : copyAll src (group ++ [r]) dst =
        copied src r.destination r.source r.bytes (copyAll src group dst) := foldl_append
    rw [hall, ← h.copies src dst, ← hd, ← hs, copied_copied]
  fits := by constructor <;> dsimp only <;> omega

/-! ## The invariant -/

/-- The accepted ranges in groups, one for each segment; the counters count them. -/
structure Inv (p : Plan) (accepted : List Range) : Prop where
  parts : ∃ parts : List (Segment × List Range), p.segments = parts.map Prod.fst ∧
    accepted = parts.flatMap Prod.snd ∧ (∀ x ∈ parts, Joins x.1 x.2) ∧
    (p.lastContainsPadding = false → ∀ x, parts.getLast? = some x → ∀ r ∈ x.2, ¬ r.Apart)
  ranges : p.logicalRanges = accepted.length
  bytes : p.logicalBytes = (accepted.map Range.bytes).sum
  coalesced : p.segments.length + p.coalescedRanges = accepted.length
  atLeast : 2 * accepted.length ≤ p.logicalBytes
  fits : p.logicalBytes ≤ sizeMax

theorem parts_append {init : List (Segment × List Range)} (hinit : ∀ x ∈ init, Joins x.1 x.2)
    (hjoin : Joins s group) (hflags : p.lastContainsPadding = false → ∀ r ∈ group, ¬ r.Apart)
    (hsegments : p.segments = init.map Prod.fst ++ [s])
    (haccepted : accepted = init.flatMap Prod.snd ++ group) :
    ∃ parts : List (Segment × List Range), p.segments = parts.map Prod.fst ∧
      accepted = parts.flatMap Prod.snd ∧ (∀ x ∈ parts, Joins x.1 x.2) ∧
      (p.lastContainsPadding = false → ∀ x, parts.getLast? = some x → ∀ r ∈ x.2, ¬ r.Apart) := by
  refine ⟨init ++ [(s, group)], by simp [hsegments], by simp [haccepted], ?_, fun hflag x hx => ?_⟩
  · rintro x hx
    rcases mem_append.mp hx with hx | hx
    · exact hinit x hx
    rw [mem_singleton.mp hx]
    exact hjoin
  · rw [getLast?_concat] at hx
    cases hx
    exact hflags hflag

theorem Inv.initial : Inv {} [] := ⟨⟨[], by simp⟩, rfl, rfl, rfl, Nat.le_refl _, Nat.zero_le _⟩

theorem wp_checkedAdd {left right : Nat} {Q : Nat → Plan → Prop} {E : Exn → Plan → Prop}
    (hl : left ≤ sizeMax) (hQ : left + right ≤ sizeMax → Q (left + right) p) (hE : ∀ e, E e p) :
    wp (checkedAdd left right) Q E p := by
  unfold checkedAdd
  split
  · exact hE _
  · next h => exact hQ (by omega)

theorem wrap_eq {n : Nat} (h : n ≤ sizeMax) : wrap n = n := Nat.mod_eq_of_lt (by unfold sizeMax at h; omega)

theorem previous_spec {previous : Segment} (h : p.previous r = some previous) :
    p.segments.getLast? = some previous ∧ ¬ r.Apart ∧ p.lastContainsPadding = false ∧
      previous.precision = r.precision ∧ wrap (previous.destination + previous.bytes) = r.destination ∧
      wrap (previous.source + previous.bytes) = r.source := by
  unfold Plan.previous at h
  split at h
  · next hflags =>
    obtain ⟨hlast, hfilter⟩ := filter_eq_some_iff.mp h
    obtain ⟨hprecision, hd, hs⟩ := of_decide_eq_true hfilter
    refine ⟨hlast, ?_, by simpa using hflags.2.2, hprecision, hd, hs⟩
    simpa [Range.Apart, and_comm] using And.intro hflags.1 hflags.2.1
  · cases h

/-- `add` accepts the range, or leaves the plan as it is. -/
theorem wp_add (capacity : Nat) (r : Range) (hi : Inv p accepted) :
    wp (add capacity r) (fun ok p' => if ok then Inv p' (accepted ++ [r]) else p' = p) (fun _ p' => p' = p) p := by
  obtain ⟨parts, hsegments, haccepted, hjoins, hlast⟩ := hi.parts
  have hfits := hi.fits
  have hatLeast := hi.atLeast
  have hcoalesced := hi.coalesced
  simp only [add, wp_bind, wp_get]
  split
  · exact rfl
  next hshape =>
  split
  · exact rfl
  next hfit =>
  obtain ⟨hdestination, hsource, hbytes, hmod⟩ : r.destination ≠ 0 ∧ r.source ≠ 0 ∧ r.bytes ≠ 0 ∧
      r.bytes % r.precision.element = 0 := by
    simpa only [not_or, ne_eq, Classical.not_not] using hshape
  have htwo : 2 ≤ r.bytes := by
    cases hp : r.precision <;> rw [hp, Precision.element] at hmod <;> omega
  cases hprevious : p.previous r with
  | some previous =>
    obtain ⟨hgetLast, hplain, hpadding, hprecision, hd, hs⟩ := previous_spec hprevious
    obtain ⟨init, ⟨previous', group⟩, rfl⟩ : ∃ init x, parts = init ++ [x] := by
      rcases eq_nil_or_concat parts with rfl | ⟨init, x, h⟩
      · rw [hsegments] at hgetLast
        cases hgetLast
      · exact ⟨init, x, by rw [h, concat_eq_append]⟩
    obtain rfl : previous' = previous := by simpa [hsegments] using hgetLast
    have hjoin : Joins previous' group := hjoins (previous', group) (by simp)
    rw [wrap_eq hjoin.fits.1] at hd
    rw [wrap_eq hjoin.fits.2] at hs
    have hgroup : group.length ≤ accepted.length := by simp [haccepted]
    have hcount := hjoin.count
    simp only [wp_bind]
    refine wp_checkedAdd (by omega) (fun _ => ?_) fun _ => rfl
    refine wp_checkedAdd hfits (fun htotal => ?_) fun _ => rfl
    have hmerged := hjoin.merge (hlast hpadding (previous', group) (by simp)) hplain hprecision hd hs hfit hbytes
    rw [wrap_eq (by omega), wrap_eq (by rw [hi.ranges]; omega), wrap_eq (by omega)]
    refine ⟨parts_append (fun x hx => hjoins x (mem_append_left _ hx)) hmerged
      (fun _ => hmerged.apart (by simp; exact hjoin.positive)) (by simp [hsegments]) (by simp [haccepted]),
      by simp [hi.ranges], by simp [hi.bytes], ?_, ?_, htotal⟩
    · simp [hsegments] at hcoalesced ⊢
      omega
    · simp
      omega
  | none =>
    dsimp only
    split
    · exact rfl
    simp only [wp_bind]
    refine wp_checkedAdd hfits (fun htotal => ?_) fun _ => rfl
    rw [wrap_eq (by rw [hi.ranges]; omega)]
    have hjoin := joins_singleton hfit ⟨hdestination, hsource, hbytes⟩
    refine ⟨parts_append hjoins hjoin (fun hflag => by simpa [Range.Apart] using hflag)
      (by simp [hsegments]) (by simp [haccepted]), by simp [hi.ranges], by simp [hi.bytes], ?_, ?_, htotal⟩
    · simp
      omega
    · simp
      omega

/-! ## Runs -/

theorem Inv.run {calls : List Range} (hi : Inv p accepted) :
    Inv (run capacity calls (p, accepted)).1 (run capacity calls (p, accepted)).2 := by
  induction calls generalizing p accepted with
  | nil => exact hi
  | cons r rest ih =>
    have hadd := wp_add capacity r hi
    rw [ExportCopy.run]
    cases h : add capacity r p with
    | ok ok p' =>
      have hok := wp_ok hadd h
      cases ok with
      | false => exact ih (hok ▸ hi)
      | true => exact ih hok
    | error e p' => exact ih (wp_error hadd h ▸ hi)

/-- A submission that copies one segment; it does not fail. -/
def copyOne (src : Nat → α) (segment : Segment) (dst : Nat → α) : Int × (Nat → α) :=
  (0, copied src segment.destination segment.source segment.bytes dst)

theorem submitFrom_copyOne {segments : List Segment} {result : Submission} :
    submitFrom (copyOne src) segments result dst =
      ({ result with attempted := result.attempted + segments.length,
                     completed := result.completed + segments.length },
        segments.foldl (fun dst segment => (copyOne src segment dst).2) dst) := by
  induction segments generalizing result dst with
  | nil => rfl
  | cons segment rest ih =>
    rw [submitFrom]
    dsimp only [copyOne]
    refine ih.trans ?_
    simp only [length_cons, foldl_cons, Nat.add_assoc, Nat.add_comm 1]
    rfl

theorem copyAll_parts {parts : List (Segment × List Range)} (h : ∀ x ∈ parts, Joins x.1 x.2) :
    (parts.map Prod.fst).foldl (fun dst segment => (copyOne src segment dst).2) dst =
      copyAll src (parts.flatMap Prod.snd) dst := by
  induction parts generalizing dst with
  | nil => rfl
  | cons x rest ih =>
    have hrest : (rest.map Prod.fst).foldl (fun dst segment => (copyOne src segment dst).2) (copyAll src x.2 dst) =
        copyAll src (rest.flatMap Prod.snd) (copyAll src x.2 dst) :=
      ih fun y hy => h y (mem_cons_of_mem _ hy)
    have hall : copyAll src ((x :: rest).flatMap Prod.snd) dst =
        copyAll src (rest.flatMap Prod.snd) (copyAll src x.2 dst) := foldl_append
    rw [hall, ← hrest, ← (h x mem_cons_self).copies src dst]
    rfl

/-- After any calls: submitting the segments copies the accepted ranges in order, the counters
    count these, a segment of several ranges has none that asks to be kept apart and only one
    precision, and a call that returns false or throws changes nothing. -/
theorem plan_run (capacity : Nat) (calls : List Range) : let p := (run capacity calls ({}, [])).1
    let accepted := (run capacity calls ({}, [])).2
    (∀ {α : Type} (src dst : Nat → α), p.submit capacity (copyOne src) dst =
      (⟨p.segments.length, p.segments.length, capacity, 0⟩, copyAll src accepted dst)) ∧
    p.logicalRanges = accepted.length ∧ p.logicalBytes = (accepted.map Range.bytes).sum ∧
    p.logicalRanges = p.segments.length + p.coalescedRanges ∧
    (∃ parts : List (Segment × List Range), p.segments = parts.map Prod.fst ∧
      accepted = parts.flatMap Prod.snd ∧ ∀ x ∈ parts, x.1.logicalRanges = x.2.length ∧
        (∀ r ∈ x.2, r.precision = x.1.precision) ∧ (2 ≤ x.2.length → ∀ r ∈ x.2, ¬ r.Apart)) ∧
    ∀ r, wp (add capacity r) (fun ok p' => ok = false → p' = p) (fun _ p' => p' = p) p := by
  intro p accepted
  have hi : Inv p accepted := Inv.initial.run
  obtain ⟨parts, hsegments, haccepted, hjoins, -⟩ := hi.parts
  refine ⟨fun src dst => ?_, hi.ranges, hi.bytes, hi.ranges.trans hi.coalesced.symm,
    ⟨parts, hsegments, haccepted, fun x hx => ?_⟩, fun r => ?_⟩
  · rw [Plan.submit, submitFrom_copyOne, haccepted, ← copyAll_parts hjoins, hsegments]
    simp only [Nat.zero_add]
  · have hjoin := hjoins x hx
    exact ⟨hjoin.count, hjoin.precision, hjoin.apart⟩
  · refine wp_imp (wp_add capacity r hi) fun ok p' h hok => ?_
    subst hok
    exact h

/-- Two ranges that continue each other, and one that does not. -/
def sampleRanges : List Range := [⟨100, 200, 8, .fp16, false, true⟩, ⟨108, 208, 4, .fp16, false, true⟩,
  ⟨300, 400, 2, .fp16, false, true⟩]

/-- With room for one segment the first two are merged, and the third is refused. -/
theorem plan_run_merged : let p := (run 1 sampleRanges ({}, [])).1
    p.segments = [⟨100, 200, 12, 2, .fp16⟩] ∧ p.logicalBytes = 12 ∧ p.coalescedRanges = 1 ∧
    add 1 ⟨300, 400, 2, .fp16, false, true⟩ p = .ok false p ∧
    p.submit 1 (copyOne fun a => a) (fun _ => 0) =
      (⟨1, 1, 1, 0⟩, copyAll (fun a => a) (sampleRanges.take 2) fun _ => 0) := by
  intro p
  obtain ⟨hcopies, -, hbytes, hcounts, -, hrefused⟩ := plan_run 1 sampleRanges
  refine ⟨rfl, hbytes, Nat.add_left_cancel hcounts.symm, ?_, hcopies (fun a => a) fun _ => 0⟩
  have hadd : ∃ p', add 1 ⟨300, 400, 2, .fp16, false, true⟩ p = .ok false p' := ⟨_, rfl⟩
  obtain ⟨p', hadd⟩ := hadd
  have hsame := wp_ok (hrefused _) hadd rfl
  rw [hadd, hsame]

end VoidInfer.Exl3.ExportCopy
