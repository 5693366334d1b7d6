import VoidInfer.Exl3.ReadyWork

/-
  The choices of `src/exl3/ready_work_descriptor.h`: a lane for a request, and the request that goes next. All of them
  scan a list for the first best candidate under some order.

  `scan_first` says that such a scan finds it. A newer request goes before an older one only while the oldest repeats an
  active transfer and is younger than its own bound, whence `selected_in_turn`.
-/

namespace VoidInfer.Exl3.ReadyWork
open List Option

/-! ## Scans -/

section Scan

variable {α : Type} (better : α → α → Bool) {l : List α} {b r : α}

/-- The candidate to keep. -/
def pick (best : Option α) (x : α) : Option α :=
  match best with
  | none => some x
  | some b => if better x b then some x else some b

/-- `b` is better than everything before it in the list, and nothing after it is better. -/
def FirstBest (l : List α) (b : α) : Prop :=
  ∃ before after, l = before ++ b :: after ∧ (∀ x ∈ before, better b x = true) ∧
    ∀ x ∈ after, better x b = false

/-- An order, as far as it tells candidates apart. -/
structure Ranks : Prop where
  trans : ∀ {a b c}, better a b = true → better b c = true → better a c = true
  through : ∀ {a b c}, better a b = true → better c b = false → better a c = true

variable {better}

theorem FirstBest.cons {x : α} (h : FirstBest better l b) (hx : better b x = true) : FirstBest better (x :: l) b := by
  obtain ⟨before, after, rfl, hbefore, hafter⟩ := h
  exact ⟨x :: before, after, rfl, forall_mem_cons.mpr ⟨hx, hbefore⟩, hafter⟩

theorem scan_from (h : Ranks better) :
    ∃ r, l.foldl (pick better) (some b) = some r ∧
      (r = b ∧ (∀ x ∈ l, better x b = false) ∨ better r b = true ∧ FirstBest better l r) := by
  induction l generalizing b with
  | nil => exact ⟨b, rfl, .inl ⟨rfl, by simp⟩⟩
  | cons x rest ih =>
    rw [foldl_cons, pick]
    cases hx : better x b with
    | false =>
      obtain ⟨r, hr, ⟨rfl, hall⟩ | ⟨hb, hfirst⟩⟩ := ih (b := b)
      · exact ⟨r, hr, .inl ⟨rfl, forall_mem_cons.mpr ⟨hx, hall⟩⟩⟩
      · exact ⟨r, hr, .inr ⟨hb, hfirst.cons (h.through hb hx)⟩⟩
    | true =>
      obtain ⟨r, hr, ⟨rfl, hall⟩ | ⟨hb, hfirst⟩⟩ := ih (b := x)
      · exact ⟨r, hr, .inr ⟨hx, [], rest, rfl, by simp, hall⟩⟩
      · exact ⟨r, hr, .inr ⟨h.trans hb hx, hfirst.cons hb⟩⟩

theorem scan_first (h : Ranks better) :
    l = [] ∧ l.foldl (pick better) none = none ∨ ∃ r, l.foldl (pick better) none = some r ∧ FirstBest better l r := by
  cases l with
  | nil => exact .inl ⟨rfl, rfl⟩
  | cons x rest =>
    obtain ⟨r, hr, ⟨rfl, hall⟩ | ⟨hb, hfirst⟩⟩ := scan_from (l := rest) (b := x) h
    · exact .inr ⟨r, hr, [], rest, rfl, by simp, hall⟩
    · exact .inr ⟨r, hr, hfirst.cons hb⟩

theorem FirstBest.mem (h : FirstBest better l b) : b ∈ l := by
  obtain ⟨before, after, rfl, -⟩ := h
  simp

end Scan

/-! ## Lanes -/

/-- `Exl3ReadyLocalityCost`. -/
structure LocalityCost where
  rootAttachmentMicroseconds : Option Nat := none
  historyRestoreMicroseconds : Option Nat := none

def LocalityCost.totalMicroseconds (cost : LocalityCost) : Option Nat :=
  match cost.rootAttachmentMicroseconds, cost.historyRestoreMicroseconds with
  | some root, some history => if root > uint64Max - history then none else some (root + history)
  | _, _ => none

/-- `Exl3ReadyLaneLocality`. -/
structure LaneLocality where
  lane : Nat
  physicalResourcesFeasible : Bool := false
  identityCompatible : Bool := false
  reusableTokens : Nat := 0
  cost : LocalityCost := {}

namespace LaneLocality

def usable (c : LaneLocality) : Bool := c.physicalResourcesFeasible && c.identityCompatible

/-- The total, where it is known. -/
def microseconds (c : LaneLocality) : Nat := c.cost.totalMicroseconds.getD 0

def longer (a b : LaneLocality) : Bool := a.reusableTokens > b.reusableTokens

def cheaper (a b : LaneLocality) : Bool :=
  a.microseconds < b.microseconds || a.microseconds = b.microseconds && a.reusableTokens > b.reusableTokens

end LaneLocality

open LaneLocality

/-- One round of the first loop, on `fallback` and `all_costs_known`. -/
def visitLane (s : Option LaneLocality × Bool) (c : LaneLocality) : Option LaneLocality × Bool :=
  if c.usable then (pick longer s.1 c, s.2 && c.cost.totalMicroseconds.isSome) else s

/-- `exl3_select_ready_lane`. -/
def selectReadyLane (candidates : List LaneLocality) : Option Nat :=
  let (fallback, allCostsKnown) := candidates.foldl visitLane (none, true)
  match fallback with
  | none => none
  | some best =>
    if !allCostsKnown then some best.lane
    else (candidates.foldl (fun s c => if c.usable then pick cheaper s c else s) (some best)).map lane

theorem longer_ranks : Ranks longer := by
  constructor <;> simp [longer] <;> omega

theorem cheaper_ranks : Ranks cheaper := by
  constructor <;> simp [cheaper] <;> omega

theorem foldl_visitLane (candidates : List LaneLocality) (s : Option LaneLocality × Bool) :
    candidates.foldl visitLane s = ((candidates.filter usable).foldl (pick longer) s.1,
      s.2 && (candidates.filter usable).all fun c => c.cost.totalMicroseconds.isSome) := by
  induction candidates generalizing s with
  | nil => simp
  | cons c rest ih =>
    rw [foldl_cons, ih, visitLane]
    cases h : c.usable <;> simp [h, Bool.and_assoc]

/-- No lane when none is usable. Otherwise that of the first usable candidate that is cheapest and among these reuses
    the most, when every total is known; of the first that reuses the most when not. -/
def LaneChosen (usables : List LaneLocality) (lane : Option Nat) : Prop :=
  (usables = [] → lane = none) ∧ (usables ≠ [] → ∃ c, lane = some c.lane ∧
    FirstBest (if usables.all fun c => c.cost.totalMicroseconds.isSome then cheaper else longer) usables c)

theorem selectReadyLane_chosen (candidates : List LaneLocality) :
    LaneChosen (candidates.filter usable) (selectReadyLane candidates) := by
  unfold selectReadyLane
  rw [foldl_visitLane]
  simp only [← foldl_filter]
  generalize candidates.filter usable = usables
  rcases scan_first (l := usables) longer_ranks with ⟨hnil, hnone⟩ | ⟨f, hf, hfirst⟩
  · exact ⟨fun _ => by simp only [hnone], fun hne => absurd hnil hne⟩
  refine ⟨fun hnil => absurd hfirst.mem (by simp [hnil]), fun _ => ?_⟩
  simp only [hf, Bool.true_and]
  by_cases hknown : usables.all (fun c => c.cost.totalMicroseconds.isSome) = true
  · simp only [hknown, Bool.not_true, Bool.false_eq_true, if_false, if_true]
    obtain ⟨r, hr, ⟨rfl, hall⟩ | ⟨-, hbest⟩⟩ := scan_from (l := usables) (b := f) cheaper_ranks
    · refine ⟨r, by rw [hr]; rfl, ?_⟩
      -- what comes before the fallback reuses less and is not cheaper
      obtain ⟨before, after, heq, hbefore, hafter⟩ := hfirst
      refine ⟨before, after, heq, fun x hx => ?_, fun x hx => hall x (by simp [heq, hx])⟩
      have hlong := hbefore x hx
      have hnot := hall x (by simp [heq, hx])
      simp only [longer, cheaper, decide_eq_true_eq, Bool.or_eq_false_iff, Bool.and_eq_false_iff,
        decide_eq_false_iff_not, Bool.or_eq_true, Bool.and_eq_true] at hlong hnot ⊢
      omega
    · exact ⟨r, by rw [hr]; rfl, hbest⟩
  simp only [hknown]
  exact ⟨f, by simp, hfirst⟩

/-! ## Requests -/

/-- `Exl3ReadyRequestCandidate`; time points are nanoseconds of the steady clock. -/
structure RequestCandidate where
  queueIndex : Nat
  submitted : Int
  physicallyEligible : Bool := false
  cancelled : Bool := false

/-- `Exl3ReadyCopyCandidate`. -/
structure CopyCandidate where
  request : RequestCandidate
  demand : CopyDemand := {}
  duplicatesActiveHistory : Bool := false

/-- `maximum_fairness_deferral`, in microseconds. -/
def maximumFairnessDeferral : Int := 1000000

def CopyDemand.valid (demand : CopyDemand) : Bool :=
  match demand.transferBytes with
  | none | some 0 => demand.maximumDeferral = 0
  | some _ => demand.historyOwner.pointer ≠ 0 && demand.maximumDeferral > 0 &&
      demand.maximumDeferral ≤ maximumFairnessDeferral

def CopyDemand.actionable (demand : CopyDemand) : Bool :=
  demand.valid && demand.transferBytes.any (· > 0)

/-- `exl3_ready_request_precedes`. -/
def readyRequestPrecedes (candidate selected : CopyCandidate) : Bool :=
  candidate.request.submitted < selected.request.submitted ||
    candidate.request.submitted = selected.request.submitted &&
      candidate.request.queueIndex < selected.request.queueIndex

/-- `age`, in microseconds. -/
def CopyCandidate.age (c : CopyCandidate) (now : Int) : Int :=
  if now ≤ c.request.submitted then 0 else (now - c.request.submitted) / 1000

/-- The variables of the loop. -/
structure Choice where
  oldest : Option CopyCandidate := none
  alternative : Option CopyCandidate := none
  allKnown : Bool := true

def CopyCandidate.eligible (c : CopyCandidate) : Bool :=
  c.request.physicallyEligible && !c.request.cancelled

def Choice.visit (s : Choice) (c : CopyCandidate) : Choice :=
  if !c.eligible then s
  else
    { allKnown := s.allKnown && c.demand.transferBytes.isSome,
      oldest := pick readyRequestPrecedes s.oldest c,
      alternative := if c.duplicatesActiveHistory then s.alternative
        else pick readyRequestPrecedes s.alternative c }

/-- The candidate that `exl3_select_copy_aware_ready_request` returns the queue index of. -/
def selectCopyAware (candidates : List CopyCandidate) (now : Int) : Option CopyCandidate :=
  let s := candidates.foldl Choice.visit {}
  match s.oldest, s.alternative with
  | none, _ => none
  | some oldest, none => some oldest
  | some oldest, some alternative =>
    if !s.allKnown || !oldest.duplicatesActiveHistory || !oldest.demand.actionable then some oldest
    else if oldest.age now ≥ oldest.demand.maximumDeferral then some oldest else some alternative

/-- `exl3_select_copy_aware_ready_request`. -/
def selectCopyAwareReadyRequest (candidates : List CopyCandidate) (now : Int) : Option Nat :=
  (selectCopyAware candidates now).map fun c => c.request.queueIndex

/-- The oldest candidate may be kept waiting for as long as its bound. -/
def CopyCandidate.MayWait (c : CopyCandidate) (eligibles : List CopyCandidate) : Prop :=
  (∀ x ∈ eligibles, x.demand.transferBytes.isSome = true) ∧ c.duplicatesActiveHistory = true ∧
    c.demand.actionable = true

/-- The oldest candidate is kept waiting. -/
def CopyCandidate.Deferred (c : CopyCandidate) (eligibles : List CopyCandidate) (now : Int) : Prop :=
  c.MayWait eligibles ∧ c.age now < c.demand.maximumDeferral

/-- The clock has passed the candidate's bound. -/
def CopyCandidate.Passed (c : CopyCandidate) (now : Int) : Prop :=
  c.request.submitted + c.demand.maximumDeferral * 1000 ≤ now

instance (c : CopyCandidate) (now : Int) : Decidable (c.Passed now) := inferInstanceAs (Decidable (_ ≤ _))

theorem precedes_iff {a b : CopyCandidate} : readyRequestPrecedes a b = true ↔
    a.request.submitted < b.request.submitted ∨
      a.request.submitted = b.request.submitted ∧ a.request.queueIndex < b.request.queueIndex := by
  simp [readyRequestPrecedes]

theorem deferral_pos {demand : CopyDemand} (h : demand.actionable = true) : 0 < demand.maximumDeferral := by
  obtain ⟨hvalid, hany⟩ := Bool.and_eq_true_iff.mp h
  unfold CopyDemand.valid at hvalid
  split at hvalid
  · next hbytes => simp [hbytes] at hany
  · next hbytes => simp [hbytes] at hany
  simp only [Bool.and_eq_true, decide_eq_true_eq] at hvalid
  exact hvalid.1.2

theorem CopyCandidate.Passed.age_ge {c : CopyCandidate} {now : Int} (h : c.Passed now)
    (hpos : 0 < c.demand.maximumDeferral) : c.demand.maximumDeferral ≤ c.age now := by
  unfold CopyCandidate.Passed at h
  unfold CopyCandidate.age
  split <;> omega

theorem FirstBest.submitted_le {l : List CopyCandidate} {b x : CopyCandidate}
    (h : FirstBest readyRequestPrecedes l b) (hx : x ∈ l) : b.request.submitted ≤ x.request.submitted := by
  obtain ⟨before, after, rfl, hbefore, hafter⟩ := h
  rcases mem_append.mp hx with hx | hx
  · have hfirst := precedes_iff.mp (hbefore x hx)
    omega
  rcases mem_cons.mp hx with rfl | hx
  · exact le_rfl
  have hnot : ¬ _ := fun hprecedes => Bool.false_ne_true ((hafter x hx).symm.trans (precedes_iff.mpr hprecedes))
  omega

theorem precedes_ranks : Ranks readyRequestPrecedes := by
  constructor <;> simp [readyRequestPrecedes] <;> omega

theorem foldl_visit (candidates : List CopyCandidate) (s : Choice) :
    candidates.foldl Choice.visit s =
      ⟨(candidates.filter (·.eligible)).foldl (pick readyRequestPrecedes) s.oldest,
        ((candidates.filter (·.eligible)).filter (!·.duplicatesActiveHistory)).foldl
          (pick readyRequestPrecedes) s.alternative,
        s.allKnown && (candidates.filter (·.eligible)).all fun c => c.demand.transferBytes.isSome⟩ := by
  induction candidates generalizing s with
  | nil => simp
  | cons c rest ih =>
    rw [foldl_cons, ih, Choice.visit]
    cases h : c.eligible <;> cases hd : c.duplicatesActiveHistory <;> simp [h, hd, Bool.and_assoc]

/-- The oldest eligible candidate is chosen, or the oldest that repeats no active transfer when
    there is one and the oldest may wait. -/
def RequestChosen (eligibles : List CopyCandidate) (now : Int) (chosen : Option CopyCandidate) : Prop :=
  let others := eligibles.filter (!·.duplicatesActiveHistory)
  (eligibles = [] → chosen = none) ∧
    (eligibles ≠ [] → ∃ c oldest, chosen = some c ∧ FirstBest readyRequestPrecedes eligibles oldest ∧
      (oldest.Deferred eligibles now ∧ others ≠ [] → FirstBest readyRequestPrecedes others c) ∧
      (¬ (oldest.Deferred eligibles now ∧ others ≠ []) → c = oldest))

theorem selectCopyAware_chosen (candidates : List CopyCandidate) (now : Int) :
    RequestChosen (candidates.filter (·.eligible)) now (selectCopyAware candidates now) := by
  unfold selectCopyAware RequestChosen
  rw [foldl_visit]
  generalize candidates.filter (·.eligible) = eligibles
  rcases scan_first (l := eligibles) precedes_ranks with ⟨hnil, hnone⟩ | ⟨o, ho, hfirst⟩
  · exact ⟨fun _ => by simp only [hnone], fun hne => absurd hnil hne⟩
  refine ⟨fun hnil => absurd hfirst.mem (by simp [hnil]), fun _ => ?_⟩
  generalize eligibles.filter (!·.duplicatesActiveHistory) = others
  rcases scan_first (l := others) precedes_ranks with ⟨hnil, hnone⟩ | ⟨a, ha, halternative⟩
  · simp only [ho, hnone]
    exact ⟨o, o, rfl, hfirst, fun h => absurd hnil h.2, fun _ => rfl⟩
  simp only [ho, ha, Bool.true_and]
  have hothers : others ≠ [] := ne_nil_of_mem halternative.mem
  by_cases hdeferred : o.Deferred eligibles now
  · obtain ⟨⟨hknown, hduplicate, hactionable⟩, hage⟩ := id hdeferred
    refine ⟨a, o, ?_, hfirst, fun _ => halternative, fun h => absurd ⟨hdeferred, hothers⟩ h⟩
    simp only [all_eq_true.mpr hknown, hduplicate, hactionable, Bool.not_true, Bool.or_self,
      Bool.false_eq_true, if_false]
    rw [if_neg (by omega)]
  refine ⟨o, o, ?_, hfirst, fun h => absurd h.1 hdeferred, fun _ => rfl⟩
  split
  · rfl
  next hopen =>
  split
  · rfl
  next hage =>
  simp only [Bool.or_eq_true, Bool.not_eq_true', not_or, Bool.not_eq_false] at hopen
  exact absurd ⟨⟨all_eq_true.mp hopen.1.1, hopen.1.2, hopen.2⟩, by omega⟩ hdeferred

/-! ## Runs -/

/-- A request in the queue, with what is known of it this time. -/
structure Waiting where
  id : Nat
  submitted : Int
  physicallyEligible : Bool := true
  cancelled : Bool := false
  demand : CopyDemand := {}
  duplicatesActiveHistory : Bool := false

/-- The candidate at a place of the queue. -/
def Waiting.candidate (queueIndex : Nat) (q : Waiting) : CopyCandidate :=
  ⟨⟨queueIndex, q.submitted, q.physicallyEligible, q.cancelled⟩, q.demand, q.duplicatesActiveHistory⟩

/-- One selection: the queue as it is by then, with any arrivals and losses since the last. -/
structure Round where
  waiting : List Waiting
  now : Int

def Round.candidates (round : Round) : List CopyCandidate := round.waiting.mapIdx Waiting.candidate

/-- The request that is selected. -/
def Round.selected (round : Round) : Option Waiting :=
  (selectCopyAwareReadyRequest round.candidates round.now).bind (round.waiting[·]?)

def Round.eligibles (round : Round) : List CopyCandidate := round.candidates.filter (·.eligible)

/-- The request waits and is eligible; and if it repeats an active transfer, then the clock has passed the bound of the
    oldest eligible request, where that one may be kept waiting. -/
def Round.Due (round : Round) (id : Nat) (submitted : Int) : Prop :=
  ∃ (i : Nat) (q : Waiting), round.waiting[i]? = some q ∧ q.id = id ∧ q.submitted = submitted ∧
    (q.candidate i).eligible = true ∧
    (q.duplicatesActiveHistory = true → ∀ oldest, FirstBest readyRequestPrecedes round.eligibles oldest →
      oldest.MayWait round.eligibles → oldest.Passed round.now)

theorem mem_candidates {round : Round} {c : CopyCandidate} :
    c ∈ round.candidates ↔ ∃ (j : Nat) (x : Waiting), round.waiting[j]? = some x ∧ x.candidate j = c := by
  simp [Round.candidates, mem_iff_getElem?, getElem?_mapIdx]

theorem Round.Due.selected_le {round : Round} {id : Nat} {submitted : Int}
    (h : round.Due id submitted) {B : Waiting} (hB : round.selected = some B) : B.submitted ≤ submitted := by
  obtain ⟨i, q, hq, -, rfl, heligible, hpassed⟩ := h
  have hmem : q.candidate i ∈ round.eligibles := mem_filter.mpr ⟨mem_candidates.mpr ⟨i, q, hq, rfl⟩, heligible⟩
  obtain ⟨c, oldest, hc, hfirst, hdeferred, hkept⟩ :=
    (selectCopyAware_chosen round.candidates round.now).2 (ne_nil_of_mem hmem)
  change FirstBest readyRequestPrecedes round.eligibles oldest at hfirst
  have hchosen : c ∈ round.eligibles ∧ c.request.submitted ≤ q.submitted := by
    by_cases hwaits : oldest.Deferred round.eligibles round.now ∧
        round.eligibles.filter (!·.duplicatesActiveHistory) ≠ []
    · have halternative := hdeferred hwaits
      refine ⟨(mem_filter.mp halternative.mem).1, ?_⟩
      -- the oldest is kept waiting, so the request repeats nothing
      have hown : q.duplicatesActiveHistory = false := by
        by_contra hduplicate
        obtain ⟨hmay, hage⟩ := hwaits.1
        have hpast := hpassed (Bool.not_eq_false _ ▸ hduplicate) oldest hfirst hmay
        exact absurd hage (Int.not_lt.mpr (hpast.age_ge (deferral_pos hmay.2.2)))
      exact halternative.submitted_le (x := q.candidate i) (mem_filter.mpr ⟨hmem, by simp [Waiting.candidate, hown]⟩)
    · obtain rfl := hkept hwaits
      exact ⟨hfirst.mem, hfirst.submitted_le hmem⟩
  obtain ⟨hin, hle⟩ := hchosen
  obtain ⟨j, x, hx, rfl⟩ := mem_candidates.mp (mem_filter.mp hin).1
  have hselected : round.selected = some x := by
    simp only [Round.selected, selectCopyAwareReadyRequest, hc, map_some, bind_some]
    exact hx
  obtain rfl := mem_unique hselected hB
  exact hle

/-- The choices among lanes and among requests; and in any run, while a request is due in every
    round before it is selected, it is selected before every request submitted after it. -/
theorem selected_in_turn (lanes : List LaneLocality) (candidates : List CopyCandidate) (now : Int)
    (rounds : List Round) (id : Nat) (submitted : Int) :
    LaneChosen (lanes.filter usable) (selectReadyLane lanes) ∧
    (∃ chosen, RequestChosen (candidates.filter (·.eligible)) now chosen ∧
      selectCopyAwareReadyRequest candidates now = chosen.map fun c => c.request.queueIndex) ∧
    ((∀ before round after, rounds = before ++ round :: after →
        (∀ e ∈ before, e.selected.map Waiting.id ≠ some id) → round.Due id submitted) →
      ∀ before round after B, rounds = before ++ round :: after → round.selected = some B →
        submitted < B.submitted → ∃ e ∈ before, e.selected.map Waiting.id = some id) := by
  refine ⟨selectReadyLane_chosen lanes, ⟨_, selectCopyAware_chosen candidates now, rfl⟩, ?_⟩
  intro hdue before round after B heq hB hlater
  by_contra hnot
  have hle := (hdue before round after heq fun e he h => hnot ⟨e, he, h⟩).selected_le hB
  omega

/-- The older request may wait for a second, the second's own millisecond is over, and the
    newest goes first all the same. -/
def overtaken : Round where
  waiting :=
    [{ id := 0, submitted := 0, demand := ⟨⟨1, some 1⟩, some 4096, 1000000⟩, duplicatesActiveHistory := true },
     { id := 1, submitted := 1000, demand := ⟨⟨2, some 2⟩, some 4096, 1000⟩, duplicatesActiveHistory := true },
     { id := 2, submitted := 2000, demand := ⟨⟨3, some 3⟩, some 4096, 1000⟩ }]
  now := 2000000

/-- The same queue when the oldest has waited for a second, and without it. -/
def inTurn : List Round :=
  [{ overtaken with now := 1000000000 }, { waiting := overtaken.waiting.tail, now := 1000000000 }]

theorem selected_in_turn_sample :
    inTurn.map (fun round => round.selected.map (·.id)) = [some 0, some 1] ∧
      ∀ before round after B, inTurn = before ++ round :: after → round.selected = some B → 1000 < B.submitted →
        ∃ e ∈ before, e.selected.map Waiting.id = some 1 := by
  have hpassed : ∀ round ∈ inTurn, ∀ x ∈ round.eligibles, x.Passed round.now := by decide
  refine ⟨rfl, (selected_in_turn [] [] 0 inTurn 1 1000).2.2 ?_⟩
  have hdue : ∀ round ∈ inTurn, round.Due 1 1000 := by
    intro round hround
    have hpast : ∀ oldest, FirstBest readyRequestPrecedes round.eligibles oldest → oldest.Passed round.now :=
      fun oldest hfirst => hpassed round hround oldest hfirst.mem
    rcases mem_cons.mp hround with rfl | hround
    · exact ⟨1, _, rfl, rfl, rfl, rfl, fun _ oldest hfirst _ => hpast oldest hfirst⟩
    obtain rfl := mem_singleton.mp hround
    exact ⟨0, _, rfl, rfl, rfl, rfl, fun _ oldest hfirst _ => hpast oldest hfirst⟩
  intro before round after heq _
  exact hdue round (heq ▸ mem_append_right before (.head after))

theorem newer_before_passed_bound :
    ∃ q B : Waiting, q ∈ overtaken.waiting ∧ (q.candidate 1).eligible = true ∧
      q.submitted + q.demand.maximumDeferral * 1000 ≤ overtaken.now ∧
      overtaken.selected = some B ∧ q.submitted < B.submitted :=
  ⟨_, _, .tail _ (.head _), rfl, by decide, rfl, by decide⟩

end VoidInfer.Exl3.ReadyWork
