import VoidInfer.Exl3.ResourceInventory
import VoidInfer.Lib.ListUpdate

/-
  `Exl3ReadyWorkSnapshotAuthority` (`src/exl3/ready_work_descriptor.h`): one newest ticket per lane, invalidated by a
  newer snapshot, a revision, a move or its own consumption.

  A world holds the authority, every ticket object made so far and the log of the calls. The result is
  `grants_justified`: each grant in the log of any run is covered by the newest snapshot of its lane, with no revision
  since, and by no earlier use of its nonce or of the ticket object.
-/

namespace VoidInfer.Exl3.ReadyWork
open List Option

/-- `Exl3ReadyNumericalStage`. -/
inductive NumericalStage where
  | hostPreparation | targetProjection | privateDraftProjection | verification | greedyDecision
deriving DecidableEq

/-- `Exl3ReadyArithmetic`. -/
inductive Arithmetic where
  | ordinaryFp16B8GreedyText
deriving DecidableEq

/-- `Exl3ReadyModality`. -/
inductive Modality where
  | text
deriving DecidableEq

/-- `Exl3ReadyWorkBlock`. -/
inductive WorkBlock where
  | none | staleAcquisition | blockedDependency | missingPhysicalLane | missingResource | cancelled

/-- `std::shared_ptr<const void>`: the stored pointer, 0 when null, and the control block. -/
structure SharedOwner where
  pointer : Nat := 0
  block : Option Nat := none
deriving DecidableEq

/-- Neither control block comes before the other. -/
def SharedOwner.equivalent (a b : SharedOwner) : Bool :=
  !ownerBefore a.block b.block && !ownerBefore b.block a.block

theorem SharedOwner.block_eq {a b : SharedOwner} (h : a.equivalent b = true) : a.block = b.block := by
  simp only [SharedOwner.equivalent, Bool.and_eq_true, Bool.not_eq_true'] at h
  exact owner_eq_of_not_before h.1 h.2

/-- `Exl3ReadyWorkResources`. -/
structure Resources where
  logicalHostBytes : Nat := 0
  requestLocalDeviceBytes : Nat := 0
  physicalLaneSlots : Nat := 1
  requiresPreallocatedContext : Bool := true
deriving DecidableEq

/-- `Exl3ReadyCopyDemand`. -/
structure CopyDemand where
  historyOwner : SharedOwner := {}
  transferBytes : Option Nat := none
  maximumDeferral : Int := 0
deriving DecidableEq

def CopyDemand.sameHistory (a b : CopyDemand) : Bool :=
  a.historyOwner.pointer ≠ 0 && b.historyOwner.pointer ≠ 0 &&
    a.historyOwner.equivalent b.historyOwner

def CopyDemand.sameAs (a b : CopyDemand) : Bool :=
  (a.historyOwner.pointer = 0 && b.historyOwner.pointer = 0 || a.sameHistory b) &&
    a.transferBytes = b.transferBytes && a.maximumDeferral = b.maximumDeferral

/-- `Exl3ReadyExecutionSignature`. -/
structure ExecutionSignature where
  modelOwner : SharedOwner := {}
  device : Int := -1
  stage : NumericalStage := .hostPreparation
  arithmetic : Arithmetic := .ordinaryFp16B8GreedyText
  modality : Modality := .text
deriving DecidableEq

def sameOwner (a b : SharedOwner) : Bool := a.pointer ≠ 0 && b.pointer ≠ 0 && a.equivalent b

def ExecutionSignature.compatibleWith (a b : ExecutionSignature) : Bool :=
  sameOwner a.modelOwner b.modelOwner && a.device = b.device && a.stage = b.stage &&
    a.arithmetic = b.arithmetic && a.modality = b.modality

/-- `Exl3ReadyWorkState`. -/
structure WorkState where
  observedGeneration : Nat := 0
  dependencyReady : Bool := false
  physicalLaneAvailable : Bool := false
  requiredResourcesAvailable : Bool := false
  cancelled : Bool := false
deriving DecidableEq

/-- `Exl3ReadyWorkAssessment`. -/
structure Assessment where
  logicallyAdmitted : Bool := true
  physicallyExecutable : Bool := false
  blocked : WorkBlock := .blockedDependency

def assessReadyWork (generation : Nat) (state : WorkState) : Assessment :=
  if state.cancelled then ⟨true, false, .cancelled⟩
  else if state.observedGeneration ≠ generation then ⟨true, false, .staleAcquisition⟩
  else if !state.dependencyReady then ⟨true, false, .blockedDependency⟩
  else if !state.physicalLaneAvailable then ⟨true, false, .missingPhysicalLane⟩
  else if !state.requiredResourcesAvailable then ⟨true, false, .missingResource⟩
  else ⟨true, true, .none⟩

/-- `Exl3ReadyWorkObservation`; `submitted` is a clock reading. -/
structure Observation where
  generation : Nat := 0
  inputFingerprint : Nat := 0
  inputTokens : Nat := 0
  submitted : Int := 0
  resources : Resources := {}
  signature : ExecutionSignature := {}
  copyDemand : CopyDemand := {}
deriving DecidableEq

/-- What a move leaves of an observation: its shared pointers are null. -/
def Observation.movedFrom (o : Observation) : Observation :=
  { o with signature := { o.signature with modelOwner := {} },
           copyDemand := { o.copyDemand with historyOwner := {} } }

structure Ticket where
  observation : Observation
  assessment : Assessment
  revision : Nat := 0
  nonce : Nat := 0
  lane : Nat := 0

structure Grant where
  observation : Observation
  revision : Nat := 0
  nonce : Nat := 0
  lane : Nat := 0
deriving DecidableEq

def maximumLanes : Nat := 8

/-- `Exl3ReadyWorkSnapshotAuthority`. -/
structure Authority where
  revision : Nat := 1
  nextNonce : Nat := 1
  issued : List Nat := List.replicate maximumLanes 0
  exhausted : Bool := false

namespace Authority

def revise (a : Authority) : Authority :=
  if a.revision = uint64Max then { a with exhausted := true }
  else { a with revision := a.revision + 1 }

def snapshot (a : Authority) (observation : Observation) (state : WorkState) (lane : Nat) :
    Except Exn (Ticket × Authority) := do
  throwIf (a.exhausted ∨ a.nextNonce = uint64Max) (.overflowError "EXL3 ready-work snapshot authority exhausted")
  throwIf (lane ≥ maximumLanes) (.invalidArgument "EXL3 ready-work snapshot lane")
  return (⟨observation, assessReadyWork observation.generation state, a.revision, a.nextNonce, lane⟩,
    { a with nextNonce := a.nextNonce + 1, issued := a.issued.set lane a.nextNonce })

/-- The first check of `consume`: the ticket is not the newest of its lane. -/
def stale (a : Authority) (ticket : Ticket) : Prop :=
  ticket.nonce = 0 ∨ ticket.lane ≥ maximumLanes ∨ a.issued.getD ticket.lane 0 ≠ ticket.nonce

instance (a : Authority) (ticket : Ticket) : Decidable (a.stale ticket) := by
  unfold stale
  infer_instance

/-- The second check: what the ticket saw is not what there is. -/
def changed (a : Authority) (ticket : Ticket) (current : Observation) (state : WorkState) : Prop :=
  a.exhausted = true ∨ ticket.revision ≠ a.revision ∨
    ticket.assessment.physicallyExecutable = false ∨
    (assessReadyWork current.generation state).physicallyExecutable = false ∨
    ticket.observation.generation ≠ current.generation ∨
    ticket.observation.inputFingerprint ≠ current.inputFingerprint ∨
    ticket.observation.inputTokens ≠ current.inputTokens ∨
    ticket.observation.submitted ≠ current.submitted ∨
    ticket.observation.resources ≠ current.resources ∨
    ticket.observation.signature.compatibleWith current.signature = false ∨
    ticket.observation.copyDemand.sameAs current.copyDemand = false

instance (a : Authority) (ticket : Ticket) (current : Observation) (state : WorkState) :
    Decidable (a.changed ticket current state) := by
  unfold changed
  infer_instance

/-- `consume`: the grant, the ticket left behind and the authority. -/
def consume (a : Authority) (ticket : Ticket) (current : Observation) (state : WorkState) :
    Option Grant × Ticket × Authority :=
  if a.stale ticket then (none, ticket, a)
  else
    let cleared := { a with issued := a.issued.set ticket.lane 0 }
    if a.changed ticket current state then (none, { ticket with nonce := 0 }, cleared)
    else (some ⟨ticket.observation, ticket.revision, ticket.nonce, ticket.lane⟩,
      { ticket with nonce := 0, observation := ticket.observation.movedFrom }, cleared)

end Authority

/-! ## Runs -/

/-- What happened, with the ticket objects by number. -/
inductive Event where
  | snapshot (ticket nonce lane : Nat) (observation : Observation) (state : WorkState)
  | revise
  | moved (source target : Nat)
  | refused (ticket nonce : Nat)
  | granted (ticket : Nat) (grant : Grant) (current : Observation) (state : WorkState)
deriving DecidableEq

/-- The nonce that an event issued. -/
def Event.issues : Event → Option Nat
  | .snapshot _ nonce _ _ _ => some nonce
  | _ => none

/-- The lane that an event assessed. -/
def Event.assesses : Event → Option Nat
  | .snapshot _ _ lane _ _ => some lane
  | _ => none

/-- The nonce that an event used up. -/
def Event.consumes : Event → Option Nat
  | .refused _ nonce => some nonce
  | .granted _ grant _ _ => some grant.nonce
  | _ => none

/-- The ticket object that an event took out of use. -/
def Event.spends : Event → Option Nat
  | .moved source _ => some source
  | .refused ticket _ => some ticket
  | .granted ticket _ _ _ => some ticket
  | _ => none

/-- The calls. -/
inductive Call where
  | snapshot (observation : Observation) (state : WorkState) (lane : Nat)
  | revise
  | consume (ticket : Nat) (current : Observation) (state : WorkState)
  | move (ticket : Nat)

/-- The authority, the ticket objects and the log, newest event first. -/
structure World where
  authority : Authority := {}
  tickets : List Ticket := []
  log : List Event := []

/-- One call; a call on a ticket that does not exist is not possible. -/
def World.step (w : World) : Call → World
  | .snapshot observation state lane =>
    match w.authority.snapshot observation state lane with
    | .error _ => w
    | .ok (ticket, authority) =>
      { authority, tickets := w.tickets ++ [ticket],
        log := .snapshot w.tickets.length ticket.nonce lane observation state :: w.log }
  | .revise => { w with authority := w.authority.revise, log := .revise :: w.log }
  | .consume i current state =>
    match w.tickets[i]? with
    | none => w
    | some ticket =>
      let result := w.authority.consume ticket current state
      { authority := result.2.2, tickets := w.tickets.set i result.2.1,
        log := (match result.1 with
          | some grant => .granted i grant current state
          | none => .refused i ticket.nonce) :: w.log }
  | .move i =>
    match w.tickets[i]? with
    | none => w
    | some ticket =>
      { w with tickets := w.tickets.set i
                 { ticket with nonce := 0, observation := ticket.observation.movedFrom } ++ [ticket],
               log := .moved i w.tickets.length :: w.log }

/-- Any sequence of calls. -/
def World.run (w : World) (calls : List Call) : World := calls.foldl World.step w

/-! ## What a grant needs -/

/-- The snapshot that issued a nonce. -/
def origin (nonce : Nat) (log : List Event) : Option Event :=
  log.find? fun e => e.issues = some nonce

/-- The events after that snapshot. -/
def since (nonce : Nat) : List Event → List Event
  | [] => []
  | e :: rest => if e.issues = some nonce then [] else e :: since nonce rest

variable {nonce lane i : Nat} {log : List Event} {e : Event} {a : Authority} {t : Ticket}
  {w : World}

theorem since_append (h : origin nonce log = some e) : ∃ old, log = since nonce log ++ e :: old := by
  induction log with
  | nil => simp [origin] at h
  | cons x rest ih =>
    by_cases hx : x.issues = some nonce
    · have he : x = e := by simpa [origin, hx] using h
      subst he
      exact ⟨rest, by simp [since, hx]⟩
    have hrest : origin nonce rest = some e := by simpa [origin, hx] using h
    obtain ⟨old, hold⟩ := ih hrest
    refine ⟨old, ?_⟩
    rw [since, if_neg hx, cons_append, ← hold]

/-- The two observations describe the same work: equal facts, the same model and history owners. -/
structure SameWork (a b : Observation) : Prop where
  generation : a.generation = b.generation
  fingerprint : a.inputFingerprint = b.inputFingerprint
  tokens : a.inputTokens = b.inputTokens
  submitted : a.submitted = b.submitted
  resources : a.resources = b.resources
  model : a.signature.modelOwner.pointer ≠ 0 ∧ b.signature.modelOwner.pointer ≠ 0 ∧
    a.signature.modelOwner.block = b.signature.modelOwner.block
  device : a.signature.device = b.signature.device
  stage : a.signature.stage = b.signature.stage
  arithmetic : a.signature.arithmetic = b.signature.arithmetic
  modality : a.signature.modality = b.signature.modality
  history : a.copyDemand.historyOwner.pointer = 0 ∧ b.copyDemand.historyOwner.pointer = 0 ∨
    a.copyDemand.historyOwner.pointer ≠ 0 ∧ b.copyDemand.historyOwner.pointer ≠ 0 ∧
      a.copyDemand.historyOwner.block = b.copyDemand.historyOwner.block
  transferBytes : a.copyDemand.transferBytes = b.copyDemand.transferBytes
  deferral : a.copyDemand.maximumDeferral = b.copyDemand.maximumDeferral

/-- A grant through the ticket object `i`, after the events `earlier`. -/
structure Justified (i : Nat) (grant : Grant) (current : Observation) (state : WorkState)
    (earlier : List Event) : Prop where
  /-- Its nonce comes from the newest snapshot of its lane, which was executable work and the
      same as now; nothing was revised since. -/
  newest : ∃ mid old j seen, earlier = mid ++ .snapshot j grant.nonce grant.lane grant.observation
      seen :: old ∧ (∀ e ∈ mid, e ≠ .revise ∧ e.assesses ≠ some grant.lane) ∧
    (assessReadyWork grant.observation.generation seen).physicallyExecutable = true
  same : SameWork grant.observation current
  ready : (assessReadyWork current.generation state).physicallyExecutable = true
  /-- The nonce was neither granted nor refused before. -/
  once : ∀ e ∈ earlier, e.consumes ≠ some grant.nonce
  /-- The object was not moved from, refused or granted before. -/
  unspent : ∀ e ∈ earlier, e.spends ≠ some i

variable {current o : Observation} {state s : WorkState}

theorem sameWork_of_not_changed {ticket : Ticket} (h : ¬ a.changed ticket current state) :
    SameWork ticket.observation current := by
  simp only [Authority.changed, not_or, Bool.not_eq_false, not_not, ne_eq,
    ExecutionSignature.compatibleWith, sameOwner, CopyDemand.sameAs, CopyDemand.sameHistory,
    Bool.and_eq_true, Bool.or_eq_true, decide_eq_true_eq, Bool.not_eq_true',
    decide_not, decide_eq_false_iff_not] at h
  obtain ⟨-, -, -, -, hgeneration, hfingerprint, htokens, hsubmitted, hresources, hsignature, hcopy⟩ := h
  obtain ⟨⟨⟨⟨⟨⟨hp, hq⟩, hblock⟩, hdevice⟩, hstage⟩, -⟩, -⟩ := hsignature
  obtain ⟨⟨hhistory, hbytes⟩, hdeferral⟩ := hcopy
  refine ⟨hgeneration, hfingerprint, htokens, hsubmitted, hresources,
    ⟨hp, hq, SharedOwner.block_eq hblock⟩, hdevice, hstage, rfl, rfl, ?_, hbytes, hdeferral⟩
  rcases hhistory with hnull | ⟨⟨hp, hq⟩, hblock⟩
  · exact .inl hnull
  · exact .inr ⟨hp, hq, SharedOwner.block_eq hblock⟩

/-! ## The invariant -/

/-- What the log says about the authority and the ticket objects. -/
structure Inv (w : World) : Prop where
  slots : w.authority.issued.length = maximumLanes
  positive : 0 < w.authority.nextNonce
  /-- Nonces in use and in the log were all issued. -/
  below : ∀ e ∈ w.log, ∀ n, e.issues = some n ∨ e.consumes = some n → n < w.authority.nextNonce
  /-- A lane's slot holds the nonce of its newest snapshot, not consumed yet. -/
  issued : ∀ lane n : Nat, w.authority.issued[lane]? = some n → n ≠ 0 →
    n < w.authority.nextNonce ∧ (∀ e ∈ since n w.log, e.assesses ≠ some lane) ∧
      (∀ e ∈ w.log, e.consumes ≠ some n) ∧
      ∃ j o seen, origin n w.log = some (.snapshot j n lane o seen)
  /-- A live ticket is what its snapshot returned. -/
  tickets : ∀ (i : Nat) (t : Ticket), w.tickets[i]? = some t → t.nonce ≠ 0 →
    t.nonce < w.authority.nextNonce ∧ t.revision ≤ w.authority.revision ∧
      (w.authority.exhausted = false → t.revision = w.authority.revision →
        Event.revise ∉ since t.nonce w.log) ∧
      ∃ j seen, origin t.nonce w.log = some (.snapshot j t.nonce t.lane t.observation seen) ∧
        t.assessment = assessReadyWork t.observation.generation seen
  /-- An object taken out of use is empty or out of date. -/
  spent : ∀ (i : Nat) (t : Ticket), w.tickets[i]? = some t → (∃ e ∈ w.log, e.spends = some i) →
    t.nonce = 0 ∨ w.authority.issued[t.lane]? ≠ some t.nonce
  known : ∀ e ∈ w.log, ∀ i, e.spends = some i → i < w.tickets.length

theorem Inv.initial : Inv {} where
  slots := rfl
  positive := by decide
  below := by simp
  issued := by
    intro lane n h hn
    rw [getElem?_replicate] at h
    split at h
    · exact absurd (some.inj h).symm hn
    · cases h
  tickets := by simp
  spent := by simp
  known := by simp

theorem origin_cons (h : e.issues ≠ some nonce) : origin nonce (e :: log) = origin nonce log := by
  simp [origin, h]

theorem since_cons (h : e.issues ≠ some nonce) : since nonce (e :: log) = e :: since nonce log := by
  rw [since, if_neg h]

theorem ticket_cons {revision revision' : Nat} {exhausted exhausted' : Bool} (hissue : e.issues ≠ some t.nonce)
    (hle : t.revision ≤ revision) (hrevision : revision ≤ revision')
    (hkeep : exhausted' = false → t.revision = revision' → exhausted = false ∧ revision' = revision ∧ e ≠ .revise)
    (h : (exhausted = false → t.revision = revision → Event.revise ∉ since t.nonce log) ∧
      ∃ j seen, origin t.nonce log = some (.snapshot j t.nonce t.lane t.observation seen) ∧
        t.assessment = assessReadyWork t.observation.generation seen) :
    t.revision ≤ revision' ∧ (exhausted' = false → t.revision = revision' → Event.revise ∉ since t.nonce (e :: log)) ∧
      ∃ j seen, origin t.nonce (e :: log) = some (.snapshot j t.nonce t.lane t.observation seen) ∧
        t.assessment = assessReadyWork t.observation.generation seen := by
  refine ⟨hle.trans hrevision, ?_, ?_⟩
  · intro hexhausted heq
    obtain ⟨hold, hsame, hne⟩ := hkeep hexhausted heq
    rw [since_cons hissue]
    intro hmem
    rcases mem_cons.mp hmem with hfirst | hrest
    · exact hne hfirst.symm
    · exact h.1 hold (heq.trans hsame) hrest
  · rw [origin_cons hissue]
    exact h.2

theorem snapshot_ok {a' : Authority} (h : a.snapshot o s lane = .ok (t, a')) :
    a.exhausted = false ∧ lane < maximumLanes ∧
      t = ⟨o, assessReadyWork o.generation s, a.revision, a.nextNonce, lane⟩ ∧
      a' = { a with nextNonce := a.nextNonce + 1, issued := a.issued.set lane a.nextNonce } := by
  obtain ⟨hlive, h⟩ := check_ok h
  obtain ⟨hlane, h⟩ := check_ok h
  cases h
  refine ⟨?_, by omega, rfl, rfl⟩
  simp only [not_or] at hlive
  simpa using hlive.1

theorem Inv.snapshot (h : Inv w) (hok : w.authority.snapshot o s lane = .ok (t, a)) :
    Inv { authority := a, tickets := w.tickets ++ [t],
          log := .snapshot w.tickets.length t.nonce lane o s :: w.log } := by
  obtain ⟨hlive, -, rfl, rfl⟩ := snapshot_ok hok
  constructor
  · simpa using h.slots
  · exact Nat.succ_pos _
  · intro e he n hn
    rcases mem_cons.mp he with rfl | he
    · simp only [Event.issues, Event.consumes, Option.some.injEq, reduceCtorEq, or_false] at hn
      simp only
      omega
    have := h.below e he n hn
    simp only
    omega
  · intro lane' n hn hne
    simp only [getElem?_set] at hn
    by_cases hlane : lane = lane'
    · subst hlane
      split at hn
      · split at hn
        · cases hn
          refine ⟨Nat.lt_succ_self _, by simp [since, Event.issues], ?_, w.tickets.length, o, s, ?_⟩
          swap
          · simp [origin, Event.issues]
          intro e he hconsumed
          rcases mem_cons.mp he with rfl | he
          · simp [Event.consumes] at hconsumed
          · exact absurd (h.below e he _ (.inr hconsumed)) (Nat.lt_irrefl _)
        · cases hn
      · next hcontra => exact absurd rfl hcontra
    rw [if_neg hlane] at hn
    obtain ⟨hlt, hnewest, hunused, horigin⟩ := h.issued lane' n hn hne
    refine ⟨by simp only; omega, ?_, ?_, ?_⟩
    · rw [since_cons (by simp [Event.issues]; omega)]
      intro e he
      rcases mem_cons.mp he with rfl | he
      · simpa [Event.assesses] using hlane
      · exact hnewest e he
    · intro e he
      rcases mem_cons.mp he with rfl | he
      · simp [Event.consumes]
      · exact hunused e he
    · rw [origin_cons (by simp [Event.issues]; omega)]
      exact horigin
  · intro i t ht hne
    rw [getElem?_append] at ht
    split at ht
    · obtain ⟨hlt, hle, hsince, hrest⟩ := h.tickets i t ht hne
      refine ⟨by simp only; omega, ?_⟩
      refine ticket_cons (by simp [Event.issues]; omega) hle le_rfl ?_ ⟨hsince, hrest⟩
      intro hexhausted _
      exact ⟨hexhausted, rfl, by simp⟩
    have hnew := mem_of_getElem? ht
    rw [mem_singleton] at hnew
    subst hnew
    refine ⟨Nat.lt_succ_self _, le_rfl, ?_, w.tickets.length, s, ?_, rfl⟩
    · simp [since, Event.issues]
    · simp [origin, Event.issues]
  · intro i t ht hspent
    rw [getElem?_append] at ht
    obtain ⟨e, he, hi⟩ := hspent
    have hold : e ∈ w.log := by
      rcases mem_cons.mp he with rfl | he
      · simp [Event.spends] at hi
      · exact he
    rw [if_pos (h.known e hold i hi)] at ht
    by_cases hzero : t.nonce = 0
    · exact .inl hzero
    right
    have hlt := (h.tickets i t ht hzero).1
    rcases h.spent i t ht ⟨e, hold, hi⟩ with hnone | hother
    · exact absurd hnone hzero
    intro hslot
    simp only [getElem?_set] at hslot
    split at hslot
    · split at hslot
      · have := some.inj hslot
        omega
      · cases hslot
    · exact hother hslot
  · intro e he i hi
    rw [length_append]
    rcases mem_cons.mp he with rfl | he
    · simp [Event.spends] at hi
    have := h.known e he i hi
    omega

theorem Inv.revise (h : Inv w) : Inv { w with authority := w.authority.revise, log := .revise :: w.log } := by
  have hnonce : w.authority.revise.nextNonce = w.authority.nextNonce := by
    unfold Authority.revise
    split <;> rfl
  have hissued : w.authority.revise.issued = w.authority.issued := by
    unfold Authority.revise
    split <;> rfl
  constructor
  · simpa only [hissued] using h.slots
  · simpa only [hnonce] using h.positive
  · intro e he n hn
    simp only [hnonce]
    rcases mem_cons.mp he with rfl | he
    · simp [Event.issues, Event.consumes] at hn
    · exact h.below e he n hn
  · intro lane n hn hne
    simp only [hissued] at hn
    obtain ⟨hlt, hnewest, hunused, horigin⟩ := h.issued lane n hn hne
    refine ⟨by simpa only [hnonce] using hlt, ?_, ?_, ?_⟩
    · intro e he
      rcases mem_cons.mp he with rfl | he
      · simp [Event.assesses]
      · exact hnewest e he
    · intro e he
      rcases mem_cons.mp he with rfl | he
      · simp [Event.consumes]
      · exact hunused e he
    · exact horigin
  · intro i t ht hne
    obtain ⟨hlt, hle, hsince, hrest⟩ := h.tickets i t ht hne
    refine ⟨by simpa only [hnonce] using hlt, ?_⟩
    -- a revision leaves no ticket with the authority's own revision, unless it exhausts it
    refine ticket_cons (by simp [Event.issues]) hle ?_ ?_ ⟨hsince, hrest⟩
    · unfold Authority.revise
      split
      · exact le_rfl
      · exact Nat.le_succ _
    unfold Authority.revise
    split
    · intro hexhausted
      cases hexhausted
    intro _ heq
    simp only at heq
    omega
  · intro i t ht hspent
    simp only [hissued]
    obtain ⟨e, he, hi⟩ := hspent
    rcases mem_cons.mp he with rfl | he
    · simp [Event.spends] at hi
    · exact h.spent i t ht ⟨e, he, hi⟩
  · intro e he i hi
    rcases mem_cons.mp he with rfl | he
    · simp [Event.spends] at hi
    · exact h.known e he i hi

theorem Inv.use (h : Inv w) {tickets : List Ticket} {issued : List Nat}
    (hslots : issued.length = maximumLanes) (hissue : e.issues = none) (hassess : e.assesses = none)
    (hrevise : e ≠ .revise) (hbelow : ∀ n, e.consumes = some n → n < w.authority.nextNonce)
    (hissued : ∀ lane n : Nat, issued[lane]? = some n → n ≠ 0 →
      w.authority.issued[lane]? = some n ∧ e.consumes ≠ some n)
    (htickets : ∀ (i : Nat) t, tickets[i]? = some t → t.nonce ≠ 0 → t ∈ w.tickets)
    (hspent : ∀ i t, tickets[i]? = some t →
      (∃ x ∈ e :: w.log, x.spends = some i) → t.nonce = 0 ∨ issued[t.lane]? ≠ some t.nonce)
    (hgrow : w.tickets.length ≤ tickets.length)
    (hknown : ∀ i, e.spends = some i → i < w.tickets.length) :
    Inv { authority := { w.authority with issued }, tickets, log := e :: w.log } where
  slots := hslots
  positive := h.positive
  below := by
    intro x hx n hn
    rcases mem_cons.mp hx with rfl | hx
    · rw [hissue] at hn
      exact hbelow n (by simpa using hn)
    · exact h.below x hx n hn
  issued := by
    intro lane n hn hne
    obtain ⟨hold, hunused⟩ := hissued lane n hn hne
    obtain ⟨hlt, hnewest, hlog, horigin⟩ := h.issued lane n hold hne
    refine ⟨hlt, ?_, ?_, ?_⟩
    · rw [since_cons (by simp [hissue])]
      intro x hx
      rcases mem_cons.mp hx with rfl | hx
      · simp [hassess]
      · exact hnewest x hx
    · intro x hx
      rcases mem_cons.mp hx with rfl | hx
      · exact hunused
      · exact hlog x hx
    · rw [origin_cons (by simp [hissue])]
      exact horigin
  tickets := by
    intro i t ht hne
    obtain ⟨j, hj⟩ := getElem?_of_mem (htickets i t ht hne)
    obtain ⟨hlt, hle, hsince, hrest⟩ := h.tickets j t hj hne
    refine ⟨hlt, ?_⟩
    refine ticket_cons (by simp [hissue]) hle le_rfl ?_ ⟨hsince, hrest⟩
    intro hexhausted _
    exact ⟨hexhausted, rfl, hrevise⟩
  spent := hspent
  known := by
    intro x hx i hi
    rcases mem_cons.mp hx with rfl | hx
    · exact (hknown i hi).trans_le hgrow
    · exact (h.known x hx i hi).trans_le hgrow

theorem slot_of_not_stale (hslots : a.issued.length = maximumLanes)
    (h : ¬ a.stale t) : t.nonce ≠ 0 ∧ a.issued[t.lane]? = some t.nonce := by
  simp only [Authority.stale, not_or, not_not, ge_iff_le, not_le] at h
  obtain ⟨hne, hlane, hslot⟩ := h
  have hlt : t.lane < a.issued.length := by omega
  refine ⟨hne, ?_⟩
  simpa [List.getD, hlt] using hslot

theorem not_slot_of_stale (hslots : a.issued.length = maximumLanes)
    (h : a.stale t) : t.nonce = 0 ∨ a.issued[t.lane]? ≠ some t.nonce := by
  by_contra hnot
  rw [not_or, not_not] at hnot
  rcases h with hzero | hlane | hslot
  · exact hnot.1 hzero
  · have := lt_of_getElem? hnot.2
    omega
  apply hslot
  simp [List.getD, hnot.2]

section
variable (h : Inv w) (ht : w.tickets[i]? = some t)
include h ht

theorem Inv.lane_eq (hne : t.nonce ≠ 0) (hslot : w.authority.issued[lane]? = some t.nonce) : lane = t.lane := by
  obtain ⟨-, -, -, j, o, seen, horigin⟩ := h.issued lane t.nonce hslot hne
  obtain ⟨-, -, -, j', seen', horigin', -⟩ := h.tickets i t ht hne
  rw [horigin] at horigin'
  cases horigin'
  rfl

theorem Inv.refuse (hstale : w.authority.stale t) :
    Inv { authority := w.authority, tickets := w.tickets.set i t, log := .refused i t.nonce :: w.log } := by
  obtain ⟨hi, hget⟩ := List.getElem?_eq_some_iff.mp ht
  have hsame : w.tickets.set i t = w.tickets := by rw [← hget, set_getElem_self]
  have hempty := not_slot_of_stale h.slots hstale
  rw [hsame]
  refine h.use h.slots rfl rfl (by simp) ?_ ?_ ?_ ?_ le_rfl ?_
  · intro n hn
    cases hn
    by_cases hzero : t.nonce = 0
    · rw [hzero]
      exact h.positive
    · exact (h.tickets i t ht hzero).1
  · intro lane n hn hne
    refine ⟨hn, ?_⟩
    intro hconsumed
    cases hconsumed
    have hlane := h.lane_eq ht hne hn
    rcases hempty with hzero | hother
    · exact hne hzero
    · exact hother (hlane ▸ hn)
  · intro j t' ht' _
    exact mem_of_getElem? ht'
  · intro j t' ht' hspent
    obtain ⟨x, hx, hj⟩ := hspent
    rcases mem_cons.mp hx with rfl | hx
    · cases hj
      rw [ht] at ht'
      cases ht'
      exact hempty
    · exact h.spent j t' ht' ⟨x, hx, hj⟩
  intro j hj
  cases hj
  exact hi

theorem Inv.clear {used : Ticket} (hlive : ¬ w.authority.stale t) (hused : used.nonce = 0)
    (hissue : e.issues = none) (hassess : e.assesses = none) (hrevise : e ≠ .revise)
    (hconsumes : e.consumes = some t.nonce) (hspends : e.spends = some i) :
    Inv { authority := { w.authority with issued := w.authority.issued.set t.lane 0 },
          tickets := w.tickets.set i used, log := e :: w.log } := by
  obtain ⟨hne, hslot⟩ := slot_of_not_stale h.slots hlive
  have hi := lt_of_getElem? ht
  have hset : ∀ lane n, (w.authority.issued.set t.lane 0)[lane]? = some n → n ≠ 0 →
      lane ≠ t.lane ∧ w.authority.issued[lane]? = some n := by
    intro lane n hn hzero
    exact (ListUpdate.getElem?_set_cases hn).resolve_left fun h => hzero h.2
  have hother : ∀ j t', (w.tickets.set i used)[j]? = some t' → t'.nonce ≠ 0 → j ≠ i ∧ w.tickets[j]? = some t' := by
    intro j t' ht' hzero
    exact (ListUpdate.getElem?_set_cases ht').resolve_left fun h => hzero (h.2 ▸ hused)
  refine h.use (by simpa using h.slots) hissue hassess hrevise ?_ ?_ ?_ ?_ (by simp) ?_
  · intro n hn
    rw [hconsumes] at hn
    cases hn
    exact (h.tickets i t ht hne).1
  · intro lane n hn hzero
    obtain ⟨hdifferent, hold⟩ := hset lane n hn hzero
    refine ⟨hold, ?_⟩
    intro hconsumed
    rw [hconsumes] at hconsumed
    cases hconsumed
    exact hdifferent (h.lane_eq ht hne hold)
  · intro j t' ht' hzero
    exact mem_of_getElem? (hother j t' ht' hzero).2
  · intro j t' ht' hspent
    by_cases hzero : t'.nonce = 0
    · exact .inl hzero
    right
    obtain ⟨hdifferent, hold⟩ := hother j t' ht' hzero
    obtain ⟨x, hx, hj⟩ := hspent
    intro hcurrent
    obtain ⟨-, hcurrent⟩ := hset _ _ hcurrent hzero
    rcases mem_cons.mp hx with rfl | hx
    · rw [hspends] at hj
      exact hdifferent (some.inj hj).symm
    rcases h.spent j t' hold ⟨x, hx, hj⟩ with hnone | hnot
    · exact hzero hnone
    · exact hnot hcurrent
  intro j hj
  rw [hspends] at hj
  cases hj
  exact hi

theorem Inv.move {emptied : Ticket} (hempty : emptied.nonce = 0) :
    Inv { w with tickets := w.tickets.set i emptied ++ [t], log := .moved i w.tickets.length :: w.log } := by
  have hi := lt_of_getElem? ht
  have hplace : ∀ j t', (w.tickets.set i emptied ++ [t])[j]? = some t' →
      t'.nonce ≠ 0 → j = w.tickets.length ∧ t' = t ∨ j ≠ i ∧ w.tickets[j]? = some t' := by
    intro j t' ht' hzero
    rw [getElem?_append] at ht'
    split at ht'
    · exact .inr ((ListUpdate.getElem?_set_cases ht').resolve_left fun h => hzero (h.2 ▸ hempty))
    next hlast =>
    have hnew := mem_of_getElem? ht'
    have hbound := lt_of_getElem? ht'
    rw [length_set] at hlast hbound
    simp only [length_singleton] at hbound
    exact .inl ⟨by omega, mem_singleton.mp hnew⟩
  refine h.use h.slots rfl rfl (by simp) ?_ ?_ ?_ ?_ (by simp) ?_
  · intro n hn
    cases hn
  · intro lane n hn _
    exact ⟨hn, by simp [Event.consumes]⟩
  · intro j t' ht' hzero
    rcases hplace j t' ht' hzero with ⟨-, rfl⟩ | ⟨-, hold⟩
    · exact mem_of_getElem? ht
    · exact mem_of_getElem? hold
  · intro j t' ht' hspent
    by_cases hzero : t'.nonce = 0
    · exact .inl hzero
    obtain ⟨x, hx, hj⟩ := hspent
    rcases hplace j t' ht' hzero with ⟨rfl, -⟩ | ⟨hdifferent, hold⟩
    · -- the new object has no history
      rcases mem_cons.mp hx with rfl | hx
      · cases hj
        omega
      · exact absurd (h.known x hx _ hj) (Nat.lt_irrefl _)
    rcases mem_cons.mp hx with rfl | hx
    · cases hj
      exact absurd rfl hdifferent
    · exact h.spent j t' hold ⟨x, hx, hj⟩
  intro j hj
  cases hj
  exact hi

end

theorem Inv.step (h : Inv w) (call : Call) : Inv (w.step call) := by
  cases call with simp only [World.step]
  | snapshot o s lane =>
    cases hok : w.authority.snapshot o s lane with
    | error _ => exact h
    | ok r => exact h.snapshot hok
  | revise => exact h.revise
  | consume i current state =>
    cases ht : w.tickets[i]? with
    | none => exact h
    | some t =>
      by_cases hstale : w.authority.stale t
      · simp only [Authority.consume, if_pos hstale]
        exact h.refuse ht hstale
      by_cases hchanged : w.authority.changed t current state
      · simp only [Authority.consume, if_neg hstale, if_pos hchanged]
        exact h.clear ht hstale rfl rfl rfl (by simp) rfl rfl
      simp only [Authority.consume, if_neg hstale, if_neg hchanged]
      exact h.clear ht hstale rfl rfl rfl (by simp) rfl rfl
  | move i =>
    cases ht : w.tickets[i]? with
    | none => exact h
    | some t => exact h.move ht rfl

/-! ## Every grant is justified -/

theorem Inv.justified (h : Inv w) (ht : w.tickets[i]? = some t) (hlive : ¬ w.authority.stale t)
    (hsame : ¬ w.authority.changed t current state) :
    Justified i ⟨t.observation, t.revision, t.nonce, t.lane⟩ current state w.log := by
  obtain ⟨hne, hslot⟩ := slot_of_not_stale h.slots hlive
  obtain ⟨-, hnewest, hunused, -⟩ := h.issued t.lane t.nonce hslot hne
  obtain ⟨-, -, hrevised, j, seen, horigin, hassessment⟩ := h.tickets i t ht hne
  have hwork := sameWork_of_not_changed hsame
  simp only [Authority.changed, not_or, Bool.not_eq_true, Bool.not_eq_false, not_not, ne_eq]
    at hsame
  obtain ⟨hexhausted, hrevision, hexecutable, hready, -⟩ := hsame
  obtain ⟨old, hold⟩ := since_append horigin
  refine ⟨⟨since t.nonce w.log, old, j, seen, hold, ?_, ?_⟩, hwork, hready, hunused, ?_⟩
  · intro e he
    refine ⟨?_, hnewest e he⟩
    rintro rfl
    exact hrevised hexhausted hrevision he
  · rw [← hassessment]
    exact hexecutable
  · intro e he hspends
    rcases h.spent i t ht ⟨e, he, hspends⟩ with hzero | hother
    · exact hne hzero
    · exact hother hslot

/-- Every grant of a log is justified by what came before it. -/
def Sound (log : List Event) : Prop :=
  ∀ later i grant current state earlier, log = later ++ .granted i grant current state :: earlier →
    Justified i grant current state earlier

theorem Sound.cons (h : Sound log)
    (he : ∀ i grant current state, e = .granted i grant current state →
      Justified i grant current state log) : Sound (e :: log) := by
  intro later i grant current state earlier heq
  cases later with
  | nil =>
    rw [nil_append, List.cons.injEq] at heq
    rw [← heq.2]
    exact he i grant current state heq.1
  | cons x later =>
    rw [cons_append, List.cons.injEq] at heq
    exact h later i grant current state earlier heq.2

theorem Sound.step (hs : Sound w.log) (h : Inv w) (call : Call) : Sound (w.step call).log := by
  cases call with simp only [World.step]
  | snapshot o s lane =>
    cases hok : w.authority.snapshot o s lane with
    | error _ => exact hs
    | ok r => exact hs.cons (by simp)
  | revise => exact hs.cons (by simp)
  | consume i current state =>
    cases ht : w.tickets[i]? with
    | none => exact hs
    | some t =>
      apply hs.cons
      intro i' grant current' state' heq
      by_cases hstale : w.authority.stale t
      · simp [Authority.consume, hstale] at heq
      by_cases hchanged : w.authority.changed t current state
      · simp [Authority.consume, hstale, hchanged] at heq
      simp only [Authority.consume, if_neg hstale, if_neg hchanged] at heq
      cases heq
      exact h.justified ht hstale hchanged
  | move i =>
    cases ht : w.tickets[i]? with
    | none => exact hs
    | some t => exact hs.cons (by simp)

theorem run_sound (h : Inv w) (hs : Sound w.log) (calls : List Call) :
    Inv (w.run calls) ∧ Sound (w.run calls).log := by
  induction calls generalizing w with
  | nil => exact ⟨h, hs⟩
  | cons call calls ih => exact ih (h.step call) (hs.step h call)

/-- In any sequence of calls on a new authority, each grant is justified by the events before
    it: the newest snapshot of its lane issued its nonce, for the same executable work and
    under no later revision, and neither the nonce nor the ticket object was used before. -/
theorem grants_justified (calls : List Call) {later earlier : List Event} {i : Nat} {grant : Grant}
    {current : Observation} {state : WorkState}
    (h : (World.run {} calls).log = later ++ .granted i grant current state :: earlier) :
    Justified i grant current state earlier :=
  (run_sound Inv.initial (by simp [Sound]) calls).2 later i grant current state earlier h

/-- Work that is ready and known. -/
def readyObservation : Observation :=
  { generation := 7, signature := { modelOwner := ⟨1, some 1⟩ } }

/-- The state in which it may run. -/
def readyState : WorkState := ⟨7, true, true, true, false⟩

/-- A second snapshot of the lane makes the first ticket stale; the second one is granted, also after a move. -/
theorem grants_justified_run :
    Justified 2 ⟨readyObservation, 1, 2, 3⟩ readyObservation readyState
      [.moved 1 2, .refused 0 1, .snapshot 1 2 3 readyObservation readyState,
        .snapshot 0 1 3 readyObservation readyState] :=
  grants_justified [.snapshot readyObservation readyState 3, .snapshot readyObservation readyState 3,
    .consume 0 readyObservation readyState, .move 1, .consume 2 readyObservation readyState]
    (show _ = [] ++ _ by rfl)

end VoidInfer.Exl3.ReadyWork
