import VoidInfer.Frontend.OutputSession
import Mathlib.Logic.Relation

/-
  The runs of an output session: previews in any order, each taken over or dropped. A call that throws leaves the
  session as it was.
-/

namespace VoidInfer.Frontend
open Bytes Utf8

/-- A preview's call. -/
inductive OutputCall where
  | model (tokens : List TokenId) (totalBudgetRemaining : Nat) (limitReason : FinishReason)
  | control (tokens : List TokenId) (totalBudgetRemaining : Nat)
  | terminal (reason : FinishReason)

namespace OutputCall

def perform (session : OutputSession) : OutputCall → Except Exn (OutputDecision × OutputSession)
  | .model tokens total limitReason => session.previewModel tokens total limitReason
  | .control tokens total => session.previewControl tokens total
  | .terminal reason => session.previewTerminal reason

/-- The call and `commit_preview` in one. -/
def commit (session : OutputSession) (call : OutputCall) : Option (OutputDecision × PublishedOutput × OutputSession) :=
  match call.perform session with
  | .ok (decision, previewed) =>
    previewed.commitPreview.map fun (output, committed) => (decision, output, committed)
  | .error _ => none

theorem commit_eq_some {session committed : OutputSession} {call : OutputCall} {decision : OutputDecision}
    {output : PublishedOutput} (h : call.commit session = some (decision, output, committed)) :
    ∃ previewed, call.perform session = .ok (decision, previewed) ∧
      previewed.commitPreview = some (output, committed) := by
  unfold commit at h
  split at h
  · next previewed hperform =>
    obtain ⟨result, hcommit, hresult⟩ := Option.map_eq_some_iff.mp h
    cases hresult
    exact ⟨previewed, hperform, hcommit⟩
  · cases h

end OutputCall

/-- A session between two previews, the tokens accepted so far and the text published so far. -/
structure OutputPoint where
  session : OutputSession
  accepted : Nat := 0
  published : OutputChannel → List UInt8 := fun _ => []

/-- The point after `commit_preview`. -/
def OutputPoint.commit (p : OutputPoint) (decision : OutputDecision) (output : PublishedOutput)
    (committed : OutputSession) : OutputPoint :=
  ⟨committed, p.accepted + decision.acceptedTokens, fun channel => p.published channel ++ output.textOn channel⟩

/-- A preview whose call meets `P`, and what becomes of it. -/
inductive OutputStep (P : OutputSession → OutputCall → Prop) : OutputPoint → OutputPoint → Prop where
  | commit {p : OutputPoint} {call decision previewed output committed} (hcall : P p.session call)
      (hperform : call.perform p.session = .ok (decision, previewed))
      (hcommit : previewed.commitPreview = some (output, committed)) :
      OutputStep P p (p.commit decision output committed)
  | discard {p : OutputPoint} {call decision previewed} (hcall : P p.session call)
      (hperform : call.perform p.session = .ok (decision, previewed)) :
      OutputStep P p { p with session := previewed.discardPreview }

abbrev OutputRun (P : OutputSession → OutputCall → Prop) : OutputPoint → OutputPoint → Prop :=
  Relation.ReflTransGen (OutputStep P)

/-- A session as `make_output_session` leaves it, with no storage fixed yet or the requested one. -/
structure OutputPoint.Fresh (p : OutputPoint) : Prop where
  made : ∃ tokenizer callerStop output startsInReasoning budget control captureOnly session,
    OutputSession.makeOutputSession tokenizer callerStop output startsInReasoning budget control
      captureOnly = .ok session ∧
    ∃ storage limit, p.session = { session with storage := storage, fixedOutputLimit := limit }
  accepted : p.accepted = 0
  published : p.published = fun _ => []

namespace OutputSession

variable {session : OutputSession}

variable {call : OutputCall} {result : OutputDecision × OutputSession} {round : Round} {count : Nat}
  {reason : FinishReason} {continuation : ContinuationAction} {decision : OutputDecision}
  {previewed : OutputSession}

theorem perform_complete (h : call.perform session = .ok result) :
    ∃ round count reason continuation, result = complete session round count reason continuation := by
  cases call with
  | model tokens total limitReason =>
    obtain ⟨-, -, -, -, hway⟩ := previewModel_ok h
    cases hway <;> exact ⟨_, _, _, _, rfl⟩
  | control tokens total =>
    obtain ⟨-, -, -, round, -, -, -, rfl⟩ := previewControl_ok h
    exact ⟨_, _, _, _, rfl⟩
  | terminal reason =>
    obtain ⟨-, -, state, output, -, rfl⟩ := previewTerminal_ok h
    exact ⟨_, _, _, _, rfl⟩

theorem perform_of_terminal (hterminal : session.state.terminal = true) : call.perform session ≠ .ok result := by
  intro h
  have hopen : session.state.terminal = false := by
    cases call with
    | model tokens total limitReason => exact (previewModel_ok h).1
    | control tokens total => exact (previewControl_ok h).1
    | terminal reason => exact (previewTerminal_ok h).1
  rw [hterminal] at hopen
  cases hopen

/-- The members no preview changes. -/
structure SameSetup (before after : OutputSession) : Prop where
  tokenizer : after.tokenizer = before.tokenizer
  policy : after.policy = before.policy
  control : after.thinkingControlTokens = before.thinkingControlTokens
  preserveSpecial : after.preserveSpecial = before.preserveSpecial
  splitReasoning : after.splitReasoning = before.splitReasoning
  captureOnly : after.captureOnly = before.captureOnly
  storage : after.storage = before.storage
  limit : after.fixedOutputLimit = before.fixedOutputLimit

section
variable (h : (decision, previewed) = complete session round count reason continuation)
include h

theorem complete_commit {committed : OutputSession} {output : PublishedOutput}
    (hcommit : previewed.commitPreview = some (output, committed)) :
    decision = ⟨count, reason, continuation⟩ ∧ output = round.output ∧ committed.state = round.state ∧
      committed.semantic = { round.semantic with
        controlPending := round.semantic.controlPending && decide (reason = .none) } ∧
      SameSetup session committed := by
  cases h
  cases hcommit
  exact ⟨rfl, rfl, rfl, rfl, rfl, rfl, rfl, rfl, rfl, rfl, rfl, rfl⟩

theorem complete_discard :
    previewed.discardPreview.state = session.state ∧ previewed.discardPreview.semantic = session.semantic ∧
      SameSetup session previewed.discardPreview := by
  cases h
  exact ⟨rfl, rfl, rfl, rfl, rfl, rfl, rfl, rfl, rfl, rfl⟩

end

end OutputSession

end VoidInfer.Frontend
