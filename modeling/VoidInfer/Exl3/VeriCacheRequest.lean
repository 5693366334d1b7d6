import VoidInfer.Base
import Mathlib.Data.List.Infix

/-
  `Exl3VeriCacheRequest`: immutable request checkpoints. A checkpoint is named by its address and never changes;
  `Requests` gives the object at each address, in the order in which they were made. Revisions are identities too:
  `create_revision` makes a new one and every object that names a revision keeps it alive, so none is used twice.

  The constructors are private. `Factory` lists the ways to make a checkpoint, and `prefix_of_isChildOf` says what they
  ensure: a child's tokens extend its parent's.
-/

namespace VoidInfer.Exl3
open Option

/-- `Exl3ExactHostState`, as far as the coordinator reads it. Every exported state has the
    identity of its resident model, which is never null. -/
structure Exl3ExactHostState where
  position : Int
  modelIdentity : Nat
  nativeExtentValid : Int → Bool

/-- `Exl3VeriCacheRequest`; `history` is the token list of `history_`. -/
structure Exl3VeriCacheRequest where
  revision : Nat
  parentRevision : Option Nat
  replayAnchorRevision : Option Nat
  history : List Int
  state : Option Exl3ExactHostState

/-- The object at each address. -/
abbrev Requests := Nat → Exl3VeriCacheRequest

namespace Exl3VeriCacheRequest

def isChildOf (request root : Exl3VeriCacheRequest) : Prop :=
  request.parentRevision = some root.revision

instance (request root : Exl3VeriCacheRequest) : Decidable (request.isChildOf root) :=
  inferInstanceAs (Decidable (_ = _))

section
variable (request : Exl3VeriCacheRequest)

def tokenSuffix (first : Int) : Except Exn (List Int) := do
  throwIf (first < 0 ∨ first > request.history.length) (.invalidArgument "token replay suffix extent")
  return request.history.drop first.toNat

/-- `state()->position()`, read only of a checkpoint with a state. -/
def position : Int := (request.state.map (·.position)).getD 0

/-- `state()->model_identity()`, likewise. -/
def modelIdentity : Nat :=
  (request.state.map (·.modelIdentity)).getD 0

/-- `state()->native_extent_valid(maximum_position)`, likewise. -/
def nativeExtentValid (maximumPosition : Int) : Bool :=
  (request.state.map (·.nativeExtentValid maximumPosition)).getD false

end

theorem tokenSuffix_ok {request : Exl3VeriCacheRequest} {first : Int} {tokens : List Int}
    (h : request.tokenSuffix first = .ok tokens) :
    0 ≤ first ∧ first ≤ request.history.length ∧ tokens = request.history.drop first.toNat := by
  obtain ⟨hgood, hret⟩ := check_ok h
  exact ⟨by omega, by omega, (Except.ok.inj hret).symm⟩

/-- `initialize`, `initialize_device_root`: a checkpoint without parent. -/
def initializeRoot (revision : Nat) (prompt : List Int) (state : Option Exl3ExactHostState) :
    Exl3VeriCacheRequest :=
  { revision, parentRevision := none, replayAnchorRevision := none, history := prompt, state }

/-- `append_prompt`, `append_prompt_compact`, `append_device_prompt`,
    `append_device_terminal`: a child that may be replayed from its parent on. -/
def append (parent : Exl3VeriCacheRequest) (revision : Nat) (suffix : List Int)
    (state : Option Exl3ExactHostState) : Exl3VeriCacheRequest :=
  { revision, parentRevision := some parent.revision
    replayAnchorRevision := some (parent.replayAnchorRevision.getD parent.revision)
    history := parent.history ++ suffix, state }

/-- `verify`, `verify_compact`: a child that keeps its parent's anchor. -/
def verify (parent : Exl3VeriCacheRequest) (revision : Nat) (committed : List Int)
    (state : Option Exl3ExactHostState) : Exl3VeriCacheRequest :=
  { revision, parentRevision := some parent.revision
    replayAnchorRevision := parent.replayAnchorRevision
    history := parent.history ++ committed, state }

def composeVerifiedChild (child parent : Exl3VeriCacheRequest) (revision : Nat) :
    Exl3VeriCacheRequest :=
  { child with revision, parentRevision := some parent.revision }

/-- `Exl3VeriCacheReplay::restore` of the plan of `source` from `anchor`. -/
def restore (source : Exl3VeriCacheRequest) (anchor : Option Exl3VeriCacheRequest)
    (revision : Nat) (state : Option Exl3ExactHostState) : Exl3VeriCacheRequest :=
  { revision, parentRevision := anchor.map (·.revision)
    replayAnchorRevision := anchor.map (·.revision), history := source.history, state }

end Exl3VeriCacheRequest

open Exl3VeriCacheRequest

/-- No earlier checkpoint has this revision. -/
def FreshRevision (R : Requests) (r revision : Nat) : Prop := ∀ q, q < r → (R q).revision ≠ revision

/-- How the object at `r` was made from earlier ones. -/
inductive Factory (R : Requests) (r : Nat) : Prop
  | initializeRoot {revision : Nat} (prompt : List Int) (state : Option Exl3ExactHostState)
      (hf : FreshRevision R r revision) (h : R r = Exl3VeriCacheRequest.initializeRoot revision prompt state)
  | append {p revision : Nat} (hp : p < r) (suffix : List Int) (state : Option Exl3ExactHostState)
      (hf : FreshRevision R r revision) (h : R r = (R p).append revision suffix state)
  | verify {p revision : Nat} (hp : p < r) (committed : List Int)
      (state : Option Exl3ExactHostState) (hf : FreshRevision R r revision)
      (h : R r = (R p).verify revision committed state)
  | clone {p : Nat} (hp : p < r) (h : R r = R p)
  | compose {c m p revision : Nat} (hc : c < r) (hm : m < r) (hp : p < r)
      (hcm : (R c).isChildOf (R m)) (hmp : (R m).isChildOf (R p))
      (hf : FreshRevision R r revision) (h : R r = (R c).composeVerifiedChild (R p) revision)
  | restore {q revision : Nat} (hq : q < r) (anchor : Option Nat)
      (state : Option Exl3ExactHostState) (hf : FreshRevision R r revision)
      (ha : ∀ a, anchor = some a → a < r ∧ (R q).replayAnchorRevision = some (R a).revision)
      (h : R r = (R q).restore (anchor.map R) revision state)

/-- Every object was made by one of the factories. -/
def Made (R : Requests) : Prop := ∀ r, Factory R r

section Lineage

variable {R : Requests}

theorem history_eq_of_revision_eq (hR : Made R) {a b : Nat}
    (h : (R a).revision = (R b).revision) : (R a).history = (R b).history := by
  -- it is enough to look at the later of the two
  have hlt : ∀ b a, a < b → (R a).revision = (R b).revision → (R a).history = (R b).history := by
    intro b
    induction b using Nat.strongRecOn with
    | _ b ih =>
      intro a hab hrev
      cases hR b with
      | initializeRoot _ _ hf hb => exact absurd hrev (by rw [hb]; exact hf a hab)
      | append _ _ _ hf hb => exact absurd hrev (by rw [hb]; exact hf a hab)
      | verify _ _ _ hf hb => exact absurd hrev (by rw [hb]; exact hf a hab)
      | compose _ _ _ _ _ hf hb => exact absurd hrev (by rw [hb]; exact hf a hab)
      | restore _ _ _ hf _ hb => exact absurd hrev (by rw [hb]; exact hf a hab)
      | @clone p hp hb =>
        rw [hb] at hrev ⊢
        rcases Nat.lt_trichotomy a p with hap | rfl | hpa
        · exact ih p hp a hap hrev
        · rfl
        · exact (ih a hab p hpa hrev.symm).symm
  rcases Nat.lt_trichotomy a b with hab | rfl | hba
  · exact hlt b a hab h
  · rfl
  · exact (hlt a b hba h.symm).symm

/-- What a checkpoint's parent and anchor have in common: their tokens start its own. -/
theorem prefix_of_lineage (hR : Made R) (c : Nat) :
    (∀ p, (R c).parentRevision = some (R p).revision → (R p).history <+: (R c).history) ∧
    ∀ a, (R c).replayAnchorRevision = some (R a).revision → (R a).history <+: (R c).history := by
  induction c using Nat.strongRecOn with
  | _ c ih =>
    -- an ancestor known by its revision is as good as the object itself
    have hvia : ∀ {q a : Nat} {l : List Int}, (R q).revision = (R a).revision →
        (R q).history <+: l → (R a).history <+: l := by
      intro q a l hrev hpre
      rw [← history_eq_of_revision_eq hR hrev]
      exact hpre
    cases hR c with
    | initializeRoot prompt state _ hc =>
      rw [hc]
      exact ⟨fun p hp => absurd hp (by simp [Exl3VeriCacheRequest.initializeRoot]),
        fun a ha => absurd ha (by simp [Exl3VeriCacheRequest.initializeRoot])⟩
    | @append q revision hq suffix state _ hc =>
      rw [hc]
      have hown : (R q).history <+: (R q).history ++ suffix := List.prefix_append _ _
      refine ⟨fun p hp => hvia (some.inj hp) hown, fun a ha => ?_⟩
      have ha : (R q).replayAnchorRevision.getD (R q).revision = (R a).revision :=
        some.inj ha
      cases hanchor : (R q).replayAnchorRevision with
      | none =>
        rw [hanchor] at ha
        exact hvia ha hown
      | some revision =>
        rw [hanchor] at ha
        have hrev : (R q).replayAnchorRevision = some (R a).revision := by
          rw [hanchor]
          exact congrArg some ha
        exact ((ih q hq).2 a hrev).trans hown
    | @verify q revision hq committed state _ hc =>
      rw [hc]
      have hown : (R q).history <+: (R q).history ++ committed := List.prefix_append _ _
      exact ⟨fun p hp => hvia (some.inj hp) hown, fun a ha => ((ih q hq).2 a ha).trans hown⟩
    | @clone q hq hc =>
      rw [hc]
      exact ih q hq
    | @compose d m q revision hd hm hq hdm hmq _ hc =>
      rw [hc]
      have hown : (R q).history <+: (R d).history := ((ih m hm).1 q hmq).trans ((ih d hd).1 m hdm)
      exact ⟨fun p hp => hvia (some.inj hp) hown, fun a ha => (ih d hd).2 a ha⟩
    | @restore q revision hq anchor state _ ha hc =>
      rw [hc]
      cases hanchor : anchor with
      | none =>
        exact ⟨fun p hp => absurd hp (by simp [Exl3VeriCacheRequest.restore]),
          fun a ha => absurd ha (by simp [Exl3VeriCacheRequest.restore])⟩
      | some b =>
        have hown : (R b).history <+: (R q).history := (ih q hq).2 b (ha b hanchor).2
        exact ⟨fun p hp => hvia (some.inj hp) hown, fun a ha => hvia (some.inj ha) hown⟩

theorem prefix_of_isChildOf (hR : Made R) {c p : Nat} (h : (R c).isChildOf (R p)) : (R p).history <+: (R c).history :=
  (prefix_of_lineage hR c).1 p h

end Lineage
end VoidInfer.Exl3
