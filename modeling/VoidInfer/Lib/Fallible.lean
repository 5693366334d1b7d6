import Mathlib.Init

/-
  Pre- and postconditions of functions that return or throw: `ends x Q E` says that `x` returns a value with `Q` or
  throws an exception with `E`. A block's `ends` comes from its parts' through `ends_bind`; a caller cites the functions
  it calls through `ends_mono`.
-/

namespace Fallible

variable {ε α β : Type}

/-- `x` returns with `Q`, or throws with `E`. -/
def ends (x : Except ε α) (Q : α → Prop) (E : ε → Prop) : Prop :=
  match x with
  | .ok a => Q a
  | .error e => E e

variable {x : Except ε α} {f : α → Except ε β} {Q Q' : α → Prop} {R : β → Prop} {E E' : ε → Prop}

@[simp] theorem ends_ok {a : α} : ends (.ok a : Except ε α) Q E ↔ Q a := Iff.rfl

@[simp] theorem ends_error {e : ε} : ends (.error e : Except ε α) Q E ↔ E e := Iff.rfl

theorem ends_mono (h : ends x Q E) (hQ : ∀ a, x = .ok a → Q a → Q' a) (hE : ∀ e, E e → E' e) : ends x Q' E' := by
  cases x with
  | ok a => exact hQ a rfl h
  | error e => exact hE e h

theorem ends_imp (h : ends x Q E) (hQ : ∀ a, x = .ok a → Q a → Q' a) : ends x Q' E := ends_mono h hQ fun _ he => he

theorem ends_fail (h : ends x Q E) (hE : ∀ e, E e → E' e) : ends x Q E' := ends_mono h (fun _ _ hq => hq) hE

theorem ends_bind (h : ends x Q E) (hf : ∀ a, x = .ok a → Q a → ends (f a) R E) : ends (x >>= f) R E := by
  cases x with
  | ok a => exact hf a rfl h
  | error e => exact h

theorem ends_ite {c : Prop} [Decidable c] {y z : Except ε α} (hy : c → ends y Q E)
    (hz : ¬ c → ends z Q E) : ends (if c then y else z) Q E := by
  split
  · next h => exact hy h
  · next h => exact hz h

theorem ends_val {a : α} (h : ends x Q E) (hx : x = .ok a) : Q a := by
  rw [hx] at h
  exact h

theorem ends_exn {e : ε} (h : ends x Q E) (hx : x = .error e) : E e := by
  rw [hx] at h
  exact h

theorem ends_of_ok (h : ∀ a, x = .ok a → Q a) : ends x Q fun _ => True := by
  cases x with
  | ok a => exact h a rfl
  | error e => trivial

theorem ends_skip (hf : ∀ a, x = .ok a → ends (f a) R fun _ => True) : ends (x >>= f) R fun _ => True :=
  ends_bind (Q := fun _ => True) (ends_of_ok fun _ _ => trivial) fun a ha _ => hf a ha

theorem ends_foldlM {γ : Type} {g : β → γ → Except ε β} {I : List γ → β → Prop} {l : List γ} {b : β}
    (hstep : ∀ c rest b, I (c :: rest) b → ends (g b c) (I rest) E) (h : I l b) :
    ends (l.foldlM g b) (I []) E := by
  induction l generalizing b with
  | nil => exact h
  | cons c rest ih =>
    exact ends_bind (hstep c rest b h) fun b' _ hb' => ih hb'

/-- The exception thrown, if one is. -/
def thrown : Except ε α → Option ε
  | .ok _ => none
  | .error e => some e

theorem eq_error_of_thrown {e : ε} (h : thrown x = some e) : x = .error e := by
  cases x with
  | ok a => cases h
  | error e' => exact congrArg _ (Option.some.inj h)

end Fallible
