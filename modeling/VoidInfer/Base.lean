import Mathlib.Algebra.Ring.Int.Defs
import Mathlib.Algebra.Ring.Nat

/-
  What every component model shares: the C++ exceptions the sources throw, and the limits of the fixed-width types.
  Machine integers are `Nat` with the source's own overflow checks written out.
-/

namespace VoidInfer

/-- How a call ends without returning: the standard exceptions thrown by the modelled
    sources, with their texts, and `std::terminate`. -/
inductive Exn where
  | invalidArgument (what : String)
  | overflowError (what : String)
  | outOfRange (what : String)
  | lengthError (what : String)
  | logicError (what : String)
  | runtimeError (what : String)
  | badAlloc
  | terminate
deriving DecidableEq

/-- `std::numeric_limits<std::size_t>::max()`. -/
def sizeMax : Nat := 2 ^ 64 - 1

/-- `std::numeric_limits<std::uint32_t>::max()`. -/
def uint32Max : Nat := 2 ^ 32 - 1

/-- `std::numeric_limits<std::int32_t>::max()`. -/
def int32Max : Nat := 2 ^ 31 - 1

def uint64Max : Nat := 2 ^ 64 - 1

/-- `increment_generation`: a 32-bit counter that skips zero when it wraps. -/
def incrementGeneration (generation : Nat) : Nat :=
  let next := (generation + 1) % 2 ^ 32
  if next = 0 then next + 1 else next

/-! ## Checks that throw -/

/-- `if (bad) { throw e; }`. -/
def throwIf (bad : Prop) [Decidable bad] (e : Exn) : Except Exn Unit :=
  if bad then .error e else .ok ()

variable {bad : Prop}

theorem throwIf_ok [Decidable bad] {e : Exn} {u : Unit} : throwIf bad e = .ok u ↔ ¬ bad := by
  unfold throwIf
  split <;> simp_all

theorem throwIf_neg [Decidable bad] {e : Exn} (h : ¬ bad) : throwIf bad e = .ok () := if_neg h

theorem throwIf_error [Decidable bad] {e e' : Exn} (h : throwIf bad e = .error e') : bad ∧ e' = e := by
  unfold throwIf at h
  split at h
  · next hbad => exact ⟨hbad, (Except.error.inj h).symm⟩
  · cases h

variable {ε α β : Type _}

theorem bind_ok {x : Except ε α} {f : α → Except ε β} {r : β}
    (h : (x >>= f) = .ok r) : ∃ a, x = .ok a ∧ f a = .ok r := by
  cases x with
  | error e => cases h
  | ok a => exact ⟨a, rfl, h⟩

theorem check_ok [Decidable bad] {e : Exn} {f : Unit → Except Exn β} {r : β}
    (h : (throwIf bad e >>= f) = .ok r) : ¬ bad ∧ f () = .ok r := by
  obtain ⟨_, hgood, h⟩ := bind_ok h
  exact ⟨throwIf_ok.mp hgood, h⟩

theorem bind_error {x : Except ε α} {f : α → Except ε β} {e : ε} (h : (x >>= f) = .error e) :
    x = .error e ∨ ∃ a, x = .ok a ∧ f a = .error e := by
  cases x with
  | error e' => exact .inl (congrArg Except.error (Except.error.inj h))
  | ok a => exact .inr ⟨a, rfl, h⟩

theorem lt_of_getElem? {l : List α} {i : Nat} {x : α} (h : l[i]? = some x) : i < l.length :=
  (List.getElem?_eq_some_iff.mp h).1

end VoidInfer
