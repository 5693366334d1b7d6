import VoidInfer.Base

/-
  `Exl3FinalUseWitness`: the value witness of the last use of an event. Every record has a generation of its own, an
  error is kept for good, and only an unfinished generation can be finished.
-/

namespace VoidInfer.Exl3

structure FinalUseWitness where
  acquisition : Nat := 0
  execution : Nat := 0
  generation : Nat := 0
  event : Nat := 0
  ready : Bool := false
  error : Int := 0

namespace FinalUseWitness

/-- `begin`: the generation of the new use. -/
def begin (w : FinalUseWitness) (acquisition execution event : Nat) : Except Exn FinalUseWitness := do
  throwIf (w.error ≠ 0 ∨ (w.generation ≠ 0 ∧ w.ready = false) ∨ acquisition = 0 ∨ execution = 0 ∨ event = 0 ∨
    w.generation = uint64Max) (.logicError "final-use owner/scope unavailable")
  return { w with acquisition, execution, event, ready := false, generation := w.generation + 1 }

/-- `finish`: the witness after it, where it accepts the generation. -/
def finish (w : FinalUseWitness) (generation : Nat) (error : Int) : Option FinalUseWitness :=
  if generation ≠ w.generation ∨ generation = 0 ∨ w.ready = true ∨ w.error ≠ 0 then none
  else if error ≠ 0 then some { w with error }
  else some { w with ready := true }

/-- `matches`. -/
def isMatch (w : FinalUseWitness) (acquisition execution generation : Nat) : Bool :=
  w.ready && w.error == 0 && acquisition == w.acquisition && execution == w.execution && generation == w.generation

end FinalUseWitness

end VoidInfer.Exl3
