import Mathlib.Data.List.Forall2

/-
  Decoding with replacement. Table 3-7 of the Unicode standard lists the well-formed sequences by their first byte; what
  fits a row up to some byte and no further is a maximal ill-formed subpart, and practice replaces each such subpart by
  one U+FFFD.
-/

namespace Utf8

/-- The bytes a row allows after its first one, as inclusive ranges. -/
abbrev Trail := List (Nat × Nat)

def tail : Nat × Nat := (0x80, 0xBF)

/-- The row of a first byte; no row for a byte that begins no sequence. -/
def row (lead : UInt8) : Option Trail :=
  let b := lead.toNat
  if b ≤ 0x7F then some []
  else if b < 0xC2 then none
  else if b ≤ 0xDF then some [tail]
  else if b = 0xE0 then some [(0xA0, 0xBF), tail]
  else if b = 0xED then some [(0x80, 0x9F), tail]
  else if b ≤ 0xEF then some [tail, tail]
  else if b = 0xF0 then some [(0x90, 0xBF), tail, tail]
  else if b ≤ 0xF3 then some [tail, tail, tail]
  else if b = 0xF4 then some [(0x80, 0x8F), tail, tail]
  else none

def InRange (r : Nat × Nat) (b : UInt8) : Prop := r.1 ≤ b.toNat ∧ b.toNat ≤ r.2

instance (r : Nat × Nat) (b : UInt8) : Decidable (InRange r b) :=
  inferInstanceAs (Decidable (_ ∧ _))

/-- How many bytes follow a row before one leaves it. -/
def matched : Trail → List UInt8 → Nat
  | r :: rs, b :: rest => if InRange r b then matched rs rest + 1 else 0
  | _, _ => 0

/-- U+FFFD. -/
def replacement : List UInt8 := [0xEF, 0xBF, 0xBD]

/-- Decoding with `errors="replace"`: a well-formed sequence is copied, a maximal ill-formed
    subpart becomes one U+FFFD. -/
def decodeReplace : List UInt8 → List UInt8
  | [] => []
  | lead :: rest =>
    match row lead with
    | none => replacement ++ decodeReplace rest
    | some rs =>
      if matched rs rest = rs.length then
        (lead :: rest.take rs.length) ++ decodeReplace (rest.drop rs.length)
      else replacement ++ decodeReplace (rest.drop (matched rs rest))
termination_by bytes => bytes.length
decreasing_by all_goals simp only [List.length_cons, List.length_drop]; omega

end Utf8
