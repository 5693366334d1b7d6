/-
  Binary floating-point formats by their bit patterns. A pattern without its sign is a natural number: the exponent
  field above the mantissa field. Patterns are ordered as the values they stand for, and the pattern of infinity stands
  where the next power of two would, which is what decides when rounding overflows.

  `Nearest x k` says that pattern `k` is the value nearest to `x`, ties going to the even pattern. `nearest_of_between`
  reads it off the two patterns around `x`.
-/
import Mathlib.Algebra.Order.Group.Abs
import Mathlib.Algebra.Order.Ring.Int
import Mathlib.Tactic.Ring
import Mathlib.Algebra.Ring.Int.Defs
import Mathlib.Algebra.Ring.Nat

/-- A format: the widths of its fields, and the value of the least positive pattern in a unit that formats share. -/
structure FloatFormat where
  mantissaBits : Nat
  exponentBits : Nat
  unit : Nat
  unit_pos : 0 < unit

namespace FloatFormat

variable (f : FloatFormat)

/-- The pattern of infinity: the largest exponent, no mantissa. -/
def infinity : Nat := (2 ^ f.exponentBits - 1) * 2 ^ f.mantissaBits

/-- What lies above infinity stands for no number. -/
def IsNaN (n : Nat) : Prop := f.infinity < n

instance (n : Nat) : Decidable (f.IsNaN n) := inferInstanceAs (Decidable (_ < _))

/-- The pattern without its sign. -/
def magnitude (bits : Nat) : Nat := bits % 2 ^ (f.exponentBits + f.mantissaBits)

/-- The sign. -/
def sign (bits : Nat) : Nat := bits / 2 ^ (f.exponentBits + f.mantissaBits)

/-- The value of a pattern in units of the least positive one: the mantissa as it stands for exponent zero, with the
    implicit bit and shifted by the exponent otherwise. -/
def scaled (n : Nat) : Nat :=
  if n / 2 ^ f.mantissaBits = 0 then n
  else (2 ^ f.mantissaBits + n % 2 ^ f.mantissaBits) * 2 ^ (n / 2 ^ f.mantissaBits - 1)

/-- The value of a pattern. -/
def value (n : Nat) : Nat := f.scaled n * f.unit

theorem scaled_succ (n : Nat) : f.scaled (n + 1) = f.scaled n + 2 ^ (n / 2 ^ f.mantissaBits - 1) := by
  have hpos : 0 < 2 ^ f.mantissaBits := Nat.two_pow_pos _
  have hn := Nat.div_add_mod n (2 ^ f.mantissaBits)
  have hr := Nat.mod_lt n hpos
  unfold scaled
  generalize 2 ^ f.mantissaBits = w at hpos hn hr ⊢
  generalize hq : n / w = q at hn ⊢
  generalize hm : n % w = r at hn hr ⊢
  by_cases hcarry : r + 1 < w
  · have hdiv : (n + 1) / w = q := by
      rw [← hn, Nat.add_assoc, Nat.mul_add_div hpos, Nat.div_eq_of_lt hcarry, Nat.add_zero]
    have hmod : (n + 1) % w = r + 1 := by
      rw [← hn, Nat.add_assoc, Nat.mul_add_mod, Nat.mod_eq_of_lt hcarry]
    rw [hdiv, hmod]
    split
    · next hzero => simp [hzero]
    · ring
  -- the mantissa is full: the exponent takes the carry
  · have hw : w = r + 1 := by omega
    have hnext : n + 1 = w * (q + 1) := by
      rw [← hn, Nat.mul_succ]
      omega
    rw [hnext, Nat.mul_div_cancel_left _ hpos, Nat.mul_mod_right, if_neg (Nat.succ_ne_zero q)]
    cases q with
    | zero =>
      simp
      omega
    | succ q =>
      simp only [Nat.add_sub_cancel, if_neg (Nat.succ_ne_zero q), pow_succ]
      rw [hw]
      ring

theorem value_succ (n : Nat) : f.value (n + 1) = f.value n + 2 ^ (n / 2 ^ f.mantissaBits - 1) * f.unit := by
  unfold value
  rw [scaled_succ, Nat.add_mul]

theorem value_strictMono : StrictMono f.value := by
  refine strictMono_nat_of_lt_succ fun n => ?_
  rw [value_succ]
  exact Nat.lt_add_of_pos_right (Nat.mul_pos (Nat.two_pow_pos _) f.unit_pos)

/-- Round half to even after a shift. -/
def roundShift (shift x : Nat) : Nat :=
  if 2 ^ (shift - 1) < x % 2 ^ shift ∨ x % 2 ^ shift = 2 ^ (shift - 1) ∧ x / 2 ^ shift % 2 = 1 then x / 2 ^ shift + 1
  else x / 2 ^ shift

/-- The pattern is the value nearest to `x`, and the even one of two that are equally near. -/
structure Nearest (x k : Nat) : Prop where
  le : k ≤ f.infinity
  closest : ∀ j ≤ f.infinity, |(x : Int) - f.value k| ≤ |(x : Int) - f.value j|
  even : ∀ j ≤ f.infinity, j ≠ k → |(x : Int) - f.value j| = |(x : Int) - f.value k| → k % 2 = 0

variable {f} {x k : Nat}

theorem nearest_of_between (hk : k < f.infinity) (hlow : f.value k ≤ x) (hhigh : x ≤ f.value (k + 1)) :
    f.Nearest x (if f.value k + f.value (k + 1) < 2 * x ∨ f.value k + f.value (k + 1) = 2 * x ∧ k % 2 = 1 then k + 1
      else k) := by
  have hbelow : ∀ j, j ≤ k → f.value j ≤ f.value k := fun j hj => f.value_strictMono.monotone hj
  have habove : ∀ j, k + 1 ≤ j → f.value (k + 1) ≤ f.value j := fun j hj => f.value_strictMono.monotone hj
  have hstrict : ∀ j, j < k → f.value j < f.value k := fun j hj => f.value_strictMono hj
  have hstrict' : ∀ j, k + 1 < j → f.value (k + 1) < f.value j := fun j hj => f.value_strictMono hj
  split
  · next hup =>
    refine ⟨hk, fun j _ => ?_, fun j _ hne heq => ?_⟩
    · rcases Nat.lt_or_ge k j with hj | hj
      · have := habove j hj
        rw [abs_of_nonpos (by omega), abs_of_nonpos (by omega)]
        omega
      · have := hbelow j hj
        rw [abs_of_nonpos (by omega), abs_of_nonneg (by omega)]
        omega
    · rcases Nat.lt_trichotomy j k with hj | hj | hj
      · have := hstrict j hj
        rw [abs_of_nonneg (by omega), abs_of_nonpos (by omega)] at heq
        omega
      · subst hj
        rw [abs_of_nonneg (by omega), abs_of_nonpos (by omega)] at heq
        omega
      · have := hstrict' j (by omega)
        rw [abs_of_nonpos (by omega), abs_of_nonpos (by omega)] at heq
        omega
  next hdown =>
  refine ⟨Nat.le_of_lt hk, fun j _ => ?_, fun j _ hne heq => ?_⟩
  · rcases Nat.lt_or_ge k j with hj | hj
    · have := habove j hj
      rw [abs_of_nonneg (by omega), abs_of_nonpos (by omega)]
      omega
    · have := hbelow j hj
      rw [abs_of_nonneg (by omega), abs_of_nonneg (by omega)]
      omega
  · rcases Nat.lt_or_ge k j with hj | hj
    · have := habove j hj
      rw [abs_of_nonpos (by omega), abs_of_nonneg (by omega)] at heq
      omega
    · have := hstrict j (by omega)
      rw [abs_of_nonneg (by omega), abs_of_nonneg (by omega)] at heq
      omega

theorem nearest_of_parts {r shift u : Nat} (hk : k < f.infinity) (hshift : 0 < shift) (hu : 0 < u) (hr : r < 2 ^ shift)
    (hstep : f.value (k + 1) = f.value k + 2 ^ shift * u) :
    f.Nearest (f.value k + r * u) (if 2 ^ (shift - 1) < r ∨ r = 2 ^ (shift - 1) ∧ k % 2 = 1 then k + 1 else k) := by
  have hhalf : 2 ^ shift = 2 ^ (shift - 1) + 2 ^ (shift - 1) := by
    rw [← Nat.two_mul, ← Nat.pow_succ', Nat.succ_eq_add_one, Nat.sub_add_cancel hshift]
  have hbelow : r * u ≤ 2 ^ shift * u := Nat.mul_le_mul_right u (Nat.le_of_lt hr)
  have hscaled : 2 ^ (shift - 1) * u < r * u ↔ 2 ^ (shift - 1) < r := Nat.mul_lt_mul_right hu
  have hscaled' : r * u = 2 ^ (shift - 1) * u ↔ r = 2 ^ (shift - 1) := Nat.mul_left_inj (Nat.ne_of_gt hu)
  have hlt : f.value k + f.value (k + 1) < 2 * (f.value k + r * u) ↔ 2 ^ (shift - 1) < r := by
    rw [hstep, hhalf, Nat.add_mul, ← hscaled]
    omega
  have heq : f.value k + f.value (k + 1) = 2 * (f.value k + r * u) ↔ r = 2 ^ (shift - 1) := by
    rw [hstep, hhalf, Nat.add_mul, ← hscaled']
    omega
  have hnear := nearest_of_between (x := f.value k + r * u) hk (Nat.le_add_right _ _) (by omega)
  simp only [hlt, heq] at hnear
  exact hnear

theorem nearest_infinity (h : f.value f.infinity ≤ x) : f.Nearest x f.infinity := by
  refine ⟨le_rfl, fun j hj => ?_, fun j hj hne heq => ?_⟩
  · have := f.value_strictMono.monotone hj
    rw [abs_of_nonneg (by omega), abs_of_nonneg (by omega)]
    omega
  · have := f.value_strictMono (Nat.lt_of_le_of_ne hj hne)
    rw [abs_of_nonneg (by omega), abs_of_nonneg (by omega)] at heq
    omega

theorem Nearest.eq_of_value {j : Nat} (h : f.Nearest (f.value j) k) (hj : j ≤ f.infinity) : k = j := by
  have hclosest := h.closest j hj
  rw [sub_self, abs_zero] at hclosest
  have hzero := abs_nonpos_iff.mp hclosest
  exact (f.value_strictMono.injective (by omega)).symm

end FloatFormat
