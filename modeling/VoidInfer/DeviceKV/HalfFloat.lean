import Mathlib.Data.Nat.Bitwise
import VoidInfer.Lib.FloatFormat
import Mathlib.Algebra.Ring.Int.Defs
import Mathlib.Algebra.Ring.Nat

/-
  The conversions between 32-bit and 16-bit floats of the paged KV cache (`src/core/paged_kv_cache.cpp`), on bit
  patterns: naturals below 2^32 and 2^16.

  `float_to_fp16_bits` rounds every pattern as it should, and `fp16_bits_to_float` is exact. `float_to_bf16_bits` adds
  its bias to NaNs too: those with a small payload become an infinity and those with the largest ones a zero
  (`float_conversions_iff`).
-/

namespace VoidInfer.DeviceKV

open FloatFormat

/-! ## Conversions -/

/-- `float_to_fp16_bits` for exponents below the normal ones. -/
def subnormalFp16Bits (sign mantissa : Nat) (halfExponent : Int) : Nat :=
  if halfExponent < -10 then sign
  else
    let mantissa := mantissa ||| 0x800000
    let shift := (14 - halfExponent).toNat
    let halfMantissa := mantissa >>> shift
    let remainder := mantissa &&& (1 <<< shift - 1)
    let halfway := 1 <<< (shift - 1)
    if remainder > halfway ∨ remainder = halfway ∧ halfMantissa &&& 1 ≠ 0 then sign ||| (halfMantissa + 1)
    else sign ||| halfMantissa

def floatToFp16Bits (bits : Nat) : Nat :=
  let sign := (bits >>> 16) &&& 0x8000
  let exponent := (bits >>> 23) &&& 0xff
  let mantissa := bits &&& 0x7fffff
  if exponent = 0xff then
    if mantissa = 0 then sign ||| 0x7c00
    else
      let mantissa := mantissa >>> 13
      sign ||| 0x7c00 ||| (if mantissa = 0 then 1 else mantissa)
  else
    let halfExponent : Int := (exponent : Int) - 127 + 15
    if halfExponent ≤ 0 then subnormalFp16Bits sign mantissa halfExponent
    else if halfExponent ≥ 31 then sign ||| 0x7c00
    else
      let halfMantissa := mantissa >>> 13
      let remainder := mantissa &&& 0x1fff
      if remainder > 0x1000 ∨ remainder = 0x1000 ∧ halfMantissa &&& 1 ≠ 0 then
        if halfMantissa + 1 = 0x400 then
          if halfExponent + 1 ≥ 31 then sign ||| 0x7c00
          else sign ||| (halfExponent + 1).toNat <<< 10 ||| 0
        else sign ||| halfExponent.toNat <<< 10 ||| (halfMantissa + 1)
      else sign ||| halfExponent.toNat <<< 10 ||| halfMantissa

/-- The loop of `fp16_bits_to_float`: shifts until the implicit bit is set. Ten rounds are enough for a mantissa that is
    not zero. -/
def normalizeMantissa : Nat → Nat → Int → Nat × Int
  | 0, mantissa, unbiased => (mantissa, unbiased)
  | rounds + 1, mantissa, unbiased =>
    if mantissa &&& 0x400 = 0 then normalizeMantissa rounds (mantissa <<< 1) (unbiased - 1)
    else (mantissa, unbiased)

/-- `fp16_bits_to_float`; the difference of exponents wraps. -/
def fp16BitsToFloat (value : Nat) : Nat :=
  let sign := (value &&& 0x8000) <<< 16
  let exponent := (value >>> 10) &&& 0x1f
  let mantissa := value &&& 0x3ff
  if exponent = 0 then
    if mantissa = 0 then sign
    else
      let (mantissa, unbiased) := normalizeMantissa 10 mantissa (-14)
      sign ||| (unbiased + 127).toNat <<< 23 ||| (mantissa &&& 0x3ff) <<< 13
  else if exponent = 0x1f then sign ||| 0xff <<< 23 ||| mantissa <<< 13
  else sign ||| (((exponent + (2 ^ 32 - 15)) % 2 ^ 32 + 127) % 2 ^ 32) <<< 23 ||| mantissa <<< 13

/-- `float_to_bf16_bits`; the sum wraps. -/
def floatToBf16Bits (bits : Nat) : Nat :=
  let bias := 0x7fff + ((bits >>> 16) &&& 1)
  ((bits + bias) % 2 ^ 32) >>> 16

/-! ## Fields -/

theorem and_bit (n i : Nat) : n &&& 2 ^ i = 2 ^ i * (n / 2 ^ i % 2) := by
  rw [Nat.and_two_pow, Nat.testBit_eq_decide_div_mod_eq, Nat.mul_comm]
  have hbit := Nat.mod_two_eq_zero_or_one (n / 2 ^ i)
  rcases hbit with h | h <;> simp [h]

theorem or_low {b i : Nat} (h : b < 2 ^ i) (a : Nat) : 2 ^ i * a ||| b = 2 ^ i * a + b :=
  (Nat.two_pow_add_eq_or_of_lt h a).symm

/-- What `float_to_fp16_bits` makes of a pattern without its sign. -/
def fp16Magnitude (n : Nat) : Nat :=
  let exponent := n / 2 ^ 23
  let mantissa := n % 2 ^ 23
  if exponent = 255 then
    if mantissa = 0 then 0x7c00 else 0x7c00 + if mantissa / 2 ^ 13 = 0 then 1 else mantissa / 2 ^ 13
  else if exponent < 102 then 0
  else if exponent ≤ 112 then roundShift (126 - exponent) (2 ^ 23 + mantissa)
  else if 143 ≤ exponent then 0x7c00
  else roundShift 13 ((exponent - 112) * 2 ^ 23 + mantissa)

variable {e m s bits n g : Nat}

theorem subnormal_quotient_lt (hm : m < 2 ^ 23) (hhigh : e ≤ 112) : (2 ^ 23 + m) / 2 ^ (126 - e) < 2 ^ 10 := by
  refine Nat.div_lt_of_lt_mul ?_
  have hpow : 2 ^ 14 ≤ 2 ^ (126 - e) := Nat.pow_le_pow_right (by decide) (by omega)
  omega

theorem subnormalFp16Bits_eq (hm : m < 2 ^ 23) (he : e ≤ 112) :
    subnormalFp16Bits (2 ^ 15 * s) m ((e : Int) - 127 + 15) =
      2 ^ 15 * s + if e < 102 then 0 else roundShift (126 - e) (2 ^ 23 + m) := by
  unfold subnormalFp16Bits
  by_cases htiny : e < 102
  · rw [if_pos (by omega), if_pos htiny, Nat.add_zero]
  rw [if_neg (by omega), if_neg htiny]
  have hshift : (14 - ((e : Int) - 127 + 15)).toNat = 126 - e := by omega
  have himplicit : m ||| 0x800000 = 2 ^ 23 + m := by
    rw [Nat.or_comm]
    exact (or_low hm 1).trans (by omega)
  have hquot := subnormal_quotient_lt hm (show e ≤ 112 by omega)
  simp only [hshift, himplicit, Nat.shiftLeft_eq, Nat.one_mul, Nat.and_two_pow_sub_one_eq_mod,
    Nat.shiftRight_eq_div_pow, Nat.and_one_is_mod, roundShift, gt_iff_lt]
  have hodd : (2 ^ 23 + m) / 2 ^ (126 - e) % 2 ≠ 0 ↔ (2 ^ 23 + m) / 2 ^ (126 - e) % 2 = 1 := by omega
  simp only [hodd]
  split
  · exact or_low (by omega) s
  · exact or_low (by omega) s

theorem normalFp16Bits_eq (hm : m < 2 ^ 23) (hlow : 112 < e) (hhigh : e < 143) :
    (if m &&& 0x1fff > 0x1000 ∨ m &&& 0x1fff = 0x1000 ∧ m / 2 ^ 13 &&& 1 ≠ 0 then
      if m / 2 ^ 13 + 1 = 0x400 then
        if (e : Int) - 127 + 15 + 1 ≥ 31 then 2 ^ 15 * s ||| 0x7c00
        else 2 ^ 15 * s ||| ((e : Int) - 127 + 15 + 1).toNat * 2 ^ 10 ||| 0
      else 2 ^ 15 * s ||| ((e : Int) - 127 + 15).toNat * 2 ^ 10 ||| (m / 2 ^ 13 + 1)
    else 2 ^ 15 * s ||| ((e : Int) - 127 + 15).toNat * 2 ^ 10 ||| m / 2 ^ 13) =
      2 ^ 15 * s + roundShift 13 ((e - 112) * 2 ^ 23 + m) := by
  have hfields : ∀ exponent mantissa, exponent < 32 → mantissa < 2 ^ 10 →
      2 ^ 15 * s ||| exponent * 2 ^ 10 ||| mantissa = 2 ^ 15 * s + (exponent * 2 ^ 10 + mantissa) := by
    intro exponent mantissa hexponent hmantissa
    have hsum : 2 ^ 15 * s + exponent * 2 ^ 10 = 2 ^ 10 * (2 ^ 5 * s + exponent) := by omega
    rw [or_low (show exponent * 2 ^ 10 < 2 ^ 15 by omega), hsum, or_low hmantissa]
    omega
  have hremainder : m &&& 0x1fff = m % 2 ^ 13 := Nat.and_two_pow_sub_one_eq_mod m 13
  have hmod : ((e - 112) * 2 ^ 23 + m) % 2 ^ 13 = m % 2 ^ 13 := by omega
  have hdiv : ((e - 112) * 2 ^ 23 + m) / 2 ^ 13 = (e - 112) * 2 ^ 10 + m / 2 ^ 13 := by omega
  have hodd : m / 2 ^ 13 &&& 1 ≠ 0 ↔ ((e - 112) * 2 ^ 10 + m / 2 ^ 13) % 2 = 1 := by
    rw [Nat.and_one_is_mod]
    omega
  have hexponent : ((e : Int) - 127 + 15).toNat = e - 112 := by omega
  have hnext : ((e : Int) - 127 + 15 + 1).toNat = e - 112 + 1 := by omega
  have hhalfway : (2 : Nat) ^ (13 - 1) = 0x1000 := rfl
  simp only [hremainder, roundShift, hmod, hdiv, hodd, hexponent, hnext, gt_iff_lt, hhalfway]
  by_cases hup : 0x1000 < m % 2 ^ 13 ∨ m % 2 ^ 13 = 0x1000 ∧ ((e - 112) * 2 ^ 10 + m / 2 ^ 13) % 2 = 1
  · rw [if_pos hup, if_pos hup]
    split
    · split
      · rw [or_low (by decide)]
        omega
      · rw [hfields _ _ (by omega) (by decide)]
        omega
    rw [hfields _ _ (by omega) (by omega)]
    omega
  rw [if_neg hup, if_neg hup]
  exact hfields _ _ (by omega) (by omega)

theorem floatToFp16Bits_eq (hbits : bits < 2 ^ 32) :
    floatToFp16Bits bits = 2 ^ 15 * (bits / 2 ^ 31) + fp16Magnitude (bits % 2 ^ 31) := by
  have hsign : (bits >>> 16) &&& 0x8000 = 2 ^ 15 * (bits / 2 ^ 31) := by
    refine (and_bit _ 15).trans ?_
    omega
  have hexponent : (bits >>> 23) &&& 0xff = bits % 2 ^ 31 / 2 ^ 23 := by
    refine (Nat.and_two_pow_sub_one_eq_mod _ 8).trans ?_
    omega
  have hmantissa : bits &&& 0x7fffff = bits % 2 ^ 31 % 2 ^ 23 := by
    refine (Nat.and_two_pow_sub_one_eq_mod _ 23).trans ?_
    omega
  have hm : bits % 2 ^ 31 % 2 ^ 23 < 2 ^ 23 := Nat.mod_lt _ (by decide)
  simp only [floatToFp16Bits, fp16Magnitude, hsign, hexponent, hmantissa]
  generalize bits / 2 ^ 31 = s
  generalize bits % 2 ^ 31 / 2 ^ 23 = e
  generalize bits % 2 ^ 31 % 2 ^ 23 = m at hm
  simp only [Nat.shiftRight_eq_div_pow, Nat.shiftLeft_eq]
  by_cases hspecial : e = 255
  · rw [if_pos hspecial, if_pos hspecial]
    by_cases hzero : m = 0
    · rw [if_pos hzero, if_pos hzero]
      exact or_low (by decide) s
    rw [if_neg hzero, if_neg hzero, or_low (by decide) s]
    have hpayload : (if m / 2 ^ 13 = 0 then 1 else m / 2 ^ 13) < 2 ^ 10 := by
      split <;> omega
    have hfactor : 2 ^ 15 * s + 31744 = 2 ^ 10 * (2 ^ 5 * s + 31) := by omega
    rw [hfactor, or_low hpayload]
    omega
  rw [if_neg hspecial, if_neg hspecial]
  by_cases hsmall : e ≤ 112
  · rw [if_pos (by omega), subnormalFp16Bits_eq hm hsmall]
    simp only [if_pos hsmall]
  rw [if_neg (show ¬ (e : Int) - 127 + 15 ≤ 0 by omega), if_neg (show ¬ e < 102 by omega), if_neg hsmall]
  by_cases hlarge : 143 ≤ e
  · rw [if_pos (show (e : Int) - 127 + 15 ≥ 31 by omega), if_pos hlarge]
    exact or_low (by decide) s
  rw [if_neg (show ¬ (e : Int) - 127 + 15 ≥ 31 by omega), if_neg hlarge]
  exact normalFp16Bits_eq hm (by omega) (by omega)

theorem floatToBf16Bits_eq (hbits : bits < 2 ^ 32) :
    floatToBf16Bits bits = (2 ^ 15 * (bits / 2 ^ 31) + roundShift 16 (bits % 2 ^ 31)) % 2 ^ 16 := by
  have hhalfway : (2 : Nat) ^ (16 - 1) = 0x8000 := rfl
  have hsum : bits = 65536 * (32768 * (bits / 2 ^ 31) + bits % 2 ^ 31 / 2 ^ 16) + bits % 2 ^ 31 % 2 ^ 16 := by omega
  have hfield : bits / 2 ^ 16 = 32768 * (bits / 2 ^ 31) + bits % 2 ^ 31 / 2 ^ 16 := by omega
  have hr : bits % 2 ^ 31 % 2 ^ 16 < 65536 := Nat.mod_lt _ (by decide)
  simp only [floatToBf16Bits, roundShift, Nat.shiftRight_eq_div_pow, Nat.and_one_is_mod, hhalfway, hfield]
  generalize bits / 2 ^ 31 = s at hsum
  generalize bits % 2 ^ 31 / 2 ^ 16 = k at hsum
  generalize bits % 2 ^ 31 % 2 ^ 16 = r at hsum hr
  subst hsum
  -- the bias carries into the upper half exactly when the lower half rounds up
  split
  · next hup =>
    have hcarry : (65536 * (32768 * s + k) + r + (0x7fff + (32768 * s + k) % 2)) / 65536 = 32768 * s + k + 1 := by omega
    omega
  next hdown =>
  have hcarry : (65536 * (32768 * s + k) + r + (0x7fff + (32768 * s + k) % 2)) / 65536 = 32768 * s + k := by omega
  omega

/-! ## Rounding -/

/-- Single precision; values are in units of its least positive one, 2^-149. -/
def single : FloatFormat := ⟨23, 8, 1, by decide⟩

/-- Half precision: the least positive value is 2^-24. -/
def half : FloatFormat := ⟨10, 5, 2 ^ 125, by decide⟩

/-- The upper half of single precision: the least positive value is 2^-133. -/
def bfloat : FloatFormat := ⟨7, 8, 2 ^ 16, by decide⟩

theorem single_value : single.value n =
    if n / 2 ^ 23 = 0 then n else (2 ^ 23 + n % 2 ^ 23) * 2 ^ (n / 2 ^ 23 - 1) := by
  exact Nat.mul_one _

theorem single_value_normal (h : n / 2 ^ 23 ≠ 0) : single.value n = (2 ^ 23 + n % 2 ^ 23) * 2 ^ (n / 2 ^ 23 - 1) := by
  rw [single_value, if_neg h]

variable {k exponent mantissa h : Nat}

theorem half_value_small (h : k < 2 ^ 10) : half.value k = k * 2 ^ 125 := by
  simp only [value, scaled, half, Nat.div_eq_of_lt h, if_true]

theorem half_value_normal (h : k / 2 ^ 10 ≠ 0) :
    half.value k = (2 ^ 10 + k % 2 ^ 10) * 2 ^ (k / 2 ^ 10 - 1) * 2 ^ 125 := by
  show (if k / 2 ^ 10 = 0 then k else (2 ^ 10 + k % 2 ^ 10) * 2 ^ (k / 2 ^ 10 - 1)) * 2 ^ 125 = _
  rw [if_neg h]

theorem fp16Magnitude_tiny (h : n / 2 ^ 23 < 102) : half.Nearest (single.value n) 0 := by
  have hbound : single.value n < single.value (102 * 2 ^ 23) := single.value_strictMono (by omega)
  have hpower : single.value (102 * 2 ^ 23) = 2 ^ 124 := by
    rfl
  have hzero : half.value 0 = 0 := half_value_small (by decide)
  have hone : half.value (0 + 1) = 2 ^ 125 := half_value_small (by decide)
  have hnear := nearest_of_between (f := half) (x := single.value n) (k := 0) (by decide) (by omega) (by omega)
  rwa [if_neg (by omega)] at hnear

theorem fp16Magnitude_subnormal (hlow : 102 ≤ n / 2 ^ 23) (hhigh : n / 2 ^ 23 ≤ 112) :
    half.Nearest (single.value n) (roundShift (126 - n / 2 ^ 23) (2 ^ 23 + n % 2 ^ 23)) := by
  rw [single_value_normal (by omega)]
  have hm : n % 2 ^ 23 < 2 ^ 23 := Nat.mod_lt _ (by decide)
  generalize n / 2 ^ 23 = e at hlow hhigh
  generalize n % 2 ^ 23 = m at hm
  have hquot := subnormal_quotient_lt hm hhigh
  have hunit : 2 ^ (126 - e) * 2 ^ (e - 1) = 2 ^ 125 := by
    rw [← Nat.pow_add]
    congr 1
    omega
  have hstep : half.value ((2 ^ 23 + m) / 2 ^ (126 - e) + 1) =
      half.value ((2 ^ 23 + m) / 2 ^ (126 - e)) + 2 ^ (126 - e) * 2 ^ (e - 1) := by
    rw [value_succ, hunit]
    simp only [half, Nat.div_eq_of_lt hquot]
    norm_num
  have hnear := nearest_of_parts (f := half) (k := (2 ^ 23 + m) / 2 ^ (126 - e)) (r := (2 ^ 23 + m) % 2 ^ (126 - e))
    (u := 2 ^ (e - 1)) (Nat.lt_of_lt_of_le hquot (by decide)) (by omega) (Nat.two_pow_pos _)
    (Nat.mod_lt _ (Nat.two_pow_pos _)) hstep
  rw [half_value_small hquot, ← hunit, ← Nat.mul_assoc, ← Nat.add_mul, Nat.mul_comm _ (2 ^ (126 - e)),
    Nat.div_add_mod] at hnear
  exact hnear

theorem fp16Magnitude_normal (hlow : 112 < n / 2 ^ 23) (hhigh : n / 2 ^ 23 < 143) :
    half.Nearest (single.value n) (roundShift 13 ((n / 2 ^ 23 - 112) * 2 ^ 23 + n % 2 ^ 23)) := by
  rw [single_value_normal (by omega)]
  have hm : n % 2 ^ 23 < 2 ^ 23 := Nat.mod_lt _ (by decide)
  generalize n / 2 ^ 23 = e at hlow hhigh
  generalize n % 2 ^ 23 = m at hm
  have hmod : ((e - 112) * 2 ^ 23 + m) % 2 ^ 13 = m % 2 ^ 13 := by omega
  have hdiv : ((e - 112) * 2 ^ 23 + m) / 2 ^ 13 = (e - 112) * 2 ^ 10 + m / 2 ^ 13 := by omega
  have hquot : m / 2 ^ 13 < 2 ^ 10 := Nat.div_lt_of_lt_mul hm
  have hexponent : ((e - 112) * 2 ^ 10 + m / 2 ^ 13) / 2 ^ 10 = e - 112 := by
    rw [Nat.mul_comm, Nat.mul_add_div (by decide), Nat.div_eq_of_lt hquot, Nat.add_zero]
  have hmantissa : ((e - 112) * 2 ^ 10 + m / 2 ^ 13) % 2 ^ 10 = m / 2 ^ 13 := by
    rw [Nat.mul_comm, Nat.mul_add_mod, Nat.mod_eq_of_lt hquot]
  have hunit : 2 ^ (e - 112 - 1) * 2 ^ 125 = 2 ^ 13 * 2 ^ (e - 1) := by
    rw [← Nat.pow_add, ← Nat.pow_add]
    congr 1
    omega
  have hvalue : half.value ((e - 112) * 2 ^ 10 + m / 2 ^ 13) = (2 ^ 10 + m / 2 ^ 13) * 2 ^ 13 * 2 ^ (e - 1) := by
    rw [half_value_normal (by omega), hexponent, hmantissa, Nat.mul_assoc, hunit, Nat.mul_assoc]
  have hstep : half.value ((e - 112) * 2 ^ 10 + m / 2 ^ 13 + 1) =
      half.value ((e - 112) * 2 ^ 10 + m / 2 ^ 13) + 2 ^ 13 * 2 ^ (e - 1) := by
    rw [value_succ, ← hunit]
    simp only [half, hexponent]
  have hinfinity : half.infinity = 31744 := rfl
  have hnear := nearest_of_parts (f := half) (k := (e - 112) * 2 ^ 10 + m / 2 ^ 13) (r := m % 2 ^ 13)
    (u := 2 ^ (e - 1)) (by omega) (by decide) (Nat.two_pow_pos _) (Nat.mod_lt _ (by decide)) hstep
  have hsum : (2 ^ 10 + m / 2 ^ 13) * 2 ^ 13 + m % 2 ^ 13 = 2 ^ 23 + m := by
    rw [Nat.add_mul, Nat.add_assoc, Nat.div_add_mod', ← Nat.pow_add]
  rw [hvalue, ← Nat.add_mul, hsum] at hnear
  unfold roundShift
  rw [hmod, hdiv]
  exact hnear

theorem half_infinity_value : half.value half.infinity = 2 ^ 165 := by
  have hinfinity : half.infinity = 31 * 2 ^ 10 := rfl
  rfl

theorem fp16Magnitude_nearest (h : n < single.infinity) : half.Nearest (single.value n) (fp16Magnitude n) := by
  have hinfinity : single.infinity = 255 * 2 ^ 23 := rfl
  simp only [fp16Magnitude, if_neg (show ¬ n / 2 ^ 23 = 255 by omega)]
  split
  · next htiny => exact fp16Magnitude_tiny htiny
  split
  · next hlow hhigh => exact fp16Magnitude_subnormal (by omega) hhigh
  split
  · next hlarge =>
    refine nearest_infinity ?_
    have hmono : single.value (143 * 2 ^ 23) ≤ single.value n := single.value_strictMono.monotone (by omega)
    have hpower : single.value (143 * 2 ^ 23) = 2 ^ 165 := by
      rfl
    rw [half_infinity_value]
    omega
  · exact fp16Magnitude_normal (by omega) (by omega)

theorem bf16_nearest (h : n < single.infinity) : bfloat.Nearest (single.value n) (roundShift 16 n) := by
  have hinfinity : single.infinity = 255 * 2 ^ 23 := rfl
  have hbinfinity : bfloat.infinity = 255 * 2 ^ 7 := rfl
  have hexponent : n / 2 ^ 16 / 2 ^ 7 = n / 2 ^ 23 := by omega
  have hmantissa : n / 2 ^ 16 % 2 ^ 7 = n % 2 ^ 23 / 2 ^ 16 := by omega
  have hvalue : single.value n = bfloat.value (n / 2 ^ 16) + n % 2 ^ 16 * 2 ^ (n / 2 ^ 23 - 1) := by
    rw [single_value]
    simp only [value, scaled, bfloat, hexponent, hmantissa]
    split
    · next hzero =>
      rw [hzero]
      omega
    have hsum : 2 ^ 23 + n % 2 ^ 23 = (2 ^ 7 + n % 2 ^ 23 / 2 ^ 16) * 2 ^ 16 + n % 2 ^ 16 := by omega
    rw [hsum]
    ring
  have hstep : bfloat.value (n / 2 ^ 16 + 1) = bfloat.value (n / 2 ^ 16) + 2 ^ 16 * 2 ^ (n / 2 ^ 23 - 1) := by
    rw [value_succ]
    simp only [bfloat, hexponent]
    rw [Nat.mul_comm _]
  rw [hvalue]
  exact nearest_of_parts (by omega) (by decide) (Nat.two_pow_pos _) (Nat.mod_lt _ (by decide)) hstep

/-! ## Back to single precision -/

theorem normalizeMantissa_spec (rounds : Nat) : ∀ mantissa unbiased, mantissa < 2 ^ 11 →
    2 ^ 10 ≤ mantissa * 2 ^ rounds → ∃ c ≤ rounds, normalizeMantissa rounds mantissa unbiased =
      (mantissa * 2 ^ c, unbiased - c) ∧ 2 ^ 10 ≤ mantissa * 2 ^ c ∧ mantissa * 2 ^ c < 2 ^ 11 := by
  induction rounds with
  | zero =>
    intro mantissa unbiased hlt hge
    exact ⟨0, le_rfl, by simp [normalizeMantissa], hge, by simpa using hlt⟩
  | succ rounds ih =>
    intro mantissa unbiased hlt hge
    have hbit : mantissa &&& 0x400 = 2 ^ 10 * (mantissa / 2 ^ 10 % 2) := and_bit mantissa 10
    unfold normalizeMantissa
    rw [hbit, Nat.shiftLeft_eq]
    by_cases hsmall : mantissa < 2 ^ 10
    · rw [if_pos (by omega)]
      have hshifted : 2 ^ 10 ≤ mantissa * 2 ^ 1 * 2 ^ rounds := by
        rw [Nat.mul_assoc, ← Nat.pow_add, Nat.add_comm 1]
        exact hge
      obtain ⟨c, hc, heq, hlow, hhigh⟩ := ih _ _ (by omega) hshifted
      have hpow : mantissa * 2 ^ 1 * 2 ^ c = mantissa * 2 ^ (c + 1) := by
        rw [Nat.mul_assoc, ← Nat.pow_add, Nat.add_comm 1]
      rw [hpow] at heq hlow hhigh
      refine ⟨c + 1, by omega, ?_, hlow, hhigh⟩
      rw [heq, Nat.cast_succ]
      congr 1
      omega
    rw [if_neg (by omega)]
    exact ⟨0, Nat.zero_le _, by simp, by omega, by omega⟩

/-- What `fp16_bits_to_float` makes of a pattern without its sign. -/
def floatMagnitude (g : Nat) : Nat :=
  if g / 2 ^ 10 = 0 then
    if g % 2 ^ 10 = 0 then 0
    else
      let normalized := normalizeMantissa 10 (g % 2 ^ 10) (-14)
      (normalized.2 + 127).toNat * 2 ^ 23 + normalized.1 % 2 ^ 10 * 2 ^ 13
  else if g / 2 ^ 10 = 31 then 255 * 2 ^ 23 + g % 2 ^ 10 * 2 ^ 13
  else (g / 2 ^ 10 + 112) * 2 ^ 23 + g % 2 ^ 10 * 2 ^ 13

theorem or_fields (he : exponent < 2 ^ 8) (hm : mantissa < 2 ^ 10) :
    2 ^ 31 * s ||| exponent * 2 ^ 23 ||| mantissa * 2 ^ 13 = 2 ^ 31 * s + (exponent * 2 ^ 23 + mantissa * 2 ^ 13) := by
  have hsum : 2 ^ 31 * s + exponent * 2 ^ 23 = 2 ^ 23 * (2 ^ 8 * s + exponent) := by omega
  rw [or_low (show exponent * 2 ^ 23 < 2 ^ 31 by omega), hsum, or_low (show mantissa * 2 ^ 13 < 2 ^ 23 by omega)]
  omega

theorem fp16BitsToFloat_eq (hh : h < 2 ^ 16) :
    fp16BitsToFloat h = 2 ^ 31 * (h / 2 ^ 15) + floatMagnitude (h % 2 ^ 15) := by
  have hsign : (h &&& 0x8000) <<< 16 = 2 ^ 31 * (h / 2 ^ 15) := by
    have hbit : h &&& 0x8000 = 2 ^ 15 * (h / 2 ^ 15 % 2) := and_bit h 15
    omega
  have hexponent : (h >>> 10) &&& 0x1f = h % 2 ^ 15 / 2 ^ 10 := by
    refine (Nat.and_two_pow_sub_one_eq_mod _ 5).trans ?_
    omega
  have hmantissa : h &&& 0x3ff = h % 2 ^ 15 % 2 ^ 10 := by
    refine (Nat.and_two_pow_sub_one_eq_mod _ 10).trans ?_
    omega
  have hlow : ∀ x, x &&& 0x3ff = x % 2 ^ 10 := fun x => Nat.and_two_pow_sub_one_eq_mod x 10
  have hm : h % 2 ^ 15 % 2 ^ 10 < 2 ^ 10 := Nat.mod_lt _ (by decide)
  have he : h % 2 ^ 15 / 2 ^ 10 < 32 := by omega
  simp only [fp16BitsToFloat, floatMagnitude, hsign, hexponent, hmantissa, Nat.shiftLeft_eq]
  generalize h % 2 ^ 15 / 2 ^ 10 = e at he
  generalize h % 2 ^ 15 % 2 ^ 10 = m at hm
  split
  · split
    · rfl
    · next hpos =>
      obtain ⟨c, hc, heq, _⟩ := normalizeMantissa_spec 10 m (-14) (by omega) (by omega)
      simp only [heq, hlow]
      exact or_fields (by omega) (Nat.mod_lt _ (by decide))
  split
  · exact or_fields (by decide) hm
  have hbias : ((e + (2 ^ 32 - 15)) % 2 ^ 32 + 127) % 2 ^ 32 = e + 112 := by omega
  rw [hbias]
  exact or_fields (by omega) hm

theorem single_value_fields (he : exponent ≠ 0) (hm : mantissa < 2 ^ 10) :
    single.value (exponent * 2 ^ 23 + mantissa * 2 ^ 13) = (2 ^ 10 + mantissa) * 2 ^ (exponent + 12) := by
  have hdiv : (exponent * 2 ^ 23 + mantissa * 2 ^ 13) / 2 ^ 23 = exponent := by omega
  have hmod : (exponent * 2 ^ 23 + mantissa * 2 ^ 13) % 2 ^ 23 = mantissa * 2 ^ 13 := by omega
  have hsum : 2 ^ 23 + mantissa * 2 ^ 13 = (2 ^ 10 + mantissa) * 2 ^ 13 := by omega
  rw [single_value_normal (by omega), hdiv, hmod, hsum, Nat.mul_assoc, ← Nat.pow_add]
  congr 2
  omega

theorem floatMagnitude_value (h : g < half.infinity) : single.value (floatMagnitude g) = half.value g := by
  have hinfinity : half.infinity = 31 * 2 ^ 10 := rfl
  have hm : g % 2 ^ 10 < 2 ^ 10 := Nat.mod_lt _ (by decide)
  unfold floatMagnitude
  by_cases hzero : g / 2 ^ 10 = 0
  · rw [if_pos hzero]
    have hg : g % 2 ^ 10 = g := by omega
    rw [hg, half_value_small (by omega)]
    split
    · next hg =>
      rw [hg, Nat.zero_mul]
      rfl
    next hpos =>
    obtain ⟨c, hc, heq, hlow, hhigh⟩ := normalizeMantissa_spec 10 g (-14) (by omega) (by omega)
    have hexponent : ((-14 : Int) - c + 127).toNat = 113 - c := by omega
    have hmantissa : 2 ^ 10 + g * 2 ^ c % 2 ^ 10 = g * 2 ^ c := by omega
    simp only [heq, hexponent]
    rw [single_value_fields (by omega) (Nat.mod_lt _ (by decide)), hmantissa, Nat.mul_assoc, ← Nat.pow_add]
    congr 2
    omega
  rw [if_neg hzero, if_neg (by omega), single_value_fields (by omega) hm, half_value_normal hzero, Nat.mul_assoc,
    ← Nat.pow_add]
  congr 2
  omega

theorem floatMagnitude_lt (h : g < half.infinity) : floatMagnitude g < single.infinity := by
  have hlt := half.value_strictMono h
  have hlarge : half.value half.infinity ≤ single.value single.infinity := by
    have hinfinity : single.infinity = 255 * 2 ^ 23 := rfl
    decide
  rw [← floatMagnitude_value h] at hlt
  exact single.value_strictMono.lt_iff_lt.mp (Nat.lt_of_lt_of_le hlt hlarge)

theorem fp16Magnitude_floatMagnitude (h : g ≤ half.infinity) : fp16Magnitude (floatMagnitude g) = g := by
  rcases Nat.lt_or_eq_of_le h with hfinite | rfl
  · have hnear := fp16Magnitude_nearest (floatMagnitude_lt hfinite)
    rw [floatMagnitude_value hfinite] at hnear
    exact hnear.eq_of_value h
  · rfl

/-! ## All patterns -/

/-- `out` is `bits` rounded to the format: a NaN is a NaN; otherwise the sign is kept, infinity is infinity, and a finite
    value is the nearest one. -/
def Rounds (f : FloatFormat) (bits out : Nat) : Prop :=
  if single.IsNaN (single.magnitude bits) then f.IsNaN (f.magnitude out)
  else f.sign out = single.sign bits ∧
    if single.magnitude bits = single.infinity then f.magnitude out = f.infinity
    else f.Nearest (single.value (single.magnitude bits)) (f.magnitude out)

/-- `out` is the single-precision pattern of the same number as `h`, and rounding it gives `h` back. -/
def Exact (h out : Nat) : Prop :=
  single.sign out = half.sign h ∧
    (if half.magnitude h = half.infinity then single.magnitude out = single.infinity
      else single.value (single.magnitude out) = half.value (half.magnitude h)) ∧
    floatToFp16Bits out = h

section Fields

variable {sign magnitude : Nat}

theorem half_magnitude (h : magnitude < 2 ^ 15) : half.magnitude (2 ^ 15 * sign + magnitude) = magnitude := by
  show (2 ^ 15 * sign + magnitude) % 2 ^ 15 = magnitude
  omega

theorem half_sign (h : magnitude < 2 ^ 15) : half.sign (2 ^ 15 * sign + magnitude) = sign := by
  show (2 ^ 15 * sign + magnitude) / 2 ^ 15 = sign
  omega

theorem single_magnitude (h : magnitude < 2 ^ 31) : single.magnitude (2 ^ 31 * sign + magnitude) = magnitude := by
  show (2 ^ 31 * sign + magnitude) % 2 ^ 31 = magnitude
  omega

theorem single_sign (h : magnitude < 2 ^ 31) : single.sign (2 ^ 31 * sign + magnitude) = sign := by
  show (2 ^ 31 * sign + magnitude) / 2 ^ 31 = sign
  omega

end Fields

theorem fp16Magnitude_infinity : fp16Magnitude single.infinity = half.infinity := rfl

theorem fp16Magnitude_nan (h : single.infinity < n) (hn : n < 2 ^ 31) :
    half.infinity < fp16Magnitude n ∧ fp16Magnitude n < 2 ^ 15 := by
  have hinfinity : single.infinity = 255 * 2 ^ 23 := rfl
  have hhalf : half.infinity = 31744 := rfl
  simp only [fp16Magnitude]
  rw [if_pos (by omega), if_neg (by omega)]
  split <;> omega

theorem floatToFp16Bits_rounds (hbits : bits < 2 ^ 32) : Rounds half bits (floatToFp16Bits bits) := by
  have hn : single.magnitude bits < 2 ^ 31 := Nat.mod_lt _ (by decide)
  have heq : floatToFp16Bits bits = 2 ^ 15 * single.sign bits + fp16Magnitude (single.magnitude bits) :=
    floatToFp16Bits_eq hbits
  have hinfinity : half.infinity < 2 ^ 15 := by decide
  rw [heq]
  unfold Rounds
  split
  · next hnan =>
    obtain ⟨hlow, hhigh⟩ := fp16Magnitude_nan hnan hn
    rw [half_magnitude hhigh]
    exact hlow
  next hnumber =>
  unfold IsNaN at hnumber
  split
  · next hinf =>
    rw [hinf, fp16Magnitude_infinity, half_sign hinfinity, half_magnitude hinfinity]
    exact ⟨rfl, rfl⟩
  next hfinite =>
  have hnear := fp16Magnitude_nearest (n := single.magnitude bits) (by omega)
  have hlt := Nat.lt_of_le_of_lt hnear.le hinfinity
  rw [half_sign hlt, half_magnitude hlt]
  exact ⟨rfl, hnear⟩

/-- The patterns that `float_to_bf16_bits` rounds: all but the NaNs whose payload the bias rounds away or carries out of
    the exponent. -/
def Bf16Safe (bits : Nat) : Prop :=
  ¬ (0x7f800000 < single.magnitude bits ∧ single.magnitude bits ≤ 0x7f808000) ∧ single.magnitude bits < 0x7fff8000

theorem floatToBf16Bits_rounds_iff (hbits : bits < 2 ^ 32) :
    Rounds bfloat bits (floatToBf16Bits bits) ↔ Bf16Safe bits := by
  have hn : single.magnitude bits < 2 ^ 31 := Nat.mod_lt _ (by decide)
  have hs : single.sign bits < 2 := Nat.div_lt_of_lt_mul hbits
  have hinfinity : single.infinity = 0x7f800000 := rfl
  have hbinfinity : bfloat.infinity = 0x7f80 := rfl
  have hmagnitude : ∀ out, bfloat.magnitude out = out % 2 ^ 15 := fun _ => rfl
  have hsign : ∀ out, bfloat.sign out = out / 2 ^ 15 := fun _ => rfl
  have hhalfway : (2 : Nat) ^ (16 - 1) = 0x8000 := rfl
  have heq : floatToBf16Bits bits = (2 ^ 15 * single.sign bits + roundShift 16 (single.magnitude bits)) % 2 ^ 16 :=
    floatToBf16Bits_eq hbits
  rw [heq]
  unfold Rounds Bf16Safe
  have hnear := bf16_nearest (n := single.magnitude bits)
  generalize single.magnitude bits = n at *
  generalize single.sign bits = s at *
  split
  · next hnan =>
    unfold IsNaN at hnan ⊢
    rw [hmagnitude, hbinfinity]
    simp only [roundShift, hhalfway]
    split <;> omega
  next hnumber =>
  unfold IsNaN at hnumber
  refine ⟨fun _ => by omega, fun _ => ?_⟩
  split
  · next hinf =>
    rw [hmagnitude, hsign, hinf, hinfinity, hbinfinity]
    have hround : roundShift 16 0x7f800000 = 0x7f80 := rfl
    omega
  next hfinite =>
  have hnear := hnear (by omega)
  have hle := hnear.le
  have hmod : (2 ^ 15 * s + roundShift 16 n) % 2 ^ 16 % 2 ^ 15 = roundShift 16 n := by omega
  rw [hmagnitude, hsign, hmod]
  exact ⟨by omega, hnear⟩

theorem fp16BitsToFloat_exact (hh : h < 2 ^ 16) (hnumber : ¬ half.IsNaN (half.magnitude h)) :
    Exact h (fp16BitsToFloat h) := by
  have hle : half.magnitude h ≤ half.infinity := by
    unfold IsNaN at hnumber
    omega
  have hsplit : h = 2 ^ 15 * half.sign h + half.magnitude h := (Nat.div_add_mod h _).symm
  have heq : fp16BitsToFloat h = 2 ^ 31 * half.sign h + floatMagnitude (half.magnitude h) := fp16BitsToFloat_eq hh
  have hlt : floatMagnitude (half.magnitude h) < 2 ^ 31 := by
    rcases Nat.lt_or_eq_of_le hle with hfinite | hinf
    · exact Nat.lt_of_lt_of_le (floatMagnitude_lt hfinite) (by decide)
    rw [hinf]
    decide
  rw [heq]
  refine ⟨single_sign hlt, ?_, ?_⟩
  · rw [single_magnitude hlt]
    split
    · next hinf =>
      rw [hinf]
      rfl
    · exact floatMagnitude_value (by omega)
  · rw [floatToFp16Bits_eq (by omega)]
    have hsign : (2 ^ 31 * half.sign h + floatMagnitude (half.magnitude h)) / 2 ^ 31 = half.sign h := single_sign hlt
    have hmagnitude : (2 ^ 31 * half.sign h + floatMagnitude (half.magnitude h)) % 2 ^ 31 =
        floatMagnitude (half.magnitude h) := single_magnitude hlt
    rw [hsign, hmagnitude, fp16Magnitude_floatMagnitude hle]
    exact hsplit.symm

/-- The conversions of a pattern are right, and those from half precision exact. -/
def ConversionsRight (bits : Nat) : Prop :=
  Rounds half bits (floatToFp16Bits bits) ∧ Rounds bfloat bits (floatToBf16Bits bits) ∧
    ∀ h : BitVec 16, ¬ half.IsNaN (half.magnitude h.toNat) → Exact h.toNat (fp16BitsToFloat h.toNat)

/-- The conversions are right exactly for the patterns that are not such a NaN. -/
theorem float_conversions_iff (bits : BitVec 32) : ConversionsRight bits.toNat ↔ Bf16Safe bits.toNat := by
  constructor
  · intro hright
    exact (floatToBf16Bits_rounds_iff bits.isLt).mp hright.2.1
  · intro hsafe
    exact ⟨floatToFp16Bits_rounds bits.isLt, (floatToBf16Bits_rounds_iff bits.isLt).mpr hsafe,
      fun h hnumber => fp16BitsToFloat_exact h.isLt hnumber⟩

/-- The NaN with the smallest payload becomes an infinity. -/
theorem float_conversions_nan : ¬ ∀ bits : BitVec 32, ConversionsRight bits.toNat := by
  intro hall
  have hnan : single.IsNaN (single.magnitude 0x7f800001) := by decide
  have hrounds : Rounds bfloat 0x7f800001 (floatToBf16Bits 0x7f800001) := (hall 0x7f800001).2.1
  unfold Rounds at hrounds
  rw [if_pos hnan] at hrounds
  exact absurd hrounds (by decide)

end VoidInfer.DeviceKV
