import Mathlib.Logic.Function.Basic
import Mathlib.Data.Nat.Bitwise
import Mathlib.Algebra.Ring.Int.Defs
import Mathlib.Algebra.Ring.Nat

/-
  The packed codes of `oscar_conversion.cu`, `oscar_codec.cuh` and `paged_kv_cache.cpp`: codes of two to four bits in a
  row of bytes, written by the lanes of a warp, by a lane for each byte or by the host, and read at a dimension.
-/

namespace VoidInfer.DeviceKV.Oscar
open List

/-- `cyclic_oscar_code_extent`. -/
def codeExtent (bits headDim : Nat) : Nat := (headDim * bits + 7) / 8

def kCyclicKVCacheOscarHeadDim : Nat := 128

/-- The dimensions of a row of the host packer. -/
def hostHeadDim : Nat := 256

/-- The codes each lane of a warp holds. -/
abbrev LaneCodes := Nat → Nat → UInt8

/-! ## Writers -/

/-- The loop of `pack_oscar_byte`, at most a round for each bit. -/
def packLoop (bits : Nat) (codes : LaneCodes) (byte : Nat) : Nat → Nat → UInt8 → UInt8
  | 0, _, packed => packed
  | rounds + 1, bitCursor, packed =>
    if bitCursor < 8 then
      let globalBit := byte * 8 + bitCursor
      let dimension := globalBit / bits
      let bitOffset := globalBit - dimension * bits
      let take := min (bits - bitOffset) (8 - bitCursor)
      let sourceLane := dimension &&& 31
      let sourceItem := dimension >>> 5
      let code := (codes sourceLane sourceItem).toNat
      let mask := 2 ^ take - 1
      packLoop bits codes byte rounds (bitCursor + take)
        (packed ||| UInt8.ofNat (((code >>> bitOffset) &&& mask) <<< bitCursor))
    else packed

def packOscarByte (bits : Nat) (codes : LaneCodes) (byte : Nat) : UInt8 := packLoop bits codes byte 8 0 0

/-- The byte a lane writes of the transposed layout of two bits. -/
def packTransposedByte (codes : LaneCodes) (lane : Nat) : UInt8 :=
  UInt8.ofNat ((codes lane 0).toNat ||| (codes lane 1).toNat <<< 2 ||| (codes lane 2).toNat <<< 4 |||
    (codes lane 3).toNat <<< 6)

/-- One dimension of `pack_oscar_host_codes`. -/
def packHostCode (bits : Nat) (code : Nat → Nat) (row : Nat → UInt8) (dimension : Nat) : Nat → UInt8 :=
  let bitOffset := dimension * bits
  let byte := bitOffset >>> 3
  let row := Function.update row byte (UInt8.ofNat ((row byte).toNat ||| code dimension <<< (bitOffset &&& 7)))
  if (bitOffset &&& 7) + bits > 8 then
    Function.update row (byte + 1)
      (UInt8.ofNat ((row (byte + 1)).toNat ||| code dimension >>> (8 - (bitOffset &&& 7))))
  else row

/-- `pack_oscar_host_codes`, by the code that each value is quantised to. -/
def packOscarHostCodes (bits : Nat) (code : Nat → Nat) (destination : Nat → UInt8) : Nat → UInt8 :=
  (List.range hostHeadDim).foldl (packHostCode bits code)
    fun byte => if byte < codeExtent bits hostHeadDim then 0 else destination byte

/-! ## Readers -/

def cyclicOscarUnpackCode (bits : Nat) (codes : Nat → UInt8) (dimension : Nat) : UInt8 :=
  let bit := dimension * bits
  let byte := bit >>> 3
  let shift := bit &&& 7
  let word := (codes byte).toNat ||| if shift + bits > 8 then (codes (byte + 1)).toNat <<< 8 else 0
  UInt8.ofNat ((word >>> shift) &&& (2 ^ bits - 1))

def unpackOscarConversionCode (bits : Nat) (codes : Nat → UInt8) (dimension : Nat) (q2Transposed : Bool) : UInt8 :=
  if q2Transposed ∧ bits = 2 then
    let lane := dimension &&& 31
    let item := dimension >>> 5
    UInt8.ofNat (((codes lane).toNat >>> (item <<< 1)) &&& 3)
  else cyclicOscarUnpackCode bits codes dimension

/-- The code that `load_source_oscar_value` extracts from a row. -/
def sourceOscarCode (bits : Nat) (codes : Nat → UInt8) (dimension : Nat) : Nat :=
  let byte := (dimension * bits) >>> 3
  let shift := (dimension * bits) &&& 7
  let word := (codes byte).toNat ||| (codes (byte + 1)).toNat <<< 8
  (word >>> shift) &&& (2 ^ bits - 1)

/-! ## Rows as streams of bits -/

def bitAt (byte : UInt8) (k : Nat) : Bool := byte.toNat.testBit k

def rowBit (row : Nat → UInt8) (g : Nat) : Bool := bitAt (row (g / 8)) (g % 8)

theorem bitAt_or (a b : UInt8) (k : Nat) : bitAt (a ||| b) k = (bitAt a k || bitAt b k) := by
  simp [bitAt]

theorem bitAt_ofNat (n : Nat) (k : Nat) : bitAt (UInt8.ofNat n) k = (decide (k < 8) && n.testBit k) := by
  rw [bitAt, UInt8.toNat_ofNat', Nat.testBit_mod_two_pow]

theorem bitAt_high {byte : UInt8} {k : Nat} (h : 8 ≤ k) : bitAt byte k = false :=
  Nat.testBit_lt_two_pow (byte.toNat_lt.trans_le (Nat.pow_le_pow_right Nat.two_pos h))

theorem testBit_high {bits code j : Nat} (hcode : code < 2 ^ bits) (h : bits ≤ j) : code.testBit j = false :=
  Nat.testBit_lt_two_pow (hcode.trans_le (Nat.pow_le_pow_right Nat.two_pos h))

theorem extract_eq {bits code shift word : Nat} (hcode : code < 2 ^ bits)
    (h : ∀ j < bits, word.testBit (shift + j) = code.testBit j) : (word >>> shift) &&& (2 ^ bits - 1) = code := by
  refine Nat.eq_of_testBit_eq fun j => ?_
  by_cases hj : j < bits
  · simp [hj, h j hj]
  · simp [hj, testBit_high hcode (Nat.le_of_not_lt hj)]

section
variable {bits : Nat} {row : Nat → UInt8} {dimension code : Nat}

theorem testBit_word (h : ∀ j < bits, rowBit row (dimension * bits + j) = code.testBit j) {j : Nat} (hj : j < bits)
    (hbits : bits ≤ 8) : ((row (dimension * bits / 8)).toNat |||
      (row (dimension * bits / 8 + 1)).toNat <<< 8).testBit (dimension * bits % 8 + j) = code.testBit j := by
  rw [← h j hj, Nat.testBit_or, Nat.testBit_shiftLeft]
  change (bitAt _ _ || (_ && bitAt _ _)) = bitAt _ _
  by_cases hlow : dimension * bits % 8 + j < 8
  · have h1 : (dimension * bits + j) / 8 = dimension * bits / 8 := by omega
    have h2 : (dimension * bits + j) % 8 = dimension * bits % 8 + j := by omega
    rw [h1, h2]
    simp [Nat.not_le.mpr hlow]
  · have h1 : (dimension * bits + j) / 8 = dimension * bits / 8 + 1 := by omega
    have h2 : (dimension * bits + j) % 8 = dimension * bits % 8 + j - 8 := by omega
    rw [h1, h2, bitAt_high (Nat.le_of_not_lt hlow)]
    simp [Nat.le_of_not_lt hlow]

theorem byte_of_bit (n : Nat) : n >>> 3 = n / 8 ∧ n &&& 7 = n % 8 :=
  ⟨Nat.shiftRight_eq_div_pow n 3, Nat.and_two_pow_sub_one_eq_mod n 3⟩

theorem sourceOscarCode_eq (hbits : bits ≤ 8) (hcode : code < 2 ^ bits)
    (h : ∀ j < bits, rowBit row (dimension * bits + j) = code.testBit j) : sourceOscarCode bits row dimension = code := by
  simp only [sourceOscarCode, byte_of_bit]
  exact extract_eq hcode fun j hj => testBit_word h hj hbits

theorem cyclicOscarUnpackCode_eq (hbits : bits ≤ 8) (hcode : code < 2 ^ bits)
    (h : ∀ j < bits, rowBit row (dimension * bits + j) = code.testBit j) :
    cyclicOscarUnpackCode bits row dimension = UInt8.ofNat code := by
  simp only [cyclicOscarUnpackCode, byte_of_bit]
  congr 1
  refine extract_eq hcode fun j hj => ?_
  rw [← testBit_word h hj hbits]
  split
  · rfl
  · -- the code ends in its first byte
    next hone =>
    simp [show ¬ 8 ≤ dimension * bits % 8 + j by omega]

end

/-! ## What the writers write -/

/-- The code a warp holds for a dimension. -/
def laneCode (codes : LaneCodes) (dimension : Nat) : UInt8 := codes (dimension % 32) (dimension / 32)

theorem lane_of_dimension (n : Nat) : n &&& 31 = n % 32 ∧ n >>> 5 = n / 32 :=
  ⟨Nat.and_two_pow_sub_one_eq_mod n 5, Nat.shiftRight_eq_div_pow n 5⟩

theorem code_bit {bits d j : Nat} (hj : j < bits) : (d * bits + j) / bits = d ∧ (d * bits + j) % bits = j := by
  rw [Nat.add_comm, Nat.add_mul_div_right _ _ (by omega), Nat.div_eq_of_lt hj, Nat.zero_add,
    Nat.add_mul_mod_self_right, Nat.mod_eq_of_lt hj]
  exact ⟨rfl, rfl⟩

theorem code_within {bits dims d j : Nat} (hd : d < dims) (hj : j < bits) : d * bits + j < dims * bits := by
  have := Nat.mul_le_mul_right bits hd
  rw [Nat.succ_mul] at this
  omega

theorem div_of_within {bits g i : Nat} (h : g % bits + i < bits) :
    (g + i) / bits = g / bits ∧ (g + i) % bits = g % bits + i := by
  have hsplit : g + i = g / bits * bits + (g % bits + i) := by
    rw [← Nat.add_assoc, Nat.div_add_mod']
  rw [hsplit]
  exact code_bit h

theorem packLoop_bit {bits : Nat} (hpos : 0 < bits) (codes : LaneCodes) (byte : Nat) : ∀ rounds cursor packed,
    cursor ≤ 8 → 8 ≤ cursor + rounds →
    (∀ k < 8, bitAt packed k = (decide (k < cursor) &&
      bitAt (laneCode codes ((byte * 8 + k) / bits)) ((byte * 8 + k) % bits))) →
    ∀ k < 8, bitAt (packLoop bits codes byte rounds cursor packed) k =
      bitAt (laneCode codes ((byte * 8 + k) / bits)) ((byte * 8 + k) % bits) := by
  intro rounds
  induction rounds with
  | zero =>
    intro cursor packed _ hdone hpacked k hk
    rw [packLoop, hpacked k hk]
    simp [show k < cursor by omega]
  | succ rounds ih =>
    intro cursor packed hcursor hdone hpacked
    rw [packLoop]
    split
    · next hlt =>
      have hoffset : byte * 8 + cursor - (byte * 8 + cursor) / bits * bits = (byte * 8 + cursor) % bits := by
        rw [Nat.mod_def, Nat.mul_comm bits]
      have hmod : (byte * 8 + cursor) % bits < bits := Nat.mod_lt _ hpos
      simp only [hoffset, lane_of_dimension]
      refine ih _ _ (by omega) (by omega) fun k hk => ?_
      rw [bitAt_or, hpacked k hk, bitAt_ofNat, Nat.testBit_shiftLeft, Nat.testBit_and, Nat.testBit_shiftRight,
        Nat.testBit_two_pow_sub_one]
      by_cases hbelow : k < cursor
      · have h1 : ¬ k ≥ cursor := by omega
        have h2 : k < cursor + min (bits - (byte * 8 + cursor) % bits) (8 - cursor) := by omega
        simp [hbelow, h1, h2]
      · obtain ⟨i, rfl⟩ := Nat.exists_eq_add_of_le (Nat.le_of_not_lt hbelow)
        by_cases htake : i < min (bits - (byte * 8 + cursor) % bits) (8 - cursor)
        · obtain ⟨hdiv, hmod'⟩ := div_of_within (show (byte * 8 + cursor) % bits + i < bits by omega)
          rw [← Nat.add_assoc, hdiv, hmod']
          simp [hk, htake, laneCode, bitAt]
        · simp [htake]
    · intro k hk
      rw [hpacked k hk]
      simp [show k < cursor by omega]

theorem packOscarByte_bit {bits : Nat} (hpos : 0 < bits) (codes : LaneCodes) (byte : Nat) {k : Nat} (hk : k < 8) :
    bitAt (packOscarByte bits codes byte) k =
      bitAt (laneCode codes ((byte * 8 + k) / bits)) ((byte * 8 + k) % bits) :=
  packLoop_bit hpos codes byte 8 0 0 (Nat.zero_le _) le_rfl (fun k _ => by simp [bitAt]) k hk

theorem packHostCode_bit {bits : Nat} (hbits : bits ≤ 8) {code : Nat → Nat} {dimension : Nat}
    (hcode : code dimension < 2 ^ bits) (row : Nat → UInt8) (g : Nat) :
    rowBit (packHostCode bits code row dimension) g =
      (rowBit row g || (decide (dimension * bits ≤ g) && (code dimension).testBit (g - dimension * bits))) := by
  simp only [packHostCode, byte_of_bit]
  generalize dimension * bits = n
  -- the code's bits, by the byte that `g` is in
  have hsame : g / 8 = n / 8 →
      bitAt (UInt8.ofNat ((row (n / 8)).toNat ||| code dimension <<< (n % 8))) (g % 8) =
        (rowBit row g || (decide (n ≤ g) && (code dimension).testBit (g - n))) := by
    intro hg
    have h1 : (g % 8 ≥ n % 8) = (n ≤ g) := propext (by omega)
    have h2 : g % 8 - n % 8 = g - n := by omega
    rw [bitAt_ofNat, Nat.testBit_or, Nat.testBit_shiftLeft, h2, rowBit, hg, decide_eq_true (Nat.mod_lt g (by decide))]
    simp only [h1, bitAt, Bool.true_and]
  have hnext : g / 8 = n / 8 + 1 →
      bitAt (UInt8.ofNat ((row (n / 8 + 1)).toNat ||| code dimension >>> (8 - n % 8))) (g % 8) =
        (rowBit row g || (decide (n ≤ g) && (code dimension).testBit (g - n))) := by
    intro hg
    have h1 : n ≤ g := by omega
    have h2 : 8 - n % 8 + g % 8 = g - n := by omega
    rw [bitAt_ofNat, Nat.testBit_or, Nat.testBit_shiftRight, h2, rowBit, hg, decide_eq_true (Nat.mod_lt g (by decide))]
    simp only [h1, bitAt, decide_true, Bool.true_and]
  have hother : n + bits ≤ g ∨ g < n → rowBit row g =
      (rowBit row g || (decide (n ≤ g) && (code dimension).testBit (g - n))) := by
    rintro (hg | hg)
    · simp [testBit_high hcode (show bits ≤ g - n by omega)]
    · simp [Nat.not_le.mpr hg]
  split
  · rw [Function.update_of_ne (Nat.succ_ne_self _)]
    by_cases hg : g / 8 = n / 8 + 1
    · rw [← hnext hg, rowBit, hg, Function.update_self]
    rw [rowBit, Function.update_of_ne hg]
    by_cases hg' : g / 8 = n / 8
    · rw [← hsame hg', hg', Function.update_self]
    · rw [Function.update_of_ne hg', ← hother (by omega), rowBit]
  · by_cases hg : g / 8 = n / 8
    · rw [← hsame hg, rowBit, hg, Function.update_self]
    · rw [rowBit, Function.update_of_ne hg, ← hother (by omega), rowBit]

theorem packOscarHostCodes_bit {bits : Nat} (hbits : bits ≤ 8) {code : Nat → Nat}
    (hcode : ∀ d < hostHeadDim, code d < 2 ^ bits) (destination : Nat → UInt8) :
    ∀ g < hostHeadDim * bits, rowBit (packOscarHostCodes bits code destination) g =
      (code (g / bits)).testBit (g % bits) := by
  have hprefix : ∀ n ≤ hostHeadDim, ∀ g < hostHeadDim * bits,
      rowBit ((List.range n).foldl (packHostCode bits code)
          fun byte => if byte < codeExtent bits hostHeadDim then 0 else destination byte) g =
        (decide (g < n * bits) && (code (g / bits)).testBit (g % bits)) := by
    intro n
    induction n with
    | zero =>
      intro _ g hg
      have hin : g / 8 < codeExtent bits hostHeadDim := by
        simp only [codeExtent]
        omega
      simp [rowBit, hin, bitAt]
    | succ n ih =>
      intro hn g hg
      rw [range_succ, foldl_append, foldl_cons, foldl_nil, packHostCode_bit hbits (hcode n hn),
        ih (Nat.le_of_succ_le hn) g hg, Nat.succ_mul]
      by_cases hlow : g < n * bits
      · simp [hlow, Nat.not_le.mpr hlow, show g < n * bits + bits by omega]
      · obtain ⟨j, rfl⟩ := Nat.exists_eq_add_of_le (Nat.le_of_not_lt hlow)
        by_cases hj : j < bits
        · simp [hj, code_bit hj]
        · simp [hj, testBit_high (hcode n hn) (Nat.le_of_not_lt hj)]
  intro g hg
  rw [packOscarHostCodes, hprefix hostHeadDim le_rfl g hg]
  simp [hg]

/-! ## Round trips -/

theorem packTransposedByte_bit (codes : LaneCodes) (hcodes : ∀ lane item, (codes lane item).toNat < 2 ^ 2) (lane : Nat)
    {item j : Nat} (hitem : item < 4) (hj : j < 2) :
    (packTransposedByte codes lane).toNat.testBit (item <<< 1 + j) = (codes lane item).toNat.testBit j := by
  have hhigh : ∀ i n, 2 ≤ n → (codes lane i).toNat.testBit n = false := fun i n hn => testBit_high (hcodes lane i) hn
  change bitAt _ _ = _
  rw [packTransposedByte, bitAt_ofNat]
  have hbit : j = 0 ∨ j = 1 := by omega
  match item, hitem with
  | 0, _ => rcases hbit with rfl | rfl <;> simp
  | 1, _ => rcases hbit with rfl | rfl <;> simp [hhigh]
  | 2, _ => rcases hbit with rfl | rfl <;> simp [hhigh]
  | 3, _ => rcases hbit with rfl | rfl <;> simp [hhigh]

/-- A row of a writer, with anything after it. -/
def rowOf (extent : Nat) (written beyond : Nat → UInt8) : Nat → UInt8 := fun byte =>
  if byte < extent then written byte else beyond byte

theorem rowBit_rowOf {bits dims g : Nat} (written beyond : Nat → UInt8) (h : g < dims * bits) :
    rowBit (rowOf (codeExtent bits dims) written beyond) g = rowBit written g := by
  have hin : g / 8 < codeExtent bits dims := by
    simp only [codeExtent]
    omega
  rw [rowBit, rowOf, if_pos hin, rowBit]

/-- Codes of two to four bits come back from every writer by every reader of its layout, at the same
    dimension and whatever lies beyond the row. -/
theorem oscar_codes_round_trip (bits : Nat) :
    (∀ codes : LaneCodes, 2 ≤ bits → bits ≤ 4 → (∀ lane item, (codes lane item).toNat < 2 ^ bits) →
      ∀ beyond, ∀ d < kCyclicKVCacheOscarHeadDim,
        let row := rowOf (codeExtent bits kCyclicKVCacheOscarHeadDim) (packOscarByte bits codes) beyond
        cyclicOscarUnpackCode bits row d = codes (d % 32) (d / 32) ∧
        unpackOscarConversionCode bits row d false = codes (d % 32) (d / 32)) ∧
    (∀ codes : LaneCodes, (∀ lane item, (codes lane item).toNat < 2 ^ 2) →
      ∀ beyond, ∀ d < kCyclicKVCacheOscarHeadDim,
        unpackOscarConversionCode 2
          (rowOf (codeExtent 2 kCyclicKVCacheOscarHeadDim) (packTransposedByte codes) beyond) d true =
          codes (d % 32) (d / 32)) ∧
    ∀ code : Nat → Nat, 2 ≤ bits → bits ≤ 4 → (∀ d < hostHeadDim, code d < 2 ^ bits) →
      ∀ destination beyond, ∀ d < hostHeadDim,
        let row := rowOf (codeExtent bits hostHeadDim) (packOscarHostCodes bits code destination) beyond
        sourceOscarCode bits row d = code d ∧ cyclicOscarUnpackCode bits row d = UInt8.ofNat (code d) := by
  refine ⟨fun codes hlow hhigh hcodes beyond d hd => ?_, fun codes hcodes beyond d hd => ?_,
    fun code hlow hhigh hcode destination beyond d hd => ?_⟩
  · have hread : cyclicOscarUnpackCode bits
        (rowOf (codeExtent bits kCyclicKVCacheOscarHeadDim) (packOscarByte bits codes) beyond) d =
          UInt8.ofNat (codes (d % 32) (d / 32)).toNat := by
      refine cyclicOscarUnpackCode_eq (by omega) (hcodes (d % 32) (d / 32)) fun j hj => ?_
      rw [rowBit_rowOf _ _ (code_within hd hj), rowBit, packOscarByte_bit (by omega) codes _
        (Nat.mod_lt _ (by decide)), Nat.mul_comm, Nat.div_add_mod, (code_bit hj).1, (code_bit hj).2]
      rfl
    rw [UInt8.ofNat_toNat] at hread
    exact ⟨hread, hread⟩
  · have hlane : d % 32 < codeExtent 2 kCyclicKVCacheOscarHeadDim := Nat.mod_lt d (by decide)
    have hitem : d / 32 < 4 := Nat.div_lt_of_lt_mul hd
    rw [unpackOscarConversionCode, if_pos (by simp)]
    simp only [lane_of_dimension, rowOf, if_pos hlane]
    rw [← UInt8.ofNat_toNat (x := codes (d % 32) (d / 32))]
    congr 1
    exact extract_eq (hcodes _ _) fun j hj => packTransposedByte_bit codes hcodes _ hitem hj
  · have hbit : ∀ j < bits, rowBit (rowOf (codeExtent bits hostHeadDim)
        (packOscarHostCodes bits code destination) beyond) (d * bits + j) = (code d).testBit j := by
      intro j hj
      have hin := code_within hd hj
      rw [rowBit_rowOf _ _ hin, packOscarHostCodes_bit (by omega) hcode destination _ hin,
        (code_bit hj).1, (code_bit hj).2]
    exact ⟨sourceOscarCode_eq (by omega) (hcode d hd) hbit, cyclicOscarUnpackCode_eq (by omega) (hcode d hd) hbit⟩

end VoidInfer.DeviceKV.Oscar
