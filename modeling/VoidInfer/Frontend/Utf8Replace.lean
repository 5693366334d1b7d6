import VoidInfer.Lib.Utf8
import Mathlib.Algebra.Ring.Int.Defs
import Mathlib.Algebra.Ring.Nat

/-
  `decode_utf8_prefix` of `frontend.cpp`: sampled tokens are byte strings, and what they make together is decoded as it
  arrives. An incomplete sequence at the end waits for the next token; `terminalize` puts one U+FFFD for what still
  waits when generation ends.
-/

namespace VoidInfer.Frontend
open Utf8
open List hiding tail

/-- The length, the first bits and the least code point of the sequences a lead byte above 0x7F begins. -/
def leadShape (lead : Nat) : Option (Nat × Nat × Nat) :=
  if 0xc2 ≤ lead ∧ lead ≤ 0xdf then some (2, lead &&& 0x1f, 0x80)
  else if 0xe0 ≤ lead ∧ lead ≤ 0xef then some (3, lead &&& 0x0f, 0x800)
  else if 0xf0 ≤ lead ∧ lead ≤ 0xf4 then some (4, lead &&& 0x07, 0x10000)
  else none

/-- At most `left` continuation bytes, with the code point they extend. -/
def continuations : Nat → Nat → List UInt8 → Nat × Nat
  | left + 1, codepoint, byte :: rest =>
    if byte.toNat &&& 0xc0 = 0x80 then
      let next := continuations left (codepoint <<< 6 ||| (byte.toNat &&& 0x3f)) rest
      (next.1 + 1, next.2)
    else (0, codepoint)
  | _, codepoint, _ => (0, codepoint)

theorem continuations_le_bytes : ∀ left codepoint bytes, (continuations left codepoint bytes).1 ≤ bytes.length
  | 0, _, _ => by simp [continuations]
  | _ + 1, _, [] => by simp [continuations]
  | left + 1, codepoint, byte :: rest => by
      have ih := continuations_le_bytes left (codepoint <<< 6 ||| (byte.toNat &&& 0x3f)) rest
      rw [continuations]
      split
      · simpa using ih
      · simp

theorem continuations_le_left : ∀ left codepoint bytes, (continuations left codepoint bytes).1 ≤ left
  | 0, _, _ => by simp [continuations]
  | _ + 1, _, [] => by simp [continuations]
  | left + 1, codepoint, byte :: rest => by
      have ih := continuations_le_left left (codepoint <<< 6 ||| (byte.toNat &&& 0x3f)) rest
      rw [continuations]
      split
      · simpa using ih
      · simp

/-- The number of bytes consumed, and the text that is appended. -/
def decodeUtf8Prefix : List UInt8 → Nat × List UInt8
  | [] => (0, [])
  | lead :: rest =>
    if lead.toNat ≤ 0x7f then
      let next := decodeUtf8Prefix rest
      (next.1 + 1, lead :: next.2)
    else
      match leadShape lead.toNat with
      | none =>
        let next := decodeUtf8Prefix rest
        (next.1 + 1, replacement ++ next.2)
      | some (length, bits, minimum) =>
        -- `index` of the source is one more than the number of continuation bytes
        let run := continuations (length - 1) bits rest
        if run.1 + 1 < length ∧ run.1 = rest.length then (0, [])
        else if run.1 + 1 < length ∨ run.2 < minimum ∨ (0xd800 ≤ run.2 ∧ run.2 ≤ 0xdfff) ∨
            0x10ffff < run.2 then
          let next := decodeUtf8Prefix (rest.drop run.1)
          (next.1 + (run.1 + 1), replacement ++ next.2)
        else
          let next := decodeUtf8Prefix (rest.drop (length - 1))
          (next.1 + length, lead :: rest.take (length - 1) ++ next.2)
termination_by bytes => bytes.length
decreasing_by all_goals simp only [length_cons, length_drop]; omega

/-- The decoder between two tokens: what waits, and what `feed_token_bytes` has passed on. -/
def feedUtf8 (waiting bytes : List UInt8) : List UInt8 × List UInt8 :=
  let (consumed, text) := decodeUtf8Prefix (waiting ++ bytes)
  ((waiting ++ bytes).drop consumed, text)

/-- The text of a whole generation: its pieces, then the replacement of an incomplete tail. -/
def streamText (waiting : List UInt8) : List (List UInt8) → List UInt8
  | [] => if waiting = [] then [] else replacement
  | piece :: pieces =>
    let (waiting', text) := feedUtf8 waiting piece
    text ++ streamText waiting' pieces

/-! ## Decoding piece by piece -/

theorem continuations_append (more : List UInt8) : ∀ left codepoint bytes,
    (continuations left codepoint bytes).1 = left ∨ (continuations left codepoint bytes).1 < bytes.length →
    continuations left codepoint (bytes ++ more) = continuations left codepoint bytes
  | 0, _, _, _ => by simp [continuations]
  | left + 1, codepoint, [], h => by simp [continuations] at h
  | left + 1, codepoint, byte :: rest, h => by
      rw [cons_append, continuations, continuations]
      rw [continuations] at h
      split
      · next hb =>
        rw [if_pos hb] at h
        rw [continuations_append more left _ rest (by simpa using h)]
      · rfl

/-- The replacement of what waits when generation ends. -/
def flush (waiting : List UInt8) : List UInt8 := if waiting = [] then [] else replacement

/-- The whole text of a byte string that arrives at once. -/
def decodeAll (bytes : List UInt8) : List UInt8 :=
  (decodeUtf8Prefix bytes).2 ++ flush (bytes.drop (decodeUtf8Prefix bytes).1)

theorem two_le_leadShape {lead length bits minimum : Nat}
    (h : leadShape lead = some (length, bits, minimum)) : 2 ≤ length := by
  unfold leadShape at h
  split_ifs at h <;> cases h <;> decide

section Equations

variable {lead : UInt8} {rest : List UInt8} {length bits minimum : Nat}

/-- The test of `decode_utf8_prefix` for a sequence that is not copied. -/
def IllFormed (length minimum : Nat) (run : Nat × Nat) : Prop :=
  run.1 + 1 < length ∨ run.2 < minimum ∨ (0xd800 ≤ run.2 ∧ run.2 ≤ 0xdfff) ∨ 0x10ffff < run.2

theorem decode_ascii (hlead : lead.toNat ≤ 0x7f) : decodeUtf8Prefix (lead :: rest) =
    ((decodeUtf8Prefix rest).1 + 1, lead :: (decodeUtf8Prefix rest).2) := by
  rw [decodeUtf8Prefix, if_pos hlead]

section
variable (hlead : ¬ lead.toNat ≤ 0x7f)
include hlead

theorem decode_stray (hshape : leadShape lead.toNat = none) :
    decodeUtf8Prefix (lead :: rest) = ((decodeUtf8Prefix rest).1 + 1, replacement ++ (decodeUtf8Prefix rest).2) := by
  rw [decodeUtf8Prefix, if_neg hlead, hshape]

section
variable (hshape : leadShape lead.toNat = some (length, bits, minimum))
include hshape

theorem decode_wait
    (hwait : (continuations (length - 1) bits rest).1 + 1 < length ∧
      (continuations (length - 1) bits rest).1 = rest.length) :
    decodeUtf8Prefix (lead :: rest) = (0, []) := by
  rw [decodeUtf8Prefix, if_neg hlead, hshape]
  exact if_pos hwait

theorem decode_ill
    (hwait : ¬ ((continuations (length - 1) bits rest).1 + 1 < length ∧
      (continuations (length - 1) bits rest).1 = rest.length))
    (hill : IllFormed length minimum (continuations (length - 1) bits rest)) :
    decodeUtf8Prefix (lead :: rest) =
      ((decodeUtf8Prefix (rest.drop (continuations (length - 1) bits rest).1)).1 +
          ((continuations (length - 1) bits rest).1 + 1),
        replacement ++ (decodeUtf8Prefix (rest.drop (continuations (length - 1) bits rest).1)).2) := by
  rw [decodeUtf8Prefix, if_neg hlead, hshape]
  exact (if_neg hwait).trans (if_pos hill)

theorem decode_well (hill : ¬ IllFormed length minimum (continuations (length - 1) bits rest)) :
    decodeUtf8Prefix (lead :: rest) =
      ((decodeUtf8Prefix (rest.drop (length - 1))).1 + length,
        lead :: rest.take (length - 1) ++ (decodeUtf8Prefix (rest.drop (length - 1))).2) := by
  rw [decodeUtf8Prefix, if_neg hlead, hshape]
  refine (if_neg ?_).trans (if_neg hill)
  exact fun h => hill (.inl h.1)

end

end

end Equations

theorem decodeUtf8Prefix_le (bytes : List UInt8) : (decodeUtf8Prefix bytes).1 ≤ bytes.length := by
  induction bytes using decodeUtf8Prefix.induct with
  | case1 => simp [decodeUtf8Prefix]
  | case2 lead rest hlead ih =>
    rw [decode_ascii hlead]
    simpa using ih
  | case3 lead rest hlead hshape ih =>
    rw [decode_stray hlead hshape]
    simpa using ih
  | case4 lead rest hlead length bits minimum hshape run hwait =>
    rw [decode_wait hlead hshape hwait]
    simp
  | case5 lead rest hlead length bits minimum hshape run hwait hill ih =>
    have hn : run.1 ≤ rest.length := continuations_le_bytes _ bits rest
    rw [length_drop] at ih
    rw [decode_ill hlead hshape hwait hill]
    change (decodeUtf8Prefix (rest.drop run.1)).1 + (run.1 + 1) ≤ rest.length + 1
    omega
  | case6 lead rest hlead length bits minimum hshape run hwait hill ih =>
    have hn : run.1 ≤ rest.length := continuations_le_bytes _ bits rest
    rw [length_drop] at ih
    rw [decode_well hlead hshape hill]
    simp only [length_cons]
    omega

/-- A first part is decoded the same whatever follows; what it leaves waiting is decoded with what follows. -/
theorem decodeUtf8Prefix_append (bytes more : List UInt8) :
    decodeUtf8Prefix (bytes ++ more) =
      ((decodeUtf8Prefix bytes).1 + (decodeUtf8Prefix (bytes.drop (decodeUtf8Prefix bytes).1 ++ more)).1,
        (decodeUtf8Prefix bytes).2 ++ (decodeUtf8Prefix (bytes.drop (decodeUtf8Prefix bytes).1 ++ more)).2) := by
  induction bytes using decodeUtf8Prefix.induct with
  | case1 => simp [decodeUtf8Prefix]
  | case2 lead rest hlead ih =>
    rw [cons_append, decode_ascii hlead, decode_ascii hlead, ih]
    simp only [drop_succ_cons, cons_append, Prod.mk.injEq, and_true]
    omega
  | case3 lead rest hlead hshape ih =>
    rw [cons_append, decode_stray hlead hshape, decode_stray hlead hshape, ih]
    simp only [drop_succ_cons, append_assoc, Prod.mk.injEq, and_true]
    omega
  | case4 lead rest hlead length bits minimum hshape run hwait =>
    simp [decode_wait hlead hshape hwait]
  | case5 lead rest hlead length bits minimum hshape run hwait hill ih =>
    have hn : run.1 ≤ rest.length := continuations_le_bytes _ bits rest
    have hleft : run.1 ≤ length - 1 := continuations_le_left _ bits rest
    have hsame : continuations (length - 1) bits (rest ++ more) = run :=
      continuations_append more _ _ _ (by change run.1 = _ ∨ run.1 < _; omega)
    have hdrop : ∀ c, (lead :: rest).drop (c + (run.1 + 1)) = (rest.drop run.1).drop c := fun c => by
      rw [← Nat.add_assoc, drop_succ_cons, drop_drop, Nat.add_comm]
    rw [decode_ill hlead hshape hwait hill, hdrop, cons_append,
      decode_ill hlead hshape (by rw [hsame, length_append]; omega) (by rw [hsame]; exact hill),
      hsame, drop_append_of_le_length hn, ih]
    simp only [append_assoc, Prod.mk.injEq, run, and_true]
    omega
  | case6 lead rest hlead length bits minimum hshape run hwait hill ih =>
    have hn : run.1 ≤ rest.length := continuations_le_bytes _ bits rest
    have hleft : run.1 ≤ length - 1 := continuations_le_left _ bits rest
    have hlen := two_le_leadShape hshape
    have hfull : run.1 = length - 1 := by omega
    have hsame : continuations (length - 1) bits (rest ++ more) = run :=
      continuations_append more _ _ _ (.inl hfull)
    have hdrop : ∀ c, (lead :: rest).drop (c + length) = (rest.drop (length - 1)).drop c := fun c => by
      rw [show c + length = c + (length - 1) + 1 by omega, drop_succ_cons, drop_drop, Nat.add_comm]
    rw [decode_well hlead hshape hill, hdrop, cons_append,
      decode_well hlead hshape (by rw [hsame]; exact hill),
      drop_append_of_le_length (by omega), ih, take_append_of_le_length (by omega)]
    simp only [cons_append, append_assoc, Prod.mk.injEq, and_true]
    omega

theorem decodeUtf8Prefix_rest (bytes : List UInt8) :
    decodeUtf8Prefix (bytes.drop (decodeUtf8Prefix bytes).1) = (0, []) := by
  have h := decodeUtf8Prefix_append bytes []
  have h1 := congrArg Prod.fst h
  have h2 := congrArg Prod.snd h
  exact Prod.ext (by simpa using h1) (by simpa using h2)

theorem streamText_eq (waiting : List UInt8) (pieces : List (List UInt8))
    (hwait : decodeUtf8Prefix waiting = (0, [])) :
    streamText waiting pieces = decodeAll (waiting ++ pieces.flatten) := by
  induction pieces generalizing waiting with
  | nil => simp [streamText, decodeAll, hwait, flush]
  | cons piece pieces ih =>
    have hrest := decodeUtf8Prefix_rest (waiting ++ piece)
    have happ := decodeUtf8Prefix_append (waiting ++ piece) pieces.flatten
    rw [streamText]
    simp only [feedUtf8]
    rw [ih _ hrest, flatten_cons, ← append_assoc, decodeAll, decodeAll, happ]
    rw [append_assoc, ← drop_drop, drop_append_of_le_length (decodeUtf8Prefix_le _)]

/-! ## Against Table 3-7 -/

/-- A second byte that is a continuation byte and that the row of its lead byte excludes:
    it would make an overlong form, a surrogate or a code point above U+10FFFF. -/
def Restricted (lead second : UInt8) : Prop :=
  (lead.toNat = 0xE0 ∧ 0x80 ≤ second.toNat ∧ second.toNat ≤ 0x9F) ∨
  (lead.toNat = 0xED ∧ 0xA0 ≤ second.toNat ∧ second.toNat ≤ 0xBF) ∨
  (lead.toNat = 0xF0 ∧ 0x80 ≤ second.toNat ∧ second.toNat ≤ 0x8F) ∨
  (lead.toNat = 0xF4 ∧ 0x90 ≤ second.toNat ∧ second.toNat ≤ 0xBF)

instance (lead second : UInt8) : Decidable (Restricted lead second) :=
  inferInstanceAs (Decidable (_ ∨ _))

/-- No two neighbours are restricted. -/
def Unrestricted (bytes : List UInt8) : Prop := bytes.IsChain fun a b => ¬ Restricted a b

theorem continuation_iff (b : UInt8) : b.toNat &&& 0xc0 = 0x80 ↔ InRange tail b := by
  have h : ∀ n : Fin 256, (n.val &&& 0xc0 = 0x80) ↔ 0x80 ≤ n.val ∧ n.val ≤ 0xBF := by decide +kernel
  exact h ⟨b.toNat, b.toNat_lt⟩

theorem shift_or (codepoint : Nat) (b : UInt8) :
    codepoint <<< 6 ||| (b.toNat &&& 0x3f) = codepoint * 64 + b.toNat % 64 := by
  have h : b.toNat &&& 0x3f = b.toNat % 64 := Nat.and_two_pow_sub_one_eq_mod b.toNat 6
  rw [h, ← Nat.shiftLeft_add_eq_or_of_lt (by omega : b.toNat % 64 < 2 ^ 6), Nat.shiftLeft_eq]

theorem continuations_eq_matched : ∀ left codepoint bytes,
    (continuations left codepoint bytes).1 = matched (List.replicate left tail) bytes
  | 0, _, _ => by simp [continuations, matched]
  | _ + 1, _, [] => by simp [continuations, matched]
  | left + 1, codepoint, byte :: rest => by
      rw [continuations, replicate_succ, matched]
      by_cases hb : InRange tail byte
      · rw [if_pos ((continuation_iff byte).mpr hb), if_pos hb, ← continuations_eq_matched left _ rest]
      · rw [if_neg (fun h => hb ((continuation_iff byte).mp h)), if_neg hb]

theorem continuations_bounds : ∀ left codepoint bytes, (continuations left codepoint bytes).1 = left →
      codepoint * 64 ^ left ≤ (continuations left codepoint bytes).2 ∧
        (continuations left codepoint bytes).2 < (codepoint + 1) * 64 ^ left
  | 0, _, _, _ => by simp [continuations]
  | _ + 1, _, [], h => by simp [continuations] at h
  | left + 1, codepoint, byte :: rest, h => by
      rw [continuations] at h ⊢
      split at h
      · next hb =>
        rw [if_pos hb]
        have ih := continuations_bounds left _ rest (Nat.succ.inj h)
        rw [shift_or] at ih ⊢
        have hlow : codepoint * 64 ^ (left + 1) ≤ (codepoint * 64 + byte.toNat % 64) * 64 ^ left := by
          rw [Nat.pow_succ, Nat.mul_comm (64 ^ left), ← Nat.mul_assoc]
          exact Nat.mul_le_mul_right _ (by omega)
        have hhigh : (codepoint * 64 + byte.toNat % 64 + 1) * 64 ^ left ≤ (codepoint + 1) * 64 ^ (left + 1) := by
          rw [Nat.pow_succ, Nat.mul_comm (64 ^ left), ← Nat.mul_assoc]
          exact Nat.mul_le_mul_right _ (by omega)
        exact ⟨Nat.le_trans hlow ih.1, Nat.lt_of_lt_of_le ih.2 hhigh⟩
      · simp at h

section Rows

variable {lead second : UInt8} {length bits minimum : Nat}

theorem row_eq_none_of_leadShape (hlead : ¬ lead.toNat ≤ 0x7f) (h : leadShape lead.toNat = none) :
    row lead = none := by
  unfold leadShape at h
  unfold row
  simp only at h ⊢
  split_ifs at h
  split_ifs <;> first | rfl | omega

theorem row_of_leadShape (hlead : ¬ lead.toNat ≤ 0x7f) (h : leadShape lead.toNat = some (length, bits, minimum)) :
    ∃ r, row lead = some (r :: List.replicate (length - 2) tail) ∧
      ∀ b, InRange r b ↔ InRange tail b ∧ ¬ Restricted lead b := by
  unfold leadShape at h
  unfold row Restricted
  simp only
  split_ifs at h with h2 h3 h4 <;> cases h
  all_goals
    split_ifs <;> first
      | omega
      | exact ⟨_, rfl, fun b => by simp only [InRange, tail]; omega⟩

theorem illFormed_iff {rest : List UInt8}
    (h : leadShape lead.toNat = some (length, bits, minimum)) (hsecond : InRange tail second)
    (hfull : (continuations (length - 1) bits (second :: rest)).1 + 1 = length) :
    IllFormed length minimum (continuations (length - 1) bits (second :: rest)) ↔ Restricted lead second := by
  have hlen := two_le_leadShape h
  obtain ⟨k, rfl⟩ : ∃ k, length = k + 2 := ⟨length - 2, by omega⟩
  have hstep : continuations (k + 2 - 1) bits (second :: rest) =
      ((continuations k (bits * 64 + second.toNat % 64) rest).1 + 1,
        (continuations k (bits * 64 + second.toNat % 64) rest).2) := by
    rw [show k + 2 - 1 = k + 1 by omega, continuations, if_pos ((continuation_iff second).mpr hsecond), shift_or]
  rw [hstep] at hfull ⊢
  have hb := continuations_bounds k _ rest (by simpa using hfull)
  unfold IllFormed Restricted
  unfold leadShape at h
  have h32 : lead.toNat &&& 0x1f = lead.toNat % 32 := Nat.and_two_pow_sub_one_eq_mod lead.toNat 5
  have h16 : lead.toNat &&& 0x0f = lead.toNat % 16 := Nat.and_two_pow_sub_one_eq_mod lead.toNat 4
  have h8 : lead.toNat &&& 0x07 = lead.toNat % 8 := Nat.and_two_pow_sub_one_eq_mod lead.toNat 3
  unfold InRange tail at hsecond
  split_ifs at h with h2 h3 h4 <;> cases h
  all_goals
    omega

end Rows

theorem unrestricted_cons {b : UInt8} (h : ∀ x, ¬ Restricted b x) (bytes : List UInt8) :
    Unrestricted (b :: bytes) ↔ Unrestricted bytes := by
  cases bytes with
  | nil => simp [Unrestricted]
  | cons c bytes => exact isChain_cons_cons.trans (and_iff_right (h c))

theorem unrestricted_drop : ∀ left bytes,
    Unrestricted bytes ↔ Unrestricted (bytes.drop (matched (List.replicate left tail) bytes))
  | 0, _ => by simp [matched]
  | _ + 1, [] => by simp [matched]
  | left + 1, b :: rest => by
      rw [replicate_succ, matched]
      split
      · next hb =>
        rw [drop_succ_cons, ← unrestricted_drop left rest]
        refine unrestricted_cons (fun x hx => ?_) rest
        unfold Restricted at hx
        unfold InRange tail at hb
        omega
      · simp

theorem length_decodeReplace_tails : ∀ left bytes,
    (decodeReplace bytes).length = 3 * matched (List.replicate left tail) bytes +
      (decodeReplace (bytes.drop (matched (List.replicate left tail) bytes))).length
  | 0, _ => by simp [matched]
  | _ + 1, [] => by simp [matched]
  | left + 1, b :: rest => by
      rw [replicate_succ, matched]
      split
      · next hb =>
        have hrow : row b = none := by
          unfold InRange tail at hb
          unfold row
          rw [if_neg (by omega), if_pos (by omega)]
        rw [decodeReplace, hrow, drop_succ_cons]
        simp only [length_append, length_decodeReplace_tails left rest]
        simp [replacement]
        omega
      · simp

section DecodeAll

variable {lead : UInt8} {rest : List UInt8} {length bits minimum : Nat}

theorem decodeAll_ascii (hlead : lead.toNat ≤ 0x7f) : decodeAll (lead :: rest) = lead :: decodeAll rest := by
  simp [decodeAll, decode_ascii hlead]

section
variable (hlead : ¬ lead.toNat ≤ 0x7f)
include hlead

theorem decodeAll_stray (hshape : leadShape lead.toNat = none) :
    decodeAll (lead :: rest) = replacement ++ decodeAll rest := by
  simp [decodeAll, decode_stray hlead hshape]

section
variable (hshape : leadShape lead.toNat = some (length, bits, minimum))
include hshape

theorem decodeAll_ill (hill : IllFormed length minimum (continuations (length - 1) bits rest)) :
    decodeAll (lead :: rest) = replacement ++ decodeAll (rest.drop (continuations (length - 1) bits rest).1) := by
  by_cases hwait : (continuations (length - 1) bits rest).1 + 1 < length ∧
      (continuations (length - 1) bits rest).1 = rest.length
  · -- the incomplete tail is replaced by `terminalize`, and nothing is behind it
    simp [decodeAll, decode_wait hlead hshape hwait, hwait.2, flush, decodeUtf8Prefix]
  rw [decodeAll, decode_ill hlead hshape hwait hill, decodeAll]
  simp only [append_assoc]
  rw [← Nat.add_assoc, drop_succ_cons, drop_drop, Nat.add_comm]

theorem decodeAll_well (hill : ¬ IllFormed length minimum (continuations (length - 1) bits rest)) :
    decodeAll (lead :: rest) = lead :: rest.take (length - 1) ++ decodeAll (rest.drop (length - 1)) := by
  have hlen := two_le_leadShape hshape
  rw [decodeAll, decode_well hlead hshape hill, decodeAll, append_assoc]
  rw [show ∀ c, c + length = c + (length - 1) + 1 by omega, drop_succ_cons, drop_drop, Nat.add_comm]

end

end

end DecodeAll

/-- The decoder never has more U+FFFD than the standard asks for, and fewer exactly when a
    restricted second byte was swallowed. -/
theorem decodeAll_spec (bytes : List UInt8) :
    (decodeAll bytes).length ≤ (decodeReplace bytes).length ∧
      (decodeAll bytes = decodeReplace bytes ↔ Unrestricted bytes) := by
  induction hn : bytes.length using Nat.strongRecOn generalizing bytes with
  | _ n ih =>
  subst hn
  match bytes with
  | [] => simp [decodeAll, decodeUtf8Prefix, flush, decodeReplace, Unrestricted]
  | lead :: rest =>
  have ihDrop : ∀ k, (decodeAll (rest.drop k)).length ≤ (decodeReplace (rest.drop k)).length ∧
      (decodeAll (rest.drop k) = decodeReplace (rest.drop k) ↔ Unrestricted (rest.drop k)) :=
    fun k => ih _ (by rw [length_drop, length_cons]; omega) _ rfl
  by_cases hlead : lead.toNat ≤ 0x7f
  · have hrow : row lead = some [] := by simp [row, hlead]
    have hfree : ∀ x, ¬ Restricted lead x := fun x hx => by unfold Restricted at hx; omega
    have := ihDrop 0
    rw [decodeAll_ascii hlead, decodeReplace, hrow, unrestricted_cons hfree]
    simpa [matched] using this
  cases hshape : leadShape lead.toNat with
  | none =>
    have hrow := row_eq_none_of_leadShape hlead hshape
    have hfree : ∀ x, ¬ Restricted lead x := fun x hx => by
      unfold leadShape at hshape
      unfold Restricted at hx
      split_ifs at hshape
      omega
    have := ihDrop 0
    rw [decodeAll_stray hlead hshape, decodeReplace, hrow, unrestricted_cons hfree]
    simpa using this
  | some shape =>
    obtain ⟨length, bits, minimum⟩ := shape
    have hlen := two_le_leadShape hshape
    obtain ⟨r, hrow, hr⟩ := row_of_leadShape hlead hshape
    have hrun := continuations_eq_matched (length - 1) bits rest
    have hrowLen : (r :: List.replicate (length - 2) tail).length = length - 1 := by simp; omega
    have htails : List.replicate (length - 1) tail = tail :: List.replicate (length - 2) tail := by
      rw [← replicate_succ]; congr 1; omega
    by_cases hfirst : ∃ second rest', rest = second :: rest' ∧ Restricted lead second
    · obtain ⟨second, rest', rfl, hres⟩ := hfirst
      have htail : InRange tail second := by unfold Restricted at hres; unfold InRange tail; omega
      have hnot : ¬ InRange r second := fun h => ((hr second).mp h).2 hres
      have hone : 1 ≤ (continuations (length - 1) bits (second :: rest')).1 := by
        rw [hrun, htails, matched, if_pos htail]
        omega
      have hill : IllFormed length minimum (continuations (length - 1) bits (second :: rest')) := by
        by_cases hfull : (continuations (length - 1) bits (second :: rest')).1 + 1 = length
        · exact (illFormed_iff hshape htail hfull).mpr hres
        have := continuations_le_left (length - 1) bits (second :: rest')
        exact .inl (by omega)
      have hspec : (decodeReplace (lead :: second :: rest')).length =
          3 + (decodeReplace (second :: rest')).length := by
        rw [decodeReplace, hrow]
        simp [matched, hnot, replacement]
        omega
      have hcode : (decodeAll (lead :: second :: rest')).length = 3 + (decodeAll ((second :: rest').drop
          (continuations (length - 1) bits (second :: rest')).1)).length := by
        rw [decodeAll_ill hlead hshape hill, length_append]
        rfl
      have hsame := length_decodeReplace_tails (length - 1) (second :: rest')
      rw [← hrun] at hsame
      have hle := (ihDrop (continuations (length - 1) bits (second :: rest')).1).1
      refine ⟨by omega, fun h => ?_, fun h => absurd hres (isChain_cons_cons.mp h).1⟩
      have := congrArg List.length h
      omega
    have hmatched : matched (r :: List.replicate (length - 2) tail) rest =
        (continuations (length - 1) bits rest).1 := by
      rw [hrun, htails]
      cases rest with
      | nil => rfl
      | cons second rest' =>
        have hsecond : ¬ Restricted lead second := fun h => hfirst ⟨second, rest', rfl, h⟩
        rw [matched, matched]
        simp only [hr second, and_iff_left hsecond]
    have hchain : Unrestricted (lead :: rest) ↔
        Unrestricted (rest.drop (continuations (length - 1) bits rest).1) := by
      rw [hrun, ← unrestricted_drop]
      cases rest with
      | nil => simp [Unrestricted]
      | cons second rest' =>
        exact isChain_cons_cons.trans (and_iff_right fun h => hfirst ⟨second, rest', rfl, h⟩)
    have ihRun := ihDrop (continuations (length - 1) bits rest).1
    have hleft := continuations_le_left (length - 1) bits rest
    rw [hchain, decodeReplace, hrow]
    simp only [hmatched, hrowLen]
    by_cases hfull : (continuations (length - 1) bits rest).1 + 1 = length
    · have hill : ¬ IllFormed length minimum (continuations (length - 1) bits rest) := by
        cases rest with
        | nil => simp [continuations] at hfull; omega
        | cons second rest' =>
          have htail : InRange tail second := by
            by_contra h
            rw [hrun, htails, matched, if_neg h] at hfull
            omega
          rw [illFormed_iff hshape htail hfull]
          exact fun h => hfirst ⟨second, rest', rfl, h⟩
      have heq : (continuations (length - 1) bits rest).1 = length - 1 := by omega
      rw [decodeAll_well hlead hshape hill, if_pos heq]
      rw [heq] at ihRun ⊢
      simpa using ihRun
    rw [decodeAll_ill hlead hshape (.inl (by omega)), if_neg (by omega)]
    simpa using ihRun

/-- Whatever the pieces, the published text is the one decoding with `errors="replace"` gives,
    exactly when no restricted second byte follows its lead byte. -/
theorem streamText_eq_decodeReplace_iff (pieces : List (List UInt8)) :
    streamText [] pieces = decodeReplace pieces.flatten ↔ Unrestricted pieces.flatten := by
  rw [streamText_eq [] pieces (by simp [decodeUtf8Prefix]), nil_append]
  exact (decodeAll_spec _).2

/-- The three bytes that would encode U+D800 are three ill-formed subparts and one U+FFFD here. -/
theorem surrogate_one_replacement :
    streamText [] [[0xED, 0xA0, 0x80]] = replacement ∧
      decodeReplace [0xED, 0xA0, 0x80] = replacement ++ replacement ++ replacement ∧
      streamText [] [[0xED, 0xA0, 0x80]] ≠ decodeReplace [0xED, 0xA0, 0x80] := by
  decide +kernel

theorem continuations_take (more : List UInt8) : ∀ left codepoint bytes,
    (continuations left codepoint bytes).1 = left →
      continuations left codepoint (bytes.take left ++ more) = continuations left codepoint bytes
  | 0, _, _, _ => rfl
  | _ + 1, _, [], h => by simp [continuations] at h
  | left + 1, codepoint, byte :: rest, h => by
      rw [continuations] at h ⊢
      rw [take_succ_cons, cons_append, continuations]
      split at h
      · next hb =>
        rw [if_pos hb, if_pos hb, continuations_take more left _ rest (by simpa using h)]
      · simp at h

theorem decodeAll_replacement (text : List UInt8) : decodeAll (replacement ++ text) = replacement ++ decodeAll text :=
  decodeAll_well (show ¬ (0xEF : UInt8).toNat ≤ 0x7f by decide) rfl (by simp [IllFormed, continuations])

theorem decodeAll_decodeAll (bytes : List UInt8) : decodeAll (decodeAll bytes) = decodeAll bytes := by
  induction hn : bytes.length using Nat.strongRecOn generalizing bytes with
  | _ n ih =>
  subst hn
  cases bytes with
  | nil => simp [decodeAll, decodeUtf8Prefix, flush]
  | cons lead rest =>
  have ihDrop : ∀ k, decodeAll (decodeAll (rest.drop k)) = decodeAll (rest.drop k) :=
    fun k => ih _ (by rw [length_drop, length_cons]; omega) _ rfl
  by_cases hlead : lead.toNat ≤ 0x7f
  · rw [decodeAll_ascii hlead, decodeAll_ascii hlead]
    exact congrArg _ (ihDrop 0)
  cases hshape : leadShape lead.toNat with
  | none =>
    rw [decodeAll_stray hlead hshape, decodeAll_replacement]
    exact congrArg _ (ihDrop 0)
  | some shape =>
    obtain ⟨length, bits, minimum⟩ := shape
    by_cases hill : IllFormed length minimum (continuations (length - 1) bits rest)
    · rw [decodeAll_ill hlead hshape hill, decodeAll_replacement, ihDrop]
    have hle := continuations_le_left (length - 1) bits rest
    have hbytes := continuations_le_bytes (length - 1) bits rest
    have hfull : (continuations (length - 1) bits rest).1 = length - 1 := by
      unfold IllFormed at hill
      omega
    have htake : (rest.take (length - 1)).length = length - 1 := length_take_of_le (by omega)
    rw [decodeAll_well hlead hshape hill, cons_append, decodeAll_well hlead hshape
      (by rwa [continuations_take _ _ _ _ hfull]), take_left' htake, drop_left' htake, ihDrop]
    rfl

/-- The published text is well formed: the decoder, fed it again, publishes it unchanged. -/
theorem streamText_unchanged (pieces : List (List UInt8)) :
    streamText [] [streamText [] pieces] = streamText [] pieces := by
  rw [streamText_eq [] _ (by simp [decodeUtf8Prefix]), streamText_eq [] pieces (by simp [decodeUtf8Prefix])]
  simpa using decodeAll_decodeAll pieces.flatten

end VoidInfer.Frontend
