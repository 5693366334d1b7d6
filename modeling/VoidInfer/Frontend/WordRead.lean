import VoidInfer.Frontend.WordSplit

/-
  What `utf8_codepoint_at` and the loops of `qwen_word_end` do on the UTF-8 of a list of code points, from where one of
  them begins.
-/

namespace VoidInfer.Frontend
open Pattern List

/-! ## Reading what was encoded -/

section
variable (n : Nat)

theorem toNat_cont : (UInt8.ofNat (n % 64 + 128)).toNat = n % 64 + 128 := by
  rw [UInt8.toNat_ofNat']
  omega

theorem utfCont_cont : utfCont (UInt8.ofNat (n % 64 + 128)) = true := by
  have hall : ∀ x < 64, (x + 128) &&& 0xc0 = 0x80 := by decide
  rw [utfCont, toNat_cont, decide_eq_true_eq]
  exact hall _ (Nat.mod_lt _ (by omega))

theorem bits_cont : (UInt8.ofNat (n % 64 + 128)).toNat &&& 0x3f = n % 64 := by
  rw [toNat_cont]
  exact (Nat.and_two_pow_sub_one_eq_mod _ 6).trans (by omega)

end

section
variable {x y z w : Nat}

theorem or_two (hy : y < 64) : x <<< 6 ||| y = x * 64 + y := by
  rw [← Nat.shiftLeft_add_eq_or_of_lt (by omega : y < 2 ^ 6), Nat.shiftLeft_eq]

theorem or_three (hy : y < 64) (hz : z < 64) : x <<< 12 ||| y <<< 6 ||| z = x * 4096 + y * 64 + z := by
  have hlow : y <<< 6 < 2 ^ 12 := by
    omega
  have hhigh : x <<< 12 ||| y <<< 6 = (x * 64 + y) <<< 6 := by
    rw [← Nat.shiftLeft_add_eq_or_of_lt hlow]
    omega
  rw [hhigh, or_two hz]
  omega

theorem or_four (hy : y < 64) (hz : z < 64) (hw : w < 64) :
    x <<< 18 ||| y <<< 12 ||| z <<< 6 ||| w = x * 262144 + y * 4096 + z * 64 + w := by
  have hlow : y <<< 12 < 2 ^ 18 := by
    omega
  have hhigh : x <<< 18 ||| y <<< 12 = (x * 64 + y) <<< 12 := by
    rw [← Nat.shiftLeft_add_eq_or_of_lt hlow]
    omega
  rw [hhigh, or_three hz hw]
  omega

end

/-- `utf8proc_iterate` reads an encoded code point. -/
theorem utf8procIterate_encode (c : Char) (more : List UInt8) :
    utf8procIterate (String.utf8EncodeChar c ++ more) = .codepoint c.toNat c.utf8Size := by
  rw [← String.length_utf8EncodeChar]
  have hvalid : c.val.toNat < 0xd800 ∨ 0xdfff < c.val.toNat ∧ c.val.toNat < 0x110000 := c.valid
  have hvalue : c.toNat = c.val.toNat := rfl
  rw [hvalue]
  simp only [String.utf8EncodeChar]
  generalize c.val.toNat = v at hvalid ⊢
  by_cases h1 : v ≤ 0x7f
  · have hlead : (UInt8.ofNat v).toNat = v := UInt8.toNat_ofNat_of_lt (by show v < 256; omega)
    unfold utf8procIterate
    simp only [if_pos h1, cons_append, nil_append, hlead, length_singleton]
    rw [if_pos (by omega)]
  by_cases h2 : v ≤ 0x7ff
  · have hlead : (UInt8.ofNat (v / 64 % 0x20 + 0xc0)).toNat = v / 64 + 0xc0 := by
      rw [UInt8.toNat_ofNat']
      omega
    have hbits : (v / 64 + 0xc0) &&& 0x1f = v / 64 :=
      (Nat.and_two_pow_sub_one_eq_mod _ 5).trans (by omega)
    unfold utf8procIterate
    simp only [if_neg h1, if_pos h2, cons_append, nil_append, hlead, utfCont_cont,
      bits_cont, hbits, length_cons, length_nil]
    rw [if_neg (by omega), if_neg (by rw [leadOutOfRange_iff (by omega)]; omega), if_pos (by omega), if_neg (by simp),
      or_two (Nat.mod_lt _ (by omega))]
    congr 1
    omega
  by_cases h3 : v ≤ 0xffff
  · have hlead : (UInt8.ofNat (v / 4096 % 0x10 + 0xe0)).toNat = v / 4096 + 0xe0 := by
      rw [UInt8.toNat_ofNat']
      omega
    have hbits : (v / 4096 + 0xe0) &&& 0xf = v / 4096 :=
      (Nat.and_two_pow_sub_one_eq_mod _ 4).trans (by omega)
    have hfirst := toNat_cont (v / 64)
    unfold utf8procIterate
    simp only [if_neg h1, if_neg h2, if_pos h3, cons_append, nil_append, hlead,
      utfCont_cont, bits_cont, hbits, length_cons, length_nil]
    rw [if_neg (by omega), if_neg (by rw [leadOutOfRange_iff (by omega)]; omega), if_neg (by omega),
      if_pos (by omega), if_neg (by simp),
      or_three (Nat.mod_lt _ (by omega)) (Nat.mod_lt _ (by omega)), if_neg (by omega), if_neg (by omega)]
    congr 1
    omega
  have hlead : (UInt8.ofNat (v / 262144 % 0x08 + 0xf0)).toNat = v / 262144 + 0xf0 := by
    rw [UInt8.toNat_ofNat']
    omega
  have hbits : (v / 262144 + 0xf0) &&& 7 = v / 262144 :=
    (Nat.and_two_pow_sub_one_eq_mod _ 3).trans (by omega)
  have hfirst := toNat_cont (v / 4096)
  unfold utf8procIterate
  simp only [if_neg h1, if_neg h2, if_neg h3, cons_append, nil_append, hlead,
    utfCont_cont, bits_cont, hbits, length_cons, length_nil]
  rw [if_neg (by omega), if_neg (by rw [leadOutOfRange_iff (by omega)]; omega), if_neg (by omega),
    if_neg (by omega), if_neg (by simp),
    if_neg (by omega), if_neg (by omega),
    or_four (Nat.mod_lt _ (by omega)) (Nat.mod_lt _ (by omega)) (Nat.mod_lt _ (by omega))]
  congr 1
  omega

/-- The UTF-8 of a text. -/
def utf8 (chars : List Char) : List UInt8 := chars.flatMap String.utf8EncodeChar

@[simp] theorem utf8_nil : utf8 [] = [] := rfl

@[simp] theorem utf8_cons (c : Char) (chars : List Char) :
    utf8 (c :: chars) = String.utf8EncodeChar c ++ utf8 chars := rfl

@[simp] theorem utf8_append (chars more : List Char) : utf8 (chars ++ more) = utf8 chars ++ utf8 more :=
  flatMap_append

/-! ## The loops over a class -/

section
variable (category : Nat → Category) (p : Nat → Bool) (before after rest : List Char) (c : Char)

theorem utf8_drop : (utf8 (before ++ after)).drop (utf8 before).length = utf8 after := by
  rw [utf8_append, drop_left]

theorem lt_utf8_length : (utf8 before).length < (utf8 (before ++ c :: after)).length := by
  have := c.utf8Size_pos
  simp only [utf8_append, utf8_cons, length_append, String.length_utf8EncodeChar]
  omega

theorem codepointAt_utf8 : qwenCodepointAt (utf8 (before ++ c :: after)) (utf8 before).length =
    .ok ⟨c.toNat, (utf8 before).length, c.utf8Size⟩ := by
  have hlt := lt_utf8_length before after c
  rw [qwenCodepointAt, utf8CodepointAt, if_neg (by omega), utf8_drop, utf8_cons, utf8procIterate_encode]

theorem utf8_snoc_length : (utf8 (before ++ [c])).length = (utf8 before).length + c.utf8Size := by
  simp

end

theorem skipWhile_step {p : Nat → Bool} {text : List UInt8} {finish : Nat} {span : CodepointSpan}
    (hlt : finish < text.length) (hspan : qwenCodepointAt text finish = .ok span) :
    skipWhile p text finish =
      if !p span.value then .ok finish else skipWhile p text (finish + span.length) := by
  rw [skipWhile, dif_pos hlt]
  split
  · next h => rw [hspan] at h; cases h
  · next h => rw [hspan] at h; cases h; rfl

theorem skipWhile_utf8 (p : Nat → Bool) (before after : List Char) :
    skipWhile p (utf8 (before ++ after)) (utf8 before).length =
      .ok (utf8 (before ++ after.takeWhile fun c => p c.toNat)).length := by
  induction after generalizing before with
  | nil =>
    rw [skipWhile, dif_neg (by simp)]
    simp
  | cons c after ih =>
    rw [skipWhile_step (lt_utf8_length before after c) (codepointAt_utf8 before after c)]
    cases hp : p c.toNat with
    | false => simp [hp]
    | true =>
      have := ih (before ++ [c])
      rw [utf8_snoc_length, append_assoc, append_assoc, singleton_append, singleton_append] at this
      rw [takeWhile_cons]
      simp only [hp]
      exact this

theorem whitespaceLoop_step {category : Nat → Category} {text : List UInt8} {run : WhitespaceRun}
    {span : CodepointSpan} (hlt : run.finish < text.length)
    (hspan : qwenCodepointAt text run.finish = .ok span) :
    whitespaceLoop category text run =
      if !isWhitespace category span.value then .ok run
      else whitespaceLoop category text (whitespaceStep run span) := by
  rw [whitespaceLoop, dif_pos hlt]
  split
  · next h => rw [hspan] at h; cases h
  · next h => rw [hspan] at h; cases h; rfl

/-- The variables after a run of whitespace. -/
def runOver (run : WhitespaceRun) (chars : List Char) : WhitespaceRun :=
  chars.foldl (fun run c => whitespaceStep run ⟨c.toNat, run.finish, c.utf8Size⟩) run

section
variable {category : Nat → Category} {run : WhitespaceRun} {chars before rest : List Char} {c n : Char}

theorem whitespaceLoop_utf8 (run : WhitespaceRun) (before : List Char) (hstart : run.finish = (utf8 before).length)
    (hspace : ∀ c ∈ chars, spaceChar category c = true)
    (hrest : ∀ c ∈ rest.head?, spaceChar category c = false) :
    whitespaceLoop category (utf8 (before ++ (chars ++ rest))) run = .ok (runOver run chars) := by
  induction chars generalizing before run with
  | nil =>
    cases rest with
    | nil =>
      rw [whitespaceLoop, dif_neg (by simp [hstart])]
      rfl
    | cons d rest =>
      have hread := codepointAt_utf8 before rest d
      rw [← hstart] at hread
      rw [nil_append, whitespaceLoop_step (by rw [hstart]; exact lt_utf8_length before rest d) hread]
      have hd : isWhitespace category d.toNat = false := hrest d rfl
      simp [hd, runOver]
  | cons c chars ih =>
    have hread := codepointAt_utf8 before (chars ++ rest) c
    rw [← hstart] at hread
    rw [cons_append, whitespaceLoop_step (by rw [hstart]; exact lt_utf8_length before _ c) hread]
    have hc : isWhitespace category c.toNat = true := hspace c mem_cons_self
    have := ih (whitespaceStep run ⟨c.toNat, run.finish, c.utf8Size⟩) _
      (by rw [utf8_snoc_length, ← hstart]; rfl) (fun d hd => hspace d (mem_cons_of_mem c hd))
    rw [append_assoc, singleton_append] at this
    rw [hc]
    exact this

@[simp] theorem runOver_finish : (runOver run chars).finish = run.finish + (utf8 chars).length := by
  induction chars generalizing run with
  | nil => rfl
  | cons c chars ih =>
    rw [runOver, foldl_cons, ← runOver, ih, utf8_cons, length_append, String.length_utf8EncodeChar]
    simp only [whitespaceStep]
    omega

@[simp] theorem runOver_count : (runOver run chars).count = run.count + chars.length := by
  induction chars generalizing run with
  | nil => rfl
  | cons c chars ih =>
    rw [runOver, foldl_cons, ← runOver, ih, length_cons]
    simp only [whitespaceStep]
    omega

theorem isNewline_toNat : isNewline c.toNat = newlineChar c := by
  rw [isNewline, newlineChar, Bool.eq_iff_iff]
  simp only [Bool.or_eq_true, beq_iff_eq]
  exact or_congr ⟨fun h => Char.toNat_inj.mp h, fun h => h ▸ rfl⟩ ⟨fun h => Char.toNat_inj.mp h, fun h => h ▸ rfl⟩

theorem runOver_lastBegin (h : chars ≠ []) :
    (runOver run chars).lastBegin = run.finish + (utf8 chars.dropLast).length := by
  induction chars generalizing run with
  | nil => exact absurd rfl h
  | cons c chars ih =>
    rw [runOver, foldl_cons, ← runOver]
    cases chars with
    | nil => simp [runOver, whitespaceStep]
    | cons d chars =>
      rw [ih (cons_ne_nil _ _), dropLast_cons_of_ne_nil (cons_ne_nil _ _), utf8_cons,
        length_append, String.length_utf8EncodeChar]
      simp only [whitespaceStep]
      omega

theorem runOver_lastNewline : (runOver run chars).lastNewlineEnd =
    match uptoLast newlineChar chars with
    | some found => some (run.finish + (utf8 found).length)
    | none => run.lastNewlineEnd := by
  induction chars generalizing run with
  | nil => rfl
  | cons c chars ih =>
    rw [runOver, foldl_cons, ← runOver, ih, uptoLast]
    cases uptoLast newlineChar chars with
    | some found =>
      simp only [whitespaceStep, utf8_cons, length_append, String.length_utf8EncodeChar]
      congr 1
      omega
    | none =>
      simp only [whitespaceStep, isNewline_toNat]
      cases newlineChar c <;> simp

end

end VoidInfer.Frontend
