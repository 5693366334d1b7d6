import VoidInfer.Frontend.WordRead

/-
  The word at a position, over code points: what the branches of `qwen_word_end` take, and that the pattern's preferred
  match is the same.
-/

namespace VoidInfer.Frontend
open Pattern List Option

/-! ## Contractions -/

theorem startsWith_eq {same : UInt8 → UInt8 → Bool} (suffix text : List UInt8)
    (hsame : ∀ a b, same a b = (toLower b == toLower a)) :
    startsWith same suffix text =
      (decide (suffix.length ≤ text.length) && (text.take suffix.length).map toLower == suffix.map toLower) := by
  induction suffix generalizing text with
  | nil => simp [startsWith]
  | cons b suffix ih =>
    cases text with
    | nil => simp [startsWith]
    | cons x text =>
      rw [startsWith, hsame, ih]
      simp only [length_cons, Nat.succ_le_succ_iff, take_succ_cons, map_cons, cons_beq_cons]
      cases decide (suffix.length ≤ text.length) <;> simp

theorem asciiCiMatches_eq {text : List UInt8} {offset : Nat} (suffix : List UInt8) (h : offset ≤ text.length) :
    asciiCiMatches text offset suffix = startsWith (fun a b => toLower b == toLower a) suffix (text.drop offset) := by
  rw [startsWith_eq suffix _ fun _ _ => rfl, asciiCiMatches, length_drop]
  by_cases hfit : offset + suffix.length > text.length
  · rw [if_pos hfit, decide_eq_false (by omega), Bool.false_and]
  · rw [if_neg hfit, decide_eq_true (by omega), Bool.true_and]

variable {c letter : Char}

theorem utf8EncodeChar_ascii (h : c.toNat < 0x80) : String.utf8EncodeChar c = [c.toUInt8] := by
  have hle : c.val.toNat ≤ 0x7f := Nat.le_of_lt_succ h
  unfold String.utf8EncodeChar
  rw [if_pos hle]
  rfl

theorem utf8EncodeChar_other (h : 0x80 ≤ c.toNat) :
    ∃ b rest, String.utf8EncodeChar c = b :: rest ∧ 0x80 ≤ b.toNat := by
  have hnot : ¬ c.val.toNat ≤ 0x7f := Nat.not_le.mpr h
  unfold String.utf8EncodeChar
  rw [if_neg hnot]
  split_ifs
  · refine ⟨_, _, rfl, ?_⟩
    rw [UInt8.toNat_ofNat']
    omega
  · refine ⟨_, _, rfl, ?_⟩
    rw [UInt8.toNat_ofNat']
    omega
  refine ⟨_, _, rfl, ?_⟩
  rw [UInt8.toNat_ofNat']
  omega

/-- A small letter of ASCII. -/
def IsSmall (c : Char) : Prop := 0x61 ≤ c.toNat ∧ c.toNat ≤ 0x7a

theorem toUInt8_toNat (h : c.toNat < 0x80) : c.toUInt8.toNat = c.toNat := by
  exact UInt8.toNat_ofNat_of_lt (Nat.lt_trans h (by decide))

theorem toLower_toNat (byte : UInt8) :
    (toLower byte).toNat = if 0x41 ≤ byte.toNat ∧ byte.toNat ≤ 0x5a then byte.toNat + 0x20 else byte.toNat := by
  rw [toLower]
  split
  · rw [UInt8.toNat_ofNat']
    omega
  · rfl

theorem isUpper_iff : c.isUpper = true ↔ 0x41 ≤ c.toNat ∧ c.toNat ≤ 0x5a := by
  refine decide_eq_true_iff.trans ?_
  rw [ge_iff_le, UInt32.le_iff_toNat_le, UInt32.le_iff_toNat_le]
  rfl

theorem sameAscii_iff : sameAscii letter c = true ↔
    letter.toNat = c.toNat ∨ letter.toNat = c.toNat + 0x20 ∧ 0x41 ≤ c.toNat ∧ c.toNat ≤ 0x5a := by
  simp only [sameAscii, Bool.or_eq_true, Bool.and_eq_true, beq_iff_eq, isUpper_iff]

theorem toLower_eq_iff (hsmall : IsSmall letter) (byte : UInt8) :
    toLower byte = toLower letter.toUInt8 ↔
      letter.toNat = byte.toNat ∨ letter.toNat = byte.toNat + 0x20 ∧ 0x41 ≤ byte.toNat ∧ byte.toNat ≤ 0x5a := by
  obtain ⟨h1, h2⟩ := hsmall
  have hletter : (toLower letter.toUInt8).toNat = letter.toNat := by
    rw [toLower_toNat, toUInt8_toNat (by omega), if_neg (by omega)]
  rw [← UInt8.toNat_inj, hletter, toLower_toNat]
  split <;> omega

theorem startsWith_utf8 {suffix : List Char} (hsmall : ∀ c ∈ suffix, IsSmall c) (text : List Char) :
    startsWith (fun a b => toLower b == toLower a) (suffix.map Char.toUInt8) (utf8 text) =
      startsWith sameAscii suffix text := by
  induction suffix generalizing text with
  | nil => rfl
  | cons letter suffix ih =>
    have hletter := hsmall letter mem_cons_self
    cases text with
    | nil => rfl
    | cons c text =>
      have ih := ih (fun d hd => hsmall d (mem_cons_of_mem _ hd)) text
      rcases Nat.lt_or_ge c.toNat 0x80 with hascii | hother
      · rw [utf8_cons, utf8EncodeChar_ascii hascii, singleton_append, map_cons, startsWith, startsWith, ih]
        congr 1
        rw [Bool.eq_iff_iff, beq_iff_eq, toLower_eq_iff hletter, sameAscii_iff, toUInt8_toNat hascii]
      obtain ⟨b, rest, hencode, hb⟩ := utf8EncodeChar_other hother
      have hbyte : (toLower b == toLower letter.toUInt8) = false := by
        rw [beq_eq_false_iff_ne, Ne, toLower_eq_iff hletter]
        unfold IsSmall at hletter
        omega
      have hchar : sameAscii letter c = false := by
        rw [Bool.eq_false_iff, Ne, sameAscii_iff]
        unfold IsSmall at hletter
        omega
      rw [utf8_cons, hencode, cons_append, map_cons, startsWith, startsWith, hbyte, hchar]
      rfl

theorem suffixes_small : ∀ suffix ∈ suffixes, ∀ c ∈ suffix, IsSmall c := by
  simp [suffixes, IsSmall]

theorem find_suffix (before after : List Char) (c : Char) :
    suffixes.find? (fun suffix => asciiCiMatches (utf8 (before ++ c :: after)) ((utf8 before).length + c.utf8Size)
      (suffix.map Char.toUInt8)) = suffixes.find? (startsWith sameAscii · after) := by
  rw [← head?_filter, ← head?_filter]
  refine congrArg List.head? (filter_congr fun suffix hsuffix => ?_)
  have hdrop : (utf8 (before ++ c :: after)).drop ((utf8 before).length + c.utf8Size) = utf8 after := by
    have := utf8_drop (before ++ [c]) after
    rwa [utf8_snoc_length, append_assoc] at this
  rw [asciiCiMatches_eq _ (by simp), hdrop, startsWith_utf8 (suffixes_small suffix hsuffix)]

theorem map_find? {α β : Type} (q : α → Bool) (f : α → β) (l : List α) :
    (l.find? q).map f = l.findSome? fun a => if q a then some (f a) else none := by
  induction l with
  | nil => rfl
  | cons a l ih =>
    rw [find?_cons, findSome?_cons]
    cases q a with
    | false => simpa using ih
    | true => rfl

theorem first_contractions (same : Char → Char → Bool) (c : Char) (text : List Char) :
    first (contractions same) (c :: text) =
      if same '\'' c then (suffixes.find? (startsWith same · text)).map fun suffix => text.drop suffix.length
      else none := by
  rw [contractions, first_oneOf]
  change (suffixes.map (literal same '\'')).findSome? _ = _
  rw [findSome?_map, map_find?]
  simp only [Function.comp_def, first_literal, startsWith, drop_succ_cons]
  cases same '\'' c with
  | false => simp
  | true => simp

theorem sameAscii_quote (c : Char) : sameAscii '\'' c = true ↔ c.toNat = 0x27 := by
  rw [sameAscii_iff]
  simp only [show '\''.toNat = 0x27 from rfl]
  omega

/-! ## The word, over code points -/

section
variable (category : Nat → Category)

/-- The word of a run of whitespace. -/
def whitespaceWord (c : Char) (after : List Char) : List Char :=
  let run := c :: after.takeWhile (spaceChar category)
  match uptoLast newlineChar run with
  | some found => found
  | none =>
    if after.dropWhile (spaceChar category) = [] then run
    else if run.length ≥ 2 then run.dropLast else run

/-- The word at the start of a text, as the branches of `qwen_word_end` find it; `none` where none of them is taken. -/
def wordOf (c : Char) (after : List Char) : Option (List Char) :=
  match (if c = '\'' then suffixes.find? (startsWith sameAscii · after) else none) with
  | some suffix => some (c :: after.take suffix.length)
  | none =>
    if letterMarkChar category c || (prefixChar category c && after.head?.any (letterMarkChar category)) then
      some (c :: after.takeWhile (letterMarkChar category))
    else if numberChar category c then some [c]
    else if (c == ' ' && after.head?.any (symbolChar category)) || symbolChar category c then
      some (c :: (after.takeWhile (symbolChar category) ++
        (after.dropWhile (symbolChar category)).takeWhile newlineChar))
    else if spaceChar category c then some (whitespaceWord category c after)
    else none

variable (c : Char) (after : List Char)

theorem isLetterOrMark_toNat : isLetterOrMark category c.toNat = letterMarkChar category c := rfl

theorem isNonNewlineNonLetterNonNumber_toNat :
    isNonNewlineNonLetterNonNumber category c.toNat = prefixChar category c := by
  rw [isNonNewlineNonLetterNonNumber, prefixChar, isNewline_toNat, Bool.not_or, Bool.not_or]
  rfl

theorem isNonSpaceNonLetterMarkNumber_toNat :
    isNonSpaceNonLetterMarkNumber category c.toNat = symbolChar category c := by
  rw [isNonSpaceNonLetterMarkNumber, symbolChar, letterMarkChar, Bool.not_or, Bool.not_or, Bool.not_or,
    ← Bool.and_assoc]
  rfl

variable {category c after}

theorem space_of_newline (h : newlineChar c = true) : spaceChar category c = true := by
  rw [newlineChar, Bool.or_eq_true, beq_iff_eq, beq_iff_eq] at h
  rcases h with rfl | rfl <;> rfl

theorem wordOf_isSome (category : Nat → Category) (c : Char) (after : List Char) :
    (wordOf category c after).isSome = true := by
  unfold wordOf
  split
  · rfl
  split_ifs with h1 h2 h3 h4
  · rfl
  · rfl
  · rfl
  · rfl
  rw [Bool.or_eq_true, not_or] at h1 h3
  refine absurd ?_ h3.2
  rw [symbolChar, Bool.eq_false_iff.mpr h4, Bool.eq_false_iff.mpr h1.1, Bool.eq_false_iff.mpr h2]
  rfl

theorem cons_prefix {more : List Char} (h : more <+: after) : c :: more ≠ [] ∧ c :: more <+: c :: after :=
  ⟨cons_ne_nil _ _, (prefix_cons_inj c).mpr h⟩

theorem whitespaceWord_prefix :
    whitespaceWord category c after ≠ [] ∧ whitespaceWord category c after <+: c :: after := by
  have hrun := cons_prefix (c := c) <| takeWhile_prefix (l := after) (spaceChar category)
  unfold whitespaceWord
  dsimp only
  split
  · next hfound =>
    have hcut := uptoLast_prefix hfound
    exact ⟨hcut.1, hcut.2.trans hrun.2⟩
  split_ifs with hend hlong
  · exact hrun
  · have hdrop := dropLast_prefix (c :: takeWhile (spaceChar category) after)
    refine ⟨?_, hdrop.trans hrun.2⟩
    rw [← length_pos_iff, length_dropLast]
    omega
  · exact hrun

variable {word : List Char}

theorem wordOf_prefix (h : wordOf category c after = some word) : word ≠ [] ∧ word <+: c :: after := by
  unfold wordOf at h
  split at h
  · cases h
    exact cons_prefix <| take_prefix _ _
  split_ifs at h with h1 h2 h3 h4
  · cases h
    exact cons_prefix <| takeWhile_prefix _
  · cases h
    exact cons_prefix nil_prefix
  · cases h
    refine cons_prefix ?_
    conv => rhs; rw [← takeWhile_append_dropWhile (p := symbolChar category) (l := after)]
    exact (prefix_append_right_inj _).mpr <| takeWhile_prefix _
  cases h
  exact whitespaceWord_prefix

/-! ## The pattern finds it -/

theorem first_letters : first (.seq (.opt (.one (prefixChar category))) (plus (letterMarkChar category))) (c :: after) =
    if letterMarkChar category c || (prefixChar category c && after.head?.any (letterMarkChar category)) then
      some (after.dropWhile (letterMarkChar category))
    else none := by
  rw [first_opt_run (q := letterMarkChar category) (g := List.dropWhile (letterMarkChar category)) rfl
    fun c text => first_plus _ _ _]
  cases after with
  | nil => cases prefixChar category c <;> cases letterMarkChar category c <;> simp
  | cons d after =>
    by_cases hd : letterMarkChar category d = true
    · cases prefixChar category c <;> cases letterMarkChar category c <;> simp [hd]
    · cases letterMarkChar category c <;> simp [hd]

theorem first_symbols : first (.seq (.opt (.one (· == ' '))) (.seq (plus (symbolChar category)) (.many newlineChar)))
      (c :: after) =
    if (c == ' ' && after.head?.any (symbolChar category)) || symbolChar category c then
      some ((after.dropWhile (symbolChar category)).dropWhile newlineChar)
    else none := by
  rw [first_opt_run (q := symbolChar category)
    (g := fun text => (text.dropWhile (symbolChar category)).dropWhile newlineChar) ?_ ?_]
  · cases after with
    | nil => cases c == ' ' <;> simp
    | cons d after =>
      by_cases hd : symbolChar category d = true
      · by_cases hc : (c == ' ') = true
        · simp [hc, hd]
        · simp [hc, hd]
      · by_cases hc : (c == ' ') = true <;> simp [hc, hd]
  · rfl
  intro c text
  rw [first_seq_many, first_plus]
  split <;> rfl

theorem drop_length_of_append {l a b : List Char} (h : l = a ++ b) : l.drop a.length = b := by
  rw [h, drop_left]

theorem first_whitespace (hspace : spaceChar category c = true) :
    (first (.seq (.many (spaceChar category)) (plus newlineChar)) (c :: after)).or
      ((first (.seq (plus (spaceChar category)) (.notAhead fun c => !spaceChar category c)) (c :: after)).or
        (first (plus (spaceChar category)) (c :: after))) =
      some ((c :: after).drop (whitespaceWord category c after).length) := by
  rw [first_many_plus fun _ => space_of_newline, first_plus_seq, first_many_notAhead, first_plus, if_pos hspace,
    if_pos hspace, takeWhile_cons_of_pos hspace, whitespaceWord]
  have hsplit := (takeWhile_append_dropWhile (p := spaceChar category) (l := after)).symm
  cases uptoLast newlineChar _ with
  | some found => simp
  | none =>
    rw [map_none, none_or]
    by_cases hend : after.dropWhile (spaceChar category) = []
    · rw [if_pos hend, if_pos hend, some_or, length_cons, drop_succ_cons, drop_length_of_append hsplit, hend]
    rw [if_neg hend, if_neg hend]
    cases hrun : after.takeWhile _ with
    | nil =>
      rw [hrun, nil_append] at hsplit
      simp [← hsplit]
    | cons d run => simp

theorem first_qwenPattern (h : wordOf category c after = some word) :
    first (qwenPattern sameAscii category) (c :: after) = some ((c :: after).drop word.length) := by
  have hcontraction : first (contractions sameAscii) (c :: after) =
      (if c = '\'' then suffixes.find? (startsWith sameAscii · after) else none).map
        fun suffix => after.drop suffix.length := by
    rw [first_contractions]
    by_cases hquote : c = '\''
    · rw [if_pos ((sameAscii_quote c).mpr (congrArg Char.toNat hquote)), if_pos hquote]
    rw [if_neg fun h => hquote (Char.toNat_inj.mp ((sameAscii_quote c).mp h)), if_neg hquote]
    rfl
  simp only [qwenPattern, oneOf, first_alt, hcontraction, first_letters, first_symbols, first_one]
  unfold wordOf at h
  split at h
  · next suffix hsuffix =>
    cases h
    rw [hsuffix, map_some, some_or, length_cons, drop_succ_cons, length_take]
    rcases Nat.le_total suffix.length after.length with hle | hle
    · rw [Nat.min_eq_left hle]
    · rw [Nat.min_eq_right hle, drop_of_length_le hle, drop_length]
  next hnone =>
  rw [hnone, map_none, none_or]
  split_ifs at h with h1 h2 h3 h4
  · cases h
    rw [if_pos h1, some_or, length_cons, drop_succ_cons, drop_length_of_append (takeWhile_append_dropWhile).symm]
  · cases h
    rw [if_neg h1, none_or, if_pos h2]
    rfl
  · cases h
    rw [if_neg h1, if_neg h2, if_pos h3, none_or, none_or, some_or, length_cons,
      drop_succ_cons, drop_length_of_append]
    rw [append_assoc, takeWhile_append_dropWhile, takeWhile_append_dropWhile]
  cases h
  rw [if_neg h1, if_neg h2, if_neg h3, none_or, none_or, none_or, first_whitespace h4]

end

end VoidInfer.Frontend
