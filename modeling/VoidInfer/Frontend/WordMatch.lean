import VoidInfer.Frontend.WordPattern

/-
  `qwen_word_end` returns where the preferred match of the pattern ends, so the words of a text are its matches one
  after the other. A literal's case is that of ASCII: the long s, which folds to `s` outside ASCII, does not make a
  contraction.
-/

namespace VoidInfer.Frontend
open Pattern List Option

/-! ## The code finds it -/

section
variable {category : Nat → Category} {c : Char} {before after : List Char}

theorem utf8_length_eq_zero {chars : List Char} : ((utf8 chars).length = 0) = (chars = []) := by
  cases chars with
  | nil => simp
  | cons c chars =>
    have := c.utf8Size_pos
    simp
    omega

theorem utf8_take_length {suffix : List Char} (hsmall : ∀ c ∈ suffix, IsSmall c) {text : List Char}
    (h : startsWith sameAscii suffix text = true) : (utf8 (text.take suffix.length)).length = suffix.length := by
  induction suffix generalizing text with
  | nil => rfl
  | cons letter suffix ih =>
    cases text with
    | nil => cases h
    | cons x text =>
      rw [startsWith, Bool.and_eq_true, sameAscii_iff] at h
      have hletter := hsmall letter mem_cons_self
      unfold IsSmall at hletter
      have hx : x.toNat < 0x80 := by omega
      rw [length_cons, take_succ_cons, utf8_cons, utf8EncodeChar_ascii hx, length_append,
        ih (fun d hd => hsmall d (mem_cons_of_mem _ hd)) h.2, length_singleton, Nat.add_comm]

theorem skipWhile_after {p : Nat → Bool} {q : Char → Bool} (hp : ∀ c, p c.toNat = q c)
    (before : List Char) (more after : List Char) :
    skipWhile p (utf8 (before ++ (more ++ after))) (utf8 (before ++ more)).length =
      .ok (utf8 (before ++ (more ++ after.takeWhile q))).length := by
  have hq : (fun c => p c.toNat) = q := funext hp
  rw [← append_assoc, skipWhile_utf8, hq, append_assoc]

theorem next_utf8 (before after : List Char) (c : Char) :
    ∃ next, (if decide ((utf8 (before ++ [c])).length < (utf8 (before ++ c :: after)).length) = true then
        (qwenCodepointAt (utf8 (before ++ c :: after)) (utf8 (before ++ [c])).length).map (·.value)
      else .ok 0) = .ok next ∧
      ∀ (p : Nat → Bool) q, (∀ c, p c.toNat = q c) →
        (decide ((utf8 (before ++ [c])).length < (utf8 (before ++ c :: after)).length) && p next) =
          after.head?.any q := by
  cases after with
  | nil =>
    have hnot : ¬ (utf8 (before ++ [c])).length < (utf8 (before ++ [c])).length := Nat.lt_irrefl _
    refine ⟨0, ?_, fun p q _ => ?_⟩
    · rw [if_neg (by simp)]
    · rw [decide_eq_false hnot]
      rfl
  | cons d rest =>
    have hlt := lt_utf8_length (before ++ [c]) rest d
    have hread := codepointAt_utf8 (before ++ [c]) rest d
    rw [append_assoc, singleton_append] at hlt hread
    refine ⟨d.toNat, ?_, fun p q hp => ?_⟩
    · rw [if_pos (decide_eq_true hlt), hread]
      rfl
    · rw [decide_eq_true hlt, Bool.true_and, hp]
      rfl

theorem whitespace_utf8 (before after : List Char) (hspace : spaceChar category c = true) :
    ∃ run, whitespaceLoop category (utf8 (before ++ c :: after))
        ⟨(utf8 before).length, (utf8 before).length, none, 0⟩ = .ok run ∧
      (match run.lastNewlineEnd with
        | some finish => Except.ok finish
        | none =>
          if run.finish = (utf8 (before ++ c :: after)).length then .ok run.finish
          else .ok (if run.count ≥ 2 then run.lastBegin else run.finish) : Except SplitError Nat) =
        .ok (utf8 (before ++ whitespaceWord category c after)).length := by
  have hall : ∀ d ∈ c :: after.takeWhile (spaceChar category), spaceChar category d = true := by
    intro d hd
    rcases mem_cons.mp hd with rfl | hd
    · exact hspace
    · exact List.all_eq_true.mp all_takeWhile d hd
  have hrest : ∀ d ∈ (after.dropWhile (spaceChar category)).head?, spaceChar category d = false := by
    intro d hd
    have := head?_dropWhile_not (spaceChar category) after
    rw [mem_def.mp hd] at this
    simpa using this
  have hloop := whitespaceLoop_utf8 ⟨(utf8 before).length, (utf8 before).length, none, 0⟩ before rfl hall hrest
  rw [cons_append, takeWhile_append_dropWhile] at hloop
  refine ⟨_, hloop, ?_⟩
  rw [runOver_lastNewline, runOver_finish, runOver_count, runOver_lastBegin (cons_ne_nil _ _), whitespaceWord]
  cases uptoLast newlineChar _ with
  | some found => simp
  | none =>
    have hend : ((utf8 before).length + (utf8 (c :: after.takeWhile (spaceChar category))).length =
        (utf8 (before ++ c :: after)).length) = (after.dropWhile (spaceChar category) = []) := by
      have hsplit := takeWhile_append_dropWhile (p := spaceChar category) (l := after)
      rw [utf8_append, length_append, utf8_cons, utf8_cons, ← congrArg utf8 hsplit, utf8_append]
      simp only [length_append]
      rw [← utf8_length_eq_zero]
      exact propext ⟨fun h => by omega, fun h => by omega⟩
    rw [Nat.zero_add]
    simp only [hend]
    split_ifs <;> rw [utf8_append, length_append]

theorem qwenWordEndOr_utf8 (before : List Char) (fallThrough : Nat → Except SplitError Nat) {word : List Char}
    (h : wordOf category c after = some word) :
    qwenWordEndOr fallThrough category (utf8 (before ++ c :: after)) (utf8 before).length =
      .ok (utf8 (before ++ word)).length := by
  have hfirst : (utf8 before).length + c.utf8Size = (utf8 (before ++ [c])).length := (utf8_snoc_length before c).symm
  have hquote : (c.toNat = 0x27) = (c = '\'') := propext ⟨fun h => Char.toNat_inj.mp h, fun h => h ▸ rfl⟩
  have hblank : (c.toNat = 0x20) = (c = ' ') := propext ⟨fun h => Char.toNat_inj.mp h, fun h => h ▸ rfl⟩
  have hblank' : (c.toNat == 0x20) = (c == ' ') := by
    rw [Bool.eq_iff_iff, beq_iff_eq, beq_iff_eq, hblank]
  have hnumber : isNumber category c.toNat = numberChar category c := rfl
  have hwhite : isWhitespace category c.toNat = spaceChar category c := rfl
  unfold qwenWordEndOr
  rw [codepointAt_utf8]
  dsimp only [bind, Except.bind]
  rw [find_suffix, hfirst]
  simp only [hquote, hblank, hblank', hnumber, hwhite, isLetterOrMark_toNat, isNonNewlineNonLetterNonNumber_toNat,
    isNonSpaceNonLetterMarkNumber_toNat]
  obtain ⟨next, hnext, hclass⟩ := next_utf8 before after c
  rw [hnext]
  simp only [Bool.and_assoc, hclass _ _ (isLetterOrMark_toNat category),
    hclass _ _ (isNonSpaceNonLetterMarkNumber_toNat category)]
  unfold wordOf at h
  obtain hnone | ⟨suffix, hsuffix⟩ :=
    eq_none_or_eq_some (if c = '\'' then suffixes.find? _ else none)
  rotate_left
  · rw [hsuffix] at h ⊢
    cases h
    rw [ite_none_right_eq_some] at hsuffix
    have hsmall := suffixes_small suffix (mem_of_find?_eq_some hsuffix.2)
    have hmatch : startsWith sameAscii suffix after = true := by
      have := find?_some hsuffix.2
      exact this
    dsimp only
    rw [utf8_append, utf8_append, utf8_cons, utf8_cons, utf8_nil]
    simp only [length_append, utf8_take_length hsmall hmatch, length_nil]
    rw [Nat.add_zero, Nat.add_assoc]
  rw [hnone] at h ⊢
  dsimp only at h ⊢
  split_ifs at h with h1 h2 h3 h4
  · cases h
    rw [if_pos h1]
    by_cases hletter : letterMarkChar category c = true
    · have := skipWhile_after (isLetterOrMark_toNat category) before [] (c :: after)
      rw [nil_append, nil_append, append_nil, takeWhile_cons_of_pos hletter] at this
      simp only [hletter, if_true]
      exact this
    simp only [hletter, if_false, Bool.false_eq_true]
    exact skipWhile_after (isLetterOrMark_toNat category) before [c] after
  · cases h
    rw [if_neg h1, if_pos h2]
  · cases h
    have hsymbols : skipWhile (isNonSpaceNonLetterMarkNumber category) (utf8 (before ++ c :: after))
        (if c = ' ' then (utf8 (before ++ [c])).length else (utf8 before).length) =
          .ok (utf8 (before ++ c :: after.takeWhile (symbolChar category))).length := by
      by_cases hspace : c = ' '
      · rw [if_pos hspace]
        exact skipWhile_after (isNonSpaceNonLetterMarkNumber_toNat category) before [c] after
      have hsymbol : symbolChar category c = true := by simpa [hspace] using h3
      have := skipWhile_after (isNonSpaceNonLetterMarkNumber_toNat category) before [] (c :: after)
      rw [nil_append, nil_append, append_nil, takeWhile_cons_of_pos hsymbol] at this
      rw [if_neg hspace, this]
    have hnewlines := skipWhile_after (fun c => isNewline_toNat (c := c)) before
      (c :: after.takeWhile (symbolChar category)) (after.dropWhile (symbolChar category))
    rw [cons_append, takeWhile_append_dropWhile] at hnewlines
    rw [if_neg h1, if_neg h2, if_pos h3, hsymbols]
    exact hnewlines
  cases h
  obtain ⟨run, hrun, hresult⟩ := whitespace_utf8 before after h4
  rw [if_neg h1, if_neg h2, if_neg h3, if_pos h4, hrun]
  exact hresult

end

/-! ## Offsets inside a code point -/

theorem cont_range (n : Nat) :
    0x80 ≤ (UInt8.ofNat (n % 64 + 128)).toNat ∧ (UInt8.ofNat (n % 64 + 128)).toNat < 0xc2 := by
  rw [toNat_cont]
  omega

theorem utf8EncodeChar_tail (c : Char) : ∀ b ∈ (String.utf8EncodeChar c).tail, 0x80 ≤ b.toNat ∧ b.toNat < 0xc2 := by
  unfold String.utf8EncodeChar
  dsimp only
  split_ifs
  · simp
  · intro b hb
    rw [tail_cons, mem_singleton] at hb
    rw [hb]
    exact cont_range _
  · intro b hb
    rw [tail_cons, mem_cons, mem_singleton] at hb
    rcases hb with rfl | rfl <;> exact cont_range _
  intro b hb
  rw [tail_cons, mem_cons, mem_cons, mem_singleton] at hb
  rcases hb with rfl | rfl | rfl <;> exact cont_range _

theorem utf8procIterate_cont {lead : UInt8} (str : List UInt8) (h : 0x80 ≤ lead.toNat ∧ lead.toNat < 0xc2) :
    utf8procIterate (lead :: str) = .invalid := by
  unfold utf8procIterate
  dsimp only
  rw [if_neg (by omega), if_pos ((leadOutOfRange_iff (by omega)).mpr (.inl h.2))]

theorem qwenWordEnd_inside (category : Nat → Category) (before after : List Char) (c : Char) {k : Nat}
    (hpos : 0 < k) (hlt : k < c.utf8Size) :
    qwenWordEnd category (utf8 (before ++ c :: after)) ((utf8 before).length + k) =
      .error (.invalidArgument "invalid UTF-8 in Tokenizer::encode input: Invalid UTF-8 string") := by
  rw [← String.length_utf8EncodeChar] at hlt
  have hbyte : (String.utf8EncodeChar c).drop k =
      (String.utf8EncodeChar c)[k] :: (String.utf8EncodeChar c).drop (k + 1) := drop_eq_getElem_cons hlt
  have hmem : (String.utf8EncodeChar c)[k] ∈ (String.utf8EncodeChar c).tail := by
    rw [← drop_one]
    refine mem_iff_getElem?.mpr ⟨k - 1, ?_⟩
    rw [getElem?_drop, Nat.add_sub_cancel' hpos, getElem?_eq_getElem hlt]
  have hdrop : (utf8 (before ++ c :: after)).drop ((utf8 before).length + k) =
      (String.utf8EncodeChar c)[k] :: ((String.utf8EncodeChar c).drop (k + 1) ++ utf8 after) := by
    rw [← drop_drop, utf8_drop, utf8_cons, drop_append_of_le_length (Nat.le_of_lt hlt), hbyte]
    rfl
  have hread : qwenCodepointAt (utf8 (before ++ c :: after)) ((utf8 before).length + k) =
      .error (.invalidArgument "invalid UTF-8 in Tokenizer::encode input: Invalid UTF-8 string") := by
    have hsize : (utf8 (before ++ c :: after)).length =
        (utf8 before).length + ((String.utf8EncodeChar c).length + (utf8 after).length) := by
      rw [utf8_append, utf8_cons, length_append, length_append]
    rw [qwenCodepointAt, utf8CodepointAt, if_neg (by omega), hdrop,
      utf8procIterate_cont _ (utf8EncodeChar_tail c _ hmem)]
    rfl
  rw [qwenWordEnd, qwenWordEndOr, hread]
  rfl

/-! ## The words of a text -/

variable (category : Nat → Category)

theorem exists_word {text : List Char} (h : text ≠ []) :
    ∃ word, word ≠ [] ∧ word <+: text ∧ firstMatch (qwenPattern sameAscii category) text = some word ∧
      ∀ before fallThrough, qwenWordEndOr fallThrough category (utf8 (before ++ text)) (utf8 before).length =
        .ok (utf8 (before ++ word)).length := by
  cases text with
  | nil => exact absurd rfl h
  | cons c text =>
    obtain ⟨word, hword⟩ := isSome_iff_exists.mp (wordOf_isSome category c text)
    obtain ⟨hne, rest, hrest⟩ := wordOf_prefix hword
    have hfirst := first_qwenPattern hword
    rw [drop_length_of_append hrest.symm] at hfirst
    exact ⟨word, hne, ⟨rest, hrest⟩, firstMatch_iff.mpr ⟨rest, hrest.symm, hfirst⟩,
      fun before fallThrough => qwenWordEndOr_utf8 before fallThrough hword⟩

theorem qwenWords_utf8 (before after : List Char) (fuel : Nat) (hfuel : after.length ≤ fuel) :
    ∃ words,
      qwenWords category (utf8 (before ++ after)) fuel (utf8 before).length = .ok (some (words.map utf8)) ∧
        Splits (qwenPattern sameAscii category) words after := by
  induction fuel generalizing before after with
  | zero =>
    obtain rfl := eq_nil_of_length_eq_zero (Nat.le_zero.mp hfuel)
    exact ⟨[], by rw [qwenWords, if_neg (by simp)]; rfl, rfl⟩
  | succ fuel ih =>
    by_cases hend : after = []
    · subst hend
      exact ⟨[], by rw [qwenWords, if_neg (by simp)]; rfl, rfl⟩
    obtain ⟨word, hne, ⟨rest, rfl⟩, hmatch, hcode⟩ := exists_word category hend
    have hlen := length_pos_iff.mpr hne
    obtain ⟨words, hwords, hsplits⟩ := ih _ rest (by rw [length_append] at hfuel; omega)
    rw [append_assoc] at hwords
    refine ⟨word :: words, ?_, hne, hmatch, by rwa [drop_left]⟩
    have hlt : (utf8 before).length < (utf8 (before ++ (word ++ rest))).length := by
      cases word with
      | nil => exact absurd rfl hne
      | cons c word => exact lt_utf8_length before _ c
    have htaken : ((utf8 (before ++ (word ++ rest))).drop (utf8 before).length).take
        ((utf8 (before ++ word)).length - (utf8 before).length) = utf8 word := by
      rw [utf8_drop, utf8_append, utf8_append, length_append, Nat.add_sub_cancel_left, take_left]
    have hfinish : qwenWordEnd category (utf8 (before ++ (word ++ rest))) (utf8 before).length =
        .ok (utf8 (before ++ word)).length := hcode before .ok
    rw [qwenWords, if_pos hlt, hfinish]
    dsimp only [bind, Except.bind]
    rw [hwords, htaken]
    rfl

/-- The word that begins where a code point does ends where the preferred match of the pattern does, and no call reaches
    the last `return`. The words of the text are the matches, one after the other, and are together the text. -/
theorem qwenWordEnd_eq_match (before after : List Char) (h : after ≠ []) :
    (∃ word, firstMatch (qwenPattern sameAscii category) after = some word ∧ word ≠ [] ∧ word <+: after ∧
      qwenWordEnd category (utf8 (before ++ after)) (utf8 before).length = .ok (utf8 (before ++ word)).length) ∧
    (∀ fallThrough, qwenWordEndOr fallThrough category (utf8 (before ++ after)) (utf8 before).length =
      qwenWordEnd category (utf8 (before ++ after)) (utf8 before).length) ∧
    (∀ c rest k, after = c :: rest → 0 < k → k < c.utf8Size →
      qwenWordEnd category (utf8 (before ++ after)) ((utf8 before).length + k) =
        .error (.invalidArgument "invalid UTF-8 in Tokenizer::encode input: Invalid UTF-8 string")) ∧
    ∃ words : List (List Char),
      qwenWords category (utf8 (before ++ after)) (before ++ after).length 0 = .ok (some (words.map utf8)) ∧
        Splits (qwenPattern sameAscii category) words (before ++ after) ∧ words.flatten = before ++ after := by
  obtain ⟨word, hne, hprefix, hmatch, hcode⟩ := exists_word category h
  refine ⟨⟨word, hmatch, hne, hprefix, hcode before .ok⟩, fun fallThrough => ?_, ?_, ?_⟩
  · exact (hcode before fallThrough).trans (hcode before .ok).symm
  · rintro c rest k rfl hpos hlt
    exact qwenWordEnd_inside category before rest c hpos hlt
  · obtain ⟨words, hwords, hsplits⟩ := qwenWords_utf8 category [] _ _ le_rfl
    exact ⟨words, hwords, hsplits, flatten_of_splits hsplits⟩

/-- Letters of ASCII and the long s, digits, blanks and control characters; what is left is punctuation. -/
def sampleCategory (codepoint : Nat) : Category :=
  if codepoint < 0x20 then .cc
  else if codepoint = 0x20 then .zs
  else if 0x30 ≤ codepoint ∧ codepoint ≤ 0x39 then .nd
  else if 0x41 ≤ codepoint ∧ codepoint ≤ 0x5a then .lu
  else if 0x61 ≤ codepoint ∧ codepoint ≤ 0x7a ∨ codepoint = 0x17f then .ll
  else .po

theorem qwenWordEnd_eq_match_contraction : ∃ word,
    firstMatch (qwenPattern sameAscii sampleCategory) ['\'', 'S', ' ', 'a'] = some word ∧ word ≠ [] ∧
      word <+: ['\'', 'S', ' ', 'a'] ∧ qwenWordEnd sampleCategory (utf8 (['i', 't'] ++ ['\'', 'S', ' ', 'a']))
        (utf8 ['i', 't']).length = .ok (utf8 (['i', 't'] ++ word)).length :=
  (qwenWordEnd_eq_match sampleCategory ['i', 't'] ['\'', 'S', ' ', 'a'] (cons_ne_nil _ _)).1

/-- Simple case folding outside ASCII: of the letters of the literals only `s` has another preimage, U+017F. -/
def sameUnicode (letter c : Char) : Bool := sameAscii letter c || (letter == 's' && c == '\u017f')

/-- With the folding outside ASCII the pattern ends a word behind the long s. -/
theorem long_s_not_contraction : ¬ ∀ (category : Nat → Category) (before after : List Char), after ≠ [] →
    ∃ word, firstMatch (qwenPattern sameUnicode category) after = some word ∧
      qwenWordEnd category (utf8 (before ++ after)) (utf8 before).length = .ok (utf8 (before ++ word)).length := by
  intro h
  obtain ⟨word, hmatch, hcode⟩ := h sampleCategory [] ['\'', '\u017f', 'a'] (cons_ne_nil _ _)
  have hfound : firstMatch (qwenPattern sameUnicode sampleCategory) ['\'', '\u017f', 'a'] = some ['\'', '\u017f'] := by
    decide
  have hword : wordOf sampleCategory '\'' ['\u017f', 'a'] = some ['\'', '\u017f', 'a'] := by decide
  obtain rfl := mem_unique hfound hmatch
  have := (qwenWordEndOr_utf8 [] .ok hword).symm.trans hcode
  revert this
  decide

end VoidInfer.Frontend
