import Mathlib.Data.List.DropRight

/-
  Strings as lists of bytes: searching for a pattern, trimming ASCII white space, and the byte strings that encode a
  text in UTF-8. A text cut at an ASCII byte is cut between two characters, so the parts of a UTF-8 text around ASCII
  markers are UTF-8 again.
-/

namespace Bytes
open List

/-- The bytes of an ASCII literal. -/
def ascii (s : String) : List UInt8 := s.toList.map fun c => UInt8.ofNat c.toNat

/-- `std::isspace` in the C locale: space, and tab to carriage return. -/
def isSpace (b : UInt8) : Bool := b == 32 || (9 ≤ b && b ≤ 13)

/-- `std::isalnum` in the C locale. -/
def isAlnum (b : UInt8) : Bool :=
  (48 ≤ b && b ≤ 57) || (65 ≤ b && b ≤ 90) || (97 ≤ b && b ≤ 122)

/-! ## Searching -/

/-- The text before and after the first occurrence of `pattern`, as `find` and two `substr` give them. -/
def cut (pattern : List UInt8) : List UInt8 → Option (List UInt8 × List UInt8)
  | [] => if pattern = [] then some ([], []) else none
  | b :: rest =>
    if pattern.isPrefixOf (b :: rest) then some ([], (b :: rest).drop pattern.length)
    else (cut pattern rest).map fun parts => (b :: parts.1, parts.2)

variable {pattern text before after : List UInt8}

theorem cut_eq (h : cut pattern text = some (before, after)) : text = before ++ pattern ++ after := by
  induction text generalizing before with
  | nil =>
    unfold cut at h
    split at h
    · next hp => simp_all
    · simp at h
  | cons b rest ih =>
    unfold cut at h
    split at h
    · next hp =>
      simp only [Option.some.injEq, Prod.mk.injEq] at h
      rw [← h.1, ← h.2, nil_append, prefix_iff_eq_append.mp <| isPrefixOf_iff_prefix.mp hp]
    obtain ⟨⟨x, y⟩, hx, hy⟩ := Option.map_eq_some_iff.mp h
    simp only [Prod.mk.injEq] at hy
    rw [hy.2] at hx
    rw [← hy.1, ih hx]
    rfl

theorem cut_of_prefix (h : pattern ≠ []) (rest : List UInt8) : cut pattern (pattern ++ rest) = some ([], rest) := by
  obtain ⟨b, p, rfl⟩ := exists_cons_of_ne_nil h
  have hp : (b :: p).isPrefixOf (b :: p ++ rest) = true := by simp
  rw [cons_append] at hp ⊢
  rw [cut, if_pos hp]
  simp

variable {b p : UInt8} {rest tail a marker : List UInt8}

theorem cut_cons_of_not_isPrefix (h : ¬ pattern <+: b :: rest) :
    cut pattern (b :: rest) = (cut pattern rest).map fun parts => (b :: parts.1, parts.2) := by
  rw [cut, if_neg fun hp => h <| isPrefixOf_iff_prefix.mp hp]

theorem cut_cons_of_ne (h : b ≠ p) :
    cut (p :: tail) (b :: rest) = (cut (p :: tail) rest).map fun parts => (b :: parts.1, parts.2) := by
  apply cut_cons_of_not_isPrefix
  rw [cons_prefix_cons]
  exact fun hp => h hp.1.symm

theorem cut_append_of_notMem {skipped : List UInt8} (h : p ∉ skipped) :
    cut (p :: tail) (skipped ++ rest) = (cut (p :: tail) rest).map fun parts => (skipped ++ parts.1, parts.2) := by
  induction skipped with
  | nil => simp
  | cons b skipped ih =>
    rw [mem_cons, not_or] at h
    rw [cons_append, cut_cons_of_ne (Ne.symm h.1), ih h.2, Option.map_map]
    rfl

/-- A partial occurrence that fails at byte `b` holds no other occurrence, when the pattern's
    first byte is found nowhere else in it: the search restarts at `b`. -/
theorem cut_mismatch (hp : p ∉ tail) {n : Nat} (hn : 0 < n)
    (hlen : n < (p :: tail).length) (hb : (p :: tail)[n]? ≠ some b) :
    cut (p :: tail) ((p :: tail).take n ++ b :: rest) =
      (cut (p :: tail) (b :: rest)).map fun parts => ((p :: tail).take n ++ parts.1, parts.2) := by
  obtain ⟨m, rfl⟩ : ∃ m, n = m + 1 := ⟨n - 1, by omega⟩
  have hnot : ¬ (p :: tail) <+: p :: (tail.take m ++ b :: rest) := by
    rw [cons_prefix_cons]
    rintro ⟨-, h⟩
    apply hb
    have hm : m < tail.length := by simpa using hlen
    have hget := h.getElem hm
    rw [getElem_append_right (by simp [hm.le])] at hget
    simp only [length_take, Nat.min_eq_left hm.le, Nat.sub_self, getElem_cons_zero] at hget
    rw [getElem?_cons_succ, getElem?_eq_getElem hm, hget]
  have hskip : p ∉ tail.take m := fun h => hp (mem_of_mem_take h)
  rw [take_succ_cons, cons_append, cut_cons_of_not_isPrefix hnot, cut_append_of_notMem hskip, Option.map_map]
  rfl

theorem cut_append (h : cut pattern text = some (before, after)) (more : List UInt8) :
    cut pattern (text ++ more) = some (before, after ++ more) := by
  induction text generalizing before with
  | nil =>
    unfold cut at h
    split at h
    · next hp =>
      simp only [Option.some.injEq, Prod.mk.injEq] at h
      subst hp
      rw [← h.1, ← h.2, nil_append]
      cases more with
      | nil => rfl
      | cons b rest => simp [cut]
    · simp at h
  | cons b rest ih =>
    by_cases hp : pattern <+: b :: rest
    · rw [cut, if_pos <| isPrefixOf_iff_prefix.mpr hp] at h
      simp only [Option.some.injEq, Prod.mk.injEq] at h
      have hp' : pattern <+: b :: (rest ++ more) := hp.trans (prefix_append _ more)
      rw [cons_append, cut, if_pos <| isPrefixOf_iff_prefix.mpr hp', ← h.1, ← h.2,
        ← cons_append, drop_append_of_le_length hp.length_le]
    rw [cut_cons_of_not_isPrefix hp] at h
    obtain ⟨⟨x, y⟩, hx, hy⟩ := Option.map_eq_some_iff.mp h
    simp only [Prod.mk.injEq] at hy
    rw [hy.2] at hx
    have hmore := ih hx
    have hp' : ¬ pattern <+: b :: (rest ++ more) := by
      intro hlong
      apply hp
      -- the occurrence found later keeps the pattern shorter than the text
      have hlen : pattern.length ≤ (b :: rest).length := by
        have := congrArg List.length (cut_eq hx)
        simp only [length_append] at this
        simp only [length_cons]
        omega
      exact prefix_of_prefix_length_le hlong (prefix_append _ more) hlen
    rw [cons_append, cut_cons_of_not_isPrefix hp', hmore, ← hy.1]
    rfl

/-! ## Trimming -/

def rtrimAscii (text : List UInt8) : List UInt8 := text.rdropWhile isSpace

def trimAscii (text : List UInt8) : List UInt8 := rtrimAscii (text.dropWhile isSpace)

/-- `skip_ws`: the text from the first byte that is no white space. -/
def skipWs (text : List UInt8) : List UInt8 := text.dropWhile isSpace

theorem rtrimAscii_eq_nil (h : ∀ b ∈ text, isSpace b = true) : rtrimAscii text = [] := by
  unfold rtrimAscii
  rw [rdropWhile_eq_nil_iff]
  exact h

theorem rtrimAscii_concat (h : isSpace b = false) : rtrimAscii (text ++ [b]) = text ++ [b] := by
  unfold rtrimAscii
  rw [rdropWhile_concat_neg isSpace text b (by simp [h])]

theorem rtrimAscii_append {shown : List UInt8} (h : rtrimAscii shown = shown)
    (rest : List UInt8) : rtrimAscii (shown ++ rest) = shown ++ rtrimAscii rest := by
  induction rest using List.reverseRecOn with
  | nil => simpa [rtrimAscii] using h
  | append_singleton rest b ih =>
    unfold rtrimAscii at *
    rw [← append_assoc]
    by_cases hb : isSpace b = true
    · rw [rdropWhile_concat_pos _ _ _ hb, rdropWhile_concat_pos _ _ _ hb, ih]
    rw [rdropWhile_concat_neg _ _ _ hb, rdropWhile_concat_neg _ _ _ hb, append_assoc]

/-! ## UTF-8 -/

/-- The bytes that encode some text in UTF-8. -/
def Utf8 (bytes : List UInt8) : Prop := ∃ chars : List Char, chars.flatMap String.utf8EncodeChar = bytes

theorem utf8_nil : Utf8 [] := ⟨[], rfl⟩

theorem Utf8.append {b : List UInt8} (ha : Utf8 a) (hb : Utf8 b) : Utf8 (a ++ b) := by
  obtain ⟨x, rfl⟩ := ha
  obtain ⟨y, rfl⟩ := hb
  exact ⟨x ++ y, by simp⟩

theorem utf8EncodeChar_ascii (c : Char) :
    (∃ b, String.utf8EncodeChar c = [b]) ∨ ∀ b ∈ String.utf8EncodeChar c, 128 ≤ b := by
  fun_cases String.utf8EncodeChar c
  · exact .inl ⟨_, rfl⟩
  all_goals
    simp only [mem_cons, not_mem_nil, or_false, forall_eq_or_imp, forall_eq,
      UInt8.le_iff_toNat_le, UInt8.toNat_ofNat']
    simp
    omega

theorem Utf8.split_ascii (hb : b < 128) (h : Utf8 (a ++ b :: rest)) : Utf8 a ∧ Utf8 (b :: rest) := by
  obtain ⟨chars, h⟩ := h
  induction chars generalizing a with
  | nil => simp at h
  | cons c chars ih =>
    rw [flatMap_cons] at h
    -- where the cut stands: inside the first character, or after it
    rcases append_eq_append_iff.mp h with ⟨x, ha, hx⟩ | ⟨x, hc, hx⟩
    · obtain ⟨hx', hrest⟩ := ih hx
      exact ⟨ha ▸ Utf8.append ⟨[c], by simp⟩ hx', hrest⟩
    match x with
    | [] =>
      exact ⟨⟨[c], by simpa using hc⟩, ⟨chars, by simpa using hx.symm⟩⟩
    | y :: x =>
      rw [cons_append, List.cons.injEq] at hx
      rcases utf8EncodeChar_ascii c with ⟨d, hd⟩ | hall
      · rw [hd, singleton_eq_append_iff] at hc
        rcases hc with ⟨ha, -⟩ | ⟨-, hnil⟩
        · exact ⟨ha ▸ utf8_nil, ⟨c :: chars, by rw [flatMap_cons, h, ha]; rfl⟩⟩
        · simp at hnil
      have : 128 ≤ y := hall y (by rw [hc]; simp)
      rw [← hx.1] at this
      exact absurd hb (UInt8.not_lt.mpr this)

theorem Utf8.of_cons_ascii (hb : b < 128) (h : Utf8 (b :: rest)) : Utf8 rest := by
  obtain ⟨chars, h⟩ := h
  match chars with
  | [] => simp at h
  | c :: chars =>
    rw [flatMap_cons] at h
    rcases utf8EncodeChar_ascii c with ⟨d, hd⟩ | hall
    · rw [hd, singleton_append, List.cons.injEq] at h
      exact ⟨chars, h.2⟩
    obtain ⟨d, tail, hd⟩ := exists_cons_of_ne_nil (String.utf8EncodeChar_ne_nil (c := c))
    rw [hd, cons_append, List.cons.injEq] at h
    have : 128 ≤ d := hall d (by rw [hd]; simp)
    rw [h.1] at this
    exact absurd hb (UInt8.not_lt.mpr this)

section
variable (hm : ∀ b ∈ marker, b < 128)
include hm

theorem Utf8.drop_ascii (h : Utf8 (marker ++ rest)) : Utf8 rest := by
  induction marker with
  | nil => exact h
  | cons b marker ih =>
    apply ih (fun c hc => hm c (mem_cons_of_mem b hc))
    exact Utf8.of_cons_ascii (hm b mem_cons_self) h

theorem Utf8.take_ascii (h : Utf8 (a ++ marker)) : Utf8 a := by
  match marker with
  | [] => simpa using h
  | b :: marker => exact (Utf8.split_ascii (hm b mem_cons_self) h).1

theorem Utf8.around (hne : marker ≠ []) (h : Utf8 (a ++ marker ++ rest)) : Utf8 a ∧ Utf8 rest := by
  obtain ⟨b, tail, rfl⟩ := exists_cons_of_ne_nil hne
  rw [append_assoc] at h
  obtain ⟨ha, hrest⟩ := Utf8.split_ascii (hm b mem_cons_self) h
  exact ⟨ha, Utf8.drop_ascii hm hrest⟩

end

theorem isSpace_ascii (h : isSpace b = true) : b < 128 := by
  simp only [isSpace, Bool.or_eq_true, beq_iff_eq, Bool.and_eq_true, decide_eq_true_eq, UInt8.le_iff_toNat_le] at h
  rcases h with rfl | ⟨-, h⟩
  · decide
  · exact lt_of_le_of_lt h (by decide)

theorem Utf8.skipWs {text : List UInt8} (h : Utf8 text) : Utf8 (skipWs text) := by
  rw [← takeWhile_append_dropWhile (p := isSpace) (l := text)] at h
  exact Utf8.drop_ascii (fun b hb => isSpace_ascii (mem_takeWhile_imp hb)) h

theorem Utf8.rtrimAscii {text : List UInt8} (h : Utf8 text) : Utf8 (rtrimAscii text) := by
  unfold Bytes.rtrimAscii
  induction text using List.reverseRecOn with
  | nil => exact h
  | append_singleton text b ih =>
    by_cases hb : isSpace b = true
    · rw [rdropWhile_concat_pos _ _ _ hb]
      apply ih
      exact Utf8.take_ascii (by simpa using isSpace_ascii hb) h
    · rwa [rdropWhile_concat_neg _ _ _ hb]

theorem Utf8.trimAscii {text : List UInt8} (h : Utf8 text) : Utf8 (trimAscii text) :=
  h.skipWs.rtrimAscii

end Bytes
