import VoidInfer.Base
import VoidInfer.Lib.Pattern

/-
  `qwen_word_end` of `tokenizer.cpp`: the end of the word that begins at an offset, in one pass over UTF-8. The
  categories of the code points come from a table of `utf8proc`.
-/

namespace VoidInfer.Frontend
open Pattern

/-! ## Code points -/

/-- `utf8proc_category_t`. -/
inductive Category where
  | cn | lu | ll | lt | lm | lo | mn | mc | me | nd | nl | no | pc | pd | ps | pe | pi | pf | po
  | sm | sc | sk | so | zs | zl | zp | cc | cf | cs | co

/-- What `utf8proc_iterate` returns: 0, `UTF8PROC_ERROR_INVALIDUTF8`, or a length with the code point. -/
inductive Iterated where
  | empty
  | invalid
  | codepoint (value length : Nat)

def utfCont (byte : UInt8) : Bool := byte.toNat &&& 0xc0 = 0x80

/-- `(utf8proc_uint32_t)(uc - 0xc2) > (0xf4 - 0xc2)`. -/
def leadOutOfRange (uc : Nat) : Bool := decide ((uc + 2 ^ 32 - 0xc2) % 2 ^ 32 > 0xf4 - 0xc2)

theorem leadOutOfRange_iff {uc : Nat} (h : uc < 256) : leadOutOfRange uc = true ↔ uc < 0xc2 ∨ 0xf4 < uc := by
  rw [leadOutOfRange, decide_eq_true_eq]
  omega

def utf8procIterate : List UInt8 → Iterated
  | [] => .empty
  | lead :: str =>
    let uc := lead.toNat
    if uc < 0x80 then .codepoint uc 1
    else if leadOutOfRange uc then .invalid
    else if uc < 0xe0 then
      match str with
      | b :: _ =>
        if !utfCont b then .invalid
        else .codepoint ((uc &&& 0x1f) <<< 6 ||| (b.toNat &&& 0x3f)) 2
      | _ => .invalid
    else if uc < 0xf0 then
      match str with
      | b :: b1 :: _ =>
        if !utfCont b || !utfCont b1 then .invalid
        else if uc = 0xed ∧ b.toNat > 0x9f then .invalid
        else
          let uc := (uc &&& 0xf) <<< 12 ||| (b.toNat &&& 0x3f) <<< 6 ||| (b1.toNat &&& 0x3f)
          if uc < 0x800 then .invalid else .codepoint uc 3
      | _ => .invalid
    else
      match str with
      | b :: b1 :: b2 :: _ =>
        if !utfCont b || !utfCont b1 || !utfCont b2 then .invalid
        else if uc = 0xf0 ∧ b.toNat < 0x90 then .invalid
        else if uc = 0xf4 ∧ b.toNat > 0x8f then .invalid
        else
          .codepoint ((uc &&& 7) <<< 18 ||| (b.toNat &&& 0x3f) <<< 12 |||
            (b1.toNat &&& 0x3f) <<< 6 ||| (b2.toNat &&& 0x3f)) 4
      | _ => .invalid

inductive SplitError where
  | outOfRange (what : String)
  | invalidArgument (what : String)
deriving DecidableEq

structure CodepointSpan where
  value : Nat
  offset : Nat
  length : Nat

def utf8CodepointAt (text : List UInt8) (offset : Nat) (context : String) : Except SplitError CodepointSpan :=
  if offset ≥ text.length then .error (.outOfRange ("UTF-8 codepoint offset exceeds " ++ context))
  else
    match utf8procIterate (text.drop offset) with
    | .invalid =>
      .error (.invalidArgument ("invalid UTF-8 in " ++ context ++ ": " ++ "Invalid UTF-8 string"))
    | .empty => .error (.invalidArgument ("truncated UTF-8 sequence in " ++ context))
    | .codepoint value length => .ok ⟨value, offset, length⟩

def qwenCodepointAt (text : List UInt8) (offset : Nat) : Except SplitError CodepointSpan :=
  utf8CodepointAt text offset "Tokenizer::encode input"

theorem length_pos_of_iterate {str : List UInt8} {value length : Nat}
    (h : utf8procIterate str = .codepoint value length) : 0 < length := by
  cases str with
  | nil => cases h
  | cons lead str =>
    unfold utf8procIterate at h
    dsimp only at h
    split_ifs at h with h1 h2 h3 h4
    · cases h
      exact Nat.one_pos
    · split at h
      · split_ifs at h
        cases h
        exact Nat.two_pos
      · cases h
    · split at h
      · split_ifs at h
        cases h
        exact Nat.succ_pos _
      · cases h
    split at h
    · split_ifs at h
      cases h
      exact Nat.succ_pos _
    · cases h

theorem length_pos_of_codepointAt {text : List UInt8} {offset : Nat} {span : CodepointSpan}
    (h : qwenCodepointAt text offset = .ok span) : 0 < span.length := by
  unfold qwenCodepointAt utf8CodepointAt at h
  split at h
  · cases h
  split at h
  · cases h
  · cases h
  next hiterate =>
  cases h
  exact length_pos_of_iterate hiterate

/-! ## Classes of code points -/

section
variable (category : Nat → Category)

section
variable (codepoint : Nat)

def isAsciiWhitespace : Bool :=
  codepoint == 0x20 || codepoint == 0x09 || codepoint == 0x0a || codepoint == 0x0d ||
    codepoint == 0x0b || codepoint == 0x0c

def isLetter : Bool :=
  match category codepoint with
  | .lu | .ll | .lt | .lm | .lo => true
  | _ => false

def isMark : Bool :=
  match category codepoint with
  | .mn | .mc | .me => true
  | _ => false

def isNumber : Bool :=
  match category codepoint with
  | .nd | .nl | .no => true
  | _ => false

def isWhitespace : Bool :=
  if isAsciiWhitespace codepoint then true
  else
    match category codepoint with
    | .zs | .zl | .zp => true
    | _ => false

def isNewline : Bool := codepoint == 0x0d || codepoint == 0x0a

def isLetterOrMark : Bool := isLetter category codepoint || isMark category codepoint

def isNonNewlineNonLetterNonNumber : Bool :=
  !isNewline codepoint && !isLetter category codepoint && !isNumber category codepoint

def isNonSpaceNonLetterMarkNumber : Bool :=
  !isWhitespace category codepoint && !isLetter category codepoint && !isMark category codepoint &&
    !isNumber category codepoint

end

end

/-! ## The word at an offset -/

/-- `std::tolower` on a byte, in the C locale. -/
def toLower (byte : UInt8) : UInt8 :=
  if 0x41 ≤ byte.toNat ∧ byte.toNat ≤ 0x5a then UInt8.ofNat (byte.toNat + 0x20) else byte

def asciiCiMatches (text : List UInt8) (offset : Nat) (suffix : List UInt8) : Bool :=
  if offset + suffix.length > text.length then false
  else ((text.drop offset).take suffix.length).map toLower == suffix.map toLower

/-- The endings of a contraction. -/
def suffixes : List (List Char) := [['s'], ['t'], ['r', 'e'], ['v', 'e'], ['m'], ['l', 'l'], ['d']]

/-- `while (end < text.size())`: on over the code points of a class. -/
def skipWhile (p : Nat → Bool) (text : List UInt8) (finish : Nat) : Except SplitError Nat :=
  if hlt : finish < text.length then
    match hspan : qwenCodepointAt text finish with
    | .error error => .error error
    | .ok span => if !p span.value then .ok finish else skipWhile p text (finish + span.length)
  else .ok finish
termination_by text.length - finish
decreasing_by
  have := length_pos_of_codepointAt hspan
  omega

/-- The variables of the loop over whitespace; `npos` is `none`. -/
structure WhitespaceRun where
  finish : Nat
  lastBegin : Nat
  lastNewlineEnd : Option Nat
  count : Nat

def whitespaceStep (run : WhitespaceRun) (span : CodepointSpan) : WhitespaceRun :=
  { finish := run.finish + span.length
    lastBegin := run.finish
    lastNewlineEnd :=
      if isNewline span.value then some (run.finish + span.length) else run.lastNewlineEnd
    count := run.count + 1 }

def whitespaceLoop (category : Nat → Category) (text : List UInt8) (run : WhitespaceRun) :
    Except SplitError WhitespaceRun :=
  if hlt : run.finish < text.length then
    match hspan : qwenCodepointAt text run.finish with
    | .error error => .error error
    | .ok span =>
      if !isWhitespace category span.value then .ok run
      else whitespaceLoop category text (whitespaceStep run span)
  else .ok run
termination_by text.length - run.finish
decreasing_by
  have := length_pos_of_codepointAt hspan
  simp only [whitespaceStep]
  omega

/-- `qwen_word_end`, up to what its last line returns. -/
def qwenWordEndOr (fallThrough : Nat → Except SplitError Nat) (category : Nat → Category)
    (text : List UInt8) (start : Nat) : Except SplitError Nat := do
  let first ← qwenCodepointAt text start
  let afterFirst := start + first.length
  let cp := first.value
  match (if cp = 0x27 then
      suffixes.find? fun suffix => asciiCiMatches text afterFirst (suffix.map Char.toUInt8)
    else none) with
  | some suffix => .ok (afterFirst + suffix.length)
  | none =>
    let hasNext := decide (afterFirst < text.length)
    let next ← (if hasNext then (qwenCodepointAt text afterFirst).map (·.value) else .ok 0 : Except SplitError Nat)
    if isLetterOrMark category cp ||
        (isNonNewlineNonLetterNonNumber category cp && hasNext && isLetterOrMark category next) then
      skipWhile (isLetterOrMark category) text (if isLetterOrMark category cp then start else afterFirst)
    else if isNumber category cp then .ok afterFirst
    else if (cp == 0x20 && hasNext && isNonSpaceNonLetterMarkNumber category next) ||
        isNonSpaceNonLetterMarkNumber category cp then
      let finish ← skipWhile (isNonSpaceNonLetterMarkNumber category) text
        (if cp = 0x20 then afterFirst else start)
      skipWhile isNewline text finish
    else if isWhitespace category cp then
      let run ← whitespaceLoop category text ⟨start, start, none, 0⟩
      match run.lastNewlineEnd with
      | some finish => .ok finish
      | none =>
        if run.finish = text.length then .ok run.finish
        else .ok (if run.count ≥ 2 then run.lastBegin else run.finish)
    else fallThrough afterFirst

def qwenWordEnd : (Nat → Category) → List UInt8 → Nat → Except SplitError Nat :=
  qwenWordEndOr .ok

/-- The words of `append_normalized_bpe_ids`, from an offset; `none` when the fuel runs out. -/
def qwenWords (category : Nat → Category) (text : List UInt8) :
    Nat → Nat → Except SplitError (Option (List (List UInt8)))
  | 0, start => .ok (if start < text.length then none else some [])
  | fuel + 1, start =>
    if start < text.length then do
      let finish ← qwenWordEnd category text start
      let words ← qwenWords category text fuel finish
      return words.map (((text.drop start).take (finish - start)) :: ·)
    else .ok (some [])

/-! ## The pattern -/

/-- A letter of a literal, in either ASCII case. -/
def sameAscii (letter c : Char) : Bool :=
  letter.toNat == c.toNat || (letter.toNat == c.toNat + 0x20 && c.isUpper)

section
variable (category : Nat → Category) (c : Char)

/-- `[\r\n]`. -/
def newlineChar : Bool := c == '\r' || c == '\n'

/-- `\p{N}`. -/
def numberChar : Bool := isNumber category c.toNat

/-- `\s`. -/
def spaceChar : Bool := isWhitespace category c.toNat

/-- `[\p{L}\p{M}]`. -/
def letterMarkChar : Bool := isLetter category c.toNat || isMark category c.toNat

/-- `[^\r\n\p{L}\p{N}]`. -/
def prefixChar : Bool := !(newlineChar c || isLetter category c.toNat || numberChar category c)

/-- `[^\s\p{L}\p{M}\p{N}]`. -/
def symbolChar : Bool := !(spaceChar category c || letterMarkChar category c || numberChar category c)

end

/-- `(?i:'s|'t|'re|'ve|'m|'ll|'d)`, by what `(?i:...)` takes for a letter. -/
def contractions (same : Char → Char → Bool) : Regex Char :=
  oneOf (literal same '\'' ['s'])
    [literal same '\'' ['t'], literal same '\'' ['r', 'e'], literal same '\'' ['v', 'e'],
      literal same '\'' ['m'], literal same '\'' ['l', 'l'], literal same '\'' ['d']]

/-- `(?i:'s|'t|'re|'ve|'m|'ll|'d)|[^\r\n\p{L}\p{N}]?[\p{L}\p{M}]+|\p{N}`
    `| ?[^\s\p{L}\p{M}\p{N}]+[\r\n]*|\s*[\r\n]+|\s+(?!\S)|\s+`. -/
def qwenPattern (same : Char → Char → Bool) (category : Nat → Category) : Regex Char :=
  oneOf (contractions same)
    [.seq (.opt (.one (prefixChar category))) (plus (letterMarkChar category)), .one (numberChar category),
      .seq (.opt (.one (· == ' '))) (.seq (plus (symbolChar category)) (.many newlineChar)),
      .seq (.many (spaceChar category)) (plus newlineChar),
      .seq (plus (spaceChar category)) (.notAhead fun c => !spaceChar category c),
      plus (spaceChar category)]

end VoidInfer.Frontend
