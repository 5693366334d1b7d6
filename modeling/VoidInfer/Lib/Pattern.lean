import Mathlib.Data.List.Infix

/-
  Patterns with an order of preference. A backtracking matcher tries what a pattern can match at a position in a fixed
  order, greedy repetitions longest first, and the first that lets the rest of the pattern match wins.
-/

namespace Pattern
open List Option

variable {α : Type}

/-- A pattern over single characters: repetitions are of one character class. -/
inductive Regex (α : Type) where
  | one (p : α → Bool)
  | many (p : α → Bool)
  | opt (r : Regex α)
  | seq (r s : Regex α)
  | alt (r s : Regex α)
  | notAhead (p : α → Bool)

/-- `p*`, longest first, by what is left of the text. -/
@[simp] def manyEnds (p : α → Bool) : List α → List (List α)
  | [] => [[]]
  | c :: rest => if p c then manyEnds p rest ++ [c :: rest] else [c :: rest]

/-- What a pattern may leave of a text, in the order in which it is tried. -/
@[simp] def ends : Regex α → List α → List (List α)
  | .one _, [] => []
  | .one p, c :: rest => if p c then [rest] else []
  | .many p, text => manyEnds p text
  | .opt r, text => ends r text ++ [text]
  | .seq r s, text => (ends r text).flatMap (ends s)
  | .alt r s, text => ends r text ++ ends s text
  | .notAhead _, [] => [[]]
  | .notAhead p, c :: rest => if p c then [] else [c :: rest]

/-- `p+`. -/
def plus (p : α → Bool) : Regex α := .seq (.one p) (.many p)

/-- The characters of a literal, each up to `same`. -/
def literal (same : α → α → Bool) : α → List α → Regex α
  | c, [] => .one (same c)
  | c, d :: rest => .seq (.one (same c)) (literal same d rest)

/-- The text begins with a literal, up to `same`. -/
def startsWith (same : α → α → Bool) : List α → List α → Bool
  | [], _ => true
  | _ :: _, [] => false
  | c :: literal, x :: text => same c x && startsWith same literal text

/-- The alternatives of a pattern, first to last. -/
def oneOf : Regex α → List (Regex α) → Regex α
  | r, [] => r
  | r, s :: rest => .alt r (oneOf s rest)

/-- What the preferred match leaves. -/
def first (r : Regex α) (text : List α) : Option (List α) := (ends r text).head?

/-- The preferred match. -/
def firstMatch (r : Regex α) (text : List α) : Option (List α) :=
  (first r text).map fun rest => text.take (text.length - rest.length)

/-- A text that the pattern's matches make up, each at the end of the one before. -/
def Splits (r : Regex α) : List (List α) → List α → Prop
  | [], text => text = []
  | word :: words, text => word ≠ [] ∧ firstMatch r text = some word ∧ Splits r words (text.drop word.length)

/-! ## What is left is a suffix -/

theorem manyEnds_suffix (p : α → Bool) (text : List α) : ∀ rest ∈ manyEnds p text, rest <:+ text := by
  induction text with
  | nil => simp [manyEnds]
  | cons c text ih =>
    intro rest hrest
    rw [manyEnds] at hrest
    split at hrest
    · rcases mem_append.mp hrest with h | h
      · exact (ih rest h).trans (suffix_cons _ _)
      · rw [mem_singleton.mp h]
    · rw [mem_singleton.mp hrest]

theorem ends_suffix (r : Regex α) (text : List α) : ∀ rest ∈ ends r text, rest <:+ text := by
  induction r generalizing text with
  | one p =>
    cases text with
    | nil => simp [ends]
    | cons c text =>
      intro rest hrest
      rw [ends] at hrest
      split at hrest
      · rw [mem_singleton.mp hrest]
        exact suffix_cons _ _
      · cases hrest
  | many p => exact manyEnds_suffix p text
  | opt r ih =>
    intro rest hrest
    rcases mem_append.mp hrest with h | h
    · exact ih text rest h
    · rw [mem_singleton.mp h]
  | seq r s ihr ihs =>
    intro rest hrest
    obtain ⟨between, hbetween, hrest⟩ := mem_flatMap.mp hrest
    exact (ihs between rest hrest).trans (ihr text between hbetween)
  | alt r s ihr ihs =>
    intro rest hrest
    rcases mem_append.mp hrest with h | h
    · exact ihr text rest h
    · exact ihs text rest h
  | notAhead p =>
    cases text with
    | nil => simp [ends]
    | cons c text =>
      intro rest hrest
      rw [ends] at hrest
      split at hrest
      · cases hrest
      · rw [mem_singleton.mp hrest]

theorem first_suffix {r : Regex α} {text rest : List α} (h : first r text = some rest) : rest <:+ text :=
  ends_suffix r text rest (mem_of_mem_head? h)

theorem firstMatch_iff {r : Regex α} {text found : List α} :
    firstMatch r text = some found ↔ ∃ rest, text = found ++ rest ∧ first r text = some rest := by
  rw [firstMatch, map_eq_some_iff]
  constructor
  · intro ⟨rest, hfirst, htake⟩
    obtain ⟨before, rfl⟩ := first_suffix hfirst
    rw [length_append, Nat.add_sub_cancel, take_left] at htake
    exact ⟨rest, htake ▸ rfl, hfirst⟩
  · intro ⟨rest, hsplit, hfirst⟩
    refine ⟨rest, hfirst, ?_⟩
    rw [hsplit, length_append, Nat.add_sub_cancel, take_left]

theorem flatten_of_splits {r : Regex α} {words : List (List α)} {text : List α} (h : Splits r words text) :
    words.flatten = text := by
  induction words generalizing text with
  | nil => exact Eq.symm h
  | cons word words ih =>
    obtain ⟨-, hmatch, hrest⟩ := h
    obtain ⟨rest, rfl, -⟩ := firstMatch_iff.mp hmatch
    rw [flatten_cons, ih hrest, drop_left]

/-! ## The preferred match, by the pattern -/

section
variable (p : α → Bool) (r s : Regex α) (c : α) (text : List α)

@[simp] theorem first_one : first (.one p) (c :: text) = if p c then some text else none := by
  rw [first, ends]
  split <;> rfl

theorem first_alt : first (.alt r s) text = (first r text).or (first s text) := by
  rw [first, ends, head?_append]
  rfl

theorem first_seq : first (.seq r s) text = (ends r text).findSome? (first s) := by
  rw [first, ends, head?_flatMap]
  rfl

theorem first_many : first (.many p) text = some (text.dropWhile p) := by
  rw [first, ends]
  induction text with
  | nil => rfl
  | cons c text ih =>
    rw [manyEnds, dropWhile_cons]
    split
    · rw [head?_append, ih]
      rfl
    · rfl

@[simp] theorem first_notAhead :
    first (.notAhead p) (c :: text) = if p c then none else some (c :: text) := by
  rw [first, ends]
  split <;> rfl

theorem first_opt_seq : first (.seq (.opt (.one p)) s) (c :: text) =
    if p c then (first s text).or (first s (c :: text)) else first s (c :: text) := by
  rw [first_seq]
  simp only [ends]
  split
  · rw [findSome?_append]
    simp
  · simp

theorem first_one_seq_nil : first (.seq (.one p) s) [] = none := by
  rfl

theorem first_one_seq :
    first (.seq (.one p) s) (c :: text) = if p c then first s text else none := by
  rw [first_seq]
  simp only [ends]
  split <;> simp

theorem first_many_seq : first (.seq (.many p) s) (c :: text) =
    if p c then (first (.seq (.many p) s) text).or (first s (c :: text)) else first s (c :: text) := by
  simp only [first_seq, ends, manyEnds]
  split
  · simp
  · simp

theorem first_seq_many : first (.seq r (.many p)) text = (first r text).map (List.dropWhile p) := by
  rw [first_seq, first]
  cases ends r text with
  | nil => rfl
  | cons rest more => simp [first_many]

@[simp] theorem first_plus :
    first (plus p) (c :: text) = if p c then some (text.dropWhile p) else none := by
  rw [plus, first_seq_many, first_one]
  split <;> rfl

theorem first_literal (same : α → α → Bool) (chars : List α) : first (literal same c chars) text =
    if startsWith same (c :: chars) text then some (text.drop (chars.length + 1)) else none := by
  induction chars generalizing c text with
  | nil =>
    cases text with
    | nil => rfl
    | cons x text => simp [literal, startsWith]
  | cons d chars ih =>
    cases text with
    | nil => simp [literal, startsWith, first_one_seq_nil]
    | cons x text =>
      rw [literal, first_one_seq, ih, startsWith]
      cases same c x <;> simp

theorem first_oneOf (more : List (Regex α)) :
    first (oneOf r more) text = (r :: more).findSome? fun s => first s text := by
  induction more generalizing r with
  | nil => simp [oneOf]
  | cons s more ih =>
    simp only [oneOf, first_alt, ih, findSome?_cons]
    cases first r text <;> rfl

end

/-! ## Shapes of alternatives -/

section
variable {p q : α → Bool} {s : Regex α} {g : List α → List α}

theorem first_opt_run (hnil : first s [] = none)
    (hcons : ∀ c text, first s (c :: text) = if q c then some (g text) else none) (c : α) (text : List α) :
    first (.seq (.opt (.one p)) s) (c :: text) =
      if p c && text.head?.any q then some (g text.tail) else if q c then some (g text) else none := by
  rw [first_opt_seq, hcons]
  cases text with
  | nil => cases p c <;> simp [hnil]
  | cons d text =>
    rw [hcons, head?_cons, any_some, tail_cons]
    cases p c with
    | false => simp
    | true => by_cases hd : q d = true <;> simp [hd]

/-- A text up to the last character of a class. -/
def uptoLast (q : α → Bool) : List α → Option (List α)
  | [] => none
  | c :: text =>
    match uptoLast q text with
    | some found => some (c :: found)
    | none => if q c then some [c] else none

theorem uptoLast_none {text : List α} (h : uptoLast q text = none) : ∀ c ∈ text, q c = false := by
  induction text with
  | nil => simp
  | cons c text ih =>
    rw [uptoLast] at h
    split at h
    · cases h
    next hnone =>
    rw [ite_eq_right_iff] at h
    intro d hd
    rcases mem_cons.mp hd with rfl | hd
    · exact Bool.not_eq_true _ ▸ fun hq => nomatch h hq
    · exact ih hnone d hd

theorem uptoLast_prefix {text found : List α} (h : uptoLast q text = some found) : found ≠ [] ∧ found <+: text := by
  induction text generalizing found with
  | nil => cases h
  | cons c text ih =>
    rw [uptoLast] at h
    split at h
    · next hfound =>
      cases h
      exact ⟨cons_ne_nil _ _, (prefix_cons_inj c).mpr (ih hfound).2⟩
    rw [ite_none_right_eq_some] at h
    obtain ⟨-, h⟩ := h
    cases h
    exact ⟨cons_ne_nil _ _, (prefix_cons_inj c).mpr nil_prefix⟩

theorem first_many_plus (hsub : ∀ c, q c = true → p c = true) (text : List α) :
    first (.seq (.many p) (plus q)) text =
      (uptoLast q (text.takeWhile p)).map fun found => text.drop found.length := by
  induction text with
  | nil => rfl
  | cons c text ih =>
    rw [first_many_seq, ih, first_plus]
    cases hp : p c with
    | false =>
      have hq : q c = false := Bool.eq_false_iff.mpr fun h => Bool.false_ne_true (hp.symm.trans (hsub c h))
      simp [hp, hq, uptoLast]
    | true =>
      rw [takeWhile_cons_of_pos hp, uptoLast]
      cases hlast : uptoLast q _ with
      | some found => simp
      | none =>
        -- no `q` begins what follows, so `q+` takes the one character only
        have hstop : text.dropWhile q = text := by
          cases text with
          | nil => rfl
          | cons d text =>
            refine dropWhile_cons_of_neg fun hq => ?_
            rw [takeWhile_cons_of_pos (hsub d hq)] at hlast
            rw [uptoLast_none hlast d mem_cons_self] at hq
            cases hq
        cases q c <;> simp [hstop]

theorem first_plus_seq (c : α) (text : List α) :
    first (.seq (plus p) s) (c :: text) = if p c then first (.seq (.many p) s) text else none := by
  have hends : ends (plus p) (c :: text) = if p c then manyEnds p text else [] := by
    rw [plus, ends, ends]
    cases p c <;> simp [ends]
  rw [first_seq, first_seq, hends, ends]
  split <;> rfl

theorem first_many_notAhead (text : List α) :
    first (.seq (.many p) (.notAhead fun c => !p c)) text =
      if text.dropWhile p = [] then some []
      else if text.takeWhile p = [] then none
      else some (text.drop ((text.takeWhile p).length - 1)) := by
  induction text with
  | nil => rfl
  | cons c text ih =>
    rw [first_many_seq, ih, first_notAhead]
    cases hp : p c with
    | false => simp [hp]
    | true =>
      simp only [dropWhile_cons_of_pos hp, takeWhile_cons_of_pos hp, length_cons]
      by_cases hend : text.dropWhile p = []
      · simp [hend]
      cases hrun : text.takeWhile p with
      | nil => simp [hend]
      | cons d run => simp [hend]

end

end Pattern
