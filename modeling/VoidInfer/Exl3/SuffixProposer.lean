import VoidInfer.Base
import Mathlib.Data.List.GetD
import Mathlib.Data.List.Induction

/-
  The suffix proposer (`src/exl3/suffix_proposer.h`): a ring of the last 4096 tokens, and for each low byte a chain of
  the positions where it occurs, threaded through a second ring. A proposal continues a past occurrence of the current
  key. Selection limits and outcome statistics are left out: they decide whether to propose, not what.

  The rings are functions of the index, a position that is -1 in the source is `none`, and `finish` is `end_`.

  `Represents s h`: the state is what appending `h` leaves. The chains then list, most recent first, all positions of a
  byte, so a search sees the occurrences in the window and no overwritten entry (`propose_is_naive`).
-/

namespace VoidInfer.Exl3
open List

/-- `capacity`. -/
def suffixCapacity : Nat := 4096

/-- `Entry`: the position it was written for, and the one before it in its bucket. -/
structure SuffixEntry where
  finish : Option Nat := none
  previous : Option Nat := none

structure SuffixProposer where
  keyTokens : Nat
  finish : Nat := 0
  history : Nat → Int := fun _ => 0
  entries : Nat → SuffixEntry := fun _ => {}
  heads : Nat → Option Nat := fun _ => none

/-- The low byte of a token. -/
def bucketOf (token : Int) : Nat := token.toNat % 256

/-- A token of the vocabulary. -/
def SuffixToken (token : Int) : Prop := 0 ≤ token ∧ token < 248320

instance (token : Int) : Decidable (SuffixToken token) := inferInstanceAs (Decidable (_ ∧ _))

namespace SuffixProposer

/-! ## Calls -/

/-- The constructor. -/
def make (keyTokens : Nat) : Except Exn SuffixProposer := do
  throwIf (keyTokens < 2 ∨ keyTokens > 4) (.invalidArgument "suffix key tokens must be2..4")
  return { keyTokens }

/-- `reset`; `history_` keeps its contents. -/
def reset (s : SuffixProposer) : SuffixProposer :=
  { s with finish := 0, heads := fun _ => none, entries := fun _ => {} }

/-- One round of the loop of `append`. -/
def push (s : SuffixProposer) (token : Int) : SuffixProposer :=
  let position := s.finish
  let slot := position % suffixCapacity
  let s := { s with finish := position + 1, history := fun i => if i = slot then token else s.history i }
  if position ≥ s.keyTokens - 1 then
    let bucket := bucketOf token
    { s with
      entries := fun i => if i = slot then ⟨some position, s.heads bucket⟩ else s.entries i
      heads := fun b => if b = bucket then some position else s.heads b }
  else s

def append (s : SuffixProposer) (tokens : List Int) : Except Exn SuffixProposer := do
  throwIf (tokens.length > 2 ^ 63 - 1 - s.finish) (.overflowError "suffix history position")
  throwIf (∃ token ∈ tokens, ¬ SuffixToken token) (.invalidArgument "suffix history token")
  return tokens.foldl push s

/-- `at`. -/
def tokenAt (s : SuffixProposer) (position : Nat) : Int := s.history (position % suffixCapacity)

/-- The comparison of a chain entry with the key: the seed, and the tokens before it. -/
def matchesKey (s : SuffixProposer) (seed : Int) (cursor : Nat) : Bool :=
  decide (cursor + 1 < s.finish) && decide (s.tokenAt cursor = seed) &&
    (List.range' 1 (s.keyTokens - 1)).all fun back => decide (s.tokenAt (cursor - back) = s.tokenAt (s.finish - back))

/-- The loop that copies rows: from `next`, at most `room` of them. -/
def copyRows (s : SuffixProposer) : Nat → Nat → List Int
  | _, 0 => []
  | next, room + 1 => if next < s.finish then s.tokenAt next :: s.copyRows (next + 1) room else []

/-- The walk along a chain, with the visits left and the best proposal so far. -/
def search (s : SuffixProposer) (seed : Int) (maximumRows oldest : Nat) : Nat → Option Nat → List Int → List Int
  | 0, _, result => result
  | _ + 1, none, result => result
  | visits + 1, some cursor, result =>
    if cursor < oldest + (s.keyTokens - 1) then result
    else
      let entry := s.entries (cursor % suffixCapacity)
      if entry.finish ≠ some cursor then result
      else
        let available := min maximumRows (s.finish - cursor)
        if s.matchesKey seed cursor = true ∧ available > result.length then
          let result := seed :: s.copyRows (cursor + 1) (available - 1)
          if result.length = maximumRows then result else s.search seed maximumRows oldest visits entry.previous result
        else s.search seed maximumRows oldest visits entry.previous result

/-- `propose`: the first `rows` tokens of the proposal. -/
def propose (s : SuffixProposer) (seed maximumRows : Int) : Except Exn (List Int) := do
  throwIf (¬ SuffixToken seed ∨ maximumRows < 1 ∨ maximumRows > 8) (.invalidArgument "suffix proposal seed/extent")
  if s.finish < s.keyTokens - 1 ∨ maximumRows = 1 then return []
  else return s.search seed maximumRows.toNat (s.finish - suffixCapacity) 64 (s.heads (bucketOf seed)) []

/-! ## The occurrences of a byte -/

variable {key : Nat} {h : List Int}

/-- Position `p` is indexed under the byte. -/
def Indexed (key : Nat) (h : List Int) (bucket p : Nat) : Prop := key - 1 ≤ p ∧ bucketOf (h.getD p 0) = bucket

instance (key : Nat) (h : List Int) (bucket p : Nat) : Decidable (Indexed key h bucket p) :=
  inferInstanceAs (Decidable (_ ∧ _))

/-- The last indexed position below `n`. -/
def lastIndexed (key : Nat) (h : List Int) (bucket : Nat) : Nat → Option Nat
  | 0 => none
  | n + 1 => if Indexed key h bucket n then some n else lastIndexed key h bucket n

variable {bucket n maximumRows : Nat} {seed : Int}

variable {p floor c : Nat} {tokens : List Int}

theorem indexed_append (hp : p < h.length) (t : Int) : Indexed key (h ++ [t]) bucket p ↔ Indexed key h bucket p := by
  unfold Indexed
  rw [getD_append _ _ _ _ hp]

theorem lastIndexed_append (hn : n ≤ h.length) (t : Int) :
    lastIndexed key (h ++ [t]) bucket n = lastIndexed key h bucket n := by
  induction n with
  | zero => rfl
  | succ n ih =>
    have hlast : Indexed key (h ++ [t]) bucket n ↔ Indexed key h bucket n := indexed_append hn t
    simp only [lastIndexed, hlast, ih (by omega)]

/-- The state is what appending `h` leaves. -/
structure Represents (s : SuffixProposer) (h : List Int) : Prop where
  finish : s.finish = h.length
  window : ∀ p, p < h.length → h.length ≤ p + suffixCapacity → s.tokenAt p = h.getD p 0
  entry : ∀ p, s.keyTokens - 1 ≤ p → p < h.length → h.length ≤ p + suffixCapacity →
    s.entries (p % suffixCapacity) = ⟨some p, lastIndexed s.keyTokens h (bucketOf (h.getD p 0)) p⟩
  head : ∀ bucket, s.heads bucket = lastIndexed s.keyTokens h bucket h.length

variable {s : SuffixProposer}

theorem slot_ne (hlt : p < n) (hwindow : n + 1 ≤ p + suffixCapacity) : p % suffixCapacity ≠ n % suffixCapacity := by
  unfold suffixCapacity at *
  omega

theorem push_keyTokens (s : SuffixProposer) (t : Int) : (s.push t).keyTokens = s.keyTokens := by
  simp only [push]
  split <;> rfl

theorem push_finish (s : SuffixProposer) (t : Int) : (s.push t).finish = s.finish + 1 := by
  simp only [push]
  split <;> rfl

theorem push_history (s : SuffixProposer) (t : Int) (i : Nat) :
    (s.push t).history i = if i = s.finish % suffixCapacity then t else s.history i := by
  simp only [push]
  split <;> rfl

theorem push_entries (s : SuffixProposer) (t : Int) (i : Nat) : (s.push t).entries i =
    if s.keyTokens - 1 ≤ s.finish ∧ i = s.finish % suffixCapacity then ⟨some s.finish, s.heads (bucketOf t)⟩
    else s.entries i := by
  simp only [push]
  split
  · next hge => simp only [ge_iff_le.mp hge, true_and]
  · next hlt => rw [if_neg fun h => hlt h.1]

theorem push_heads (s : SuffixProposer) (t : Int) (b : Nat) : (s.push t).heads b =
    if s.keyTokens - 1 ≤ s.finish ∧ b = bucketOf t then some s.finish else s.heads b := by
  simp only [push]
  split
  · next hge => simp only [ge_iff_le.mp hge, true_and]
  · next hlt => rw [if_neg fun h => hlt h.1]

theorem getD_concat (h : List Int) (t : Int) : (h ++ [t]).getD h.length 0 = t := by simp

/-- One token more. -/
theorem Represents.push (hr : Represents s h) (t : Int) : Represents (s.push t) (h ++ [t]) := by
  have hfinish := hr.finish
  have hlength : (h ++ [t]).length = h.length + 1 := by simp
  refine ⟨?_, ?_, ?_, ?_⟩
  · rw [push_finish, hfinish, hlength]
  · intro p hp hwindow
    rw [hlength] at hp hwindow
    unfold tokenAt
    rw [push_history, hfinish]
    rcases Nat.lt_or_eq_of_le (Nat.le_of_lt_succ hp) with hlt | rfl
    · rw [if_neg (slot_ne hlt hwindow), getD_append _ _ _ _ hlt]
      exact hr.window p hlt (by omega)
    · rw [if_pos rfl, getD_concat]
  · intro p hkey hp hwindow
    rw [hlength] at hp hwindow
    rw [push_keyTokens] at hkey ⊢
    rw [push_entries, hfinish]
    rcases Nat.lt_or_eq_of_le (Nat.le_of_lt_succ hp) with hlt | rfl
    · rw [if_neg fun hslot => slot_ne hlt hwindow hslot.2, getD_append _ _ _ _ hlt,
        lastIndexed_append (Nat.le_of_lt hlt)]
      exact hr.entry p hkey hlt (by omega)
    · rw [if_pos ⟨hkey, rfl⟩, getD_concat, lastIndexed_append (Nat.le_refl _), hr.head]
  · intro bucket
    rw [push_keyTokens, push_heads, hfinish, hlength, lastIndexed, lastIndexed_append (Nat.le_refl _), hr.head]
    have hnew : Indexed s.keyTokens (h ++ [t]) bucket h.length ↔ s.keyTokens - 1 ≤ h.length ∧ bucket = bucketOf t := by
      unfold Indexed
      rw [getD_concat, eq_comm (a := bucket)]
    simp only [hnew]

theorem Represents.foldl_push : ∀ {s : SuffixProposer} {h : List Int}, Represents s h →
    Represents (tokens.foldl SuffixProposer.push s) (h ++ tokens) := by
  induction tokens with
  | nil =>
    intro s h hr
    rw [append_nil]
    exact hr
  | cons t tokens ih =>
    intro s h hr
    have htail := ih (hr.push t)
    rw [append_assoc] at htail
    exact htail

theorem foldl_push_keyTokens : ∀ {s : SuffixProposer}, (tokens.foldl push s).keyTokens = s.keyTokens := by
  induction tokens with
  | nil => exact rfl
  | cons t tokens ih =>
    intro s
    rw [foldl_cons, ih, push_keyTokens]

theorem represents_empty (hfinish : s.finish = 0) (hheads : ∀ b, s.heads b = none) : Represents s [] := by
  refine ⟨hfinish, ?_, ?_, hheads⟩
  · intro p hp
    exact absurd hp (Nat.not_lt_zero p)
  · intro p _ hp
    exact absurd hp (Nat.not_lt_zero p)

/-! ## The walk along a chain -/

/-- The positions below `n` in the window, from `floor` on, whose token has the byte; most recent first. -/
def occurrences (h : List Int) (floor bucket n : Nat) : List Nat :=
  (List.range n).reverse.filter fun c => decide (floor ≤ c) && decide (bucketOf (h.getD c 0) = bucket)

theorem occurrences_succ (h : List Int) (floor bucket n : Nat) : occurrences h floor bucket (n + 1) =
    if floor ≤ n ∧ bucketOf (h.getD n 0) = bucket then n :: occurrences h floor bucket n
    else occurrences h floor bucket n := by
  unfold occurrences
  rw [range_succ, reverse_append, reverse_singleton, singleton_append, filter_cons]
  simp only [Bool.and_eq_true, decide_eq_true_eq]

theorem occurrences_low (hn : n ≤ floor) : occurrences h floor bucket n = [] := by
  refine filter_eq_nil_iff.mpr fun c hc => ?_
  have hlt := mem_range.mp (mem_reverse.mp hc)
  simp only [Bool.and_eq_true, decide_eq_true_eq, not_and]
  omega

theorem occurrences_of_lastIndexed (h : List Int) (bucket n : Nat) (hfloor : key - 1 ≤ floor) :
    match lastIndexed key h bucket n with
    | none => occurrences h floor bucket n = []
    | some c => c < n ∧ bucketOf (h.getD c 0) = bucket ∧
        occurrences h floor bucket n = if c < floor then [] else c :: occurrences h floor bucket c := by
  induction n with
  | zero => rfl
  | succ n ih =>
    rw [lastIndexed, occurrences_succ]
    by_cases hindexed : Indexed key h bucket n
    · rw [if_pos hindexed]
      refine ⟨Nat.lt_succ_self n, hindexed.2, ?_⟩
      by_cases hlow : n < floor
      · rw [if_neg (by omega), if_pos hlow]
        exact occurrences_low (Nat.le_of_lt hlow)
      · rw [if_pos ⟨by omega, hindexed.2⟩, if_neg hlow]
    have hskip : ¬ (floor ≤ n ∧ bucketOf (h.getD n 0) = bucket) := fun hn => hindexed ⟨by omega, hn.2⟩
    rw [if_neg hindexed, if_neg hskip]
    cases hlast : lastIndexed key h bucket n with
    | none =>
      rw [hlast] at ih
      exact ih
    | some c =>
      rw [hlast] at ih
      exact ⟨Nat.lt_succ_of_lt ih.1, ih.2⟩

/-- The rows a position offers. -/
def rowsAt (s : SuffixProposer) (seed : Int) (maximumRows c : Nat) : List Int :=
  seed :: s.copyRows (c + 1) (min maximumRows (s.finish - c) - 1)

/-- A visit: the position is taken if it matches and offers more rows. -/
def improve (s : SuffixProposer) (seed : Int) (maximumRows : Nat) (result : List Int) (c : Nat) : List Int :=
  if s.matchesKey seed c = true ∧ min maximumRows (s.finish - c) > result.length then s.rowsAt seed maximumRows c
  else result

theorem foldl_improve_full {result : List Int} (hfull : result.length = maximumRows)
    (l : List Nat) : l.foldl (s.improve seed maximumRows) result = result := by
  induction l with
  | nil => rfl
  | cons c l ih =>
    rw [foldl_cons]
    unfold improve
    rw [if_neg fun hbetter => by omega]
    exact ih

theorem search_eq (hr : Represents s h) {visits : Nat} : ∀ n result,
    n ≤ h.length → s.search seed maximumRows (s.finish - suffixCapacity) visits
      (lastIndexed s.keyTokens h (bucketOf seed) n) result =
    ((occurrences h (h.length - suffixCapacity + (s.keyTokens - 1)) (bucketOf seed) n).take visits).foldl
      (s.improve seed maximumRows) result := by
  have hfinish := hr.finish
  induction visits with
  | zero =>
    intro n result _
    rfl
  | succ visits ih =>
    intro n result hn
    have hchain := occurrences_of_lastIndexed h (bucketOf seed) n
      (show s.keyTokens - 1 ≤ h.length - suffixCapacity + (s.keyTokens - 1) by omega)
    cases hlast : lastIndexed s.keyTokens h _ n with
    | none =>
      rw [hlast] at hchain
      rw [hchain]
      rfl
    | some c =>
      rw [hlast] at hchain
      obtain ⟨hc, hbucket, hoccurrences⟩ := hchain
      rw [search, hfinish]
      by_cases hlow : c < h.length - suffixCapacity + (s.keyTokens - 1)
      · rw [if_pos hlow] at hoccurrences ⊢
        rw [hoccurrences]
        rfl
      rw [if_neg hlow] at hoccurrences ⊢
      have hentry := hr.entry c (by omega) (by omega) (by omega)
      rw [hbucket] at hentry
      rw [hoccurrences, take_succ_cons, foldl_cons]
      simp only [hentry, ne_eq, not_true_eq_false, if_false]
      have hrows : s.rowsAt seed maximumRows c = seed :: s.copyRows (c + 1) (min maximumRows (h.length - c) - 1) := by
        rw [rowsAt, hfinish]
      have himprove : s.improve seed maximumRows result c =
          if s.matchesKey seed c = true ∧ min maximumRows (h.length - c) > result.length then
            seed :: s.copyRows (c + 1) (min maximumRows (h.length - c) - 1)
          else result := by
        rw [improve, hrows, hfinish]
      have hnext := ih c (s.improve seed maximumRows result c) (by omega)
      rw [hfinish] at hnext
      rw [himprove] at hnext ⊢
      split
      · next hbetter =>
        rw [if_pos hbetter] at hnext
        split
        · next hfull => exact (foldl_improve_full hfull _).symm
        · exact hnext
      next hworse =>
      rw [if_neg hworse] at hnext
      exact hnext

/-! ## The naive specification -/

/-- The position ends an occurrence of the key: the seed after the tokens that now end the history. -/
def Hit (key : Nat) (h : List Int) (seed : Int) (c : Nat) : Prop :=
  c + 1 < h.length ∧ h.getD c 0 = seed ∧ ∀ i, 1 ≤ i → i < key → h.getD (c - i) 0 = h.getD (h.length - i) 0

/-- The rows a position can give. -/
def score (maximumRows : Nat) (h : List Int) (c : Nat) : Nat := min maximumRows (h.length - c)

/-- Of these positions the first, most recent, of those that give most rows; its rows are the seed and what followed. -/
def Best (key maximumRows : Nat) (h : List Int) (seed : Int) (positions : List Nat) (rows : List Int) : Prop :=
  (rows = [] ∧ ∀ c ∈ positions, ¬ Hit key h seed c) ∨
  ∃ c ∈ positions, Hit key h seed c ∧
    (∀ c' ∈ positions, Hit key h seed c' → score maximumRows h c' ≤ score maximumRows h c ∧
      (score maximumRows h c' = score maximumRows h c → c' ≤ c)) ∧
    rows = (seed :: h.drop (c + 1)).take (score maximumRows h c)

/-- The positions that a proposal looks at: at most 64 in the last 4096 tokens. -/
def recent (key : Nat) (h : List Int) (seed : Int) : List Nat :=
  (occurrences h (h.length - suffixCapacity + (key - 1)) (bucketOf seed) h.length).take 64

theorem copyRows_eq (hr : Represents s h) {room : Nat} : ∀ {next : Nat}, h.length ≤ next + suffixCapacity →
    s.copyRows next room = (h.drop next).take room := by
  induction room with
  | zero =>
    intro next _
    rfl
  | succ room ih =>
    intro next hwindow
    rw [copyRows, hr.finish]
    split
    · next hlt =>
      rw [hr.window next hlt hwindow, ih (by omega), drop_eq_getElem_cons hlt, take_succ_cons,
        getD_eq_getElem _ _ hlt]
    · next hge => rw [drop_eq_nil_of_le (by omega), take_nil]

theorem matchesKey_iff (hr : Represents s h) (seed : Int) (hkey : s.keyTokens ≤ 4)
    (hlow : h.length - suffixCapacity + (s.keyTokens - 1) ≤ c) :
    s.matchesKey seed c = true ↔ Hit s.keyTokens h seed c := by
  unfold matchesKey Hit
  simp only [Bool.and_eq_true, decide_eq_true_eq, List.all_eq_true, mem_range'_1, hr.finish, and_assoc]
  refine and_congr_right fun hlt => ?_
  rw [hr.window c (by omega) (by omega)]
  refine and_congr_right fun _ => ?_
  have hback : ∀ i, 1 ≤ i → i < s.keyTokens → s.tokenAt (c - i) = h.getD (c - i) 0 ∧
      s.tokenAt (h.length - i) = h.getD (h.length - i) 0 := by
    intro i hone hi
    exact ⟨hr.window _ (by omega) (by omega), hr.window _ (by omega) (by omega)⟩
  constructor
  · intro hall i hone hi
    obtain ⟨hleft, hright⟩ := hback i hone hi
    rw [← hleft, ← hright]
    exact hall i ⟨hone, by omega⟩
  · intro hall i hi
    obtain ⟨hleft, hright⟩ := hback i hi.1 (by omega)
    rw [hleft, hright]
    exact hall i hi.1 (by omega)

/-- What the visits of decreasing positions leave. -/
theorem foldl_improve_best (hr : Represents s h) (seed : Int) (hkey : s.keyTokens ≤ 4)
    (hrows : 1 ≤ maximumRows) {l : List Nat} (hsorted : l.Pairwise (· > ·))
    (hlow : ∀ c ∈ l, h.length - suffixCapacity + (s.keyTokens - 1) ≤ c) :
    Best s.keyTokens maximumRows h seed l (l.foldl (s.improve seed maximumRows) []) := by
  induction l using List.reverseRecOn with
  | nil => exact .inl ⟨rfl, by simp⟩
  | append_singleton l c ih =>
    obtain ⟨hsorted, _, hlast⟩ := pairwise_append.mp hsorted
    have hbelow : ∀ c' ∈ l, c < c' := fun c' hc' => hlast c' hc' c (mem_singleton.mpr rfl)
    have ih := ih hsorted fun c' hc' => hlow c' (mem_append_left _ hc')
    have hmatch := matchesKey_iff hr seed hkey (hlow c (by simp))
    rw [foldl_append, foldl_cons, foldl_nil]
    generalize hresult : l.foldl (s.improve seed maximumRows) [] = result at ih
    have hscore : min maximumRows (s.finish - c) = score maximumRows h c := by rw [score, hr.finish]
    rw [improve, hscore]
    split
    -- the position beats all before it
    · next hbetter =>
      obtain ⟨hmatches, hmore⟩ := hbetter
      have hhit := hmatch.mp hmatches
      refine .inr ⟨c, by simp, hhit, fun c' hc' hhit' => ?_, ?_⟩
      · rcases mem_append.mp hc' with hc' | hc'
        · rcases ih with ⟨_, hnone⟩ | ⟨best, hbest, hbesthit, hmax, hresult⟩
          · exact absurd hhit' (hnone c' hc')
          · have hle := (hmax c' hc' hhit').1
            rw [hresult, length_take, length_cons, length_drop] at hmore
            unfold score at *
            omega
        · rw [mem_singleton.mp hc']
          exact ⟨Nat.le_refl _, fun _ => Nat.le_refl _⟩
      have hhit1 := hhit.1
      obtain ⟨rows, hrow⟩ : ∃ rows, score maximumRows h c = rows + 1 := ⟨score maximumRows h c - 1, by
        omega⟩
      rw [rowsAt, hscore, hrow, take_succ_cons, Nat.add_sub_cancel, copyRows_eq hr]
      have hc := hlow c (by simp)
      omega
    · next hworse =>
      rcases ih with ⟨hempty, hnone⟩ | ⟨best, hbest, hbesthit, hmax, hresult⟩
      · refine .inl ⟨hempty, fun c' hc' hhit => ?_⟩
        rcases mem_append.mp hc' with hc' | hc'
        · exact hnone c' hc' hhit
        rw [mem_singleton.mp hc'] at hhit
        refine hworse ⟨hmatch.mpr hhit, ?_⟩
        have hhit1 := hhit.1
        rw [hempty, length_nil]
        unfold score
        omega
      refine .inr ⟨best, mem_append_left _ hbest, hbesthit, fun c' hc' hhit => ?_, hresult⟩
      rcases mem_append.mp hc' with hc' | hc'
      · exact hmax c' hc' hhit
      obtain rfl := mem_singleton.mp hc'
      have hless : ¬ score maximumRows h c' > result.length := fun hmore =>
        hworse ⟨hmatch.mpr hhit, hmore⟩
      rw [hresult, length_take, length_cons, length_drop] at hless
      have hlt := hbelow best hbest
      exact ⟨by omega, fun _ => by omega⟩

/-! ## Runs -/

/-- A proposer and the tokens appended since it was made or last reset. -/
inductive Run (key : Nat) : SuffixProposer → List Int → Prop where
  | make {s : SuffixProposer} (hm : make key = .ok s) : Run key s []
  | append {s s' : SuffixProposer} {h tokens : List Int} (hr : Run key s h) (ha : s.append tokens = .ok s') :
      Run key s' (h ++ tokens)
  | reset {s : SuffixProposer} {h : List Int} (hr : Run key s h) : Run key s.reset []

theorem Run.represents {s : SuffixProposer} {h : List Int} (hr : Run key s h) :
    Represents s h ∧ s.keyTokens = key ∧ 2 ≤ key ∧ key ≤ 4 := by
  induction hr with
  | make hm =>
    obtain ⟨hkey, hm⟩ := check_ok hm
    cases hm
    exact ⟨represents_empty rfl fun _ => rfl, rfl, by omega, by omega⟩
  | append _ ha ih =>
    obtain ⟨hrep, hkey, hbounds⟩ := ih
    obtain ⟨_, _, ha⟩ := bind_ok ha
    obtain ⟨_, _, ha⟩ := bind_ok ha
    cases ha
    exact ⟨hrep.foldl_push, foldl_push_keyTokens.trans hkey, hbounds⟩
  | reset _ ih => exact ⟨represents_empty rfl fun _ => rfl, ih.2⟩

theorem recent_sorted (key : Nat) (h : List Int) (seed : Int) : (recent key h seed).Pairwise (· > ·) := by
  have hrange : (List.range h.length).reverse.Pairwise (· > ·) := pairwise_reverse.mpr pairwise_lt_range
  exact (hrange.filter _).sublist (take_sublist _ _)

theorem recent_low (hc : c ∈ recent key h seed) : h.length - suffixCapacity + (key - 1) ≤ c := by
  have hmem := mem_of_mem_take hc
  have hfilter := (mem_filter.mp hmem).2
  simp only [Bool.and_eq_true, decide_eq_true_eq] at hfilter
  exact hfilter.1

/-- For every history, seed and number of rows from two to eight, `propose` is the naive search; with one row it proposes
    nothing; other arguments are refused. A proposal is empty or has two rows or more. -/
theorem propose_is_naive {s : SuffixProposer} {h : List Int} (hr : Run key s h) (seed maximumRows : Int) :
    (SuffixToken seed → 2 ≤ maximumRows → maximumRows ≤ 8 → ∃ rows, s.propose seed maximumRows = .ok rows ∧
      Best key maximumRows.toNat h seed (recent key h seed) rows ∧ (rows = [] ∨ 2 ≤ rows.length)) ∧
    (SuffixToken seed → maximumRows = 1 → s.propose seed maximumRows = .ok []) ∧
    (¬ SuffixToken seed ∨ maximumRows < 1 ∨ 8 < maximumRows →
      s.propose seed maximumRows = .error (.invalidArgument "suffix proposal seed/extent")) := by
  obtain ⟨hrep, hkey, htwo, hfour⟩ := hr.represents
  refine ⟨fun hseed hmin hmax => ?_, fun hseed hone => ?_, fun hbad => ?_⟩
  · have hvalid : ¬ (¬ SuffixToken seed ∨ maximumRows < 1 ∨ maximumRows > 8) := by
      simp only [not_or, Decidable.not_not]
      exact ⟨hseed, by omega, by omega⟩
    have hbest := foldl_improve_best hrep seed
      (by omega) (show 1 ≤ maximumRows.toNat by omega) (recent_sorted key h seed) fun c hc => by
        rw [hkey]
        exact recent_low hc
    rw [hkey] at hbest
    have hrows : ∀ rows, Best key maximumRows.toNat h seed (recent key h seed) rows → rows = [] ∨ 2 ≤ rows.length := by
      intro rows hrows
      rcases hrows with ⟨hempty, _⟩ | ⟨c, _, hhit, _, heq⟩
      · exact .inl hempty
      have hhit1 := hhit.1
      rw [heq, length_take, length_cons, length_drop]
      unfold score
      omega
    unfold propose
    simp only [throwIf, if_neg hvalid, bind, Except.bind, pure, Except.pure]
    by_cases hshort : s.finish < s.keyTokens - 1
    -- too short a history has no position to look at
    · rw [if_pos (.inl hshort)]
      have hnone : recent key h seed = [] := by
        refine eq_nil_iff_forall_not_mem.mpr fun c hc => ?_
        have hlow := recent_low hc
        have hlt := mem_range.mp (mem_reverse.mp (mem_filter.mp (mem_of_mem_take hc)).1)
        rw [hrep.finish, hkey] at hshort
        omega
      refine ⟨[], rfl, .inl ⟨rfl, ?_⟩, .inl rfl⟩
      rw [hnone]
      simp
    · rw [if_neg (by omega), hrep.head, search_eq hrep _ _ (Nat.le_refl _), hkey]
      exact ⟨_, rfl, hbest, hrows _ hbest⟩
  · have hvalid : ¬ (¬ SuffixToken seed ∨ maximumRows < 1 ∨ maximumRows > 8) := by
      simp only [not_or, Decidable.not_not]
      exact ⟨hseed, by omega, by omega⟩
    simp only [propose, throwIf, if_neg hvalid, bind, Except.bind, if_pos (show _ ∨ maximumRows = 1 from .inr hone)]
    rfl
  · simp only [propose, throwIf, if_pos (show ¬ SuffixToken seed ∨ maximumRows < 1 ∨ maximumRows > 8 from hbad), bind,
      Except.bind]

/-- The proposer of key length two after three tokens. -/
def sampleProposer : SuffixProposer := [5, 6, 5].foldl push { keyTokens := 2 }

theorem sampleProposer_run : Run 2 sampleProposer [5, 6, 5] := by
  have hmake : Run 2 { keyTokens := 2 } [] := Run.make rfl
  exact hmake.append rfl

theorem propose_is_naive_sample : ∃ rows, sampleProposer.propose 6 2 = .ok rows ∧
    Best 2 2 [5, 6, 5] 6 (recent 2 [5, 6, 5] 6) rows ∧ (rows = [] ∨ 2 ≤ rows.length) :=
  (propose_is_naive sampleProposer_run 6 2).1 (by decide) (by decide) (by decide)

/-- With one row the naive search would give the seed alone. -/
theorem propose_one_row : ¬ ∀ (key : Nat) (s : SuffixProposer) (h : List Int), Run key s h →
    ∀ seed maximumRows : Int, SuffixToken seed → 1 ≤ maximumRows → maximumRows ≤ 8 →
      ∃ rows, s.propose seed maximumRows = .ok rows ∧ Best key maximumRows.toNat h seed (recent key h seed) rows := by
  intro hall
  obtain ⟨rows, hok, hbest⟩ := hall 2 sampleProposer [5, 6, 5] sampleProposer_run 6 1 (by decide) (by decide) (by decide)
  have hnone : sampleProposer.propose 6 1 = .ok [] := rfl
  obtain rfl := Except.ok.inj (hok.symm.trans hnone)
  have hmem : 1 ∈ recent 2 [5, 6, 5] 6 := by decide
  have hhit : Hit 2 [5, 6, 5] 6 1 := by
    refine ⟨by decide, by decide, fun i hone hi => ?_⟩
    obtain rfl : i = 1 := by omega
    decide
  rcases hbest with ⟨_, hno⟩ | ⟨c, _, hc, _, hrows⟩
  · exact hno 1 hmem hhit
  have hlength := congrArg List.length hrows
  have hlt : c + 1 < 3 := hc.1
  simp only [length_nil, length_take, length_cons, length_drop, score] at hlength
  omega

end SuffixProposer
end VoidInfer.Exl3
