import Mathlib.Data.List.Basic
import Mathlib.Order.Basic

/-
  Byte-pair encoding in its plain form: while some adjacent pair has a rule, the leftmost of the pairs with the lowest
  rank is merged. A rule gives a pair its rank and what replaces it.
-/

namespace PairMerge
open List Option

variable {α : Type} (rule : α → α → Option (Int × α))

/-- The ranks of the adjacent pairs that have a rule. -/
def ranks : List α → List Int
  | a :: b :: rest =>
    match rule a b with
    | some (rank, _) => rank :: ranks (b :: rest)
    | none => ranks (b :: rest)
  | _ => []

/-- Merge the leftmost pair of this rank. -/
def mergeFirst (rank : Int) : List α → List α
  | a :: b :: rest =>
    match rule a b with
    | some (rank', merged) => if rank' = rank then merged :: rest else a :: mergeFirst rank (b :: rest)
    | none => a :: mergeFirst rank (b :: rest)
  | pieces => pieces

/-- One merge; none when no adjacent pair has a rule. -/
def step (pieces : List α) : Option (List α) :=
  (ranks rule pieces).min?.map fun rank => mergeFirst rule rank pieces

variable {rule} {pieces xs ys : List α} {a b merged : α} {rank : Int}

theorem mem_ranks : rank ∈ ranks rule pieces ↔
    ∃ xs a b ys merged, pieces = xs ++ a :: b :: ys ∧ rule a b = some (rank, merged) := by
  induction pieces using ranks.induct rule with
  | case1 a b rest rank' merged' hrule ih =>
    rw [ranks, hrule]
    simp only [mem_cons, ih]
    constructor
    · rintro (rfl | ⟨xs, a', b', ys, merged, hsplit, h⟩)
      · exact ⟨[], a, b, rest, merged', rfl, hrule⟩
      · exact ⟨a :: xs, a', b', ys, merged, by rw [hsplit, cons_append], h⟩
    · rintro ⟨xs, a', b', ys, merged, hsplit, h⟩
      cases xs with
      | nil =>
        obtain ⟨rfl, hrest⟩ := List.cons.inj hsplit
        cases hrest
        rw [hrule] at h
        exact .inl (Prod.mk.inj (some.inj h)).1.symm
      | cons x xs => exact .inr ⟨xs, a', b', ys, merged, (List.cons.inj hsplit).2, h⟩
  | case2 a b rest hrule ih =>
    rw [ranks, hrule]
    simp only [ih]
    constructor
    · rintro ⟨xs, a', b', ys, merged, hsplit, h⟩
      exact ⟨a :: xs, a', b', ys, merged, by rw [hsplit, cons_append], h⟩
    · rintro ⟨xs, a', b', ys, merged, hsplit, h⟩
      cases xs with
      | nil =>
        obtain ⟨rfl, hrest⟩ := List.cons.inj hsplit
        cases hrest
        rw [hrule] at h
        cases h
      | cons x xs => exact ⟨xs, a', b', ys, merged, (List.cons.inj hsplit).2, h⟩
  | case3 pieces hshort =>
    have hnil : ranks rule pieces = [] := by
      match pieces, hshort with
      | [], _ => rfl
      | [x], _ => rfl
      | x :: y :: rest, hshort => exact absurd rfl (hshort x y rest)
    rw [hnil]
    refine ⟨fun h => by simp at h, ?_⟩
    rintro ⟨xs, a', b', ys, merged, rfl, -⟩
    cases xs with
    | nil => exact absurd rfl (hshort a' b' ys)
    | cons x xs =>
      cases xs with
      | nil => exact absurd rfl (hshort x a' _)
      | cons x' xs => exact absurd rfl (hshort x x' _)

theorem step_eq_none (h : ∀ xs a b ys, pieces = xs ++ a :: b :: ys → rule a b = none) : step rule pieces = none := by
  have hnil : ranks rule pieces = [] := by
    refine eq_nil_iff_forall_not_mem.mpr fun rank hrank => ?_
    obtain ⟨xs, a, b, ys, merged, hsplit, hrule⟩ := mem_ranks.mp hrank
    rw [h xs a b ys hsplit] at hrule
    cases hrule
  simp [step, hnil]

theorem mergeFirst_eq (hrule : rule a b = some (rank, merged))
    (hfirst : ∀ xs' a' b' ys' merged', xs ++ a :: b :: ys = xs' ++ a' :: b' :: ys' →
      rule a' b' = some (rank, merged') → xs.length ≤ xs'.length) :
    mergeFirst rule rank (xs ++ a :: b :: ys) = xs ++ merged :: ys := by
  induction xs with
  | nil => simp [mergeFirst, hrule]
  | cons x xs ih =>
    have hrest : mergeFirst rule rank (xs ++ a :: b :: ys) = xs ++ merged :: ys := by
      refine ih fun xs' a' b' ys' merged' hsplit h => ?_
      have := hfirst _ a' b' ys' merged' (by rw [cons_append, hsplit, cons_append]) h
      simpa using this
    -- the pair at the head is not of this rank
    have hhead : ∀ y rest, xs ++ a :: b :: ys = y :: rest → ∀ merged', rule x y ≠ some (rank, merged') := by
      intro y rest hy merged' h
      have := hfirst [] x y rest merged' (by rw [cons_append, hy, nil_append]) h
      simp at this
    obtain ⟨y, rest, hy⟩ : ∃ y rest, xs ++ a :: b :: ys = y :: rest := by
      cases xs with
      | nil => exact ⟨a, b :: ys, rfl⟩
      | cons y xs => exact ⟨y, xs ++ a :: b :: ys, rfl⟩
    rw [cons_append, hy, mergeFirst]
    cases hxy : rule x y with
    | none => simp only [← hy, hrest, cons_append]
    | some pair =>
      obtain ⟨rank', merged'⟩ := pair
      have hne : rank' ≠ rank := fun heq => hhead y rest hy merged' (heq ▸ hxy)
      simp only [if_neg hne, ← hy, hrest, cons_append]

theorem step_eq_some (hrule : rule a b = some (rank, merged))
    (hfirst : ∀ xs' a' b' ys' rank' merged', xs ++ a :: b :: ys = xs' ++ a' :: b' :: ys' →
      rule a' b' = some (rank', merged') → rank < rank' ∨ (rank = rank' ∧ xs.length ≤ xs'.length)) :
    step rule (xs ++ a :: b :: ys) = some (xs ++ merged :: ys) := by
  have hmin : (ranks rule (xs ++ a :: b :: ys)).min? = some rank := by
    rw [min?_eq_some_iff]
    refine ⟨mem_ranks.mpr ⟨xs, a, b, ys, merged, rfl, hrule⟩, fun rank' hrank' => ?_⟩
    obtain ⟨xs', a', b', ys', merged', hsplit, h⟩ := mem_ranks.mp hrank'
    rcases hfirst xs' a' b' ys' rank' merged' hsplit h with hlt | ⟨rfl, -⟩
    · exact Int.le_of_lt hlt
    · exact Int.le_refl _
  have hmerge : mergeFirst rule rank (xs ++ a :: b :: ys) = xs ++ merged :: ys :=
    mergeFirst_eq hrule fun xs' a' b' ys' merged' hsplit h => by
      rcases hfirst xs' a' b' ys' rank merged' hsplit h with hlt | ⟨-, hle⟩
      · exact absurd hlt (Int.lt_irrefl _)
      · exact hle
  rw [step, hmin, map_some, hmerge]

theorem mergeFirst_split (h : rank ∈ ranks rule pieces) : ∃ xs a b ys merged, pieces = xs ++ a :: b :: ys ∧
    rule a b = some (rank, merged) ∧ mergeFirst rule rank pieces = xs ++ merged :: ys := by
  fun_induction mergeFirst rule rank pieces with
  | case1 a b rest merged hrule => exact ⟨[], a, b, rest, merged, rfl, hrule, rfl⟩
  | case2 a b rest rank' _ hrule hne ih =>
    rw [ranks, hrule] at h
    obtain ⟨xs, a', b', ys, merged, hsplit, hrule, heq⟩ := ih ((mem_cons.mp h).resolve_left (Ne.symm hne))
    exact ⟨a :: xs, a', b', ys, merged, congrArg _ hsplit, hrule, congrArg _ heq⟩
  | case3 a b rest hrule ih =>
    rw [ranks, hrule] at h
    obtain ⟨xs, a', b', ys, merged, hsplit, hrule, heq⟩ := ih h
    exact ⟨a :: xs, a', b', ys, merged, congrArg _ hsplit, hrule, congrArg _ heq⟩
  | case4 pieces hshort =>
    obtain ⟨xs, a, b, ys, merged, hsplit, -⟩ := mem_ranks.mp h
    rcases xs with _ | ⟨x, _ | ⟨y, xs⟩⟩ <;> exact (hshort _ _ _ hsplit).elim

theorem step_cases {pieces' : List α} (h : step rule pieces = some pieces') : ∃ xs a b ys rank merged,
    pieces = xs ++ a :: b :: ys ∧ rule a b = some (rank, merged) ∧ pieces' = xs ++ merged :: ys := by
  obtain ⟨rank, hrank, rfl⟩ := map_eq_some_iff.mp h
  obtain ⟨xs, a, b, ys, merged, hsplit, hrule, heq⟩ := mergeFirst_split (min?_mem hrank)
  exact ⟨xs, a, b, ys, rank, merged, hsplit, hrule, heq⟩

theorem length_step_lt {pieces' : List α} (h : step rule pieces = some pieces') : pieces'.length < pieces.length := by
  obtain ⟨xs, a, b, ys, rank, merged, rfl, -, rfl⟩ := step_cases h
  simp

variable (rule) in
/-- Merge until no adjacent pair has a rule. -/
def plainBpe (pieces : List α) : List α :=
  match _h : step rule pieces with
  | none => pieces
  | some pieces' => plainBpe pieces'
termination_by pieces.length
decreasing_by exact length_step_lt ‹_›

theorem plainBpe_done (h : step rule pieces = none) : plainBpe rule pieces = pieces := by
  rw [plainBpe]
  split
  · rfl
  next pieces' h' =>
  rw [h] at h'
  cases h'

theorem plainBpe_step {pieces' : List α} (h : step rule pieces = some pieces') :
    plainBpe rule pieces = plainBpe rule pieces' := by
  rw [plainBpe]
  split
  · next h' =>
    rw [h] at h'
    cases h'
  · next pieces'' h' => rw [mem_unique h h']

theorem plainBpe_induction {P : List α → Prop} (hmerge : ∀ xs a b ys rank merged, rule a b = some (rank, merged) →
    P (xs ++ a :: b :: ys) → P (xs ++ merged :: ys)) (h : P pieces) : P (plainBpe rule pieces) := by
  induction pieces using plainBpe.induct rule with
  | case1 pieces hstep => rwa [plainBpe_done hstep]
  | case2 pieces pieces' hstep ih =>
    rw [plainBpe_step hstep]
    obtain ⟨xs, a, b, ys, rank, merged, rfl, hrule, rfl⟩ := step_cases hstep
    exact ih (hmerge xs a b ys rank merged hrule h)

end PairMerge
