/-
  Half-open intervals of naturals and lists of them.

  `Canonical l`: the spans of `l` are non-empty, sorted, and no two touch. A canonical list is determined by the points
  it covers (`Canonical.ext`), so any two ways of building one from the same points agree; this is how an order of
  insertions or a simulated free list is compared with the real one.

  `insertSpan` puts a span between its neighbours and joins it with those it touches. `carveFront` cuts a prefix off the
  `i`-th span. `points` lists the covered points, and `Tiles l n` says that the spans of `l` cut `[0, n)` into disjoint
  pieces.
-/
import Mathlib.Data.List.Nodup
import Mathlib.Data.List.TakeWhile
import Mathlib.Algebra.Order.BigOperators.Group.List
import Mathlib.Algebra.Order.Ring.Nat
import Mathlib.Algebra.Ring.Int.Defs
import Mathlib.Algebra.Ring.Nat

/-- The half-open interval `[start, start + size)`. -/
structure Span where
  start : Nat
  size : Nat
deriving DecidableEq

namespace Span

/-- One past the last point. -/
def stop (s : Span) : Nat := s.start + s.size

instance : Membership Nat Span := ⟨fun s x => s.start ≤ x ∧ x < s.stop⟩

theorem mem_iff {s : Span} {x : Nat} : x ∈ s ↔ s.start ≤ x ∧ x < s.start + s.size := Iff.rfl

instance (s : Span) (x : Nat) : Decidable (x ∈ s) :=
  inferInstanceAs (Decidable (s.start ≤ x ∧ x < s.stop))

/-- No point in common. -/
def Apart (a b : Span) : Prop := a.stop ≤ b.start ∨ b.stop ≤ a.start

variable {a b : Span}

theorem Apart.symm (h : a.Apart b) : b.Apart a := Or.symm h

theorem apart_of_disjoint (ha : 0 < a.size) (hb : 0 < b.size) (h : ∀ x, x ∈ a → x ∉ b) : a.Apart b := by
  by_contra hn
  simp only [Apart, stop, not_or, Nat.not_le] at hn
  rcases Nat.le_total a.start b.start with hab | hab
  · exact h b.start ⟨hab, by simp only [stop]; omega⟩ ⟨le_rfl, by simp only [stop]; omega⟩
  · exact h a.start ⟨le_rfl, by simp only [stop]; omega⟩ ⟨hab, by simp only [stop]; omega⟩

theorem Apart.not_mem (h : a.Apart b) {x : Nat} (hx : x ∈ a) : x ∉ b := by
  simp only [Apart, stop] at h
  simp only [mem_iff] at hx ⊢
  omega

end Span

namespace SpanList
open List

/-! ## Points covered by a list of spans -/

/-- `x` lies in some span of `l`. -/
def Covers (l : List Span) (x : Nat) : Prop := ∃ s ∈ l, x ∈ s

instance (l : List Span) (x : Nat) : Decidable (Covers l x) :=
  inferInstanceAs (Decidable (∃ s ∈ l, x ∈ s))

@[simp] theorem covers_nil (x : Nat) : ¬ Covers [] x := by simp [Covers]

@[simp] theorem covers_cons (s : Span) (l : List Span) (x : Nat) :
    Covers (s :: l) x ↔ x ∈ s ∨ Covers l x := by simp [Covers]

@[simp] theorem covers_append (l l' : List Span) (x : Nat) :
    Covers (l ++ l') x ↔ Covers l x ∨ Covers l' x := by
  simp only [Covers, mem_append, or_and_right, exists_or]

variable {l l' : List Span} {s e : Span} {x i n : Nat}

theorem covers_perm (h : l.Perm l') (x : Nat) : Covers l x ↔ Covers l' x := by
  simp only [Covers, h.mem_iff]

/-- Sum of the sizes. -/
def total (l : List Span) : Nat := (l.map Span.size).sum

@[simp] theorem total_nil : total [] = 0 := rfl

@[simp] theorem total_cons (s : Span) (l : List Span) : total (s :: l) = s.size + total l := by
  simp [total]

@[simp] theorem total_append (l l' : List Span) : total (l ++ l') = total l + total l' := by
  simp [total]

theorem total_perm (h : l.Perm l') : total l = total l' :=
  (h.map Span.size).sum_eq

theorem size_le_total (h : s ∈ l) : s.size ≤ total l :=
  le_sum_of_mem (mem_map_of_mem h)

theorem total_ge {m : Nat} (h : ∀ s ∈ l, m ≤ s.size) : m * l.length ≤ total l := by
  induction l with
  | nil => simp
  | cons s l ih =>
    have h1 := h s (by simp)
    have h2 := ih fun t ht => h t (mem_cons_of_mem _ ht)
    rw [length_cons, total_cons, Nat.mul_succ]
    omega

/-- All covered points, span by span. -/
def points (l : List Span) : List Nat := l.flatMap fun s => List.range' s.start s.size

theorem mem_points : x ∈ points l ↔ Covers l x := by
  simp only [points, mem_flatMap, mem_range'_1, Covers, Span.mem_iff]

theorem length_points (l : List Span) : (points l).length = total l := by
  induction l with
  | nil => rfl
  | cons s l ih =>
    simp only [points, flatMap_cons, length_append, length_range'] at ih ⊢
    rw [ih, total_cons]

theorem nodup_points (h : l.Pairwise Span.Apart) : (points l).Nodup := by
  induction l with
  | nil => simp [points]
  | cons s l ih =>
    obtain ⟨hs, hl⟩ := pairwise_cons.mp h
    refine List.Nodup.append nodup_range' (ih hl) ?_
    intro x hx hx'
    obtain ⟨t, ht, hxt⟩ := (mem_points (l := l)).mp hx'
    exact (hs t ht).not_mem (mem_range'_1.mp hx) hxt

/-! ## Canonical lists -/

/-- Non-empty spans, sorted, no two touching. -/
structure Canonical (l : List Span) : Prop where
  pos : ∀ s ∈ l, 0 < s.size
  gap : l.Pairwise fun a b => a.stop < b.start

theorem canonical_nil : Canonical [] := ⟨by simp, List.Pairwise.nil⟩

theorem canonical_singleton (h : 0 < s.size) : Canonical [s] :=
  ⟨by simpa using h, pairwise_singleton _ _⟩

theorem canonical_append :
    Canonical (l ++ l') ↔ Canonical l ∧ Canonical l' ∧ ∀ a ∈ l, ∀ b ∈ l', a.stop < b.start := by
  constructor
  · intro h
    obtain ⟨h1, h2, h3⟩ := pairwise_append.mp h.gap
    exact ⟨⟨fun s hs => h.pos s (mem_append_left _ hs), h1⟩,
      ⟨fun s hs => h.pos s (mem_append_right _ hs), h2⟩, h3⟩
  · rintro ⟨h1, h2, h3⟩
    refine ⟨fun s hs => ?_, pairwise_append.mpr ⟨h1.gap, h2.gap, h3⟩⟩
    rcases mem_append.mp hs with hs | hs
    · exact h1.pos s hs
    · exact h2.pos s hs

theorem canonical_cons : Canonical (s :: l) ↔ 0 < s.size ∧ Canonical l ∧ ∀ b ∈ l, s.stop < b.start := by
  rw [← singleton_append, canonical_append]
  constructor
  · rintro ⟨h1, h2, h3⟩
    exact ⟨h1.pos s (by simp), h2, fun b hb => h3 s (by simp) b hb⟩
  · rintro ⟨h1, h2, h3⟩
    exact ⟨canonical_singleton h1, h2, fun a ha b hb => by
      rw [mem_singleton.mp ha]; exact h3 b hb⟩

theorem Canonical.apart (h : Canonical l) : l.Pairwise Span.Apart :=
  h.gap.imp fun hab => .inl (Nat.le_of_lt hab)

section
variable (h : Canonical (s :: l))
include h

theorem Canonical.head_le (hx : Covers (s :: l) x) : s.start ≤ x := by
  obtain ⟨-, -, h3⟩ := canonical_cons.mp h
  rcases (covers_cons s l x).mp hx with hx | ⟨t, ht, hxt⟩
  · exact hx.1
  have := h3 t ht
  simp only [Span.stop, Span.mem_iff] at this hxt
  omega

theorem Canonical.head_mem : Covers (s :: l) s.start := by
  have := (canonical_cons.mp h).1
  exact (covers_cons _ _ _).mpr (.inl ⟨le_rfl, by simp only [Span.stop]; omega⟩)

theorem Canonical.not_covers_stop : ¬ Covers (s :: l) s.stop := by
  obtain ⟨-, -, h3⟩ := canonical_cons.mp h
  rintro ⟨t, ht, hx⟩
  rcases mem_cons.mp ht with rfl | ht
  · simp only [Span.mem_iff, Span.stop] at hx; omega
  have := h3 t ht
  simp only [Span.stop, Span.mem_iff] at this hx
  omega

theorem Canonical.covers_tail (x : Nat) : Covers l x ↔ Covers (s :: l) x ∧ s.stop ≤ x := by
  obtain ⟨-, -, h3⟩ := canonical_cons.mp h
  constructor
  · rintro ⟨t, ht, hx⟩
    have := h3 t ht
    refine ⟨⟨t, mem_cons_of_mem _ ht, hx⟩, ?_⟩
    simp only [Span.stop, Span.mem_iff] at this hx ⊢
    omega
  · rintro ⟨hx, hs⟩
    rcases (covers_cons s l x).mp hx with hx | hx
    · simp only [Span.stop, Span.mem_iff] at hx hs; omega
    · exact hx

end

variable {m f f' : List Span}

theorem Canonical.head_eq {t : Span} (hl : Canonical (s :: l))
    (hm : Canonical (t :: m)) (h : ∀ x, Covers (s :: l) x ↔ Covers (t :: m) x) : s = t := by
  have e1 : s.start = t.start :=
    Nat.le_antisymm (hl.head_le ((h _).mpr hm.head_mem)) (hm.head_le ((h _).mp hl.head_mem))
  -- the end of either head is a gap of both lists
  have g1 : ¬ t.stop < s.stop := fun hlt => hm.not_covers_stop ((h _).mp
    ((covers_cons _ _ _).mpr (.inl ⟨by simp only [Span.stop]; omega, hlt⟩)))
  have g2 : ¬ s.stop < t.stop := fun hlt => hl.not_covers_stop ((h _).mpr
    ((covers_cons _ _ _).mpr (.inl ⟨by simp only [Span.stop]; omega, hlt⟩)))
  have e2 : s.size = t.size := by simp only [Span.stop] at g1 g2; omega
  cases s
  simp_all

theorem Canonical.ext (hl : Canonical l) (hm : Canonical m) (h : ∀ x, Covers l x ↔ Covers m x) : l = m := by
  induction l generalizing m with
  | nil =>
    cases m with
    | nil => rfl
    | cons t m => exact absurd ((h _).mpr hm.head_mem) (covers_nil _)
  | cons s l ih =>
    cases m with
    | nil => exact absurd ((h _).mp hl.head_mem) (covers_nil _)
    | cons t m =>
      obtain rfl := hl.head_eq hm h
      rw [ih (canonical_cons.mp hl).2.1 (canonical_cons.mp hm).2.1 fun x => by
        rw [hl.covers_tail, hm.covers_tail, h]]

/-! ## Inserting a span -/

/-- Join `e` with the last span of `lo` if that ends where `e` starts. -/
def joinLeft (lo : List Span) (e : Span) : List Span × Span :=
  match lo.getLast? with
  | some p => if p.stop = e.start then (lo.dropLast, ⟨p.start, p.size + e.size⟩) else (lo, e)
  | none => (lo, e)

/-- Put `e` before `hi`, joined with the first span of `hi` if `e` ends where that starts. -/
def joinRight (e : Span) : List Span → List Span
  | [] => [e]
  | n :: rest => if e.stop = n.start then ⟨e.start, e.size + n.size⟩ :: rest else e :: n :: rest

/-- Insert `e` at its place by `start`, joined with the neighbours it touches. -/
def insertSpan (l : List Span) (e : Span) : List Span :=
  let lo := l.takeWhile fun s => decide (s.start < e.start)
  let hi := l.dropWhile fun s => decide (s.start < e.start)
  (joinLeft lo e).1 ++ joinRight (joinLeft lo e).2 hi

theorem joinLeft_spec {lo : List Span} (hlo : Canonical lo) (he : 0 < e.size) (hle : ∀ a ∈ lo, a.stop ≤ e.start) :
    Canonical (joinLeft lo e).1 ∧ 0 < (joinLeft lo e).2.size ∧ (joinLeft lo e).2.stop = e.stop ∧
      (∀ a ∈ (joinLeft lo e).1, a.stop < (joinLeft lo e).2.start) ∧
      (∀ a ∈ (joinLeft lo e).1, a ∈ lo) ∧
      ∀ x, Covers (joinLeft lo e).1 x ∨ x ∈ (joinLeft lo e).2 ↔ Covers lo x ∨ x ∈ e := by
  rcases eq_nil_or_concat lo with rfl | ⟨init, p, rfl⟩
  · exact ⟨canonical_nil, he, rfl, by simp [joinLeft], by simp [joinLeft], by simp [joinLeft]⟩
  rw [concat_eq_append] at hlo hle ⊢
  obtain ⟨hi, hp, hgap⟩ := canonical_append.mp hlo
  have hpe := hle p (by simp)
  simp only [joinLeft, getLast?_append, getLast?_singleton, Option.some_or]
  split
  · next hj =>
    simp only [dropLast_concat]
    refine ⟨hi, by omega, ?_, fun a ha => hgap a ha p (by simp), fun a ha => by simp [ha], ?_⟩
    · simp only [Span.stop] at hj ⊢; omega
    · intro x
      simp only [covers_append, covers_cons, covers_nil, or_false, or_assoc, Span.mem_iff]
      simp only [Span.stop] at hj
      constructor
      · rintro (h | h)
        · exact .inl h
        · omega
      · rintro (h | h | h)
        · exact .inl h
        · omega
        · omega
  next hj =>
  refine ⟨hlo, he, rfl, fun a ha => ?_, fun a ha => ha, fun x => Iff.rfl⟩
  rcases mem_append.mp ha with ha | ha
  · have := hgap a ha p (by simp)
    simp only [Span.stop] at this hpe ⊢; omega
  rw [mem_singleton.mp ha]
  show p.stop < e.start
  omega

theorem joinRight_spec {hi : List Span} (hhi : Canonical hi) (he : 0 < e.size) (hge : ∀ b ∈ hi, e.stop ≤ b.start) :
    Canonical (joinRight e hi) ∧ (∀ b ∈ joinRight e hi, e.start ≤ b.start) ∧
      ∀ x, Covers (joinRight e hi) x ↔ x ∈ e ∨ Covers hi x := by
  cases hi with
  | nil => exact ⟨canonical_singleton he, by simp [joinRight], by simp [joinRight]⟩
  | cons n rest =>
    obtain ⟨hn, hrest, hgap⟩ := canonical_cons.mp hhi
    have hen := hge n (by simp)
    simp only [joinRight]
    split
    · next hj =>
      refine ⟨canonical_cons.mpr ⟨by simp only; omega, hrest, fun b hb => ?_⟩, ?_, fun x => ?_⟩
      · have := hgap b hb
        simp only [Span.stop] at this hj ⊢; omega
      · intro b hb
        rcases mem_cons.mp hb with rfl | hb
        · exact le_rfl
        have := hge b (mem_cons_of_mem _ hb)
        simp only [Span.stop] at this; omega
      · simp only [covers_cons, ← or_assoc]
        refine or_congr_left ?_
        simp only [Span.mem_iff]
        simp only [Span.stop] at hj
        omega
    next hj =>
    refine ⟨canonical_cons.mpr ⟨he, hhi, fun b hb => ?_⟩, ?_, fun x => by simp⟩
    · rcases mem_cons.mp hb with rfl | hb
      · omega
      · have := hgap b hb
        simp only [Span.stop] at this hen ⊢; omega
    · intro b hb
      rcases mem_cons.mp hb with rfl | hb
      · exact le_rfl
      have := hge b hb
      simp only [Span.stop] at this; omega

theorem Canonical.split_at (h : Canonical l) (k : Nat) :
    (∀ a ∈ l.takeWhile (fun s => decide (s.start < k)), a.start < k) ∧
      ∀ b ∈ l.dropWhile (fun s => decide (s.start < k)), k ≤ b.start := by
  refine ⟨fun a ha => by simpa using mem_takeWhile_imp ha, ?_⟩
  induction l with
  | nil => simp
  | cons s l ih =>
    obtain ⟨-, hl, hgap⟩ := canonical_cons.mp h
    simp only [dropWhile_cons]
    split
    · exact ih hl
    next hs =>
    have hs' : k ≤ s.start := by simpa using hs
    intro b hb
    rcases mem_cons.mp hb with rfl | hb
    · exact hs'
    have := hgap b hb
    simp only [Span.stop] at this; omega

theorem insertSpan_spec (hl : Canonical l) (he : 0 < e.size) (hd : ∀ s ∈ l, s.Apart e) :
    Canonical (insertSpan l e) ∧ ∀ x, Covers (insertSpan l e) x ↔ Covers l x ∨ x ∈ e := by
  obtain ⟨hlt, hge⟩ := hl.split_at e.start
  have hsplit := takeWhile_append_dropWhile (p := fun s => decide (s.start < e.start)) (l := l)
  simp only [insertSpan]
  generalize l.takeWhile (fun s => decide (s.start < e.start)) = lo at *
  generalize l.dropWhile (fun s => decide (s.start < e.start)) = hi at *
  subst hsplit
  obtain ⟨clo, chi, cgap⟩ := canonical_append.mp hl
  have hlo : ∀ a ∈ lo, a.stop ≤ e.start := by
    intro a ha
    have h1 := hlt a ha
    have h2 := hd a (mem_append_left _ ha)
    simp only [Span.Apart, Span.stop] at h2 ⊢; omega
  have hhi : ∀ b ∈ hi, e.stop ≤ b.start := by
    intro b hb
    have h1 := hge b hb
    have h2 := hd b (mem_append_right _ hb)
    have h3 := chi.pos b hb
    simp only [Span.Apart, Span.stop] at h2 ⊢; omega
  obtain ⟨j1, j2, j3, j4, -, j6⟩ := joinLeft_spec clo he hlo
  obtain ⟨k1, k2, k3⟩ := joinRight_spec chi j2 (by rw [j3]; exact hhi)
  refine ⟨canonical_append.mpr ⟨j1, k1, fun a ha b hb => ?_⟩, fun x => ?_⟩
  · have := j4 a ha
    have := k2 b hb
    omega
  · rw [covers_append, k3, ← or_assoc, j6, covers_append]
    tauto

/-! ## Replacing one span by parts of it -/

theorem replace_spec {parts : List Span} (hl : Canonical l) (h : l[i]? = some s)
    (hp : Canonical parts) (hin : ∀ t ∈ parts, s.start ≤ t.start ∧ t.stop ≤ s.stop) :
    Canonical (l.take i ++ parts ++ l.drop (i + 1)) ∧
      ∀ x, Covers (l.take i ++ parts ++ l.drop (i + 1)) x ↔ Covers l x ∧ (x ∈ s → Covers parts x) := by
  obtain ⟨hi, rfl⟩ := List.getElem?_eq_some_iff.mp h
  have hsplit : l = l.take i ++ l[i] :: l.drop (i + 1) := by
    rw [cons_getElem_drop_succ, take_append_drop]
  generalize l.take i = lo at *
  generalize l.drop (i + 1) = hi' at *
  generalize l[i] = s at *
  subst hsplit
  obtain ⟨clo, cs, cgap⟩ := canonical_append.mp hl
  obtain ⟨hs, chi, sgap⟩ := canonical_cons.mp cs
  have hparts : ∀ x, Covers parts x → x ∈ s := by
    rintro x ⟨t, ht, hx⟩
    have := hin t ht
    simp only [Span.mem_iff, Span.stop] at hx this ⊢
    omega
  -- a point of another span is not in `s`
  have far : ∀ x, Covers lo x ∨ Covers hi' x → x ∉ s := by
    rintro x (⟨t, ht, hx⟩ | ⟨t, ht, hx⟩)
    · have := cgap t ht s (by simp)
      simp only [Span.mem_iff, Span.stop] at hx this ⊢
      omega
    have := sgap t ht
    simp only [Span.mem_iff, Span.stop] at hx this ⊢
    omega
  refine ⟨canonical_append.mpr ⟨canonical_append.mpr ⟨clo, hp, fun a ha b hb => ?_⟩, chi,
    fun a ha b hb => ?_⟩, fun x => ?_⟩
  · have h1 := cgap a ha s (by simp)
    have h2 := hin b hb
    omega
  · rcases mem_append.mp ha with ha | ha
    · exact cgap a ha b (mem_cons_of_mem _ hb)
    · have h1 := sgap b hb
      have h2 := hin a ha
      omega
  · have h1 := far x
    have h2 := hparts x
    simp only [covers_append, covers_cons]
    tauto

/-- Take the first `n` points of the `i`-th span away; the span goes when nothing is left. -/
def carveFront (l : List Span) (i n : Nat) : List Span :=
  match l[i]? with
  | none => l
  | some s => if s.size = n then l.eraseIdx i else l.set i ⟨s.start + n, s.size - n⟩

theorem eraseIdx_eq_replace (l : List Span) (i : Nat) : l.eraseIdx i = l.take i ++ [] ++ l.drop (i + 1) := by
  rw [eraseIdx_eq_take_drop_succ, append_nil]

theorem set_eq_replace (h : l[i]? = some s) (t : Span) : l.set i t = l.take i ++ [t] ++ l.drop (i + 1) := by
  rw [set_eq_take_append_cons_drop, if_pos (List.getElem?_eq_some_iff.mp h).1,
    append_assoc, singleton_append]

theorem set_insertIdx_eq_replace (h : l[i]? = some s)
    (t u : Span) : (l.set i t).insertIdx (i + 1) u = l.take i ++ [t, u] ++ l.drop (i + 1) := by
  induction l generalizing i with
  | nil => simp at h
  | cons r l ih =>
    cases i with
    | zero => simp
    | succ i =>
      rw [set_cons_succ, insertIdx_succ_cons, ih (by simpa using h)]
      simp

theorem carveFront_spec (hl : Canonical l) (h : l[i]? = some s) (hn : n ≤ s.size) :
    Canonical (carveFront l i n) ∧ ∀ x, Covers (carveFront l i n) x ↔ Covers l x ∧ x ∉ (⟨s.start, n⟩ : Span) := by
  simp only [carveFront, h]
  split
  · next hsz =>
    rw [eraseIdx_eq_replace]
    obtain ⟨h1, h2⟩ := replace_spec hl h canonical_nil (by simp)
    refine ⟨h1, fun x => ?_⟩
    have hx : x ∈ (⟨s.start, n⟩ : Span) ↔ x ∈ s := by simp only [Span.mem_iff, hsz]
    rw [h2, hx]
    simp only [covers_nil, imp_false]
  next hsz =>
  rw [set_eq_replace h]
  obtain ⟨h1, h2⟩ := replace_spec hl h
    (canonical_singleton (s := ⟨s.start + n, s.size - n⟩) (by show 0 < s.size - n; omega))
    (by simp only [mem_singleton, forall_eq, Span.stop]; omega)
  refine ⟨h1, fun x => ?_⟩
  rw [h2]
  simp only [covers_cons, covers_nil, or_false, Span.mem_iff]
  refine and_congr_right fun _ => ?_
  omega

/-! ## Partitions of an initial segment -/

/-- The spans of `l` cut `[0, n)` into non-empty disjoint pieces. -/
structure Tiles (l : List Span) (n : Nat) : Prop where
  pos : ∀ s ∈ l, 0 < s.size
  apart : l.Pairwise Span.Apart
  covers : ∀ x, Covers l x ↔ x < n

theorem Tiles.perm (h : Tiles l n) (hp : l.Perm l') : Tiles l' n :=
  ⟨fun s hs => h.pos s (hp.mem_iff.mpr hs), h.apart.perm hp Span.Apart.symm,
    fun x => by rw [← covers_perm hp, h.covers]⟩

theorem Tiles.total_eq (h : Tiles l n) : total l = n := by
  have hp : (points l).Perm (List.range n) := by
    rw [perm_ext_iff_of_nodup (nodup_points h.apart) nodup_range]
    intro x
    rw [mem_points, h.covers, mem_range]
  rw [← length_points, hp.length_eq, length_range]

theorem Tiles.stop_le (h : Tiles l n) (hs : s ∈ l) : s.stop ≤ n := by
  have hpos := h.pos s hs
  have := (h.covers (s.stop - 1)).mp ⟨s, hs, by simp only [Span.mem_iff, Span.stop]; omega⟩
  omega

theorem Tiles.disjoint (h : Tiles (l ++ l') n) (hx : Covers l x) : ¬ Covers l' x := by
  obtain ⟨s, hs, hxs⟩ := hx
  rintro ⟨t, ht, hxt⟩
  exact ((pairwise_append.mp h.apart).2.2 s hs t ht).not_mem hxs hxt

theorem tiles_append (hl : ∀ s ∈ l, 0 < s.size)
    (hl' : ∀ s ∈ l', 0 < s.size) (al : l.Pairwise Span.Apart) (al' : l'.Pairwise Span.Apart)
    (hd : ∀ x, Covers l x → ¬ Covers l' x) (hc : ∀ x, Covers l x ∨ Covers l' x ↔ x < n) :
    Tiles (l ++ l') n := by
  refine ⟨fun s hs => ?_, pairwise_append.mpr ⟨al, al', fun s hs t ht => ?_⟩, fun x => ?_⟩
  · rcases mem_append.mp hs with hs | hs
    · exact hl s hs
    · exact hl' s hs
  · exact Span.apart_of_disjoint (hl s hs) (hl' t ht) fun x hx hx' =>
      hd x ⟨s, hs, hx⟩ ⟨t, ht, hx'⟩
  · rw [covers_append, hc]

theorem Tiles.shift_left (h : Tiles (l ++ f) n)
    (hs : 0 < s.size) (hf' : Canonical f') (hsub : ∀ x, x ∈ s → Covers f x)
    (hcov : ∀ x, Covers f' x ↔ Covers f x ∧ x ∉ s) : Tiles (s :: l ++ f') n := by
  have hpos : ∀ t ∈ l, 0 < t.size := fun t ht => h.pos t (mem_append_left _ ht)
  have hap := (pairwise_append.mp h.apart).1
  refine tiles_append ?_ hf'.pos (pairwise_cons.mpr ⟨fun t ht => ?_, hap⟩) hf'.apart ?_ ?_
  · intro t ht
    rcases mem_cons.mp ht with rfl | ht
    · exact hs
    · exact hpos t ht
  · exact Span.apart_of_disjoint hs (hpos t ht) fun x hx hxt =>
      h.disjoint ⟨t, ht, hxt⟩ (hsub x hx)
  · intro x hx
    rw [hcov]
    rcases (covers_cons s l x).mp hx with hx | hx
    · exact fun hn => hn.2 hx
    · exact fun hn => h.disjoint hx hn.1
  intro x
  rw [hcov, covers_cons, ← h.covers x, covers_append]
  tauto

theorem Tiles.shift_right (h : Tiles (s :: l ++ f) n)
    (hf' : Canonical f') (hcov : ∀ x, Covers f' x ↔ Covers f x ∨ x ∈ s) : Tiles (l ++ f') n := by
  obtain ⟨hsl, hap⟩ := pairwise_cons.mp (pairwise_append.mp h.apart).1
  refine tiles_append (fun t ht => h.pos t (by simp [ht])) hf'.pos hap hf'.apart ?_ ?_
  · rintro x ⟨t, ht, hxt⟩
    rw [hcov]
    rintro (hx | hx)
    · exact h.disjoint ⟨t, mem_cons_of_mem _ ht, hxt⟩ hx
    · exact (hsl t ht).not_mem hx hxt
  intro x
  rw [hcov, ← h.covers x, covers_append, covers_cons]
  tauto

theorem Tiles.split_head {k : Nat} (h : Tiles (s :: l) n) (hk : 0 < k) (hks : k < s.size) :
    Tiles (⟨s.start, k⟩ :: ⟨s.start + k, s.size - k⟩ :: l) n := by
  obtain ⟨hsl, hap⟩ := pairwise_cons.mp h.apart
  refine ⟨?_, ?_, fun x => ?_⟩
  · intro t ht
    simp only [mem_cons] at ht
    rcases ht with rfl | rfl | ht
    · exact hk
    · show 0 < s.size - k
      omega
    · exact h.pos t (mem_cons_of_mem _ ht)
  · refine pairwise_cons.mpr ⟨fun t ht => ?_, pairwise_cons.mpr ⟨fun t ht => ?_, hap⟩⟩
    · rcases mem_cons.mp ht with rfl | ht
      · exact .inl le_rfl
      · have := hsl t ht
        simp only [Span.Apart, Span.stop] at this ⊢
        omega
    · have := hsl t ht
      simp only [Span.Apart, Span.stop] at this ⊢
      omega
  · rw [← h.covers x]
    simp only [covers_cons, ← or_assoc]
    refine or_congr_left ?_
    simp only [Span.mem_iff]
    omega

end SpanList
