import Mathlib.Algebra.Order.BigOperators.Group.Finset

/-
  Reference counts on shared immutable chains. A chain is a list, and what it shares with other chains are its suffixes:
  a nonempty suffix is a node with the chain behind it. A set of nodes is alive; the count of a node is the number of
  roots at it and of live nodes right before it.

  A reference taken at a node that is not alive brings it to life with a count of one and passes on to its tail; a last
  reference dropped passes on in the same way. A chain that is taken up or dropped is therefore a walk over its
  suffixes, and each step is one of the four lemmas below.
-/

namespace SharedChains
open List Option
open Function (update update_of_ne update_self)

variable {α : Type*} [DecidableEq α] {alive alive' : Finset (List α)} {count : List α → Option Nat}
  {roots roots' : List (List α)} {c d : List α} {k : Nat}

/-- The live nodes right before `c`. -/
def children (alive : Finset (List α)) (c : List α) : Finset (List α) := alive.filter fun d => d.tail = c

/-- The counts are those of the references. -/
structure Counted (alive : Finset (List α)) (count : List α → Option Nat) (roots : List (List α)) : Prop where
  alive_iff : ∀ c, c ∈ alive ↔ (count c).isSome = true
  refs : ∀ c, c ≠ [] → (count c).getD 0 = roots.count c + (children alive c).card
  pos : ∀ c, count c ≠ some 0
  nil : count [] = none

theorem counted_empty : Counted (∅ : Finset (List α)) (fun _ => none) [] :=
  ⟨by simp, by simp [children], by simp, rfl⟩

section
variable (h : Counted alive count roots)
include h

theorem Counted.perm (hperm : roots.Perm roots') : Counted alive count roots' := by
  refine ⟨h.alive_iff, fun c hc => ?_, h.pos, h.nil⟩
  rw [← hperm.count_eq]
  exact h.refs c hc

theorem Counted.ne_nil (hk : count c = some k) : c ≠ [] := by
  intro hc
  rw [hc, h.nil] at hk
  cases hk

theorem Counted.count_eq (hk : count c = some k) : k = roots.count c + (children alive c).card := by
  have hrefs := h.refs c (h.ne_nil hk)
  rwa [hk, getD_some] at hrefs

end

theorem Counted.root (h : Counted alive count (c :: roots)) (hc : c ≠ []) : ∃ k, count c = some (k + 1) := by
  have hrefs := h.refs c hc
  rw [count_cons_self] at hrefs
  cases hk : count c with
  | none =>
    rw [hk, getD_none] at hrefs
    omega
  | some k =>
    cases k with
    | zero => exact absurd hk (h.pos c)
    | succ k => exact ⟨k, rfl⟩

/-! ## Roots -/

theorem Counted.nil_root (h : Counted alive count roots) : Counted alive count ([] :: roots) := by
  refine ⟨h.alive_iff, fun c hc => ?_, h.pos, h.nil⟩
  rw [count_cons_of_ne (Ne.symm hc)]
  exact h.refs c hc

theorem Counted.drop_nil (h : Counted alive count ([] :: roots)) : Counted alive count roots := by
  refine ⟨h.alive_iff, fun c hc => ?_, h.pos, h.nil⟩
  rw [h.refs c hc, count_cons_of_ne (Ne.symm hc)]

theorem Counted.change {v : Option Nat} (h : Counted alive count roots) (hc : c ≠ []) (hv : v ≠ some 0)
    (hmem : c ∈ alive' ↔ v.isSome = true) (hrefs : v.getD 0 = roots'.count c + (children alive' c).card)
    (hother : ∀ d, d ≠ c → (d ∈ alive' ↔ d ∈ alive) ∧
      roots.count d + (children alive d).card = roots'.count d + (children alive' d).card) :
    Counted alive' (update count c v) roots' := by
  refine ⟨fun d => ?_, fun d hd => ?_, fun d => ?_, by rw [update_of_ne (Ne.symm hc), h.nil]⟩ <;>
    by_cases hdc : d = c
  · rw [hdc, update_self, hmem]
  · rw [update_of_ne hdc, (hother d hdc).1, h.alive_iff]
  · rw [hdc, update_self, hrefs]
  · rw [update_of_ne hdc, h.refs d hd, (hother d hdc).2]
  · rwa [hdc, update_self]
  · rw [update_of_ne hdc]
    exact h.pos d

theorem Counted.retain (h : Counted alive count roots) (hk : count c = some k) :
    Counted alive (update count c (some (k + 1))) (c :: roots) := by
  refine h.change (h.ne_nil hk) (by simp) (by simp [h.alive_iff, hk]) ?_ fun d hdc => ⟨Iff.rfl, ?_⟩
  · rw [count_cons_self, getD_some, h.count_eq hk]
    omega
  · rw [count_cons_of_ne (Ne.symm hdc)]

theorem Counted.release (h : Counted alive count (c :: roots)) (hk : count c = some (k + 2)) :
    Counted alive (update count c (some (k + 1))) roots := by
  refine h.change (h.ne_nil hk) (by simp) (by simp [h.alive_iff, hk]) ?_ fun d hdc => ⟨Iff.rfl, ?_⟩
  · have hcount := h.count_eq hk
    rw [count_cons_self] at hcount
    rw [getD_some]
    omega
  · rw [count_cons_of_ne (Ne.symm hdc)]

/-! ## Nodes -/

omit [DecidableEq α] in
theorem tail_ne (hc : c ≠ []) : c.tail ≠ c := by
  intro h
  have hlength := congrArg List.length h
  have hpos := length_pos_iff.mpr hc
  rw [length_tail] at hlength
  omega

theorem card_children_insert (hnot : c ∉ alive) (d : List α) :
    (children (insert c alive) d).card = (children alive d).card + if c.tail = d then 1 else 0 := by
  unfold children
  rw [Finset.filter_insert]
  split
  · rw [Finset.card_insert_of_notMem]
    exact fun hmem => hnot (Finset.mem_filter.mp hmem).1
  · rw [Nat.add_zero]

theorem card_children_erase (hmem : c ∈ alive) (d : List α) :
    (children (alive.erase c) d).card + (if c.tail = d then 1 else 0) = (children alive d).card := by
  have h := card_children_insert (Finset.notMem_erase c alive) d
  rw [Finset.insert_erase hmem] at h
  exact h.symm

theorem Counted.insert (h : Counted alive count (c.tail :: roots)) (hc : c ≠ []) (hnone : count c = none) :
    Counted (insert c alive) (update count c (some 1)) (c :: roots) := by
  have hnot : c ∉ alive := by simp [h.alive_iff, hnone]
  refine h.change hc (by simp) (by simp) ?_ fun d hdc => ⟨by simp [hdc], ?_⟩ <;> rw [card_children_insert hnot]
  · have hrefs := h.refs c hc
    rw [hnone, count_cons_of_ne (tail_ne hc), getD_none] at hrefs
    rw [count_cons_self, if_neg (tail_ne hc), getD_some]
    omega
  rw [count_cons_of_ne (Ne.symm hdc), count_cons]
  simp only [beq_iff_eq]
  omega

theorem Counted.erase (h : Counted alive count (c :: roots)) (hk : count c = some 1) :
    Counted (alive.erase c) (update count c none) (c.tail :: roots) := by
  have hc := h.ne_nil hk
  have hchildren := card_children_erase ((h.alive_iff c).mpr (by rw [hk]; rfl))
  refine h.change hc (by simp) (by simp) ?_ fun d hdc => ⟨by simp [hdc], ?_⟩
  · have hcount := h.count_eq hk
    have hself := hchildren c
    rw [count_cons_self] at hcount
    rw [getD_none, count_cons_of_ne (tail_ne hc)]
    omega
  rw [← hchildren d, count_cons_of_ne (Ne.symm hdc), count_cons]
  simp only [beq_iff_eq]
  omega

/-! ## What is alive -/

section
variable (h : Counted alive count roots)
include h

theorem Counted.tail_alive (hmem : c ∈ alive) (htail : c.tail ≠ []) : c.tail ∈ alive := by
  rw [h.alive_iff]
  have hrefs := h.refs c.tail htail
  have hchild : c ∈ children alive c.tail := Finset.mem_filter.mpr ⟨hmem, rfl⟩
  have hpos := Finset.card_pos.mpr ⟨c, hchild⟩
  cases hk : count c.tail with
  | none =>
    rw [hk, getD_none] at hrefs
    omega
  | some k => rfl

theorem Counted.suffix_alive (hmem : c ∈ alive) (hd : d ≠ []) (hsuffix : d <:+ c) : d ∈ alive := by
  induction c with
  | nil => exact absurd (suffix_nil.mp hsuffix) hd
  | cons a l ih =>
    rcases suffix_cons_iff.mp hsuffix with rfl | hsuffix
    · exact hmem
    have hl : l ≠ [] := by
      intro hl
      subst hl
      exact hd (suffix_nil.mp hsuffix)
    exact ih (h.tail_alive hmem hl) hsuffix

theorem Counted.root_mem (hc : c ≠ []) (hmem : c ∈ roots) : c ∈ alive := by
  have hperm : Counted alive count (c :: roots.erase c) := h.perm (perm_cons_erase hmem)
  obtain ⟨k, hk⟩ := hperm.root hc
  simp [h.alive_iff, hk]

theorem Counted.mem_iff : c ∈ alive ↔ c ≠ [] ∧ ∃ r ∈ roots, c <:+ r := by
  constructor
  · -- a live node is a root, or has a live child, which is longer: at most as long as the longest
    intro hmem
    obtain ⟨bound, hbound⟩ : ∃ bound, ∀ d ∈ alive, d.length ≤ bound :=
      ⟨alive.sup List.length, fun d hd => Finset.le_sup hd⟩
    have hlive : ∀ room, ∀ d ∈ alive, bound - d.length = room → ∃ r ∈ roots, d <:+ r := by
      intro room
      induction room using Nat.strong_induction_on with
      | _ room ih =>
        intro d hd hroom
        obtain ⟨k, hk⟩ := isSome_iff_exists.mp ((h.alive_iff d).mp hd)
        have hcount := h.count_eq hk
        by_cases hroot : d ∈ roots
        · exact ⟨d, hroot, suffix_refl d⟩
        have hchildren : 0 < (children alive d).card := by
          have hk0 : k ≠ 0 := by
            intro hk0
            exact h.pos d (by rw [hk, hk0])
          rw [count_eq_zero_of_not_mem hroot] at hcount
          omega
        obtain ⟨e, he⟩ := Finset.card_pos.mp hchildren
        obtain ⟨he, htail⟩ := Finset.mem_filter.mp he
        obtain ⟨l, hl⟩ := isSome_iff_exists.mp ((h.alive_iff e).mp he)
        have hlength : d.length < e.length := by
          rw [← htail, length_tail]
          have := length_pos_iff.mpr (h.ne_nil hl)
          omega
        have hle := hbound e he
        obtain ⟨r, hr, hsuffix⟩ := ih _ (by omega) e he rfl
        refine ⟨r, hr, List.IsSuffix.trans ?_ hsuffix⟩
        rw [← htail]
        exact tail_suffix e
    obtain ⟨k, hk⟩ := isSome_iff_exists.mp ((h.alive_iff c).mp hmem)
    exact ⟨h.ne_nil hk, hlive _ c hmem rfl⟩
  · rintro ⟨hc, r, hr, hsuffix⟩
    have hne : r ≠ [] := by
      intro hr'
      subst hr'
      exact hc (suffix_nil.mp hsuffix)
    exact h.suffix_alive (h.root_mem hne hr) hc hsuffix

theorem Counted.count_lt (hk : count c = some k) : k < roots.length + alive.card := by
  have hmem : c ∈ alive := by simp [h.alive_iff, hk]
  have hne := h.ne_nil hk
  have hroots : roots.count c ≤ roots.length := count_le_length
  have hchildren : (children alive c).card ≤ (alive.erase c).card := by
    refine Finset.card_le_card fun d hd => ?_
    obtain ⟨hd, htail⟩ := Finset.mem_filter.mp hd
    refine Finset.mem_erase.mpr ⟨?_, hd⟩
    intro hdc
    subst hdc
    exact tail_ne hne htail
  have hpos := Finset.card_pos.mpr ⟨c, hmem⟩
  rw [Finset.card_erase_of_mem hmem] at hchildren
  have hcount := h.count_eq hk
  omega

end

end SharedChains
