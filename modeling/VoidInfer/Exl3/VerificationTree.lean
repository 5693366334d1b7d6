import VoidInfer.Base
import VoidInfer.Lib.TopSum
import Mathlib.Data.Rat.Floor
import Mathlib.Tactic.Positivity

/-
  The verification tree of a round (`src/exl3/verification_tree.h`): a prefix of the draft chain and sibling leaves
  under it, chosen by the expected accepted length per round time. Rates are exact rationals. What the softmax of a row
  gives a candidate is a parameter, as `std::exp` is, and so is `std::partial_sort`, of which only what it promises is
  used.

  For each number of nodes and each chain length the leaves of largest value are best, and the two loops try every pair
  (`tree_is_optimal`).
-/

namespace VoidInfer.Exl3
open List

open TopSum

/-- `kExl3TreeChainHit`, by decile. -/
def treeChainHit : List ℚ :=
  [32 / 100, 38 / 100, 35 / 100, 44 / 100, 42 / 100, 49 / 100, 57 / 100, 67 / 100, 78 / 100, 97 / 100]

/-- `kExl3TreeSiblingHit`, by rank and decile. -/
def treeSiblingHit : List (List ℚ) :=
  [[4 / 100, 13 / 100, 18 / 100, 23 / 100, 26 / 100, 27 / 100, 13 / 100, 9 / 100, 6 / 100, 7 / 100],
   [3 / 100, 10 / 100, 15 / 100, 9 / 100, 12 / 100, 12 / 100, 12 / 100, 12 / 100, 12 / 100, 12 / 100],
   [3 / 100, 10 / 100, 15 / 100, 15 / 100, 15 / 100, 15 / 100, 15 / 100, 15 / 100, 15 / 100, 15 / 100]]

/-- `kTop` and `kRanks`. -/
def treeTop : Nat := 16

def treeRanks : Nat := 3

/-- `Leaf`. -/
structure TreeLeaf where
  value : ℚ
  offset : Nat
  token : Int

/-- `Exl3VerificationTree`; a sibling is its offset and its token. -/
structure VerificationTree where
  chainDrafts : Nat := 0
  siblings : List (Nat × Int) := []

/-- The arguments of `exl3_build_verification_tree`: `candidateIds` and `candidateUnary` hold sixteen candidates for
    each depth. -/
structure TreeInput where
  drafts : List Int
  candidateIds : List Int
  candidateUnary : List ℚ
  budget : Nat
  maxSiblings : Nat
  rowCost : ℚ

/-- The outside of the tree: the share that a softmax over a row gives a candidate, and `std::partial_sort` by decreasing
    value. -/
structure TreeLibrary where
  share : List ℚ → Nat → ℚ
  partialSort : Nat → List TreeLeaf → List TreeLeaf

namespace VerificationTree

variable (lib : TreeLibrary) (x : TreeInput)

/-! ## Leaves -/

def decile (p : ℚ) : Nat := min 9 (p * 10).floor.toNat

def depth : Nat := min x.drafts.length x.budget

/-- The draft at depth `d + 1`. -/
def draft (d : Nat) : Int := x.drafts.getD d 0

/-- `ids[c]` at depth `d + 1`. -/
def candidate (d c : Nat) : Int := x.candidateIds.getD (d * treeTop + c) 0

/-- `unary` at depth `d + 1`. -/
def unaryRow (d : Nat) : List ℚ := (x.candidateUnary.drop (d * treeTop)).take treeTop

/-- `order`: the candidates by decreasing unary value, equal ones as they stand. -/
def order (d : Nat) : List Nat :=
  (List.range treeTop).mergeSort fun a b => decide ((unaryRow x d).getD b 0 ≤ (unaryRow x d).getD a 0)

/-- `chain_p`: the share of the last candidate that is the draft. -/
def chainShare (d : Nat) : ℚ :=
  (List.range treeTop).foldl (fun p c => if candidate x d c = draft x d then lib.share (unaryRow x d) c else p) 0

def chainHit (d : Nat) : ℚ := treeChainHit.getD (decile (chainShare lib x d)) 0

/-- The leaf of a rank. -/
def rankLeaf (d rank c : Nat) : TreeLeaf :=
  { value := (treeSiblingHit.getD rank []).getD (decile (lib.share (unaryRow x d) c)) 0
    offset := d + 1, token := candidate x d c }

/-- The loops that fill `leaves`: candidates by rank, without the draft, then empty places. -/
def fillLeaves (d : Nat) : Nat → List Nat → List TreeLeaf
  | rank, [] => List.replicate (treeRanks - rank) ⟨0, d + 1, -1⟩
  | rank, c :: rest =>
    if treeRanks ≤ rank then []
    else if candidate x d c = draft x d then fillLeaves d rank rest
    else rankLeaf lib x d rank c :: fillLeaves d (rank + 1) rest

/-- `leaves` at depth `d + 1`. -/
def leaves (d : Nat) : List TreeLeaf := fillLeaves lib x d 0 (order x d)

/-! ## The search -/

/-- `survive`, `value` and `pool` of a chain. -/
structure Grown where
  survive : ℚ := 1
  value : ℚ := 0
  pool : List TreeLeaf := []

/-- One depth more. -/
def growStep (g : Grown) (d : Nat) : Grown :=
  { survive := g.survive * chainHit lib x d
    value := g.value + g.survive * chainHit lib x d
    pool := g.pool ++ ((leaves lib x d).filter fun leaf => decide (0 ≤ leaf.token)).map fun leaf =>
      { leaf with value := g.survive * leaf.value } }

/-- A chain of drafts. -/
def grow (chain : Nat) : Grown := (List.range chain).foldl (growStep lib x) {}

def rate (value : ℚ) (nodes : Nat) : ℚ := (1 + value) / (1 + x.rowCost * nodes)

/-- The leaves taken with a chain. -/
def chosen (chain count : Nat) : List TreeLeaf := (lib.partialSort count (grow lib x chain).pool).take count

/-- The rate of a chain with leaves. -/
def treeRate (chain : Nat) (siblings : List TreeLeaf) : ℚ :=
  rate x ((grow lib x chain).value + (siblings.map (·.value)).sum) (chain + siblings.length)

/-- One round of the two loops, with the best rate and tree so far. -/
def consider (best : ℚ × VerificationTree) (nodes chain : Nat) : ℚ × VerificationTree :=
  let count := nodes - chain
  if count > (grow lib x chain).pool.length then best
  else
    let siblings := chosen lib x chain count
    let r := rate x ((grow lib x chain).value + (siblings.map (·.value)).sum) nodes
    if r > best.1 then (r, ⟨chain, siblings.map fun leaf => (leaf.offset, leaf.token)⟩) else best

/-- The pairs that the loops try, in their order. -/
def pairs : List (Nat × Nat) :=
  (List.range' 1 x.budget).flatMap fun nodes =>
    (List.range' (max 1 (nodes - x.maxSiblings)) (min (depth x) nodes + 1 - max 1 (nodes - x.maxSiblings))).map
      fun chain => (nodes, chain)

/-- `exl3_build_verification_tree`. -/
def build : VerificationTree := ((pairs x).foldl (fun best p => consider lib x best p.1 p.2) (-1, {})).2

/-! ## The pool of a chain -/

variable {lib : TreeLibrary} {x : TreeInput}

theorem getD_nonneg {l : List ℚ} (h : ∀ a ∈ l, 0 ≤ a) (i : Nat) : 0 ≤ l.getD i 0 := by
  rw [getD_eq_getElem?_getD]
  cases hget : l[i]? with
  | none => exact le_refl 0
  | some a => exact h a (mem_of_getElem? hget)

theorem chainHit_nonneg (d : Nat) : 0 ≤ chainHit lib x d := getD_nonneg (by norm_num [treeChainHit]) _

theorem rankLeaf_nonneg (d rank c : Nat) : 0 ≤ (rankLeaf lib x d rank c).value := by
  refine getD_nonneg ?_ _
  rw [getD_eq_getElem?_getD]
  cases hget : treeSiblingHit[rank]? with
  | none => simp
  | some row =>
    have hall : ∀ row ∈ treeSiblingHit, ∀ a ∈ row, (0 : ℚ) ≤ a := by norm_num [treeSiblingHit]
    exact hall row (mem_of_getElem? hget)

/-- A real leaf of a depth. -/
structure LeafOk (x : TreeInput) (d : Nat) (leaf : TreeLeaf) : Prop where
  value : 0 ≤ leaf.value
  offset : leaf.offset = d + 1
  token : leaf.token ≠ draft x d

variable {d chain nodes : Nat} {cs : List Nat} {best : ℚ × VerificationTree}

theorem fillLeaves_ok : ∀ {rank : Nat}, ∀ leaf ∈ fillLeaves lib x d rank cs, 0 ≤ leaf.token →
    LeafOk x d leaf := by
  induction cs with
  | nil =>
    intro rank leaf hleaf htoken
    rw [eq_of_mem_replicate hleaf] at htoken
    cases htoken
  | cons c cs ih =>
    intro rank leaf hleaf htoken
    rw [fillLeaves] at hleaf
    split at hleaf
    · cases hleaf
    split at hleaf
    · exact ih leaf hleaf htoken
    next hother =>
    rcases mem_cons.mp hleaf with rfl | hleaf
    · exact ⟨rankLeaf_nonneg d rank c, rfl, hother⟩
    · exact ih leaf hleaf htoken

theorem fillLeaves_tokens : ∀ rank,
    (((fillLeaves lib x d rank cs).filter fun leaf => decide (0 ≤ leaf.token)).map (·.token)).Sublist
      (cs.map (candidate x d)) := by
  induction cs with
  | nil =>
    intro rank
    have hnone : ((fillLeaves lib x d rank []).filter fun leaf => decide (0 ≤ leaf.token)) = [] := by
      refine filter_eq_nil_iff.mpr fun leaf hleaf => ?_
      rw [eq_of_mem_replicate hleaf]
      simp
    rw [hnone]
    exact nil_sublist _
  | cons c cs ih =>
    intro rank
    rw [fillLeaves]
    split
    · exact nil_sublist _
    split
    · exact (ih rank).cons _
    rw [filter_cons]
    split
    · exact (ih _).cons_cons _
    · exact (ih _).cons _

/-- The candidates of a depth are different. -/
def Distinct (x : TreeInput) : Prop :=
  ∀ d < depth x, ∀ a < treeTop, ∀ b < treeTop, candidate x d a = candidate x d b → a = b

variable (lib) in
theorem leaves_nodup (hdistinct : Distinct x) (hd : d < depth x) :
    (((leaves lib x d).filter fun leaf => decide (0 ≤ leaf.token)).map (·.token)).Nodup := by
  have hperm : (order x d).Perm (List.range treeTop) := mergeSort_perm _ _
  refine List.Nodup.sublist (fillLeaves_tokens 0) (Nodup.map_on ?_ (hperm.nodup_iff.mpr nodup_range))
  intro a ha b hb heq
  exact hdistinct d hd a (mem_range.mp (hperm.mem_iff.mp ha)) b (mem_range.mp (hperm.mem_iff.mp hb)) heq

theorem grow_succ (chain : Nat) : grow lib x (chain + 1) = growStep lib x (grow lib x chain) chain := by
  unfold grow
  rw [range_succ, foldl_append, foldl_cons, foldl_nil]

/-- The pool of a chain: leaves under it, none twice. -/
structure GrownOk (x : TreeInput) (chain : Nat) (g : Grown) : Prop where
  survive : 0 ≤ g.survive
  value : 0 ≤ g.value
  leaf : ∀ leaf ∈ g.pool, ∃ d < chain, LeafOk x d leaf
  nodup : (g.pool.map fun leaf => (leaf.offset, leaf.token)).Nodup

variable (lib) in
theorem grow_ok (hdistinct : Distinct x) : ∀ {chain : Nat}, chain ≤ depth x → GrownOk x chain (grow lib x chain) := by
  intro chain
  induction chain with
  | zero =>
    intro _
    exact ⟨zero_le_one, le_refl 0, by simp [grow], nodup_nil⟩
  | succ chain ih =>
    intro hchain
    have hg := ih (by omega)
    have hhit : 0 ≤ (grow lib x chain).survive * chainHit lib x chain := mul_nonneg hg.survive (chainHit_nonneg chain)
    rw [grow_succ]
    -- the leaves of the new depth
    have hnew : ∀ leaf ∈ ((leaves lib x chain).filter fun leaf => decide (0 ≤ leaf.token)).map fun leaf =>
        { leaf with value := (grow lib x chain).survive * leaf.value }, LeafOk x chain leaf := by
      intro leaf hleaf
      obtain ⟨plain, hplain, rfl⟩ := List.mem_map.mp hleaf
      obtain ⟨hplain, htoken⟩ := mem_filter.mp hplain
      have hok := fillLeaves_ok plain hplain (of_decide_eq_true htoken)
      exact ⟨mul_nonneg hg.survive hok.value, hok.offset, hok.token⟩
    refine ⟨hhit, add_nonneg hg.value hhit, fun leaf hleaf => ?_, ?_⟩
    · rcases mem_append.mp hleaf with hleaf | hleaf
      · obtain ⟨d, hd, hok⟩ := hg.leaf leaf hleaf
        exact ⟨d, by omega, hok⟩
      · exact ⟨chain, Nat.lt_succ_self chain, hnew leaf hleaf⟩
    · show List.Nodup (List.map _ (_ ++ _))
      rw [map_append]
      refine List.Nodup.append hg.nodup ?_ ?_
      · have htokens := leaves_nodup lib hdistinct (show chain < depth x by omega)
        rw [List.map_map]
        exact Nodup.of_map Prod.snd (by rw [List.map_map]; exact htokens)
      intro p hold hnewer
      obtain ⟨leaf, hleaf, rfl⟩ := List.mem_map.mp hold
      obtain ⟨leaf', hleaf', heq⟩ := List.mem_map.mp hnewer
      obtain ⟨d, hd, hok⟩ := hg.leaf leaf hleaf
      have hoffset := (Prod.mk.inj heq).1
      rw [hok.offset, (hnew leaf' hleaf').offset] at hoffset
      omega

/-! ## The best tree -/

theorem mem_pairs : (nodes, chain) ∈ pairs x ↔
    1 ≤ nodes ∧ nodes ≤ x.budget ∧ 1 ≤ chain ∧ nodes - x.maxSiblings ≤ chain ∧ chain ≤ depth x ∧ chain ≤ nodes := by
  simp only [pairs, mem_flatMap, List.mem_map, mem_range'_1, Prod.mk.injEq]
  constructor
  · rintro ⟨nodes, hnodes, chain, hchain, rfl, rfl⟩
    omega
  · intro h
    exact ⟨nodes, by omega, chain, by omega, rfl, rfl⟩

section
variable (hsort : PartialSorts lib.partialSort TreeLeaf.value)
include hsort

theorem length_chosen {count : Nat}
    (hcount : count ≤ (grow lib x chain).pool.length) : (chosen lib x chain count).length = count := by
  unfold chosen
  rw [length_take, (hsort.perm count _).length_eq]
  omega

theorem consider_eq (hchain : chain ≤ nodes) (hcount : nodes - chain ≤ (grow lib x chain).pool.length) :
    consider lib x best nodes chain =
      if treeRate lib x chain (chosen lib x chain (nodes - chain)) > best.1 then
        (treeRate lib x chain (chosen lib x chain (nodes - chain)),
          ⟨chain, (chosen lib x chain (nodes - chain)).map fun leaf => (leaf.offset, leaf.token)⟩)
      else best := by
  have hnodes : chain + (nodes - chain) = nodes := by omega
  unfold consider treeRate
  rw [if_neg (by omega), length_chosen hsort hcount, hnodes]

end

/-- A pair of the loops with leaves enough. -/
def Tried (lib : TreeLibrary) (x : TreeInput) (p : Nat × Nat) : Prop :=
  p.2 ≤ p.1 ∧ p.1 - p.2 ≤ (grow lib x p.2).pool.length

theorem foldl_consider (hsort : PartialSorts lib.partialSort TreeLeaf.value) {l : List (Nat × Nat)}
    (hl : ∀ p ∈ l, p.2 ≤ p.1)
    (hbest : l.foldl (fun best p => consider lib x best p.1 p.2) (-1, {}) = best) :
    (∀ p ∈ l, Tried lib x p → treeRate lib x p.2 (chosen lib x p.2 (p.1 - p.2)) ≤ best.1) ∧
    (best = (-1, {}) ∨ ∃ p ∈ l, Tried lib x p ∧ best = (treeRate lib x p.2 (chosen lib x p.2 (p.1 - p.2)),
        ⟨p.2, (chosen lib x p.2 (p.1 - p.2)).map fun leaf => (leaf.offset, leaf.token)⟩)) := by
  induction l using List.reverseRecOn generalizing best with
  | nil => exact ⟨by simp, .inl hbest.symm⟩
  | append_singleton l p ih =>
    rw [foldl_append, foldl_cons, foldl_nil] at hbest
    obtain ⟨hmax, hfrom⟩ := ih (fun q hq => hl q (mem_append_left _ hq)) rfl
    generalize l.foldl (fun best p => consider lib x best p.1 p.2) (-1, {}) = before at hbest hmax hfrom
    have hold : before = (-1, {}) ∨ ∃ q ∈ l ++ [p], Tried lib x q ∧
        before = (treeRate lib x q.2 (chosen lib x q.2 (q.1 - q.2)),
          ⟨q.2, (chosen lib x q.2 (q.1 - q.2)).map fun leaf => (leaf.offset, leaf.token)⟩) :=
      hfrom.imp_right fun ⟨q, hq, h⟩ => ⟨q, mem_append_left _ hq, h⟩
    have hchain := hl p (by simp)
    by_cases hcount : p.1 - p.2 ≤ (grow lib x p.2).pool.length
    · rw [consider_eq hsort hchain hcount] at hbest
      split at hbest
      · next hbetter =>
        subst hbest
        refine ⟨fun q hq htried => ?_, .inr ⟨p, by simp, ⟨hchain, hcount⟩, rfl⟩⟩
        rcases mem_append.mp hq with hq | hq
        · exact le_trans (hmax q hq htried) (le_of_lt hbetter)
        · rw [mem_singleton.mp hq]
      next hworse =>
      subst hbest
      refine ⟨fun q hq htried => ?_, hold⟩
      rcases mem_append.mp hq with hq | hq
      · exact hmax q hq htried
      rw [mem_singleton.mp hq]
      exact not_lt.mp hworse
    have hskip : consider lib x before p.1 p.2 = before := by
      unfold consider
      rw [if_pos (by omega)]
    rw [hskip] at hbest
    subst hbest
    refine ⟨fun q hq htried => ?_, hold⟩
    rcases mem_append.mp hq with hq | hq
    · exact hmax q hq htried
    rw [mem_singleton.mp hq] at htried
    exact absurd htried.2 hcount

/-- A chain and leaves under it that the arguments admit. -/
structure Admissible (lib : TreeLibrary) (x : TreeInput) (chain : Nat) (siblings : List TreeLeaf) : Prop where
  pos : 1 ≤ chain
  le_depth : chain ≤ depth x
  nodup : siblings.Nodup
  mem_pool : ∀ leaf ∈ siblings, leaf ∈ (grow lib x chain).pool
  few : siblings.length ≤ x.maxSiblings
  fits : chain + siblings.length ≤ x.budget

theorem treeRate_le_chosen (hsort : PartialSorts lib.partialSort TreeLeaf.value) (hcost : 0 ≤ x.rowCost)
    {siblings : List TreeLeaf} (h : Admissible lib x chain siblings) :
    siblings.length ≤ (grow lib x chain).pool.length ∧
      treeRate lib x chain siblings ≤ treeRate lib x chain (chosen lib x chain siblings.length) := by
  have hsubperm : siblings.Subperm (grow lib x chain).pool := List.Nodup.subperm h.nodup fun leaf hleaf => h.mem_pool leaf hleaf
  have hlength := hsubperm.length_le
  refine ⟨hlength, ?_⟩
  have hsum := hsort.sum_le hsubperm
  unfold treeRate
  rw [length_chosen hsort hlength]
  have hden : 0 ≤ 1 + x.rowCost * ((chain + siblings.length : Nat) : ℚ) := by positivity
  refine div_le_div_of_nonneg_right ?_ hden
  unfold chosen
  linarith

variable (lib) in
theorem treeRate_pos (hcost : 0 ≤ x.rowCost) (hdistinct : Distinct x) (hchain : chain ≤ depth x) :
    -1 < treeRate lib x chain [] := by
  have hvalue := (grow_ok lib hdistinct hchain).value
  have hrate : 0 ≤ treeRate lib x chain [] := by
    unfold treeRate rate
    rw [map_nil, sum_nil, add_zero]
    positivity
  linarith

/-- The tree is well formed, and no chain with leaves under it has a larger rate. Without drafts it is empty. -/
theorem tree_is_optimal (hsort : PartialSorts lib.partialSort TreeLeaf.value) (hbudget : 1 ≤ x.budget)
    (hcost : 0 ≤ x.rowCost) (hdistinct : Distinct x) :
    (x.drafts = [] → build lib x = {}) ∧
    (x.drafts ≠ [] → ∃ siblings, Admissible lib x (build lib x).chainDrafts siblings ∧
      (build lib x).siblings = siblings.map (fun leaf => (leaf.offset, leaf.token)) ∧
      (∀ sibling ∈ (build lib x).siblings, 1 ≤ sibling.1 ∧ sibling.1 ≤ (build lib x).chainDrafts ∧
        sibling.2 ≠ draft x (sibling.1 - 1)) ∧
      (build lib x).siblings.Nodup ∧
      ∀ chain other, Admissible lib x chain other →
        treeRate lib x chain other ≤ treeRate lib x (build lib x).chainDrafts siblings) := by
  have hordered : ∀ p ∈ pairs x, p.2 ≤ p.1 := by
    intro p hp
    exact (mem_pairs.mp (show (p.1, p.2) ∈ pairs x from hp)).2.2.2.2.2
  obtain ⟨hmax, hfrom⟩ := foldl_consider hsort hordered rfl
  refine ⟨fun hnone => ?_, fun hdrafts => ?_⟩
  · have hempty : pairs x = [] := by
      refine eq_nil_iff_forall_not_mem.mpr fun p hp => ?_
      have hpair := mem_pairs.mp (show (p.1, p.2) ∈ pairs x from hp)
      unfold depth at hpair
      rw [hnone, length_nil] at hpair
      omega
    unfold build
    rw [hempty]
    rfl
  · have hdepth : 1 ≤ depth x := by
      have hlength := length_pos_iff.mpr hdrafts
      unfold depth
      omega
    -- a single draft is tried, and has a rate
    have hone : Tried lib x (1, 1) := ⟨Nat.le_refl 1, Nat.zero_le _⟩
    have hfirst := hmax (1, 1) (mem_pairs.mpr (by omega)) hone
    have hrate : chosen lib x 1 (1 - 1) = [] := by
      rfl
    have hpositive := treeRate_pos lib hcost hdistinct hdepth
    rcases hfrom with hstart | ⟨⟨nodes, chain⟩, hp, htried, hbest⟩
    · rw [hstart] at hfirst
      exact absurd (lt_of_lt_of_le hpositive hfirst) (lt_irrefl _)
    have hpair := mem_pairs.mp hp
    have hbuild : build lib x = ⟨chain, (chosen lib x chain (nodes - chain)).map fun leaf => (leaf.offset, leaf.token)⟩ := by
      unfold build
      rw [hbest]
    have hgrown := grow_ok lib hdistinct (show chain ≤ depth x by omega)
    obtain ⟨horder, hcount⟩ : chain ≤ nodes ∧ nodes - chain ≤ (grow lib x chain).pool.length := htried
    have hlength := length_chosen hsort hcount
    have hsub : (chosen lib x chain (nodes - chain)).Subperm (grow lib x chain).pool :=
      (take_sublist _ _).subperm.trans (hsort.perm _ _).subperm
    have hnodup : ((chosen lib x chain (nodes - chain)).map fun leaf => (leaf.offset, leaf.token)).Nodup := by
      obtain ⟨l, hperm, hsublist⟩ := hsub
      exact (hperm.map _).nodup_iff.mp (hgrown.nodup.sublist (hsublist.map _))
    have hadmissible : Admissible lib x chain (chosen lib x chain (nodes - chain)) :=
      ⟨by omega, by omega, hnodup.of_map _, fun leaf hleaf => hsub.subset hleaf, by omega, by omega⟩
    rw [hbuild]
    refine ⟨chosen lib x chain _, hadmissible, rfl, fun sibling hsibling => ?_, hnodup, fun chain' other hother => ?_⟩
    · obtain ⟨leaf, hleaf, rfl⟩ := List.mem_map.mp hsibling
      obtain ⟨d, hd, hok⟩ := hgrown.leaf leaf (hsub.subset hleaf)
      have hoffset := hok.offset
      show 1 ≤ leaf.offset ∧ leaf.offset ≤ chain ∧ leaf.token ≠ draft x _
      rw [hoffset, Nat.add_sub_cancel]
      exact ⟨by omega, by omega, hok.token⟩
    · obtain ⟨hfit, hle⟩ := treeRate_le_chosen hsort hcost hother
      have hcount : chain' + other.length - chain' = other.length := by omega
      have hpos := hother.pos
      have hdeep := hother.le_depth
      have hmost := hother.few
      have hfits := hother.fits
      have hlast := hmax (chain' + other.length, chain') (mem_pairs.mpr (by omega)) ⟨by omega, by rw [hcount]; exact hfit⟩
      rw [hbest] at hlast
      rw [hcount] at hlast
      exact le_trans hle hlast

/-- A full sort is a partial sort of any length. -/
def sortedFirst (_ : Nat) (l : List TreeLeaf) : List TreeLeaf := l.mergeSort fun a b => decide (b.value ≤ a.value)

theorem partialSorts_sortedFirst : PartialSorts sortedFirst TreeLeaf.value := by
  refine ⟨fun k l => mergeSort_perm l _, fun k l a ha b hb => ?_⟩
  have hsorted : (sortedFirst k l).Pairwise fun a b => decide (b.value ≤ a.value) = true := by
    refine pairwise_mergeSort ?_ ?_ l
    · intro a b c hab hbc
      rw [decide_eq_true_iff] at hab hbc ⊢
      exact le_trans hbc hab
    intro a b
    rw [Bool.or_eq_true, decide_eq_true_iff, decide_eq_true_iff]
    exact le_total _ _
  rw [← take_append_drop k (sortedFirst k l), pairwise_append] at hsorted
  exact of_decide_eq_true (hsorted.2.2 a ha b hb)

/-- Three drafts, each among sixteen candidates; the softmax favours the smaller ones. -/
def sampleLibrary : TreeLibrary := { share := fun _ candidate => 1 / 2 ^ (candidate + 1), partialSort := sortedFirst }

def sampleInput : TreeInput :=
  { drafts := [0, 1, 0], candidateIds := (List.replicate 3 ((List.range 16).map Int.ofNat)).flatten
    candidateUnary := List.replicate 48 0, budget := 5, maxSiblings := 2, rowCost := 141 / 10000 }

/-- At most two siblings come with the chain, and the tree is no worse than all three drafts alone. -/
theorem tree_is_optimal_sample : ∃ siblings, Admissible sampleLibrary sampleInput
      (build sampleLibrary sampleInput).chainDrafts siblings ∧
    (build sampleLibrary sampleInput).siblings = siblings.map (fun leaf => (leaf.offset, leaf.token)) ∧
    siblings.length ≤ 2 ∧ (build sampleLibrary sampleInput).siblings.Nodup ∧
    treeRate sampleLibrary sampleInput 3 [] ≤
      treeRate sampleLibrary sampleInput (build sampleLibrary sampleInput).chainDrafts siblings := by
  have hdistinct : Distinct sampleInput := by
    have hrows : ∀ d < 3, ∀ a < treeTop, candidate sampleInput d a = a := by decide
    intro d hd a ha b hb heq
    rw [hrows d hd a ha, hrows d hd b hb] at heq
    exact Int.ofNat.inj heq
  have hcost : 0 ≤ sampleInput.rowCost := by
    show (0 : ℚ) ≤ 141 / 10000
    norm_num
  have hsort : PartialSorts sampleLibrary.partialSort TreeLeaf.value := partialSorts_sortedFirst
  obtain ⟨siblings, hadmissible, htree, -, hnodup, hbest⟩ :=
    (tree_is_optimal hsort (by decide : 1 ≤ sampleInput.budget) hcost hdistinct).2 (by decide)
  have hchain : Admissible sampleLibrary sampleInput 3 [] :=
    ⟨by decide, by decide, .nil, by simp, Nat.zero_le _, by decide⟩
  exact ⟨siblings, hadmissible, htree, hadmissible.few, hnodup, hbest 3 [] hchain⟩

end VerificationTree
end VoidInfer.Exl3
