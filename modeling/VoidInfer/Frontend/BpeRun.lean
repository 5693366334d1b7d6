import VoidInfer.Frontend.BpeMerge
import Mathlib.Data.List.Infix

/-
  The merge loop is plain byte-pair encoding. The invariant: the live nodes are linked in the order of their indices; a
  candidate whose generations are current has the rule of its nodes; and every linked pair with a rule has its current
  candidate in the queue.
-/

namespace VoidInfer.Frontend
open PairMerge List Option

variable {heap : BpeQueue} {rules : MergeRules} {nodes : BpeNodes} {chain xs ys : List Nat}
  {queue : List BpeCandidate} {candidate : BpeCandidate} {count a b : Nat}

/-- The live nodes, first to last. -/
structure Linked (count : Nat) (nodes : BpeNodes) (chain : List Nat) : Prop where
  sorted : chain.Pairwise (· < ·)
  next : ∀ xs a ys, chain = xs ++ a :: ys → (nodes a).next = ys.head?
  previous : ∀ xs a ys, chain = xs ++ a :: ys → (nodes a).previous = xs.getLast?
  live : ∀ a ∈ chain, (nodes a).live = true
  alive : ∀ a < count, (nodes a).live = true → a ∈ chain
  within : ∀ a ∈ chain, a < count
  head : chain.head? = if count = 0 then none else some 0

/-- The queue against the nodes. -/
structure Queued (rules : MergeRules) (count : Nat) (nodes : BpeNodes) (chain : List Nat)
    (queue : List BpeCandidate) : Prop where
  within : ∀ c ∈ queue, c.left < count ∧ c.right < count
  old : ∀ c ∈ queue, c.leftGeneration ≤ (nodes c.left).generation ∧
    c.rightGeneration ≤ (nodes c.right).generation
  sound : ∀ c ∈ queue, (nodes c.left).generation = c.leftGeneration →
    (nodes c.right).generation = c.rightGeneration →
    rules (nodes c.left).symbol (nodes c.right).symbol = some ⟨c.rank, c.result⟩
  complete : ∀ xs a b ys rule, chain = xs ++ a :: b :: ys →
    rules (nodes a).symbol (nodes b).symbol = some rule → current nodes rule a b ∈ queue

def pieceOf (nodes : BpeNodes) (index : Nat) : BpePiece := ⟨(nodes index).symbol, (nodes index).finish⟩

/-! ## The chain -/

theorem Linked.pair_lt (hlinked : Linked count nodes (xs ++ a :: b :: ys)) : a < b := by
  have := (pairwise_append.mp hlinked.sorted).2.1
  exact rel_of_pairwise_cons this mem_cons_self

theorem Linked.next_mem (hlinked : Linked count nodes chain) (ha : a ∈ chain) (hnext : (nodes a).next = some b) :
    b ∈ chain := by
  obtain ⟨xs, ys, rfl⟩ := append_of_mem ha
  have := hlinked.next xs a ys rfl
  rw [hnext] at this
  exact mem_append_right _ (mem_cons_of_mem _ (mem_of_mem_head? this.symm))

variable {xs' ys' : List Nat} {head : BpeCandidate} {tail : List BpeCandidate} {fuel : Nat}

theorem Linked.place_le (hlinked : Linked count nodes (xs ++ a :: ys)) {a' : Nat}
    (hsplit : xs ++ a :: ys = xs' ++ a' :: ys') (hle : a ≤ a') : xs.length ≤ xs'.length := by
  by_contra hlt
  have hsorted := hlinked.sorted
  rcases append_eq_append_iff.mp hsplit with ⟨t, rfl, -⟩ | ⟨t, rfl, ht⟩
  · rw [length_append] at hlt
    omega
  cases t with
  | nil => simp at hlt
  | cons x t =>
    cases ht
    have := (pairwise_append.mp hsorted).2.2 a' (by simp) a mem_cons_self
    omega

theorem adjacent_of_removed {p q : Nat} (hsplit : xs ++ a :: ys = xs' ++ p :: q :: ys')
    (hp : p ≠ a) (hq : q ≠ a) : ∃ us vs, xs ++ a :: b :: ys = us ++ p :: q :: vs := by
  rcases append_eq_append_iff.mp hsplit with ⟨t, rfl, ht⟩ | ⟨t, rfl, ht⟩
  · cases t with
    | nil => exact absurd (List.cons.inj ht).1.symm hp
    | cons x t =>
      cases ht
      exact ⟨xs ++ a :: b :: t, ys', by simp⟩
  match t with
  | [] => exact absurd (List.cons.inj ht).1 hp
  | [x] => exact absurd (List.cons.inj (List.cons.inj ht).2).1 hq
  | x :: y :: t =>
    obtain ⟨rfl, rfl, -⟩ := ht
    exact ⟨xs', t ++ a :: b :: ys, by simp⟩

theorem Linked.split_of_fresh (hlinked : Linked count nodes chain) (hleft : candidate.left < count)
    (hfresh : stale nodes candidate = false) :
    (∃ xs ys, chain = xs ++ candidate.left :: candidate.right :: ys) ∧
      (nodes candidate.left).generation = candidate.leftGeneration ∧
      (nodes candidate.right).generation = candidate.rightGeneration := by
  simp only [stale, Bool.or_eq_false_iff, Bool.not_eq_false', bne_eq_false_iff_eq] at hfresh
  obtain ⟨⟨⟨⟨hlive, -⟩, hnext⟩, hlg⟩, hrg⟩ := hfresh
  obtain ⟨xs, ys, rfl⟩ := append_of_mem (hlinked.alive _ hleft hlive)
  have := hlinked.next xs _ ys rfl
  rw [hnext] at this
  obtain ⟨ys', rfl⟩ := head?_eq_some_iff.mp this.symm
  exact ⟨⟨xs, ys', rfl⟩, hlg, hrg⟩

theorem Linked.current_fresh (hlinked : Linked count nodes (xs ++ a :: b :: ys)) (rule : BpeMergeRule) :
    stale nodes (current nodes rule a b) = false := by
  have hlive := hlinked.live
  simp [stale, current, hlive a (by simp), hlive b (by simp), hlinked.next xs a _ rfl]

/-! ## A merge -/

section Merge

variable (hlinked : Linked count nodes (xs ++ candidate.left :: candidate.right :: ys))
include hlinked

theorem Linked.ne : candidate.left ≠ candidate.right := Nat.ne_of_lt hlinked.pair_lt

theorem Linked.apart {i : Nat} (hi : i ∈ xs ∨ i ∈ ys) : i ≠ candidate.left ∧ i ≠ candidate.right := by
  have hsorted := pairwise_append.mp hlinked.sorted
  obtain ⟨hhead, hrest⟩ := pairwise_cons.mp hsorted.2.1
  have hlt := hlinked.pair_lt
  rcases hi with hi | hi
  · have := hsorted.2.2 i hi candidate.left mem_cons_self
    omega
  have := (pairwise_cons.mp hrest).1 i hi
  omega

theorem Linked.next_right : (nodes candidate.right).next = ys.head? :=
  hlinked.next (xs ++ [candidate.left]) candidate.right ys (by simp)

/-- Dropping the right node keeps the rest linked. -/
theorem Linked.merge : Linked count (mergeNodes nodes candidate) (xs ++ candidate.left :: ys) := by
  have hne := hlinked.ne
  have hmem : ∀ i, i ∈ xs ++ candidate.left :: ys → i ∈ xs ++ candidate.left :: candidate.right :: ys := by
    intro i hi
    simp only [mem_append, mem_cons] at hi ⊢
    tauto
  have hsorted : (xs ++ candidate.left :: ys).Pairwise (· < ·) := by
    refine hlinked.sorted.sublist ?_
    exact Sublist.append_left (Sublist.cons_cons _ (sublist_cons_self _ _)) _
  refine ⟨hsorted, ?_, ?_, ?_, ?_, fun i hi => hlinked.within i (hmem i hi), ?_⟩
  · intro xs' i ys' hsplit
    rw [mergeNodes_next]
    rcases append_eq_append_iff.mp hsplit with ⟨t, rfl, ht⟩ | ⟨t, rfl, ht⟩
    · cases t with
      | nil =>
        obtain ⟨rfl, rfl⟩ := List.cons.inj ht
        rw [if_pos rfl, hlinked.next_right]
      | cons x t =>
        obtain ⟨rfl, rfl⟩ := List.cons.inj ht
        rw [if_neg (hlinked.apart (.inr (by simp))).1]
        exact hlinked.next (xs ++ candidate.left :: candidate.right :: t) i ys' (by simp)
    cases t with
    | nil =>
      obtain ⟨rfl, rfl⟩ := List.cons.inj ht
      rw [if_pos rfl, hlinked.next_right]
    | cons x t =>
      obtain ⟨rfl, rfl⟩ := List.cons.inj ht
      rw [if_neg (hlinked.apart (.inl (by simp))).1, hlinked.next xs' i (t ++ candidate.left :: candidate.right :: ys)
        (by simp)]
      cases t <;> rfl
  · intro xs' i ys' hsplit
    have hfirst : ys.head? ≠ some candidate.left := fun h =>
      (hlinked.apart (.inr (mem_of_mem_head? h))).1 rfl
    rw [mergeNodes_previous, hlinked.next_right]
    rcases append_eq_append_iff.mp hsplit with ⟨t, rfl, ht⟩ | ⟨t, rfl, ht⟩
    · cases t with
      | nil =>
        obtain ⟨rfl, rfl⟩ := List.cons.inj ht
        rw [if_neg hfirst, append_nil]
        exact hlinked.previous xs _ _ rfl
      | cons x t =>
        obtain ⟨rfl, rfl⟩ := List.cons.inj ht
        cases t with
        | nil => simp
        | cons y t =>
          -- the chain has no member twice
          have hnodup : y ≠ i := by
            have := (pairwise_append.mp hlinked.sorted).2.1
            have := (pairwise_cons.mp (pairwise_cons.mp this).2).2
            exact Nat.ne_of_lt (rel_of_pairwise_cons this (by simp))
          rw [if_neg (by simpa using hnodup),
            hlinked.previous (xs ++ candidate.left :: candidate.right :: y :: t) i ys' (by simp)]
          simp
    cases t with
    | nil =>
      obtain ⟨rfl, rfl⟩ := List.cons.inj ht
      rw [if_neg hfirst]
      exact hlinked.previous xs' candidate.left (candidate.right :: ys') (by simp)
    | cons x t =>
      obtain ⟨rfl, rfl⟩ := List.cons.inj ht
      have hnot : ys.head? ≠ some i := by
        intro h
        have := (pairwise_append.mp hlinked.sorted).2.2 i (by simp) i
          (mem_cons_of_mem _ (mem_cons_of_mem _ (mem_of_mem_head? h)))
        omega
      rw [if_neg hnot]
      exact hlinked.previous xs' i (t ++ candidate.left :: candidate.right :: ys) (by simp)
  · intro i hi
    rw [mergeNodes_live, if_neg]
    · exact hlinked.live i (hmem i hi)
    simp only [mem_append, mem_cons] at hi
    rcases hi with hi | rfl | hi
    · exact (hlinked.apart (.inl hi)).2
    · exact hne
    · exact (hlinked.apart (.inr hi)).2
  · intro i hi hlive
    rw [mergeNodes_live] at hlive
    split at hlive
    · cases hlive
    next hright =>
    have := hlinked.alive i hi hlive
    simp only [mem_append, mem_cons] at this ⊢
    tauto
  · have := hlinked.head
    cases xs <;> simpa using this

theorem Linked.pieces_merge :
    (xs ++ candidate.left :: ys).map (pieceOf (mergeNodes nodes candidate)) =
      xs.map (pieceOf nodes) ++ ⟨candidate.result, (nodes candidate.right).finish⟩ :: ys.map (pieceOf nodes) := by
  have hne := hlinked.ne
  have hkept : ∀ i, i ≠ candidate.left → pieceOf (mergeNodes nodes candidate) i = pieceOf nodes i := by
    intro i hi
    rw [pieceOf, mergeNodes_symbol hne, mergeNodes_finish hne, if_neg hi, if_neg hi, pieceOf]
  rw [map_append, map_cons]
  congr 1
  · exact map_congr_left fun i hi => hkept i (hlinked.apart (.inl hi)).1
  · congr 1
    · rw [pieceOf, mergeNodes_symbol hne, mergeNodes_finish hne, if_pos rfl, if_pos rfl]
    · exact map_congr_left fun i hi => hkept i (hlinked.apart (.inr hi)).1

end Merge

/-! ## The queue -/

theorem mem_pop (heap : BpeQueue) (c : BpeCandidate) :
    c ∈ head :: tail ↔ c = (heap.pop head tail).1 ∨ c ∈ (heap.pop head tail).2 := by
  rw [← (heap.perm head tail).mem_iff, mem_cons]

theorem length_pop (heap : BpeQueue) (head : BpeCandidate) (tail : List BpeCandidate) :
    (heap.pop head tail).2.length = tail.length := by
  have := (heap.perm head tail).length_eq
  simpa using this

theorem Queued.drop (hlinked : Linked count nodes chain) (hqueued : Queued rules count nodes chain (head :: tail))
    (hstale : stale nodes (heap.pop head tail).1 = true) :
    Queued rules count nodes chain (heap.pop head tail).2 where
  within c hc := hqueued.within c ((mem_pop heap c).mpr (.inr hc))
  old c hc := hqueued.old c ((mem_pop heap c).mpr (.inr hc))
  sound c hc := hqueued.sound c ((mem_pop heap c).mpr (.inr hc))
  complete xs a b ys rule hsplit hrule := by
    rcases (mem_pop heap _).mp (hqueued.complete xs a b ys rule hsplit hrule) with heq | hmem
    · subst hsplit
      rw [← heq, hlinked.current_fresh] at hstale
      cases hstale
    · exact hmem

theorem mem_pushNeighbours {c : BpeCandidate} {left : Nat} (h : c ∈ pushNeighbours rules nodes left queue) :
    c ∈ queue ∨ ∃ l r rule, ((nodes left).previous = some l ∨ l = left) ∧ (nodes l).next = some r ∧
      rules (nodes l).symbol (nodes r).symbol = some rule ∧ c = current nodes rule l r := by
  rcases mem_pushCandidate h with h | ⟨l, r, rule, hl, hnext, hrule, rfl⟩
  · rcases mem_pushCandidate h with h | ⟨l, r, rule, hl, hnext, hrule, rfl⟩
    · exact .inl h
    · exact .inr ⟨l, r, rule, .inl hl, hnext, hrule, rfl⟩
  · exact .inr ⟨l, r, rule, .inr (some.inj hl).symm, hnext, hrule, rfl⟩

/-- After a merge the queue knows the pairs beside the merged node, and still the others. -/
theorem Queued.merge {rest : List BpeCandidate}
    (hlinked : Linked count nodes (xs ++ candidate.left :: candidate.right :: ys))
    (hqueued : Queued rules count nodes (xs ++ candidate.left :: candidate.right :: ys) queue)
    (hpop : ∀ c, c ∈ queue ↔ c = candidate ∨ c ∈ rest) :
    Queued rules count (mergeNodes nodes candidate) (xs ++ candidate.left :: ys)
      (pushNeighbours rules (mergeNodes nodes candidate) candidate.left rest) := by
  have hne := hlinked.ne
  have hlinked' := hlinked.merge
  have hrest : ∀ c, c ∈ rest → c ∈ queue := fun c hc => (hpop c).mpr (.inr hc)
  have hgrows : ∀ i, (nodes i).generation ≤ (mergeNodes nodes candidate i).generation := by
    intro i
    rw [mergeNodes_generation hne]
    split <;> omega
  -- a candidate that is current after the merge has nothing to do with the merged nodes
  have hapart : ∀ i g, g ≤ (nodes i).generation → (mergeNodes nodes candidate i).generation = g →
      i ≠ candidate.left ∧ i ≠ candidate.right ∧ (nodes i).generation = g := by
    intro i g hg heq
    rw [mergeNodes_generation hne] at heq
    split at heq
    · omega
    · next hi => exact ⟨fun h => hi (.inl h), fun h => hi (.inr h), heq⟩
  have hnew : ∀ l r, ((mergeNodes nodes candidate candidate.left).previous = some l ∨ l = candidate.left) →
      (mergeNodes nodes candidate l).next = some r → l < count ∧ r < count := by
    intro l r hl hnext
    have hmem : l ∈ xs ++ candidate.left :: ys := by
      rcases hl with hl | rfl
      · rw [hlinked'.previous xs _ ys rfl] at hl
        exact mem_append_left _ (mem_of_getLast? hl)
      · simp
    exact ⟨hlinked'.within l hmem, hlinked'.within r (hlinked'.next_mem hmem hnext)⟩
  refine ⟨fun c hc => ?_, fun c hc => ?_, fun c hc hlg hrg => ?_, fun xs' p q ys' rule hsplit hrule => ?_⟩
  · rcases mem_pushNeighbours hc with hc | ⟨l, r, rule, hl, hnext, -, rfl⟩
    · exact hqueued.within c (hrest c hc)
    · exact hnew l r hl hnext
  · rcases mem_pushNeighbours hc with hc | ⟨l, r, rule, -, -, -, rfl⟩
    · have := hqueued.old c (hrest c hc)
      exact ⟨Nat.le_trans this.1 (hgrows _), Nat.le_trans this.2 (hgrows _)⟩
    · exact ⟨le_rfl, le_rfl⟩
  · rcases mem_pushNeighbours hc with hc | ⟨l, r, rule, -, -, hrule, rfl⟩
    · have hold := hqueued.old c (hrest c hc)
      obtain ⟨hl, -, hlg⟩ := hapart _ _ hold.1 hlg
      obtain ⟨hr, -, hrg⟩ := hapart _ _ hold.2 hrg
      rw [mergeNodes_symbol hne, mergeNodes_symbol hne, if_neg hl, if_neg hr]
      exact hqueued.sound c (hrest c hc) hlg hrg
    · exact hrule
  · have hp := hlinked'.next xs' p _ hsplit
    have hq := hlinked'.previous (xs' ++ [p]) q ys' (by rw [hsplit]; simp)
    have hlive := hlinked'.live p (by rw [hsplit]; simp)
    by_cases hpa : p = candidate.left
    · subst hpa
      exact current_mem_pushCandidate hlive hp hrule
    by_cases hqa : q = candidate.left
    · subst hqa
      rw [getLast?_concat] at hq
      refine pushCandidate_subset _ ?_
      rw [hq]
      exact current_mem_pushCandidate hlive hp hrule
    -- the pair is as it was, and so is its candidate
    obtain ⟨us, vs, hold⟩ := adjacent_of_removed (b := candidate.right) hsplit hpa hqa
    have hmem : ∀ i, i ∈ xs' ++ p :: q :: ys' → i ≠ candidate.left → i ∈ xs ∨ i ∈ ys := by
      intro i hi hia
      rw [← hsplit, mem_append, mem_cons] at hi
      tauto
    have hpb := (hlinked.apart (hmem p (by simp) hpa)).2
    have hqb := (hlinked.apart (hmem q (by simp) hqa)).2
    rw [mergeNodes_symbol hne, mergeNodes_symbol hne, if_neg hpa, if_neg hqa] at hrule
    have hcurrent : current (mergeNodes nodes candidate) rule p q = current nodes rule p q := by
      simp only [current, mergeNodes_generation hne, if_neg (not_or.mpr ⟨hpa, hpb⟩), if_neg (not_or.mpr ⟨hqa, hqb⟩)]
    rw [hcurrent]
    refine pushCandidate_subset _ (pushCandidate_subset _ ?_)
    rcases (hpop _).mp (hqueued.complete us p q vs rule hold hrule) with heq | hin
    · exact absurd (congrArg BpeCandidate.left heq) hpa
    · exact hin

/-! ## The loop -/

theorem step_of_first (hlinked : Linked count nodes (xs ++ candidate.left :: candidate.right :: ys))
    (hqueued : Queued rules count nodes (xs ++ candidate.left :: candidate.right :: ys) queue)
    (hrule : rules (nodes candidate.left).symbol (nodes candidate.right).symbol =
      some ⟨candidate.rank, candidate.result⟩)
    (hfirst : ∀ other ∈ queue, laterBpeCandidate candidate other = false) :
    step (pieceRule rules) ((xs ++ candidate.left :: candidate.right :: ys).map (pieceOf nodes)) =
      some ((xs ++ candidate.left :: ys).map (pieceOf (mergeNodes nodes candidate))) := by
  rw [hlinked.pieces_merge, map_append, map_cons, map_cons]
  refine step_eq_some (show pieceRule rules _ _ = some (candidate.rank, _) from ?_) ?_
  · simp only [pieceRule, pieceOf, hrule, map_some]
  intro us p q vs rank' merged' hsplit hmerge
  -- the pair of pieces is a pair of nodes, whose candidate is in the queue
  have hmap : (xs ++ candidate.left :: candidate.right :: ys).map (pieceOf nodes) = us ++ p :: q :: vs := by
    rw [← hsplit, map_append, map_cons, map_cons]
  obtain ⟨us', rest, hsplit', rfl, hrest⟩ := map_eq_append_iff.mp hmap
  obtain ⟨p', rest', rfl, rfl, hrest'⟩ := map_eq_cons_iff.mp hrest
  obtain ⟨q', vs', rfl, rfl, rfl⟩ := map_eq_cons_iff.mp hrest'
  obtain ⟨rule, hrule', hpair⟩ := map_eq_some_iff.mp hmerge
  have hlater := hfirst _ (hqueued.complete us' p' q' vs' rule hsplit' hrule')
  cases hpair
  unfold laterBpeCandidate at hlater
  split at hlater
  · next hne =>
    have := of_decide_eq_false hlater
    exact .inl (by simp only [current] at this hne; omega)
  next heq =>
  have hle : candidate.left ≤ p' := Nat.not_lt.mp (of_decide_eq_false hlater)
  refine .inr ⟨by simpa [current] using heq, ?_⟩
  rw [length_map, length_map]
  exact hlinked.place_le hsplit' hle

/-- The loop ends within its rounds and leaves the pieces of plain byte-pair encoding. -/
theorem mergeLoop_spec (hlinked : Linked count nodes chain)
    (hqueued : Queued rules count nodes chain queue) (hfuel : queue.length + 2 * chain.length ≤ fuel) :
    ∃ nodes' chain', mergeLoop heap rules fuel nodes queue = some nodes' ∧ Linked count nodes' chain' ∧
      chain'.length ≤ chain.length ∧
      chain'.map (pieceOf nodes') = plainBpe (pieceRule rules) (chain.map (pieceOf nodes)) := by
  induction fuel generalizing nodes chain queue with
  | zero =>
    have hempty : queue = [] := eq_nil_of_length_eq_zero (by omega)
    have hchain : chain = [] := eq_nil_of_length_eq_zero (by omega)
    subst hempty hchain
    refine ⟨nodes, [], rfl, hlinked, le_rfl, (plainBpe_done (step_eq_none ?_)).symm⟩
    intro us p q vs hsplit
    simp at hsplit
  | succ fuel ih =>
    cases queue with
    | nil =>
      refine ⟨nodes, chain, rfl, hlinked, le_rfl, (plainBpe_done (step_eq_none ?_)).symm⟩
      -- a pair with a rule would have its candidate in the queue
      intro us p q vs hsplit
      obtain ⟨us', rest, hsplit', -, hrest⟩ := map_eq_append_iff.mp hsplit
      obtain ⟨p', rest', rfl, rfl, hrest'⟩ := map_eq_cons_iff.mp hrest
      obtain ⟨q', vs', rfl, rfl, -⟩ := map_eq_cons_iff.mp hrest'
      cases hrule : rules (nodes p').symbol (nodes q').symbol with
      | none => simp [pieceRule, pieceOf, hrule]
      | some rule => cases hqueued.complete us' p' q' vs' rule hsplit' hrule
    | cons head tail =>
      rw [mergeLoop]
      rcases hpop : heap.pop head tail with ⟨candidate, rest⟩
      have hmem : ∀ c, c ∈ head :: tail ↔ c = candidate ∨ c ∈ rest := fun c => by
        rw [mem_pop heap, hpop]
      have hlen : rest.length = tail.length := by rw [← length_pop heap head tail, hpop]
      rw [length_cons] at hfuel
      by_cases hstale : stale nodes candidate = true
      · simp only [if_pos hstale]
        have hstale' : stale nodes (heap.pop head tail).1 = true := by rw [hpop]; exact hstale
        have := hqueued.drop hlinked hstale'
        rw [hpop] at this
        exact ih hlinked this (by omega)
      simp only [if_neg hstale]
      have hin : candidate ∈ head :: tail := (hmem candidate).mpr (.inl rfl)
      obtain ⟨⟨xs, ys, rfl⟩, hlg, hrg⟩ := hlinked.split_of_fresh (hqueued.within _ hin).1 (by simpa using hstale)
      have hrule := hqueued.sound candidate hin hlg hrg
      have hstep := step_of_first hlinked hqueued hrule fun other hother => by
        have := heap.first head tail other hother
        rwa [hpop] at this
      have hpushed : (pushNeighbours rules (mergeNodes nodes candidate) candidate.left rest).length ≤
          rest.length + 2 := by
        exact Nat.le_trans (length_pushCandidate _) (Nat.succ_le_succ (length_pushCandidate _))
      simp only [length_append, length_cons] at hfuel
      obtain ⟨nodes', chain', hloop, hlinked', hle, hpieces⟩ :=
        ih hlinked.merge (hqueued.merge hlinked hmem) (by simp only [length_append, length_cons]; omega)
      refine ⟨nodes', chain', hloop, hlinked', ?_, hpieces.trans (plainBpe_step hstep).symm⟩
      simp only [length_append, length_cons] at hle ⊢
      omega

/-! ## A word -/

variable {symbols : List Int}

theorem range_split {n : Nat} (h : List.range n = xs ++ a :: ys) :
    a = xs.length ∧ a < n ∧ ys.head? = (if a + 1 = n then none else some (a + 1)) ∧
      xs.getLast? = (if a = 0 then none else some (a - 1)) := by
  have hlen : n = xs.length + (ys.length + 1) := by
    have := congrArg List.length h
    simpa using this
  have hplace : ∀ i : Nat, (List.range n)[i]? = (xs ++ a :: ys)[i]? := fun i => by rw [h]
  have ha : a = xs.length := by
    have := hplace xs.length
    rw [getElem?_range (by omega), getElem?_append_right le_rfl] at this
    simpa using this.symm
  refine ⟨ha, by omega, ?_, ?_⟩
  · have := hplace (xs.length + 1)
    rw [getElem?_append_right (by omega), Nat.add_sub_cancel_left, getElem?_cons_succ, ← head?_eq_getElem?] at this
    rw [← this]
    split
    · rw [getElem?_eq_none (by simp; omega)]
    · rw [getElem?_range (by omega), ha]
  · rw [getLast?_eq_getElem?]
    split
    · next h0 => rw [getElem?_eq_none (by omega)]
    have := hplace (xs.length - 1)
    rw [getElem?_append_left (by omega), getElem?_range (by omega)] at this
    rw [← this, ha]

theorem linked_start : Linked symbols.length (startNodes symbols) (List.range symbols.length) where
  sorted := pairwise_lt_range
  next xs a ys h := (range_split h).2.2.1.symm
  previous xs a ys h := (range_split h).2.2.2.symm
  live a _ := rfl
  alive a ha _ := mem_range.mpr ha
  within a ha := mem_range.mp ha
  head := by
    cases symbols with
    | nil => rfl
    | cons symbol rest => simp [range_succ_eq_map]

theorem startQueue_spec (rules : MergeRules) (nodes : BpeNodes) (indices : List Nat) :
    let queue := indices.foldl (fun queue index => pushCandidate rules nodes queue (some index)) []
    (∀ c ∈ queue, ∃ l r rule, l ∈ indices ∧ (nodes l).next = some r ∧
      rules (nodes l).symbol (nodes r).symbol = some rule ∧ c = current nodes rule l r) ∧
    (∀ l ∈ indices, ∀ r rule, (nodes l).live = true → (nodes l).next = some r →
      rules (nodes l).symbol (nodes r).symbol = some rule → current nodes rule l r ∈ queue) ∧
    queue.length ≤ indices.length := by
  induction indices using List.reverseRecOn with
  | nil => simp
  | append_singleton indices index ih =>
    obtain ⟨hnew, hall, hlen⟩ := ih
    simp only [foldl_append, foldl_cons, foldl_nil]
    refine ⟨fun c hc => ?_, fun l hl r rule hlive hnext hrule => ?_, ?_⟩
    · rcases mem_pushCandidate hc with hc | ⟨l, r, rule, hl, hnext, hrule, rfl⟩
      · obtain ⟨l, r, rule, hl, h⟩ := hnew c hc
        exact ⟨l, r, rule, mem_append_left _ hl, h⟩
      · exact ⟨l, r, rule, by simp [some.inj hl], hnext, hrule, rfl⟩
    · rcases mem_append.mp hl with hl | hl
      · exact pushCandidate_subset _ (hall l hl r rule hlive hnext hrule)
      · rw [mem_singleton.mp hl] at hlive hnext hrule ⊢
        exact current_mem_pushCandidate hlive hnext hrule
    · have hpush : ∀ queue, (pushCandidate rules nodes queue (some index)).length ≤ queue.length + 1 :=
        fun queue => length_pushCandidate _
      have := hpush (indices.foldl (fun queue index => pushCandidate rules nodes queue (some index)) [])
      simp only [length_append, length_singleton]
      omega

theorem queued_start (rules : MergeRules) (symbols : List Int) :
    Queued rules symbols.length (startNodes symbols) (List.range symbols.length)
        (startQueue rules (startNodes symbols) symbols.length) ∧
      (startQueue rules (startNodes symbols) symbols.length).length ≤ symbols.length := by
  obtain ⟨hnew, hall, hlen⟩ := startQueue_spec rules _ _
  rw [length_range] at hlen
  refine ⟨⟨fun c hc => ?_, fun c hc => ?_, fun c hc _ _ => ?_, fun xs a b ys rule hsplit hrule => ?_⟩,
    Nat.le_trans hlen (Nat.sub_le _ _)⟩
  · obtain ⟨l, r, rule, hl, hnext, -, rfl⟩ := hnew c hc
    have := mem_range.mp hl
    simp only [startNodes] at hnext
    split at hnext
    · cases hnext
    cases hnext
    simp only [current]
    omega
  · obtain ⟨l, r, rule, -, -, -, rfl⟩ := hnew c hc
    exact ⟨le_rfl, le_rfl⟩
  · obtain ⟨l, r, rule, -, -, hrule, rfl⟩ := hnew c hc
    exact hrule
  · obtain ⟨-, ha, hnext, -⟩ := range_split hsplit
    have hnext' : (startNodes symbols a).next = some b := hnext.symm
    have hlt : a + 1 ≠ symbols.length := fun h => by
      rw [if_pos h] at hnext
      cases hnext
    exact hall a (mem_range.mpr (by omega)) b rule rfl hnext' hrule

theorem emit_eq (hlinked : Linked count nodes chain) (hsplit : chain = xs ++ ys)
    (hfuel : ys.length ≤ fuel) : emit nodes fuel ys.head? = ys.map (pieceOf nodes) := by
  induction ys generalizing xs fuel with
  | nil => cases fuel <;> rfl
  | cons a ys ih =>
    cases fuel with
    | zero => simp at hfuel
    | succ fuel =>
      have hnext := hlinked.next xs a ys hsplit
      rw [head?_cons, emit, hnext, ih (show chain = (xs ++ [a]) ++ ys by rw [hsplit]; simp) (Nat.le_of_succ_le_succ hfuel)]
      rfl

theorem length_byteSymbols {byteTokenIds : UInt8 → Int} {word : List UInt8}
    (h : byteSymbols byteTokenIds word = .ok symbols) : symbols.length = word.length := by
  unfold byteSymbols at h
  induction word generalizing symbols with
  | nil =>
    cases h
    rfl
  | cons byte word ih =>
    rw [mapM_cons] at h
    obtain ⟨symbol, -, h⟩ := bind_ok h
    obtain ⟨rest, hrest, h⟩ := bind_ok h
    cases h
    rw [length_cons, length_cons, ih hrest]

theorem pieces_start : (List.range symbols.length).map (pieceOf (startNodes symbols)) = bytePieces symbols := by
  unfold bytePieces
  refine ext_getElem (by simp) fun i h1 h2 => ?_
  have hi : i < symbols.length := by simpa using h1
  simp [pieceOf, startNodes, hi]

theorem mergeWord_eq (heap : BpeQueue) (rules : MergeRules) (symbols : List Int) (hfuel : 3 * symbols.length ≤ fuel) :
    mergeWord heap rules symbols fuel = some (plainBpe (pieceRule rules) (bytePieces symbols)) := by
  obtain ⟨hqueued, hlen⟩ := queued_start rules symbols
  have hrounds : (startQueue rules (startNodes symbols) symbols.length).length +
      2 * (List.range symbols.length).length ≤ fuel := by
    rw [length_range]
    omega
  obtain ⟨nodes', chain', hloop, hlinked', hle, hpieces⟩ := mergeLoop_spec linked_start hqueued hrounds
  rw [length_range] at hle
  have hemit := emit_eq hlinked' (nil_append chain').symm hle
  rw [hlinked'.head] at hemit
  unfold mergeWord
  simp only
  rw [hloop, map_some, ← pieces_start, ← hpieces, ← hemit]
  cases symbols <;> rfl

/-- The heap-based loop is plain byte-pair encoding, for every merge table, every word and every order among equal
    candidates; three rounds a byte empty its queue. A byte without a symbol throws before the loop. -/
theorem encodeWord_eq_plainBpe (heap : BpeQueue) (rules : MergeRules) (byteTokenIds : UInt8 → Int)
    (word : List UInt8) (extra : Nat) :
    encodeWord heap rules byteTokenIds word (3 * word.length + extra) = (do
      let symbols ← byteSymbols byteTokenIds word
      .ok (some (plainBpe (pieceRule rules) (bytePieces symbols)))) := by
  unfold encodeWord
  cases hsymbols : byteSymbols byteTokenIds word with
  | error e => rfl
  | ok symbols =>
    have hlen : symbols.length = word.length := length_byteSymbols hsymbols
    exact congrArg Except.ok (mergeWord_eq heap rules symbols (by omega))

/-- Symbol 2 for the pair of 0 and 1, and symbol 3 for two of them. -/
def abRules : MergeRules := fun left right =>
  if left = 2 ∧ right = 2 then some ⟨1, 3⟩ else if left = 0 ∧ right = 1 then some ⟨0, 2⟩ else none

/-- Both merges are made, and the last byte keeps its symbol. -/
theorem encodeWord_eq_plainBpe_ababa :
    encodeWord .ofList abRules (fun byte => byte.toNat - 97) [97, 98, 97, 98, 97] 15 =
      .ok (some [⟨3, 4⟩, ⟨0, 5⟩]) ∧
    plainBpe (pieceRule abRules) (bytePieces [0, 1, 0, 1, 0]) = [⟨3, 4⟩, ⟨0, 5⟩] := by
  have hplain := encodeWord_eq_plainBpe .ofList abRules (fun byte => byte.toNat - 97) [97, 98, 97, 98, 97] 0
  have hrun : encodeWord .ofList abRules (fun byte => byte.toNat - 97) [97, 98, 97, 98, 97] 15 =
    .ok (some [⟨3, 4⟩, ⟨0, 5⟩]) := rfl
  exact ⟨hrun, (some.inj (Except.ok.inj (hrun.symm.trans hplain))).symm⟩

end VoidInfer.Frontend
