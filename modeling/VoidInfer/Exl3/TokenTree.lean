import VoidInfer.Exl3.TokenHistory
import VoidInfer.Lib.Segments

/-
  What the nodes stand for. `Rep nodes level id ts`: the subtree at `id` holds exactly the tokens `ts`, in the one shape
  a subtree of that level and length can have. Pages are full but the last, edges beyond the end are null; so two
  subtrees of one level hold the same tokens iff `same_nodes` finds them equal, however they were batched
  (`sameNodes_iff`).

  Appending keeps the store and only adds to it, and gives a tree of the longer list (`wp_appendPages`, `wp_promote`).
-/

namespace VoidInfer.Exl3
open List Option Exl3TokenHistory

open Throwing Segments

theorem nodeRows_zero : nodeRows 0 = 64 := rfl

theorem nodeRows_succ (level : Nat) : nodeRows (level + 1) = 32 * nodeRows level := by
  simp only [nodeRows, Nat.shiftLeft_eq]
  rw [Nat.mul_succ, Nat.pow_add]
  omega

theorem nodeRows_pos (level : Nat) : 0 < nodeRows level := by
  simp only [nodeRows, Nat.shiftLeft_eq]
  exact Nat.mul_pos (by decide) (Nat.two_pow_pos _)

/-- The subtree at `id` holds exactly `ts`. -/
def Rep (nodes : List Node) : Nat → Nat → List Int → Prop
  | 0, id, ts => 0 < ts.length ∧ ts.length ≤ 64 ∧ ∃ tokens,
      nodes[id]? = some (.page ts.length tokens) ∧ tokens.length = 64 ∧ tokens.take ts.length = ts
  | level + 1, id, ts => 0 < ts.length ∧ ts.length ≤ nodeRows (level + 1) ∧ ∃ edges,
      nodes[id]? = some (.edges edges) ∧ edges.length = 32 ∧ ∀ slot, slot < 32 →
        match edges.getD slot none with
        | none => seg (slot * nodeRows level) (nodeRows level) ts = []
        | some child => Rep nodes level child (seg (slot * nodeRows level) (nodeRows level) ts)

/-- The same of an edge; a null edge holds nothing. -/
def RepEdge (nodes : List Node) (level : Nat) (edge : Option Nat) (ts : List Int) : Prop :=
  match edge with
  | none => ts = []
  | some id => Rep nodes level id ts

/-- The edges of a node that stands for the tokens of `all` from `base` on. -/
def RepEdges (nodes : List Node) (level : Nat) (edges : List (Option Nat)) (base : Nat)
    (all : Nat → List Int) : Prop :=
  edges.length = 32 ∧ ∀ slot, slot < 32 →
    RepEdge nodes level (edges.getD slot none) (seg (base + slot * nodeRows level) (nodeRows level) (all slot))

variable {nodes nodes' : List Node} {id level start a b : Nat} {ts page ts' : List Int}
  {edge : Option Nat} {s s₁ s₂ : NodeStore}

theorem rep_succ :
    Rep nodes (level + 1) id ts ↔ 0 < ts.length ∧ ts.length ≤ nodeRows (level + 1) ∧ ∃ edges,
      nodes[id]? = some (.edges edges) ∧ RepEdges nodes level edges 0 fun _ => ts := by
  simp only [RepEdges, Nat.zero_add]
  exact Iff.rfl

theorem Rep.pos (h : Rep nodes level id ts) : 0 < ts.length := by
  cases level <;> exact h.1

theorem Rep.le (h : Rep nodes level id ts) : ts.length ≤ nodeRows level := by
  cases level <;> exact h.2.1

theorem RepEdge.le (h : RepEdge nodes level edge ts) : ts.length ≤ nodeRows level := by
  cases edge with
  | none =>
    rw [show ts = [] from h]
    exact Nat.zero_le _
  | some id => exact Rep.le h

theorem Rep.mono (hn : nodes <+: nodes') (h : Rep nodes level id ts) : Rep nodes' level id ts := by
  have hget : ∀ {i : Nat} {v : Node}, nodes[i]? = some v → nodes'[i]? = some v := by
    intro i v hv
    obtain ⟨rest, rfl⟩ := hn
    rw [getElem?_append_left (lt_of_getElem? hv)]
    exact hv
  induction level generalizing id ts with
  | zero =>
    obtain ⟨h1, h2, tokens, h3, h4, h5⟩ := h
    exact ⟨h1, h2, tokens, hget h3, h4, h5⟩
  | succ level ih =>
    obtain ⟨h1, h2, edges, h3, h4, h5⟩ := rep_succ.mp h
    refine rep_succ.mpr ⟨h1, h2, edges, hget h3, h4, fun slot hslot => ?_⟩
    have hs := h5 slot hslot
    cases hedge : edges.getD slot none with
    | none =>
      rw [hedge] at hs
      exact hs
    | some child =>
      rw [hedge] at hs
      exact ih hs

theorem RepEdge.mono (hn : nodes <+: nodes') (h : RepEdge nodes level edge ts) : RepEdge nodes' level edge ts := by
  cases edge with
  | none => exact h
  | some id => exact Rep.mono hn h

/-! ## Making nodes -/

/-- No construction to come will fail. -/
def NodeStore.Quiet (s : NodeStore) : Prop :=
  s.allocationFaultCountdown = 0 ∧ ∀ r ∈ s.refusals, r = none

/-- What making nodes does to the store when it returns. -/
structure Grew (s s' : NodeStore) : Prop where
  nodes : s.nodes <+: s'.nodes
  quiet : s.Quiet → s'.Quiet

/-- And when it throws, which takes a construction that failed. -/
structure Failed (s s' : NodeStore) : Prop where
  nodes : s.nodes <+: s'.nodes
  noisy : ¬ s.Quiet

theorem Grew.refl (s : NodeStore) : Grew s s := ⟨prefix_rfl, id⟩

theorem Grew.trans (h : Grew s s₁) (h' : Grew s₁ s₂) : Grew s s₂ :=
  ⟨h.nodes.trans h'.nodes, fun hq => h'.quiet (h.quiet hq)⟩

theorem Grew.failed (h : Grew s s₁) (h' : Failed s₁ s₂) : Failed s s₂ :=
  ⟨h.nodes.trans h'.nodes, fun hq => h'.noisy (h.quiet hq)⟩

theorem wp_makeNode (value : Node) (s : NodeStore) :
    wp (makeNode value) (fun id s' => Grew s s' ∧ s'.nodes[id]? = some value) (fun _ => Failed s) s := by
  simp only [makeNode, wp_bind, wp_get, wp_modify]
  split
  · next hc => exact ⟨prefix_rfl, fun hq => absurd hq.1 (by omega)⟩
  split
  · next e he =>
    refine ⟨prefix_rfl, fun hq => ?_⟩
    cases hr : s.refusals with
    | nil => simp [hr] at he
    | cons r rest =>
      have hnone := hq.2 r (by simp [hr])
      simp [hr, hnone] at he
  refine ⟨⟨prefix_append _ _, fun hq => ⟨?_, fun r hr => ?_⟩⟩, by simp⟩
  · rw [hq.1]
  · exact hq.2 r (mem_of_mem_tail hr)

theorem copyInto_take (h : start ≤ page.length) (part : List Int) :
    (copyInto page part start).take (start + part.length) = page.take start ++ part := by
  have hlen : start + part.length = (page.take start ++ part).length := by
    simp [Nat.min_eq_left h]
  unfold copyInto
  rw [hlen, take_left]

theorem copyInto_length {part : List Int}
    (h : start + part.length ≤ page.length) : (copyInto page part start).length = page.length := by
  simp only [copyInto, length_append, length_take, length_drop]
  omega

section Append

variable {all : List Int} {first : Nat}

variable {s : NodeStore} {base level : Nat} {edges : List (Option Nat)} {root : Option Nat}

/-- At level 0: the page with its new entries. -/
theorem wp_appendPage {node : Option Nat} {b : Bool}
    (hfirst : first < all.length) (hb : base < all.length) (hf : first < base + 64)
    (hnode : RepEdge s.nodes 0 node (seg base 64 (all.take first))) :
    wp (appendPages first all.length (all.drop first) 0 node base b)
      (fun id s' => Grew s s' ∧ Rep s'.nodes 0 id (seg base 64 all))
      (fun _ => Failed s) s := by
  simp only [appendPages, wp_bind, wp_get, nodeRows_zero]
  generalize hstart : max base first = start
  generalize hlimit : min (base + 64) all.length = limit
  -- the page before: its first entries are the tokens it held
  have hpage : ∃ page, pageOf s.nodes node = .ok page ∧ page.length = 64 ∧
      page.take (start - base) = seg base 64 (all.take first) := by
    have hlen := length_seg base 64 (all.take first)
    rw [length_take] at hlen
    cases node with
    | none =>
      have hnil : seg base 64 (all.take first) = [] := hnode
      rw [hnil] at hlen ⊢
      simp only [length_nil] at hlen
      have hzero : start - base = 0 := by omega
      rw [hzero]
      exact ⟨emptyPage, rfl, rfl, rfl⟩
    | some id =>
      obtain ⟨h1, h2, tokens, h3, h4, h5⟩ := hnode
      have hrows : start - base = (seg base 64 (all.take first)).length := by omega
      rw [hrows]
      exact ⟨tokens, by simp [pageOf, h3], h4, h5⟩
  obtain ⟨page, hpage, hlen, htake⟩ := hpage
  generalize hpart : ((all.drop first).drop (start - first)).take (limit - start) = part
  have hpartLen : part.length = limit - start := by
    rw [← hpart]
    simp only [length_take, length_drop]
    omega
  -- the old entries and the new ones are the segment
  have hseg : page.take (start - base) ++ part = seg base 64 all := by
    rw [htake, ← hpart]
    refine ext_getElem? fun i => ?_
    rw [getElem?_append, length_seg, length_take]
    simp only [getElem?_seg, getElem?_take, getElem?_drop]
    split
    · rw [if_pos (by omega), if_pos (by omega), if_pos (by omega)]
    split
    · rw [if_pos (by omega)]
      congr 1
      omega
    split
    · exact (getElem?_eq_none (by omega)).symm
    · rfl
  refine wp_ofExcept.mpr ⟨fun page' hp => ?_, fun e he => ?_⟩
  · obtain rfl : page = page' := Except.ok.inj (hpage.symm.trans hp)
    refine wp_imp (wp_makeNode _ s) fun id s' ⟨h1, h2⟩ => ⟨h1, ?_⟩
    have hrows := length_seg base 64 all
    have hsum : (seg base 64 all).length = start - base + part.length := by omega
    refine ⟨by omega, by omega, copyInto page part (start - base), ?_, ?_, ?_⟩
    · rw [h2]
      congr 2
      omega
    · rw [copyInto_length (by omega), hlen]
    · rw [hsum, copyInto_take (by omega), hseg]
  · cases hpage.symm.trans he

/-- What a call of `append_pages` promises at one level. -/
def Appends (all : List Int) (first level : Nat) : Prop :=
  ∀ (s : NodeStore) (node : Option Nat) (base : Nat), base < all.length →
    first < base + nodeRows level →
    RepEdge s.nodes level node (seg base (nodeRows level) (all.take first)) →
    wp (appendPages first all.length (all.drop first) level node base false)
      (fun id s' => Grew s s' ∧ Rep s'.nodes level id (seg base (nodeRows level) all))
      (fun _ s' => Failed s s') s

theorem emptyEdges_getD (slot : Nat) : emptyEdges.getD slot none = none := by
  unfold emptyEdges
  rw [getD_eq_getElem?_getD, getElem?_replicate]
  split <;> rfl

theorem slot_le {slot : Nat} (h : slot < 32) (c : Nat) : slot * c + c ≤ 32 * c := by
  rw [← Nat.succ_mul]
  exact Nat.mul_le_mul_right c h

theorem wp_appendSlots {lo n j : Nat} (ih : Appends all first level) (hj : j + n ≤ 32) (hlo : lo ≤ j)
    (hslots : ∀ slot, lo ≤ slot → slot < j + n →
      base + slot * nodeRows level < all.length ∧ first < base + slot * nodeRows level + nodeRows level)
    (hedges : RepEdges s.nodes level edges base fun slot =>
      if lo ≤ slot ∧ slot < j then all else all.take first) :
    wp ((List.range' j n).foldlM (fun edges slot => do
        let child ← appendPages first all.length (all.drop first) level (edges.getD slot none)
          (base + slot * nodeRows level) false
        return edges.set slot (some child)) edges)
      (fun edges' s' => Grew s s' ∧ RepEdges s'.nodes level edges' base fun slot =>
        if lo ≤ slot ∧ slot < j + n then all else all.take first)
      (fun _ => Failed s) s := by
  induction n generalizing j edges s with
  | zero => exact ⟨Grew.refl s, hedges⟩
  | succ n ihn =>
    rw [range'_succ, foldlM_cons]
    simp only [wp_bind, wp_pure]
    obtain ⟨h1, h2⟩ := hslots j hlo (by omega)
    have hchild := hedges.2 j (by omega)
    beta_reduce at hchild
    rw [if_neg (by omega)] at hchild
    refine wp_imp (ih s _ _ h1 h2 hchild) fun child s₁ ⟨hp₁, hrep⟩ => ?_
    have hset : RepEdges s₁.nodes level (edges.set j (some child)) base fun slot =>
        if lo ≤ slot ∧ slot < j + 1 then all else all.take first := by
      refine ⟨by rw [length_set]; exact hedges.1, fun slot hslot => ?_⟩
      beta_reduce
      rw [getD_eq_getElem?_getD, getElem?_set]
      split
      · next hjs =>
        subst hjs
        rw [if_pos (by rw [hedges.1]; exact hslot), if_pos (by omega)]
        exact hrep
      next hjs =>
      have hold := (hedges.2 slot hslot).mono hp₁.nodes
      have hcond : (lo ≤ slot ∧ slot < j + 1) ↔ (lo ≤ slot ∧ slot < j) := by omega
      simp only [hcond]
      exact hold
    have hstep : j + 1 + n = j + (n + 1) := by omega
    have htail := ihn (j := j + 1) (by omega) (by omega) (fun slot h3 h4 => hslots slot h3 (by omega)) hset
    rw [hstep] at htail
    exact wp_mono htail (fun _ _ h => ⟨hp₁.trans h.1, h.2⟩) fun _ _ h => hp₁.failed h

/-- Above level 0: from edges that stand for the old list to a node for the new one. -/
theorem wp_appendEdges (base : Nat)
    (ih : Appends all first level) (hfirst : first < all.length) (hb : base < all.length)
    (hf : first < base + nodeRows (level + 1))
    (hedges : RepEdges s.nodes level edges base fun _ => all.take first) :
    wp (do
        let edges ← (List.range' ((max base first - base) / nodeRows level)
            ((min (base + nodeRows (level + 1)) all.length - 1 - base) / nodeRows level + 1 -
              (max base first - base) / nodeRows level)).foldlM (fun edges slot => do
          let child ← appendPages first all.length (all.drop first) level (edges.getD slot none)
            (base + slot * nodeRows level) false
          return edges.set slot (some child)) edges
        makeNode (.edges edges))
      (fun id s' => Grew s s' ∧ Rep s'.nodes (level + 1) id (seg base (nodeRows (level + 1)) all))
      (fun _ => Failed s) s := by
  have hrows := nodeRows_succ level
  have hpos := nodeRows_pos level
  generalize hc : nodeRows level = c at *
  generalize hC : nodeRows (level + 1) = C at *
  generalize hlo : (max base first - base) / c = lo
  generalize hhi : (min (base + C) all.length - 1 - base) / c = hi
  have hlo1 : lo * c ≤ max base first - base := hlo ▸ Nat.div_mul_le_self _ _
  have hlo2 : max base first - base < lo * c + c := hlo ▸ Nat.lt_div_mul_add hpos
  have hhi1 : hi * c ≤ min (base + C) all.length - 1 - base := hhi ▸ Nat.div_mul_le_self _ _
  have hhi2 : min (base + C) all.length - 1 - base < hi * c + c := hhi ▸ Nat.lt_div_mul_add hpos
  have hhi32 : hi < 32 := by
    by_contra hge
    have := Nat.mul_le_mul_right c (Nat.le_of_not_lt hge)
    omega
  have hlohi : lo ≤ hi := by
    by_contra hlt
    have := Nat.mul_le_mul_right c (Nat.succ_le_of_lt (Nat.lt_of_not_le hlt))
    rw [Nat.succ_mul] at this
    omega
  have hslots : ∀ slot, lo ≤ slot → slot < lo + (hi + 1 - lo) →
      base + slot * c < all.length ∧ first < base + slot * c + c := by
    intro slot h1 h2
    have h3 := Nat.mul_le_mul_right c h1
    have h4 := Nat.mul_le_mul_right c (show slot ≤ hi by omega)
    omega
  simp only [wp_bind]
  subst hc
  refine wp_imp (wp_appendSlots ih (by omega) (Nat.le_refl lo) hslots ?_) fun edges' s₁ ⟨hp₁, hrep⟩ => ?_
  · refine ⟨hedges.1, fun slot hslot => ?_⟩
    beta_reduce
    rw [if_neg (by omega)]
    exact hedges.2 slot hslot
  refine wp_mono (wp_makeNode _ s₁) (fun id s₂ ⟨hp₂, hnode⟩ => ⟨hp₁.trans hp₂, ?_⟩) fun _ _ h => hp₁.failed h
  have hlen := length_seg base C all
  refine rep_succ.mpr ⟨by omega, by omega, edges', hnode, hrep.1, fun slot hslot => ?_⟩
  have hle := slot_le hslot (nodeRows level)
  rw [Nat.zero_add, seg_seg (by omega)]
  have hs := (hrep.2 slot hslot).mono hp₂.nodes
  -- a slot the loop did not visit holds what it held, which is all it is to hold
  have hsame : seg (base + slot * nodeRows level) (nodeRows level)
      (if lo ≤ slot ∧ slot < lo + (hi + 1 - lo) then all else all.take first) =
      seg (base + slot * nodeRows level) (nodeRows level) all := by
    split
    · rfl
    next hout =>
    rcases Nat.lt_or_ge slot lo with hlt | hge
    · have := Nat.mul_le_mul_right (nodeRows level) (Nat.succ_le_of_lt hlt)
      rw [Nat.succ_mul] at this
      exact seg_take_of_le (by omega) all
    have := Nat.mul_le_mul_right (nodeRows level) (show hi + 1 ≤ slot by omega)
    rw [Nat.succ_mul] at this
    rw [seg_nil_of_le (by rw [length_take]; omega), seg_nil_of_le (by omega)]
  rw [hsame] at hs
  exact hs

theorem appends (hfirst : first < all.length) (level : Nat) : Appends all first level := by
  induction level with
  | zero =>
    intro s node base hb hf hnode
    exact wp_appendPage hfirst hb hf hnode
  | succ level ih =>
    intro s node base hb hf hnode
    have hrows := nodeRows_succ level
    -- the edges to start from
    have hedges : ∃ edges, edgesOf s.nodes false node = .ok edges ∧
        RepEdges s.nodes level edges base fun _ => all.take first := by
      have hsub : ∀ slot, slot < 32 → seg (base + slot * nodeRows level) (nodeRows level)
          (all.take first) = seg (slot * nodeRows level) (nodeRows level)
            (seg base (nodeRows (level + 1)) (all.take first)) := by
        intro slot hslot
        have := slot_le hslot (nodeRows level)
        rw [seg_seg (by omega)]
      cases node with
      | none =>
        have hnil : seg base (nodeRows (level + 1)) (all.take first) = [] := hnode
        refine ⟨emptyEdges, rfl, rfl, fun slot hslot => ?_⟩
        rw [emptyEdges_getD]
        rw [hsub slot hslot, hnil]
        exact seg_nil_of_le (Nat.zero_le _) _
      | some id =>
        obtain ⟨-, -, edges, hget, hlen, hreps⟩ := rep_succ.mp hnode
        refine ⟨edges, by simp [edgesOf, hget], hlen, fun slot hslot => ?_⟩
        have := hreps slot hslot
        rw [Nat.zero_add] at this
        rw [hsub slot hslot]
        exact this
    obtain ⟨edges, hof, hrep⟩ := hedges
    simp only [appendPages, wp_bind, wp_get]
    refine wp_ofExcept.mpr ⟨fun edges' he => ?_, fun e he => ?_⟩
    · obtain rfl : edges = edges' := Except.ok.inj (hof.symm.trans he)
      have := wp_appendEdges base ih hfirst hb hf hrep
      simpa only [wp_bind] using this
    · cases hof.symm.trans he

theorem promotedEdges {nodes : List Node} {ts : List Int} (h : RepEdge nodes level root ts) :
    RepEdges nodes level (emptyEdges.set 0 root) 0 fun _ => ts := by
  have hle := h.le
  refine ⟨by simp [emptyEdges], fun slot hslot => ?_⟩
  rw [getD_eq_getElem?_getD, getElem?_set]
  split
  · next h0 =>
    subst h0
    rw [if_pos (by simp [emptyEdges]), getD_some, Nat.zero_mul, seg_zero_of_le hle]
    exact h
  next h0 =>
  rw [← getD_eq_getElem?_getD, emptyEdges_getD]
  have : 1 * nodeRows level ≤ slot * nodeRows level := Nat.mul_le_mul_right _ (by omega)
  show seg _ _ ts = []
  exact seg_nil_of_le (by omega) _

theorem wp_appendRoot {promotedRoot : Bool} (hfirst : first < all.length) (hall : all.length ≤ nodeRows level)
    (hroot : if promotedRoot then 0 < level ∧ RepEdge s.nodes (level - 1) root (all.take first)
      else RepEdge s.nodes level root (all.take first)) :
    wp (appendPages first all.length (all.drop first) level root 0 promotedRoot)
      (fun id s' => Grew s s' ∧ Rep s'.nodes level id all)
      (fun _ => Failed s) s := by
  have hseg : seg 0 (nodeRows level) all = all := seg_zero_of_le hall
  have hold : seg 0 (nodeRows level) (all.take first) = all.take first :=
    seg_zero_of_le (by rw [length_take]; omega)
  cases promotedRoot with
  | false =>
    have := appends hfirst level s root 0 (by omega) (by omega) (by rw [hold]; exact hroot)
    rw [hseg] at this
    exact this
  | true =>
    obtain ⟨hlevel, hroot⟩ : 0 < level ∧ RepEdge s.nodes (level - 1) root (all.take first) := by
      simpa using hroot
    obtain ⟨level, rfl⟩ : ∃ n, level = n + 1 := ⟨level - 1, by omega⟩
    have := wp_appendEdges 0 (appends hfirst level) hfirst (by omega) (by omega) (promotedEdges hroot)
    rw [hseg] at this
    simp only [appendPages, edgesOf, wp_bind, wp_get, if_true]
    exact wp_ofExcept.mpr ⟨fun edges he => by
      cases he
      simpa only [wp_bind] using this, fun e he => nomatch he⟩

end Append

/-! ## The level of the root -/

theorem nodeRows_mono (h : a ≤ b) : nodeRows a ≤ nodeRows b := by
  induction h with
  | refl => exact Nat.le_refl _
  | step _ ih =>
    rw [nodeRows_succ]
    omega

/-- The level of a tree with `n` tokens: the smallest that holds them. -/
def LevelFor (level n : Nat) : Prop := n ≤ nodeRows level ∧ (level = 0 ∨ nodeRows (level - 1) < n)

theorem LevelFor.unique {n : Nat} (ha : LevelFor a n) (hb : LevelFor b n) : a = b := by
  have hlt : ∀ {a b : Nat}, LevelFor a n → LevelFor b n → ¬ a < b := by
    intro a b ha hb hab
    have := nodeRows_mono (show a ≤ b - 1 by omega)
    have h1 := ha.1
    rcases hb.2 with h2 | h2
    · omega
    · omega
  have h1 := hlt ha hb
  have h2 := hlt hb ha
  omega

theorem wp_promote {stop fuel : Nat} {root : Option Nat} (hroot : RepEdge s.nodes level root ts)
    (hfuel : stop ≤ nodeRows (level + fuel)) (hmin : level = 0 ∨ nodeRows (level - 1) < stop) :
    wp (promote stop fuel root level false)
      (fun r s' => Grew s s' ∧ LevelFor r.2.1 stop ∧
        if r.2.2 then 0 < r.2.1 ∧ RepEdge s'.nodes (r.2.1 - 1) r.1 ts
        else RepEdge s'.nodes r.2.1 r.1 ts)
      (fun _ => Failed s) s := by
  induction fuel generalizing level root s with
  | zero => exact ⟨Grew.refl s, ⟨hfuel, hmin⟩, hroot⟩
  | succ fuel ih =>
    have hstep : level + (fuel + 1) = level + 1 + fuel := by omega
    rw [hstep] at hfuel
    unfold promote
    split
    · next hlt =>
      have hmin' : level + 1 = 0 ∨ nodeRows (level + 1 - 1) < stop := .inr hlt
      split
      · next hmat =>
        -- the level is skipped: the root gets a parent
        rw [wp_bind]
        refine wp_imp (wp_makeNode _ s) fun node s₁ ⟨hp, hnode⟩ => ?_
        have hrep : RepEdge s₁.nodes (level + 1) (some node) ts := by
          obtain ⟨id, rfl⟩ := isSome_iff_exists.mp hmat.1
          have hpos : 0 < ts.length := Rep.pos hroot
          have hle := hroot.le
          have := nodeRows_mono (show level ≤ level + 1 by omega)
          obtain ⟨h1, h2⟩ := promotedEdges (hroot.mono hp.nodes)
          exact rep_succ.mpr ⟨hpos, by omega, _, hnode, h1, h2⟩
        exact wp_mono (ih hrep hfuel hmin') (fun _ _ h => ⟨hp.trans h.1, h.2⟩) fun _ _ h => hp.failed h
      next hlast =>
      cases root with
      | none =>
        have hnone : RepEdge s.nodes (level + 1) none ts := hroot
        exact ih hnone hfuel hmin'
      | some id =>
        -- the last level: `append_pages` makes the new root
        have hend : ¬ stop > nodeRows (level + 1) := fun h => hlast ⟨rfl, h⟩
        have hdone : promote stop fuel (some id) (level + 1) true = pure (some id, level + 1, true) := by
          cases fuel with
          | zero => rfl
          | succ fuel =>
            unfold promote
            rw [if_neg hend]
        show wp (promote stop fuel _ _ true) _ _ _
        rw [hdone]
        exact ⟨Grew.refl s, ⟨Nat.le_of_not_lt hend, hmin'⟩, Nat.succ_pos level, hroot⟩
    · next hge => exact ⟨Grew.refl s, ⟨Nat.le_of_not_lt hge, hmin⟩, hroot⟩

/-! ## Reading -/

/-- `page_node` finds the page of the index's low bits. -/
theorem pageNode_rep (index : Nat) (h : Rep nodes level id ts) (hi : index % 2 ^ (5 * level) * 64 < ts.length) :
    ∃ tokens, pageNode nodes index level (some id) =
        some (.page (seg (index % 2 ^ (5 * level) * 64) 64 ts).length tokens) ∧
      tokens.take (seg (index % 2 ^ (5 * level) * 64) 64 ts).length = seg (index % 2 ^ (5 * level) * 64) 64 ts := by
  induction level generalizing id ts with
  | zero =>
    obtain ⟨h1, h2, tokens, h3, h4, h5⟩ := h
    have hzero : index % 2 ^ (5 * 0) * 64 = 0 := by simp [Nat.mod_one]
    rw [hzero, seg_zero_of_le h2]
    exact ⟨tokens, h3, h5⟩
  | succ level ih =>
    obtain ⟨h1, h2, edges, h3, h4, h5⟩ := rep_succ.mp h
    have hrows : nodeRows level = 2 ^ (5 * level) * 64 := by
      rw [nodeRows, Nat.shiftLeft_eq, Nat.mul_comm]
    have hpow : 2 ^ (5 * (level + 1)) = 2 ^ (5 * level) * 32 := by
      rw [Nat.mul_succ, Nat.pow_add]
    generalize hP : 2 ^ (5 * level) = P at *
    have hPpos : 0 < P := hP ▸ Nat.two_pow_pos _
    -- the index splits into the slot here and the index below
    have hsplit : index % (P * 32) = P * (index / P % 32) + index % P := by
      rw [Nat.mod_mul]
      omega
    have hslot : index / P % 32 < 32 := Nat.mod_lt _ (by decide)
    have hmod := Nat.mod_lt index hPpos
    generalize hk : index / P % 32 = slot at *
    generalize hm : index % P = low at *
    rw [hpow, hsplit] at hi ⊢
    have hbase : (P * slot + low) * 64 = slot * nodeRows level + low * 64 := by
      rw [hrows, Nat.add_mul, Nat.mul_comm P slot, Nat.mul_assoc]
    have hlow : low * 64 + 64 ≤ nodeRows level := by
      rw [hrows]
      omega
    have hchild := h5 slot hslot
    rw [Nat.zero_add] at hchild
    have hlen := length_seg (slot * nodeRows level) (nodeRows level) ts
    have hin : low * 64 < (seg (slot * nodeRows level) (nodeRows level) ts).length := by omega
    cases hedge : edges.getD slot none with
    | none =>
      rw [hedge] at hchild
      have hnil : seg (slot * nodeRows level) (nodeRows level) ts = [] := hchild
      rw [hnil] at hin
      cases hin
    | some child =>
      rw [hedge] at hchild
      obtain ⟨tokens, h6, h7⟩ := ih hchild hin
      rw [seg_seg hlow, ← hbase] at h6 h7
      refine ⟨tokens, ?_, h7⟩
      have hshift : index >>> (5 * level) % 32 = slot := by
        rw [Nat.shiftRight_eq_div_pow, hP, hk]
      simp only [pageNode, bind_some, h3, hshift, hedge]
      exact h6

theorem RepEdge.some_ne_nil (h : RepEdge nodes level (some id) ts) : ts ≠ [] := by
  have hpos : 0 < ts.length := Rep.pos h
  exact ne_nil_of_length_pos hpos

theorem RepEdge.unique (h : RepEdge nodes level edge ts) (h' : RepEdge nodes level edge ts') : ts = ts' := by
  induction level generalizing edge ts ts' with
  | zero =>
    cases edge with
    | none => exact Eq.trans h (Eq.symm h')
    | some id =>
      obtain ⟨-, -, tokens, hget, -, htake⟩ := h
      obtain ⟨-, -, tokens', hget', -, htake'⟩ := h'
      rw [hget, Option.some.injEq, Node.page.injEq] at hget'
      rw [← htake, ← htake', hget'.1, hget'.2]
  | succ level ih =>
    cases edge with
    | none => exact Eq.trans h (Eq.symm h')
    | some id =>
      have hle := h.le
      have hle' := h'.le
      obtain ⟨-, -, edges, hget, -, hreps⟩ := rep_succ.mp h
      obtain ⟨-, -, edges', hget', -, hreps'⟩ := rep_succ.mp h'
      rw [hget, Option.some.injEq, Node.edges.injEq] at hget'
      subst hget'
      rw [nodeRows_succ] at hle hle'
      refine ext_seg (nodeRows_pos level) hle hle' fun slot hslot => ?_
      have := ih (hreps slot hslot) (hreps' slot hslot)
      rwa [Nat.zero_add] at this

theorem samePages_iff {tokens tokens' : List Int} (h : tokens.take ts.length = ts)
    (h' : tokens'.take ts'.length = ts') :
    (ts.length = ts'.length ∧ tokens.take ts.length = tokens'.take ts.length) ↔ ts = ts' := by
  constructor
  · rintro ⟨hlen, htake⟩
    rw [h, hlen, h'] at htake
    exact htake
  · intro heq
    subst heq
    exact ⟨rfl, h.trans h'.symm⟩

theorem sameSlots_iff (hle : ts.length ≤ nodeRows (level + 1)) (hle' : ts'.length ≤ nodeRows (level + 1)) :
    (∀ slot, slot < 32 → seg (slot * nodeRows level) (nodeRows level) ts =
      seg (slot * nodeRows level) (nodeRows level) ts') ↔ ts = ts' := by
  constructor
  · intro h
    rw [nodeRows_succ] at hle hle'
    exact ext_seg (nodeRows_pos level) hle hle' h
  · intro heq slot _
    rw [heq]

theorem sameNodes_iff {left right : Option Nat} (h : RepEdge nodes level left ts)
    (h' : RepEdge nodes level right ts') :
    sameNodes nodes (level + 1) left right = true ↔ ts = ts' := by
  induction level generalizing left right ts ts' with
  | zero =>
    unfold sameNodes
    split
    · next heq =>
      subst heq
      exact iff_of_true rfl (h.unique h')
    next hne =>
    match left, right with
    | none, none => exact absurd rfl hne
    | none, some b =>
      have hnil : ts = [] := h
      simp [hnil, Ne.symm h'.some_ne_nil]
    | some a, none =>
      have hnil : ts' = [] := h'
      simp [hnil, h.some_ne_nil]
    | some a, some b =>
      obtain ⟨-, -, tokens, hget, -, htake⟩ := h
      obtain ⟨-, -, tokens', hget', -, htake'⟩ := h'
      simp only [bind_some, hget, hget', Bool.and_eq_true, decide_eq_true_eq]
      exact samePages_iff htake htake'
  | succ level ih =>
    unfold sameNodes
    split
    · next heq =>
      subst heq
      exact iff_of_true rfl (h.unique h')
    next hne =>
    match left, right with
    | none, none => exact absurd rfl hne
    | none, some b =>
      have hnil : ts = [] := h
      simp [hnil, Ne.symm h'.some_ne_nil]
    | some a, none =>
      have hnil : ts' = [] := h'
      simp [hnil, h.some_ne_nil]
    | some a, some b =>
      obtain ⟨-, hle, edges, hget, -, hreps⟩ := rep_succ.mp h
      obtain ⟨-, hle', edges', hget', -, hreps'⟩ := rep_succ.mp h'
      simp only [bind_some, hget, hget', List.all_eq_true, mem_range]
      rw [← sameSlots_iff hle hle']
      refine forall_congr' fun slot => imp_congr_right fun hslot => ?_
      have := ih (hreps slot hslot) (hreps' slot hslot)
      rwa [Nat.zero_add] at this

end VoidInfer.Exl3
