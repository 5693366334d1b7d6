import VoidInfer.Exl3.LaneKvCalls

/-
  The exchange of histories. A run of pairs trades in two passes: first the plane rows and the buffers of the incoming
  pages change places, then the buffers go to the outgoing pages and the incoming ones are re-homed. Between the passes
  the state is as good as any, with the rows of each pair's two pages exchanged (`swapped`): the second pass exchanges
  them back.

  What makes the first pass safe is that no other page held in the planes names a row of an incoming page: pages outside
  the restored history were filled before, and the pages of one history have no row in common.
-/

namespace VoidInfer.Exl3.LaneKv
open List Option Function

open Window Throwing

variable {Row Codes : Type} {host : Host Row Codes} {o : Nat → Option (List Row)}
  {W : Nat → Nat → Prop} {σ σ' σ₀ : State Row Codes} {inPage outPage : Page Row Codes}
  {p q s : Nat} {incoming : List Nat} {pair : Pair} {pairs run rest : List Pair}

/-- The rows of the pair's two pages exchanged. -/
def swapped (pair : Pair) (o : Nat → Option (List Row)) : Nat → Option (List Row) := fun q =>
  if q = pair.incoming then o pair.outgoing
  else if q = pair.outgoing then o pair.incoming
  else o q

theorem swapped_incoming : swapped pair o pair.incoming = o pair.outgoing := if_pos rfl

theorem swapped_outgoing (h : pair.outgoing ≠ pair.incoming) : swapped pair o pair.outgoing = o pair.incoming := by
  rw [swapped, if_neg h, if_pos rfl]

theorem swapped_other (h1 : q ≠ pair.incoming) (h2 : q ≠ pair.outgoing) : swapped pair o q = o q := by
  rw [swapped, if_neg h1, if_neg h2]

/-- The two pairs have no page in common. -/
def Pair.Apart (a b : Pair) : Prop :=
  a.incoming ≠ b.incoming ∧ a.incoming ≠ b.outgoing ∧ a.outgoing ≠ b.incoming ∧
    a.outgoing ≠ b.outgoing

theorem swapped_comm {a b : Pair} (h : a.Apart b) : swapped a (swapped b o) = swapped b (swapped a o) := by
  obtain ⟨h1, h2, h3, h4⟩ := h
  funext q
  unfold swapped
  by_cases ha : q = a.incoming
  · simp [ha, h1, h2, h3, h4]
  by_cases ha' : q = a.outgoing
  · subst ha'
    simp [ha, h1, h2, h3, h4]
  by_cases hb : q = b.incoming
  · subst hb
    simp [ha, ha', h2.symm, h4.symm]
  by_cases hb' : q = b.outgoing
  · simp [ha, ha', hb, h3.symm, h1.symm]
  · simp [ha, ha', hb, hb']

/-- All pairs exchanged. -/
def traded (run : List Pair) (o : Nat → Option (List Row)) : Nat → Option (List Row) :=
  run.foldr swapped o

theorem traded_swapped {a : Pair} (h : ∀ b ∈ run, a.Apart b) :
    traded run (swapped a o) = swapped a (traded run o) := by
  induction run with
  | nil => rfl
  | cons b run ih =>
    show swapped b (traded run _) = swapped a (swapped b (traded run o))
    rw [ih fun c hc => h c (mem_cons_of_mem _ hc), swapped_comm (h b (mem_cons_self ..))]

/-! ## One pair -/

/-- What an exchange needs of a pair: the incoming page is filled, the planes hold the outgoing
    one, and both name the same rows. -/
structure Ready (s : Nat) (σ : State Row Codes) (pair : Pair) (inPage outPage : Page Row Codes) :
    Prop where
  incoming : σ.pages pair.incoming = some inPage
  outgoing : σ.pages pair.outgoing = some outPage
  filled : inPage.deferred = false
  held : outPage.holds s = true
  first : outPage.first = inPage.first
  rows : outPage.rows = inPage.rows

theorem Ready.ne (h : Ready s σ pair inPage outPage) : pair.outgoing ≠ pair.incoming := by
  intro heq
  have := h.outgoing
  rw [heq, h.incoming] at this
  obtain rfl := some.inj this
  exact absurd h.held (by simp [not_holds_of_not_deferred h.filled])

/-- The first pass, one pair. -/
theorem Inv.swapRows (h : Inv host o W σ) (hr : Ready s σ pair inPage outPage)
    (hsized : inPage.payload.length = inPage.rows)
    (hapart : ∀ q page, σ.pages q = some page → page.holds s = true → q ≠ pair.outgoing →
      ∀ row, page.Covers row → ¬ inPage.Covers row) :
    Inv host (swapped pair o) W ((σ.writePlanes s inPage.first inPage.payload).put pair.incoming
      { inPage with payload := σ.planeRows s inPage }) := by
  obtain ⟨rsIn, hoIn, hhIn⟩ := h.core.home _ _ hr.incoming
  obtain ⟨rsOut, hoOut, hhOut⟩ := h.core.home _ _ hr.outgoing
  obtain ⟨hspill, hram⟩ := hhIn.unspilled hr.filled
  have hsame : σ.planeRows s inPage = rsOut := by
    rw [← hhOut.planeRows_eq hr.held, State.planeRows, State.planeRows, hr.first, hr.rows]
  refine ⟨⟨fun q page hq => ?_, fun q page t hq => ?_, fun q page n hq => ?_,
    fun q₁ q₂ page₁ page₂ n h1 h2 => ?_, h.core.freeBelow, h.core.freeOnce⟩, ?_⟩
  · rcases put_pages hq with ⟨rfl, rfl⟩ | ⟨hne, hq⟩
    · refine ⟨rsOut, swapped_incoming.trans hoOut, homed_payload ?_ hr.filled hspill hram hsame⟩
      exact hhOut.length.trans hr.rows
    by_cases hout : q = pair.outgoing
    · -- the planes now have the incoming rows
      subst hout
      obtain rfl := mem_unique hr.outgoing hq
      refine ⟨rsIn, (swapped_outgoing hr.ne).trans hoIn, homed_planes ?_ hr.held ?_⟩
      · exact hhIn.length.trans hr.rows.symm
      · show window (update σ.planes s _ s) outPage.first outPage.rows = rsIn
        rw [update_self, hr.first, hr.rows, ← hsized, window_overwrite]
        exact hhIn.payload_eq hr.filled
    obtain ⟨rs, ho, hh⟩ := h.core.home q page hq
    refine ⟨rs, (swapped_other hne hout).trans ho, hh.frame (fun t ht => ?_) fun _ _ => rfl⟩
    show window (update σ.planes s _ t) _ _ = window _ _ _
    by_cases hts : t = s
    · subst hts
      rw [update_self]
      refine window_congr fun row h1 h2 => overwrite_outside ?_
      have := hapart q page hq ht hout row ⟨h1, h2⟩
      unfold Page.Covers at this
      omega
    · rw [update_of_ne hts]
  · rcases put_pages hq with ⟨rfl, rfl⟩ | ⟨-, hq⟩
    · exact h.core.guarded _ inPage t hr.incoming
    · exact h.core.guarded q page t hq
  · rcases put_pages hq with ⟨rfl, rfl⟩ | ⟨-, hq⟩
    · exact h.core.slots _ inPage n hr.incoming
    · exact h.core.slots q page n hq
  · -- slots did not change hands
    have hold : ∀ {q page}, ((σ.writePlanes s inPage.first inPage.payload).put pair.incoming
        { inPage with payload := σ.planeRows s inPage }).pages q = some page →
        ∃ page', σ.pages q = some page' ∧ page'.spill = page.spill := by
      intro q page hq
      rcases put_pages hq with ⟨rfl, rfl⟩ | ⟨-, hq⟩
      · exact ⟨inPage, hr.incoming, rfl⟩
      · exact ⟨page, hq, rfl⟩
    obtain ⟨page₁', h1', he1⟩ := hold h1
    obtain ⟨page₂', h2', he2⟩ := hold h2
    rw [← he1, ← he2]
    exact h.core.owners q₁ q₂ page₁' page₂' n h1' h2'
  · have htracked : Tracked (σ.writePlanes s inPage.first inPage.payload) := h.tracked
    exact htracked.put fun t ht => h.tracked _ inPage t hr.incoming ht

theorem Inv.handOver (h : Inv host (swapped pair o) W σ) (hr : Ready s σ pair inPage outPage) :
    Inv host o W (((σ.put pair.outgoing
      { outPage with payload := inPage.payload, deferred := false }).put pair.incoming
      { inPage.releasePayload with source := some s, deferred := true }).trackLocked s pair.incoming) := by
  have hne := hr.ne
  obtain ⟨rsOut, hoOut, hhIn⟩ := h.core.home _ _ hr.incoming
  obtain ⟨rsIn, hoIn, hhOut⟩ := h.core.home _ _ hr.outgoing
  obtain ⟨hspill, hram⟩ := hhIn.unspilled hr.filled
  obtain ⟨-, -, -, -, -, hspill', hram'⟩ := h.held hr.outgoing hr.held
  rw [swapped_incoming] at hoOut
  rw [swapped_outgoing hne] at hoIn
  -- the outgoing page takes the buffers
  have h1 : Core host (fun q => if q = pair.outgoing then o q else swapped pair o q) W
      (σ.put pair.outgoing { outPage with payload := inPage.payload, deferred := false }) := by
    refine h.core.put ?_ (fun q hq => if_neg hq) (homed_payload ?_ rfl hspill' hram'
      (hhIn.payload_eq hr.filled)) (fun n hn => ?_)
      fun t ht => absurd ht (by simp [not_holds_of_not_deferred])
    · rw [if_pos rfl]
      exact hoOut
    · exact hhIn.length.trans hr.rows.symm
    · cases hspill'.symm.trans hn
  have htracked : Tracked (σ.put pair.outgoing { outPage with payload := inPage.payload, deferred := false }) :=
    h.tracked.put fun t ht => absurd ht (by simp [not_holds_of_not_deferred])
  -- and the incoming page is in the planes
  refine Inv.track (h1.put hoIn (fun q hq => ?_) (homed_planes (s := s) ?_ ?_ ?_) (fun n hn => ?_)
    fun t ht row hrow => ?_) htracked fun t ht => ?_
  · by_cases hout : q = pair.outgoing
    · rw [if_pos hout]
    · rw [if_neg hout, swapped_other hq hout]
  · exact hhOut.length.trans hr.rows
  · exact holds_iff.mpr ⟨rfl, rfl, hspill, rfl⟩
  · show window _ inPage.first inPage.rows = rsIn
    rw [← hr.first, ← hr.rows]
    exact hhOut.planeRows_eq hr.held
  · cases hspill.symm.trans hn
  · obtain rfl : s = t := some.inj (holds_iff.mp ht).1
    refine h.core.guarded _ outPage s hr.outgoing hr.held row ?_
    unfold Page.Covers
    rw [hr.first, hr.rows]
    exact hrow
  · exact (some.inj (holds_iff.mp ht).1).symm

/-! ## A run of pairs -/

/-- The pairs of a run are ready and have no page in common; each incoming page has its buffers,
    and no page held here but its partner names one of its rows. -/
structure RunReady (s : Nat) (σ : State Row Codes) (run : List Pair) : Prop where
  ready : ∀ pair ∈ run, ∃ inPage outPage, Ready s σ pair inPage outPage
  sized : ∀ pair ∈ run, ∀ page, σ.pages pair.incoming = some page → page.payload.length = page.rows
  apart : ∀ pair ∈ run, ∀ q, Held σ s q → q ≠ pair.outgoing → ∀ row, σ.Names q row →
    ¬ σ.Names pair.incoming row
  pairs : run.Pairwise Pair.Apart

theorem held_put {page' page : Page Row Codes} (hp : σ.pages p = some page)
    (hflags : page'.holds s = page.holds s) : Held (σ.put p page') s q ↔ Held σ s q := by
  by_cases hq : q = p
  · subst hq
    constructor
    · rintro ⟨page₁, h1, hs⟩
      rw [put_pages_self] at h1
      cases h1
      exact ⟨page, hp, hflags ▸ hs⟩
    · rintro ⟨page₁, h1, hs⟩
      obtain rfl := mem_unique hp h1
      exact ⟨page', put_pages_self, hflags.symm ▸ hs⟩
  unfold Held
  rw [put_pages_ne hq]

theorem returns_swapRows (h : Inv host o W σ) (hr : RunReady s σ run) :
    Returns (run.forM (swapRows s)) (fun _ σ' => Inv host (traded run o) W σ' ∧
      (∀ q, σ'.geometry q = σ.geometry q) ∧ (∀ q, Held σ' s q ↔ Held σ s q) ∧
      ∀ pair ∈ run, ∃ inPage outPage, Ready s σ' pair inPage outPage) σ := by
  refine Returns.mono (wp_forM (I := fun rest σ' => ∃ done, run = done ++ rest ∧
    Inv host (traded done o) W σ' ∧ RunReady s σ' run ∧ (∀ q, σ'.geometry q = σ.geometry q) ∧
    ∀ q, Held σ' s q ↔ Held σ s q) ?_ ⟨[], rfl, h, hr, fun _ => rfl, fun _ => Iff.rfl⟩) ?_
  · intro pair rest σ₁ ⟨done, hrun, hinv, hr1, hgeo, hheld⟩
    have hmem : pair ∈ run := by simp [hrun]
    obtain ⟨inPage, outPage, hready⟩ := hr1.ready pair hmem
    have hsized := hr1.sized pair hmem inPage hready.incoming
    unfold swapRows
    simp only [wp_modify, hready.incoming]
    have hlen : (σ₁.planeRows s inPage).length = inPage.rows := length_window
    generalize hσ₂ : (σ₁.writePlanes s inPage.first inPage.payload).put pair.incoming
      { inPage with payload := σ₁.planeRows s inPage } = σ₂
    have hgeo2 : ∀ q, σ₂.geometry q = σ₁.geometry q := fun q => by
      rw [← hσ₂]
      have hp : (σ₁.writePlanes s inPage.first inPage.payload).pages pair.incoming = some inPage :=
        hready.incoming
      exact geometry_put hp rfl rfl
    have hheld2 : ∀ q, Held σ₂ s q ↔ Held σ₁ s q := fun q => by
      rw [← hσ₂]
      have hp : (σ₁.writePlanes s inPage.first inPage.payload).pages pair.incoming = some inPage :=
        hready.incoming
      exact held_put hp rfl
    -- another page: as before, but for the buffers of the incoming one
    have hpages : ∀ q page, σ₁.pages q = some page → ∃ l, l.length = page.payload.length ∧
        σ₂.pages q = some { page with payload := l } := by
      intro q page hq
      by_cases hqp : q = pair.incoming
      · subst hqp
        obtain rfl := mem_unique hready.incoming hq
        rw [← hσ₂]
        exact ⟨_, hlen.trans hsized.symm, put_pages_self⟩
      refine ⟨page.payload, rfl, ?_⟩
      rw [← hσ₂, put_pages_ne hqp]
      exact hq
    refine ⟨done ++ [pair], by simp [hrun], ?_, ⟨fun pr hpr => ?_, fun pr hpr page hp => ?_,
      fun pr hpr q hq hqne row => ?_, hr1.pairs⟩, fun q => (hgeo2 q).trans (hgeo q),
      fun q => (hheld2 q).trans (hheld q)⟩
    · have happ : traded (done ++ [pair]) o = swapped pair (traded done o) := by
        have hd : ∀ b ∈ done, pair.Apart b := by
          have hp := hr1.pairs
          rw [hrun] at hp
          intro b hb
          have := (pairwise_append.mp hp).2.2 b hb pair (mem_cons_self ..)
          exact ⟨this.1.symm, this.2.2.1.symm, this.2.1.symm, this.2.2.2.symm⟩
        rw [← traded_swapped hd]
        simp [traded]
      rw [happ, ← hσ₂]
      refine hinv.swapRows hready hsized fun q page hq hs hne row hrow hin => ?_
      exact hr1.apart pair hmem q ⟨page, hq, hs⟩ hne row ⟨page, hq, hrow⟩ ⟨inPage, hready.incoming, hin⟩
    · obtain ⟨inPage', outPage', hready'⟩ := hr1.ready pr hpr
      obtain ⟨l, -, h1⟩ := hpages _ _ hready'.incoming
      obtain ⟨l', -, h2⟩ := hpages _ _ hready'.outgoing
      exact ⟨_, _, h1, h2, hready'.filled, hready'.held, hready'.first, hready'.rows⟩
    · obtain ⟨inPage', outPage', hready'⟩ := hr1.ready pr hpr
      obtain ⟨l, hl, h1⟩ := hpages _ _ hready'.incoming
      obtain rfl := mem_unique hp h1
      exact hl.trans (hr1.sized pr hpr _ hready'.incoming)
    · rw [Names.congr (hgeo2 q), Names.congr (hgeo2 _)]
      exact hr1.apart pr hpr q ((hheld2 q).mp hq) hqne row
  · rintro _ σ' ⟨done, hrun, hinv, hr1, hgeo, hheld⟩
    rw [append_nil] at hrun
    subst hrun
    exact ⟨hinv, hgeo, hheld, hr1.ready⟩

theorem returns_handOver (h : Inv host (traded run o) W σ)
    (hr : ∀ pair ∈ run, ∃ inPage outPage, Ready s σ pair inPage outPage)
    (hpairs : run.Pairwise Pair.Apart) :
    Returns (run.forM (handOver s)) (fun _ σ' => Inv host o W σ' ∧
      (∀ q, σ'.geometry q = σ.geometry q) ∧ ∀ q, Held σ' s q →
        (∃ pair ∈ run, q = pair.incoming) ∨ Held σ s q ∧ ∀ pair ∈ run, q ≠ pair.outgoing) σ := by
  induction run generalizing σ with
  | nil => exact ⟨h, fun _ => rfl, fun q hq => .inr ⟨hq, by simp⟩⟩
  | cons pair run ih =>
    obtain ⟨hapart, hpairs'⟩ := pairwise_cons.mp hpairs
    obtain ⟨inPage, outPage, hready⟩ := hr pair (mem_cons_self ..)
    show wp (handOver s pair >>= fun _ => run.forM _) _ _ _
    unfold handOver
    simp only [wp_bind, wp_modify, hready.incoming, hready.outgoing]
    have hinv := Inv.handOver h hready
    generalize hσ₁ : ((σ.put pair.outgoing
      { outPage with payload := inPage.payload, deferred := false }).put pair.incoming
      { inPage.releasePayload with source := some s, deferred := true }) = σ₁ at hinv ⊢
    -- pages of other pairs are untouched
    have hother : ∀ q, q ≠ pair.incoming → q ≠ pair.outgoing →
        (σ₁.trackLocked s pair.incoming).pages q = σ.pages q := by
      intro q h1 h2
      obtain ⟨source, heq, -⟩ := trackLocked_eq σ₁ s pair.incoming
      rw [heq]
      show σ₁.pages q = _
      rw [← hσ₁, put_pages_ne h1, put_pages_ne h2]
    have hgeo : ∀ q, (σ₁.trackLocked s pair.incoming).geometry q = σ.geometry q := by
      intro q
      rw [geometry_trackLocked, ← hσ₁]
      have hp : (σ.put pair.outgoing { outPage with
          payload := inPage.payload, deferred := false }).pages pair.incoming = some inPage := by
        rw [put_pages_ne hready.ne.symm]
        exact hready.incoming
      exact (geometry_put hp (by rfl) (by rfl)).trans (geometry_put hready.outgoing (by rfl) (by rfl))
    refine (ih hinv (fun pr hpr => ?_) hpairs').mono fun _ σ' ⟨hinv', hgeo', hheld'⟩ => ?_
    · obtain ⟨h1, h2, h3, h4⟩ := hapart pr hpr
      obtain ⟨inPage', outPage', hready'⟩ := hr pr (mem_cons_of_mem _ hpr)
      refine ⟨inPage', outPage', ?_, ?_, hready'.filled, hready'.held, hready'.first, hready'.rows⟩
      · rw [hother _ h1.symm h3.symm]
        exact hready'.incoming
      · rw [hother _ h2.symm h4.symm]
        exact hready'.outgoing
    refine ⟨hinv', fun q => (hgeo' q).trans (hgeo q), fun q hq => ?_⟩
    rcases hheld' q hq with ⟨pr, hpr, rfl⟩ | ⟨hq1, hnot⟩
    · exact .inl ⟨pr, mem_cons_of_mem _ hpr, rfl⟩
    by_cases hin : q = pair.incoming
    · exact .inl ⟨pair, mem_cons_self .., hin⟩
    obtain ⟨page, hpage, hs⟩ := hq1
    have hout : q ≠ pair.outgoing := by
      rintro rfl
      obtain ⟨source, heq, -⟩ := trackLocked_eq σ₁ s pair.incoming
      rw [heq] at hpage
      have hpage : σ₁.pages pair.outgoing = some page := hpage
      rw [← hσ₁, put_pages_ne hin, put_pages_self] at hpage
      cases hpage
      exact absurd hs (by simp [not_holds_of_not_deferred])
    rw [hother q hin hout] at hpage
    refine .inr ⟨⟨page, hpage, hs⟩, fun pr hpr => ?_⟩
    rcases mem_cons.mp hpr with rfl | hpr
    · exact hout
    · exact hnot pr hpr

/-! ## The pairs -/

/-- What `pairUp` promises: each page is in one pair, incoming pages are of the history and
    outgoing ones are of `outgoing`, and a pair's pages name the same rows. -/
structure Paired (σ : State Row Codes) (outgoing incoming : List Nat) (pairs : List Pair) : Prop where
  ins : (pairs.map Pair.incoming).Sublist incoming
  outs : (pairs.map Pair.outgoing).Nodup
  fromOutgoing : ∀ pair ∈ pairs, pair.outgoing ∈ outgoing
  geometry : ∀ pair ∈ pairs, σ.first pair.outgoing = σ.first pair.incoming ∧
    σ.rows pair.outgoing = σ.rows pair.incoming

theorem partnerOf_some {outgoing paired : List Nat} {out : Nat}
    (h : partnerOf σ outgoing paired p = some out) : out ∈ outgoing ∧ out ∉ paired ∧
      σ.first out = σ.first p ∧ σ.rows out = σ.rows p := by
  unfold partnerOf at h
  generalize hl : (outgoing.dropWhile fun out => byRows σ out p).dropWhile (paired.contains ·) = l at h
  match l with
  | [] => cases h
  | out' :: tail =>
    simp only [ite_none_right_eq_some, Option.some.injEq] at h
    obtain ⟨hgeo, rfl⟩ := h
    refine ⟨?_, ?_, hgeo⟩
    · have h1 := (dropWhile_sublist (paired.contains ·) (l := outgoing.dropWhile fun out => byRows σ out p)).subset
      rw [hl] at h1
      exact (dropWhile_sublist _).subset (h1 (mem_cons_self ..))
    · have := head?_dropWhile_not (paired.contains ·) (outgoing.dropWhile fun out => byRows σ out p)
      rw [hl] at this
      simpa using this

theorem pairUp_paired {t : Nat} {outgoing paired incoming : List Nat} :
    Paired σ outgoing incoming (pairUp host t σ outgoing paired incoming) ∧
      ∀ pair ∈ pairUp host t σ outgoing paired incoming, pair.outgoing ∉ paired := by
  induction incoming generalizing paired with
  | nil => exact ⟨⟨List.Sublist.refl _, nodup_nil, by simp [pairUp], by simp [pairUp]⟩, by simp [pairUp]⟩
  | cons p incoming ih =>
    have hskip : Paired σ outgoing (p :: incoming) (pairUp host t σ outgoing paired incoming) ∧
        ∀ pair ∈ pairUp host t σ outgoing paired incoming, pair.outgoing ∉ paired :=
      ⟨{ (@ih paired).1 with ins := (@ih paired).1.ins.cons p }, (@ih paired).2⟩
    unfold pairUp
    split
    · split
      · next out hout =>
        obtain ⟨hmem, hnot, hgeo⟩ := partnerOf_some hout
        obtain ⟨h, hfresh⟩ := @ih _
        refine ⟨⟨h.ins.cons_cons p, ?_, fun pair hp => ?_, fun pair hp => ?_⟩, fun pair hp => ?_⟩
        · rw [map_cons, nodup_cons]
          refine ⟨fun hin => ?_, h.outs⟩
          obtain ⟨pair, hp, heq⟩ := List.mem_map.mp hin
          exact hfresh pair hp (heq ▸ mem_cons_self ..)
        · rcases mem_cons.mp hp with rfl | hp
          · exact hmem
          · exact h.fromOutgoing pair hp
        · rcases mem_cons.mp hp with rfl | hp
          · exact hgeo
          · exact h.geometry pair hp
        · rcases mem_cons.mp hp with rfl | hp
          · exact hnot
          · exact fun hin => hfresh pair hp (mem_cons_of_mem _ hin)
      · exact hskip
    · exact hskip

theorem runsFrom_flatten {lo hi : Nat} : (runsFrom σ lo hi run pairs).flatten = run ++ pairs := by
  induction pairs generalizing lo hi run with
  | nil => simp [runsFrom]
  | cons pair pairs ih =>
    unfold runsFrom
    split
    · rw [ih, append_assoc, singleton_append]
    · rw [flatten_cons, ih, singleton_append]

theorem runs_flatten : (runs σ pairs).flatten = pairs := by
  cases pairs with
  | nil => rfl
  | cons pair pairs => exact runsFrom_flatten

/-! ## The whole exchange -/

/-- The restored history: its pages are alive and have no row in common. -/
structure History (σ : State Row Codes) (incoming : List Nat) : Prop where
  once : incoming.Nodup
  apart : ∀ a ∈ incoming, ∀ b ∈ incoming, a ≠ b → ∀ row, σ.Names a row → ¬ σ.Names b row

/-- Pairs still to trade: their outgoing pages and pages of the history are all that the planes hold. -/
structure Trading (host : Host Row Codes) (o : Nat → Option (List Row)) (W : Nat → Nat → Prop)
    (s : Nat) (incoming : List Nat) (σ₀ : State Row Codes) (pairs : List Pair)
    (σ : State Row Codes) : Prop where
  inv : Inv host o W σ
  geometry : ∀ q, σ.geometry q = σ₀.geometry q
  held : ∀ q, Held σ s q → q ∈ incoming ∨ ∃ pair ∈ pairs, q = pair.outgoing

/-- The pairs themselves, as found in `σ₀`. -/
structure Pairing (σ₀ : State Row Codes) (incoming : List Nat) (pairs : List Pair) : Prop where
  ins : (pairs.map Pair.incoming).Nodup
  outs : (pairs.map Pair.outgoing).Nodup
  inHistory : ∀ pair ∈ pairs, pair.incoming ∈ incoming
  outside : ∀ pair ∈ pairs, pair.outgoing ∉ incoming
  geometry : ∀ pair ∈ pairs, σ₀.geometry pair.outgoing = σ₀.geometry pair.incoming

namespace Pairing

theorem sublist (h : Pairing σ₀ incoming pairs) (hs : run.Sublist pairs) : Pairing σ₀ incoming run :=
  ⟨h.ins.sublist (hs.map _), h.outs.sublist (hs.map _), fun pr hp => h.inHistory pr (hs.subset hp),
    fun pr hp => h.outside pr (hs.subset hp), fun pr hp => h.geometry pr (hs.subset hp)⟩

theorem apart (h : Pairing σ₀ incoming pairs) : pairs.Pairwise Pair.Apart := by
  have h1 := pairwise_map.mp h.ins
  have h2 := pairwise_map.mp h.outs
  refine Pairwise.imp_of_mem (fun {a b} ha hb hab => ?_) (h1.and h2)
  refine ⟨hab.1, fun heq => ?_, fun heq => ?_, hab.2⟩
  · exact h.outside b hb (heq ▸ h.inHistory a ha)
  · exact h.outside a ha (heq ▸ h.inHistory b hb)

end Pairing

section
variable (ht : Trading host o W s incoming σ₀ (run ++ rest) σ) (hp : Pairing σ₀ incoming (run ++ rest)) (hist : History σ₀ incoming)
include ht hp hist

theorem Trading.runReady
    (hin : ∀ pair ∈ run, ∃ page, σ.pages pair.incoming = some page ∧ page.deferred = false ∧
      page.payload.length = page.rows)
    (hout : ∀ pair ∈ run, Held σ s pair.outgoing) : RunReady s σ run := by
  have hmem : ∀ {pair}, pair ∈ run → pair ∈ run ++ rest := fun h => mem_append_left _ h
  refine ⟨fun pair hpair => ?_, fun pair hpair page hpage => ?_,
    fun pair hpair q hq hne row hrow hrow' => ?_, (hp.sublist (sublist_append_left ..)).apart⟩
  · obtain ⟨page, h1, hd, -⟩ := hin pair hpair
    obtain ⟨page', h2, hs⟩ := hout pair hpair
    have hgeo := hp.geometry pair (hmem hpair)
    rw [← ht.geometry, ← ht.geometry, geometry_some h1, geometry_some h2] at hgeo
    obtain ⟨hf, hr⟩ := Prod.mk.inj (some.inj hgeo)
    exact ⟨page, page', h1, h2, hd, hs, hf, hr⟩
  · obtain ⟨page', h1, -, hlen⟩ := hin pair hpair
    obtain rfl := mem_unique hpage h1
    exact hlen
  · -- `a` is the page of the history with the rows of `q`
    have hclash : ∀ a ∈ incoming, a ≠ pair.incoming → ¬ σ₀.Names a row := fun a ha hane hrow₀ =>
      hist.apart a ha pair.incoming (hp.inHistory pair (hmem hpair)) hane row hrow₀
        ((Names.congr (ht.geometry _)).mp hrow')
    rcases ht.held q hq with hqin | ⟨other, hother, rfl⟩
    · refine hclash q hqin (fun heq => ?_) ((Names.congr (ht.geometry _)).mp hrow)
      -- an incoming page is filled, so it is not held
      obtain ⟨page, h1, hd, -⟩ := hin pair hpair
      obtain ⟨page', h2, hs⟩ := hq
      rw [heq, h1] at h2
      cases h2
      exact absurd hs (by simp [not_holds_of_not_deferred hd])
    refine hclash other.incoming (hp.inHistory other hother) (fun heq => hne ?_) ?_
    · rw [inj_on_of_nodup_map hp.ins hother (hmem hpair) heq]
    · exact (Names.congr ((ht.geometry _).trans (hp.geometry other hother))).mp hrow

theorem returns_exchangeRun :
    Returns (exchangeRun host s run) (fun _ σ' => Trading host o W s incoming σ₀ rest σ') σ := by
  have htick : Trading host o W s incoming σ₀ (run ++ rest) { σ with clock := σ.clock + 1 } :=
    ⟨ht.inv.tick, ht.geometry, ht.held⟩
  have hrun := hp.sublist (sublist_append_left run rest)
  unfold exchangeRun Returns
  simp only [wp_bind, wp_get, wp_ask]
  split
  · next hvalid =>
    have hall : ∀ pair ∈ run, (∃ page, σ.pages pair.incoming = some page ∧ page.deferred = false ∧
        page.payload.length = page.rows) ∧ Held σ s pair.outgoing := by
      intro pair hpair
      obtain ⟨h1, h2⟩ := Bool.and_eq_true_iff.mp (List.all_eq_true.mp hvalid pair hpair)
      obtain ⟨page, hpage, hex⟩ := satisfies_iff.mp h1
      simp only [Bool.and_eq_true, Bool.not_eq_true', Page.sized, beq_iff_eq] at hex
      exact ⟨⟨page, hpage, hex.1.1.2, hex.2⟩, satisfies_iff.mp h2⟩
    have hready := htick.runReady hp hist (fun pr h => (hall pr h).1) fun pr h => (hall pr h).2
    refine (returns_swapRows htick.inv hready).bind fun _ σ₁ ⟨hinv1, hgeo1, hheld1, hready1⟩ => ?_
    refine (returns_handOver hinv1 hready1 hrun.apart).mono fun _ σ₂ ⟨hinv2, hgeo2, hheld2⟩ => ?_
    refine ⟨hinv2, fun q => ((hgeo2 q).trans (hgeo1 q)).trans (ht.geometry q), fun q hq => ?_⟩
    rcases hheld2 q hq with ⟨pair, hpair, rfl⟩ | ⟨hq1, hnot⟩
    · exact .inl (hrun.inHistory pair hpair)
    rcases ht.held q ((hheld1 q).mp hq1) with hin | ⟨pair, hpair, rfl⟩
    · exact .inl hin
    rcases mem_append.mp hpair with hpair | hpair
    · exact absurd rfl (hnot pair hpair)
    · exact .inr ⟨pair, hpair, rfl⟩
  -- the planes stay unchanged for these rows
  refine (returns_fillLocked htick.inv (hrun.outs.filter _) fun p hp => ?_).mono fun _ σ₁ hl => ?_
  · exact satisfies_iff.mp (mem_filter.mp hp).2
  refine ⟨hl.refit.inv, fun q => hl.refit.geometry.trans (ht.geometry q), fun q hq => ?_⟩
  have hq0 : Held σ s q := hl.refit.held hq
  rcases ht.held q hq0 with hin | ⟨pair, hpair, rfl⟩
  · exact .inl hin
  rcases mem_append.mp hpair with hpair | hpair
  · refine absurd hq (hl.gone _ (mem_filter.mpr ⟨?_, satisfies_iff.mpr hq0⟩) (by simp))
    exact List.mem_map.mpr ⟨pair, hpair, rfl⟩
  · exact .inr ⟨pair, hpair, rfl⟩

end

theorem returns_runs {l : List (List Pair)} (ht : Trading host o W s incoming σ₀ l.flatten σ)
    (hp : Pairing σ₀ incoming l.flatten) (hist : History σ₀ incoming) :
    Returns (l.forM (exchangeRun host s)) (fun _ σ' => Trading host o W s incoming σ₀ [] σ') σ := by
  refine Returns.mono (wp_forM (I := fun rest σ' => Pairing σ₀ incoming rest.flatten ∧
    Trading host o W s incoming σ₀ rest.flatten σ') ?_ ⟨hp, ht⟩) fun _ _ h => h.2
  intro run rest σ₁ ⟨hp1, ht1⟩
  refine (returns_exchangeRun ht1 hp1 hist).mono fun _ σ₂ ht2 => ⟨?_, ht2⟩
  exact hp1.sublist (sublist_append_right ..)

/-- `exchange`: afterwards the planes hold pages of the history only. -/
theorem returns_exchange (h : Inv host o W σ) (hist : History σ incoming)
    (hlive : ∀ p ∈ incoming, ∃ page, σ.pages p = some page) :
    Returns (exchange host s incoming) (fun _ σ' => Inv host o W σ' ∧
      (∀ q, σ'.geometry q = σ.geometry q) ∧ ∀ q, Held σ' s q → q ∈ incoming) σ := by
  unfold exchange Returns
  simp only [wp_bind, wp_get]
  generalize houtgoing : (σ.collect s fun p page => page.holds s && !incoming.contains p).insertionSort
    (fun a b => ¬ byRows σ b a) = outgoing
  have hmem : ∀ q, q ∈ outgoing ↔ Held σ s q ∧ q ∉ incoming := by
    intro q
    rw [← houtgoing, (perm_insertionSort _ _).mem_iff, mem_collect]
    constructor
    · rintro ⟨-, page, hq, hpred⟩
      simp only [Bool.and_eq_true, Bool.not_eq_true', contains_eq_mem, decide_eq_false_iff_not] at hpred
      exact ⟨⟨page, hq, hpred.1⟩, hpred.2⟩
    · rintro ⟨⟨page, hq, hs⟩, hnot⟩
      exact ⟨h.tracked q page s hq hs, page, hq, by simp [hs, hnot]⟩
  have honce : outgoing.Nodup := by
    rw [← houtgoing, (perm_insertionSort _ _).nodup_iff]
    exact nodup_collect
  split
  · next hempty =>
    rw [List.isEmpty_iff.mp hempty] at hmem
    refine ⟨h, fun _ => rfl, fun q hq => ?_⟩
    by_contra hnot
    cases (hmem q).mpr ⟨hq, hnot⟩
  simp only [wp_bind, wp_ask]
  obtain ⟨hpaired, -⟩ : Paired σ outgoing incoming (pairUp host σ.clock σ outgoing [] incoming) ∧ _ :=
    pairUp_paired
  generalize pairUp host σ.clock σ outgoing [] incoming = found at hpaired ⊢
  generalize hpairs : found.insertionSort (fun a b => σ.first a.incoming ≤ σ.first b.incoming) = pairs
  have hperm : pairs.Perm found := hpairs ▸ perm_insertionSort _ _
  have hpairing : Pairing σ incoming pairs := by
    refine ⟨?_, ?_, fun pair hp => ?_, fun pair hp => ?_, fun pair hp => ?_⟩
    · exact ((hperm.map _).nodup_iff).mpr (hist.once.sublist hpaired.ins)
    · exact ((hperm.map _).nodup_iff).mpr hpaired.outs
    · exact hpaired.ins.subset (List.mem_map.mpr ⟨pair, hperm.mem_iff.mp hp, rfl⟩)
    · exact ((hmem _).mp (hpaired.fromOutgoing pair (hperm.mem_iff.mp hp))).2
    · obtain ⟨hf, hr⟩ := hpaired.geometry pair (hperm.mem_iff.mp hp)
      obtain ⟨page, hpage, -⟩ :=
        ((hmem _).mp (hpaired.fromOutgoing pair (hperm.mem_iff.mp hp))).1
      obtain ⟨page', hpage'⟩ := hlive pair.incoming
        (hpaired.ins.subset (List.mem_map.mpr ⟨pair, hperm.mem_iff.mp hp, rfl⟩))
      simp only [State.first, State.rows, hpage, hpage', elim_some] at hf hr
      rw [geometry_some hpage, geometry_some hpage', hf, hr]
  refine (returns_fillLocked h.tick (honce.filter _) fun p hp => ?_).mono fun _ σ₁ hl => ?_
  · exact ((hmem p).mp (mem_filter.mp hp).1).1
  have ht : Trading host o W s incoming σ (runs σ pairs).flatten σ₁ := by
    rw [runs_flatten]
    refine ⟨hl.refit.inv, fun q => hl.refit.geometry, fun q hq => ?_⟩
    by_cases hin : q ∈ incoming
    · exact .inl hin
    -- an outgoing page that was not filled is paired
    right
    have hq0 : Held σ s q := hl.refit.held hq
    by_contra hnone
    refine hl.gone q (mem_filter.mpr ⟨(hmem q).mpr ⟨hq0, hin⟩, ?_⟩) (by simp) hq
    simp only [Bool.not_eq_true', contains_eq_mem, decide_eq_false_iff_not, List.mem_map]
    rintro ⟨pair, hpair, heq⟩
    exact hnone ⟨pair, hpair, heq.symm⟩
  refine (returns_runs ht (by rw [runs_flatten]; exact hpairing) hist).mono fun _ σ₂ ht2 => ?_
  refine ⟨ht2.inv, ht2.geometry, fun q hq => ?_⟩
  rcases ht2.held q hq with hin | ⟨pair, hpair, -⟩
  · exact hin
  · cases hpair

end VoidInfer.Exl3.LaneKv
