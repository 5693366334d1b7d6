import VoidInfer.Exl3.LaneKvFill

/-
  What each call on a source keeps: re-homing (`defer`, `adopt`), filling (`materialize_from`, `materialize_except`,
  `materialize`), relief, copies to other planes, and the exchange of one history for another.
-/

namespace VoidInfer.Exl3.LaneKv
open List Option

open Window Throwing

variable {Row Codes : Type} {host : Host Row Codes} {o o' : Nat → Option (List Row)}
 {W : Nat → Nat → Prop} {σ σ' σ'' : State Row Codes} {page page' : Page Row Codes}
 {rs : List Row} {p q s n : Nat} {P pages rest : List Nat}

/-! ## Re-homing -/

theorem Inv.rehome (h : Inv host o W σ) (hp : σ.pages p = some page) (ho : o p = some rs)
    (hlen : rs.length = page.rows) (hrows : σ.planeRows s page = rs)
    (hguard : ∀ row, page.Covers row → ¬ W s row)
    (h1 : page'.first = page.first) (h2 : page'.rows = page.rows) (h3 : page'.spill = page.spill) :
    Inv host o W (σ.rehome s p page') := by
  have hcovers : ∀ row, page'.Covers row → page.Covers row := by
    simp only [Page.Covers, h1, h2]
    exact fun _ h => h
  refine Inv.track (h.core.putReset hp h3 ho (homed_planes (s := s) ?_ ?_ ?_) rfl fun t ht row hrow => ?_)
    h.tracked fun t ht => ?_
  · exact hlen.trans h2.symm
  · exact holds_iff.mpr ⟨rfl, rfl, rfl, rfl⟩
  · show window _ page'.first page'.rows = rs
    rw [h1, h2]
    exact hrows
  · obtain rfl : s = t := some.inj (holds_iff.mp ht).1
    exact hguard row (hcovers row hrow)
  · exact (some.inj (holds_iff.mp ht).1).symm

theorem Inv.deferFresh (h : Inv host o W σ) (hspill : page.spill = none)
    (ho : o' p = some (σ.planeRows s page)) (hoo : ∀ q, q ≠ p → o' q = o q)
    (hguard : ∀ row, page.Covers row → ¬ W s row) :
    Inv host o' W ((σ.put p page).rehome s p { page with codes := none }) := by
  unfold State.rehome
  have hstore : (resetSpill ({ page with codes := none } : Page Row Codes).releasePayload
      (σ.put p page).store).2 = σ.store := by
    simp [resetSpill, Page.releasePayload, Page.dropPacked, hspill, State.put]
  simp only [hstore]
  have hput : ∀ page', ({ σ.put p page with store := σ.store } : State Row Codes).put
      p page' = σ.put p page' := fun page' => by simp [State.put]
  rw [hput]
  refine Inv.track (h.core.put ho hoo (homed_planes ?_ ?_ rfl) (fun n hn => ?_)
    fun t ht row hrow => ?_) h.tracked fun t ht => ?_
  · exact length_window
  · exact holds_iff.mpr ⟨rfl, rfl, rfl, rfl⟩
  · exact absurd hn (by simp [resetSpill])
  · obtain rfl : s = t := some.inj (holds_iff.mp ht).1
    exact hguard row hrow
  · exact (some.inj (holds_iff.mp ht).1).symm

/-- First row and rows of a page: they never change. -/
def State.geometry (σ : State Row Codes) (p : Nat) : Option (Nat × Nat) :=
  (σ.pages p).map fun page => (page.first, page.rows)

/-- A page alive names the row. -/
def State.Names (σ : State Row Codes) (p row : Nat) : Prop :=
  ∃ page, σ.pages p = some page ∧ page.Covers row

theorem geometry_some (hp : σ.pages p = some page) :
    σ.geometry p = some (page.first, page.rows) := by simp [State.geometry, hp]

theorem geometry_put (hp : σ.pages p = some page) (h1 : page'.first = page.first)
    (h2 : page'.rows = page.rows) : (σ.put p page').geometry q = σ.geometry q := by
  by_cases hq : q = p
  · subst hq
    rw [geometry_some hp, geometry_some put_pages_self, h1, h2]
  · simp only [State.geometry, put_pages_ne hq]

theorem geometry_trackLocked : (σ.trackLocked s p).geometry = σ.geometry := by
  obtain ⟨source, heq, -⟩ := trackLocked_eq σ s p
  rw [heq]
  rfl

theorem planes_trackLocked : (σ.trackLocked s p).planes = σ.planes := by
  obtain ⟨source, heq, -⟩ := trackLocked_eq σ s p
  rw [heq]
  rfl

theorem Refit.geometry (h : Refit host o W P σ σ') : σ'.geometry q = σ.geometry q := by
  cases hq : σ.pages q with
  | none => simp [State.geometry, hq, h.dead q hq]
  | some page =>
    obtain ⟨page', hq', ht⟩ := h.pages q page hq
    rw [geometry_some hq, geometry_some hq', ht.first, ht.rows]

variable {row : Nat} {pred : Nat → Page Row Codes → Bool} {blob : List UInt8}
  {I : State Row Codes → Prop} {f : Nat → M Row Codes Unit}

theorem names_iff : σ.Names p row ↔ ∃ g, σ.geometry p = some g ∧ g.1 ≤ row ∧ row < g.1 + g.2 := by
  constructor
  · rintro ⟨page, hp, hrow⟩
    exact ⟨_, geometry_some hp, hrow⟩
  · rintro ⟨g, hg, hrow⟩
    obtain ⟨page, hp, rfl⟩ := map_eq_some_iff.mp hg
    exact ⟨page, hp, hrow⟩

theorem Names.congr (hg : σ'.geometry q = σ.geometry p) : σ'.Names q row ↔ σ.Names p row := by
  rw [names_iff, names_iff, hg]

theorem geometry_rehome (hp : σ.pages p = some page) (h1 : page'.first = page.first)
    (h2 : page'.rows = page.rows) : (σ.rehome s p page').geometry q = σ.geometry q := by
  unfold State.rehome
  rw [geometry_trackLocked]
  have hp' : ({ σ with store := (resetSpill page'.releasePayload σ.store).2 } :
    State Row Codes).pages p = some page := hp
  exact geometry_put hp' h1 h2

theorem planes_rehome : (σ.rehome s p page).planes = σ.planes := by
  unfold State.rehome
  rw [planes_trackLocked]
  rfl

theorem returns_adopt (h : Inv host o W σ)
    (hrows : ∀ p ∈ pages, ∀ page, σ.pages p = some page → o p = some (σ.planeRows s page))
    (hguard : ∀ p ∈ pages, ∀ row, σ.Names p row → ¬ W s row) :
    Returns (adopt host s pages) (fun _ σ' => Inv host o W σ' ∧ ∀ q, σ'.geometry q = σ.geometry q) σ := by
  refine Returns.mono (wp_forM (I := fun rest σ' => rest ⊆ pages ∧ Inv host o W σ' ∧
    σ'.planes = σ.planes ∧ ∀ q, σ'.geometry q = σ.geometry q) ?_
    ⟨fun _ h => h, h, rfl, fun _ => rfl⟩) fun _ _ hr => ⟨hr.2.1, hr.2.2.2⟩
  intro p rest σ₁ ⟨hsub, hinv, hplanes, hgeo⟩
  have hsub' : rest ⊆ pages := fun q hq => hsub (mem_cons_of_mem _ hq)
  have hmem : p ∈ pages := hsub (mem_cons_self ..)
  unfold adoptOne
  simp only [wp_bind, wp_get]
  cases hp : σ₁.pages p with
  | none => exact ⟨hsub', hinv, hplanes, hgeo⟩
  | some page =>
    simp only
    split
    · exact ⟨hsub', hinv, hplanes, hgeo⟩
    simp only [wp_bind, wp_ask]
    split
    · exact ⟨hsub', hinv.tick, hplanes, hgeo⟩
    -- the rows of the page in the planes are those it was deferred with
    have hnames : ∀ row, page.Covers row → σ.Names p row := fun row hrow =>
      (Names.congr (hgeo p)).mp ⟨page, hp, hrow⟩
    have ho : o p = some (σ₁.planeRows s page) := by
      have hg := (hgeo p).symm
      rw [geometry_some hp] at hg
      obtain ⟨page₀, hp₀, heq⟩ := map_eq_some_iff.mp hg
      obtain ⟨h1, h2⟩ := Prod.mk.inj heq
      rw [hrows p hmem page₀ hp₀, State.planeRows, State.planeRows, hplanes, h1, h2]
    refine ⟨hsub', ?_, ?_, fun q => ?_⟩
    · exact hinv.tick.rehome hp ho length_window rfl (fun row hrow => hguard p hmem row (hnames row hrow)) rfl rfl rfl
    · exact planes_rehome.trans hplanes
    · have htick : ({ σ₁ with clock := σ₁.clock + 1 } : State Row Codes).pages p = some page := hp
      exact (geometry_rehome htick rfl rfl).trans (hgeo q)

/-! ## Filling -/

theorem nodup_collect : (σ.collect s pred).Nodup :=
  nodup_uniquePages

theorem returns_fillWhere (h : Inv host o W σ) :
    Returns (fillWhere host s pred) (fun _ σ' => Inv host o W σ' ∧ σ'.planes = σ.planes ∧
      (∀ q, σ'.geometry q = σ.geometry q) ∧
      ∀ q page', σ'.pages q = some page' → page'.holds s = true → ∃ page, σ.pages q = some page ∧
        pred q page = false ∧ page'.first = page.first ∧ page'.rows = page.rows) σ := by
  unfold fillWhere Returns
  simp only [wp_bind, wp_get]
  refine (returns_fillLocked h nodup_collect fun p hp => ?_).mono fun _ σ₁ hl => ?_
  · obtain ⟨-, page, hp, hpred⟩ := mem_collect.mp hp
    exact ⟨page, hp, (Bool.and_eq_true_iff.mp hpred).1⟩
  refine ⟨hl.refit.inv.pruneLocked, hl.refit.planes, fun q => hl.refit.geometry, fun q page' hq hs => ?_⟩
  obtain ⟨page, hq', ht⟩ := hl.refit.back hq
  refine ⟨page, hq', ?_, ht.first, ht.rows⟩
  by_contra hpred
  refine hl.gone q (mem_collect.mpr ⟨?_, page, hq', ?_⟩) (by simp) ⟨page', hq, hs⟩
  · exact h.tracked q page s hq' (ht.held s hs)
  · simpa [ht.held s hs] using hpred

theorem wp_unpackToPayloadLocked (h : Inv host o W σ) (hp : σ.pages p = some page)
    (hrows : ∀ codes, page.codes = some codes → o p = some (host.unpack codes page.rows blob)) :
    wp (unpackToPayloadLocked host p page blob) (fun _ σ' => Refit host o W [p] σ σ')
      (fun _ σ' => Refit host o W [p] σ σ') σ := by
  unfold unpackToPayloadLocked
  cases hc : page.codes with
  | none => exact Refit.refl h
  | some codes =>
    refine Refit.putReset h hp rfl (fun rs ho hh => ?_) rfl rfl (fun s => not_holds_of_not_deferred rfl) rfl
    rw [hrows codes hc] at ho
    exact homed_payload hh.length rfl rfl rfl (some.inj ho)

theorem wp_materialize (h : Inv host o W σ) :
    wp (materialize host s p) (fun _ σ' => Refit host o W [p] σ σ') (fun _ σ' => Refit host o W [p] σ σ') σ := by
  unfold materialize
  simp only [wp_bind, wp_get]
  cases hp : σ.pages p with
  | none => exact Refit.refl h
  | some page =>
    obtain ⟨rs, ho, hh⟩ := h.core.home p page hp
    simp only
    split
    · next hs =>
      simp only [Page.spilledHere, Page.spilled, Bool.and_eq_true, isSome_iff_exists] at hs
      obtain ⟨-, n, hn⟩ := hs
      rw [hn, getD_some]
      unfold unspillLocked read
      simp only [wp_bind, wp_ask, wp_get]
      split
      · simp only [wp_pure]
        split
        · next hb =>
          obtain ⟨codes, hc, hrows⟩ := hh.slot_blob hn hb
          refine wp_mono (wp_unpackToPayloadLocked h.tick hp fun codes' hc' => ?_)
            (fun _ _ hr => (Refit.tick h).trans hr) fun _ _ hr => (Refit.tick h).trans hr
          obtain rfl := mem_unique hc hc'
          rw [hrows]
          exact ho
        next hb =>
        refine (Refit.tick h).trans (Refit.putReset h.tick hp rfl (fun rs' ho' hh' => ?_) rfl rfl
          (fun s => not_holds_of_not_deferred rfl) rfl)
        refine homed_payload hh'.length rfl rfl (hh'.spilled_only hn).2 ?_
        exact hh'.slot_rows hn (by simpa using hb)
      · exact Refit.tick h
    split
    · next hs =>
      simp only [Page.packedHere, Bool.and_eq_true] at hs
      obtain ⟨codes, hc, hrows⟩ := hh.packed_rows hs.2
      refine wp_unpackToPayloadLocked h hp fun codes' hc' => ?_
      obtain rfl := mem_unique hc hc'
      rw [hrows]
      exact ho
    split
    · next hs =>
      exact wp_mono (returns_fillLocked h (nodup_singleton p)
        (by simpa using ⟨page, hp, hs⟩)) (fun _ _ hl => hl.refit) fun _ _ h => h.elim
    · exact Refit.refl h

variable {l : List Nat} {extra d : Nat}

/-! ## Relief -/

theorem returns_forM (hf : ∀ a σ, I σ → Returns (f a) (fun _ => I) σ) (h : I σ) : Returns (l.forM f) (fun _ => I) σ :=
  wp_forM (I := fun _ σ' => I σ') (fun a _ σ' hI => hf a σ' hI) h

section
variable (h : Inv host o W σ)
include h

theorem returns_spillBatches {l : List (List Nat)} :
    Returns (spillBatches host s extra l) (fun _ => Inv host o W) σ := by
  induction l generalizing σ with
  | nil => exact h
  | cons pages l ih =>
    unfold spillBatches Returns
    simp only [wp_bind, wp_ask]
    split
    · refine Returns.bind (returns_forM (fun p σ₁ h₁ => ?_) h.tick) fun _ σ₁ h₁ => ih h₁
      exact (returns_spillOne h₁).mono fun _ _ hr => hr.inv
    · exact h.tick

theorem returns_spillFilled : Returns (spillFilled host s extra) (fun _ => Inv host o W) σ :=
  returns_spillBatches h

theorem returns_releaseRows {keep : Nat}
    (hkeep : ∀ p page, σ.pages p = some page → page.holds s = true → page.first + page.rows ≤ keep) :
    Returns (releaseRows host s keep) (fun _ => Inv host o W) σ := by
  unfold releaseRows Returns
  refine ⟨h.tick.core.planes fun p page t hp ht row hrow => ?_, h.tracked⟩
  by_cases hts : t = s
  · subst hts
    have := hkeep p page hp ht
    rw [Function.update_self, if_pos]
    unfold Page.Covers at hrow
    omega
  · rw [Function.update_of_ne hts]

theorem Inv.bind {owner : Option Owner} : Inv host o W (σ.setSource s { σ.sources s with bound := owner }) :=
  h.setSource fun _ _ _ _ hin => hin

theorem deferredBeyond_false (hb : σ.deferredBeyond s 0 = false)
    (hp : σ.pages p = some page) (hs : page.holds s = true) : page.first + page.rows ≤ 0 := by
  have hin := h.tracked p page s hp hs
  have := List.any_eq_false.mp hb p hin
  by_contra hpos
  exact this (satisfies_iff.mpr ⟨page, hp, by simp [hs]; omega⟩)

theorem returns_relieveIdle : Returns (relieveIdle host s extra) (fun _ => Inv host o W) σ := by
  unfold relieveIdle Returns
  simp only [wp_bind, wp_get]
  split
  · simp only [wp_bind, LaneKv.bind, wp_modify, wp_finally, wp_ask]
    refine wp_mono (returns_fillWhere h.bind.tick) (fun _ σ₁ h1 => ?_) fun _ _ h => h.elim
    refine wp_mono (returns_spillFilled h1.1) (fun _ σ₂ h2 => ?_) fun _ _ h => h.elim
    rw [wp_get]
    beta_reduce
    split
    · next hb =>
      exact wp_mono (returns_releaseRows h2 fun p page hp hs => deferredBeyond_false h2 hb.1 hp hs)
        (fun _ σ₃ h3 => h3.bind) fun _ _ h => h.elim
    · exact h2.bind
  · exact h

end

theorem returns_whilePressed {relieve : Nat → M Row Codes Unit}
    (hf : ∀ s σ, Inv host o W σ → Returns (relieve s) (fun _ => Inv host o W) σ)
    (h : Inv host o W σ) :
    Returns (whilePressed host extra relieve l) (fun _ => Inv host o W) σ := by
  induction l generalizing σ with
  | nil => exact h
  | cons s l ih =>
    refine (hf s σ h).bind fun _ σ₁ h1 => ?_
    unfold Returns
    simp only [wp_bind, wp_ask]
    split
    · exact ih h1.tick
    · exact h1.tick

theorem returns_relieveNow (h : Inv host o W σ) : Returns (relieveNow host extra) (fun _ => Inv host o W) σ := by
  unfold relieveNow Returns
  simp only [wp_bind, wp_ask, wp_get]
  split
  · refine Returns.bind (returns_whilePressed (fun s σ' h' => returns_spillFilled h') h.tick) fun pressed σ₁ h1 => ?_
    split
    · exact Returns.bind (returns_whilePressed (fun s σ' h' => returns_relieveIdle h') h1) fun _ σ₂ h2 => h2
    · exact h1
  · exact h.tick

theorem le_foldl_max {a : Nat} : a ≤ l.foldl max a ∧ ∀ x ∈ l, x ≤ l.foldl max a := by
  induction l generalizing a with
  | nil => exact ⟨le_rfl, by simp⟩
  | cons b l ih =>
    obtain ⟨h1, h2⟩ := ih (a := max a b)
    refine ⟨by rw [foldl_cons]; omega, fun x hx => ?_⟩
    rcases mem_cons.mp hx with rfl | hx
    · rw [foldl_cons]
      omega
    · exact h2 x hx

theorem returns_releaseUnreferencedRows (h : Inv host o W σ) :
    Returns (releaseUnreferencedRows host s) (fun _ => Inv host o W) σ := by
  unfold releaseUnreferencedRows Returns
  simp only [wp_bind, wp_get]
  split
  · simp only [wp_bind, LaneKv.bind, wp_modify]
    refine wp_mono (returns_releaseRows h.bind fun p page hp hs => ?_) (fun _ σ₁ h1 => h1.bind) fun _ _ h => h.elim
    have hp : σ.pages p = some page := hp
    refine le_foldl_max.2 _ (List.mem_map.mpr ⟨p, mem_filter.mpr
      ⟨h.tracked p page s hp hs, satisfies_iff.mpr ⟨page, hp, hs⟩⟩, ?_⟩)
    simp [State.first, State.rows, hp]
  · exact h

theorem returns_releaseIdle (h : Inv host o W σ) :
    Returns (releaseIdleUnreferencedRows host) (fun _ => Inv host o W) σ := by
  unfold releaseIdleUnreferencedRows Returns
  exact returns_forM (fun s σ' h' => returns_releaseUnreferencedRows h') h

/-! ## Copies to other planes -/

/-- Only planes and the clock changed, and the invariant holds. -/
structure Copied (host : Host Row Codes) (o : Nat → Option (List Row)) (W : Nat → Nat → Prop)
    (σ σ' : State Row Codes) : Prop where
  inv : Inv host o W σ'
  pages : σ'.pages = σ.pages
  store : σ'.store = σ.store

/-- The rows of a page may be overwritten in the planes of `d`. -/
def Writable (W : Nat → Nat → Prop) (d : Nat) (page : Page Row Codes) : Prop :=
  ∀ row, page.Covers row → W d row

section
variable (h : Copied host o W σ σ') (hW : Writable W d page)
include h hW

theorem Copied.write {rows : List Row}
    (hlen : rows.length = page.rows) : Copied host o W σ (σ'.writePlanes d page.first rows) :=
  ⟨h.inv.writePlanes fun row h1 h2 => hW row ⟨h1, by omega⟩, h.pages, h.store⟩

theorem wp_unpackToPlanes
    (hlen : ∀ codes, page.codes = some codes → (host.unpack codes page.rows blob).length = page.rows) :
    wp (unpackToPlanes host d page blob) (fun _ => Copied host o W σ) (fun _ => Copied host o W σ) σ' := by
  unfold unpackToPlanes
  cases hc : page.codes with
  | none => exact h
  | some codes => exact h.write hW (hlen codes hc)

end

theorem wp_readSlotToPlanes (h0 : Inv host o W σ) (h : Copied host o W σ σ')
    (hp : σ.pages p = some page) (hn : page.spill = some n) (hW : Writable W d page) :
    wp (readSlotToPlanes host d page) (fun _ => Copied host o W σ) (fun _ => Copied host o W σ) σ' := by
  obtain ⟨rs, -, hh⟩ := h0.core.home p page hp
  have htick : Copied host o W σ { σ' with clock := σ'.clock + 1 } := ⟨h.inv.tick, h.pages, h.store⟩
  unfold readSlotToPlanes read
  rw [hn, getD_some]
  simp only [wp_bind, wp_ask, wp_get]
  split
  · simp only [wp_pure]
    split
    · next hb =>
      refine wp_unpackToPlanes htick hW fun codes hc => ?_
      obtain ⟨codes', hc', hrows⟩ := hh.slot_blob hn hb
      obtain rfl := mem_unique hc hc'
      rw [h.store, hrows]
      exact hh.length
    next hb =>
    refine htick.write hW ?_
    rw [h.store, hh.slot_rows hn (by simpa using hb)]
    exact hh.length
  · exact htick

theorem wp_parEach {error : Option Exn} (hf : ∀ p ∈ l, ∀ σ, I σ → wp (f p) (fun _ => I) (fun _ => I) σ)
    (h : I σ) : wp (parEach f error l) (fun _ => I) (fun _ => I) σ := by
  induction l generalizing σ error with
  | nil => cases error <;> exact h
  | cons p l ih =>
    unfold parEach
    simp only [wp_bind, wp_tryCatch, wp_pure]
    have htail := fun q hq => hf q (mem_cons_of_mem _ hq)
    exact wp_mono (hf p (mem_cons_self ..) σ h) (fun _ _ h' => ih htail h') fun _ _ h' => ih htail h'

/-- `copy_run_to`, into rows that may be overwritten. -/
theorem wp_copyRunTo {run : List Nat} (h : Inv host o W σ) (hW : ∀ p ∈ run, ∀ row, σ.Names p row → W d row)
    (hrun : ∀ front back row, run.head? = some front → run.getLast? = some back →
      σ.first front ≤ row → row < σ.first back + σ.rows back → W d row) :
    wp (copyRunTo host s run d) (fun _ => Inv host o W) (fun _ => Inv host o W) σ := by
  have hwritable : ∀ p ∈ run, ∀ page, σ.pages p = some page → Writable W d page :=
    fun p hp page hpage row hrow => hW p hp row ⟨page, hpage, hrow⟩
  have h0 : Copied host o W σ σ := ⟨h, rfl, rfl⟩
  unfold copyRunTo
  simp only [wp_bind, wp_get]
  split
  · split
    · exact h
    · rw [wp_bind]
      refine wp_mono (wp_forM (I := fun rest σ' => rest ⊆ run ∧ (∀ p ∈ rest, ∃ page,
        σ.pages p = some page ∧ page.packedHere s = true) ∧ Copied host o W σ σ')
        (E := fun _ σ' => Copied host o W σ σ') ?_ ⟨?_, ?_, h0⟩) (fun _ σ₁ h1 => ?_)
        fun _ _ h1 => h1.inv
      · intro p rest σ₁ ⟨hsub, hpacked, h1⟩
        obtain ⟨page, hp, hs⟩ := hpacked p (mem_cons_self ..)
        simp only [Page.packedHere, Bool.and_eq_true] at hs
        simp only [hp]
        refine wp_imp (wp_unpackToPlanes h1 (hwritable p (hsub (mem_cons_self ..)) page hp) fun codes hc => ?_)
          fun _ σ₂ h2 => ⟨fun q hq => hsub (mem_cons_of_mem _ hq), fun q hq => hpacked q (mem_cons_of_mem _ hq), h2⟩
        obtain ⟨rs, -, hh⟩ := h.core.home p page hp
        obtain ⟨codes', hc', hrows⟩ := hh.packed_rows hs.2
        obtain rfl := mem_unique hc hc'
        rw [hrows]
        exact hh.length
      · exact fun p hp => (mem_filter.mp hp).1
      · exact fun p hp => satisfies_iff.mp (mem_filter.mp hp).2
      obtain ⟨-, -, h1⟩ := h1
      split
      · simp only [wp_bind, wp_pure]
        refine wp_mono (wp_parEach (I := fun σ' => Copied host o W σ σ') (fun p hp σ₂ h2 => ?_) h1)
          (fun _ _ h3 => h3.inv) fun _ _ h3 => h3.inv
        cases hpage : σ.pages p with
        | none => exact h2
        | some page =>
          simp only
          split
          · exact h2
          split
          · next hs =>
            simp only [Page.spilledHere, Page.spilled, Bool.and_eq_true, isSome_iff_exists] at hs
            obtain ⟨-, n, hn⟩ := hs
            exact wp_readSlotToPlanes h h2 hpage hn (hwritable p hp page hpage)
          · exact h2.write (hwritable p hp page hpage) length_window
      split
      · next front back hf hb =>
        have hgeo : ∀ q, σ₁.first q = σ.first q ∧ σ₁.rows q = σ.rows q := fun q => by
          simp only [State.first, State.rows, h1.pages, and_self]
        refine h1.inv.writePlanes fun row hlo hhi => hrun front back row hf hb ?_ ?_
        · rw [(hgeo front).1] at hlo
          exact hlo
        rw [length_window, (hgeo front).1, (hgeo back).1, (hgeo back).2] at hhi
        rw [(hgeo front).1] at hlo
        omega
      · exact h1.inv
  · exact h

end VoidInfer.Exl3.LaneKv
