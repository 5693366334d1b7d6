import VoidInfer.Exl3.LaneKvExchange

/-
  Whole runs. A run makes any sequence of calls on any number of sources and pages, between which contexts write into
  the planes, bind and leave plane sets, and drop pages. Contexts keep a contract: they overwrite rows of the planes
  only where a call allowed it since the last page was published there (`World.writable`), adopt pages whose rows they
  copied into the planes, and restore histories whose pages have no row in common.

  `rows_never_lost`: at every point of a run every page alive is in exactly one place, and the rows read there are those
  it was first deferred with.
-/

namespace VoidInfer.Exl3.LaneKv
open Option
open Function (update update_of_ne update_self)

open Window Throwing Relation

variable {Row Codes : Type}

/-! ## Calls -/

/-- The calls, and what contexts do between them. -/
inductive Call (Row Codes : Type) where
  /-- `create`: a source over planes with any rows in them. -/
  | register (s : Nat) (rows : Nat → Row) (backing releaseRows : Bool)
  /-- No page and no context names the source any more. -/
  | retire (s : Nat)
  | bind (s : Nat) (owner : Option Owner)
  /-- `defer` of a page that was just made, from a clone with any fields. -/
  | deferNew (s p : Nat) (page : Page Row Codes)
  | deferAgain (s p : Nat)
  | assignCodes (s p : Nat) (codes : Option Codes)
  | adopt (s : Nat) (pages : List Nat)
  | materialize (s p : Nat)
  | materializeFrom (s row : Nat)
  | materializeExcept (s : Nat) (keep : List Nat)
  | exchange (s : Nat) (incoming : List Nat)
  | spillFilled (s extra : Nat)
  | relieveNow (extra : Nat)
  | releaseIdle
  | copyRunTo (s : Nat) (run : List Nat) (d : Nat)
  /-- A context writes a row of the planes. -/
  | writeRow (s row : Nat) (value : Row)
  /-- The last owner of the page dropped it. -/
  | expire (p : Nat)

/-- The page is destroyed; its slot returns to the store. -/
def expire (p : Nat) : M Row Codes Unit :=
  modify fun σ => match σ.pages p with
    | some page =>
      { σ with pages := update σ.pages p none, store := (resetSpill page σ.store).2 }
    | none => σ

def Call.perform (host : Host Row Codes) : Call Row Codes → M Row Codes Unit
  | .register s rows backing releaseRows => modify fun σ =>
    { σ.setSource s { backing, releaseRows } with
      planes := update σ.planes s rows, registry := σ.registry ++ [s] }
  | .retire s => modify fun σ => { σ with registry := σ.registry.erase s }
  | .bind s owner => LaneKv.bind s owner
  | .deferNew s p page => do
    modify fun σ => σ.put p page
    defer s p
  | .deferAgain s p => defer s p
  | .assignCodes s p codes => LaneKv.assignCodes s p codes
  | .adopt s pages => LaneKv.adopt host s pages
  | .materialize s p => LaneKv.materialize host s p
  | .materializeFrom s row => LaneKv.materializeFrom host s row
  | .materializeExcept s keep => LaneKv.materializeExcept host s keep
  | .exchange s incoming => LaneKv.exchange host s incoming
  | .spillFilled s extra => LaneKv.spillFilled host s extra
  | .relieveNow extra => LaneKv.relieveNow host extra
  | .releaseIdle => releaseIdleUnreferencedRows host
  | .copyRunTo s run d => do let _ ← LaneKv.copyRunTo host s run d
  | .writeRow s row value => modify fun σ => σ.writePlanes s row [value]
  | .expire p => LaneKv.expire p

/-- The state; for each page ever deferred the rows it was first deferred with; and the rows of
    each source's planes that may be overwritten. -/
structure World (Row Codes : Type) where
  state : State Row Codes
  original : Nat → Option (List Row) := fun _ => none
  writable : Nat → Nat → Prop := fun _ _ => True

/-- The page is alive and its rows, wherever they are, are also in the planes of `s`. -/
def Restored (host : Host Row Codes) (σ : State Row Codes) (s p : Nat) : Prop :=
  ∃ page, σ.pages p = some page ∧
    ∀ loc, page.At loc → host.rowsAt σ page loc = some (σ.planeRows s page)

/-- What callers promise. -/
def Call.Allowed (host : Host Row Codes) (w : World Row Codes) : Call Row Codes → Prop
  | .register s _ _ _ | .retire s => ∀ p page, w.state.pages p = some page → page.source ≠ some s
  | .deferNew _ p page => w.original p = none ∧ page.spill = none
  | .deferAgain s p => Restored host w.state s p
  | .adopt s pages => ∀ p ∈ pages, Restored host w.state s p
  | .exchange _ incoming => History w.state incoming ∧
      ∀ p ∈ incoming, ∃ page, w.state.pages p = some page
  | .copyRunTo _ run d => (∀ p ∈ run, ∀ row, w.state.Names p row → w.writable d row) ∧
      ∀ front back row, run.head? = some front → run.getLast? = some back →
        w.state.first front ≤ row → row < w.state.first back + w.state.rows back → w.writable d row
  | .writeRow s row _ => w.writable s row
  | _ => True

/-- Rows of `s` that no page of `kept` held there names. -/
def Freed (σ : State Row Codes) (s : Nat) (kept : List Nat) (row : Nat) : Prop :=
  ∀ p ∈ kept, Held σ s p → ¬ σ.Names p row

/-- The rows that may be overwritten once the call has returned in `σ`. -/
def Call.granted (w : World Row Codes) (σ : State Row Codes) :
    Call Row Codes → Nat → Nat → Prop
  | .register s _ _ _, t, row => t = s ∨ w.writable t row
  | .deferNew s _ page, t, row => w.writable t row ∧ ¬ (t = s ∧ page.Covers row)
  | .deferAgain s p, t, row => w.writable t row ∧ ¬ (t = s ∧ w.state.Names p row)
  | .adopt s pages, t, row => w.writable t row ∧ ¬ (t = s ∧ ∃ p ∈ pages, w.state.Names p row)
  | .materializeFrom s first, t, row => w.writable t row ∨ t = s ∧ first ≤ row
  | .materializeExcept s kept, t, row | .exchange s kept, t, row =>
    w.writable t row ∧ t ≠ s ∨ t = s ∧ Freed σ s kept row
  | _, t, row => w.writable t row

/-- The rows each page was first deferred with, after the call. -/
def Call.recorded (w : World Row Codes) : Call Row Codes → Nat → Option (List Row)
  | .deferNew s p page => update w.original p (some (w.state.planeRows s page))
  | _ => w.original

/-- One call. One that throws allows nothing. -/
def World.next (host : Host Row Codes) (w : World Row Codes) (c : Call Row Codes) : World Row Codes :=
  match c.perform host w.state with
  | .ok _ σ => ⟨σ, c.recorded w, c.granted w σ⟩
  | .error _ σ => ⟨σ, w.original, w.writable⟩

/-- A call its callers may make. -/
def Step (host : Host Row Codes) (w w' : World Row Codes) : Prop :=
  ∃ c : Call Row Codes, c.Allowed host w ∧ w' = w.next host c

/-- Reached from a process without pages, whatever its memory holds. -/
def Reachable (host : Host Row Codes) (w : World Row Codes) : Prop :=
  ∃ planes, ReflTransGen (Step host) { state := { planes } } w

variable {host : Host Row Codes} {o : Nat → Option (List Row)} {W W' : Nat → Nat → Prop}
  {σ : State Row Codes} {w w' : World Row Codes} {page : Page Row Codes} {p s : Nat}

/-! ## One call -/

theorem Inv.grant (h : Inv host o W σ)
    (hW : ∀ q t row, Held σ t q → σ.Names q row → ¬ W' t row) : Inv host o W' σ := by
  refine ⟨{ h.core with guarded := fun q page t hq ht row hrow => ?_ }, h.tracked⟩
  exact hW q t row ⟨page, hq, ht⟩ ⟨page, hq, hrow⟩

variable {row first : Nat} {c : Call Row Codes}

section
variable (h : Inv host o W σ)
include h

theorem Inv.not_writable {q t : Nat} (hh : Held σ t q) (hn : σ.Names q row) : ¬ W t row := by
  obtain ⟨page, hq, ht⟩ := hh
  obtain ⟨page', hq', hrow⟩ := hn
  obtain rfl := mem_unique hq hq'
  exact h.core.guarded q page t hq ht row hrow

theorem Inv.free {kept : List Nat} (hheld : ∀ q, Held σ s q → q ∈ kept) :
    Inv host o (fun t row => W t row ∧ t ≠ s ∨ t = s ∧ Freed σ s kept row) σ := by
  refine h.grant fun q t row hq hrow hW => ?_
  rcases hW with ⟨hW, -⟩ | ⟨rfl, hfree⟩
  · exact h.not_writable hq hrow hW
  · exact hfree q (hheld q hq) hq hrow

theorem Restored.original (hr : Restored host σ s p) :
    ∃ page, σ.pages p = some page ∧ o p = some (σ.planeRows s page) := by
  obtain ⟨page, hp, hrows⟩ := hr
  obtain ⟨rs, ho, hh⟩ := h.core.home p page hp
  obtain ⟨loc, honly, hloc⟩ := hh.place
  have := hrows loc ((honly loc).mpr rfl)
  exact ⟨page, hp, ho.trans (hloc.symm.trans this)⟩

theorem Inv.expire (hp : σ.pages p = some page) :
    Inv host o W { σ with
      pages := update σ.pages p none, store := (resetSpill page σ.store).2 } := by
  have hpages : ∀ {q page'}, update σ.pages p none q = some page' → q ≠ p ∧ σ.pages q = some page' := by
    intro q page' hq
    by_cases hqp : q = p
    · subst hqp
      rw [update_self] at hq
      cases hq
    rw [update_of_ne hqp] at hq
    exact ⟨hqp, hq⟩
  have hcore : Core host o W { σ with pages := update σ.pages p none } := by
    refine ⟨fun q page' hq => ?_, fun q page' t hq => h.core.guarded q page' t (hpages hq).2,
      fun q page' n hq => h.core.slots q page' n (hpages hq).2,
      fun q₁ q₂ page₁ page₂ n h1 h2 =>
        h.core.owners q₁ q₂ page₁ page₂ n (hpages h1).2 (hpages h2).2,
      h.core.freeBelow, h.core.freeOnce⟩
    obtain ⟨rs, ho, hh⟩ := h.core.home q page' (hpages hq).2
    exact ⟨rs, ho, hh.frame (fun _ _ => rfl) fun _ _ => rfl⟩
  refine ⟨?_, fun q page' t hq => h.tracked q page' t (hpages hq).2⟩
  unfold resetSpill
  split
  · next n hn =>
    obtain ⟨h1, h2⟩ := h.core.slots p page n hp hn
    refine hcore.release ⟨h1, h2, fun q page' hq hn' => ?_⟩
    exact (hpages hq).1 (h.core.owners q p page' page n (hpages hq).2 hp hn' hn)
  · exact hcore

theorem returns_assignCodes {codes : Option Codes} :
    Returns (assignCodes s p codes) (fun _ σ' => Inv host o W σ') σ := by
  unfold assignCodes Returns
  rw [wp_modify]
  beta_reduce
  split
  · next page hp =>
    split
    · next hs =>
      obtain ⟨rs, ho, hh, hrows, -⟩ := h.held hp hs
      have hheld : ({ page with codes } : Page Row Codes).holds s = true := hs
      refine ⟨h.core.put ho (fun _ _ => rfl) (homed_planes hh.length hheld hrows)
        (fun n hn => .inl ⟨page, hp, hn⟩) fun t ht => h.core.guarded p page t hp ht, ?_⟩
      exact h.tracked.put fun t ht => h.tracked p page t hp ht
    · exact h
  · exact h

theorem Inv.register {rows : Nat → Row} {source : Source} {registry : List Nat} (hs : ∀ p page, σ.pages p = some page → page.source ≠ some s) :
    Inv host o (fun t row => t = s ∨ W t row) { σ.setSource s source with
      planes := update σ.planes s rows, registry } := by
  have hne : ∀ p page t, σ.pages p = some page → page.holds t = true → t ≠ s := by
    intro p page t hp ht heq
    exact hs p page hp (heq ▸ (holds_iff.mp ht).1)
  have hcore : Core host o W { σ.setSource s source with
      planes := update σ.planes s rows, registry } := by
    refine (h.core.planes (f := update σ.planes s rows) fun p page t hp ht row _ => ?_).congr rfl rfl rfl
    rw [update_of_ne (hne p page t hp ht)]
  refine ⟨{ hcore with guarded := fun p page t hp ht row hrow hW => ?_ }, fun p page t hp ht => ?_⟩
  · rcases hW with rfl | hW
    · exact hne p page t hp ht rfl
    · exact h.core.guarded p page t hp ht row hrow hW
  · have := h.tracked p page t hp ht
    simpa [State.setSource, hne p page t hp ht] using this

end

/-- The invariant of a world. -/
def World.Good (host : Host Row Codes) (w : World Row Codes) : Prop :=
  Inv host w.original w.writable w.state

theorem World.good_next
    (h : wp (c.perform host) (fun _ σ => Inv host (c.recorded w) (c.granted w σ) σ)
      (fun _ σ => Inv host w.original w.writable σ) w.state) : (w.next host c).Good host := by
  unfold World.Good World.next
  split
  · next hrun =>
    have hok := wp_ok h hrun
    exact hok
  next hrun =>
  have herror := wp_error h hrun
  exact herror

theorem World.Good.call (h : w.Good host) (hc : c.Allowed host w) : (w.next host c).Good host := by
  refine World.good_next ?_
  have helim : ∀ (e : Exn) σ, False → Inv host w.original w.writable σ :=
    fun _ _ h => h.elim
  have hinv : Inv host w.original w.writable w.state := h
  match c with
  | .register s rows backing releaseRows => exact hinv.register hc
  | .retire s => exact ⟨hinv.core.congr rfl rfl rfl, hinv.tracked⟩
  | .bind s owner => exact hinv.bind
  | .deferNew s p page =>
    show Inv host _ _ (match (w.state.put p page).pages p with
      | some page => _
      | none => _)
    rw [put_pages_self]
    refine (hinv.mono fun t row hW => hW.1).deferFresh hc.2 ?_ (fun q hq => ?_) fun row hrow hW => ?_
    · exact update_self ..
    · exact update_of_ne hq ..
    · exact hW.2 ⟨rfl, hrow⟩
  | .deferAgain s p =>
    obtain ⟨page, hp, ho⟩ := Restored.original hinv hc
    show Inv host _ _ (match w.state.pages p with
      | some page => _
      | none => _)
    rw [hp]
    refine (hinv.mono fun t row hW => hW.1).rehome hp ho length_window rfl (fun row hrow hW => ?_)
      rfl rfl rfl
    exact hW.2 ⟨rfl, page, hp, hrow⟩
  | .assignCodes s p codes => exact wp_fail (returns_assignCodes hinv) helim
  | .adopt s pages =>
    have hless : Inv host w.original ((Call.adopt s pages).granted w w.state) w.state :=
      hinv.mono fun t row hW => hW.1
    refine wp_mono (returns_adopt hless (fun p hp page hpage => ?_) fun p hp row hrow hW => ?_)
      (fun _ _ h => h.1) helim
    · obtain ⟨page', hp', ho⟩ := Restored.original hinv (hc p hp)
      obtain rfl := mem_unique hpage hp'
      exact ho
    · exact hW.2 ⟨rfl, p, hp, hrow⟩
  | .materialize s p => exact wp_mono (wp_materialize hinv) (fun _ _ h => h.inv) fun _ _ h => h.inv
  | .materializeFrom s first =>
    refine wp_mono (returns_fillWhere hinv) (fun _ σ ⟨h1, _, _, h2⟩ => ?_) helim
    refine h1.grant fun q t row hq hrow hW => ?_
    rcases hW with hW | ⟨rfl, hfirst⟩
    · exact h1.not_writable hq hrow hW
    -- a page left in the planes ends below `first`
    obtain ⟨page', hq', ht⟩ := hq
    obtain ⟨page'', hq'', hcov⟩ := hrow
    obtain rfl := mem_unique hq' hq''
    obtain ⟨page, -, hpred, hf, hr⟩ := h2 q page' hq' ht
    have := of_decide_eq_false hpred
    unfold Page.Covers at hcov
    omega
  | .materializeExcept s kept =>
    refine wp_mono (returns_fillWhere hinv) (fun _ σ ⟨h1, _, _, h2⟩ => ?_) helim
    refine h1.free fun q ⟨page', hq, hs⟩ => ?_
    obtain ⟨page, -, hpred, -⟩ := h2 q page' hq hs
    simpa using hpred
  | .exchange s incoming =>
    refine wp_mono (returns_exchange hinv hc.1 hc.2) (fun _ σ ⟨h1, _, h2⟩ => ?_) helim
    exact h1.free h2
  | .spillFilled s extra => exact wp_fail (returns_spillFilled hinv) helim
  | .relieveNow extra => exact wp_fail (returns_relieveNow hinv) helim
  | .releaseIdle => exact wp_fail (returns_releaseIdle hinv) helim
  | .copyRunTo s run d =>
    show wp (LaneKv.copyRunTo host s run d >>= fun _ => pure ()) _ _ _
    rw [wp_bind]
    exact wp_fail (wp_copyRunTo hinv hc.1 hc.2) fun _ _ h => h
  | .writeRow s row value =>
    refine hinv.writePlanes fun row' h1 h2 => ?_
    obtain rfl : row' = row := by
      simp only [List.length_singleton] at h2
      omega
    exact hc
  | .expire p =>
    show Inv host _ _ (match w.state.pages p with
      | some page => _
      | none => _)
    cases hp : w.state.pages p with
    | none => exact hinv
    | some page => exact hinv.expire hp

/-! ## Whole runs -/

theorem Reachable.good (hr : Reachable host w) : w.Good host := by
  obtain ⟨planes, hs⟩ := hr
  induction hs with
  | refl =>
    exact ⟨⟨by simp, by simp, by simp, by simp, by simp, List.nodup_nil⟩, fun p page s hp => by
      simp at hp⟩
  | tail _ hstep ih =>
    obtain ⟨c, hc, rfl⟩ := hstep
    exact ih.call hc

theorem Reachable.next (hr : Reachable host w) (hc : c.Allowed host w) : Reachable host (w.next host c) := by
  obtain ⟨planes, hs⟩ := hr
  exact ⟨planes, hs.tail ⟨c, hc, rfl⟩⟩

theorem World.Good.writable_from (h : w.Good host) (hrow : first ≤ row) :
    (w.next host (.materializeFrom s first)).writable s row := by
  have hret : Returns ((Call.materializeFrom s first).perform host) (fun _ _ => True) w.state :=
    (returns_fillWhere h).mono fun _ _ _ => trivial
  unfold World.next
  split
  · exact .inr ⟨rfl, hrow⟩
  · next hrun => exact (wp_error hret hrun).elim

theorem Reachable.overwrite {value : Row} (hr : Reachable host w) (hrow : first ≤ row) :
    Reachable host ((w.next host (.materializeFrom s first)).next host (.writeRow s row value)) := by
  have hfill : Reachable host (w.next host (.materializeFrom s first)) := hr.next trivial
  exact hfill.next (hr.good.writable_from hrow)

theorem Reachable.deferred {rows : List Row} (hr : Reachable host w) (ho : w.original p = some rows) :
    ∃ w₀ s page₀, Reachable host w₀ ∧ (Call.deferNew s p page₀).Allowed host w₀ ∧ rows = w₀.state.planeRows s page₀ ∧
      ReflTransGen (Step host) (w₀.next host (.deferNew s p page₀)) w := by
  obtain ⟨planes, hs⟩ := hr
  induction hs with
  | refl => cases ho
  | @tail w₁ w₂ hs hstep ih =>
    obtain ⟨c, hc, rfl⟩ := hstep
    have hkeep : w₁.original p = some rows → ∃ w₀ s page₀, Reachable host w₀ ∧
        (Call.deferNew s p page₀).Allowed host w₀ ∧ rows = w₀.state.planeRows s page₀ ∧
        ReflTransGen (Step host) (w₀.next host (.deferNew s p page₀)) (w₁.next host c) := by
      intro ho
      obtain ⟨w₀, s, page₀, h1, h2, h3, h4⟩ := ih ho
      exact ⟨w₀, s, page₀, h1, h2, h3, h4.tail ⟨c, hc, rfl⟩⟩
    -- only a page deferred for the first time gets its rows recorded
    have hcases : (w₁.next host c).original p = w₁.original p ∨
        ∃ s page₀, c = .deferNew s p page₀ ∧ rows = w₁.state.planeRows s page₀ := by
      unfold World.next at ho ⊢
      split at ho
      · match c with
        | .deferNew s q page₀ =>
          by_cases hq : p = q
          · subst hq
            have ho : update w₁.original p (some (w₁.state.planeRows s page₀)) p = some rows := ho
            rw [update_self] at ho
            exact .inr ⟨s, page₀, rfl, (some.inj ho).symm⟩
          · exact .inl (update_of_ne hq ..)
        | .register .. | .retire .. | .bind .. | .deferAgain .. | .assignCodes .. | .adopt ..
        | .materialize .. | .materializeFrom .. | .materializeExcept .. | .exchange ..
        | .spillFilled .. | .relieveNow .. | .releaseIdle | .copyRunTo .. | .writeRow ..
        | .expire .. => exact .inl rfl
      · exact .inl rfl
    rcases hcases with hsame | ⟨s, page₀, rfl, hrows⟩
    · exact hkeep (hsame ▸ ho)
    · exact ⟨w₁, s, page₀, ⟨planes, hs⟩, hc, hrows, .refl⟩

/-- No exact KV row is lost or changed. At every point of every run a page alive was first
    deferred at some earlier point; it is in exactly one place; and the rows read there are those
    that were in the planes it was deferred from, then. -/
theorem rows_never_lost (hr : Reachable host w) (hp : w.state.pages p = some page) :
    ∃ w₀ s page₀, Reachable host w₀ ∧ (Call.deferNew s p page₀).Allowed host w₀ ∧
      ReflTransGen (Step host) (w₀.next host (.deferNew s p page₀)) w ∧
      (∃! loc, page.At loc) ∧
      ∀ loc, page.At loc → host.rowsAt w.state page loc = some (w₀.state.planeRows s page₀) := by
  obtain ⟨rs, ho, hh⟩ := hr.good.core.home p page hp
  obtain ⟨w₀, s, page₀, h1, h2, h3, h4⟩ := hr.deferred ho
  obtain ⟨loc, honly, -⟩ := hh.place
  refine ⟨w₀, s, page₀, h1, h2, h4, ⟨loc, (honly loc).mpr rfl, fun l hl => (honly l).mp hl⟩, fun l hl => ?_⟩
  rw [← h3]
  exact hh.rowsAt l hl

/-- A host that is short of memory at first and whose disk has room; the packer keeps the bytes. -/
def sampleHost : Host UInt8 Unit where
  banks := 1
  packEnabled := true
  spillStore := true
  codesBanks := fun _ => 1
  pack := fun _ rows => rows
  unpack := fun _ _ blob => blob
  lossless := fun _ _ _ => rfl
  underPressure := fun clock _ => clock < 3
  memoryShort := fun clock _ => clock < 3
  hasRoom := fun _ _ => true
  written := fun _ _ => true
  readable := fun _ _ => true
  pins := fun _ _ => 0
  released := fun _ _ => 0

/-- A page of two rows is deferred, gets its codes, and is filled before its first row is
    overwritten: it is packed and spilled. -/
def spilledWorld : World UInt8 Unit :=
  let start : World UInt8 Unit := { state := { planes := fun _ _ => 0 } }
  let registered := start.next sampleHost (.register 0 UInt8.ofNat false false)
  let deferred := registered.next sampleHost (.deferNew 0 7 { first := 0, rows := 2 })
  let coded := deferred.next sampleHost (.assignCodes 0 7 (some ()))
  (coded.next sampleHost (.materializeFrom 0 0)).next sampleHost (.writeRow 0 0 9)

/-- The overwritten rows are another page's, which is filled and overwritten in turn. -/
def filledWorld : World UInt8 Unit :=
  let deferred := spilledWorld.next sampleHost (.deferNew 0 8 { first := 0, rows := 2 })
  (deferred.next sampleHost (.materializeFrom 0 0)).next sampleHost (.writeRow 0 0 5)

/-- A third page is deferred, and the second is restored in its place. -/
def sampleWorld : World UInt8 Unit :=
  (filledWorld.next sampleHost (.deferNew 0 9 { first := 0, rows := 2 })).next sampleHost (.exchange 0 [8])

theorem spilledWorld_reachable : Reachable sampleHost spilledWorld := by
  have h0 : Reachable sampleHost { state := { planes := fun _ _ => 0 } } := ⟨_, .refl⟩
  have h1 := h0.next (c := .register 0 UInt8.ofNat false false) fun p page hp => nomatch hp
  have h2 := h1.next (c := .deferNew 0 7 { first := 0, rows := 2 }) ⟨rfl, rfl⟩
  have h3 := h2.next (c := .assignCodes 0 7 (some ())) trivial
  exact h3.overwrite (Nat.le_refl 0)

theorem filledWorld_reachable : Reachable sampleHost filledWorld := by
  have hfresh : spilledWorld.original 8 = none := by decide +kernel
  have h1 := spilledWorld_reachable.next (c := .deferNew 0 8 { first := 0, rows := 2 }) ⟨hfresh, rfl⟩
  exact h1.overwrite (Nat.le_refl 0)

theorem sampleWorld_reachable : Reachable sampleHost sampleWorld := by
  have hfresh : filledWorld.original 9 = none := by decide +kernel
  have h1 := filledWorld_reachable.next (c := .deferNew 0 9 { first := 0, rows := 2 }) ⟨hfresh, rfl⟩
  have hpage : (filledWorld.next sampleHost (.deferNew 0 9 { first := 0, rows := 2 })).state.pages 8 =
      some ⟨0, 2, [9, 1], some 0, false, none, none, [], false, 0⟩ := by decide +kernel
  refine h1.next (c := .exchange 0 [8]) ⟨⟨List.nodup_singleton 8, ?_⟩, ?_⟩
  · intro a ha b hb hab
    rw [List.mem_singleton.mp ha, List.mem_singleton.mp hb] at hab
    exact absurd rfl hab
  · intro p hp
    rw [List.mem_singleton.mp hp]
    exact ⟨_, hpage⟩

/-- The first page is in its slot, the second is back in the planes, and the third has its rows. -/
theorem rows_never_lost_sample : Reachable sampleHost sampleWorld ∧
    (∃ page, sampleWorld.state.pages 7 = some page ∧ (∃! loc, page.At loc) ∧
      page.At (.slot 0) ∧ sampleHost.rowsAt sampleWorld.state page (.slot 0) = some [0, 1]) ∧
    (∃ page, sampleWorld.state.pages 8 = some page ∧ (∃! loc, page.At loc) ∧
      page.At (.planes 0) ∧ sampleHost.rowsAt sampleWorld.state page (.planes 0) = some [9, 1]) ∧
    ∃ page, sampleWorld.state.pages 9 = some page ∧ (∃! loc, page.At loc) ∧
      page.At .payload ∧ sampleHost.rowsAt sampleWorld.state page .payload = some [5, 1] := by
  have hspilled : sampleWorld.state.pages 7 =
      some ⟨0, 2, [], some 0, true, some 0, some (), [], false, 2⟩ := by decide +kernel
  have hrestored : sampleWorld.state.pages 8 =
      some ⟨0, 2, [], some 0, true, none, none, [], false, 0⟩ := by decide +kernel
  have hfilled : sampleWorld.state.pages 9 =
      some ⟨0, 2, [5, 1], some 0, false, none, none, [], false, 0⟩ := by decide +kernel
  obtain ⟨_, _, _, -, -, -, h7, -⟩ := rows_never_lost sampleWorld_reachable hspilled
  obtain ⟨_, _, _, -, -, -, h8, -⟩ := rows_never_lost sampleWorld_reachable hrestored
  obtain ⟨_, _, _, -, -, -, h9, -⟩ := rows_never_lost sampleWorld_reachable hfilled
  exact ⟨sampleWorld_reachable, ⟨_, hspilled, h7, rfl, by decide +kernel⟩,
    ⟨_, hrestored, h8, rfl, by decide +kernel⟩, _, hfilled, h9, rfl, by decide +kernel⟩

end VoidInfer.Exl3.LaneKv
