import VoidInfer.Exl3.GrowableRegionGive
import Mathlib.Data.Fintype.Basic

/-
  Every interleaving of the operations: the pool's own steps, and what a whole run keeps.
-/

namespace VoidInfer.Exl3.GrowableRegion
open List Option Function

open MappedRanges Custody

variable {ρ τ : Type} {w w' w₀ : World ρ τ} {t : τ} {r : ρ} {h : Handle} {thread : Thread ρ}
  {bytes mapped : Nat}

/-! ## The pool's steps -/

theorem handles_release [DecidableEq τ] (thread : Thread ρ) (hh : Handles w)
    (hhand : (w.threads t).inHand = h :: thread.inHand)
    (hthreads : w'.threads = update w.threads t thread) (hregions : w'.regions = w.regions)
    (hpool : w'.pool.handles = w.pool.handles) (hcreated : w'.cuda.created = w.cuda.created)
    (hreleased : w'.cuda.released = w.cuda.released ++ [h]) : Handles w' := by
  refine hh.gaveUp (h := h) (a := .thread t) ?_ ?_ hcreated hreleased
  · show (w.threads t).inHand.Perm (h :: (w'.threads t).inHand)
    rw [hhand, hthreads, update_self]
  intro o hne
  cases o with
  | region r =>
    show (w'.regions r).handles = _
    rw [hregions]
    rfl
  | pool => exact hpool
  | thread t' =>
    have ht : t' ≠ t := fun heq => hne (by rw [heq])
    show (w'.threads t').inHand = _
    rw [hthreads, update_of_ne ht]
    rfl

theorem free_reserved (hr : Ranges w) (address size : Nat) :
    ∀ e ∈ (w.cuda.cuMemAddressFree address size).reserved, 0 < e.1 :=
  fun e he => hr.reserved e (mem_of_mem_filter he)

theorem Ranges.scratch (hr : Ranges w) {cuda : Cuda} {success : Bool} {scratch granularity : Nat}
    (hmap : w.cuda.cuMemMap success scratch granularity h = some cuda) :
    cuda.cuMemUnmap scratch granularity = w.cuda := by
  obtain ⟨rfl, -, hfree⟩ := cuMemMap_some hmap
  unfold Cuda.cuMemUnmap
  rw [clear_append, clear_eq]
  · intro m hm hin
    obtain ⟨p, hp⟩ := (hr.laid.mapped m).mp hm
    have hpos := ((hr.laid.valid p).inside hp).2.2.2
    have := hfree m hm
    omega
  intro m hm
  rw [mem_singleton.mp hm]
  exact ⟨le_rfl, le_rfl⟩

variable [Fintype ρ] [DecidableEq τ]

section
variable (hi : Inv w)
include hi

theorem inv_callRelease (hpc : w.threads t = .idle) : Inv (w.callRelease t) := by
  unfold World.callRelease
  refine ⟨?_, ?_, ?_, ?_⟩
  · have hempty : w.holding (.thread t) = [] := by
      show (w.threads t).inHand = []
      rw [hpc]
      rfl
    refine ⟨hi.handles.once.handOver (a := .pool) (b := .thread t) (by intro heq; cases heq) hempty rfl ?_ ?_,
      hi.handles.numbered, hi.handles.released, hi.handles.made⟩
    · rw [holding_goTo_self]
      rfl
    · intro o hpool hthread
      rw [holding_goTo_other hthread]
      cases o with
      | pool => exact absurd rfl hpool
      | region r => rfl
      | thread t' => rfl
  · exact hi.ranges.frame rfl rfl hi.ranges.reserved
  · refine ⟨hi.bytes.chunks, fun x hx => absurd hx not_mem_nil, hi.bytes.planes, ?_⟩
    show w.plane_pool_bytes - ((w.pool.handles.length * w.pool.granularity : Nat) : Int) = ((0 : Nat) : Int)
    rw [hi.bytes.pool, sum_of_size hi.bytes.pooled]
    omega
  · exact hi.sections.outside rfl rfl rfl (by rw [hpc]; rfl) rfl trivial

theorem inv_release {rest : List Handle} (hpc : w.threads t = .release (h :: rest)) :
    Inv ((w.releaseHandle h).goTo t (.release rest)) where
  handles := handles_release (t := t) _ hi.handles (by rw [hpc]; rfl) rfl rfl rfl rfl rfl
  ranges := hi.ranges.frame rfl rfl hi.ranges.reserved
  bytes := hi.bytes.frame rfl rfl (.inr rfl) rfl rfl
  sections := hi.sections.outside rfl rfl rfl (by rw [hpc]; rfl) rfl trivial

theorem inv_topUp (hpc : w.threads t = .idle) (cap target : Nat) (available : Option Nat)
    (context : Bool) : Inv (w.topUp cap t r target available context) := by
  unfold World.topUp
  dsimp only
  split
  · exact hi
  split
  · exact hi
  split
  · exact hi
  split
  · exact hi
  · split
    · exact hi
    · exact inv_outside hi rfl rfl rfl rfl rfl rfl rfl rfl rfl hi.ranges.reserved rfl (by rw [hpc]; rfl) rfl
        (by rw [hpc]; rfl) trivial

theorem inv_refillEnds (hold : (w.threads t).section? = none) (hhand : (w.threads t).inHand = [])
    (granularity scratch : Nat) : Inv (w.refillEnds t granularity scratch) := by
  exact inv_outside hi rfl rfl rfl rfl rfl rfl rfl rfl rfl (free_reserved hi.ranges scratch granularity) rfl hold rfl
    hhand.symm trivial

theorem inv_releaseEnds (hold : (w.threads t).section? = none) (hhand : (w.threads t).inHand = [h])
    (pool : HostPool) (hpool : pool.handles = w.pool.handles)
    (hsize : w.pool.handles = [] ∨ pool.granularity = w.pool.granularity) (granularity scratch : Nat) :
    Inv (({ w with pool }.releaseHandle h).refillEnds t granularity scratch) := by
  refine ⟨?_, ?_, ?_, ?_⟩
  · exact handles_release (t := t) .idle hi.handles hhand rfl rfl hpool rfl rfl
  · exact hi.ranges.frame rfl rfl (free_reserved hi.ranges scratch granularity)
  · refine hi.bytes.frame rfl hpool ?_ rfl rfl
    exact hsize.imp (fun hnil => hpool.trans hnil) id
  · exact hi.sections.outside rfl rfl rfl hold rfl trivial

variable {location : Location}

theorem inv_refillStart {granularity goal : Nat}
    (hpc : w.threads t = .refillStart granularity location goal) (context : Bool) (scratch : Nat) :
    Inv (w.refillStart t granularity location goal context scratch) := by
  have hhand : (w.threads t).inHand = [] := by rw [hpc]; rfl
  unfold World.refillStart
  split
  · exact inv_outside hi rfl rfl rfl rfl rfl rfl rfl rfl rfl hi.ranges.reserved rfl (by rw [hpc]; rfl) rfl hhand.symm
      trivial
  next cuda hreserve =>
  have hcuda : cuda = { w.cuda with reserved := w.cuda.reserved ++ [(scratch, granularity)] } ∧ 0 < scratch := by
    cases context with
    | false => cases hreserve
    | true =>
      rw [if_pos rfl] at hreserve
      unfold Cuda.cuMemAddressReserve at hreserve
      split at hreserve
      · next hguard => exact ⟨(some.inj hreserve).symm, hguard.1⟩
      · cases hreserve
  obtain ⟨rfl, hpos⟩ := hcuda
  refine inv_outside hi rfl rfl rfl rfl rfl rfl rfl rfl rfl (fun e he => ?_) rfl (by rw [hpc]; rfl) rfl hhand.symm
    trivial
  rcases mem_append.mp he with he | he
  · exact hi.ranges.reserved e he
  rw [mem_singleton.mp he]
  exact hpos

variable {granularity goal scratch : Nat}

theorem inv_refill (hpc : w.threads t = .refill granularity location goal scratch) (success : Bool) :
    Inv (w.refill t granularity location goal scratch success) := by
  have hhand : (w.threads t).inHand = [] := by rw [hpc]; rfl
  unfold World.refill
  split
  · exact inv_refillEnds hi (by rw [hpc]; rfl) hhand granularity scratch
  refine ⟨?_, ?_, ?_, ?_⟩
  · refine hi.handles.made' (a := .thread t) ?_ ?_ rfl rfl
    · rw [holding_goTo_self]
      show [_].Perm (_ :: (w.threads t).inHand)
      rw [hhand]
    · intro o hne
      rw [holding_goTo_other hne]
      cases o <;> rfl
  · exact hi.ranges.frame rfl rfl hi.ranges.reserved
  · exact hi.bytes.frame rfl rfl (.inr rfl) rfl rfl
  · exact hi.sections.outside rfl rfl rfl (by rw [hpc]; rfl) rfl rfl

theorem inv_touch (hpc : w.threads t = .touching granularity location goal scratch h) (mapped touched : Bool) :
    Inv (w.touch t granularity location goal scratch h mapped touched) := by
  have hok := hi.sections.ok t
  rw [hpc] at hok
  have hsec : (w.threads t).section? = none := by rw [hpc]; rfl
  have hhand : (w.threads t).inHand = [h] := by rw [hpc]; rfl
  have hends := inv_releaseEnds hi hsec hhand w.pool rfl (.inr rfl) granularity scratch
  unfold World.touch
  split
  · exact hends
  next cuda hmap =>
  rw [hi.ranges.scratch hmap]
  split
  · exact inv_goTo hi hsec rfl (by rw [hhand]; rfl) hok
  · exact hends

theorem inv_push (hpc : w.threads t = .pushing granularity location goal scratch h) :
    Inv (w.push t granularity location goal scratch h) := by
  have hsize : h.bytes = granularity := by
    have hok := hi.sections.ok t
    rw [hpc] at hok
    exact hok
  have hsec : (w.threads t).section? = none := by rw [hpc]; rfl
  have hhand : (w.threads t).inHand = [h] := by rw [hpc]; rfl
  unfold World.push
  dsimp only
  split
  · next hmatches =>
    have hgran : (w.pool.adopt granularity location).granularity = granularity := (of_decide_eq_true hmatches).1
    refine ⟨?_, ?_, ?_, ?_⟩
    · refine hi.handles.moved (h := h) (a := .thread t) (b := .pool) (by intro heq; cases heq) ?_ ?_ ?_ rfl rfl
      · rw [holding_goTo_self]
        show (w.threads t).inHand.Perm _
        rw [hhand]
        exact List.Perm.refl _
      · rw [adopt_handles]
        exact perm_snoc _ h
      · intro o hthread hpool
        rw [holding_goTo_other hthread]
        cases o with
        | pool => exact absurd rfl hpool
        | region r => rfl
        | thread t' => rfl
    · exact hi.ranges.frame rfl rfl hi.ranges.reserved
    · refine ⟨hi.bytes.chunks, ?_, hi.bytes.planes, ?_⟩
      · intro x hx
        rw [adopt_handles] at hx
        rcases mem_append.mp hx with hx | hx
        · rcases adopt_granularity w.pool granularity location with hnil | hsame
          · rw [hnil] at hx
            cases hx
          · rw [hsame]
            exact hi.bytes.pooled x hx
        rw [mem_singleton.mp hx, hgran]
        exact hsize
      · show w.plane_pool_bytes + (granularity : Int) =
          ((((w.pool.adopt granularity location).handles ++ [h]).map Handle.bytes).sum : Nat)
        rw [adopt_handles, sum_snoc, hsize, hi.bytes.pool]
        rfl
    · exact hi.sections.outside rfl rfl rfl hsec rfl trivial
  · exact inv_releaseEnds hi hsec hhand _ (adopt_handles _ _ _) (adopt_granularity _ _ _) granularity scratch

end

/-! ## Runs -/

variable [DecidableEq ρ]

/-- What the callers promise: a window is put on where nothing else is. Each window is a range
    of its own, and the region it showed is detached first. -/
def Promised (w : World ρ τ) : Action ρ → Prop
  | .attachWindow r window _ _ => Exclusive w.regions r window
  | _ => True

/-- What a step can be. -/
inductive Took (cap : Nat) (w : World ρ τ) (t : τ) : Action ρ → World ρ τ → Prop
  | ensure {r : ρ} {bytes : Nat} (hpc : w.threads t = .idle) :
      Took cap w t (.ensure r bytes) (w.callEnsure t r bytes)
  | shrink {r : ρ} {bytes : Nat} (hpc : w.threads t = .idle) :
      Took cap w t (.shrink r bytes) (w.callShrink t r bytes)
  | attachWindow {r : ρ} {window : Nat} {answers : Nat → Bool} {access : Bool}
      (hpc : w.threads t = .idle) (hfree : w.mutex r = none) :
      Took cap w t (.attachWindow r window answers access) (w.attachWindow t r window answers access)
  | detachWindow {r : ρ} (hpc : w.threads t = .idle) (hfree : w.mutex r = none) :
      Took cap w t (.detachWindow r) (w.detachWindow r)
  | reset {r : ρ} (hpc : w.threads t = .idle) : Took cap w t (.reset r) (w.callReset t r)
  | releaseHostPool (hpc : w.threads t = .idle) : Took cap w t .releaseHostPool (w.callRelease t)
  | topUp {r : ρ} {target : Nat} {available : Option Nat} {context : Bool} (hpc : w.threads t = .idle) :
      Took cap w t (.topUp r target available context) (w.topUp cap t r target available context)
  | caught {what : String} {a : Action ρ} (hpc : w.threads t = .threw what) :
      Took cap w t a (w.goTo t .idle)
  | enough {r : ρ} {bytes : Nat} {a : Action ρ} (hpc : w.threads t = .ensure r bytes) :
      Took cap w t a (w.goTo t .idle)
  | take {r : ρ} {bytes : Nat} {a : Action ρ}
      (hpc : w.threads t = .ensure r bytes) (hfree : w.mutex r = none) :
      Took cap w t a (w.take t r bytes)
  | create {r : ρ} {bytes mapped : Nat} {success : Bool} {a : Action ρ}
      (hpc : w.threads t = .creating r bytes mapped) :
      Took cap w t a (w.create t r bytes mapped success)
  | map {r : ρ} {bytes mapped : Nat} {h : Handle} {answers : World.MapAnswers} {a : Action ρ}
      (hpc : w.threads t = .mapping r bytes mapped h) :
      Took cap w t a (w.map t r bytes mapped h answers)
  | lockShrink {r : ρ} {bytes : Nat} {a : Action ρ}
      (hpc : w.threads t = .shrinkLock r bytes) (hfree : w.mutex r = none) :
      Took cap w t a (w.lockShrink t r bytes)
  | shrinkRound {r : ρ} {bytes mapped : Nat} {available : Option Nat} {a : Action ρ}
      (hpc : w.threads t = .shrink r bytes mapped) :
      Took cap w t a (w.shrink cap t r bytes mapped available)
  | lockReset {r : ρ} {a : Action ρ} (hpc : w.threads t = .resetLock r) (hfree : w.mutex r = none) :
      Took cap w t a (w.lockReset t r)
  | resetRound {r : ρ} {mapped : Nat} {available : Option Nat} {a : Action ρ}
      (hpc : w.threads t = .reset r mapped) :
      Took cap w t a (w.reset cap t r mapped available)
  | released {a : Action ρ} (hpc : w.threads t = .release []) : Took cap w t a (w.goTo t .idle)
  | release {h : Handle} {rest : List Handle} {a : Action ρ} (hpc : w.threads t = .release (h :: rest)) :
      Took cap w t a ((w.releaseHandle h).goTo t (.release rest))
  | refillStart {granularity goal scratch : Nat} {location : Location} {context : Bool} {a : Action ρ}
      (hpc : w.threads t = .refillStart granularity location goal) :
      Took cap w t a (w.refillStart t granularity location goal context scratch)
  | refill {granularity goal scratch : Nat} {location : Location} {success : Bool} {a : Action ρ}
      (hpc : w.threads t = .refill granularity location goal scratch) :
      Took cap w t a (w.refill t granularity location goal scratch success)
  | touch {granularity goal scratch : Nat} {location : Location} {h : Handle} {mapped touched : Bool} {a : Action ρ}
      (hpc : w.threads t = .touching granularity location goal scratch h) :
      Took cap w t a (w.touch t granularity location goal scratch h mapped touched)
  | push {granularity goal scratch : Nat} {location : Location} {h : Handle} {a : Action ρ}
      (hpc : w.threads t = .pushing granularity location goal scratch h) :
      Took cap w t a (w.push t granularity location goal scratch h)

omit [Fintype ρ] in
theorem step_took {cap : Nat} {a : Action ρ} (hstep : step cap w t a = some w') : Took cap w t a w' := by
  unfold step at hstep
  split at hstep
  · next hpc => exact some.inj hstep ▸ .ensure hpc
  · next hpc => exact some.inj hstep ▸ .shrink hpc
  · next hpc =>
    obtain ⟨hfree, heq⟩ := ite_none_right_eq_some.mp hstep
    exact some.inj heq ▸ .attachWindow hpc hfree
  · next hpc =>
    obtain ⟨hfree, heq⟩ := ite_none_right_eq_some.mp hstep
    exact some.inj heq ▸ .detachWindow hpc hfree
  · next hpc => exact some.inj hstep ▸ .reset hpc
  · next hpc => exact some.inj hstep ▸ .releaseHostPool hpc
  · next hpc => exact some.inj hstep ▸ .topUp hpc
  · next hpc => exact some.inj hstep ▸ .caught hpc
  · next hpc =>
    split at hstep
    · exact some.inj hstep ▸ .enough hpc
    obtain ⟨hfree, heq⟩ := ite_none_right_eq_some.mp hstep
    exact some.inj heq ▸ .take hpc hfree
  · next hpc => exact some.inj hstep ▸ .create hpc
  · next hpc => exact some.inj hstep ▸ .map hpc
  · next hpc =>
    obtain ⟨hfree, heq⟩ := ite_none_right_eq_some.mp hstep
    exact some.inj heq ▸ .lockShrink hpc hfree
  · next hpc =>
    obtain ⟨hfree, heq⟩ := ite_none_right_eq_some.mp hstep
    exact some.inj heq ▸ .lockReset hpc hfree
  · next hpc => exact some.inj hstep ▸ .shrinkRound hpc
  · next hpc => exact some.inj hstep ▸ .resetRound hpc
  · next hpc => exact some.inj hstep ▸ .released hpc
  · next hpc => exact some.inj hstep ▸ .release hpc
  · next hpc => exact some.inj hstep ▸ .refillStart hpc
  · next hpc => exact some.inj hstep ▸ .refill hpc
  · next hpc => exact some.inj hstep ▸ .touch hpc
  · next hpc => exact some.inj hstep ▸ .push hpc
  · cases hstep

theorem inv_step (hi : Inv w) {cap : Nat} {a : Action ρ} (hpromised : Promised w a)
    (hstep : step cap w t a = some w') : Inv w' := by
  cases step_took hstep with
  | ensure hpc => exact inv_callEnsure hi hpc
  | shrink hpc => exact inv_callShrink hi hpc
  | attachWindow hpc hfree => exact inv_attachWindow hi hfree hpc hpromised _ _
  | detachWindow hpc hfree => exact inv_detachWindow hi hfree hpc
  | reset hpc => exact inv_callReset hi hpc
  | releaseHostPool hpc => exact inv_callRelease hi hpc
  | topUp hpc => exact inv_topUp hi hpc cap _ _ _
  | caught hpc => exact inv_goTo hi (by rw [hpc]; rfl) rfl (by rw [hpc]; rfl) trivial
  | enough hpc => exact inv_goTo hi (by rw [hpc]; rfl) rfl (by rw [hpc]; rfl) trivial
  | take hpc hfree => exact inv_take hi hfree hpc
  | create hpc => exact inv_create hi hpc _
  | map hpc => exact inv_map hi hpc _
  | lockShrink hpc hfree => exact inv_lockShrink hi hfree hpc
  | shrinkRound hpc => exact inv_shrink hi hpc cap _
  | lockReset hpc hfree => exact inv_lockReset hi hfree hpc
  | resetRound hpc => exact inv_reset hi hpc cap _
  | released hpc => exact inv_goTo hi (by rw [hpc]; rfl) rfl (by rw [hpc]; rfl) trivial
  | release hpc => exact inv_release hi hpc
  | refillStart hpc => exact inv_refillStart hi hpc _ _
  | refill hpc => exact inv_refill hi hpc _
  | touch hpc => exact inv_touch hi hpc _ _
  | push hpc => exact inv_push hi hpc

/-- The worlds that any order of the threads' steps reaches. -/
inductive Run (cap : Nat) (w₀ : World ρ τ) : World ρ τ → Prop
  | start : Run cap w₀ w₀
  | step {w w' : World ρ τ} {t : τ} {a : Action ρ} (hrun : Run cap w₀ w) (hpromised : Promised w a)
      (hstep : step cap w t a = some w') : Run cap w₀ w'

theorem inv_run {cap : Nat} (hinit : Initial w₀) (hrun : Run cap w₀ w) : Inv w := by
  induction hrun with
  | start => exact inv_initial hinit
  | step _ hpromised hstep ih => exact inv_step ih hpromised hstep

/-! ## What a run keeps -/

/-- A thread that threw, or that has a region's mutex and no chunk mapped yet. -/
def Thread.unfinished : Thread ρ → Prop
  | .creating .. => True
  | .mapping .. => True
  | .threw _ => True
  | _ => False

omit [Fintype ρ] [DecidableEq ρ] in
theorem goTo_finished (hnot : ¬ thread.unfinished) : ¬ ((w.goTo t thread).threads t).unfinished := by
  show ¬ (update w.threads t thread t).unfinished
  rw [update_self]
  exact hnot

omit [Fintype ρ] in
/-- A region changes only under its mutex, and by no step that leaves a round unfinished. -/
theorem step_regions {cap : Nat} {a : Action ρ} (hstep : step cap w t a = some w') :
    w'.regions = w.regions ∨ ∃ r region, w'.regions = update w.regions r region ∧
      (w.mutex r = none ∨ (w.threads t).section? = some r) ∧ ¬ (w'.threads t).unfinished := by
  have hkept : ∀ {r : ρ}, w.threads t = .idle → w.mutex r = none → ∀ cuda region,
      ({ w with cuda }.setRegion r region).regions = w.regions ∨
      ∃ r' region', ({ w with cuda }.setRegion r region).regions = update w.regions r' region' ∧
        (w.mutex r' = none ∨ (w.threads t).section? = some r') ∧
        ¬ (({ w with cuda }.setRegion r region).threads t).unfinished := by
    intro r hpc hfree cuda region
    refine .inr ⟨r, region, rfl, .inl hfree, ?_⟩
    show ¬ (w.threads t).unfinished
    rw [hpc]
    exact id
  cases step_took hstep with
  | attachWindow hpc hfree =>
    unfold World.attachWindow
    dsimp only
    split
    · exact .inl rfl
    split
    · exact .inl rfl
    split
    · exact .inl rfl
    · exact hkept hpc hfree _ _
  | detachWindow hpc hfree =>
    unfold World.detachWindow
    dsimp only
    split
    · exact .inl rfl
    · exact hkept hpc hfree _ _
  | lockReset hpc hfree => exact .inr ⟨_, _, rfl, .inl hfree, goTo_finished id⟩
  | @map r _ _ _ _ _ hpc =>
    have hsec : (w.threads t).section? = some r := by rw [hpc]; rfl
    unfold World.map
    dsimp only
    split
    · exact .inl rfl
    split
    · exact .inl rfl
    split
    · exact .inl rfl
    · exact .inr ⟨r, _, rfl, .inr hsec, goTo_finished id⟩
  | @shrinkRound r _ _ _ _ hpc =>
    have hsec : (w.threads t).section? = some r := by rw [hpc]; rfl
    unfold World.shrink
    dsimp only
    split
    · split
      · exact .inr ⟨r, _, (giveBack_givenBack _ cap _ _ _).regions, .inr hsec, goTo_finished id⟩
      · exact .inr ⟨r, _, rfl, .inr hsec, goTo_finished id⟩
    · exact .inr ⟨r, _, rfl, .inr hsec, goTo_finished id⟩
  | @resetRound r _ _ _ hpc =>
    have hsec : (w.threads t).section? = some r := by rw [hpc]; rfl
    unfold World.reset
    dsimp only
    split
    · exact .inr ⟨r, _, (giveBack_givenBack _ cap _ _ _).regions, .inr hsec, goTo_finished id⟩
    · exact .inr ⟨r, _, rfl, .inr hsec, goTo_finished id⟩
  | ensure hpc => exact .inl (by unfold World.callEnsure; dsimp only; split <;> rfl)
  | shrink hpc => exact .inl (by unfold World.callShrink; split <;> rfl)
  | reset hpc => exact .inl (by unfold World.callReset; split <;> rfl)
  | topUp hpc =>
    refine .inl ?_
    unfold World.topUp
    dsimp only
    repeat' split
    all_goals rfl
  | take hpc hfree =>
    refine .inl ?_
    unfold World.take
    dsimp only
    repeat' split
    all_goals rfl
  | create hpc => exact .inl (by unfold World.create; dsimp only; split <;> rfl)
  | refillStart hpc => exact .inl (by unfold World.refillStart; split <;> rfl)
  | refill hpc => exact .inl (by unfold World.refill; split <;> rfl)
  | touch hpc =>
    refine .inl ?_
    unfold World.touch
    dsimp only
    repeat' split
    all_goals rfl
  | push hpc => exact .inl (by unfold World.push; dsimp only; split <;> rfl)
  | releaseHostPool hpc => exact .inl rfl
  | caught hpc => exact .inl rfl
  | enough hpc => exact .inl rfl
  | lockShrink hpc hfree => exact .inl rfl
  | released hpc => exact .inl rfl
  | release hpc => exact .inl rfl

/-- The chunks, their owners and mappings, and the ledger, between two steps. -/
structure Sound (w : World ρ τ) : Prop where
  /-- A chunk not released has one owner; a thread is one only in the middle of a call. -/
  owned : ∀ h ∈ w.cuda.created, h ∉ w.cuda.released → ∃! o, h ∈ w.holding o
  distinct : ∀ o, (w.holding o).Nodup
  atRest : (∀ t, w.threads t = .idle) → ∀ h ∈ w.cuda.created, h ∉ w.cuda.released →
    (∃ r, h ∈ (w.regions r).handles) ∨ h ∈ w.pool.handles
  released : w.cuda.released.Nodup ∧ ∀ h ∈ w.cuda.released, ∀ o, h ∉ w.holding o
  mapped : ∀ r, w.mutex r = none →
    (w.regions r).mapped = (w.regions r).handles.length * (w.regions r).granularity
  maps : ∀ m, m ∈ w.cuda.maps ↔ ∃ r i h, (w.regions r).handles[i]? = some h ∧
    (m = ⟨(w.regions r).base + i * (w.regions r).granularity, (w.regions r).granularity, h⟩ ∨
      (w.regions r).window ≠ 0 ∧
        m = ⟨(w.regions r).window + i * (w.regions r).granularity, (w.regions r).granularity, h⟩)
  window : ∀ r, (w.regions r).window ≠ 0 → ∀ m ∈ w.cuda.maps, (w.regions r).window ≤ m.address →
    m.address < (w.regions r).window + (w.regions r).capacity → ∃ i h, (w.regions r).handles[i]? = some h ∧
      m = ⟨(w.regions r).window + i * (w.regions r).granularity, (w.regions r).granularity, h⟩
  sized : (∀ r, ∀ h ∈ (w.regions r).handles, h.bytes = (w.regions r).granularity) ∧
    ∀ h ∈ w.pool.handles, h.bytes = w.pool.granularity
  planes : w.plane_bytes = ∑ r, (w.regions r).planeBytes
  pool : w.plane_pool_bytes = ((w.pool.handles.map Handle.bytes).sum : Nat)

omit [DecidableEq τ] [DecidableEq ρ] in
theorem Inv.sound (hi : Inv w) : Sound w where
  owned := fun h hmade hkept => hi.handles.once.unique h ⟨hmade, hkept⟩
  distinct := hi.handles.once.nodup
  atRest := by
    intro hidle h hmade hkept
    obtain ⟨o, ho⟩ := (hi.handles.once.held h).mpr ⟨hmade, hkept⟩
    cases o with
    | region r => exact .inl ⟨r, ho⟩
    | pool => exact .inr ho
    | thread t =>
      change h ∈ (w.threads t).inHand at ho
      rw [hidle] at ho
      cases ho
  released := ⟨hi.handles.released, fun h hgone o ho => ((hi.handles.once.held h).mp ⟨o, ho⟩).2 hgone⟩
  mapped := hi.sections.whole
  maps := by
    intro m
    rw [hi.ranges.laid.mapped]
    constructor
    · rintro ⟨p, hp⟩
      obtain ⟨i, h, hget, heq⟩ := mem_chunks.mp hp
      cases p with
      | base r => exact ⟨r, i, h, hget, .inl heq⟩
      | window r =>
        by_cases hzero : (w.regions r).window = 0
        · simp [extents, Region.mirror, hzero] at hget
        refine ⟨r, i, h, ?_, .inr ⟨hzero, heq⟩⟩
        simpa [extents, Region.mirror, hzero] using hget
    · rintro ⟨r, i, h, hget, heq | ⟨hwindow, heq⟩⟩
      · exact ⟨.base r, mem_chunks.mpr ⟨i, h, hget, heq⟩⟩
      · refine ⟨.window r, mem_chunks.mpr ⟨i, h, ?_, heq⟩⟩
        simpa [extents, Region.mirror, hwindow] using hget
  window := by
    intro r hwindow m hm hlow hhigh
    obtain ⟨p, hp⟩ := (hi.ranges.laid.mapped m).mp hm
    by_cases hne : p = .window r
    · subst hne
      obtain ⟨i, h, hget, heq⟩ := mem_chunks.mp hp
      refine ⟨i, h, ?_, heq⟩
      simpa [extents, Region.mirror, hwindow] using hget
    -- a chunk of another place lies in that place's range, apart from the window
    obtain ⟨hstart, hfirst, hlast, hpos⟩ := (hi.ranges.laid.valid p).inside hp
    have hfits := (hi.ranges.laid.valid p).fits
    have hapart : (extents w.regions p).start + (extents w.regions p).capacity ≤ (w.regions r).window ∨
        (w.regions r).window + (w.regions r).capacity ≤ (extents w.regions p).start :=
      hi.ranges.laid.apart p (.window r) hne hstart hwindow
    omega
  sized := ⟨hi.bytes.chunks, hi.bytes.pooled⟩
  planes := hi.bytes.planes
  pool := hi.bytes.pool

/-- Whatever the order of the calls and the driver's answers: every chunk has one owner until
    its one release, the mappings are those of the regions and their windows, and the ledger
    counts them. A call that throws, and a round before its chunk is mapped, leaves every region
    and every mapping as it was; and no other thread changes a region whose mutex is held. -/
theorem chunks_sound {cap : Nat} (hinit : Initial w₀) (hrun : Run cap w₀ w) :
    Sound w ∧
    (∀ t a w', Promised w a → step cap w t a = some w' → (w'.threads t).unfinished →
      w'.regions = w.regions ∧ ∀ m, m ∈ w'.cuda.maps ↔ m ∈ w.cuda.maps) ∧
    ∀ t r, (w.threads t).section? = some r → ∀ t', t' ≠ t → ∀ a w', step cap w t' a = some w' →
      w'.regions r = w.regions r := by
  have hi := inv_run hinit hrun
  refine ⟨hi.sound, ?_, ?_⟩
  · intro t a w' hpromised hstep hunfinished
    have hi' := inv_step hi hpromised hstep
    rcases step_regions hstep with hsame | ⟨r, region, -, -, hfinished⟩
    · refine ⟨hsame, fun m => ?_⟩
      rw [hi'.ranges.laid.mapped, hi.ranges.laid.mapped, hsame]
    · exact absurd hunfinished hfinished
  · intro t r hsec t' hne a w' hstep
    rcases step_regions hstep with hsame | ⟨r', region, hregions, hmine, -⟩
    · rw [hsame]
    have hmutex := mutex_of_section hi hsec
    have hr : r ≠ r' := by
      intro heq
      subst heq
      rcases hmine with hfree | hmine
      · rw [hfree] at hmutex
        cases hmutex
      rw [mutex_of_section hi hmine] at hmutex
      exact hne (some.inj hmutex)
    rw [hregions, update_of_ne hr]

/-- A host region of four chunks at most, and a window for it. -/
def hostRegion : World Unit Unit where
  regions := fun _ => { base := 64, capacity := 8, granularity := 2, location := ⟨.hostNuma, 0⟩ }
  cuda := { reserved := [(64, 8), (128, 8)] }

/-- One chunk is created and mapped, the window put on, and the chunk mapped there too. -/
theorem chunks_sound_hostRegion : ∃ w : World Unit Unit, Sound w ∧ (w.regions ()).mapped = 2 ∧
    w.cuda.maps = [⟨64, 2, ⟨0, 2⟩⟩, ⟨128, 2, ⟨0, 2⟩⟩] ∧ w.plane_bytes = 2 := by
  have hinit : Initial hostRegion :=
    { unbacked := fun _ => ⟨rfl, rfl, rfl⟩
      whole := fun _ => show 2 ∣ 8 by decide
      sized := fun _ _ => show 0 < 2 by decide
      apart := fun r r' hne => absurd rfl hne
      reserved := by decide
      unmapped := ⟨rfl, rfl, rfl⟩
      pool := rfl
      ledger := ⟨rfl, rfl⟩
      idle := fun _ => rfl
      unlocked := fun _ => rfl }
  have hexclusive : ∀ w : World Unit Unit, (w.regions ()).base = 64 → (w.regions ()).capacity = 8 →
      Exclusive w.regions () 128 := by
    intro w hbase hcap p hne
    cases p with
    | base r => exact fun _ _ => .inr (by show (w.regions ()).base + (w.regions ()).capacity ≤ 128; omega)
    | window r => exact absurd rfl hne
  have hcalled : Run 0 hostRegion _ := .step (t := ()) (a := .ensure () 2) .start trivial rfl
  have htaken : Run 0 hostRegion _ := .step (t := ()) (a := .goOn none true {} 0) hcalled trivial rfl
  have hcreated : Run 0 hostRegion _ := .step (t := ()) (a := .goOn none true {} 0) htaken trivial rfl
  have hmapped : Run 0 hostRegion _ := .step (t := ()) (a := .goOn none true {} 0) hcreated trivial rfl
  have hreturned : Run 0 hostRegion _ := .step (t := ()) (a := .goOn none true {} 0) hmapped trivial rfl
  have hattached : Run 0 hostRegion _ := .step (t := ()) (a := .attachWindow () 128 (fun _ => true) true)
    hreturned (hexclusive _ rfl rfl) rfl
  exact ⟨_, (chunks_sound hinit hattached).1, rfl, rfl, rfl⟩

end VoidInfer.Exl3.GrowableRegion
