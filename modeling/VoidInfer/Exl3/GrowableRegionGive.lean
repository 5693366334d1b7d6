import VoidInfer.Exl3.GrowableRegionSteps

/-
  Chunks given back (`shrink`, `reset`), windows put on and taken off, and the pool's own steps: each keeps the
  invariant.
-/

namespace VoidInfer.Exl3.GrowableRegion
open List
open Function (update update_eq_self update_of_ne update_self)

open MappedRanges Custody

variable {ρ τ : Type} {w w' : World ρ τ} {t : τ} {r : ρ} {h : Handle} {thread : Thread ρ}
  {bytes mapped : Nat}

/-! ## `give_back` -/

theorem adopt_handles (pool : HostPool) (granularity : Nat) (location : Location) :
    (pool.adopt granularity location).handles = pool.handles := by
  unfold HostPool.adopt
  split <;> rfl

theorem adopt_granularity (pool : HostPool) (granularity : Nat) (location : Location) :
    pool.handles = [] ∨ (pool.adopt granularity location).granularity = pool.granularity := by
  unfold HostPool.adopt
  split
  · next hnil => exact .inl hnil
  · exact .inr rfl

/-- What becomes of a chunk given back: the pool has it, or it is released. -/
structure GivenBack (w w' : World ρ τ) (granularity : Nat) (h : Handle) : Prop where
  regions : w'.regions = w.regions
  mutex : w'.mutex = w.mutex
  threads : w'.threads = w.threads
  planes : w'.plane_bytes = w.plane_bytes
  size : w.pool.handles = [] ∨ w'.pool.granularity = w.pool.granularity
  outcome :
    (w'.pool.handles = w.pool.handles ++ [h] ∧ w'.pool.granularity = granularity ∧
      w'.plane_pool_bytes = w.plane_pool_bytes + granularity ∧ w'.cuda = w.cuda) ∨
    (w'.pool.handles = w.pool.handles ∧ w'.plane_pool_bytes = w.plane_pool_bytes ∧
      w'.cuda = w.cuda.cuMemRelease h)

theorem giveBack_givenBack (w : World ρ τ) (cap : Nat) (region : Region) (h : Handle) (available : Option Nat) :
    GivenBack w (w.giveBack cap region h available) region.granularity h := by
  unfold World.giveBack
  dsimp only
  split
  · split
    · next hfits =>
      refine ⟨rfl, rfl, rfl, rfl, adopt_granularity _ _ _, .inl ⟨?_, ?_, rfl, rfl⟩⟩
      · rw [adopt_handles]
      · exact (of_decide_eq_true hfits.1).1
    · exact ⟨rfl, rfl, rfl, rfl, adopt_granularity _ _ _, .inr ⟨adopt_handles _ _ _, rfl, rfl⟩⟩
  · exact ⟨rfl, rfl, rfl, rfl, .inr rfl, .inr ⟨rfl, rfl, rfl⟩⟩

variable {region : Region} {cuda : Cuda} {window : Nat}

/-! ## One region changed -/

theorem holding_same [DecidableEq ρ] [DecidableEq τ]
    (hregions : w'.regions = update w.regions r region) (hhandles : region.handles = (w.regions r).handles)
    (hpool : w'.pool.handles = w.pool.handles) (hthreads : w'.threads = update w.threads t thread)
    (hhand : thread.inHand = (w.threads t).inHand) (o : Owner ρ τ) : w'.holding o = w.holding o := by
  cases o with
  | region r' =>
    show (w'.regions r').handles = _
    rw [hregions]
    exact update_same (f := Region.handles) hhandles r'
  | pool => exact hpool
  | thread t' =>
    show (w'.threads t').inHand = (w.threads t').inHand
    rw [hthreads]
    by_cases ht : t' = t
    · subst ht
      rw [update_self, hhand]
    · rw [update_of_ne ht]

variable [Fintype ρ]

theorem Bytes.setRegion [DecidableEq ρ] (hb : Bytes w)
    (hregions : w'.regions = update w.regions r region) (hhandles : region.handles = (w.regions r).handles)
    (hsize : region.granularity = (w.regions r).granularity) (hlocation : region.location = (w.regions r).location)
    (hpool : w'.pool = w.pool) (hplanes : w'.plane_bytes = w.plane_bytes)
    (hpooled : w'.plane_pool_bytes = w.plane_pool_bytes) : Bytes w' := by
  refine ⟨?_, ?_, ?_, ?_⟩
  · intro r' x hx
    rw [hregions, update_same (f := Region.handles) hhandles] at hx
    rw [hregions, update_same (f := Region.granularity) hsize]
    exact hb.chunks r' x hx
  · rw [hpool]; exact hb.pooled
  · rw [hplanes, hregions, sum_planeBytes, hb.planes]
    have hsame : region.planeBytes = (w.regions r).planeBytes := by
      unfold Region.planeBytes Region.hostBacked
      rw [hhandles, hlocation]
    rw [hsame]
    ring
  · rw [hpooled, hpool]; exact hb.pool

theorem inv_attachFails [DecidableEq τ] (hi : Inv w) (hpc : w.threads t = .idle) {what : String}
    (hcreated : cuda.created = w.cuda.created) (hreleased : cuda.released = w.cuda.released)
    (hreserved : cuda.reserved = w.cuda.reserved) (hlaid : Laid (extents w.regions) cuda.maps) :
    Inv ({ w with cuda }.goTo t (.threw what)) where
  handles := hi.handles.frame (holding_goTo (w := { w with cuda }) (by rw [hpc]; rfl)) hcreated hreleased
  ranges := by
    refine ⟨hlaid, ?_, hi.ranges.whole, hi.ranges.sized⟩
    show ∀ e ∈ cuda.reserved, _
    rw [hreserved]
    exact hi.ranges.reserved
  bytes := hi.bytes.frame rfl rfl (.inr rfl) rfl rfl
  sections := hi.sections.outside rfl rfl rfl (by rw [hpc]; rfl) rfl trivial

/-! ## Rounds of `shrink` and `reset` -/

variable [DecidableEq ρ] [DecidableEq τ]

/-- The last chunk of a region, unmapped, is given back. -/
theorem inv_popped (hi : Inv w) {hs : List Handle} {cap : Nat} {available : Option Nat}
    (hsec : (w.threads t).section? = some r) (hhand : (w.threads t).inHand = [])
    (hhandles : (w.regions r).handles = hs ++ [h])
    (hlaid : Laid (extents (update w.regions r { w.regions r with handles := hs })) cuda.maps)
    (hcreated : cuda.created = w.cuda.created) (hreleased : cuda.released = w.cuda.released)
    (hreserved : cuda.reserved = w.cuda.reserved)
    (hnew : thread.section? = some r) (hnewHand : thread.inHand = [])
    (hok : thread.Ok (update w.regions r { w.regions r with handles := hs })) :
    Inv (((({ w with cuda }.setRegion r { w.regions r with handles := hs }).giveBack cap (w.regions r) h
      available).addPlaneBytes (w.regions r) (-(w.regions r).granularity)).goTo t thread) := by
  generalize hgiven : ({ w with cuda }.setRegion r { w.regions r with handles := hs } : World ρ τ).giveBack cap
    (w.regions r) h available = w'
  have hg := giveBack_givenBack ({ w with cuda }.setRegion r { w.regions r with handles := hs }) cap (w.regions r) h
    available
  rw [hgiven] at hg
  have hsize : h.bytes = (w.regions r).granularity := hi.bytes.chunks r h (by rw [hhandles]; simp)
  have hkept : ∀ o, o ≠ .pool → o ≠ .region r →
      ((w'.addPlaneBytes (w.regions r) (-(w.regions r).granularity)).goTo t thread).holding o = w.holding o := by
    intro o hpool hregion
    by_cases hthread : o = .thread t
    · subst hthread
      rw [holding_goTo_self, hnewHand]
      exact hhand.symm
    rw [holding_goTo_other hthread]
    cases o with
    | pool => exact absurd rfl hpool
    | region r' =>
      show (w'.regions r').handles = _
      rw [hg.regions]
      exact congrArg Region.handles (update_of_ne (fun heq => hregion (by rw [heq])) _ _)
    | thread t' =>
      show (w'.threads t').inHand = _
      rw [hg.threads]
      rfl
  have hmine : (w.holding (.region r)).Perm
      (h :: ((w'.addPlaneBytes (w.regions r) (-(w.regions r).granularity)).goTo t thread).holding (.region r)) := by
    show (w.regions r).handles.Perm (h :: (w'.regions r).handles)
    rw [hg.regions, hhandles]
    show (hs ++ [h]).Perm (h :: (update w.regions r _ r).handles)
    rw [update_self]
    exact perm_snoc hs h
  have hregions : ((w'.addPlaneBytes (w.regions r) (-(w.regions r).granularity)).goTo t thread).regions =
      update w.regions r { w.regions r with handles := hs } := hg.regions
  refine ⟨?_, ?_, ?_, ?_⟩
  · rcases hg.outcome with ⟨hpool, -, -, hcuda⟩ | ⟨hpool, -, hcuda⟩
    · refine hi.handles.moved (h := h) (a := .region r) (b := .pool) (by intro heq; cases heq) hmine ?_ ?_ ?_ ?_
      · show w'.pool.handles.Perm _
        rw [hpool]
        exact perm_snoc _ h
      · exact fun o hregion hpoolNe => hkept o hpoolNe hregion
      · show w'.cuda.created = _
        rw [hcuda]
        exact hcreated
      · show w'.cuda.released = _
        rw [hcuda]
        exact hreleased
    · refine hi.handles.gaveUp (h := h) (a := .region r) hmine ?_ ?_ ?_
      · intro o hregion
        by_cases hpoolNe : o = .pool
        · subst hpoolNe
          exact hpool
        · exact hkept o hpoolNe hregion
      · show w'.cuda.created = _
        rw [hcuda]
        exact hcreated
      · show w'.cuda.released = _
        rw [hcuda]
        exact congrArg (· ++ [h]) hreleased
  · have hmaps : w'.cuda.maps = cuda.maps ∧ w'.cuda.reserved = cuda.reserved := by
      rcases hg.outcome with ⟨-, -, -, hcuda⟩ | ⟨-, -, hcuda⟩ <;> rw [hcuda] <;> exact ⟨rfl, rfl⟩
    refine hi.ranges.setRegion hregions ?_ ?_ rfl rfl (.inl rfl)
    · show Laid _ w'.cuda.maps
      rw [hmaps.1]
      exact hlaid
    intro e he
    change e ∈ w'.cuda.reserved at he
    rw [hmaps.2, hreserved] at he
    exact hi.ranges.reserved e he
  · refine ⟨?_, ?_, ?_, ?_⟩
    · intro r' x hx
      rw [hregions] at hx ⊢
      rw [update_same (f := Region.granularity) (by rfl)]
      by_cases hr : r' = r
      · subst hr
        rw [update_self] at hx
        exact hi.bytes.chunks r' x (by rw [hhandles]; exact mem_append_left _ hx)
      rw [update_of_ne hr] at hx
      exact hi.bytes.chunks r' x hx
    · intro x hx
      show x.bytes = w'.pool.granularity
      change x ∈ w'.pool.handles at hx
      have hold : x ∈ w.pool.handles → x.bytes = w'.pool.granularity := by
        intro hx
        rcases hg.size with hnil | hgran
        · have hnil' : w.pool.handles = [] := hnil
          rw [hnil'] at hx
          cases hx
        rw [hgran]
        exact hi.bytes.pooled x hx
      rcases hg.outcome with ⟨hpool, hgran, -, -⟩ | ⟨hpool, -, -⟩ <;> rw [hpool] at hx
      · rcases mem_append.mp hx with hx | hx
        · exact hold hx
        · rw [mem_singleton.mp hx, hgran]
          exact hsize
      · exact hold hx
    · rw [hregions, sum_planeBytes]
      show (if (w.regions r).hostBacked = true then w'.plane_bytes + _ else w'.plane_bytes) = _
      rw [hg.planes]
      show (if (w.regions r).hostBacked = true then w.plane_bytes + _ else w.plane_bytes) = _
      rw [hi.bytes.planes]
      unfold Region.planeBytes
      by_cases hhost : (w.regions r).hostBacked = true
      · have hhost' : Region.hostBacked { w.regions r with handles := hs } = true := hhost
        rw [if_pos hhost, if_pos hhost, if_pos hhost', hhandles, sum_snoc, hsize]
        push_cast
        ring
      have hhost' : ¬ Region.hostBacked { w.regions r with handles := hs } = true := hhost
      rw [if_neg hhost, if_neg hhost, if_neg hhost']
      ring
    · show w'.plane_pool_bytes = ((w'.pool.handles.map Handle.bytes).sum : Nat)
      have hpoolBytes := hi.bytes.pool
      rcases hg.outcome with ⟨hpool, -, hledger, -⟩ | ⟨hpool, hledger, -⟩ <;> rw [hpool, hledger]
      · rw [sum_snoc, hsize, hpoolBytes]
        rfl
      · exact hpoolBytes
  · refine hi.sections.update (t := t) ?_ hregions rfl (.inr (mutex_of_section hi hsec))
      (.inr hsec) (.inr ⟨hnew, ?_⟩) hok
    · show update w'.threads t thread = _
      rw [hg.threads]
      rfl
    · show w'.mutex = _
      rw [hg.mutex]
      rw [← mutex_of_section hi hsec]
      exact (update_eq_self r w.mutex).symm

theorem inv_region (hi : Inv w) (hregions : w'.regions = update w.regions r region)
    (hhandles : region.handles = (w.regions r).handles) (hsize : region.granularity = (w.regions r).granularity)
    (hcap : region.capacity = (w.regions r).capacity) (hbase : region.base = (w.regions r).base ∨ region.base = 0)
    (hlocation : region.location = (w.regions r).location)
    (hpool : w'.pool = w.pool) (hplanes : w'.plane_bytes = w.plane_bytes)
    (hpooled : w'.plane_pool_bytes = w.plane_pool_bytes) (hcreated : w'.cuda.created = w.cuda.created)
    (hreleased : w'.cuda.released = w.cuda.released) (hreserved : ∀ e ∈ w'.cuda.reserved, 0 < e.1)
    (hlaid : Laid (extents (update w.regions r region)) w'.cuda.maps)
    (hthreads : w'.threads = update w.threads t thread) (hhand : thread.inHand = (w.threads t).inHand)
    (hsections : Sections w') : Inv w' where
  handles := hi.handles.frame (holding_same hregions hhandles (by rw [hpool]) hthreads hhand) hcreated hreleased
  ranges := hi.ranges.setRegion hregions hlaid hreserved hsize hcap hbase
  bytes := hi.bytes.setRegion hregions hhandles hsize hlocation hpool hplanes hpooled
  sections := hsections

theorem inv_shrink (hi : Inv w) (hpc : w.threads t = .shrink r bytes mapped) (cap : Nat) (available : Option Nat) :
    Inv (w.shrink cap t r bytes mapped available) := by
  have hok := hi.sections.ok t
  rw [hpc] at hok
  have hmapped : mapped = (w.regions r).handles.length * (w.regions r).granularity := hok
  have hsec : (w.threads t).section? = some r := by rw [hpc]; rfl
  have hends : Inv (((w.setRegion r { w.regions r with mapped }).unlock r).goTo t .idle) := by
    refine inv_region hi rfl rfl rfl rfl (.inl rfl) rfl rfl rfl rfl rfl rfl hi.ranges.reserved ?_ rfl (by rw [hpc]; rfl) ?_
    · refine hi.ranges.laid.congr (extents_update rfl ?_ fun _ _ _ => rfl)
      rfl
    exact hi.sections.update rfl rfl rfl (.inr (mutex_of_section hi hsec)) (.inr hsec)
      (.inl ⟨rfl, rfl, hmapped⟩) trivial
  unfold World.shrink
  dsimp only
  split
  · next h hlast =>
    obtain ⟨hs, hhandles⟩ := getLast?_eq_some_iff.mp hlast
    split
    · have hdrop : (w.regions r).handles.dropLast = hs := by rw [hhandles, dropLast_concat]
      have hnext : mapped - (w.regions r).granularity = hs.length * (w.regions r).granularity := by
        rw [hmapped, hhandles, length_append, length_singleton, Nat.succ_mul]
        omega
      rw [hdrop, hnext]
      have hpop := hi.ranges.pop hhandles
      refine inv_popped hi hsec (by rw [hpc]; rfl) hhandles ?_ ?_ ?_ ?_ rfl rfl ?_
      · split at hpop
        · next hzero => rw [if_pos hzero]; exact hpop
        · next hon => rw [if_neg hon]; exact hpop
      · split <;> rfl
      · split <;> rfl
      · split <;> rfl
      show _ = _ * _
      rw [update_self]
    · exact hends
  · exact hends

theorem inv_reset (hi : Inv w) (hpc : w.threads t = .reset r mapped) (cap : Nat) (available : Option Nat) :
    Inv (w.reset cap t r mapped available) := by
  have hok := hi.sections.ok t
  rw [hpc] at hok
  obtain ⟨hmapped, hwindow⟩ := hok
  have hsec : (w.threads t).section? = some r := by rw [hpc]; rfl
  unfold World.reset
  dsimp only
  split
  · next h hlast =>
    obtain ⟨hs, hhandles⟩ := getLast?_eq_some_iff.mp hlast
    have hdrop : (w.regions r).handles.dropLast = hs := by rw [hhandles, dropLast_concat]
    have hnext : mapped - (w.regions r).granularity = hs.length * (w.regions r).granularity := by
      rw [hmapped, hhandles, length_append, length_singleton, Nat.succ_mul]
      omega
    rw [hdrop, hnext]
    have hpop := hi.ranges.pop hhandles
    rw [if_pos hwindow] at hpop
    refine inv_popped hi hsec (by rw [hpc]; rfl) hhandles hpop rfl rfl rfl rfl rfl ?_
    refine ⟨?_, ?_⟩
    · rw [update_self]
    · rw [update_self]
      exact hwindow
  next hlast =>
  have hnil : (w.regions r).handles = [] := getLast?_eq_none_iff.mp hlast
  refine inv_region hi rfl rfl rfl rfl (.inr rfl) rfl rfl rfl rfl rfl rfl
    (fun e he => hi.ranges.reserved e (mem_of_mem_filter he)) ?_ rfl (by rw [hpc]; rfl) ?_
  · refine (hi.ranges.laid.restart (s := Place.base r) (a := 0)
      (F := update (extents w.regions) (.base r) { (w.regions r).extent with start := 0 })
      hnil (update_self _ _ _) (fun p hne => update_of_ne hne _ _) ?_).congr
      (extents_update ?_ ?_ ?_)
    · intro p _ hzero
      rw [update_self] at hzero
      exact absurd rfl hzero
    · rw [update_self]
      rfl
    · rfl
    · intro p hb _
      rw [update_of_ne hb]
  refine hi.sections.update rfl rfl rfl (.inr (mutex_of_section hi hsec)) (.inr hsec) (.inl ⟨rfl, rfl, ?_⟩) trivial
  show 0 = (w.regions r).handles.length * _
  rw [hnil]
  simp

/-! ## Windows -/

section
variable (hi : Inv w) (hfree : w.mutex r = none)
include hi hfree

theorem inv_lockReset (hpc : w.threads t = .resetLock r) : Inv (w.lockReset t r) := by
  have hwhole := hi.sections.whole r hfree
  have hoff := hi.ranges.unmirror hwhole
  unfold World.lockReset
  dsimp only
  generalize hcuda : (if (w.regions r).window ≠ 0 ∧ (w.regions r).mapped ≠ 0 then
    w.cuda.cuMemUnmap (w.regions r).window (w.regions r).mapped else w.cuda) = cuda
  have hfacts : cuda.created = w.cuda.created ∧ cuda.released = w.cuda.released ∧ cuda.reserved = w.cuda.reserved ∧
      Laid (extents (update w.regions r { w.regions r with window := 0 })) cuda.maps := by
    rw [← hcuda]
    split at hoff
    · next hon => rw [if_pos hon]; exact ⟨rfl, rfl, rfl, hoff⟩
    · next hon => rw [if_neg hon]; exact ⟨rfl, rfl, rfl, hoff⟩
  obtain ⟨hcreated, hreleased, hreserved, hlaid⟩ := hfacts
  refine inv_region hi rfl rfl rfl rfl (.inl rfl) rfl rfl rfl rfl hcreated hreleased (hreserved ▸ hi.ranges.reserved) hlaid rfl
    (by rw [hpc]; rfl) ?_
  refine hi.sections.update rfl rfl rfl (.inl hfree) (.inl (by rw [hpc]; rfl)) (.inr ⟨rfl, rfl⟩) ?_
  show _ = (update w.regions r _ r).handles.length * (update w.regions r _ r).granularity ∧
    (update w.regions r _ r).window = 0
  rw [update_self]
  exact ⟨hwhole, rfl⟩

theorem inv_setWindow (hpc : w.threads t = .idle) (hcreated : cuda.created = w.cuda.created)
    (hreleased : cuda.released = w.cuda.released) (hreserved : cuda.reserved = w.cuda.reserved)
    (hlaid : Laid (extents (update w.regions r { w.regions r with window })) cuda.maps) :
    Inv ({ w with cuda }.setRegion r { w.regions r with window }) := by
  have hthreads : w.threads = update w.threads t .idle := by
    rw [← hpc]
    exact (update_eq_self t w.threads).symm
  have hmutex : w.mutex = update w.mutex r none := by
    rw [← hfree]
    exact (update_eq_self r w.mutex).symm
  refine inv_region hi rfl rfl rfl rfl (.inl rfl) rfl rfl rfl rfl hcreated hreleased (hreserved ▸ hi.ranges.reserved) hlaid
    hthreads (by rw [hpc]) ?_
  exact hi.sections.update hthreads rfl rfl (.inl hfree) (.inl (by rw [hpc]; rfl))
    (.inl ⟨rfl, hmutex, hi.sections.whole r hfree⟩) trivial

theorem inv_detachWindow (hpc : w.threads t = .idle) : Inv (w.detachWindow r) := by
  have hoff := hi.ranges.unmirror (hi.sections.whole r hfree)
  unfold World.detachWindow
  dsimp only
  split
  · exact hi
  next hon =>
  refine inv_setWindow hi hfree hpc ?_ ?_ ?_ ?_
  · split <;> rfl
  · split <;> rfl
  · split <;> rfl
  by_cases hzero : (w.regions r).mapped = 0
  · rw [if_pos hzero]
    rw [if_neg (fun hboth => hboth.2 hzero)] at hoff
    exact hoff
  rw [if_neg hzero]
  rw [if_pos ⟨hon, hzero⟩] at hoff
  exact hoff

/-- `attach_window` throws and leaves region and mappings, or attaches. -/
theorem attach_cases (hexclusive : Exclusive w.regions r window) (answers : Nat → Bool) (access : Bool) :
    (∃ cuda what, w.attachWindow t r window answers access = { w with cuda }.goTo t (.threw what) ∧
      cuda.created = w.cuda.created ∧ cuda.released = w.cuda.released ∧ cuda.reserved = w.cuda.reserved ∧
      Laid (extents w.regions) cuda.maps) ∨
    (∃ cuda, w.attachWindow t r window answers access = { w with cuda }.setRegion r { w.regions r with window } ∧
      cuda.created = w.cuda.created ∧ cuda.released = w.cuda.released ∧ cuda.reserved = w.cuda.reserved ∧
      Laid (extents (update w.regions r { w.regions r with window })) cuda.maps) := by
  have hwhole := hi.sections.whole r hfree
  unfold World.attachWindow
  dsimp only
  split
  · exact .inl ⟨w.cuda, _, rfl, rfl, rfl, rfl, hi.ranges.laid⟩
  next hoff =>
  have hoff : (w.regions r).window = 0 := not_not.mp hoff
  by_cases hwindow : window = 0
  · -- address 0 is no range: the first map fails, and without chunks nothing changes
    subst hwindow
    by_cases hnil : (w.regions r).handles = []
    · have hmapped : (w.regions r).mapped = 0 := by
        rw [hwhole, hnil]
        simp
      have hloop : World.attachLoop answers 0 (w.regions r).granularity w.cuda 0 (w.regions r).handles =
          (w.cuda, none) := by
        rw [hnil]
        rfl
      rw [hloop]
      dsimp only
      rw [if_neg (fun hboth => hboth.1 hmapped)]
      refine .inr ⟨w.cuda, rfl, rfl, rfl, rfl, hi.ranges.laid.congr (extents_update ?_ ?_ fun _ _ _ => rfl)⟩
      · rfl
      · simp [extents, Region.mirror, hoff]
    obtain ⟨h, rest, hcons⟩ := exists_cons_of_ne_nil hnil
    have hfail : w.cuda.cuMemMap (answers 0) (0 + 0 * (w.regions r).granularity) (w.regions r).granularity h =
        none := by
      cases hmap : w.cuda.cuMemMap _ _ (w.regions r).granularity h with
      | none => rfl
      | some c =>
        have := hi.ranges.address_pos rfl hmap
        simp at this
    have hloop : World.attachLoop answers 0 (w.regions r).granularity w.cuda 0 (w.regions r).handles =
        (w.cuda, some 0) := by
      rw [hcons]
      dsimp only [World.attachLoop]
      rw [hfail]
    rw [hloop]
    exact .inl ⟨w.cuda, _, rfl, rfl, rfl, rfl, hi.ranges.laid⟩
  obtain ⟨hcreated, hreleased, hreserved, hsome, hnone⟩ := attachLoop_spec hi.ranges hwindow answers
    (w.regions r).handles 0 w.cuda rfl rfl (hi.ranges.mirrorStart hoff hexclusive)
  split
  · next cuda index hloop =>
    rw [hloop] at hcreated hreleased hreserved hsome
    obtain ⟨hle, hl⟩ := hsome index rfl
    have hundo := mirrored_undo hoff hl hle
    refine .inl ⟨_, _, rfl, ?_, ?_, ?_, ?_⟩
    · split
      · exact hcreated
      · exact hcreated
    · split
      · exact hreleased
      · exact hreleased
    · split
      · exact hreserved
      · exact hreserved
    split at hundo
    · next hzero => rw [if_pos hzero]; exact hundo
    · next hpos => rw [if_neg hpos]; exact hundo
  next cuda hloop =>
  rw [hloop] at hcreated hreleased hreserved hnone
  have hl := hnone rfl
  split
  · next hdenied =>
    refine .inl ⟨_, _, rfl, hcreated, hreleased, hreserved, ?_⟩
    have hundo := mirrored_undo hoff hl le_rfl
    rw [if_neg, ← hwhole] at hundo
    · exact hundo
    intro hzero
    apply hdenied.1
    rw [hwhole, hzero, Nat.zero_mul]
  · exact .inr ⟨_, rfl, hcreated, hreleased, hreserved, mirrored_all hwindow hl⟩

theorem inv_attachWindow (hpc : w.threads t = .idle) (hexclusive : Exclusive w.regions r window)
    (answers : Nat → Bool) (access : Bool) : Inv (w.attachWindow t r window answers access) := by
  rcases attach_cases hi hfree hexclusive answers access with
    ⟨cuda, what, heq, hcreated, hreleased, hreserved, hlaid⟩ | ⟨cuda, heq, hcreated, hreleased, hreserved, hlaid⟩ <;>
    rw [heq]
  · exact inv_attachFails hi hpc hcreated hreleased hreserved hlaid
  · exact inv_setWindow hi hfree hpc hcreated hreleased hreserved hlaid

end

end VoidInfer.Exl3.GrowableRegion
