import VoidInfer.Exl3.GrowableRegionMaps

/-
  Every step keeps the invariant: one lemma for each operation, from the four parts.
-/

namespace VoidInfer.Exl3.GrowableRegion
open List
open Function (update update_eq_self update_of_ne update_self)

open MappedRanges Custody

variable {ρ τ : Type} {w w' : World ρ τ} {t : τ} {r : ρ} {h : Handle}
  {thread : Thread ρ} {bytes mapped : Nat}

/-! ## Holding -/

theorem holding_goTo_self [DecidableEq τ] : (w.goTo t thread).holding (.thread t) = thread.inHand := by
  simp [World.holding, World.goTo]

theorem holding_goTo_other [DecidableEq τ] {o : Owner ρ τ} (hne : o ≠ .thread t) :
    (w.goTo t thread).holding o = w.holding o := by
  cases o with
  | region r => rfl
  | pool => rfl
  | thread t' =>
    have ht : t' ≠ t := fun heq => hne (heq ▸ rfl)
    simp [World.holding, World.goTo, ht]

theorem holding_goTo [DecidableEq τ] (hhand : thread.inHand = (w.threads t).inHand) (o : Owner ρ τ) :
    (w.goTo t thread).holding o = w.holding o := by
  by_cases ho : o = .thread t
  · subst ho
    rw [holding_goTo_self, hhand]
    rfl
  · exact holding_goTo_other ho

theorem holding_setRegion_self [DecidableEq ρ] {region : Region} :
    (w.setRegion r region).holding (.region r) = region.handles := by
  simp [World.holding, World.setRegion]

theorem holding_setRegion_other [DecidableEq ρ] {region : Region} {o : Owner ρ τ} (hne : o ≠ .region r) :
    (w.setRegion r region).holding o = w.holding o := by
  cases o with
  | region r' =>
    have hr : r' ≠ r := fun heq => hne (heq ▸ rfl)
    simp [World.holding, World.setRegion, hr]
  | pool => rfl
  | thread t => rfl

theorem perm_snoc (hs : List Handle) (h : Handle) : (hs ++ [h]).Perm (h :: hs) := perm_append_singleton h hs

theorem sum_snoc (hs : List Handle) (h : Handle) :
    ((hs ++ [h]).map Handle.bytes).sum = (hs.map Handle.bytes).sum + h.bytes := by
  simp

theorem sum_of_size {hs : List Handle} {n : Nat} (heq : ∀ h ∈ hs, h.bytes = n) :
    (hs.map Handle.bytes).sum = hs.length * n := by
  induction hs with
  | nil => simp
  | cons h rest ih =>
    rw [map_cons, sum_cons, ih fun x hx => heq x (mem_cons_of_mem _ hx), heq h mem_cons_self,
      length_cons, Nat.succ_mul, Nat.add_comm]

/-! ## Steps that move no chunk -/

variable [Fintype ρ]

theorem mutex_of_section (hi : Inv w) (hsec : (w.threads t).section? = some r) : w.mutex r = some t :=
  (hi.sections.holds t r).mp hsec

variable [DecidableEq τ]

theorem inv_outside (hi : Inv w) (hregions : w'.regions = w.regions) (hmutex : w'.mutex = w.mutex)
    (hpool : w'.pool.handles = w.pool.handles) (hsize : w'.pool.granularity = w.pool.granularity)
    (hplanes : w'.plane_bytes = w.plane_bytes) (hpooled : w'.plane_pool_bytes = w.plane_pool_bytes)
    (hcreated : w'.cuda.created = w.cuda.created) (hreleased : w'.cuda.released = w.cuda.released)
    (hmaps : w'.cuda.maps = w.cuda.maps) (hreserved : ∀ e ∈ w'.cuda.reserved, 0 < e.1)
    (hthreads : w'.threads = update w.threads t thread) (hold : (w.threads t).section? = none)
    (hnew : thread.section? = none) (hhand : thread.inHand = (w.threads t).inHand) (hok : thread.Ok w.regions) :
    Inv w' := by
  refine ⟨hi.handles.frame (fun o => ?_) hcreated hreleased, hi.ranges.frame hregions hmaps hreserved,
    hi.bytes.frame hregions hpool (.inr hsize) hplanes hpooled,
    hi.sections.outside hthreads hregions hmutex hold hnew hok⟩
  cases o with
  | region r =>
    show (w'.regions r).handles = _
    rw [hregions]
    rfl
  | pool => exact hpool
  | thread t' =>
    show (w'.threads t').inHand = (w.threads t').inHand
    rw [hthreads]
    by_cases ht : t' = t
    · subst ht
      rw [update_self, hhand]
    · rw [update_of_ne ht]

theorem inv_goTo (hi : Inv w) (hold : (w.threads t).section? = none) (hnew : thread.section? = none)
    (hhand : thread.inHand = (w.threads t).inHand) (hok : thread.Ok w.regions) : Inv (w.goTo t thread) :=
  inv_outside hi rfl rfl rfl rfl rfl rfl rfl rfl rfl hi.ranges.reserved rfl hold hnew hhand hok

section
variable (hi : Inv w) (hpc : w.threads t = .idle)
include hi hpc

theorem inv_callEnsure : Inv (w.callEnsure t r bytes) := by
  unfold World.callEnsure
  dsimp only
  split
  · exact inv_goTo hi (by rw [hpc]; rfl) rfl (by rw [hpc]; rfl) trivial
  · exact inv_goTo hi (by rw [hpc]; rfl) rfl (by rw [hpc]; rfl) (Nat.min_le_right _ _)

theorem inv_callShrink : Inv (w.callShrink t r bytes) := by
  unfold World.callShrink
  split
  · exact hi
  · exact inv_goTo hi (by rw [hpc]; rfl) rfl (by rw [hpc]; rfl) trivial

theorem inv_callReset : Inv (w.callReset t r) := by
  unfold World.callReset
  split
  · exact hi
  · exact inv_goTo hi (by rw [hpc]; rfl) rfl (by rw [hpc]; rfl) trivial

end

variable [DecidableEq ρ]

theorem inv_lock (hi : Inv w) (hfree : w.mutex r = none) (hold : (w.threads t).section? = none)
    (hnew : thread.section? = some r) (hhand : thread.inHand = (w.threads t).inHand) (hok : thread.Ok w.regions) :
    Inv ((w.lock t r).goTo t thread) where
  handles := hi.handles.frame (holding_goTo (w := w.lock t r) hhand) rfl rfl
  ranges := hi.ranges.frame rfl rfl hi.ranges.reserved
  bytes := hi.bytes.frame rfl rfl (.inr rfl) rfl rfl
  sections := hi.sections.step rfl (fun _ _ => rfl) rfl (.inl hfree) (.inl hold) (.inr ⟨hnew, rfl⟩) hok

theorem inv_unlock (hi : Inv w) (hold : (w.threads t).section? = some r) (hnew : thread.section? = none)
    (hhand : thread.inHand = (w.threads t).inHand) (hok : thread.Ok w.regions) (hwhole : (w.regions r).Whole) :
    Inv ((w.unlock r).goTo t thread) where
  handles := hi.handles.frame (holding_goTo (w := w.unlock r) hhand) rfl rfl
  ranges := hi.ranges.frame rfl rfl hi.ranges.reserved
  bytes := hi.bytes.frame rfl rfl (.inr rfl) rfl rfl
  sections := hi.sections.step rfl (fun _ _ => rfl) rfl (.inr (mutex_of_section hi hold)) (.inr hold)
    (.inl ⟨hnew, rfl, hwhole⟩) hok

theorem inv_lockShrink (hi : Inv w) (hfree : w.mutex r = none) (hpc : w.threads t = .shrinkLock r bytes) :
    Inv (w.lockShrink t r bytes) := by
  exact inv_lock hi hfree (by rw [hpc]; rfl) rfl (by rw [hpc]; rfl) (hi.sections.whole r hfree)

/-! ## A round of `ensure` -/

theorem inv_take (hi : Inv w) (hfree : w.mutex r = none) (hpc : w.threads t = .ensure r bytes) :
    Inv (w.take t r bytes) := by
  have hbytes : bytes ≤ (w.regions r).capacity := by
    have hok := hi.sections.ok t
    rw [hpc] at hok
    exact hok
  have hwhole := hi.sections.whole r hfree
  unfold World.take
  dsimp only
  split
  · exact inv_goTo hi (by rw [hpc]; rfl) rfl (by rw [hpc]; rfl) trivial
  next hmore =>
  have hfacts : (w.regions r).Whole ∧ (w.regions r).mapped = (w.regions r).mapped ∧
      (w.regions r).mapped < bytes ∧ bytes ≤ (w.regions r).capacity := ⟨hwhole, rfl, by omega, hbytes⟩
  split
  · next h hlast =>
    obtain ⟨hs, hpool⟩ := getLast?_eq_some_iff.mp hlast
    have hpool' : w.pool.handles = hs ++ [h] := hpool
    split
    · next htake =>
      have hgran : w.pool.granularity = (w.regions r).granularity := (of_decide_eq_true htake.2).1
      have hsize : h.bytes = w.pool.granularity := hi.bytes.pooled h (by rw [hpool']; simp)
      have hdrop : (w.lock t r).pool.handles.dropLast = hs := by
        show w.pool.handles.dropLast = hs
        rw [hpool', dropLast_concat]
      rw [hdrop]
      refine ⟨?_, ?_, ?_, ?_⟩
      · refine hi.handles.moved (h := h) (a := .pool) (b := .thread t) (by intro heq; cases heq) ?_ ?_ ?_ rfl rfl
        · show w.pool.handles.Perm _
          rw [hpool']
          exact perm_snoc hs h
        · rw [holding_goTo_self]
          show [h].Perm (h :: (w.threads t).inHand)
          rw [hpc]
          exact List.Perm.refl _
        · intro o hpoolNe hthreadNe
          rw [holding_goTo_other hthreadNe]
          cases o with
          | pool => exact absurd rfl hpoolNe
          | region r' => rfl
          | thread t' => rfl
      · exact hi.ranges.frame rfl rfl hi.ranges.reserved
      · refine ⟨hi.bytes.chunks, ?_, hi.bytes.planes, ?_⟩
        · intro x hx
          exact hi.bytes.pooled x (by rw [hpool']; exact mem_append_left _ hx)
        · show w.plane_pool_bytes - ((w.regions r).granularity : Int) = ((hs.map Handle.bytes).sum : Nat)
          rw [hi.bytes.pool, hpool', sum_snoc, hsize, hgran]
          omega
      · exact hi.sections.step rfl (fun _ _ => rfl) rfl (.inl hfree) (.inl (by rw [hpc]; rfl))
          (.inr ⟨rfl, rfl⟩) ⟨hfacts, hsize.trans hgran⟩
    · exact inv_lock hi hfree (by rw [hpc]; rfl) rfl (by rw [hpc]; rfl) hfacts
  · exact inv_lock hi hfree (by rw [hpc]; rfl) rfl (by rw [hpc]; rfl) hfacts

theorem inv_create (hi : Inv w) (hpc : w.threads t = .creating r bytes mapped) (success : Bool) :
    Inv (w.create t r bytes mapped success) := by
  have hok := hi.sections.ok t
  rw [hpc] at hok
  have hsec : (w.threads t).section? = some r := by rw [hpc]; rfl
  unfold World.create
  split
  · refine ⟨?_, ?_, ?_, ?_⟩
    · refine hi.handles.made' (a := .thread t) ?_ ?_ rfl rfl
      · rw [holding_goTo_self]
        show [_].Perm (_ :: (w.threads t).inHand)
        rw [hpc]
        exact List.Perm.refl _
      · intro o hne
        rw [holding_goTo_other hne]
        cases o <;> rfl
    · exact hi.ranges.frame rfl rfl hi.ranges.reserved
    · exact hi.bytes.frame rfl rfl (.inr rfl) rfl rfl
    · refine hi.sections.step rfl (fun _ _ => rfl) rfl (.inr (mutex_of_section hi hsec)) (.inr hsec)
        (.inr ⟨rfl, ?_⟩) ⟨hok, rfl⟩
      rw [← mutex_of_section hi hsec]
      exact (update_eq_self r w.mutex).symm
  · exact inv_unlock hi hsec rfl (by rw [hpc]; rfl) trivial hok.1

theorem mapWindow_cases (cuda : Cuda) (region : Region) (mapped : Nat) (h : Handle) (answers : World.MapAnswers) :
    (region.window = 0 ∧ World.mapWindow cuda region mapped h answers = (cuda, true)) ∨
    (region.window ≠ 0 ∧ World.mapWindow cuda region mapped h answers = (cuda, false)) ∨
    (region.window ≠ 0 ∧ ∃ ok, World.mapWindow cuda region mapped h answers =
      ({ cuda with maps := cuda.maps ++ [⟨region.window + mapped, region.granularity, h⟩] }, ok)) := by
  unfold World.mapWindow
  split
  · next hzero => exact .inl ⟨hzero, rfl⟩
  next hwindow =>
  split
  · exact .inr (.inl ⟨hwindow, rfl⟩)
  next cuda' hmap =>
  obtain ⟨rfl, -, -⟩ := cuMemMap_some hmap
  exact .inr (.inr ⟨hwindow, _, rfl⟩)

section
variable (hi : Inv w) (hpc : w.threads t = .mapping r bytes mapped h) (answers : World.MapAnswers)
include hi hpc answers

/-- How a round ends once its chunk is in hand: it fails with the driver's mappings as they were,
    or the chunk is the region's. -/
theorem map_cases : (∃ what, w.map t r bytes mapped h answers = w.mapFails t r w.cuda h what) ∨
    (∃ maps, w.map t r bytes mapped h answers =
        (((({ w with cuda := { w.cuda with maps } }.setRegion r
          { w.regions r with
            handles := (w.regions r).handles ++ [h], mapped := mapped + (w.regions r).granularity }).addPlaneBytes
              (w.regions r) (w.regions r).granularity).unlock r)).goTo t (.ensure r bytes) ∧
      Laid (extents (update w.regions r { w.regions r with
          handles := (w.regions r).handles ++ [h], mapped := mapped + (w.regions r).granularity })) maps) := by
  have hok := hi.sections.ok t
  rw [hpc] at hok
  obtain ⟨⟨hwhole, rfl, hlt, hle⟩, -⟩ := hok
  rw [hwhole] at hlt
  have hroom := hi.ranges.room hlt hle
  unfold World.map
  dsimp only
  split
  · exact .inl ⟨_, rfl⟩
  next cuda hmap =>
  have hbase : (w.regions r).base ≠ 0 := by
    intro hzero
    have hpos := hi.ranges.address_pos rfl hmap
    have hnil : (w.regions r).handles = [] := (hi.ranges.valid r).closed hzero
    rw [hzero, hwhole, hnil] at hpos
    simp at hpos
  obtain ⟨rfl, -, -⟩ := cuMemMap_some hmap
  have hundo := hi.ranges.undo hbase hroom h
  have hchunk : (⟨(w.regions r).base + (w.regions r).mapped, (w.regions r).granularity, h⟩ : Mapping Handle) =
      (w.regions r).extent.chunk (w.regions r).handles.length h := by
    rw [hwhole]
    rfl
  rw [← hchunk, ← hwhole] at hundo
  have hback : ({ w.cuda with
      maps := w.cuda.maps ++ [⟨(w.regions r).base + (w.regions r).mapped, (w.regions r).granularity, h⟩] } :
        Cuda).cuMemUnmap ((w.regions r).base + (w.regions r).mapped) (w.regions r).granularity = w.cuda := by
    unfold Cuda.cuMemUnmap
    rw [hundo]
  split
  · rw [hback]
    exact .inl ⟨_, rfl⟩
  have hpush := hi.ranges.push hbase hroom h ((w.regions r).mapped + (w.regions r).granularity)
  rw [← hchunk] at hpush
  rcases mapWindow_cases { w.cuda with
      maps := w.cuda.maps ++ [⟨(w.regions r).base + (w.regions r).mapped, (w.regions r).granularity, h⟩] }
      _ (w.regions r).mapped h answers with
    ⟨hwindow, heq⟩ | ⟨hwindow, heq⟩ | ⟨hwindow, ok, heq⟩
  · rw [if_pos hwindow] at hpush
    rw [heq, if_neg (by simp)]
    exact .inr ⟨_, rfl, hpush⟩
  · have hundoWindow := hi.ranges.undoWindow hbase hwindow hroom h
    rw [← hchunk, ← hwhole] at hundoWindow
    rw [heq, if_pos rfl]
    refine .inl ⟨"growable region window map", ?_⟩
    dsimp only [Cuda.cuMemUnmap]
    rw [hundoWindow, hundo]
  have hundoWindow := hi.ranges.undoWindow hbase hwindow hroom h
  rw [← hchunk, ← hwhole] at hundoWindow
  rw [heq]
  cases ok with
  | false =>
    rw [if_pos rfl]
    refine .inl ⟨"growable region window map", ?_⟩
    dsimp only [Cuda.cuMemUnmap]
    rw [clear_append, hundoWindow, hundo]
    intro m hm
    rw [mem_singleton.mp hm]
    exact ⟨le_rfl, le_rfl⟩
  | true =>
    rw [if_neg hwindow] at hpush
    refine .inr ⟨_, rfl, ?_⟩
    have hmirror : (⟨(w.regions r).window + (w.regions r).mapped, (w.regions r).granularity, h⟩ :
        Mapping Handle) = (w.regions r).mirror.chunk (w.regions r).handles.length h := by
      rw [hwhole]
      rfl
    rw [hmirror]
    exact hpush

theorem inv_map : Inv (w.map t r bytes mapped h answers) := by
  have hok := hi.sections.ok t
  rw [hpc] at hok
  obtain ⟨⟨hwhole, hmapped, hlt, hle⟩, hsize⟩ := hok
  have hsec : (w.threads t).section? = some r := by rw [hpc]; rfl
  have hhand : w.holding (.thread t) = [h] := by
    show (w.threads t).inHand = [h]
    rw [hpc]
    rfl
  rcases map_cases hi hpc answers with ⟨what, heq⟩ | ⟨maps, heq, hlaid⟩ <;> rw [heq]
  · refine ⟨?_, ?_, ?_, ?_⟩
    · refine hi.handles.gaveUp (h := h) (a := .thread t) ?_ ?_ rfl rfl
      · rw [hhand]
        unfold World.mapFails
        rw [holding_goTo_self]
        exact List.Perm.refl _
      · intro o hne
        unfold World.mapFails
        rw [holding_goTo_other hne]
        cases o <;> rfl
    · exact hi.ranges.frame rfl rfl hi.ranges.reserved
    · exact hi.bytes.frame rfl rfl (.inr rfl) rfl rfl
    · exact hi.sections.step rfl (fun _ _ => rfl) rfl (.inr (mutex_of_section hi hsec)) (.inr hsec)
        (.inl ⟨rfl, rfl, hwhole⟩) trivial
  refine ⟨?_, ?_, ?_, ?_⟩
  · refine hi.handles.moved (h := h) (a := .thread t) (b := .region r) (by intro heq; cases heq) ?_ ?_ ?_ rfl rfl
    · rw [hhand, holding_goTo_self]
      exact List.Perm.refl _
    · show (World.holding (World.setRegion _ r _) (.region r)).Perm _
      rw [holding_setRegion_self]
      exact perm_snoc _ h
    · intro o hthread hregion
      rw [holding_goTo_other hthread]
      show World.holding (World.setRegion _ r _) o = _
      rw [holding_setRegion_other hregion]
      cases o <;> rfl
  · exact hi.ranges.setRegion rfl hlaid hi.ranges.reserved rfl rfl (.inl rfl)
  · refine ⟨?_, hi.bytes.pooled, ?_, hi.bytes.pool⟩
    · intro r' x hx
      change x ∈ (update w.regions r _ r').handles at hx
      show x.bytes = (update w.regions r _ r').granularity
      by_cases hr : r' = r
      · subst hr
        rw [update_self] at hx ⊢
        rcases mem_append.mp hx with hx | hx
        · exact hi.bytes.chunks r' x hx
        rw [mem_singleton.mp hx]
        exact hsize
      rw [update_of_ne hr] at hx ⊢
      exact hi.bytes.chunks r' x hx
    · show (if (w.regions r).hostBacked = true then w.plane_bytes + _ else w.plane_bytes) =
        ∑ r', (update w.regions r _ r').planeBytes
      rw [sum_planeBytes, hi.bytes.planes]
      unfold Region.planeBytes
      by_cases hhost : (w.regions r).hostBacked = true
      · have hhost' : Region.hostBacked { w.regions r with
            handles := (w.regions r).handles ++ [h], mapped := mapped + (w.regions r).granularity } = true := hhost
        rw [if_pos hhost, if_pos hhost, if_pos hhost', sum_snoc, hsize]
        push_cast
        ring
      have hhost' : ¬ Region.hostBacked { w.regions r with
          handles := (w.regions r).handles ++ [h], mapped := mapped + (w.regions r).granularity } = true := hhost
      rw [if_neg hhost, if_neg hhost, if_neg hhost']
      ring
  · refine hi.sections.update rfl rfl rfl (.inr (mutex_of_section hi hsec)) (.inr hsec) (.inl ⟨rfl, rfl, ?_⟩) ?_
    · show mapped + _ = (_ ++ [h]).length * _
      rw [hmapped, hwhole, length_append, length_singleton, Nat.succ_mul]
    · show bytes ≤ (update w.regions r _ r).capacity
      rw [update_self]
      exact hle

end

end VoidInfer.Exl3.GrowableRegion
