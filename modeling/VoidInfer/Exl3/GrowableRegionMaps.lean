import VoidInfer.Exl3.GrowableRegionInv

/-
  What the driver's calls of one region do to the mappings: a chunk more or less at the end of its range and of its
  window, a window put on and taken off.
-/

namespace VoidInfer.Exl3.GrowableRegion
open List
open Function (update update_of_ne update_self)

open MappedRanges

variable {ρ τ : Type} {w : World ρ τ} {r : ρ} {h : Handle}

variable {c c' : Cuda} {success : Bool} {address size window : Nat} {maps : List (Mapping Handle)}

theorem cuMemMap_some (hmap : c.cuMemMap success address size h = some c') :
    c' = { c with maps := c.maps ++ [{ address, size, handle := h }] } ∧
      (∃ e ∈ c.reserved, e.1 ≤ address ∧ address + size ≤ e.1 + e.2) ∧
      ∀ m ∈ c.maps, m.address + m.size ≤ address ∨ address + size ≤ m.address := by
  unfold Cuda.cuMemMap at hmap
  split at hmap
  · next hguard =>
    exact ⟨(Option.some.inj hmap).symm, hguard.2.2⟩
  · cases hmap

theorem Ranges.address_pos (hr : Ranges w) (hreserved : c.reserved = w.cuda.reserved)
    (hmap : c.cuMemMap success address size h = some c') : 0 < address := by
  obtain ⟨-, ⟨e, he, hle, -⟩, -⟩ := cuMemMap_some hmap
  have := hr.reserved e (hreserved ▸ he)
  omega

theorem Ranges.valid (hr : Ranges w) (r : ρ) : (w.regions r).extent.Valid := hr.laid.valid (.base r)

theorem Ranges.room (hr : Ranges w) {bytes : Nat} (hlt : (w.regions r).handles.length * (w.regions r).granularity < bytes)
    (hle : bytes ≤ (w.regions r).capacity) :
    ((w.regions r).handles.length + 1) * (w.regions r).granularity ≤ (w.regions r).capacity := by
  obtain ⟨k, hk⟩ := hr.whole r
  rw [hk, Nat.mul_comm _ k] at hle ⊢
  refine Nat.mul_le_mul_right _ ?_
  by_contra hnot
  have := Nat.mul_le_mul_right (w.regions r).granularity (show k ≤ (w.regions r).handles.length by omega)
  omega

theorem Ranges.undo (hr : Ranges w) (hbase : (w.regions r).base ≠ 0)
    (hroom : ((w.regions r).handles.length + 1) * (w.regions r).granularity ≤ (w.regions r).capacity) (h : Handle) :
    clear ((w.regions r).base + (w.regions r).handles.length * (w.regions r).granularity) (w.regions r).granularity
      (w.cuda.maps ++ [(w.regions r).extent.chunk (w.regions r).handles.length h]) = w.cuda.maps := by
  rw [clear_append]
  · exact hr.laid.clear_free (s := Place.base r) hbase hroom
  intro m hm
  rw [mem_singleton.mp hm]
  exact ⟨le_rfl, le_rfl⟩

variable [DecidableEq ρ]

theorem extents_update {regions : ρ → Region} {region : Region} {E : Place ρ → Extent Handle}
    (hbase : E (.base r) = region.extent) (hwindow : E (.window r) = region.mirror)
    (hrest : ∀ p, p ≠ .base r → p ≠ .window r → E p = extents regions p) (p : Place ρ) :
    extents (update regions r region) p = E p := by
  cases p with
  | base r' =>
    by_cases hr : r' = r
    · subst hr
      rw [hbase]
      simp [extents]
    rw [hrest _ (by simpa using hr) (by simp)]
    simp [extents, hr]
  | window r' =>
    by_cases hr : r' = r
    · subst hr
      rw [hwindow]
      simp [extents]
    rw [hrest _ (by simp) (by simpa using hr)]
    simp [extents, hr]

section
variable (hr : Ranges w)
include hr

/-- The last chunk of a region goes, from its range and from its window. -/
theorem Ranges.pop {hs : List Handle} (hhandles : (w.regions r).handles = hs ++ [h]) :
    Laid (extents (update w.regions r { w.regions r with handles := hs }))
      (clear ((w.regions r).base + hs.length * (w.regions r).granularity) (w.regions r).granularity
        (if (w.regions r).window = 0 then w.cuda.maps
          else clear ((w.regions r).window + hs.length * (w.regions r).granularity) (w.regions r).granularity
            w.cuda.maps)) := by
  have htake : (w.regions r).handles.take hs.length = hs := by rw [hhandles]; simp
  have hlen : hs.length + 1 = (w.regions r).handles.length := by rw [hhandles]; simp
  have hone : 1 * (w.regions r).granularity = (w.regions r).granularity := Nat.one_mul _
  split
  · next hzero =>
    have hcut := hr.laid.cut (s := Place.base r) (l := hs) (n := 1)
      (F := update (extents w.regions) (.base r) { (w.regions r).extent with handles := hs })
      hlen htake (by rw [update_self]; rfl) (fun p hne => update_of_ne hne _ _)
    rw [show 1 * (extents w.regions (.base r)).size = (w.regions r).granularity from hone] at hcut
    refine hcut.congr (extents_update ?_ ?_ ?_)
    · rw [update_self]
      rfl
    · simp [extents, Region.mirror, hzero]
    intro p hb _
    rw [update_of_ne hb]
  next hwindow =>
  have hmirror : (extents w.regions (.window r)).handles = (w.regions r).handles := by
    simp [extents, Region.mirror, hwindow]
  have hcut := hr.laid.cut (s := Place.window r) (l := hs) (n := 1)
    (F := update (extents w.regions) (.window r) { (w.regions r).mirror with handles := hs })
    (by rw [hmirror]; exact hlen) (by rw [hmirror]; exact htake)
    (by rw [update_self]; rfl) (fun p hne => update_of_ne hne _ _)
  rw [show 1 * (extents w.regions (.window r)).size = (w.regions r).granularity from hone] at hcut
  have hbase : update (extents w.regions) (.window r) { (w.regions r).mirror with handles := hs }
      (.base r) = (w.regions r).extent := update_of_ne (by simp) _ _
  have hcut' := hcut.cut (s := Place.base r) (l := hs) (n := 1)
    (F := update (update (extents w.regions) (.window r)
      { (w.regions r).mirror with handles := hs }) (.base r) { (w.regions r).extent with handles := hs })
    (by exact hlen) (by exact htake) (by rw [update_self, hbase])
    (fun p hne => update_of_ne hne _ _)
  rw [hbase, show 1 * (w.regions r).extent.size = (w.regions r).granularity from hone] at hcut'
  refine hcut'.congr (extents_update ?_ ?_ ?_)
  · rw [update_self]
    rfl
  · simp [Region.mirror, hwindow]
  intro p hb hw
  rw [update_of_ne hb, update_of_ne hw]

/-- A window that is taken off. -/
theorem Ranges.unmirror (hwhole : (w.regions r).Whole) :
    Laid (extents (update w.regions r { w.regions r with window := 0 }))
      (if (w.regions r).window ≠ 0 ∧ (w.regions r).mapped ≠ 0 then
        clear (w.regions r).window (w.regions r).mapped w.cuda.maps else w.cuda.maps) := by
  have hclosed : ∀ {maps : List (Mapping Handle)} {E : Place ρ → Extent Handle}, Laid E maps →
      (E (.window r)).handles = [] → (∀ p, p ≠ .window r → E p = extents w.regions p) →
      (E (.window r)) = { (w.regions r).mirror with handles := [] } →
      Laid (extents (update w.regions r { w.regions r with window := 0 })) maps := by
    intro maps E hl hempty hrest hself
    refine (hl.restart (s := Place.window r) (a := 0)
      (F := update E (.window r) { E (.window r) with start := 0 }) hempty (update_self _ _ _)
      (fun p hne => update_of_ne hne _ _) ?_).congr (extents_update ?_ ?_ ?_)
    · intro p _ hzero
      rw [update_self] at hzero
      exact absurd rfl hzero
    · rw [update_of_ne (by simp), hrest _ (by simp)]
      rfl
    · rw [update_self, hself]
      simp [Region.mirror]
    intro p _ hw
    rw [update_of_ne hw, hrest p hw]
  split
  · next hon =>
    have hmirror : (extents w.regions (.window r)).handles = (w.regions r).handles := by
      simp [extents, Region.mirror, hon.1]
    have hcut := hr.laid.cut (s := Place.window r) (l := []) (n := (w.regions r).handles.length)
      (F := update (extents w.regions) (.window r) { (w.regions r).mirror with handles := [] })
      (by rw [hmirror]; simp) rfl (by rw [update_self]; rfl) (fun p hne => update_of_ne hne _ _)
    have hmaps : clear ((extents w.regions (.window r)).start + ([] : List Handle).length *
        (extents w.regions (.window r)).size) ((w.regions r).handles.length * (extents w.regions (.window r)).size)
        w.cuda.maps = clear (w.regions r).window (w.regions r).mapped w.cuda.maps := by
      rw [hwhole, length_nil, Nat.zero_mul, Nat.add_zero]
      rfl
    rw [hmaps] at hcut
    refine hclosed hcut ?_ ?_ ?_
    · rw [update_self]
    · intro p hne
      rw [update_of_ne hne]
    · rw [update_self]
  next hoff =>
  have hempty : (w.regions r).mirror.handles = [] := by
    by_cases hzero : (w.regions r).window = 0
    · simp [Region.mirror, hzero]
    have hmapped : (w.regions r).handles.length * (w.regions r).granularity = 0 := by
      rw [← hwhole]
      by_contra hne
      exact hoff ⟨hzero, hne⟩
    rcases Nat.mul_eq_zero.mp hmapped with hlen | hgran
    · simp [Region.mirror, length_eq_zero_iff.mp hlen]
    have hnil : (w.regions r).handles = [] := by
      by_contra hsome
      exact Nat.lt_irrefl 0 (hgran ▸ (hr.valid r).pos hsome)
    simp [Region.mirror, hnil]
  refine hclosed hr.laid hempty (fun _ _ => rfl) ?_
  show (w.regions r).mirror = _
  rw [← hempty]

theorem Ranges.growBase (hbase : (w.regions r).base ≠ 0)
    (hroom : ((w.regions r).handles.length + 1) * (w.regions r).granularity ≤ (w.regions r).capacity) (h : Handle) :
    Laid (update (extents w.regions) (.base r) { (w.regions r).extent with handles := (w.regions r).handles ++ [h] })
      (w.cuda.maps ++ [(w.regions r).extent.chunk (w.regions r).handles.length h]) :=
  hr.laid.grow (s := Place.base r) hbase (hr.sized r hbase) hroom (by rw [update_self]; rfl)
    (fun _ hne => update_of_ne hne _ _)

theorem Ranges.push (hbase : (w.regions r).base ≠ 0)
    (hroom : ((w.regions r).handles.length + 1) * (w.regions r).granularity ≤ (w.regions r).capacity) (h : Handle)
    (mapped : Nat) :
    Laid (extents (update w.regions r { w.regions r with handles := (w.regions r).handles ++ [h], mapped }))
      (if (w.regions r).window = 0 then
        w.cuda.maps ++ [(w.regions r).extent.chunk (w.regions r).handles.length h]
      else w.cuda.maps ++ [(w.regions r).extent.chunk (w.regions r).handles.length h] ++
        [(w.regions r).mirror.chunk (w.regions r).handles.length h]) := by
  have hgrown := hr.growBase hbase hroom h
  split
  · next hzero =>
    refine hgrown.congr (extents_update ?_ ?_ ?_)
    · rw [update_self]
      rfl
    · simp [extents, Region.mirror, hzero]
    intro p hb _
    rw [update_of_ne hb]
  next hwindow =>
  have hwin : update (extents w.regions) (.base r)
      { (w.regions r).extent with handles := (w.regions r).handles ++ [h] } (.window r) =
      (w.regions r).mirror := update_of_ne (by simp) _ _
  have hmirror : (w.regions r).mirror.handles = (w.regions r).handles := by
    simp [Region.mirror, hwindow]
  have hboth := hgrown.grow (s := Place.window r) (h := h)
    (F := update (update (extents w.regions) (.base r)
      { (w.regions r).extent with handles := (w.regions r).handles ++ [h] }) (.window r)
      { (w.regions r).mirror with handles := (w.regions r).handles ++ [h] })
    (by exact hwindow) (by exact hr.sized r hbase) (by rw [hwin, hmirror]; exact hroom)
    (by rw [update_self, hwin, hmirror]) (fun p hne => update_of_ne hne _ _)
  rw [hwin, hmirror] at hboth
  refine hboth.congr (extents_update ?_ ?_ ?_)
  · rw [update_of_ne (by simp), update_self]
    rfl
  · simp [Region.mirror, hwindow]
  intro p hb hw
  rw [update_of_ne hw, update_of_ne hb]

theorem Ranges.undoWindow (hbase : (w.regions r).base ≠ 0) (hwindow : (w.regions r).window ≠ 0)
    (hroom : ((w.regions r).handles.length + 1) * (w.regions r).granularity ≤ (w.regions r).capacity) (h : Handle) :
    clear ((w.regions r).window + (w.regions r).handles.length * (w.regions r).granularity) (w.regions r).granularity
      (w.cuda.maps ++ [(w.regions r).extent.chunk (w.regions r).handles.length h]) =
      w.cuda.maps ++ [(w.regions r).extent.chunk (w.regions r).handles.length h] := by
  have hgrown := hr.growBase hbase hroom h
  have hwin : update (extents w.regions) (.base r)
      { (w.regions r).extent with handles := (w.regions r).handles ++ [h] } (.window r) =
      (w.regions r).mirror := update_of_ne (by simp) _ _
  have hmirror : (w.regions r).mirror.handles = (w.regions r).handles := by
    simp [Region.mirror, hwindow]
  have hfree := hgrown.clear_free (s := Place.window r) (by exact hwindow) (by rw [hwin, hmirror]; exact hroom)
  rw [hwin, hmirror] at hfree
  exact hfree

end

/-! ## A window put on -/

/-- The ranges with `n` of the region's chunks mapped at `window`. -/
def mirrored (regions : ρ → Region) (r : ρ) (window n : Nat) : Place ρ → Extent Handle :=
  update (extents regions) (.window r)
    { (regions r).extent with start := window, handles := (regions r).handles.take n }

/-- The window's range stands apart from every region's range and from the other windows. -/
def Exclusive (regions : ρ → Region) (r : ρ) (window : Nat) : Prop :=
  ∀ p, p ≠ .window r → ({ (regions r).extent with start := window } : Extent Handle).Apart (extents regions p)

theorem Ranges.mirrorStart (hr : Ranges w) (hoff : (w.regions r).window = 0)
    (hexclusive : Exclusive w.regions r window) : Laid (mirrored w.regions r window 0) w.cuda.maps := by
  refine hr.laid.restart (s := Place.window r) (a := window) (by simp [extents, Region.mirror, hoff]) ?_
    (fun p hne => update_of_ne hne _ _) ?_
  · unfold mirrored
    simp [extents, Region.mirror, Region.extent, hoff]
  intro p hne
  unfold mirrored
  rw [update_self]
  exact hexclusive p hne

theorem mirrored_undo (hoff : (w.regions r).window = 0) {n : Nat}
    (hl : Laid (mirrored w.regions r window n) maps) (hn : n ≤ (w.regions r).handles.length) :
    Laid (extents w.regions) (if n = 0 then maps else clear window (n * (w.regions r).granularity) maps) := by
  have hself : mirrored w.regions r window n (.window r) =
      { (w.regions r).extent with start := window, handles := (w.regions r).handles.take n } :=
    update_self _ _ _
  have hrest : ∀ p, p ≠ .window r → mirrored w.regions r window n p = extents w.regions p :=
    fun p hne => update_of_ne hne _ _
  have hoffExtent : extents w.regions (.window r) = { (w.regions r).extent with start := 0, handles := [] } := by
    simp [extents, Region.mirror, Region.extent, hoff]
  have hzero : ∀ {maps : List (Mapping Handle)}, Laid (mirrored w.regions r window 0) maps →
      Laid (extents w.regions) maps := by
    intro maps hl
    refine hl.restart (s := Place.window r) (a := 0) ?_ ?_ ?_ ?_
    · unfold mirrored
      rw [update_self, take_zero]
    · rw [hoffExtent]
      unfold mirrored
      rw [update_self, take_zero]
    · intro p hne
      exact (update_of_ne hne _ _).symm
    intro p _ hstart
    rw [hoffExtent] at hstart
    exact absurd rfl hstart
  split
  · next hn0 =>
    subst hn0
    exact hzero hl
  have hcut := hl.cut (s := Place.window r) (l := []) (n := n) (F := mirrored w.regions r window 0)
    (by rw [hself]; simp [hn]) rfl
    (by rw [hself]; unfold mirrored; rw [update_self, take_zero])
    (fun p hne => by rw [hrest p hne]; exact update_of_ne hne _ _)
  rw [hself] at hcut
  have hmaps : clear (window + ([] : List Handle).length * (w.regions r).granularity)
      (n * (w.regions r).granularity) maps = clear window (n * (w.regions r).granularity) maps := by
    rw [length_nil, Nat.zero_mul, Nat.add_zero]
  exact hzero (hmaps ▸ hcut)

/-- What `attach_window`'s loop leaves: the chunks before the one that failed, or all. -/
theorem attachLoop_spec (hr : Ranges w) (hwindow : window ≠ 0) (answers : Nat → Bool)
    (rest : List Handle) : ∀ i cuda, (w.regions r).handles.drop i = rest → cuda.reserved = w.cuda.reserved →
      Laid (mirrored w.regions r window i) cuda.maps →
      let result := World.attachLoop answers window (w.regions r).granularity cuda i rest
      result.1.created = cuda.created ∧ result.1.released = cuda.released ∧ result.1.reserved = cuda.reserved ∧
        (∀ k, result.2 = some k → k ≤ (w.regions r).handles.length ∧ Laid (mirrored w.regions r window k) result.1.maps) ∧
        (result.2 = none → Laid (mirrored w.regions r window (w.regions r).handles.length) result.1.maps) := by
  induction rest with
  | nil =>
    intro i cuda hdrop hreserved hl
    have hlen : (w.regions r).handles.length ≤ i := drop_eq_nil_iff.mp hdrop
    refine ⟨rfl, rfl, rfl, fun k hk => by simp [World.attachLoop] at hk, fun _ => ?_⟩
    refine hl.congr fun p => ?_
    unfold mirrored
    rw [take_of_length_le hlen, take_of_length_le le_rfl]
  | cons h rest ih =>
    intro i cuda hdrop hreserved hl
    have hi : i < (w.regions r).handles.length := by
      by_contra hnot
      rw [drop_eq_nil_of_le (by omega)] at hdrop
      cases hdrop
    have hget : (w.regions r).handles[i]? = some h := by
      have hfirst : ((w.regions r).handles.drop i)[0]? = (w.regions r).handles[i + 0]? := getElem?_drop
      rw [hdrop] at hfirst
      exact hfirst.symm
    have htake : (w.regions r).handles.take (i + 1) = (w.regions r).handles.take i ++ [h] := by
      rw [take_add_one, hget]
      rfl
    have hself : mirrored w.regions r window i (.window r) =
        { (w.regions r).extent with start := window, handles := (w.regions r).handles.take i } :=
      update_self _ _ _
    have hlen : ((w.regions r).handles.take i).length = i := by simp; omega
    dsimp only [World.attachLoop]
    split
    · next hfail =>
      refine ⟨rfl, rfl, rfl, fun k hk => ?_, fun hnone => by cases hnone⟩
      have hk : i = k := Option.some.inj hk
      subst hk
      exact ⟨Nat.le_of_lt hi, hl⟩
    next cuda' hmap =>
    obtain ⟨rfl, -, -⟩ := cuMemMap_some hmap
    have hgrown := hl.grow (s := Place.window r) (h := h) (F := mirrored w.regions r window (i + 1))
      (by rw [hself]; exact hwindow)
      (by rw [hself]; exact (hr.valid r).pos fun hnil => by simp [Region.extent] at hnil; simp [hnil] at hi)
      (by
        rw [hself]
        rw [hlen]
        exact Nat.le_trans (Nat.mul_le_mul_right _ hi) (hr.valid r).fits)
      (by rw [hself]; unfold mirrored; rw [update_self, htake])
      (fun p hne => by unfold mirrored; rw [update_of_ne hne, update_of_ne hne])
    rw [hself] at hgrown
    have hchunk : ({ (w.regions r).extent with start := window, handles := (w.regions r).handles.take i } :
        Extent Handle).chunk ((w.regions r).handles.take i).length h =
        { address := window + i * (w.regions r).granularity, size := (w.regions r).granularity, handle := h } := by
      rw [hlen]
      rfl
    rw [hchunk] at hgrown
    refine ih _ _ ?_ hreserved hgrown
    rw [← drop_drop, hdrop]
    rfl

theorem mirrored_all (hwindow : window ≠ 0)
    (hl : Laid (mirrored w.regions r window (w.regions r).handles.length) maps) :
    Laid (extents (update w.regions r { w.regions r with window })) maps := by
  refine hl.congr (extents_update ?_ ?_ ?_)
  · unfold mirrored
    rfl
  · unfold mirrored
    simp [Region.mirror, Region.extent, hwindow]
  intro p _ hw
  exact update_of_ne hw _ _

end VoidInfer.Exl3.GrowableRegion
