import VoidInfer.Exl3.GrowableRegion
import Mathlib.Algebra.BigOperators.Group.Finset.Basic
import Mathlib.Algebra.BigOperators.Group.Finset.Piecewise
import Mathlib.Tactic.Ring

/-
  What holds between any two steps, in four parts: who holds each chunk (`Handles`), what is mapped where (`Ranges`),
  what the ledger counts (`Bytes`), and what the threads inside a region's mutex know (`Sections`).
-/

namespace VoidInfer.Exl3.GrowableRegion
open List Function

open MappedRanges Custody

variable {ρ τ : Type}

/-! ## The four parts -/

inductive Owner (ρ τ : Type) where
  | region (r : ρ)
  | pool
  | thread (t : τ)

/-- The chunks an owner names; a thread owns those it has in hand. -/
def World.holding (w : World ρ τ) : Owner ρ τ → List Handle
  | .region r => (w.regions r).handles
  | .pool => w.pool.handles
  | .thread t => (w.threads t).inHand

/-- A region's own range, or the window it is mirrored into. -/
inductive Place (ρ : Type) where
  | base (r : ρ)
  | window (r : ρ)
deriving DecidableEq

def Region.extent (region : Region) : Extent Handle :=
  { start := region.base, capacity := region.capacity, size := region.granularity, handles := region.handles }

def Region.mirror (region : Region) : Extent Handle :=
  { start := region.window, capacity := region.capacity, size := region.granularity
    handles := if region.window = 0 then [] else region.handles }

def extents (regions : ρ → Region) : Place ρ → Extent Handle
  | .base r => (regions r).extent
  | .window r => (regions r).mirror

/-- Every chunk made and not released has one owner; none is released twice. -/
structure Handles (w : World ρ τ) : Prop where
  once : HeldOnce w.holding w.cuda.Live
  numbered : ∀ h ∈ w.cuda.created, h.allocation < w.cuda.created.length
  released : w.cuda.released.Nodup
  made : ∀ h ∈ w.cuda.released, h ∈ w.cuda.created

structure Ranges (w : World ρ τ) : Prop where
  laid : Laid (extents w.regions) w.cuda.maps
  reserved : ∀ e ∈ w.cuda.reserved, 0 < e.1
  whole : ∀ r, (w.regions r).granularity ∣ (w.regions r).capacity
  sized : ∀ r, (w.regions r).base ≠ 0 → 0 < (w.regions r).granularity

/-- What a region adds to `plane_bytes`. -/
def Region.planeBytes (region : Region) : Int :=
  if region.hostBacked = true then ((region.handles.map Handle.bytes).sum : Nat) else 0

structure Bytes [Fintype ρ] (w : World ρ τ) : Prop where
  chunks : ∀ r, ∀ h ∈ (w.regions r).handles, h.bytes = (w.regions r).granularity
  pooled : ∀ h ∈ w.pool.handles, h.bytes = w.pool.granularity
  planes : w.plane_bytes = ∑ r, (w.regions r).planeBytes
  pool : w.plane_pool_bytes = ((w.pool.handles.map Handle.bytes).sum : Nat)

/-- The region's `mapped_`, as it is whenever its mutex is free. -/
def Region.Whole (region : Region) : Prop := region.mapped = region.handles.length * region.granularity

/-- What a thread's variables say of the regions. -/
def Thread.Ok (regions : ρ → Region) : Thread ρ → Prop
  | .ensure r bytes => bytes ≤ (regions r).capacity
  | .creating r bytes mapped =>
    (regions r).Whole ∧ mapped = (regions r).mapped ∧ mapped < bytes ∧ bytes ≤ (regions r).capacity
  | .mapping r bytes mapped h =>
    ((regions r).Whole ∧ mapped = (regions r).mapped ∧ mapped < bytes ∧ bytes ≤ (regions r).capacity) ∧
      h.bytes = (regions r).granularity
  | .shrink r _ mapped => mapped = (regions r).handles.length * (regions r).granularity
  | .reset r mapped =>
    mapped = (regions r).handles.length * (regions r).granularity ∧ (regions r).window = 0
  | .touching granularity _ _ _ h => h.bytes = granularity
  | .pushing granularity _ _ _ h => h.bytes = granularity
  | _ => True

structure Sections (w : World ρ τ) : Prop where
  holds : ∀ t r, (w.threads t).section? = some r ↔ w.mutex r = some t
  whole : ∀ r, w.mutex r = none → (w.regions r).Whole
  ok : ∀ t, (w.threads t).Ok w.regions

structure Inv [Fintype ρ] (w : World ρ τ) : Prop where
  handles : Handles w
  ranges : Ranges w
  bytes : Bytes w
  sections : Sections w

variable {w w' : World ρ τ} {t : τ} {r : ρ} {h : Handle}

variable {thread : Thread ρ} {region : Region} {a : Owner ρ τ}

/-! ## Sections -/

theorem Thread.Ok.frame {regions regions' : ρ → Region} (hok : thread.Ok regions)
    (hcap : ∀ r, (regions' r).capacity = (regions r).capacity)
    (hsame : ∀ r, thread.section? = some r → regions' r = regions r) : thread.Ok regions' := by
  cases thread with
  | ensure r bytes =>
    show bytes ≤ (regions' r).capacity
    rw [hcap]
    exact hok
  | creating r bytes mapped => rw [Thread.Ok, hsame r rfl]; exact hok
  | mapping r bytes mapped h => rw [Thread.Ok, hsame r rfl]; exact hok
  | shrink r bytes mapped => rw [Thread.Ok, hsame r rfl]; exact hok
  | reset r mapped => rw [Thread.Ok, hsame r rfl]; exact hok
  | _ => exact hok

/-- Thread `t` is outside any region or inside `r`, whose mutex nobody else holds: it may change
    `r`, and then be inside `r` or outside. -/
theorem Sections.step [DecidableEq ρ] [DecidableEq τ] (hs : Sections w)
    (hthreads : w'.threads = update w.threads t thread)
    (hregions : ∀ r', r' ≠ r → w'.regions r' = w.regions r')
    (hcap : (w'.regions r).capacity = (w.regions r).capacity)
    (hmine : w.mutex r = none ∨ w.mutex r = some t)
    (hold : (w.threads t).section? = none ∨ (w.threads t).section? = some r)
    (hnew : thread.section? = none ∧ w'.mutex = update w.mutex r none ∧ (w'.regions r).Whole ∨
      thread.section? = some r ∧ w'.mutex = update w.mutex r (some t))
    (hok : thread.Ok w'.regions) : Sections w' := by
  have hothers : ∀ t', t' ≠ t → (w.threads t').section? ≠ some r := by
    intro t' hne hsec
    have hmutex := (hs.holds t' r).mp hsec
    rcases hmine with hfree | hmine
    · rw [hfree] at hmutex; cases hmutex
    · rw [hmine] at hmutex; exact hne (Option.some.inj hmutex).symm
  have hmutexOf : ∀ r', r' ≠ r → w'.mutex r' = w.mutex r' := by
    intro r' hne
    rcases hnew with ⟨-, hmutex, -⟩ | ⟨-, hmutex⟩ <;> rw [hmutex, update_of_ne hne]
  refine ⟨?_, ?_, ?_⟩
  · intro t' r'
    rw [hthreads]
    by_cases ht : t' = t
    · subst ht
      rw [update_self]
      by_cases hr : r' = r
      · subst hr
        rcases hnew with ⟨hsec, hmutex, -⟩ | ⟨hsec, hmutex⟩ <;> rw [hsec, hmutex, update_self]
        · simp
        · simp
      rw [hmutexOf r' hr, ← hs.holds]
      rcases hnew with ⟨hsec, -⟩ | ⟨hsec, -⟩ <;> rcases hold with hold | hold <;> rw [hsec, hold] <;>
        simp [Ne.symm hr]
    rw [update_of_ne ht, hs.holds]
    by_cases hr : r' = r
    · subst hr
      constructor
      · intro hmutex
        exact absurd ((hs.holds t' r').mpr hmutex) (hothers t' ht)
      · intro hmutex
        rcases hnew with ⟨-, hmutex', -⟩ | ⟨-, hmutex'⟩ <;> rw [hmutex', update_self] at hmutex
        · cases hmutex
        · exact absurd (Option.some.inj hmutex).symm ht
    · rw [hmutexOf r' hr]
  · intro r' hfree
    by_cases hr : r' = r
    · subst hr
      rcases hnew with ⟨-, -, hwhole⟩ | ⟨-, hmutex⟩
      · exact hwhole
      rw [hmutex, update_self] at hfree
      cases hfree
    rw [hregions r' hr]
    exact hs.whole r' (hmutexOf r' hr ▸ hfree)
  · intro t'
    rw [hthreads]
    by_cases ht : t' = t
    · subst ht
      rw [update_self]
      exact hok
    rw [update_of_ne ht]
    refine (hs.ok t').frame ?_ ?_
    · intro r'
      by_cases hr : r' = r
      · subst hr
        exact hcap
      · rw [hregions r' hr]
    intro r' hsec
    refine hregions r' fun hr => ?_
    subst hr
    exact hothers t' ht hsec

theorem Sections.update [DecidableEq ρ] [DecidableEq τ] (hs : Sections w)
    (hthreads : w'.threads = update w.threads t thread)
    (hregions : w'.regions = update w.regions r region)
    (hcap : region.capacity = (w.regions r).capacity)
    (hmine : w.mutex r = none ∨ w.mutex r = some t)
    (hold : (w.threads t).section? = none ∨ (w.threads t).section? = some r)
    (hnew : thread.section? = none ∧ w'.mutex = update w.mutex r none ∧ region.Whole ∨
      thread.section? = some r ∧ w'.mutex = update w.mutex r (some t))
    (hok : thread.Ok (update w.regions r region)) : Sections w' := by
  have hself : w'.regions r = region := by rw [hregions, update_self]
  refine hs.step hthreads (fun r' hne => ?_) ?_ hmine hold ?_ (hregions ▸ hok)
  · rw [hregions, update_of_ne hne]
  · rw [hself, hcap]
  rw [hself]
  exact hnew

theorem Sections.outside [DecidableEq τ] (hs : Sections w)
    (hthreads : w'.threads = Function.update w.threads t thread) (hregions : w'.regions = w.regions)
    (hmutex : w'.mutex = w.mutex) (hold : (w.threads t).section? = none) (hnew : thread.section? = none)
    (hok : thread.Ok w.regions) : Sections w' := by
  refine ⟨?_, ?_, ?_⟩
  · intro t' r
    rw [hthreads, hmutex, ← hs.holds]
    by_cases ht : t' = t
    · subst ht
      rw [update_self, hnew, hold]
    · rw [update_of_ne ht]
  · rw [hregions, hmutex]
    exact hs.whole
  · intro t'
    rw [hthreads, hregions]
    by_cases ht : t' = t
    · subst ht
      rw [update_self]
      exact hok
    rw [update_of_ne ht]
    exact hs.ok t'

/-! ## Handles -/

theorem Handles.frame (hh : Handles w) (hheld : ∀ o, w'.holding o = w.holding o)
    (hcreated : w'.cuda.created = w.cuda.created) (hreleased : w'.cuda.released = w.cuda.released) :
    Handles w' := by
  refine ⟨hh.once.congr hheld fun h => ?_, ?_, ?_, ?_⟩
  · unfold Cuda.Live
    rw [hcreated, hreleased]
  · rw [hcreated]; exact hh.numbered
  · rw [hreleased]; exact hh.released
  · rw [hcreated, hreleased]; exact hh.made

theorem Handles.moved (hh : Handles w) {b : Owner ρ τ} (hab : a ≠ b)
    (ha : (w.holding a).Perm (h :: w'.holding a)) (hb : (w'.holding b).Perm (h :: w.holding b))
    (hrest : ∀ o, o ≠ a → o ≠ b → w'.holding o = w.holding o)
    (hcreated : w'.cuda.created = w.cuda.created) (hreleased : w'.cuda.released = w.cuda.released) :
    Handles w' := by
  have hlive : w'.cuda.Live = w.cuda.Live := by
    unfold Cuda.Live
    rw [hcreated, hreleased]
  refine ⟨?_, ?_, ?_, ?_⟩
  · rw [hlive]; exact hh.once.move hab ha hb hrest
  · rw [hcreated]; exact hh.numbered
  · rw [hreleased]; exact hh.released
  · rw [hcreated, hreleased]; exact hh.made

theorem Handles.gaveUp (hh : Handles w) (ha : (w.holding a).Perm (h :: w'.holding a))
    (hrest : ∀ o, o ≠ a → w'.holding o = w.holding o) (hcreated : w'.cuda.created = w.cuda.created)
    (hreleased : w'.cuda.released = w.cuda.released ++ [h]) : Handles w' := by
  have hlive : w.cuda.Live h := (hh.once.held h).mp ⟨a, ha.mem_iff.mpr mem_cons_self⟩
  refine ⟨hh.once.giveUp ha hrest fun x => ?_, ?_, ?_, ?_⟩
  · unfold Cuda.Live
    rw [hcreated, hreleased, mem_append, mem_singleton, not_or, and_assoc]
  · rw [hcreated]; exact hh.numbered
  · rw [hreleased]
    exact nodup_append.mpr ⟨hh.released, nodup_singleton _, fun x hx y hy heq =>
      hlive.2 (mem_singleton.mp hy ▸ heq ▸ hx)⟩
  · rw [hcreated, hreleased]
    intro x hx
    rcases mem_append.mp hx with hx | hx
    · exact hh.made x hx
    · rw [mem_singleton.mp hx]; exact hlive.1

theorem Handles.made' (hh : Handles w) {size : Nat} (ha : (w'.holding a).Perm (w.cuda.nextHandle size :: w.holding a))
    (hrest : ∀ o, o ≠ a → w'.holding o = w.holding o)
    (hcreated : w'.cuda.created = w.cuda.created ++ [w.cuda.nextHandle size])
    (hreleased : w'.cuda.released = w.cuda.released) : Handles w' := by
  have hnew : w.cuda.nextHandle size ∉ w.cuda.created := by
    intro hmem
    exact Nat.lt_irrefl _ (hh.numbered _ hmem)
  refine ⟨hh.once.make (fun hl => hnew hl.1) ha hrest fun x => ?_, ?_, ?_, ?_⟩
  · unfold Cuda.Live
    rw [hcreated, hreleased, mem_append, mem_singleton]
    constructor
    · rintro ⟨hx | hx, hnot⟩
      · exact .inr ⟨hx, hnot⟩
      · exact .inl hx
    · rintro (rfl | ⟨hx, hnot⟩)
      · exact ⟨.inr rfl, fun hrel => hnew (hh.made _ hrel)⟩
      · exact ⟨.inl hx, hnot⟩
  · rw [hcreated]
    intro x hx
    rw [length_append, length_singleton]
    rcases mem_append.mp hx with hx | hx
    · exact Nat.lt_succ_of_lt (hh.numbered x hx)
    · rw [mem_singleton.mp hx]; exact Nat.lt_succ_self _
  · rw [hreleased]; exact hh.released
  · rw [hcreated, hreleased]
    exact fun x hx => mem_append_left _ (hh.made x hx)

/-! ## Ranges -/

theorem Ranges.frame (hr : Ranges w) (hregions : w'.regions = w.regions) (hmaps : w'.cuda.maps = w.cuda.maps)
    (hreserved : ∀ e ∈ w'.cuda.reserved, 0 < e.1) : Ranges w' := by
  refine ⟨?_, hreserved, ?_, ?_⟩
  · rw [hregions, hmaps]; exact hr.laid
  · rw [hregions]; exact hr.whole
  · rw [hregions]; exact hr.sized

theorem update_same [DecidableEq ρ] {α : Type} {f : Region → α} {regions : ρ → Region}
    (heq : f region = f (regions r)) (r' : ρ) : f (update regions r region r') = f (regions r') := by
  by_cases hr : r' = r
  · subst hr
    rw [update_self, heq]
  · rw [update_of_ne hr]

theorem Ranges.setRegion [DecidableEq ρ] (hr : Ranges w) (hregions : w'.regions = update w.regions r region)
    (hlaid : Laid (extents (update w.regions r region)) w'.cuda.maps)
    (hreserved : ∀ e ∈ w'.cuda.reserved, 0 < e.1) (hsize : region.granularity = (w.regions r).granularity)
    (hcap : region.capacity = (w.regions r).capacity)
    (hbase : region.base = (w.regions r).base ∨ region.base = 0) : Ranges w' := by
  refine ⟨hregions ▸ hlaid, hreserved, fun r' => ?_, fun r' => ?_⟩
  · rw [hregions, update_same (f := Region.granularity) hsize, update_same (f := Region.capacity) hcap]
    exact hr.whole r'
  · rw [hregions, update_same (f := Region.granularity) hsize]
    by_cases hr' : r' = r
    · subst hr'
      rw [update_self]
      rcases hbase with hsame | hzero
      · rw [hsame]
        exact hr.sized r'
      · exact fun hne => absurd hzero hne
    rw [update_of_ne hr']
    exact hr.sized r'

/-! ## Bytes -/

variable [Fintype ρ]

theorem Bytes.frame (hb : Bytes w) (hregions : w'.regions = w.regions) (hpool : w'.pool.handles = w.pool.handles)
    (hgran : w'.pool.handles = [] ∨ w'.pool.granularity = w.pool.granularity)
    (hplanes : w'.plane_bytes = w.plane_bytes) (hpooled : w'.plane_pool_bytes = w.plane_pool_bytes) :
    Bytes w' := by
  refine ⟨?_, ?_, ?_, ?_⟩
  · rw [hregions]; exact hb.chunks
  · rcases hgran with hnil | hgran
    · rw [hnil]
      intro h hh
      cases hh
    · rw [hpool, hgran]; exact hb.pooled
  · rw [hplanes, hregions]; exact hb.planes
  · rw [hpooled, hpool]; exact hb.pool

theorem sum_planeBytes [DecidableEq ρ] (regions : ρ → Region) (r : ρ) (region : Region) :
    ∑ r', (update regions r region r').planeBytes =
      ∑ r', (regions r').planeBytes + (region.planeBytes - (regions r).planeBytes) := by
  rw [← Finset.add_sum_erase _ _ (Finset.mem_univ r), ← Finset.add_sum_erase Finset.univ
    (fun r' => (regions r').planeBytes) (Finset.mem_univ r), update_self]
  have hrest : ∑ r' ∈ Finset.univ.erase r, (update regions r region r').planeBytes =
      ∑ r' ∈ Finset.univ.erase r, (regions r').planeBytes := by
    refine Finset.sum_congr rfl fun r' hr' => ?_
    rw [update_of_ne (Finset.ne_of_mem_erase hr')]
  rw [hrest]
  ring

/-! ## The start -/

/-- Before any call: some regions have ranges, which stand apart, and nothing is backed. -/
structure Initial (w : World ρ τ) : Prop where
  unbacked : ∀ r, (w.regions r).handles = [] ∧ (w.regions r).mapped = 0 ∧ (w.regions r).window = 0
  whole : ∀ r, (w.regions r).granularity ∣ (w.regions r).capacity
  sized : ∀ r, (w.regions r).base ≠ 0 → 0 < (w.regions r).granularity
  apart : ∀ r r', r ≠ r' → (w.regions r).extent.Apart (w.regions r').extent
  reserved : ∀ e ∈ w.cuda.reserved, 0 < e.1
  unmapped : w.cuda.maps = [] ∧ w.cuda.created = [] ∧ w.cuda.released = []
  pool : w.pool.handles = []
  ledger : w.plane_bytes = 0 ∧ w.plane_pool_bytes = 0
  idle : ∀ t, w.threads t = .idle
  unlocked : ∀ r, w.mutex r = none

theorem inv_initial (hinit : Initial w) : Inv w := by
  have hnone : ∀ o, w.holding o = [] := by
    intro o
    cases o with
    | region r => exact (hinit.unbacked r).1
    | pool => exact hinit.pool
    | thread t =>
      show (w.threads t).inHand = []
      rw [hinit.idle]
      rfl
  have hextents : ∀ p, (extents w.regions p).handles = [] := by
    intro p
    cases p with
    | base r => exact (hinit.unbacked r).1
    | window r => simp [extents, Region.mirror, (hinit.unbacked r).2.2]
  refine ⟨⟨⟨?_, ?_, ?_⟩, ?_, ?_, ?_⟩, ⟨⟨?_, ?_, ?_⟩, hinit.reserved, hinit.whole, hinit.sized⟩, ⟨?_, ?_, ?_, ?_⟩,
    ⟨?_, ?_, ?_⟩⟩
  · intro o
    rw [hnone]
    exact nodup_nil
  · intro o o' h hmem
    rw [hnone] at hmem
    cases hmem
  · intro h
    constructor
    · rintro ⟨o, hmem⟩
      rw [hnone] at hmem
      cases hmem
    · rintro ⟨hmade, -⟩
      rw [hinit.unmapped.2.1] at hmade
      cases hmade
  · rw [hinit.unmapped.2.1]
    intro h hmade
    cases hmade
  · rw [hinit.unmapped.2.2]
    exact nodup_nil
  · rw [hinit.unmapped.2.2]
    intro h hgone
    cases hgone
  · intro p
    refine ⟨fun hsome => absurd (hextents p) hsome, ?_, fun _ => hextents p⟩
    · rw [hextents]
      simp
  · intro p p' hne hstart hstart'
    cases p with
    | window r => exact absurd (hinit.unbacked r).2.2 hstart
    | base r =>
      cases p' with
      | window r' => exact absurd (hinit.unbacked r').2.2 hstart'
      | base r' => exact hinit.apart r r' (fun heq => hne (by rw [heq])) hstart hstart'
  · intro m
    rw [hinit.unmapped.1]
    constructor
    · intro hm
      cases hm
    · rintro ⟨p, hm⟩
      obtain ⟨i, h, hget, -⟩ := mem_chunks.mp hm
      rw [hextents] at hget
      cases hget
  · intro r h hmem
    rw [(hinit.unbacked r).1] at hmem
    cases hmem
  · intro h hmem
    rw [hinit.pool] at hmem
    cases hmem
  · have hzero : ∀ r, (w.regions r).planeBytes = 0 := by
      intro r
      unfold Region.planeBytes
      rw [(hinit.unbacked r).1]
      simp
    rw [hinit.ledger.1, Finset.sum_eq_zero fun r _ => hzero r]
  · rw [hinit.ledger.2, hinit.pool]
    rfl
  · intro t r
    rw [hinit.idle, hinit.unlocked]
    constructor <;> intro hcase <;> cases hcase
  · intro r _
    unfold Region.Whole
    rw [(hinit.unbacked r).1, (hinit.unbacked r).2.1]
    simp
  · intro t
    rw [hinit.idle]
    trivial

end VoidInfer.Exl3.GrowableRegion
