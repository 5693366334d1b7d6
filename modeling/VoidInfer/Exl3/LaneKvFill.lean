import VoidInfer.Exl3.LaneKvInv

/-
  What filling does. `Refit P` says that a piece of code moved pages of `P` among RAM, disk and packed blobs, or off the
  planes, and touched nothing else; whatever fails on the way, the invariant holds again. `Leaves pages rest` says of a
  stage of `fill_locked` that `rest` are the pages still in the planes and the others of `pages` are not:
  `returns_fillLocked` is that none is left.
-/

namespace VoidInfer.Exl3.LaneKv
open List Option Function

open Window Throwing

variable {Row Codes : Type} {host : Host Row Codes} {o : Nat → Option (List Row)}
  {W : Nat → Nat → Prop} {σ σ' σ'' : State Row Codes} {page page' : Page Row Codes}
  {rs : List Row} {p q s n : Nat} {P P' pages rest : List Nat}

/-- `x` returns, with `Q`. -/
abbrev Returns {α : Type} (x : M Row Codes α) (Q : α → State Row Codes → Prop)
    (σ : State Row Codes) : Prop := wp x Q (fun _ _ => False) σ

theorem Returns.mono {α : Type} {x : M Row Codes α} {Q Q' : α → State Row Codes → Prop}
    (h : Returns x Q σ) (hQ : ∀ a σ', Q a σ' → Q' a σ') : Returns x Q' σ :=
  wp_imp h hQ

theorem Returns.bind {α β : Type} {x : M Row Codes α} {f : α → M Row Codes β}
    {Q : α → State Row Codes → Prop} {R : β → State Row Codes → Prop} (h : Returns x Q σ)
    (hf : ∀ a σ', Q a σ' → Returns (f a) R σ') : Returns (x >>= f) R σ := by
  show wp _ R _ σ
  rw [wp_bind]
  exact wp_mono h hf fun _ _ h => h.elim

theorem wp_ask {α : Type} {answer : Nat → α} {Q : α → State Row Codes → Prop} {E : Exn → State Row Codes → Prop} :
    wp (ask answer) Q E σ = Q (answer σ.clock) { σ with clock := σ.clock + 1 } := rfl

theorem Inv.tick (h : Inv host o W σ) : Inv host o W { σ with clock := σ.clock + 1 } :=
  ⟨h.core.congr rfl rfl rfl, h.tracked⟩

/-! ## Pages moved off the planes -/

/-- The same page, in no planes it was not in before. -/
structure Thins (page page' : Page Row Codes) : Prop where
  first : page'.first = page.first
  rows : page'.rows = page.rows
  held : ∀ s, page'.holds s = true → page.holds s = true

theorem Thins.refl (page : Page Row Codes) : Thins page page := ⟨rfl, rfl, fun _ h => h⟩

theorem Thins.trans {page'' : Page Row Codes} (h : Thins page page') (h' : Thins page' page'') : Thins page page'' :=
  ⟨h'.first.trans h.first, h'.rows.trans h.rows, fun s hs => h.held s (h'.held s hs)⟩

/-- Pages of `P` moved among their places, never into planes; nothing else changed. -/
structure Refit (host : Host Row Codes) (o : Nat → Option (List Row)) (W : Nat → Nat → Prop)
    (P : List Nat) (σ σ' : State Row Codes) : Prop where
  inv : Inv host o W σ'
  planes : σ'.planes = σ.planes
  sources : σ'.sources = σ.sources
  registry : σ'.registry = σ.registry
  others : ∀ q, q ∉ P → σ'.pages q = σ.pages q
  pages : ∀ q page, σ.pages q = some page → ∃ page', σ'.pages q = some page' ∧ Thins page page'
  dead : ∀ q, σ.pages q = none → σ'.pages q = none

namespace Refit

theorem refl (h : Inv host o W σ) : Refit host o W P σ σ :=
  ⟨h, rfl, rfl, rfl, fun _ _ => rfl, fun _ page hq => ⟨page, hq, .refl page⟩, fun _ h => h⟩

section
variable (h : Refit host o W P σ σ')
include h

theorem trans (h' : Refit host o W P σ' σ'') : Refit host o W P σ σ'' := by
  refine ⟨h'.inv, h'.planes.trans h.planes, h'.sources.trans h.sources,
    h'.registry.trans h.registry, fun q hq => (h'.others q hq).trans (h.others q hq),
    fun q page hq => ?_, fun q hq => h'.dead q (h.dead q hq)⟩
  obtain ⟨page₁, h1, ht1⟩ := h.pages q page hq
  obtain ⟨page₂, h2, ht2⟩ := h'.pages q page₁ h1
  exact ⟨page₂, h2, ht1.trans ht2⟩

theorem mono (hP : P ⊆ P') : Refit host o W P' σ σ' :=
  { h with others := fun q hq => h.others q fun hq' => hq (hP hq') }

theorem back (hq : σ'.pages q = some page') : ∃ page, σ.pages q = some page ∧ Thins page page' := by
  cases hold : σ.pages q with
  | none => cases hq.symm.trans (h.dead q hold)
  | some page =>
    obtain ⟨page₁, h1, ht⟩ := h.pages q page hold
    obtain rfl := mem_unique hq h1
    exact ⟨page, rfl, ht⟩

end

theorem ofStore (h : Inv host o W σ') (hpages : σ'.pages = σ.pages) (hplanes : σ'.planes = σ.planes)
    (hsources : σ'.sources = σ.sources) (hregistry : σ'.registry = σ.registry) :
    Refit host o W [] σ σ' :=
  ⟨h, hplanes, hsources, hregistry, fun q _ => by rw [hpages],
    fun q page hq => ⟨page, by rw [hpages]; exact hq, .refl page⟩, fun q hq => by rw [hpages]; exact hq⟩

theorem tick (h : Inv host o W σ) : Refit host o W P σ { σ with clock := σ.clock + 1 } := by
  have : Refit host o W [] σ { σ with clock := σ.clock + 1 } := ofStore h.tick rfl rfl rfl rfl
  exact this.mono (nil_subset _)

theorem put (store : Store Row) (h : Inv host o W σ) (hp : σ.pages p = some page)
    (ht : Thins page page') (hc : Core host o W ({ σ with store }.put p page')) :
    Refit host o W [p] σ ({ σ with store }.put p page') := by
  refine ⟨⟨hc, ?_⟩, rfl, rfl, rfl, fun q hq => put_pages_ne (by simpa using hq), fun q page₁ hq => ?_, fun q hq => ?_⟩
  · have htracked : Tracked { σ with store } := h.tracked
    exact htracked.put fun s hs => h.tracked p page s hp (ht.held s hs)
  · by_cases hqp : q = p
    · subst hqp
      obtain rfl := mem_unique hp hq
      exact ⟨page', put_pages_self, ht⟩
    · exact ⟨page₁, (put_pages_ne hqp).trans hq, .refl _⟩
  · by_cases hqp : q = p
    · subst hqp
      cases hp.symm.trans hq
    · exact (put_pages_ne hqp).trans hq

end Refit

/-! ## Slots -/

section Slots

variable {data : SlotData Row} {bytes : Nat}

theorem Core.allocate (h : Core host o W σ) :
    Core host o W { σ with store := σ.store.allocate.2 } ∧
      Loose { σ with store := σ.store.allocate.2 } σ.store.allocate.1 ∧
      ∀ m, Loose σ m → Loose { σ with store := σ.store.allocate.2 } m ∧ m ≠ σ.store.allocate.1 := by
  have hhome : ∀ {store : Store Row}, store.slots = σ.store.slots → ∀ p page,
      σ.pages p = some page → ∃ rs, o p = some rs ∧ Homed host { σ with store } page rs := by
    intro store hslots p page hp
    obtain ⟨rs, ho, hh⟩ := h.home p page hp
    exact ⟨rs, ho, hh.frame (fun _ _ => rfl) fun n _ => congrFun hslots n⟩
  unfold Store.allocate
  cases hfree : σ.store.free with
  | nil =>
    refine ⟨⟨hhome rfl, h.guarded, fun p page n hp hn => ?_, h.owners, ?_, ?_⟩,
      ⟨Nat.lt_succ_self _, ?_, fun p page hp hn => ?_⟩, fun m hm => ⟨⟨?_, ?_, hm.ownerless⟩, ?_⟩⟩
    · have := (h.slots p page n hp hn).1
      exact ⟨Nat.lt_succ_of_lt this, by simp⟩
    · simp
    · simp
    · simp
    · exact absurd (h.slots p page _ hp hn).1 (Nat.lt_irrefl _)
    · exact Nat.lt_succ_of_lt hm.below
    · simp
    · exact Nat.ne_of_lt hm.below
  | cons slot free =>
    have hmem : slot ∈ σ.store.free := by simp [hfree]
    have hsub : ∀ n ∈ free, n ∈ σ.store.free := fun n hn => by simp [hfree, hn]
    have hnodup := h.freeOnce
    rw [hfree, nodup_cons] at hnodup
    refine ⟨⟨hhome rfl, h.guarded, fun p page n hp hn => ?_, h.owners, fun n hn => ?_, hnodup.2⟩,
      ⟨h.freeBelow slot hmem, hnodup.1, fun p page hp hn => ?_⟩,
      fun m hm => ⟨⟨hm.below, fun hin => ?_, hm.ownerless⟩, fun heq => ?_⟩⟩
    · obtain ⟨h1, h2⟩ := h.slots p page n hp hn
      exact ⟨h1, fun hin => h2 (hsub n hin)⟩
    · exact h.freeBelow n (hsub n hn)
    · exact (h.slots p page slot hp hn).2 hmem
    · exact hm.taken (hsub m hin)
    · exact hm.taken (heq ▸ hmem)

theorem returns_allocate (h : Inv host o W σ) :
    Returns allocate (fun n σ' => Refit host o W [] σ σ' ∧ Loose σ' n ∧ (∀ m, Loose σ m → Loose σ' m ∧ m ≠ n)) σ := by
  obtain ⟨hc, hl, hm⟩ := h.core.allocate
  exact ⟨.ofStore ⟨hc, h.tracked⟩ rfl rfl rfl rfl, hl, hm⟩

theorem Core.write (h : Core host o W σ) (hl : Loose σ n) :
    Core host o W { σ with store := { σ.store with
      slots := update σ.store.slots n data } } := by
  refine { h with home := fun p page hp => ?_ }
  obtain ⟨rs, ho, hh⟩ := h.home p page hp
  refine ⟨rs, ho, hh.frame (fun _ _ => rfl) fun m hm => ?_⟩
  refine update_of_ne (fun heq => ?_) ..
  exact hl.ownerless p page hp (heq ▸ hm)

/-- What a write leaves: its slot reads back what was written if it returned. -/
structure Wrote (σ σ' : State Row Codes) (slot : Nat) (data : SlotData Row) (bytes : Nat)
    (ok : Bool) : Prop where
  pages : σ'.pages = σ.pages
  planes : σ'.planes = σ.planes
  loose : ∀ m, Loose σ m → Loose σ' m
  readBack : ok = true → σ'.store.slots slot = data ∧ bytes ≤ slotBytes
  slots : ∀ m, m ≠ slot → σ'.store.slots m = σ.store.slots m

theorem returns_write (h : Inv host o W σ) (hl : Loose σ n) :
    Returns (write host n data bytes) (fun ok σ' => Refit host o W [] σ σ' ∧ Wrote σ σ' n data bytes ok) σ := by
  have hround : (bytes + sector - 1) / sector * sector ≤ slotBytes → bytes ≤ slotBytes := by
    unfold sector slotBytes
    omega
  unfold write Returns
  have ht := h.tick
  refine ⟨.ofStore ⟨ht.core.write ⟨hl.below, hl.taken, hl.ownerless⟩, h.tracked⟩ rfl rfl rfl rfl,
    rfl, rfl, fun m hm => ⟨hm.below, hm.taken, hm.ownerless⟩, fun hok => ?_, fun m hm => ?_⟩
  · rw [Bool.and_eq_true, decide_eq_true_eq] at hok
    refine ⟨?_, hround hok.1⟩
    show update _ _ _ _ = _
    rw [update_self, if_pos (by simp [hok.1, hok.2])]
  · exact update_of_ne hm ..

theorem returns_release (h : Inv host o W σ) (hl : Loose σ n) :
    Returns (release n) (fun _ σ' => Refit host o W [] σ σ' ∧ σ'.store.slots = σ.store.slots ∧
      ∀ m, m ≠ n → Loose σ m → Loose σ' m) σ := by
  refine ⟨.ofStore ⟨h.core.release hl, h.tracked⟩ rfl rfl rfl rfl, rfl, fun m hmn hm => ?_⟩
  refine ⟨hm.below, fun hin => ?_, hm.ownerless⟩
  rcases mem_cons.mp hin with heq | hin
  · exact hmn heq
  · exact hm.taken hin

end Slots

/-! ## One page off the planes, or out of RAM -/

theorem not_holds_of_not_deferred (h : page.deferred = false) : page.holds s = false := by
  simp [Page.holds, h]

theorem not_holds_of_packed (h : page.packedRam = true) : page.holds s = false := by
  simp [Page.holds, h]

theorem not_holds_of_spilled (h : page.spill = some n) : page.holds s = false := by
  simp [Page.holds, Page.spilled, h]

theorem Thins.of_not_holds (h1 : page'.first = page.first) (h2 : page'.rows = page.rows)
    (h : ∀ s, page'.holds s = false) : Thins page page' :=
  ⟨h1, h2, fun s hs => absurd hs (by simp [h s])⟩

section
variable (h : Inv host o W σ) (hp : σ.pages p = some page)
include h hp

theorem Refit.putOff (hh : ∀ rs, o p = some rs → Homed host σ page rs → Homed host σ page' rs)
    (h1 : page'.first = page.first) (h2 : page'.rows = page.rows)
    (hoff : ∀ s, page'.holds s = false)
    (hslot : ∀ n, page'.spill = some n → page.spill = some n ∨ Loose σ n) :
    Refit host o W [p] σ (σ.put p page') := by
  obtain ⟨rs, ho, hhome⟩ := h.core.home p page hp
  have hc : Core host o W (σ.put p page') :=
    h.core.put ho (fun _ _ => rfl) (hh rs ho hhome) (fun n hn => (hslot n hn).imp (fun hn => ⟨page, hp, hn⟩) id)
      fun s hs => absurd hs (by simp [hoff s])
  exact .put σ.store h hp (.of_not_holds h1 h2 hoff) hc

theorem Refit.putReset {old : Page Row Codes} (hold : old.spill = page.spill)
    (hh : ∀ rs, o p = some rs → Homed host σ page rs → Homed host σ page' rs)
    (h1 : page'.first = page.first) (h2 : page'.rows = page.rows)
    (hoff : ∀ s, page'.holds s = false) (hnone : page'.spill = none) :
    Refit host o W [p] σ ({ σ with store := (resetSpill old σ.store).2 }.put p page') := by
  obtain ⟨rs, ho, hhome⟩ := h.core.home p page hp
  exact .put _ h hp (.of_not_holds h1 h2 hoff)
    (h.core.putReset hp hold ho (hh rs ho hhome) hnone fun s hs => absurd hs (by simp [hoff s]))

theorem returns_spillPackedLocked (hpacked : page.packedRam = true) :
    Returns (spillPackedLocked host p) (fun _ σ' => Refit host o W [p] σ σ') σ := by
  unfold spillPackedLocked Returns
  simp only [wp_bind, wp_get, hp, wp_ask]
  split
  · refine (returns_allocate h.tick).bind fun slot σ₁ ⟨hr1, hl, _⟩ => ?_
    refine (returns_write hr1.inv hl).bind fun ok σ₂ ⟨hr2, hw⟩ => ?_
    have hr : Refit host o W [p] σ σ₂ :=
      (Refit.tick h).trans ((hr1.trans hr2).mono (nil_subset _))
    have hp2 : σ₂.pages p = some page := by
      rw [hr2.others p (by simp), hr1.others p (by simp)]
      exact hp
    split
    · next hok =>
      obtain ⟨hdata, hfits⟩ := hw.readBack hok
      refine hr.trans (.putOff hr.inv hp2 (fun rs ho hh => ?_) rfl rfl
        (fun s => not_holds_of_spilled rfl) fun n hn => .inr ?_)
      · -- the slot holds the blob, and its size tells so
        have hne : 0 < page.packed.length := length_pos_iff.mpr (hh.blob hpacked)
        have hlt : page.packed.length % 2 ^ 32 = page.packed.length := by
          unfold slotBytes at hfits
          omega
        obtain ⟨codes, hcodes, hrows⟩ := hh.packed_rows hpacked
        refine homed_slot hh.length (hh.packed_only hpacked).1 rfl rfl ?_
        have hbytes : page.packed.length ≠ 0 := by omega
        simp only [Host.rowsAt, Page.dropPacked, hlt, ne_eq, hbytes, not_false_eq_true, if_true,
          hdata, SlotData.asBlob, take_length, hcodes, map_some, hrows]
      cases hn
      exact hw.loose _ hl
    exact (returns_release hr.inv (hw.loose _ hl)).mono fun _ σ₃ hr3 => hr.trans (hr3.1.mono (nil_subset _))
  · exact Refit.tick h

end

theorem returns_spillOne (h : Inv host o W σ) :
    Returns (spillOne host s p) (fun _ σ' => Refit host o W [p] σ σ') σ := by
  unfold spillOne Returns
  simp only [wp_bind, wp_get]
  cases hp : σ.pages p with
  | none => exact Refit.refl h
  | some page =>
    simp only [wp_bind, wp_ask]
    split
    · exact Refit.tick h
    split
    · next hpacked =>
      have hpacked : page.packedRam = true := by
        simp only [Page.packedHere, Bool.and_eq_true] at hpacked
        exact hpacked.2
      exact (returns_spillPackedLocked h.tick hp hpacked).mono fun _ _ hr => (Refit.tick h).trans hr
    split
    · exact Refit.tick h
    next hfilled =>
    simp only [not_or, Bool.not_eq_true] at hfilled
    simp only [wp_bind, wp_ask]
    split
    · refine (returns_allocate h.tick.tick).bind fun slot σ₁ ⟨hr1, hl, _⟩ => ?_
      refine (returns_write hr1.inv hl).bind fun ok σ₂ ⟨hr2, hw⟩ => ?_
      have hr : Refit host o W [p] σ σ₂ := (Refit.tick h).trans
        ((Refit.tick h.tick).trans ((hr1.trans hr2).mono (nil_subset _)))
      have hp2 : σ₂.pages p = some page := by
        rw [hr2.others p (by simp), hr1.others p (by simp)]
        exact hp
      split
      · next hok =>
        refine hr.trans (.putOff hr.inv hp2 (fun rs ho hh => ?_) rfl rfl
          (fun s => not_holds_of_spilled rfl) fun n hn => .inr ?_)
        · refine homed_slot hh.length rfl rfl rfl ?_
          simp [Host.rowsAt, (hw.readBack hok).1, SlotData.asRows, hh.payload_eq hfilled.2.1]
        cases hn
        exact hw.loose _ hl
      exact (returns_release hr.inv (hw.loose _ hl)).mono fun _ σ₃ hr3 => hr.trans (hr3.1.mono (nil_subset _))
    · exact (Refit.tick h).trans (Refit.tick h.tick)

/-! ## Stages of a fill -/

/-- The planes of `s` hold the page. -/
def Held (σ : State Row Codes) (s p : Nat) : Prop :=
  ∃ page, σ.pages p = some page ∧ page.holds s = true

theorem Refit.held (h : Refit host o W P σ σ') (hh : Held σ' s p) : Held σ s p := by
  obtain ⟨page', hp, hs⟩ := hh
  obtain ⟨page, hp', ht⟩ := h.back hp
  exact ⟨page, hp', ht.held s hs⟩

/-- Of `pages`, held in the planes of `s`, `rest` are still held and the others are not. -/
structure Leaves (host : Host Row Codes) (o : Nat → Option (List Row)) (W : Nat → Nat → Prop)
    (s : Nat) (pages rest : List Nat) (σ σ' : State Row Codes) : Prop where
  refit : Refit host o W pages σ σ'
  once : rest.Nodup
  sub : rest ⊆ pages
  held : ∀ p ∈ rest, Held σ' s p
  gone : ∀ p ∈ pages, p ∉ rest → ¬ Held σ' s p

namespace Leaves

theorem refl (h : Inv host o W σ) (hn : pages.Nodup) (hh : ∀ p ∈ pages, Held σ s p) :
    Leaves host o W s pages pages σ σ :=
  ⟨.refl h, hn, fun _ h => h, hh, fun _ hp hp' => absurd hp hp'⟩

theorem trans {rest' : List Nat} (h : Leaves host o W s pages rest σ σ')
    (h' : Leaves host o W s rest rest' σ' σ'') : Leaves host o W s pages rest' σ σ'' := by
  refine ⟨h.refit.trans (h'.refit.mono h.sub), h'.once, fun p hp => h.sub (h'.sub hp), h'.held,
    fun p hp hp' hheld => ?_⟩
  by_cases hr : p ∈ rest
  · exact h'.gone p hr hp' hheld
  · exact h.gone p hp hr (h'.refit.held hheld)

theorem step (h : Leaves host o W s pages (p :: rest) σ σ') (hr : Refit host o W [p] σ' σ'')
    (hp : ¬ Held σ'' s p) : Leaves host o W s pages rest σ σ'' := by
  obtain ⟨hnot, hn⟩ := nodup_cons.mp h.once
  refine ⟨h.refit.trans (hr.mono (by simpa using h.sub (mem_cons_self ..))), hn,
    fun q hq => h.sub (mem_cons_of_mem _ hq), fun q hq => ?_, fun q hq hq' hheld => ?_⟩
  · obtain ⟨page, hpage, hs⟩ := h.held q (mem_cons_of_mem _ hq)
    refine ⟨page, ?_, hs⟩
    rw [hr.others q (by simp; rintro rfl; exact hnot hq)]
    exact hpage
  · by_cases hqp : q = p
    · subst hqp
      exact hp hheld
    · exact h.gone q hq (by simp [hqp, hq']) (hr.held hheld)

section
variable (h : Leaves host o W s pages rest σ σ')
include h

theorem off (hr : Refit host o W P σ' σ'')
    (hP : P ⊆ pages) (hd : ∀ p ∈ P, p ∉ rest) : Leaves host o W s pages rest σ σ'' := by
  refine ⟨h.refit.trans (hr.mono hP), h.once, h.sub, fun p hp => ?_,
    fun p hp hp' hheld => h.gone p hp hp' (hr.held hheld)⟩
  obtain ⟨page, hpage, hs⟩ := h.held p hp
  exact ⟨page, (hr.others p fun hin => hd p hin hp).trans hpage, hs⟩

theorem perm {rest' : List Nat} (hp : rest'.Perm rest) : Leaves host o W s pages rest' σ σ' :=
  ⟨h.refit, hp.nodup_iff.mpr h.once, fun _ hp' => h.sub (hp.mem_iff.mp hp'),
    fun p hp' => h.held p (hp.mem_iff.mp hp'),
    fun p hp' hp'' => h.gone p hp' fun hin => hp'' (hp.mem_iff.mpr hin)⟩

theorem append {pages' rest' : List Nat} (h' : Leaves host o W s pages' rest' σ' σ'')
    (hd : ∀ p ∈ pages, p ∉ pages') : Leaves host o W s (pages ++ pages') (rest ++ rest') σ σ'' := by
  refine ⟨(h.refit.mono (subset_append_left ..)).trans
    (h'.refit.mono (subset_append_right ..)), ?_, ?_, fun p hp => ?_, fun p hp hp' hheld => ?_⟩
  · exact nodup_append.mpr ⟨h.once, h'.once, fun a ha b hb heq => hd a (h.sub ha) (heq ▸ h'.sub hb)⟩
  · intro p hp
    rcases mem_append.mp hp with hp | hp
    · exact mem_append_left _ (h.sub hp)
    · exact mem_append_right _ (h'.sub hp)
  · rcases mem_append.mp hp with hp | hp
    · obtain ⟨page, hpage, hs⟩ := h.held p hp
      exact ⟨page, (h'.refit.others p (hd p (h.sub hp))).trans hpage, hs⟩
    · exact h'.held p hp
  · simp only [mem_append, not_or] at hp'
    rcases mem_append.mp hp with hp | hp
    · exact h.gone p hp hp'.1 (h'.refit.held hheld)
    · exact h'.gone p hp hp'.2 hheld

end

end Leaves

theorem Inv.held (h : Inv host o W σ) (hp : σ.pages p = some page) (hs : page.holds s = true) :
    ∃ rs, o p = some rs ∧ Homed host σ page rs ∧ σ.planeRows s page = rs ∧
      page.deferred = true ∧ page.spill = none ∧ page.packedRam = false := by
  obtain ⟨rs, ho, hh⟩ := h.core.home p page hp
  obtain ⟨-, h2, h3, h4⟩ := holds_iff.mp hs
  exact ⟨rs, ho, hh, hh.planeRows_eq hs, h2, h3, h4⟩

theorem not_held_put (h : ∀ s, page'.holds s = false) : ¬ Held (σ.put p page') s p := by
  rintro ⟨page, hp, hs⟩
  rw [put_pages_self] at hp
  cases hp
  exact absurd hs (by simp [h s])

/-! ### Packing -/

theorem returns_packLocked (h : Inv host o W σ) (hn : pages.Nodup) (hh : ∀ p ∈ pages, Held σ s p) :
    Returns (packLocked host s pages) (fun rest σ' => Leaves host o W s pages rest σ σ') σ := by
  induction pages generalizing σ with
  | nil => exact Leaves.refl h hn hh
  | cons p pages ih =>
    obtain ⟨hnot, hn'⟩ := nodup_cons.mp hn
    obtain ⟨page, hp, hs⟩ := hh p (mem_cons_self ..)
    have hone : Leaves host o W s [p] [p] σ σ :=
      .refl h (by simp) (by simpa using ⟨page, hp, hs⟩)
    have hdisj : ∀ q ∈ [p], q ∉ pages := by simpa using hnot
    unfold packLocked Returns
    simp only [wp_bind, wp_get, hp]
    split
    · -- the rows would not shrink
      refine (ih h hn' fun q hq => hh q (mem_cons_of_mem _ hq)).bind fun rest σ' hl => ?_
      exact hone.append hl hdisj
    next hblob =>
    have hblob : packJob host σ s page ≠ [] := by simpa using hblob
    have hstep : Refit host o W [p] σ (σ.put p { page with packed := packJob host σ s page, packedRam := true }) := by
      refine .putOff h hp (fun rs ho hhome => ?_) rfl rfl (fun s => not_holds_of_packed rfl) fun n hn => .inl hn
      obtain ⟨-, -, -, hrows, hd, hspill, -⟩ := h.held hp hs
      cases hc : page.codes with
      | none => exact absurd (by simp [packJob, hc]) hblob
      | some codes =>
        have hjob : packJob host σ s page = host.pack codes rs := by
          rw [packJob, hc, hhome.planeRows_eq hs]
        rw [hjob] at hblob ⊢
        refine homed_packed hhome.length hd hspill rfl hblob rfl ?_
        rw [← hhome.length]
        exact host.lossless codes rs hblob
    refine (ih hstep.inv hn' fun q hq => ?_).mono fun rest σ' hl => ?_
    · obtain ⟨page', hq', hs'⟩ := hh q (mem_cons_of_mem _ hq)
      exact ⟨page', (hstep.others q (by simp; rintro rfl; exact hnot hq)).trans hq', hs'⟩
    · exact (hone.step hstep (not_held_put fun s => not_holds_of_packed rfl)).append hl hdisj

theorem returns_spillPacked (h : Inv host o W σ) (hn : pages.Nodup)
    (hh : ∀ p ∈ pages, ∃ page, σ.pages p = some page ∧ page.packedRam = true) :
    Returns (pages.forM (spillPackedLocked host)) (fun _ σ' => Refit host o W pages σ σ') σ := by
  refine Returns.mono (wp_forM (I := fun rest σ' => Refit host o W pages σ σ' ∧ rest.Nodup ∧
    rest ⊆ pages ∧ ∀ p ∈ rest, ∃ page, σ'.pages p = some page ∧ page.packedRam = true) ?_
    ⟨.refl h, hn, fun _ h => h, hh⟩) fun _ _ hr => hr.1
  intro p rest σ₁ ⟨hr, hn, hsub, hh⟩
  obtain ⟨hnot, hn'⟩ := nodup_cons.mp hn
  obtain ⟨page, hp, hpacked⟩ := hh p (mem_cons_self ..)
  refine (returns_spillPackedLocked hr.inv hp hpacked).mono fun _ σ₂ hr2 => ?_
  refine ⟨hr.trans (hr2.mono (by simpa using hsub (mem_cons_self ..))), hn',
    fun q hq => hsub (mem_cons_of_mem _ hq), fun q hq => ?_⟩
  obtain ⟨page', hq', hp'⟩ := hh q (mem_cons_of_mem _ hq)
  exact ⟨page', (hr2.others q (by simp; rintro rfl; exact hnot hq)).trans hq', hp'⟩

theorem sorted_perm : (σ.sorted pages).Perm pages := perm_insertionSort _ _

theorem returns_packFirst (h : Inv host o W σ) (hn : pages.Nodup) (hh : ∀ p ∈ pages, Held σ s p) :
    Returns (packFirst host s pages) (fun rest σ' => Leaves host o W s pages rest σ σ') σ := by
  unfold packFirst Returns
  simp only [wp_bind, wp_get]
  split
  · exact Leaves.refl h hn hh
  -- the pages split into those packed and the rest, up to order
  have hperm : (pages.filter (fun p => σ.satisfies p (packable host)) ++
      pages.filter fun p => !σ.satisfies p (packable host)).Perm pages :=
    filter_append_perm _ _
  generalize pages.filter (fun p => σ.satisfies p (packable host)) = packing at hperm ⊢
  generalize pages.filter (fun p => !σ.satisfies p (packable host)) = others at hperm ⊢
  obtain ⟨hn1, hn2, hdisj⟩ := nodup_append.mp (hperm.nodup_iff.mpr hn)
  have hmem : ∀ p, p ∈ packing ∨ p ∈ others ↔ p ∈ pages := fun p => by
    rw [← mem_append, hperm.mem_iff]
  have hd : ∀ p ∈ packing, p ∉ others := fun p h1 h2 => hdisj p h1 p h2 rfl
  refine (returns_packLocked h hn1 fun p hp => hh p ((hmem p).mp (.inl hp))).bind fun more σ₁ hl => ?_
  have hall : Leaves host o W s pages (others ++ more) σ σ₁ := by
    have h2 : Leaves host o W s others others σ₁ σ₁ := .refl hl.refit.inv hn2 fun p hp => by
      obtain ⟨page, hp', hs⟩ := hh p ((hmem p).mp (.inr hp))
      exact ⟨page, (hl.refit.others p fun hin => hd p hin hp).trans hp', hs⟩
    have happ : Leaves host o W s (packing ++ others) (others ++ more) σ σ₁ :=
      (hl.append h2 hd).perm perm_append_comm
    exact ⟨happ.refit.mono fun p hp => (hmem p).mp (mem_append.mp hp), happ.once,
      fun p hp => (hmem p).mp (mem_append.mp (happ.sub hp)), happ.held,
      fun p hp => happ.gone p (mem_append.mpr ((hmem p).mpr hp))⟩
  unfold Returns
  simp only [wp_bind, wp_get, wp_ask]
  split
  · -- memory is short: the packed blobs go to the spill file
    refine (returns_spillPacked hall.refit.inv.tick (hn1.filter _) fun p hp => ?_).bind fun _ σ₂ hr => ?_
    · exact satisfies_iff.mp (mem_filter.mp hp).2
    have hoff : Leaves host o W s pages (others ++ more) σ σ₂ := ?_
    · exact hoff.perm sorted_perm
    refine hall.off ((Refit.tick hall.refit.inv).trans hr) ?_ fun p hp hin => ?_
    · intro p hp
      exact (hmem p).mp (.inl (mem_filter.mp hp).1)
    obtain ⟨page, hp', hs⟩ := hall.held p hin
    obtain ⟨page', hp'', hpacked⟩ := satisfies_iff.mp (mem_filter.mp hp).2
    obtain rfl := mem_unique hp' hp''
    exact absurd hs (by simp [not_holds_of_packed hpacked])
  have hoff : Leaves host o W s pages (others ++ more) σ _ :=
    hall.off (Refit.tick hall.refit.inv) (nil_subset _) (by simp)
  exact hoff.perm sorted_perm

/-! ### Spilling from the planes -/

theorem returns_allocateAll (h : Inv host o W σ) :
    Returns (allocateAll pages) (fun slots σ' => Refit host o W [] σ σ' ∧
      slots.length = pages.length ∧ slots.Nodup ∧ (∀ n ∈ slots, Loose σ' n) ∧
      ∀ m, Loose σ m → Loose σ' m ∧ m ∉ slots) σ := by
  induction pages generalizing σ with
  | nil => exact ⟨.refl h, rfl, nodup_nil, by simp, fun m hm => ⟨hm, by simp⟩⟩
  | cons p pages ih =>
    refine (returns_allocate h).bind fun slot σ₁ ⟨hr1, hl, hkeep⟩ => ?_
    refine (ih hr1.inv).bind fun slots σ₂ ⟨hr2, hlen, hn, hls, hkeep2⟩ => ?_
    obtain ⟨hslot, hfresh⟩ := hkeep2 slot hl
    refine ⟨hr1.trans hr2, by simp [hlen], nodup_cons.mpr ⟨hfresh, hn⟩, fun n hn => ?_, fun m hm => ?_⟩
    · rcases mem_cons.mp hn with rfl | hn
      · exact hslot
      · exact hls n hn
    · obtain ⟨h1, h2⟩ := hkeep m hm
      obtain ⟨h3, h4⟩ := hkeep2 m h1
      exact ⟨h3, by simp [h2, h4]⟩

/-- Each page with its slot: the slots are loose, each once, and where the write returned the
    slot has the page's rows in the planes of `s`. -/
structure Written (s : Nat) (σ : State Row Codes) (written : List (Nat × Nat × Bool)) : Prop where
  once : (written.map fun t => t.2.1).Nodup
  loose : ∀ t ∈ written, Loose σ t.2.1
  rows : ∀ t ∈ written, t.2.2 = true → ∀ page, σ.pages t.1 = some page →
    σ.store.slots t.2.1 = .rows (σ.planeRows s page)

section
variable (h : Inv host o W σ)
include h

theorem returns_writeAll {l : List (Nat × Nat)} (hn : (l.map Prod.snd).Nodup) (hl : ∀ t ∈ l, Loose σ t.2) :
    Returns (writeAll host s l) (fun written σ' => Refit host o W [] σ σ' ∧
      written.map (fun t => (t.1, t.2.1)) = l ∧ Written s σ' written ∧
      (∀ m, Loose σ m → Loose σ' m) ∧
      ∀ m, m ∉ l.map Prod.snd → σ'.store.slots m = σ.store.slots m) σ := by
  induction l generalizing σ with
  | nil =>
    exact ⟨.refl h, rfl, ⟨nodup_nil, by simp, by simp⟩, fun _ hm => hm, fun _ _ => rfl⟩
  | cons t l ih =>
    obtain ⟨p, slot⟩ := t
    obtain ⟨hnot, hn'⟩ := nodup_cons.mp hn
    have hslot := hl _ (mem_cons_self ..)
    have htail : ∀ t ∈ l, Loose σ t.2 := fun t ht => hl t (mem_cons_of_mem _ ht)
    unfold writeAll Returns
    simp only [wp_bind, wp_get]
    cases hp : σ.pages p with
    | none =>
      refine (ih h hn' htail).bind fun written σ' ⟨hr, hmap, hw, hkeep, hsame⟩ => ?_
      have hslots : written.map (fun t => t.2.1) = l.map Prod.snd := by
        rw [← hmap, List.map_map]
        rfl
      refine ⟨hr, by simp [hmap], ⟨?_, fun t ht => ?_, fun t ht hok => ?_⟩, hkeep, fun m hm => hsame m ?_⟩
      · rw [map_cons, nodup_cons, hslots]
        exact ⟨hnot, hn'⟩
      · rcases mem_cons.mp ht with rfl | ht
        · exact hkeep slot hslot
        · exact hw.loose t ht
      · rcases mem_cons.mp ht with rfl | ht
        · cases hok
        · exact hw.rows t ht hok
      · simp only [map_cons, mem_cons, not_or] at hm
        exact hm.2
    | some page =>
      refine (returns_write h hslot).bind fun ok σ₁ ⟨hr1, hw1⟩ => ?_
      refine (ih hr1.inv hn' fun t ht => hw1.loose _ (htail t ht)).bind
        fun written σ' ⟨hr, hmap, hw, hkeep, hsame⟩ => ?_
      have hslots : written.map (fun t => t.2.1) = l.map Prod.snd := by
        rw [← hmap, List.map_map]
        rfl
      refine ⟨hr1.trans hr, by simp [hmap], ⟨?_, fun t ht => ?_, fun t ht hok page' hp' => ?_⟩,
        fun m hm => hkeep m (hw1.loose m hm), fun m hm => ?_⟩
      · rw [map_cons, nodup_cons, hslots]
        exact ⟨hnot, hn'⟩
      · rcases mem_cons.mp ht with rfl | ht
        · exact hkeep slot (hw1.loose slot hslot)
        · exact hw.loose t ht
      · rcases mem_cons.mp ht with rfl | ht
        · rw [hr.others p (by simp), hw1.pages, hp] at hp'
          cases hp'
          rw [hsame slot hnot, (hw1.readBack hok).1, State.planeRows, State.planeRows, hr.planes, hw1.planes]
        · exact hw.rows t ht hok page' hp'
      · simp only [map_cons, mem_cons, not_or] at hm
        rw [hsame m hm.2, hw1.slots m hm.1]

theorem returns_settleAll {written : List (Nat × Nat × Bool)} (hn : (written.map Prod.fst).Nodup)
    (hh : ∀ p ∈ written.map Prod.fst, Held σ s p) (hw : Written s σ written) :
    Returns (settleAll written) (fun rest σ' => Leaves host o W s (written.map Prod.fst) rest σ σ') σ := by
  induction written generalizing σ with
  | nil => exact Leaves.refl h hn hh
  | cons t written ih =>
    obtain ⟨p, slot, ok⟩ := t
    obtain ⟨hnot, hn'⟩ := nodup_cons.mp hn
    obtain ⟨page, hp, hs⟩ := hh p (mem_cons_self ..)
    obtain ⟨hslots, hslots'⟩ := nodup_cons.mp hw.once
    have hloose : Loose σ slot := hw.loose _ (mem_cons_self ..)
    have hone : Leaves host o W s [p] [p] σ σ :=
      .refl h (by simp) (by simpa using ⟨page, hp, hs⟩)
    have hdisj : ∀ q ∈ [p], q ∉ written.map Prod.fst := by simpa using hnot
    have hheld : ∀ {P : List Nat} {σ₁ : State Row Codes}, Refit host o W P σ σ₁ → P ⊆ [p] →
        ∀ q ∈ written.map Prod.fst, Held σ₁ s q := by
      intro P σ₁ hr hP q hq
      obtain ⟨page', hq', hs'⟩ := hh q (mem_cons_of_mem _ hq)
      refine ⟨page', (hr.others q fun hin => ?_).trans hq', hs'⟩
      exact hdisj q (hP hin) hq
    have hslot_ne : ∀ t ∈ written, t.2.1 ≠ slot := fun t ht heq =>
      hslots (heq ▸ List.mem_map.mpr ⟨t, ht, rfl⟩)
    unfold settleAll Returns
    simp only [wp_bind, wp_get, hp]
    cases ok with
    | true =>
      have hrows := hw.rows _ (mem_cons_self ..) rfl page hp
      have hstep : Refit host o W [p] σ (σ.put p
          { page.releasePayload with spill := some slot, spillPackedBytes := 0 }) := by
        refine .putOff h hp (fun rs ho hhome => ?_) rfl rfl (fun s => not_holds_of_spilled rfl) fun n hn => .inr ?_
        · obtain ⟨-, -, -, -, hd, -, -⟩ := h.held hp hs
          refine homed_slot hhome.length hd rfl rfl ?_
          simp [Host.rowsAt, hrows, SlotData.asRows, hhome.planeRows_eq hs]
        cases hn
        exact hloose
      refine (ih hstep.inv hn' (hheld hstep (fun _ h => h)) ⟨hslots', fun t ht => ?_,
        fun t ht hok page' hp' => ?_⟩).mono fun rest σ' hl => ?_
      · have hl := hw.loose t (mem_cons_of_mem _ ht)
        refine ⟨hl.below, hl.taken, fun q page' hq hn => ?_⟩
        rcases put_pages hq with ⟨rfl, rfl⟩ | ⟨-, hq⟩
        · exact hslot_ne t ht (some.inj hn).symm
        · exact hl.ownerless q page' hq hn
      · rcases put_pages hp' with ⟨heq, -⟩ | ⟨-, hp'⟩
        · exact absurd (heq ▸ List.mem_map.mpr ⟨t, ht, rfl⟩) hnot
        · exact hw.rows t (mem_cons_of_mem _ ht) hok page' hp'
      · exact (hone.step hstep (not_held_put fun s => not_holds_of_spilled rfl)).append hl hdisj
    | false =>
      simp only [wp_bind]
      refine (returns_release h hloose).mono fun _ σ₁ hfreed => ?_
      obtain ⟨hr, hsame, hkeep⟩ := hfreed
      refine (ih hr.inv hn' (hheld hr (nil_subset _)) ⟨hslots', fun t ht => ?_,
        fun t ht hok page' hp' => ?_⟩).mono fun rest σ' hl => ?_
      · exact hkeep _ (hslot_ne t ht) (hw.loose t (mem_cons_of_mem _ ht))
      · rw [hr.others _ (by simp)] at hp'
        rw [hsame, hw.rows t (mem_cons_of_mem _ ht) hok page' hp', State.planeRows, State.planeRows, hr.planes]
      · exact (hone.off hr (nil_subset _) (by simp)).append hl hdisj

theorem returns_spillWindows {l : List (List Nat)} (hn : l.flatten.Nodup) (hh : ∀ p ∈ l.flatten, Held σ s p) :
    Returns (spillWindows host s l) (fun rest σ' => Leaves host o W s l.flatten rest σ σ') σ := by
  induction l generalizing σ with
  | nil => exact Leaves.refl h hn hh
  | cons pages l ih =>
    obtain ⟨hn1, hn2, hd⟩ := nodup_append.mp hn
    have hdisj : ∀ p ∈ pages, p ∉ l.flatten := fun p h1 h2 => hd p h1 p h2 rfl
    unfold spillWindows Returns
    simp only [wp_bind, wp_get, wp_ask]
    split
    · refine (returns_allocateAll h.tick).bind fun slots σ₁ ⟨hr1, hlen, hns, hls, _⟩ => ?_
      have hfst : (pages.zip slots).map Prod.fst = pages := by
        rw [map_fst_zip (by omega)]
      have hsnd : (pages.zip slots).map Prod.snd = slots := by
        rw [map_snd_zip (by omega)]
      refine (returns_writeAll hr1.inv (by rw [hsnd]; exact hns) fun t ht => ?_).bind
        fun written σ₂ ⟨hr2, hmap, hw, _, _⟩ => ?_
      · exact hls _ (hsnd ▸ List.mem_map.mpr ⟨t, ht, rfl⟩)
      have hr : Refit host o W [] σ σ₂ := (Refit.tick h).trans (hr1.trans hr2)
      have hpages : written.map Prod.fst = pages := by
        rw [← hfst, ← hmap, List.map_map]
        rfl
      have hheld : ∀ p ∈ written.map Prod.fst, Held σ₂ s p := by
        intro p hp
        obtain ⟨page, hp', hs⟩ := hh p (mem_append_left _ (hpages ▸ hp))
        exact ⟨page, (hr.others p (by simp)).trans hp', hs⟩
      refine (returns_settleAll hr.inv (by rw [hpages]; exact hn1) hheld hw).bind fun unspilled σ₃ hl => ?_
      rw [hpages] at hl
      have hwindow : Leaves host o W s pages unspilled σ σ₃ :=
        ⟨(hr.mono (nil_subset _)).trans hl.refit, hl.once, hl.sub, hl.held, hl.gone⟩
      refine (ih hl.refit.inv hn2 fun p hp => ?_).bind fun more σ₄ hl' => ?_
      · obtain ⟨page, hp', hs⟩ := hh p (mem_append_right _ hp)
        refine ⟨page, (hwindow.refit.others p fun hin => ?_).trans hp', hs⟩
        exact hdisj p hin hp
      · exact hwindow.append hl' hdisj
    · exact (Leaves.refl h hn hh).off (Refit.tick h) (nil_subset _) (by simp)

theorem returns_spillNext (hn : pages.Nodup) (hh : ∀ p ∈ pages, Held σ s p) :
    Returns (spillNext host s pages) (fun rest σ' => Leaves host o W s pages rest σ σ') σ := by
  have htick : Leaves host o W s pages pages σ { σ with clock := σ.clock + 1 + 1 } :=
    (Leaves.refl h hn hh).off ((Refit.tick h).trans (Refit.tick h.tick)) (nil_subset _) (by simp)
  have hflat : (Chunks.chunks spillPages [] pages).flatten = pages := Chunks.chunks_flatten [] pages
  unfold spillNext Returns
  simp only [wp_bind, wp_get, wp_ask]
  split
  · refine (returns_spillWindows htick.refit.inv (by rw [hflat]; exact hn)
      fun p hp => htick.held p (hflat ▸ hp)).mono fun rest σ' hl => ?_
    rw [hflat] at hl
    exact htick.trans hl
  · exact htick

end

/-! ### The whole fill -/

theorem refit_fill (h : Inv host o W σ) (hp : σ.pages p = some page) (hs : page.holds s = true) :
    Refit host o W [p] σ (σ.put p { page with payload := σ.planeRows s page, deferred := false }) := by
  obtain ⟨-, -, -, -, -, hspill, hram⟩ := h.held hp hs
  refine .putOff h hp (fun rs ho hh => ?_) rfl rfl (fun s => not_holds_of_not_deferred rfl) fun n hn => .inl hn
  exact homed_payload hh.length rfl hspill hram (hh.planeRows_eq hs)

theorem returns_fillRest (hl : Leaves host o W s pages rest σ σ') :
    Returns (rest.forM (fillOne s)) (fun _ σ'' => Leaves host o W s pages [] σ σ'') σ' := by
  refine wp_forM (I := fun rest σ'' => Leaves host o W s pages rest σ σ'') ?_ hl
  intro p rest σ₁ hl
  obtain ⟨page, hp, hs⟩ := hl.held p (mem_cons_self ..)
  unfold fillOne
  simp only [wp_modify, hp]
  exact hl.step (refit_fill hl.refit.inv hp hs) (not_held_put fun s => not_holds_of_not_deferred rfl)

theorem returns_fillLocked {maySpill : Bool} (h : Inv host o W σ) (hn : pages.Nodup) (hh : ∀ p ∈ pages, Held σ s p) :
    Returns (fillLocked host s pages maySpill) (fun _ σ' => Leaves host o W s pages [] σ σ') σ := by
  have hsorted : Leaves host o W s pages (σ.sorted pages) σ σ :=
    (Leaves.refl h hn hh).perm sorted_perm
  unfold fillLocked Returns
  simp only [wp_bind, wp_get]
  match maySpill with
  | false => exact returns_fillRest hsorted
  | true =>
    refine (returns_packFirst h hsorted.once hsorted.held).bind fun rest σ₁ hl1 => ?_
    refine (returns_spillNext hl1.refit.inv hl1.once hl1.held).bind fun rest' σ₂ hl2 => ?_
    exact returns_fillRest ((hsorted.trans hl1).trans hl2)

end VoidInfer.Exl3.LaneKv
