import VoidInfer.Exl3.LaneKvSource

/-
  Where the rows of a page are. `Homed` says that a page is in exactly one place (its payload, the planes of its source,
  its packed blob, its spill slot) and that the rows read there are given rows. `Inv` says it of every page with the
  rows it was deferred with, that spill slots are owned by one page each, that a source tracks the pages its planes
  hold, and that no page held in planes names a row that may be overwritten.

  The lemmas say what one change of the state keeps: a page put in another place, a slot given back, planes overwritten
  where they may be.
-/

namespace VoidInfer.Exl3.LaneKv
open List Option Function

open Window Throwing

variable {Row Codes : Type} {host : Host Row Codes} {o o' : Nat → Option (List Row)}
  {W W' : Nat → Nat → Prop} {σ σ' : State Row Codes} {page page' : Page Row Codes}
  {rs : List Row} {p q s n : Nat}

/-- The four places. -/
inductive Location where
  | payload
  | planes (s : Nat)
  | packed
  | slot (n : Nat)

/-- The page's flags name the place. -/
def Page.At (page : Page Row Codes) : Location → Prop
  | .payload => page.deferred = false
  | .planes s => page.holds s = true
  | .packed => page.packedRam = true
  | .slot n => page.spill = some n

/-- The rows read there. -/
def Host.rowsAt (host : Host Row Codes) (σ : State Row Codes) (page : Page Row Codes) :
    Location → Option (List Row)
  | .payload => some page.payload
  | .planes s => some (σ.planeRows s page)
  | .packed => page.codes.map fun codes => host.unpack codes page.rows page.packed
  | .slot n =>
    if page.spillPackedBytes ≠ 0 then
      page.codes.map fun codes =>
        host.unpack codes page.rows ((σ.store.slots n).asBlob page.spillPackedBytes)
    else some (σ.store.slots n).asRows

/-- The page is in one place, and `rs` are its rows there. -/
structure Homed (host : Host Row Codes) (σ : State Row Codes) (page : Page Row Codes)
    (rs : List Row) : Prop where
  length : rs.length = page.rows
  place : ∃ loc, (∀ l, page.At l ↔ l = loc) ∧ host.rowsAt σ page loc = some rs
  blob : page.packedRam = true → page.packed ≠ []

theorem holds_iff : page.holds s = true ↔
    page.source = some s ∧ page.deferred = true ∧ page.spill = none ∧ page.packedRam = false := by
  simp [Page.holds, Page.spilled, and_assoc]

/-! ## One page -/

namespace Homed

theorem rowsAt (loc : Location) (h : Homed host σ page rs) (hl : page.At loc) : host.rowsAt σ page loc = some rs := by
  obtain ⟨loc', honly, hrows⟩ := h.place
  rwa [(honly loc).mp hl]

section
variable (h : Homed host σ page rs)
include h

theorem payload_eq (hd : page.deferred = false) : page.payload = rs :=
  some.inj (h.rowsAt .payload hd)

theorem planeRows_eq (hs : page.holds s = true) : σ.planeRows s page = rs :=
  some.inj (h.rowsAt (.planes s) hs)

theorem unspilled (hd : page.deferred = false) : page.spill = none ∧ page.packedRam = false := by
  obtain ⟨loc, honly, -⟩ := h.place
  have h1 := (honly .payload).mp hd
  refine ⟨eq_none_iff_forall_not_mem.mpr fun n hn => ?_, ?_⟩
  · have := (honly (.slot n)).mp hn
    exact Location.noConfusion (h1.trans this.symm)
  · by_contra hp
    have := (honly .packed).mp (by simpa [Page.At] using hp)
    exact Location.noConfusion (h1.trans this.symm)

theorem packed_only (hp : page.packedRam = true) : page.deferred = true ∧ page.spill = none := by
  obtain ⟨loc, honly, -⟩ := h.place
  have h1 := (honly .packed).mp hp
  refine ⟨?_, eq_none_iff_forall_not_mem.mpr fun n hn => ?_⟩
  · by_contra hd
    have := (honly .payload).mp (by simpa [Page.At] using hd)
    exact Location.noConfusion (h1.trans this.symm)
  · have := (honly (.slot n)).mp hn
    exact Location.noConfusion (h1.trans this.symm)

theorem spilled_only (hn : page.spill = some n) : page.deferred = true ∧ page.packedRam = false := by
  obtain ⟨loc, honly, -⟩ := h.place
  have h1 := (honly (.slot n)).mp hn
  refine ⟨?_, ?_⟩
  · by_contra hd
    have := (honly .payload).mp (by simpa [Page.At] using hd)
    exact Location.noConfusion (h1.trans this.symm)
  · by_contra hp
    have := (honly .packed).mp (by simpa [Page.At] using hp)
    exact Location.noConfusion (h1.trans this.symm)

theorem packed_rows (hp : page.packedRam = true) :
    ∃ codes, page.codes = some codes ∧ host.unpack codes page.rows page.packed = rs :=
  map_eq_some_iff.mp (h.rowsAt .packed hp)

theorem slot_rows (hn : page.spill = some n) (hb : page.spillPackedBytes = 0) : (σ.store.slots n).asRows = rs := by
  have := h.rowsAt (.slot n) hn
  simpa [Host.rowsAt, hb] using this

theorem slot_blob (hn : page.spill = some n) (hb : page.spillPackedBytes ≠ 0) : ∃ codes, page.codes = some codes ∧
      host.unpack codes page.rows ((σ.store.slots n).asBlob page.spillPackedBytes) = rs := by
  have := h.rowsAt (.slot n) hn
  simp only [Host.rowsAt, if_pos hb] at this
  exact map_eq_some_iff.mp this

theorem frame (hplanes : ∀ s, page.holds s = true → σ'.planeRows s page = σ.planeRows s page)
    (hslots : ∀ n, page.spill = some n → σ'.store.slots n = σ.store.slots n) :
    Homed host σ' page rs := by
  obtain ⟨loc, honly, hrows⟩ := h.place
  refine ⟨h.length, ⟨loc, honly, ?_⟩, h.blob⟩
  have hl := (honly loc).mpr rfl
  match loc, hl with
  | .payload, _ => exact hrows
  | .planes s, hl => rwa [Host.rowsAt, hplanes s hl]
  | .packed, _ => exact hrows
  | .slot n, hl =>
    simp only [Host.rowsAt] at hrows ⊢
    rwa [hslots n hl]

end

end Homed

section
variable (hlen : rs.length = page.rows)
include hlen

theorem homed_payload (hd : page.deferred = false) (hs : page.spill = none)
    (hp : page.packedRam = false) (hrows : page.payload = rs) : Homed host σ page rs := by
  refine ⟨hlen, ⟨.payload, fun l => ?_, by rw [Host.rowsAt, hrows]⟩, by simp [hp]⟩
  cases l <;> simp [Page.At, Page.holds, hd, hs, hp]

theorem homed_planes (hs : page.holds s = true) (hrows : σ.planeRows s page = rs) : Homed host σ page rs := by
  obtain ⟨h1, h2, h3, h4⟩ := holds_iff.mp hs
  refine ⟨hlen, ⟨.planes s, fun l => ?_, by rw [Host.rowsAt, hrows]⟩, by simp [h4]⟩
  have hcomm : ∀ t, s = t ↔ t = s := fun t => eq_comm
  cases l <;> simp [Page.At, Page.holds, Page.spilled, h1, h2, h3, h4, hcomm]

theorem homed_packed {codes : Codes} (hd : page.deferred = true) (hs : page.spill = none)
    (hp : page.packedRam = true) (hne : page.packed ≠ []) (hc : page.codes = some codes)
    (hrows : host.unpack codes page.rows page.packed = rs) : Homed host σ page rs := by
  refine ⟨hlen, ⟨.packed, fun l => ?_, by simp [Host.rowsAt, hc, hrows]⟩, fun _ => hne⟩
  cases l <;> simp [Page.At, Page.holds, hd, hs, hp]

theorem homed_slot (hd : page.deferred = true) (hs : page.spill = some n) (hp : page.packedRam = false)
    (hrows : host.rowsAt σ page (.slot n) = some rs) : Homed host σ page rs := by
  refine ⟨hlen, ⟨.slot n, fun l => ?_, hrows⟩, by simp [hp]⟩
  have hcomm : ∀ m, n = m ↔ m = n := fun m => eq_comm
  cases l <;> simp [Page.At, Page.holds, Page.spilled, hd, hs, hp, hcomm]

end

/-! ## All pages -/

/-- A slot that is neither free nor a page's: it was just allocated, or just dropped. -/
structure Loose (σ : State Row Codes) (n : Nat) : Prop where
  below : n < σ.store.next
  taken : n ∉ σ.store.free
  ownerless : ∀ p page, σ.pages p = some page → page.spill ≠ some n

/-- Every page is homed with its rows of `o`, slots have one owner, and held rows are not in
    `W`, the rows of each source's planes that may be overwritten. -/
structure Core (host : Host Row Codes) (o : Nat → Option (List Row)) (W : Nat → Nat → Prop)
    (σ : State Row Codes) : Prop where
  home : ∀ p page, σ.pages p = some page → ∃ rs, o p = some rs ∧ Homed host σ page rs
  guarded : ∀ p page s, σ.pages p = some page → page.holds s = true →
    ∀ row, page.Covers row → ¬ W s row
  slots : ∀ p page n, σ.pages p = some page → page.spill = some n →
    n < σ.store.next ∧ n ∉ σ.store.free
  owners : ∀ p q page page' n, σ.pages p = some page → σ.pages q = some page' →
    page.spill = some n → page'.spill = some n → p = q
  freeBelow : ∀ n ∈ σ.store.free, n < σ.store.next
  freeOnce : σ.store.free.Nodup

/-- A source tracks the pages its planes hold. -/
def Tracked (σ : State Row Codes) : Prop :=
  ∀ p page s, σ.pages p = some page → page.holds s = true → p ∈ (σ.sources s).pages

structure Inv (host : Host Row Codes) (o : Nat → Option (List Row)) (W : Nat → Nat → Prop)
    (σ : State Row Codes) : Prop where
  core : Core host o W σ
  tracked : Tracked σ

@[simp] theorem put_pages_self : (σ.put p page).pages p = some page := update_self ..

theorem put_pages_ne (h : q ≠ p) : (σ.put p page).pages q = σ.pages q := update_of_ne h ..

theorem put_pages (h : (σ.put p page).pages q = some page') :
    q = p ∧ page' = page ∨ q ≠ p ∧ σ.pages q = some page' := by
  by_cases hq : q = p
  · subst hq
    rw [put_pages_self] at h
    exact .inl ⟨rfl, (some.inj h).symm⟩
  rw [put_pages_ne hq] at h
  exact .inr ⟨hq, h⟩

namespace Core

section
variable (h : Core host o W σ)
include h

theorem congr (hpages : σ'.pages = σ.pages) (hplanes : σ'.planes = σ.planes)
    (hstore : σ'.store = σ.store) : Core host o W σ' := by
  refine ⟨fun p page hp => ?_, ?_, ?_, ?_, ?_, ?_⟩
  · rw [hpages] at hp
    obtain ⟨rs, ho, hh⟩ := h.home p page hp
    refine ⟨rs, ho, hh.frame (fun s _ => ?_) fun n _ => by rw [hstore]⟩
    unfold State.planeRows
    rw [hplanes]
  · rw [hpages]
    exact h.guarded
  · rw [hpages, hstore]
    exact h.slots
  · rw [hpages]
    exact h.owners
  · rw [hstore]
    exact h.freeBelow
  · rw [hstore]
    exact h.freeOnce

/-- One page put in another place, or put down for the first time. Its slot was its own or a
    loose one, and the rows it is held with may not be overwritten. -/
theorem put (ho : o' p = some rs) (hoo : ∀ q, q ≠ p → o' q = o q) (hh : Homed host σ page' rs)
    (hslot : ∀ n, page'.spill = some n → (∃ page, σ.pages p = some page ∧ page.spill = some n) ∨ Loose σ n)
    (hguard : ∀ s, page'.holds s = true → ∀ row, page'.Covers row → ¬ W s row) :
    Core host o' W (σ.put p page') := by
  -- a slot of `page'` belongs to no other page
  have hown : ∀ q page n, q ≠ p → σ.pages q = some page → page'.spill = some n → page.spill ≠ some n := by
    intro q page n hq hpage hn hn'
    rcases hslot n hn with ⟨old, hold, hold'⟩ | hl
    · exact hq (h.owners q p page old n hpage hold hn' hold')
    · exact hl.ownerless q page hpage hn'
  refine ⟨fun q page hq => ?_, fun q page s hq => ?_, fun q page n hq hn => ?_,
    fun q₁ q₂ page₁ page₂ n h1 h2 hn1 hn2 => ?_, h.freeBelow, h.freeOnce⟩
  · rcases put_pages hq with ⟨rfl, rfl⟩ | ⟨hne, hq⟩
    · exact ⟨rs, ho, hh.frame (fun _ _ => rfl) fun _ _ => rfl⟩
    · obtain ⟨rs', ho', hh'⟩ := h.home q page hq
      exact ⟨rs', (hoo q hne).trans ho', hh'.frame (fun _ _ => rfl) fun _ _ => rfl⟩
  · rcases put_pages hq with ⟨rfl, rfl⟩ | ⟨hne, hq⟩
    · exact hguard s
    · exact h.guarded q page s hq
  · rcases put_pages hq with ⟨rfl, rfl⟩ | ⟨hne, hq⟩
    · rcases hslot n hn with ⟨old, hold, hold'⟩ | hl
      · exact h.slots q old n hold hold'
      · exact ⟨hl.below, hl.taken⟩
    · exact h.slots q page n hq hn
  · rcases put_pages h1 with ⟨rfl, rfl⟩ | ⟨hne1, h1'⟩
    · rcases put_pages h2 with ⟨rfl, rfl⟩ | ⟨hne2, h2⟩
      · rfl
      · exact absurd hn2 (hown q₂ page₂ n hne2 h2 hn1)
    · rcases put_pages h2 with ⟨rfl, rfl⟩ | ⟨hne2, h2⟩
      · exact absurd hn1 (hown q₁ page₁ n hne1 h1' hn2)
      · exact h.owners q₁ q₂ page₁ page₂ n h1' h2 hn1 hn2

theorem release (hl : Loose σ n) : Core host o W { σ with store := σ.store.release n } := by
  refine ⟨fun p page hp => ?_, h.guarded, fun p page m hp hm => ?_, h.owners, fun m hm => ?_, ?_⟩
  · obtain ⟨rs, ho, hh⟩ := h.home p page hp
    exact ⟨rs, ho, hh.frame (fun _ _ => rfl) fun _ _ => rfl⟩
  · obtain ⟨h1, h2⟩ := h.slots p page m hp hm
    refine ⟨h1, fun hmem => ?_⟩
    rcases mem_cons.mp hmem with rfl | hmem
    · exact hl.ownerless p page hp hm
    · exact h2 hmem
  · rcases mem_cons.mp hm with rfl | hm
    · exact hl.below
    · exact h.freeBelow m hm
  · exact nodup_cons.mpr ⟨hl.taken, h.freeOnce⟩

theorem loose_of_put (hp : σ.pages p = some page) (hn : page.spill = some n)
    (hnone : page'.spill = none) : Loose (σ.put p page') n := by
  obtain ⟨h1, h2⟩ := h.slots p page n hp hn
  refine ⟨h1, h2, fun q other hq hother => ?_⟩
  rcases put_pages hq with ⟨rfl, rfl⟩ | ⟨hne, hq⟩
  · cases hnone.symm.trans hother
  · exact hne (h.owners q p other page n hq hp hother hn)

theorem putReset {old : Page Row Codes} (hp : σ.pages p = some page) (hold : old.spill = page.spill)
    (ho : o p = some rs) (hh : Homed host σ page' rs) (hnone : page'.spill = none)
    (hguard : ∀ s, page'.holds s = true → ∀ row, page'.Covers row → ¬ W s row) :
    Core host o W ({ σ with store := (resetSpill old σ.store).2 }.put p page') := by
  have hput : Core host o W (σ.put p page') :=
    h.put ho (fun _ _ => rfl) hh (fun n hn => nomatch hnone.symm.trans hn) hguard
  unfold resetSpill
  split
  · next n hn => exact hput.release (h.loose_of_put hp (hold ▸ hn) hnone)
  · exact hput

theorem planes {f : Nat → Nat → Row}
    (hf : ∀ p page s, σ.pages p = some page → page.holds s = true →
      ∀ row, page.Covers row → f s row = σ.planes s row) :
    Core host o W { σ with planes := f } := by
  refine { h with home := fun p page hp => ?_ }
  obtain ⟨rs, ho, hh⟩ := h.home p page hp
  refine ⟨rs, ho, hh.frame (fun s hs => ?_) fun _ _ => rfl⟩
  exact window_congr fun row h1 h2 => hf p page s hp hs row ⟨h1, h2⟩

theorem mono (hW : ∀ s row, W' s row → W s row) : Core host o W' σ :=
  { h with guarded := fun p page s hp hs row hrow hw => h.guarded p page s hp hs row hrow (hW s row hw) }

end

end Core

theorem Tracked.put (h : Tracked σ)
    (hp : ∀ s, page'.holds s = true → p ∈ (σ.sources s).pages) : Tracked (σ.put p page') := by
  intro q page s hq hs
  rcases put_pages hq with ⟨rfl, rfl⟩ | ⟨-, hq⟩
  · exact hp s hs
  · exact h q page s hq hs

theorem Inv.mono (h : Inv host o W σ) (hW : ∀ s row, W' s row → W s row) : Inv host o W' σ :=
  ⟨h.core.mono hW, h.tracked⟩

theorem Inv.writePlanes (h : Inv host o W σ) {d first : Nat} {rows : List Row}
    (hW : ∀ row, first ≤ row → row < first + rows.length → W d row) :
    Inv host o W (σ.writePlanes d first rows) := by
  refine ⟨h.core.planes fun p page s hp hs row hrow => ?_, h.tracked⟩
  by_cases hsd : s = d
  · subst hsd
    rw [update_self]
    refine overwrite_outside ?_
    by_contra hcon
    exact h.core.guarded p page s hp hs row hrow (hW row (by omega) (by omega))
  · rw [update_of_ne hsd]

/-! ## Tracking -/

theorem mem_uniquePages {l : List Nat} : p ∈ uniquePages l ↔ p ∈ l := by
  unfold uniquePages
  rw [mem_dedup, (perm_insertionSort _ _).mem_iff]

theorem nodup_uniquePages {l : List Nat} : (uniquePages l).Nodup := nodup_dedup _

theorem satisfies_iff {pred : Page Row Codes → Bool} :
    σ.satisfies p pred = true ↔ ∃ page, σ.pages p = some page ∧ pred page = true := by
  simp [State.satisfies, Option.any_eq_true]

theorem mem_collect {pred : Nat → Page Row Codes → Bool} : p ∈ σ.collect s pred ↔
    p ∈ (σ.sources s).pages ∧ ∃ page, σ.pages p = some page ∧ pred p page = true := by
  unfold State.collect
  rw [mem_uniquePages, mem_filter, satisfies_iff]

theorem Tracked.setSource (h : Tracked σ) {source : Source}
    (hl : ∀ p page, σ.pages p = some page → page.holds s = true → p ∈ (σ.sources s).pages →
      p ∈ source.pages) : Tracked (σ.setSource s source) := by
  intro p page t hp ht
  have hin := h p page t hp ht
  by_cases hts : t = s
  · subst hts
    simpa [State.setSource] using hl p page hp ht hin
  · simpa [State.setSource, hts] using hin

theorem Inv.setSource (h : Inv host o W σ) {source : Source}
    (hl : ∀ p page, σ.pages p = some page → page.holds s = true → p ∈ (σ.sources s).pages →
      p ∈ source.pages) : Inv host o W (σ.setSource s source) :=
  ⟨h.core.congr rfl rfl rfl, h.tracked.setSource hl⟩

theorem Inv.pruneLocked (h : Inv host o W σ) : Inv host o W (σ.pruneLocked s) := by
  refine h.setSource fun p page hp hs hin => mem_collect.mpr ⟨hin, page, hp, ?_⟩
  simp [(holds_iff.mp hs).1]

theorem trackLocked_eq (σ : State Row Codes) (s p : Nat) : ∃ source,
    σ.trackLocked s p = σ.setSource s source ∧ p ∈ source.pages ∧
      ∀ q page, σ.pages q = some page → page.holds s = true → q ∈ (σ.sources s).pages → q ∈ source.pages := by
  unfold State.trackLocked
  split
  · refine ⟨{ (σ.pruneLocked s).sources s with
      pages := ((σ.pruneLocked s).sources s).pages ++ [p] }, ?_, by simp, fun q page hq hs hin => ?_⟩
    · simp [State.pruneLocked, State.setSource]
    · have : q ∈ ((σ.pruneLocked s).sources s).pages := by
        simp only [State.pruneLocked, State.setSource, update_self]
        exact mem_collect.mpr ⟨hin, page, hq, by simp [(holds_iff.mp hs).1]⟩
      exact mem_append_left _ this
  · exact ⟨_, rfl, by simp, fun q page hq hs hin => mem_append_left _ hin⟩

theorem Inv.track (hc : Core host o W (σ.put p page')) (ht : Tracked σ)
    (hs : ∀ t, page'.holds t = true → t = s) : Inv host o W ((σ.put p page').trackLocked s p) := by
  obtain ⟨source, heq, hin, hkeep⟩ := trackLocked_eq _ s p
  rw [heq]
  refine ⟨hc.congr rfl rfl rfl, fun q page t hq hheld => ?_⟩
  rcases put_pages hq with ⟨rfl, rfl⟩ | ⟨hne, hq'⟩
  · obtain rfl := hs t hheld
    simpa [State.setSource] using hin
  have hold := ht q page t hq' hheld
  by_cases hts : t = s
  · subst hts
    simpa [State.setSource] using hkeep q page hq hheld hold
  · simpa [State.setSource, State.put, hts] using hold

end VoidInfer.Exl3.LaneKv
