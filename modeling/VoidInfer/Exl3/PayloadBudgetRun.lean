/-
  The payload budget over whole runs. `PayloadInv` says that the ledger is the sum of the tickets, that tracked
  allocations are planes of living owners and do not overlap, and that pages and uncovered reservations fit in the
  budget (`room`). An owner's ticket has the bytes of its planes, so what is tracked never exceeds the ledger, and an
  owner that dies takes no more coverage with it than ledger bytes.
-/
import VoidInfer.Exl3.PayloadBudget
import Mathlib.Algebra.Order.BigOperators.Group.List
import Mathlib.Algebra.Order.Group.Nat

namespace VoidInfer.Exl3
open List Option PayloadRegistry

open PointCount ReservedHostPayload

/-! ## Sizes of page unions -/

theorem extent_eq {l : List ResidentRange} (h : Ordered l) (hmax : Ends (· ≤ uint64Max) l) :
    extent l = .ok (size addressBound (Covers l)) := by
  suffices hgen : ∀ acc, (∀ r ∈ l, acc ≤ r.1) → l.foldlM (fun result r => do
      throwIf (r.2 - r.1 > uint64Max - result) (.overflowError "resident extent overflow")
      return result + (r.2 - r.1)) acc = (.ok (acc + size addressBound (Covers l)) : Except Exn Nat) by
    have hzero := hgen 0 (by simp)
    rw [Nat.zero_add] at hzero
    exact hzero
  induction l with
  | nil =>
    intro acc _
    rw [size_none fun x _ => covers_nil x]
    rfl
  | cons r l ih =>
    intro acc hacc
    obtain ⟨hr, hrest, h'⟩ := ordered_cons.mp h
    obtain ⟨hmr, hm'⟩ := ends_cons.mp hmax
    have hfirst := hacc r (by simp)
    have hsize : size addressBound (Covers (r :: l)) = r.2 - r.1 + size addressBound (Covers l) := by
      rw [← size_interval (show r.2 ≤ addressBound from Nat.le_succ_of_le hmr.2), ← size_or]
      · apply size_congr
        intro x _
        exact covers_cons
      intro x hx hcovers
      obtain ⟨q, hq, hle, _⟩ := hcovers
      have := hrest q hq
      omega
    have hfit : ¬ r.2 - r.1 > uint64Max - acc := by omega
    rw [foldlM_cons, throwIf_neg hfit, hsize, ← Nat.add_assoc]
    refine ih h' hm' _ fun q hq => ?_
    have := hrest q hq
    omega

/-! ## Tracked allocations -/

/-- Two allocations that `add` keeps apart. -/
def Apart (a b : TrackedPayload) : Prop :=
  ¬ (a.owner = b.owner ∧ a.plane = b.plane) ∧ ¬ (a.data < b.data + b.bytes ∧ b.data < a.data + a.bytes)

theorem Apart.symm {a b : TrackedPayload} (h : Apart a b) : Apart b a :=
  ⟨fun hsame => h.1 ⟨hsame.1.symm, hsame.2.symm⟩, fun hover => h.2 ⟨hover.2, hover.1⟩⟩

/-- An extent that `add` accepts. -/
def TrackedPayload.Valid (t : TrackedPayload) : Prop := ¬ (t.data = 0 ∨ t.bytes = 0 ∨ t.bytes > uint64Max - t.data)

variable {t : TrackedPayload}

theorem add_apart {entries : List TrackedPayload} (hvalid : t.Valid)
    (hapart : ∀ e ∈ entries, Apart e t) (hroom : entries.length < trackerCapacity) :
    add trackerCapacity (entries.map (·.entry)) (some t.owner) t.plane t.data t.bytes =
      .ok ((entries ++ [t]).map (·.entry)) := by
  have hscan : addScan t.entry (entries.map (·.entry)) = .ok false := by
    refine addScan_ok fun prior hprior => ?_
    obtain ⟨e, he, rfl⟩ := List.mem_map.mp hprior
    exact (hapart e he).symm
  have hlength : ¬ (entries.map (·.entry)).length = trackerCapacity := by
    rw [length_map]
    omega
  unfold add
  rw [throwIf_neg hvalid]
  show (addScan t.entry _ >>= _) = _
  rw [hscan]
  rw [throwIf_neg hlength, map_append]
  rfl

variable {l : List TrackedPayload}

theorem foldlM_add : ∀ entries, (∀ t ∈ l, t.Valid) →
    (entries ++ l).Pairwise Apart → (entries ++ l).length ≤ trackerCapacity →
    l.foldlM (fun entries t => add trackerCapacity entries (some t.owner) t.plane t.data t.bytes) (entries.map (·.entry)) =
      .ok ((entries ++ l).map (·.entry)) := by
  induction l with
  | nil =>
    intro entries _ _ _
    rw [append_nil]
    rfl
  | cons t l ih =>
    intro entries hvalid hapart hroom
    have hbefore : ∀ e ∈ entries, Apart e t := fun e he => (pairwise_append.mp hapart).2.2 e he t (by simp)
    rw [length_append, length_cons] at hroom
    rw [foldlM_cons, add_apart (hvalid t (by simp)) hbefore (by omega)]
    have hnext : entries ++ t :: l = (entries ++ [t]) ++ l := by simp
    rw [hnext] at hapart ⊢
    refine ih _ (fun t ht => hvalid t (by simp [ht])) hapart ?_
    rw [length_append, length_append, length_singleton]
    omega

theorem separated_entries (hvalid : ∀ t ∈ l, t.Valid) (hapart : l.Pairwise Apart) : Separated (l.map (·.entry)) := by
  refine ⟨fun e he => ?_, ?_⟩
  · obtain ⟨t, ht, rfl⟩ := List.mem_map.mp he
    have hok := hvalid t ht
    unfold TrackedPayload.Valid at hok
    exact ⟨show t.data < t.data + t.bytes by omega, show t.data + t.bytes ≤ uint64Max by omega⟩
  · refine pairwise_map.mpr (hapart.imp fun {a b} hab x hx => hab.2 ?_)
    exact ⟨Nat.lt_of_le_of_lt hx.1.1 hx.2.2, Nat.lt_of_le_of_lt hx.2.1 hx.1.2⟩

/-- The bytes of allocations with a property. -/
noncomputable def within (l : List TrackedPayload) (p : Nat → Prop) : Nat := (l.map fun t => entrySize t.entry p).sum

theorem entrySize_split (hvalid : t.Valid) (p : Nat → Prop) :
    entrySize t.entry p + entrySize t.entry (fun x => ¬ p x) = t.bytes := by
  unfold TrackedPayload.Valid at hvalid
  have hbound : t.data + t.bytes ≤ addressBound := by
    unfold addressBound
    omega
  have hsize := size_interval (a := t.data) hbound
  rw [size_split _ p] at hsize
  have hbytes : t.data + t.bytes - t.data = t.bytes := by omega
  rw [hbytes] at hsize
  exact hsize

section
variable (hvalid : ∀ t ∈ l, t.Valid)
include hvalid

theorem within_split (p : Nat → Prop) : within l p + within l (fun x => ¬ p x) = (l.map (·.bytes)).sum := by
  induction l with
  | nil => rfl
  | cons t l ih =>
    have hrest := ih fun t ht => hvalid t (by simp [ht])
    have hfirst := entrySize_split (hvalid t (by simp)) p
    unfold within at hrest ⊢
    simp only [map_cons, sum_cons]
    omega

theorem within_all : within l (fun x => ¬ (Covers [] x ∨ Covers [] x)) = (l.map (·.bytes)).sum := by
  have hnone : within l (fun x => Covers [] x ∨ Covers [] x) = 0 := by
    refine sum_eq_zero fun n hn => ?_
    obtain ⟨t, _, rfl⟩ := List.mem_map.mp hn
    refine size_none fun x _ hx => ?_
    rcases hx.2 with hx | hx
    · exact covers_nil x hx
    · exact covers_nil x hx
  rw [← within_split hvalid fun x => Covers [] x ∨ Covers [] x, hnone, Nat.zero_add]

theorem bytesOutside_within (hapart : l.Pairwise Apart)
    {old next : List ResidentRange} (hold : Ordered old) (hnext : Ordered next) :
    bytesOutside (l.map (·.entry)) old next = .ok (within l fun x => ¬ (Covers old x ∨ Covers next x)) := by
  rw [bytesOutside_ok (separated_entries hvalid hapart) hold hnext, List.map_map]
  rfl

theorem within_le (p : Nat → Prop) : within l p ≤ (l.map (·.bytes)).sum := by
  rw [← within_split hvalid p]
  exact Nat.le_add_right _ _

end

theorem sum_filter_split (f : TrackedPayload → Nat) (q : TrackedPayload → Bool) (l : List TrackedPayload) :
    (l.map f).sum = ((l.filter q).map f).sum + ((l.filter fun t => !q t).map f).sum := by
  induction l with
  | nil => rfl
  | cons t l ih =>
    cases hq : q t with
    | true =>
      simp only [filter_cons, hq, map_cons, sum_cons, if_true, Bool.not_true, Bool.false_eq_true, if_false]
      omega
    | false =>
      simp only [filter_cons, hq, map_cons, sum_cons, if_true, Bool.not_false, Bool.false_eq_true, if_false]
      omega

/-! ## Owners pay for what is tracked -/

/-- An allocation is a plane of an owner with a ticket. -/
def PlaneOf (t : TrackedPayload) (o : PayloadOwner) : Prop :=
  o.id = t.owner ∧ o.credit.isSome = true ∧ o.planes[t.plane]? = some (t.data, t.bytes)

theorem bytes_le_credit {o : PayloadOwner} (hplane : ∀ t ∈ l, PlaneOf t o)
    (hapart : l.Pairwise Apart) : (l.map (·.bytes)).sum ≤ o.credit.getD 0 := by
  cases hcredit : o.credit with
  | none =>
    have hnone : l = [] := by
      refine eq_nil_iff_forall_not_mem.mpr fun t ht => ?_
      have hsome := (hplane t ht).2.1
      rw [hcredit] at hsome
      cases hsome
    rw [hnone]
    exact Nat.le_refl 0
  | some bytes =>
    rw [getD_some, ← o.exact bytes hcredit]
    have hnodup : (l.map (·.plane)).Nodup := by
      refine pairwise_map.mpr (Pairwise.imp_of_mem ?_ hapart)
      intro a b ha hb hab heq
      exact hab.1 ⟨(hplane a ha).1.symm.trans (hplane b hb).1, heq⟩
    have hsubset : l.map (·.plane) ⊆ List.range o.planes.length := by
      intro p hp
      obtain ⟨t, ht, rfl⟩ := List.mem_map.mp hp
      exact mem_range.mpr (List.getElem?_eq_some_iff.mp (hplane t ht).2.2).1
    have hbytes : l.map (·.bytes) = (l.map (·.plane)).map fun p => (o.planes.getD p (0, 0)).2 := by
      rw [List.map_map]
      apply map_congr_left
      intro t ht
      show t.bytes = (o.planes.getD t.plane (0, 0)).2
      rw [getD_eq_getElem?_getD, (hplane t ht).2.2]
      rfl
    have hplanes : o.planes.map (·.2) = (List.range o.planes.length).map fun p => (o.planes.getD p (0, 0)).2 := by
      apply ext_getElem?
      intro i
      by_cases hi : i < o.planes.length
      · simp [hi, getD_eq_getElem?_getD]
      · simp [hi]
    obtain ⟨m, hperm, hsub⟩ := List.Nodup.subperm hnodup hsubset
    rw [hbytes, hplanes, ← (hperm.map _).sum_eq]
    exact (hsub.map _).sum_le_sum fun _ _ => Nat.zero_le _

theorem bytes_le_credits {live : List PayloadOwner} : ∀ {l : List TrackedPayload}, (live.map (·.id)).Nodup →
    (∀ t ∈ l, ∃ o ∈ live, PlaneOf t o) → l.Pairwise Apart →
    (l.map (·.bytes)).sum ≤ (live.map fun o => o.credit.getD 0).sum := by
  induction live with
  | nil =>
    intro l _ hplane _
    have hnone : l = [] := eq_nil_iff_forall_not_mem.mpr fun t ht => by
      obtain ⟨o, ho, _⟩ := hplane t ht
      cases ho
    rw [hnone]
    exact Nat.le_refl 0
  | cons o live ih =>
    intro l hnodup hplane hapart
    obtain ⟨hfresh, hnodup⟩ := nodup_cons.mp hnodup
    have hown : ((l.filter fun t => t.owner == o.id).map (·.bytes)).sum ≤ o.credit.getD 0 := by
      refine bytes_le_credit (fun t ht => ?_) (hapart.filter _)
      obtain ⟨ht, howner⟩ := mem_filter.mp ht
      obtain ⟨o', ho', hof⟩ := hplane t ht
      rcases mem_cons.mp ho' with rfl | ho'
      · exact hof
      have hsame : o'.id = o.id := hof.1.trans (beq_iff_eq.mp howner)
      exact absurd (List.mem_map.mpr ⟨o', ho', hsame⟩) hfresh
    have hothers : ((l.filter fun t => !(t.owner == o.id)).map (·.bytes)).sum ≤ (live.map fun o => o.credit.getD 0).sum := by
      refine ih hnodup (fun t ht => ?_) (hapart.filter _)
      obtain ⟨ht, howner⟩ := mem_filter.mp ht
      obtain ⟨o', ho', hof⟩ := hplane t ht
      rcases mem_cons.mp ho' with rfl | ho'
      · rw [hof.1] at howner
        exact absurd howner (by simp)
      · exact ⟨o', ho', hof⟩
    have hsplit := sum_filter_split (·.bytes) (fun t => t.owner == o.id) l
    rw [hsplit, map_cons, sum_cons]
    exact Nat.add_le_add hown hothers

namespace PayloadRegistry

/-! ## The invariant -/

/-- The bytes of the ledger. -/
def ledger (r : PayloadRegistry) : Nat := (r.accounting.map (·.ledger)).getD 0

/-- The living tracked allocations. -/
def allocations (r : PayloadRegistry) : List TrackedPayload := ((r.accounting.map r.tracked).getD [])

/-- A transition, and that it was made for these pages if it can still be committed. -/
structure PlanOk (r : PayloadRegistry) (plan : PayloadPlan) : Prop where
  desired : Ordered plan.desired
  ends : Ends (· ≤ uint64Max) plan.desired
  revision : plan.revision ≤ r.revision
  added : r.healthy = true → plan.consumed = false → plan.revision = r.revision →
    plan.added = residentDifference plan.desired r.pages

structure PayloadInv (r : PayloadRegistry) : Prop where
  pages : Ordered r.pages
  ends : Ends (· ≤ uint64Max) r.pages
  plans : ∀ plan ∈ r.plans, r.PlanOk plan
  nodup : (r.live.map (·.id)).Nodup
  minted : ∀ o ∈ r.live, o.id < r.owners
  slots : ∀ a, r.accounting = some a → a.slots.length = trackerCapacity ∧ ∀ t, some t ∈ a.slots → t.owner < r.owners
  ledger : r.ledger = r.tickets.sum + (r.live.map fun o => o.credit.getD 0).sum
  small : r.ledger ≤ uint64Max
  valid : ∀ t ∈ r.allocations, t.Valid
  plane : ∀ t ∈ r.allocations, ∃ o ∈ r.live, PlaneOf t o
  apart : r.allocations.Pairwise Apart
  room : size addressBound (Covers r.pages) + r.ledger ≤ r.budget + within r.allocations (Covers r.pages)

variable {r : PayloadRegistry}

variable {a : PayloadAccounting} {plan : PayloadPlan} {bytes : Nat} {t : TrackedPayload}
  {l : List TrackedPayload} {u : Unit}

theorem ledger_some {r : PayloadRegistry} (h : r.accounting = some a) : r.ledger = a.ledger := by
  unfold ledger
  rw [h, map_some, getD_some]

theorem ledger_none {r : PayloadRegistry} (h : r.accounting = none) : r.ledger = 0 := by
  unfold ledger
  rw [h, map_none, getD_none]

theorem allocations_some {r : PayloadRegistry} (h : r.accounting = some a) : r.allocations = r.tracked a := by
  unfold allocations
  rw [h, map_some, getD_some]

theorem allocations_none {r : PayloadRegistry} (h : r.accounting = none) : r.allocations = [] := by
  unfold allocations
  rw [h, map_none, getD_none]

theorem PayloadInv.paid (h : r.PayloadInv) : (r.allocations.map (·.bytes)).sum ≤ r.ledger := by
  have hle := bytes_le_credits h.nodup h.plane h.apart
  have hledger := h.ledger
  omega

theorem PayloadInv.covered_le (h : r.PayloadInv) (p : Nat → Prop) : within r.allocations p ≤ r.ledger :=
  Nat.le_trans (within_le h.valid p) h.paid

theorem length_tracked (r : PayloadRegistry) (a : PayloadAccounting) : (r.tracked a).length ≤ a.slots.length :=
  Nat.le_trans (length_filter_le _ _) (length_filterMap_le _ _)

theorem snapshot_eq (hvalid : ∀ t ∈ r.tracked a, t.Valid) (hapart : (r.tracked a).Pairwise Apart)
    (hlength : (r.tracked a).length ≤ trackerCapacity) : r.snapshot a = .ok ((r.tracked a).map (·.entry)) := by
  have hfold := foldlM_add [] hvalid hapart hlength
  exact hfold

theorem PayloadInv.surcharge (h : r.PayloadInv) {old next : List ResidentRange} (hold : Ordered old) (hnext : Ordered next) :
    r.payloadSurcharge old next = .ok (r.ledger - within r.allocations fun x => Covers old x ∨ Covers next x) := by
  unfold payloadSurcharge
  cases haccounting : r.accounting with
  | none =>
    rw [ledger_none haccounting, Nat.zero_sub]
    rfl
  | some a =>
    have hsum := ledger_some haccounting
    have hallocations := allocations_some haccounting
    have hvalid := h.valid
    have hapart := h.apart
    have hpaid := h.paid
    rw [hallocations] at hvalid hapart hpaid ⊢
    rw [hsum] at hpaid ⊢
    have hlength := length_tracked r a
    rw [(h.slots a haccounting).1] at hlength
    have hsnapshot := snapshot_eq hvalid hapart hlength
    have htotal := bytesOutside_within hvalid hapart ordered_nil ordered_nil
    rw [within_all hvalid] at htotal
    have houtside := bytesOutside_within hvalid hapart hold hnext
    have hsplit := within_split hvalid fun x => Covers old x ∨ Covers next x
    have hledger : ¬ ((r.tracked a).map (·.bytes)).sum > a.ledger := Nat.not_lt.mpr hpaid
    show r.additionalBytes a old next = _
    unfold additionalBytes
    rw [hsnapshot]
    show (bytesOutside _ [] [] >>= _) = _
    rw [htotal]
    rw [houtside]
    show (throwIf _ _ >>= _) = _
    rw [throwIf_neg hledger, ← hsplit, Nat.add_sub_cancel]
    rfl

theorem PayloadInv.surcharge_pages (h : r.PayloadInv) :
    r.payloadSurcharge r.pages [] = .ok (r.ledger - within r.allocations (Covers r.pages)) := by
  rw [h.surcharge h.pages ordered_nil]
  congr 2
  unfold within
  congr 1
  apply map_congr_left
  intro t _
  apply size_congr
  intro x _
  exact ⟨fun hx => ⟨hx.1, hx.2.resolve_right (covers_nil x)⟩, fun hx => ⟨hx.1, .inl hx.2⟩⟩

variable {r' : PayloadRegistry} {id : Nat} {o : PayloadOwner}

/-! ## Retirement -/

theorem PlanOk.bump (h : r.PlanOk plan) (hrevision : r'.revision = r.revision + 1) : r'.PlanOk plan := by
  have hle := h.revision
  exact ⟨h.desired, h.ends, by omega, fun _ _ heq => absurd heq (by omega)⟩

theorem PlanOk.keep (h : r.PlanOk plan) (hrevision : r'.revision = r.revision)
    (hpages : r'.pages = r.pages) (hhealthy : r'.healthy = r.healthy) : r'.PlanOk plan := by
  refine ⟨h.desired, h.ends, ?_, fun hok hfresh hnow => ?_⟩
  · rw [hrevision]
    exact h.revision
  · rw [hpages]
    exact h.added (hhealthy.symm.trans hok) hfresh (hnow.trans hrevision)

theorem PayloadInv.bump (h : r.PayloadInv) : ({ r with revision := r.revision + 1 }).PayloadInv :=
  ⟨h.pages, h.ends, fun plan hplan => (h.plans plan hplan).bump rfl, h.nodup, h.minted, h.slots, h.ledger, h.small, h.valid,
    h.plane, h.apart, h.room⟩

theorem accounting_release {r : PayloadRegistry} (h : r.accounting = some a) :
    (r.release bytes).accounting = some { a with ledger := wordSub a.ledger bytes } := by
  unfold release
  rw [h, map_some]

theorem accounting_release_none {r : PayloadRegistry} (h : r.accounting = none) :
    (r.release bytes).accounting = none := by
  unfold release
  rw [h, map_none]

theorem ledger_release {r : PayloadRegistry} (hle : bytes ≤ r.ledger) (hsmall : r.ledger ≤ uint64Max) :
    (r.release bytes).ledger = r.ledger - bytes := by
  cases haccounting : r.accounting with
  | none => rw [ledger_none (accounting_release_none haccounting), ledger_none haccounting, Nat.zero_sub]
  | some a =>
    rw [ledger_some haccounting] at hle hsmall ⊢
    rw [ledger_some (accounting_release haccounting)]
    exact wordSub_eq hle hsmall

theorem tracked_release (r : PayloadRegistry) (a : PayloadAccounting) (bytes n : Nat) :
    (r.release bytes).tracked { a with ledger := n } = r.tracked a := rfl

theorem allocations_release (r : PayloadRegistry) (bytes : Nat) : (r.release bytes).allocations = r.allocations := by
  cases haccounting : r.accounting with
  | none => rw [allocations_none (accounting_release_none haccounting), allocations_none haccounting]
  | some a =>
    rw [allocations_some (accounting_release haccounting), allocations_some haccounting]
    exact tracked_release r a bytes _

theorem slots_release {r : PayloadRegistry}
    (h : ∀ a, r.accounting = some a → a.slots.length = trackerCapacity ∧ ∀ t, some t ∈ a.slots → t.owner < r.owners) :
    ∀ a, (r.release bytes).accounting = some a → a.slots.length = trackerCapacity ∧ ∀ t, some t ∈ a.slots → t.owner < r.owners := by
  intro a ha
  obtain ⟨prior, hprior, heq⟩ := map_eq_some_iff.mp ha
  have hslots : a.slots = prior.slots := by rw [← heq]
  rw [hslots]
  exact h prior hprior

theorem sum_eraseIdx {l : List Nat} {k : Nat} (h : l[k]? = some bytes) : l.sum = bytes + (l.eraseIdx k).sum := by
  obtain ⟨hk, heq⟩ := List.getElem?_eq_some_iff.mp h
  rw [← (getElem_cons_eraseIdx_perm hk).sum_eq, sum_cons, heq]

theorem PayloadInv.retireTicket (h : r.PayloadInv) (k : Nat) : (r.retireTicket k).PayloadInv := by
  unfold PayloadRegistry.retireTicket
  split
  · exact h
  next bytes hget =>
  have hsum := sum_eraseIdx hget
  have hledger := h.ledger
  have hroom := h.room
  have hbytes : bytes ≤ ({ r with tickets := r.tickets.eraseIdx k } : PayloadRegistry).ledger := by
    show bytes ≤ r.ledger
    omega
  have hafter := ledger_release hbytes h.small
  have hallocations := allocations_release { r with tickets := r.tickets.eraseIdx k } bytes
  refine ⟨h.pages, h.ends, fun plan hplan => (h.plans plan hplan).keep rfl rfl rfl, h.nodup, h.minted, slots_release h.slots,
    ?_, ?_, ?_, ?_, ?_, ?_⟩
  · rw [hafter]
    show r.ledger - bytes = (r.tickets.eraseIdx k).sum + (r.live.map fun o => o.credit.getD 0).sum
    omega
  · rw [hafter]
    exact Nat.le_trans (Nat.sub_le _ _) h.small
  · rw [hallocations]
    exact h.valid
  · rw [hallocations]
    exact h.plane
  · rw [hallocations]
    exact h.apart
  · rw [hafter, hallocations]
    show size addressBound (Covers r.pages) + (r.ledger - bytes) ≤ r.budget + within r.allocations (Covers r.pages)
    omega

theorem credits_find {live : List PayloadOwner} (hnodup : (live.map (·.id)).Nodup)
    (h : live.find? (fun o => o.id == id) = some o) :
    (live.map fun o => o.credit.getD 0).sum =
      o.credit.getD 0 + ((live.filter fun o => o.id != id).map fun o => o.credit.getD 0).sum := by
  induction live with
  | nil => cases h
  | cons first live ih =>
    obtain ⟨hfresh, hnodup⟩ := nodup_cons.mp hnodup
    rw [find?_cons] at h
    split at h
    · next hid =>
      have hkeep : live.filter (fun o => o.id != id) = live := by
        refine filter_eq_self.mpr fun o' ho' => ?_
        rw [bne_iff_ne]
        intro hsame
        exact hfresh (List.mem_map.mpr ⟨o', ho', hsame.trans (beq_iff_eq.mp hid).symm⟩)
      rw [← some.inj h, filter_cons, if_neg (by simp [beq_iff_eq.mp hid]), hkeep, map_cons, sum_cons]
    next hid =>
    have hid : first.id ≠ id := by simpa using hid
    rw [filter_cons, if_pos (by simp [hid]), map_cons, sum_cons, map_cons, sum_cons, ih hnodup h]
    omega

theorem alive_iff : r.alive id = true ↔ ∃ o ∈ r.live, o.id = id := by
  simp [alive]

theorem allocations_filter (r : PayloadRegistry) (id : Nat) :
    ({ r with live := r.live.filter fun o => o.id != id } : PayloadRegistry).allocations =
      r.allocations.filter fun t => !(t.owner == id) := by
  have halive : ∀ owner, ({ r with live := r.live.filter fun o => o.id != id } : PayloadRegistry).alive owner =
      (!(owner == id) && r.alive owner) := by
    intro owner
    rw [Bool.eq_iff_iff, alive_iff, Bool.and_eq_true, alive_iff]
    constructor
    · intro h
      obtain ⟨o, ho, howner⟩ := h
      obtain ⟨ho, hid⟩ := mem_filter.mp ho
      rw [howner] at hid
      exact ⟨by simpa using hid, o, ho, howner⟩
    · intro h
      obtain ⟨hid, o, ho, howner⟩ := h
      exact ⟨o, mem_filter.mpr ⟨ho, by rw [howner]; simpa using hid⟩, howner⟩
  unfold allocations
  cases r.accounting with
  | none => rfl
  | some a =>
    show List.filter _ _ = List.filter _ (List.filter _ _)
    rw [List.filter_filter]
    apply filter_congr
    intro t _
    exact halive t.owner

theorem PayloadInv.retireOwner (h : r.PayloadInv) (id : Nat) : (r.retireOwner id).PayloadInv := by
  unfold PayloadRegistry.retireOwner
  split
  · exact h
  next o hfind =>
  have hcredits := credits_find h.nodup hfind
  have hid : o.id = id := by simpa using find?_some hfind
  have hmem := mem_of_find?_eq_some hfind
  have hledger := h.ledger
  have hroom := h.room
  have hbytes : o.credit.getD 0 ≤ ({ r with live := r.live.filter fun o => o.id != id } : PayloadRegistry).ledger := by
    show o.credit.getD 0 ≤ r.ledger
    omega
  have hafter := ledger_release hbytes h.small
  have hallocations := (allocations_release { r with live := r.live.filter fun o => o.id != id } (o.credit.getD 0)).trans
    (allocations_filter r id)
  -- what the owner had tracked is paid for by its ticket
  have hown : within (r.allocations.filter fun t => t.owner == id) (Covers r.pages) ≤ o.credit.getD 0 := by
    have hvalid : ∀ t ∈ r.allocations.filter (fun t => t.owner == id), t.Valid :=
      fun t ht => h.valid t (mem_filter.mp ht).1
    refine Nat.le_trans (within_le hvalid _) (bytes_le_credit (fun t ht => ?_) (h.apart.filter _))
    obtain ⟨ht, howner⟩ := mem_filter.mp ht
    obtain ⟨o', ho', hplane⟩ := h.plane t ht
    have hsame : o' = o := inj_on_of_nodup_map h.nodup ho' hmem (by rw [hplane.1, hid]; exact beq_iff_eq.mp howner)
    rw [← hsame]
    exact hplane
  have hsplit : within r.allocations (Covers r.pages) = within (r.allocations.filter fun t => t.owner == id) (Covers r.pages) +
      within (r.allocations.filter fun t => !(t.owner == id)) (Covers r.pages) := sum_filter_split _ _ _
  refine ⟨h.pages, h.ends, fun plan hplan => (h.plans plan hplan).keep rfl rfl rfl,
    h.nodup.sublist (filter_sublist.map _), fun o ho => h.minted o (mem_filter.mp ho).1, slots_release h.slots, ?_, ?_, ?_, ?_, ?_, ?_⟩
  · rw [hafter]
    show r.ledger - o.credit.getD 0 = r.tickets.sum + ((r.live.filter fun o => o.id != id).map fun o => o.credit.getD 0).sum
    omega
  · rw [hafter]
    exact Nat.le_trans (Nat.sub_le _ _) h.small
  · rw [hallocations]
    exact fun t ht => h.valid t (mem_filter.mp ht).1
  · rw [hallocations]
    intro t ht
    obtain ⟨ht, howner⟩ := mem_filter.mp ht
    obtain ⟨o', ho', hplane⟩ := h.plane t ht
    refine ⟨o', mem_filter.mpr ⟨ho', ?_⟩, hplane⟩
    rw [hplane.1]
    simpa using howner
  · rw [hallocations]
    exact h.apart.filter _
  · rw [hafter, hallocations]
    show size addressBound (Covers r.pages) + (r.ledger - o.credit.getD 0) ≤ r.budget + within _ (Covers r.pages)
    omega

theorem PayloadInv.retireOwners (h : r.PayloadInv) (dying : List Nat) : (dying.foldl PayloadRegistry.retireOwner r).PayloadInv := by
  induction dying generalizing r with
  | nil => exact h
  | cons id dying ih => exact ih (h.retireOwner id)

/-! ## New owners -/

theorem allocations_live {r r' : PayloadRegistry} (haccounting : r'.accounting = r.accounting)
    (halive : ∀ a, r.accounting = some a → ∀ t, some t ∈ a.slots → r'.alive t.owner = r.alive t.owner) :
    r'.allocations = r.allocations := by
  cases hsome : r.accounting with
  | none => rw [allocations_none hsome, allocations_none (haccounting.trans hsome)]
  | some a =>
    rw [allocations_some hsome, allocations_some (haccounting.trans hsome)]
    apply filter_congr
    intro t ht
    obtain ⟨slot, hslot, heq⟩ := mem_filterMap.mp ht
    exact halive a hsome t (by rw [← heq]; exact hslot)

theorem PayloadInv.append (h : r.PayloadInv) {tickets : List Nat} (hid : o.id = r.owners)
    (hsum : o.credit.getD 0 + tickets.sum = r.tickets.sum) :
    ({ r with tickets, live := r.live ++ [o], owners := r.owners + 1 }).PayloadInv := by
  have hallocations : ({ r with tickets, live := r.live ++ [o], owners := r.owners + 1 } : PayloadRegistry).allocations =
      r.allocations := by
    refine allocations_live rfl fun a ha t ht => ?_
    have hlt := (h.slots a ha).2 t ht
    unfold alive
    rw [any_append, any_cons, any_nil, Bool.or_false]
    have hne : (o.id == t.owner) = false := by
      simp
      omega
    rw [hne, Bool.or_false]
  have hledger := h.ledger
  refine ⟨h.pages, h.ends, fun plan hplan => (h.plans plan hplan).keep rfl rfl rfl, ?_, fun o' ho' => ?_, fun a ha => ?_, ?_,
    h.small, ?_, ?_, ?_, ?_⟩
  · rw [map_append]
    refine List.Nodup.append h.nodup (nodup_singleton _) fun id hold hnew => ?_
    obtain ⟨o', ho', rfl⟩ := List.mem_map.mp hold
    have hlt := h.minted o' ho'
    have heq : o'.id = o.id := mem_singleton.mp hnew
    omega
  · rcases mem_append.mp ho' with ho' | ho'
    · exact Nat.lt_succ_of_lt (h.minted o' ho')
    rw [mem_singleton.mp ho', hid]
    exact Nat.lt_succ_self _
  · exact ⟨(h.slots a ha).1, fun t ht => Nat.lt_succ_of_lt ((h.slots a ha).2 t ht)⟩
  · show r.ledger = tickets.sum + ((r.live ++ [o]).map fun o => o.credit.getD 0).sum
    rw [map_append, sum_append, map_singleton, sum_singleton]
    omega
  · rw [hallocations]
    exact h.valid
  · rw [hallocations]
    intro t ht
    obtain ⟨o', ho', hof⟩ := h.plane t ht
    exact ⟨o', mem_append_left _ ho', hof⟩
  · rw [hallocations]
    exact h.apart
  · rw [hallocations]
    exact h.room

theorem PayloadInv.appendBlock (h : r.PayloadInv) (ticket : Option Nat) (planes : List (Nat × Nat)) :
    (r.appendBlock ticket planes).2.PayloadInv := by
  unfold PayloadRegistry.appendBlock
  split
  · exact h.append rfl (Nat.zero_add _)
  next k bytes hticket =>
  split
  · obtain ⟨k', _, hmap⟩ := bind_eq_some_iff.mp hticket
    obtain ⟨bytes', hget, heq⟩ := map_eq_some_iff.mp hmap
    cases heq
    exact h.append rfl (sum_eraseIdx hget).symm
  · exact h.retireTicket k

/-! ## Tracking -/

theorem checkTracked_some : ∀ entries
    {checked : List PayloadEntry}, (∀ e ∈ l, e.Valid) → (entries ++ l).Pairwise Apart →
    (entries ++ l).length ≤ trackerCapacity → checkTracked t (entries.map (·.entry)) l = .ok (some checked) →
    checked = (entries ++ l).map (·.entry) ∧ ∀ e ∈ l, ¬ (e.owner = t.owner ∧ e.plane = t.plane) := by
  induction l with
  | nil =>
    intro entries checked _ _ _ h
    rw [append_nil]
    exact ⟨(some.inj (Except.ok.inj h)).symm, by simp⟩
  | cons e l ih =>
    intro entries checked hvalid hapart hroom h
    have hbefore : ∀ e' ∈ entries, Apart e' e := fun e' he' => (pairwise_append.mp hapart).2.2 e' he' e (by simp)
    have hlength := hroom
    rw [length_append, length_cons] at hlength
    rw [checkTracked, add_apart (hvalid e (by simp)) hbefore (by omega)] at h
    obtain ⟨added, hadded, h⟩ := bind_ok h
    rw [← Except.ok.inj hadded] at h
    split at h
    · obtain ⟨_, _, h⟩ := bind_ok h
      cases Except.ok.inj h
    next hother =>
    have hnext : entries ++ e :: l = (entries ++ [e]) ++ l := by simp
    rw [hnext] at hapart hroom ⊢
    obtain ⟨hchecked, hrest⟩ := ih _ (fun e he => hvalid e (by simp [he])) hapart hroom h
    refine ⟨hchecked, fun q hq => ?_⟩
    rcases mem_cons.mp hq with rfl | hq
    · exact hother
    · exact hrest q hq

theorem apart_of_add {entries : List PayloadEntry} (hother : ∀ e ∈ l, ¬ (e.owner = t.owner ∧ e.plane = t.plane))
    (h : add trackerCapacity (l.map (·.entry)) (some t.owner) t.plane t.data t.bytes = .ok entries) :
    t.Valid ∧ ∀ e ∈ l, Apart t e := by
  obtain ⟨_, hvalid, h⟩ := bind_ok h
  obtain ⟨known, hscan, _⟩ := bind_ok h
  refine ⟨(throwIf_ok (u := ())).mp hvalid, fun e he => ?_⟩
  cases known with
  | true =>
    obtain ⟨prior, hprior, hsame⟩ := addScan_true hscan
    obtain ⟨e', he', rfl⟩ := List.mem_map.mp hprior
    exact absurd ⟨hsame.1.symm, hsame.2.symm⟩ (hother e' he')
  | false => exact addScan_false hscan e.entry (List.mem_map_of_mem he)

theorem filter_set {p : TrackedPayload → Bool} (ht : p t = true) : ∀ {slots : List (Option TrackedPayload)}
    {i : Nat} (hi : i < slots.length), (slots[i].all fun t => !p t) = true →
    (((slots.set i (some t)).filterMap fun slot => slot).filter p).Perm (t :: (slots.filterMap fun slot => slot).filter p)
  | [], _, hi, _ => nomatch hi
  | none :: slots, 0, _, _ => by simp [ht]
  | some e :: slots, 0, _, hfree => by
    have hdead : p e = false := by simpa using hfree
    simp [ht, hdead]
  | none :: slots, i + 1, hi, hfree => by
    have hrest := filter_set ht (Nat.lt_of_succ_lt_succ hi) hfree
    simpa using hrest
  | some e :: slots, i + 1, hi, hfree => by
    have hrest := filter_set ht (Nat.lt_of_succ_lt_succ hi) hfree
    cases he : p e with
    | true =>
      have hswap := (hrest.cons e).trans (List.Perm.swap t e _)
      simpa [he] using hswap
    | false => simpa [he] using hrest

theorem PayloadInv.track (h : r.PayloadInv) (t : TrackedPayload) : (r.trackHostPayloadLifetime t).2.PayloadInv := by
  unfold trackHostPayloadLifetime
  split
  · exact h
  next a' hchecked =>
  unfold trackChecked at hchecked
  split at hchecked
  · exact absurd hchecked (by simp [throw, throwThe, MonadExceptOf.throw])
  next a ha =>
  obtain ⟨_, _, hchecked⟩ := bind_ok hchecked
  obtain ⟨howner, hchecked⟩ := check_ok hchecked
  obtain ⟨_, _, htrack⟩ := bind_ok hchecked
  -- the owner lives, and the allocation is its plane
  obtain ⟨o, ho, hof⟩ : ∃ o ∈ r.live, PlaneOf t o := by
    have hnot : ¬ r.live.all (fun o => !(o.id == t.owner && payloadMatches o t.plane t.data t.bytes)) = true :=
      fun hall => howner (.inr hall)
    simp only [List.all_eq_true, not_forall] at hnot
    obtain ⟨o, ho, hmatch⟩ := hnot
    simp only [payloadMatches, Bool.not_eq_true', Bool.not_eq_false, Bool.and_eq_true, beq_iff_eq,
      decide_eq_true_eq] at hmatch
    exact ⟨o, ho, hmatch.1, hmatch.2.1, hmatch.2.2⟩
  have halive : r.alive t.owner = true := alive_iff.mpr ⟨o, ho, hof.1⟩
  obtain ⟨hslots, hminted⟩ := h.slots a ha
  have hallocations := allocations_some ha
  have hvalid := h.valid
  have hapart := h.apart
  rw [hallocations] at hvalid hapart
  have hlength := length_tracked r a
  rw [hslots] at hlength
  obtain ⟨known, hknown, htrack⟩ := bind_ok htrack
  cases known with
  | none =>
    have hsame : a = a' := Except.ok.inj htrack
    have hunchanged : ({ r with accounting := some a', revision := r.revision + 1 } : PayloadRegistry) =
        { r with revision := r.revision + 1 } := by
      rw [← hsame, ← ha]
    rw [hunchanged]
    exact h.bump
  | some checked =>
    obtain ⟨hall, hother⟩ := checkTracked_some [] hvalid hapart hlength hknown
    obtain ⟨entries, hadd, htrack⟩ := bind_ok htrack
    rw [hall, nil_append] at hadd
    obtain ⟨htvalid, htapart⟩ := apart_of_add hother hadd
    split at htrack
    · exact absurd htrack (by simp [throw, throwThe, MonadExceptOf.throw])
    next i hfind =>
    obtain ⟨hi, hfree, _⟩ := findIdx?_eq_some_iff_getElem.mp hfind
    have hset : a' = { a with slots := a.slots.set i (some t) } := (Except.ok.inj htrack).symm
    subst hset
    have hperm : ({ r with
        accounting := some { a with slots := a.slots.set i (some t) }
        revision := r.revision + 1 } : PayloadRegistry).allocations.Perm (t :: r.allocations) := by
      rw [allocations_some rfl, hallocations]
      exact filter_set halive hi hfree
    have hwithin : within ({ r with
        accounting := some { a with slots := a.slots.set i (some t) }
        revision := r.revision + 1 } : PayloadRegistry).allocations (Covers r.pages) =
          entrySize t.entry (Covers r.pages) + within r.allocations (Covers r.pages) := by
      unfold within
      rw [(hperm.map _).sum_eq, map_cons, sum_cons]
    have hledger := ledger_some ha
    have hsum := h.ledger
    have hsmall := h.small
    have hroom := h.room
    refine ⟨h.pages, h.ends, fun plan hplan => (h.plans plan hplan).bump rfl, h.nodup, h.minted, fun b hb => ?_, ?_, ?_,
      fun q hq => ?_, fun q hq => ?_, ?_, ?_⟩
    · rw [← some.inj hb]
      refine ⟨by rw [length_set]; exact hslots, fun q hq => ?_⟩
      rcases mem_or_eq_of_mem_set hq with hq | hq
      · exact hminted q hq
      rw [some.inj hq, ← hof.1]
      exact h.minted o ho
    · rw [hledger] at hsum
      exact hsum
    · rw [hledger] at hsmall
      exact hsmall
    · rcases mem_cons.mp (hperm.mem_iff.mp hq) with rfl | hq
      · exact htvalid
      · exact h.valid q hq
    · rcases mem_cons.mp (hperm.mem_iff.mp hq) with rfl | hq
      · exact ⟨o, ho, hof⟩
      · exact h.plane q hq
    · refine (hperm.pairwise_iff Apart.symm).mpr (pairwise_cons.mpr ⟨fun e he => ?_, h.apart⟩)
      rw [hallocations] at he
      exact htapart e he
    · show size addressBound (Covers r.pages) + a.ledger ≤ r.budget + _
      rw [hwithin]
      omega

/-! ## Reservation -/

theorem requirePayloadBudget_ok {pages extra requested : Nat}
    (h : r.requirePayloadBudget pages extra requested = .ok u) : pages + extra + requested ≤ r.budget := by
  have hfits := (throwIf_ok (u := u)).mp h
  omega

section
variable (h : r.PayloadInv)
include h

theorem PayloadInv.admitted (haccepted : r.admitPayload bytes = .ok u) :
    size addressBound (Covers r.pages) + r.ledger + bytes ≤ r.budget + within r.allocations (Covers r.pages) := by
  obtain ⟨_, _, haccepted⟩ := bind_ok haccepted
  obtain ⟨_, _, haccepted⟩ := bind_ok haccepted
  obtain ⟨pages, hpages, haccepted⟩ := bind_ok haccepted
  obtain ⟨extra, hextra, haccepted⟩ := bind_ok haccepted
  rw [extent_eq h.pages h.ends] at hpages
  rw [h.surcharge_pages] at hextra
  have hpages := Except.ok.inj hpages
  have hextra := Except.ok.inj hextra
  have hfits := requirePayloadBudget_ok haccepted
  omega

theorem PayloadInv.makeAccounting (metadata attach : Option Exn) :
    (r.makeAccounting metadata attach).2.PayloadInv ∧ (r.makeAccounting metadata attach).2.ledger = r.ledger ∧
      (r.makeAccounting metadata attach).2.allocations = r.allocations ∧
      (r.makeAccounting metadata attach).2.pages = r.pages ∧ (r.makeAccounting metadata attach).2.budget = r.budget := by
  unfold PayloadRegistry.makeAccounting
  split
  · exact ⟨h, rfl, rfl, rfl, rfl⟩
  next hnone =>
  split
  · exact ⟨h, rfl, rfl, rfl, rfl⟩
  split
  · exact ⟨h, rfl, rfl, rfl, rfl⟩
  split
  · exact ⟨h.bump, rfl, rfl, rfl, rfl⟩
  -- the new accounting is empty
  have hledger := ledger_none hnone
  have hallocations := allocations_none hnone
  have hempty : ∀ t, some t ∉ List.replicate trackerCapacity (none : Option TrackedPayload) := by
    intro t ht
    cases eq_of_mem_replicate ht
  have hnew : ({ r with revision := r.revision + 1, accounting := some {} } : PayloadRegistry).allocations = [] := by
    rw [allocations_some rfl]
    refine eq_nil_iff_forall_not_mem.mpr fun t ht => ?_
    obtain ⟨slot, hslot, heq⟩ := mem_filterMap.mp (mem_filter.mp ht).1
    exact hempty t (by rw [← heq]; exact hslot)
  have hzero : ({ r with revision := r.revision + 1, accounting := some {} } : PayloadRegistry).ledger = 0 := by
    rw [ledger_some (a := {}) rfl]
  have hsum := h.ledger
  have hroom := h.room
  rw [hledger] at hsum
  rw [hledger, hallocations] at hroom
  refine ⟨⟨h.pages, h.ends, fun plan hplan => (h.plans plan hplan).bump rfl, h.nodup, h.minted, fun a ha => ?_, ?_, ?_,
    ?_, ?_, ?_, ?_⟩, hzero.trans hledger.symm, hnew.trans hallocations.symm, rfl, rfl⟩
  · rw [← some.inj ha]
    exact ⟨length_replicate, fun t ht => absurd ht (hempty t)⟩
  · exact hzero.trans hsum
  · exact Nat.zero_le _
  · rw [hnew]
    simp
  · rw [hnew]
    simp
  · rw [hnew]
    exact List.Pairwise.nil
  · rw [hzero, hnew]
    exact hroom

theorem PayloadInv.acquirePayload
    (hroom : size addressBound (Covers r.pages) + r.ledger + bytes ≤ r.budget + within r.allocations (Covers r.pages)) :
    (r.acquirePayload bytes).2.PayloadInv := by
  unfold PayloadRegistry.acquirePayload
  split
  · exact h
  split
  · exact h
  next a ha =>
  split
  · exact h
  next hsmall =>
  have hsum := h.ledger
  rw [ledger_some ha] at hsum hroom
  have hledger : ({ r with
      accounting := some { a with ledger := a.ledger + bytes }, tickets := r.tickets ++ [bytes]
      revision := r.revision + 1 } : PayloadRegistry).ledger = a.ledger + bytes := by
    rw [ledger_some (a := { a with ledger := a.ledger + bytes }) rfl]
  have hallocations : ({ r with
      accounting := some { a with ledger := a.ledger + bytes }, tickets := r.tickets ++ [bytes]
      revision := r.revision + 1 } : PayloadRegistry).allocations = r.allocations := by
    rw [allocations_some ha]
    exact allocations_some (a := { a with ledger := a.ledger + bytes }) rfl
  have hbefore := h.small
  rw [ledger_some ha] at hbefore
  refine ⟨h.pages, h.ends, fun plan hplan => (h.plans plan hplan).bump rfl, h.nodup, h.minted, fun b hb => ?_, ?_, ?_,
    ?_, ?_, ?_, ?_⟩
  · rw [← some.inj hb]
    exact h.slots a ha
  · show a.ledger + bytes = (r.tickets ++ [bytes]).sum + (r.live.map fun o => o.credit.getD 0).sum
    rw [sum_append, sum_singleton]
    omega
  · rw [hledger]
    omega
  · rw [hallocations]
    exact h.valid
  · rw [hallocations]
    exact h.plane
  · rw [hallocations]
    exact h.apart
  · rw [hledger, hallocations, ← Nat.add_assoc]
    exact hroom

theorem PayloadInv.reserve (bytes : Nat) (metadata attach : Option Exn) :
    (r.reserveHostPayloadLifetime bytes metadata attach).2.PayloadInv := by
  unfold reserveHostPayloadLifetime
  split
  · exact h
  next haccepted =>
  have hroom := h.admitted haccepted
  obtain ⟨hinv, hledger, hallocations, hpages, hbudget⟩ := h.makeAccounting metadata attach
  rw [← hledger, ← hallocations, ← hpages, ← hbudget] at hroom
  split
  · next heq =>
    rw [heq] at hinv
    exact hinv
  next heq =>
  rw [heq] at hinv hroom
  exact hinv.acquirePayload hroom

end

/-! ## Assessment and commit -/

section
variable (h : r.PayloadInv)
include h

theorem PayloadInv.assess (regions : List ResidentRange) (owners : List (Option Nat))
    (limits : Option Exn) : (r.assess regions owners limits).2.PayloadInv := by
  unfold PayloadRegistry.assess
  split
  · exact h
  next plan hplan =>
  have hok : r.PlanOk plan := by
    obtain ⟨_, _, hplan⟩ := bind_ok hplan
    obtain ⟨_, _, hplan⟩ := bind_ok hplan
    obtain ⟨rounded, hrounded, hplan⟩ := bind_ok hplan
    split at hplan
    · exact absurd hplan (by simp [throw, throwThe, MonadExceptOf.throw])
    obtain ⟨_, _, hplan⟩ := bind_ok hplan
    obtain ⟨_, _, hplan⟩ := bind_ok hplan
    obtain ⟨_, _, hplan⟩ := bind_ok hplan
    obtain ⟨_, _, hplan⟩ := bind_ok hplan
    obtain ⟨_, _, hplan⟩ := bind_ok hplan
    obtain ⟨hnonempty, hends⟩ := roundRegions_spec r.page_pos hrounded
    obtain ⟨hordered, hmerged, _⟩ := mergeResidentRangesInPlace_spec hnonempty hends
    rw [← Except.ok.inj hplan]
    exact ⟨hordered, fun q hq => ⟨(hmerged q hq).1.2, (hmerged q hq).2.2⟩, le_rfl, fun _ _ _ => rfl⟩
  refine ⟨h.pages, h.ends, fun q hq => ?_, h.nodup, h.minted, h.slots, h.ledger, h.small, h.valid, h.plane, h.apart, h.room⟩
  rcases mem_append.mp hq with hq | hq
  · exact (h.plans q hq).keep rfl rfl rfl
  rw [mem_singleton.mp hq]
  exact hok.keep rfl rfl rfl

theorem PayloadInv.planOk (k : Nat) : r.PlanOk (r.plan k) := by
  unfold plan
  cases hget : r.plans[k]? with
  | none => exact ⟨ordered_nil, by simp [Ends], Nat.zero_le _, fun _ hconsumed => nomatch hconsumed⟩
  | some plan => exact h.plans plan (mem_of_getElem? hget)

theorem PayloadInv.consume (k : Nat) : (r.consume k).PayloadInv := by
  refine ⟨h.pages, h.ends, fun q hq => ?_, h.nodup, h.minted, h.slots, h.ledger, h.small, h.valid, h.plane, h.apart, h.room⟩
  rcases mem_or_eq_of_mem_set hq with hq | rfl
  · exact (h.plans q hq).keep rfl rfl rfl
  have hplan := h.planOk k
  exact ⟨hplan.desired, hplan.ends, hplan.revision, fun _ hconsumed => nomatch hconsumed⟩

theorem PayloadInv.withPages {pages : List ResidentRange} (hpages : Ordered pages)
    (hends : Ends (· ≤ uint64Max) pages) {healthy : Bool} {revision : Nat} (hrevision : r.revision ≤ revision)
    (hstale : healthy = false ∨ r.revision < revision)
    (hroom : size addressBound (Covers pages) + r.ledger ≤ r.budget + within r.allocations (Covers pages)) :
    ({ r with healthy, pages, revision }).PayloadInv := by
  refine ⟨hpages, hends, fun plan hplan => ?_, h.nodup, h.minted, h.slots, h.ledger, h.small, h.valid, h.plane, h.apart, hroom⟩
  have hok := h.plans plan hplan
  have hle := hok.revision
  refine ⟨hok.desired, hok.ends, Nat.le_trans hle hrevision, fun hhealthy _ hnow => ?_⟩
  have hnow : plan.revision = revision := hnow
  rcases hstale with hstale | hstale
  · cases hstale.symm.trans hhealthy
  · omega

end

theorem within_or_le (hvalid : ∀ t ∈ l, t.Valid) (hapart : l.Pairwise Apart)
    (old next : List ResidentRange) : within l (fun x => Covers old x ∨ Covers next x) ≤
      within l (Covers next) + size addressBound (fun x => Covers old x ∧ ¬ Covers next x) := by
  have hsum : ∀ p, within l p = size addressBound fun x => Tracked (l.map (·.entry)) x ∧ p x := by
    intro p
    rw [← sum_entrySize (separated_entries hvalid hapart) p, List.map_map]
    rfl
  rw [hsum, hsum, size_split (fun x => Tracked _ x ∧ (Covers old x ∨ Covers next x)) _]
  refine Nat.add_le_add (size_mono fun x hx => ⟨hx.1.1, hx.2⟩) (size_mono fun x hx => ?_)
  exact ⟨hx.1.2.resolve_right hx.2, hx.2⟩

theorem PayloadInv.commit_room (h : r.PayloadInv) (hplan : r.PlanOk plan)
    (hadded : plan.added = residentDifference plan.desired r.pages) (hfits : r.commitFits plan = .ok u) :
    size addressBound (fun x => Covers r.pages x ∨ Covers plan.desired x) + r.ledger ≤
      r.budget + within r.allocations fun x => Covers r.pages x ∨ Covers plan.desired x := by
  obtain ⟨hordered, hends, hcovers⟩ := residentDifference_spec hplan.desired h.pages hplan.ends h.ends
  unfold commitFits at hfits
  rw [hadded, extent_eq hordered hends, extent_eq h.pages h.ends] at hfits
  obtain ⟨addedBytes, haddedBytes, hfits⟩ := bind_ok hfits
  obtain ⟨oldBytes, holdBytes, hfits⟩ := bind_ok hfits
  obtain ⟨_, hbudget, hfits⟩ := bind_ok hfits
  rw [h.surcharge h.pages hplan.desired] at hfits
  obtain ⟨extra, hextra, hfits⟩ := bind_ok hfits
  have hfits := requirePayloadBudget_ok hfits
  have haddedBytes := Except.ok.inj haddedBytes
  have holdBytes := Except.ok.inj holdBytes
  have hextra := Except.ok.inj hextra
  have hunion : size addressBound (fun x => Covers r.pages x ∨ Covers plan.desired x) = oldBytes + addedBytes := by
    rw [← haddedBytes, ← holdBytes, ← size_or fun x hx hother => ((hcovers x).mp hother).2 hx]
    apply size_congr
    intro x _
    rw [hcovers]
    constructor
    · intro hx
      by_cases hold : Covers r.pages x
      · exact .inl hold
      · exact .inr ⟨hx.resolve_left hold, hold⟩
    · intro hx
      exact hx.imp_right fun hx => hx.1
  omega

theorem PayloadInv.commit (h : r.PayloadInv) (k : Nat) (limits : Option Exn) (answer : LockAnswer) (dying : List Nat) :
    (r.commit k limits answer dying).2.PayloadInv := by
  unfold PayloadRegistry.commit
  split
  · exact h
  next husable =>
  split
  · exact h.consume k
  next hfits =>
  have hplan := h.planOk k
  -- a usable transition was made for these pages
  have hadded : (r.plan k).added = residentDifference (r.plan k).desired r.pages := by
    obtain ⟨_, hcheck, _⟩ := bind_ok husable
    have hcheck := (throwIf_ok (u := ())).mp hcheck
    simp only [not_or, Bool.not_eq_false, Bool.not_eq_true, ne_eq, Decidable.not_not] at hcheck
    exact hplan.added hcheck.1 hcheck.2.1 hcheck.2.2
  have hroom := h.commit_room hplan hadded hfits
  split
  · exact h.consume k
  · -- poisoned: the old and the new pages stay
    obtain ⟨hordered, hends, hcovers⟩ := mergeSortedResidentRanges_spec h.pages hplan.desired h.ends hplan.ends
    refine (h.consume k).withPages hordered hends le_rfl (.inl rfl) ?_
    have hsame : (Covers (mergeSortedResidentRanges r.pages (r.plan k).desired)) =
        fun x => Covers r.pages x ∨ Covers (r.plan k).desired x := by
      funext x
      exact propext (hcovers x)
    rw [hsame]
    exact hroom
  refine PayloadInv.retireOwners ((h.consume k).withPages hplan.desired hplan.ends (Nat.le_succ _)
    (.inr (Nat.lt_succ_self _)) ?_) dying
  have hmore := within_or_le h.valid h.apart r.pages (r.plan k).desired
  have hsplit := size_split (fun x => Covers r.pages x ∨ Covers (r.plan k).desired x) (Covers (r.plan k).desired) (n := addressBound)
  have hnew : size addressBound (fun x => (Covers r.pages x ∨ Covers (r.plan k).desired x) ∧ Covers (r.plan k).desired x) =
      size addressBound (Covers (r.plan k).desired) :=
    size_congr fun x _ => ⟨fun hx => hx.2, fun hx => ⟨.inr hx, hx⟩⟩
  have hold : size addressBound (fun x => (Covers r.pages x ∨ Covers (r.plan k).desired x) ∧ ¬ Covers (r.plan k).desired x) =
      size addressBound (fun x => Covers r.pages x ∧ ¬ Covers (r.plan k).desired x) :=
    size_congr fun x _ => ⟨fun hx => ⟨hx.1.resolve_right hx.2, hx.2⟩, fun hx => ⟨.inl hx.1, hx.2⟩⟩
  show size addressBound _ + r.ledger ≤ r.budget + within r.allocations _
  omega

/-! ## Whole runs -/

theorem PayloadInv.exec (h : r.PayloadInv) (op : PayloadOp) : (r.exec op).2.PayloadInv := by
  cases op with
  | reserve bytes metadata attach => exact h.reserve bytes metadata attach
  | appendBlock ticket planes => exact h.appendBlock ticket planes
  | track t => exact h.track t
  | retireTicket k => exact h.retireTicket k
  | retireOwner id => exact h.retireOwner id
  | assess regions owners limits => exact h.assess regions owners limits
  | commit k limits answer dying => exact h.commit k limits answer dying

theorem PayloadInv.runOps (h : r.PayloadInv) (ops : List PayloadOp) : (r.runOps ops).PayloadInv := by
  induction ops generalizing r with
  | nil => exact h
  | cons op ops ih => exact ih (h.exec op)

theorem makeAccounting_budget (r : PayloadRegistry) (metadata attach : Option Exn) :
    (r.makeAccounting metadata attach).2.budget = r.budget := by
  unfold makeAccounting
  repeat' split
  all_goals rfl

theorem retireTicket_budget (r : PayloadRegistry) (k : Nat) : (r.retireTicket k).budget = r.budget := by
  unfold retireTicket
  split
  all_goals rfl

theorem retireOwners_budget (dying : List Nat) : (dying.foldl retireOwner r).budget = r.budget := by
  induction dying generalizing r with
  | nil => rfl
  | cons id dying ih =>
    rw [foldl_cons, ih]
    unfold retireOwner
    split
    all_goals rfl

theorem exec_budget (r : PayloadRegistry) (op : PayloadOp) : (r.exec op).2.budget = r.budget := by
  cases op with
  | reserve bytes metadata attach =>
    have hmade := makeAccounting_budget r metadata attach
    show (r.reserveHostPayloadLifetime bytes metadata attach).2.budget = r.budget
    unfold reserveHostPayloadLifetime
    split
    · rfl
    split
    · next heq =>
      rw [heq] at hmade
      exact hmade
    next heq =>
    rw [heq] at hmade
    rw [← hmade]
    unfold acquirePayload
    repeat' split
    all_goals rfl
  | appendBlock ticket planes =>
    show (r.appendBlock ticket planes).2.budget = r.budget
    unfold appendBlock
    split
    · rfl
    split
    · rfl
    · exact retireTicket_budget r _
  | track t =>
    show (r.trackHostPayloadLifetime t).2.budget = r.budget
    unfold trackHostPayloadLifetime
    split
    all_goals rfl
  | retireTicket k => exact retireTicket_budget r k
  | retireOwner id => exact retireOwners_budget [id]
  | assess regions owners limits =>
    show (r.assess regions owners limits).2.budget = r.budget
    unfold assess
    split
    all_goals rfl
  | commit k limits answer dying =>
    show (r.commit k limits answer dying).2.budget = r.budget
    unfold commit
    split
    · rfl
    split
    · rfl
    split
    · rfl
    · rfl
    · exact retireOwners_budget dying

theorem runOps_budget (r : PayloadRegistry) (ops : List PayloadOp) : (r.runOps ops).budget = r.budget := by
  induction ops generalizing r with
  | nil => rfl
  | cons op ops ih => exact (ih (r.exec op).2).trans (exec_budget r op)

theorem payloadInv_new (budget page : Nat) (hpage : 0 < page) : PayloadInv { budget, page, page_pos := hpage } := by
  refine ⟨ordered_nil, by simp [Ends], by simp, nodup_nil, by simp, by simp, rfl, Nat.zero_le _, ?_, ?_,
    List.Pairwise.nil, ?_⟩
  · intro t ht
    exact absurd ht (by rw [allocations_none rfl]; simp)
  · intro t ht
    exact absurd ht (by rw [allocations_none rfl]; simp)
  · rw [ledger_none rfl, size_none fun x _ => covers_nil x]
    exact Nat.zero_le _

/-- After any operations on a new registry, locked pages and the surcharge of reservations fit in the budget, and the
    surcharge is the ledger without the tracked bytes that a locked page covers. What `bytes_outside` counts of any union of
    allocations is the bytes that neither list of ranges covers. -/
theorem payload_within_budget (budget page : Nat) (hpage : 0 < page) (ops : List PayloadOp) :
    (∃ pages surcharge,
      extent (runOps { budget, page, page_pos := hpage } ops).pages = .ok pages ∧
      (runOps { budget, page, page_pos := hpage } ops).payloadSurcharge (runOps { budget, page, page_pos := hpage } ops).pages [] =
        .ok surcharge ∧
      pages + surcharge ≤ budget ∧
      surcharge + within (runOps { budget, page, page_pos := hpage } ops).allocations
        (Covers (runOps { budget, page, page_pos := hpage } ops).pages) = (runOps { budget, page, page_pos := hpage } ops).ledger) ∧
    ∀ capacity entries resident incoming, Built capacity entries → Ordered resident → Ordered incoming →
      bytesOutside entries resident incoming =
        .ok (entries.map fun e => entrySize e fun x => ¬ (Covers resident x ∨ Covers incoming x)).sum := by
  have h := (payloadInv_new budget page hpage).runOps ops
  have hbudget : (runOps { budget, page, page_pos := hpage } ops).budget = budget := runOps_budget _ ops
  have hroom := h.room
  have hcovered := h.covered_le (Covers (runOps { budget, page, page_pos := hpage } ops).pages)
  refine ⟨⟨_, _, extent_eq h.pages h.ends, h.surcharge_pages, by omega, by omega⟩, ?_⟩
  intro capacity entries resident incoming hbuilt hresident hincoming
  exact bytesOutside_ok hbuilt.separated hresident hincoming

/-- The page of a block is locked, the rest of two pages is reserved, one byte more is refused, and
    the block is tracked. -/
def sampleOps : List PayloadOp :=
  [.reserve 8 none none, .appendBlock (some 0) [(4096, 8)], .assess [(4096, 4104)] [some 0] none,
    .commit 0 none .locked [], .reserve 4088 none none, .reserve 1 none none, .track ⟨0, 0, 4096, 8⟩]

theorem payload_within_budget_sample :
    (runOps { budget := 8192, page := 4096, page_pos := by decide } sampleOps).pages = [(4096, 8192)] ∧
    (runOps { budget := 8192, page := 4096, page_pos := by decide } sampleOps).ledger = 8 + 4088 ∧
    (∃ pages surcharge,
      extent (runOps { budget := 8192, page := 4096, page_pos := by decide } sampleOps).pages = .ok pages ∧
      pages + surcharge ≤ 8192 ∧
      surcharge + within (runOps { budget := 8192, page := 4096, page_pos := by decide } sampleOps).allocations
        (Covers (runOps { budget := 8192, page := 4096, page_pos := by decide } sampleOps).pages) = 8 + 4088) ∧
    bytesOutside [⟨1, 0, 4096, 4112⟩] [(4096, 4104)] [] =
      .ok (([⟨1, 0, 4096, 4112⟩] : List PayloadEntry).map fun e =>
        entrySize e fun x => ¬ (Covers [(4096, 4104)] x ∨ Covers [] x)).sum := by
  have hledger : (runOps { budget := 8192, page := 4096, page_pos := by decide } sampleOps).ledger = 8 + 4088 := by
    decide +kernel
  obtain ⟨⟨pages, surcharge, hpages, _, hfits, hexact⟩, hbytes⟩ := payload_within_budget 8192 4096 (by decide) sampleOps
  refine ⟨by decide +kernel, hledger, ⟨pages, surcharge, hpages, hfits, hexact.trans hledger⟩, ?_⟩
  have hbuilt : Built 4096 [⟨1, 0, 4096, 4112⟩] := @Built.add 4096 [] _ (some 1) 0 4096 16 .empty rfl
  exact hbytes 4096 _ _ _ hbuilt ⟨by simp, pairwise_singleton _ _⟩ ordered_nil

end PayloadRegistry
end VoidInfer.Exl3
