import VoidInfer.DeviceKV.PoolInv

/-
  Pools and their clients. Several pools, the reservation objects clients hold, and the vectors in which they keep
  leases. A run makes any sequence of calls, on any pool with any reservation and any vector, also with ones that belong
  to another pool; between calls clients move reservations and leases about.

  Along every run each pool keeps its invariant against the live objects that name it (`pool_run_invariant`).
-/

namespace VoidInfer.DeviceKV
open List Option ListUpdate

open SpanList DeviceKVPagePool

/-- The pools, and what clients hold. A moved-from or released object has no owner. -/
structure World where
  pools : List DeviceKVPagePool
  reservations : List DeviceKVPageReservation := []
  vectors : List (List DeviceKVPageLease) := []

namespace World

/-- The live leases of pool `i`. -/
def leasesOf (w : World) (i : Nat) : List DeviceKVPageLease :=
  w.vectors.flatten.filter fun l => decide (l.owner = some i)

/-- The live reservations of pool `i`. -/
def reservationsOf (w : World) (i : Nat) : List DeviceKVPageReservation :=
  w.reservations.filter fun r => decide (r.owner = some i)

/-- The credit of pool `i`: the sum of `pages_` over its live reservations. -/
def creditOf (w : World) (i : Nat) : Nat := ((w.reservationsOf i).map (·.pages)).sum

/-! ## Calls -/

/-- A request of `reserve_device_kv_page_bundle`: a pool (none is null) and pages. -/
abbrev BundleRequest := Option Nat × Nat

/-- The checks of `reserve_device_kv_page_bundle`, request by request. -/
def checkBundle (w : World) (prior : List BundleRequest) : List BundleRequest → Except Exn Unit
  | [] => .ok ()
  | request :: rest =>
    match request.1.bind fun i => w.pools[i]? with
    | none => .error (.invalidArgument "Paged KV bundle reservation is empty")
    | some p => do
      throwIf (request.2 = 0) (.invalidArgument "Paged KV bundle reservation is empty")
      throwIf (∃ other ∈ prior, other.1 = request.1) (.invalidArgument "Paged KV bundle names the same pool twice")
      throwIf (request.2 > p.availablePages) .badAlloc
      checkBundle w (prior ++ [request]) rest

/-- The reservations of `reserve_device_kv_page_bundle`, one after the other. -/
def reserveEach (w : World) : List BundleRequest → Except Exn World
  | [] => .ok w
  | request :: rest =>
    match request.1.bind fun i => w.pools[i]? with
    | none => .error (.invalidArgument "Paged KV bundle reservation is empty")
    | some p =>
      match p.reserve request.2 with
      | none => .error (.logicError "Paged KV bundle prevalidation was not stable")
      | some (r, p') =>
        reserveEach { w with
          pools := w.pools.set (request.1.getD 0) p'
          reservations := w.reservations ++ [r] } rest

/-- `reserve_device_kv_page_bundle`. A throw half way destroys the reservations made so
    far, which leaves the pools as they were. -/
def reserveDeviceKvPageBundle (w : World) (requests : List BundleRequest) : Except Exn World := do
  w.checkBundle [] requests
  w.reserveEach requests

/-- `DeviceKVPageReservation::clear`. -/
def clearReservation (w : World) (k : Nat) (r : DeviceKVPageReservation) : Except Exn World :=
  match r.owner with
  | none => .ok w
  | some i =>
    if r.pages = 0 then .ok w
    else
      match w.pools[i]? with
      | none => .ok w
      | some p => do
        let p ← p.releaseReservation r.pages
        return { w with pools := w.pools.set i p
                        reservations := w.reservations.set k { r with pages := 0 } }

/-- `DeviceKVPageReservation::release`, also its destructor. -/
def releaseReservation (w : World) (k : Nat) (r : DeviceKVPageReservation) : Except Exn World :=
  match r.owner with
  | none => .ok w
  | some i =>
    match w.pools[i]? with
    | none => .ok w
    | some p => do
      let p ← p.releaseReservation r.pages
      return { w with pools := w.pools.set i p, reservations := w.reservations.set k {} }

/-- `DeviceKVPageLease::release`, also its destructor, on lease `j` of vector `v`. -/
def releaseLease (w : World) (v j : Nat) (d : List DeviceKVPageLease) (l : DeviceKVPageLease) :
    World :=
  match l.owner with
  | none => w
  | some i =>
    match w.pools[i]? with
    | none => w
    | some p => { w with pools := w.pools.set i (p.releaseLease l).2
                         vectors := w.vectors.set v (d.set j {}) }

/-- The outcomes of one call: pool `i`, reservation `k`, vector `v`, lease `j` of it. -/
inductive Call (w : World) : Except Exn World → Prop where
  | reserve {i : Nat} {p : DeviceKVPagePool} (hp : w.pools[i]? = some p) (pages : Nat) :
      Call w (match p.reserve pages with
        | none => .ok w
        | some (r, p') => .ok { w with
            pools := w.pools.set i p', reservations := w.reservations ++ [r] })
  | makeEmptyReservation {i : Nat} {p : DeviceKVPagePool} (hp : w.pools[i]? = some p) :
      Call w (.ok { w with reservations := w.reservations ++ [p.makeEmptyReservation] })
  | reserveBundle (requests : List BundleRequest) : Call w (w.reserveDeviceKvPageBundle requests)
  | resizeReservation {i k : Nat} {p : DeviceKVPagePool} {r : DeviceKVPageReservation}
      (hp : w.pools[i]? = some p) (hr : w.reservations[k]? = some r) (newReservedPages : Nat) :
      Call w (do
        let (r', p') ← p.resizeReservation r newReservedPages
        return { w with pools := w.pools.set i p', reservations := w.reservations.set k r' })
  | clear {k : Nat} {r : DeviceKVPageReservation} (hr : w.reservations[k]? = some r) :
      Call w (w.clearReservation k r)
  | release {k : Nat} {r : DeviceKVPageReservation} (hr : w.reservations[k]? = some r) :
      Call w (w.releaseReservation k r)
  | materialize {i k v : Nat} {p : DeviceKVPagePool} {r : DeviceKVPageReservation}
      {d : List DeviceKVPageLease} (hp : w.pools[i]? = some p) (hr : w.reservations[k]? = some r)
      (hd : w.vectors[v]? = some d) (targetPageCount capacity : Nat)
      (preferredPredecessor : Option DeviceKVPageHandle) :
      Call w (do
        let (p', r', d') ← p.materialize r targetPageCount d capacity preferredPredecessor
        return { pools := w.pools.set i p', reservations := w.reservations.set k r',
                 vectors := w.vectors.set v d' })
  | materializeOne {i k : Nat} {p : DeviceKVPagePool} {r : DeviceKVPageReservation}
      (hp : w.pools[i]? = some p) (hr : w.reservations[k]? = some r) :
      Call w (do
        let (p', r', l) ← p.materializeOne r
        return { pools := w.pools.set i p', reservations := w.reservations.set k r',
                 vectors := w.vectors ++ [[l]] })
  | dematerialize {i k v : Nat} {p : DeviceKVPagePool} {r : DeviceKVPageReservation}
      {d : List DeviceKVPageLease} (hp : w.pools[i]? = some p) (hr : w.reservations[k]? = some r)
      (hd : w.vectors[v]? = some d) (targetPageCount : Nat) :
      Call w (do
        let (p', r', d') ← p.dematerialize r targetPageCount d
        return { pools := w.pools.set i p', reservations := w.reservations.set k r',
                 vectors := w.vectors.set v d' })
  | dematerializeOne {i k v j : Nat} {p : DeviceKVPagePool} {r : DeviceKVPageReservation}
      {d : List DeviceKVPageLease} {l : DeviceKVPageLease} (hp : w.pools[i]? = some p)
      (hr : w.reservations[k]? = some r) (hd : w.vectors[v]? = some d) (hl : d[j]? = some l) :
      Call w (do
        let (p', r') ← p.dematerializeOne r l
        return { pools := w.pools.set i p', reservations := w.reservations.set k r',
                 vectors := w.vectors.set v (d.set j {}) })
  | releaseLease {v j : Nat} {d : List DeviceKVPageLease} {l : DeviceKVPageLease}
      (hd : w.vectors[v]? = some d) (hl : d[j]? = some l) :
      Call w (.ok (w.releaseLease v j d l))

/-- Clients moved live objects about: no call was made, and none was lost or copied. -/
structure Moved (w w' : World) : Prop where
  pools : w'.pools = w.pools
  leases : (w'.vectors.flatten.filter (·.owner.isSome)).Perm
    (w.vectors.flatten.filter (·.owner.isSome))
  reservations : (w'.reservations.filter (·.owner.isSome)).Perm
    (w.reservations.filter (·.owner.isSome))

/-- The worlds that some run produces. A call that throws leaves its world. -/
inductive Run : World → Prop where
  | start {pools : List DeviceKVPagePool}
      (h : ∀ (i : Nat) (p : DeviceKVPagePool), pools[i]? = some p → ∃ n, make i n = .ok p) :
      Run { pools }
  | call {w w' : World} (hr : Run w) (h : Call w (.ok w')) : Run w'
  | throws {w : World} {e : Exn} (hr : Run w) (h : Call w (.error e)) : Run w
  | moved {w w' : World} (hr : Run w) (h : Moved w w') : Run w'

/-! ## The invariant -/

/-- Every pool keeps its invariant against the live objects that name it. -/
def Inv (w : World) : Prop := ∀ (i : Nat) (p : DeviceKVPagePool), w.pools[i]? = some p →
  p.self = i ∧ PoolInv p (w.leasesOf i) (w.creditOf i)

/-- The leases of a list that belong to pool `i`. -/
def leasesIn (i : Nat) (l : List DeviceKVPageLease) : List DeviceKVPageLease :=
  l.filter fun l => decide (l.owner = some i)

/-- The credit in a list of reservations that belongs to pool `i`. -/
def creditIn (i : Nat) (l : List DeviceKVPageReservation) : Nat :=
  ((l.filter fun r => decide (r.owner = some i)).map (·.pages)).sum

theorem leasesIn_perm (i : Nat) {l l' : List DeviceKVPageLease} (h : l.Perm l') :
    (leasesIn i l).Perm (leasesIn i l') := h.filter _

theorem leasesIn_append (i : Nat) (l l' : List DeviceKVPageLease) :
    leasesIn i (l ++ l') = leasesIn i l ++ leasesIn i l' := filter_append ..

variable {l : DeviceKVPageLease} {i j k v : Nat} {w w' : World} {p p' : DeviceKVPagePool}
  {r : DeviceKVPageReservation} {d : List DeviceKVPageLease}

theorem leasesIn_own {l : List DeviceKVPageLease} (h : ∀ x ∈ l, x.owner = some i) :
    leasesIn i l = l := filter_eq_self.mpr fun x hx => by simp [h x hx]

theorem leasesIn_other {l : List DeviceKVPageLease} (h : ∀ x ∈ l, x.owner = some i)
    (hij : j ≠ i) : leasesIn j l = [] := filter_eq_nil_iff.mpr fun x hx => by
  simp [h x hx, hij.symm]

theorem creditIn_perm (i : Nat) {l l' : List DeviceKVPageReservation} (h : l.Perm l') :
    creditIn i l = creditIn i l' := ((h.filter _).map _).sum_eq

theorem creditIn_cons (i : Nat) (r : DeviceKVPageReservation) (l : List DeviceKVPageReservation) :
    creditIn i (r :: l) = (if r.owner = some i then r.pages else 0) + creditIn i l := by
  simp only [creditIn, filter_cons, decide_eq_true_eq]
  split <;> simp

theorem creditIn_append_singleton (i : Nat) (l : List DeviceKVPageReservation) (r : DeviceKVPageReservation) :
    creditIn i (l ++ [r]) = (if r.owner = some i then r.pages else 0) + creditIn i l := by
  have hperm : (l ++ [r]).Perm ([r] ++ l) := perm_append_comm
  rw [creditIn_perm i hperm]
  exact creditIn_cons i r l

variable {vectors : List (List DeviceKVPageLease)} {pages : Nat}

theorem Inv.update (h : Inv w) (hp : w.pools[i]? = some p) (p' : DeviceKVPagePool)
    (hself : p'.self = p.self) {reservations : List DeviceKVPageReservation}
    (hown : PoolInv p' (leasesIn i vectors.flatten) (creditIn i reservations))
    (hleases : ∀ j, j ≠ i → (leasesIn j w.vectors.flatten).Perm (leasesIn j vectors.flatten))
    (hcredit : ∀ j, j ≠ i → creditIn j reservations = creditIn j w.reservations) :
    Inv ⟨w.pools.set i p', reservations, vectors⟩ := by
  intro j q hq
  rcases getElem?_set_cases hq with ⟨rfl, rfl⟩ | ⟨hij, hq⟩
  · exact ⟨hself.trans (h _ p hp).1, hown⟩
  obtain ⟨h1, h2⟩ := h j q hq
  refine ⟨h1, ?_⟩
  show PoolInv q _ (creditIn j reservations)
  rw [hcredit j hij]
  exact h2.perm (hleases j hij)

theorem Inv.update_reservation (h : Inv w) (hp : w.pools[i]? = some p)
    (hr : w.reservations[k]? = some r) (p' : DeviceKVPagePool) (r' : DeviceKVPageReservation)
    (hself : p'.self = p.self) (ho : r.owner = some p.self)
    (ho' : r'.owner = some p.self ∨ r' = {})
    (hleases : ∀ j, j ≠ i → (leasesIn j w.vectors.flatten).Perm (leasesIn j vectors.flatten))
    (hown : ∀ credit, w.creditOf i = r.pages + credit → PoolInv p' (leasesIn i vectors.flatten) (r'.pages + credit)) :
    Inv ⟨w.pools.set i p', w.reservations.set k r', vectors⟩ := by
  obtain ⟨rest, hperm, hset⟩ := set_perm hr
  have hi := (h i p hp).1
  rw [hi] at ho ho'
  have hcred : w.creditOf i = r.pages + creditIn i rest := by
    show creditIn i w.reservations = _
    rw [creditIn_perm i hperm, creditIn_cons, if_pos ho]
  refine h.update hp p' hself ?_ hleases fun j hj => ?_
  · rw [creditIn_perm i (hset r'), creditIn_cons]
    have := hown _ hcred
    rcases ho' with ho' | rfl
    · rw [if_pos ho']
      exact this
    · exact this
  have hzero : ∀ x : DeviceKVPageReservation, x.owner = some i →
      (if x.owner = some j then x.pages else 0) = 0 := fun x hx =>
    if_neg (by rw [hx]; simpa using hj.symm)
  rw [creditIn_perm j (hset r'), creditIn_perm j hperm, creditIn_cons, creditIn_cons, hzero r ho]
  rcases ho' with ho' | rfl
  · rw [hzero r' ho']
  · rfl

theorem creditOf_rest (i : Nat) (hr : w.reservations[k]? = some r) :
    ∃ kept, r.owner = some i → w.creditOf i = r.pages + kept := by
  obtain ⟨rest, hperm, -⟩ := set_perm hr
  refine ⟨creditIn i rest, fun ho => ?_⟩
  show creditIn i w.reservations = _
  rw [creditIn_perm i hperm, creditIn_cons, if_pos ho]

section
variable (h : Inv w) (hp : w.pools[i]? = some p)
include h hp

theorem Inv.recredited (hr : w.reservations[k]? = some r)
    (r' : DeviceKVPageReservation) (ho : r.owner = some p.self) (ho' : r'.owner = some p.self ∨ r' = {})
    (hroom : p.allocatedPages + (p.reservedPages - r.pages + r'.pages) ≤ p.capacityPages) :
    Inv { w with
          pools := w.pools.set i { p with reservedPages := p.reservedPages - r.pages + r'.pages }
          reservations := w.reservations.set k r' } := by
  have hpi := (h i p hp).2
  have hres := hpi.reserved
  refine h.update_reservation hp hr _ r' rfl ho ho' (fun j _ => List.Perm.refl _) fun credit hcredit => ?_
  have heq : p.reservedPages - r.pages + r'.pages = r'.pages + credit := by omega
  rw [heq] at hroom ⊢
  exact hpi.recredit _ hroom

theorem Inv.update_vector (hr : w.reservations[k]? = some r) (hd : w.vectors[v]? = some d)
    {r' : DeviceKVPageReservation} {d' : List DeviceKVPageLease}
    (step : ∀ others credit, (r.owner = some p.self → (∀ l ∈ d, l.owner = some p.self) →
        PoolInv p (d ++ others) (r.pages + credit)) →
      r.owner = some p.self ∧ r'.owner = some p.self ∧ p'.self = p.self ∧
        (∀ l ∈ d, l.owner = some p.self) ∧ (∀ l ∈ d', l.owner = some p.self) ∧
        PoolInv p' (d' ++ others) (r'.pages + credit)) :
    Inv ⟨w.pools.set i p', w.reservations.set k r', w.vectors.set v d'⟩ := by
  obtain ⟨rest, hperm, hset⟩ := flatten_set_perm hd
  obtain ⟨hi, hpi⟩ := h i p hp
  have hpool : ∀ credit, w.creditOf i = r.pages + credit → (∀ l ∈ d, l.owner = some p.self) →
      PoolInv p (d ++ leasesIn i rest) (r.pages + credit) := by
    intro credit hcredit hdo
    have h1 := hpi.perm (leasesIn_perm i hperm)
    rw [leasesIn_append, leasesIn_own (hi ▸ hdo), hcredit] at h1
    exact h1
  obtain ⟨kept, hcred⟩ := creditOf_rest i hr
  obtain ⟨ho, ho', hs, hdo, hdo', hstep⟩ := step _ (kept) fun ho hdo => hpool _ (hcred (hi ▸ ho)) hdo
  refine h.update_reservation hp hr p' r' hs ho (.inl ho') (fun j hj => ?_) fun credit hc => ?_
  · refine (leasesIn_perm j hperm).trans (List.Perm.trans ?_ (leasesIn_perm j (hset d')).symm)
    rw [leasesIn_append, leasesIn_append, leasesIn_other (l := d) (hi ▸ hdo) hj,
      leasesIn_other (l := d') (hi ▸ hdo') hj]
  have hcr : credit = kept := by
    have := hcred (hi ▸ ho)
    omega
  rw [hcr]
  refine hstep.perm (List.Perm.trans ?_ (leasesIn_perm i (hset d')).symm)
  rw [leasesIn_append, leasesIn_own (l := d') (hi ▸ hdo')]

theorem Inv.grant (hr : p.reserve pages = some (r, p')) :
    Inv { w with pools := w.pools.set i p', reservations := w.reservations ++ [r] } := by
  unfold DeviceKVPagePool.reserve at hr
  split at hr
  · cases hr
  next hroom =>
  obtain ⟨rfl, rfl⟩ := hr
  obtain ⟨hi, hpi⟩ := h i p hp
  simp only [availablePages, not_or, Nat.not_lt] at hroom
  have hres := hpi.reserved
  refine h.update hp { p with reservedPages := p.reservedPages + pages } rfl ?_
    (fun j _ => List.Perm.refl _) fun j hj => ?_
  · rw [creditIn_append_singleton, if_pos (by rw [hi]), hres]
    have := hpi.recredit (pages + w.creditOf i) (by omega)
    rw [Nat.add_comm]
    exact this
  · rw [creditIn_append_singleton, if_neg (by rw [hi]; simpa using hj.symm), Nat.zero_add]

end

theorem reserveEach_inv {requests : List BundleRequest} (h : Inv w)
    (hr : w.reserveEach requests = .ok w') : Inv w' := by
  induction requests generalizing w with
  | nil => exact Except.ok.inj hr ▸ h
  | cons request rest ih =>
    unfold reserveEach at hr
    split at hr
    · cases hr
    next p hp =>
    split at hr
    · cases hr
    next r p' hres =>
    obtain ⟨i, hi, hp⟩ := bind_eq_some_iff.mp hp
    rw [hi] at hr
    exact ih (h.grant hp hres) hr

theorem releaseReservation_ok (h : p.releaseReservation pages = .ok p') :
    p' = { p with reservedPages := p.reservedPages - pages } := by
  unfold DeviceKVPagePool.releaseReservation at h
  split at h
  · cases h
  · exact (Except.ok.inj h).symm

theorem clearReservation_inv (h : Inv w)
    (hr : w.reservations[k]? = some r) (hc : w.clearReservation k r = .ok w') : Inv w' := by
  unfold clearReservation at hc
  split at hc
  · exact Except.ok.inj hc ▸ h
  next i ho =>
  split at hc
  · exact Except.ok.inj hc ▸ h
  split at hc
  · exact Except.ok.inj hc ▸ h
  next p hp =>
  obtain ⟨p', hrel, hc⟩ := bind_ok hc
  cases hc
  obtain rfl := releaseReservation_ok hrel
  obtain ⟨hi, hpi⟩ := h i p hp
  have hfits := hpi.fits
  have howner : r.owner = some p.self := by rw [ho, hi]
  exact h.recredited hp hr { r with pages := 0 } howner (.inl howner) (by dsimp only; omega)

theorem releaseReservation_inv (h : Inv w)
    (hr : w.reservations[k]? = some r) (hc : w.releaseReservation k r = .ok w') : Inv w' := by
  unfold releaseReservation at hc
  split at hc
  · exact Except.ok.inj hc ▸ h
  next i ho =>
  split at hc
  · exact Except.ok.inj hc ▸ h
  next p hp =>
  obtain ⟨p', hrel, hc⟩ := bind_ok hc
  cases hc
  obtain rfl := releaseReservation_ok hrel
  obtain ⟨hi, hpi⟩ := h i p hp
  have hfits := hpi.fits
  exact h.recredited hp hr {} (by rw [ho, hi]) (.inr rfl) (by dsimp only; omega)

theorem disarm_perm (hd : w.vectors[v]? = some d) (hl : d[j]? = some l) :
    ∃ rest, w.vectors.flatten.Perm (l :: rest) ∧
      ∀ i, (leasesIn i (w.vectors.set v (d.set j {})).flatten).Perm (leasesIn i rest) := by
  obtain ⟨others, h1, h2⟩ := flatten_set_perm hd
  obtain ⟨rest, h3, h4⟩ := set_perm hl
  refine ⟨rest ++ others, h1.trans (h3.append_right _), fun i => ?_⟩
  have := leasesIn_perm i ((h2 _).trans ((h4 {}).append_right _))
  exact this

theorem leasesIn_cons_own (h : l.owner = some i)
    (rest : List DeviceKVPageLease) : leasesIn i (l :: rest) = l :: leasesIn i rest := by
  simp [leasesIn, h]

theorem leasesIn_cons_other (h : l.owner = some i)
    (hij : j ≠ i) (rest : List DeviceKVPageLease) : leasesIn j (l :: rest) = leasesIn j rest := by
  simp [leasesIn, h, hij.symm]

theorem releaseLease_inv (h : Inv w) (hd : w.vectors[v]? = some d) (hl : d[j]? = some l) :
    Inv (w.releaseLease v j d l) := by
  unfold releaseLease
  split
  · exact h
  next i ho =>
  split
  · exact h
  next p hp =>
  obtain ⟨hi, hpi⟩ := h i p hp
  obtain ⟨rest, hperm, hset⟩ := disarm_perm hd hl
  have hown : PoolInv p (l :: leasesIn i rest) (w.creditOf i) := by
    rw [← leasesIn_cons_own ho]
    exact hpi.perm (leasesIn_perm i hperm)
  obtain ⟨-, hs, -, hrel⟩ := hown.release
  refine h.update hp _ hs (hrel.perm (hset i).symm) (fun k hk => ?_) fun _ _ => rfl
  refine (leasesIn_perm k hperm).trans ?_
  rw [leasesIn_cons_other ho hk]
  exact (hset k).symm

theorem moved_inv (h : Inv w) (hm : Moved w w') : Inv w' := by
  intro i p hp
  rw [hm.pools] at hp
  obtain ⟨hi, hpi⟩ := h i p hp
  -- a live object of pool `i` is a live object
  have hl : ∀ l, leasesIn i (l.filter (·.owner.isSome)) = leasesIn i l := by
    intro l
    rw [leasesIn, List.filter_filter]
    refine filter_congr fun x _ => ?_
    cases hx : x.owner <;> simp
  have hr : ∀ l, creditIn i (l.filter (·.owner.isSome)) = creditIn i l := by
    intro l
    rw [creditIn, List.filter_filter, creditIn]
    congr 2
    refine filter_congr fun x _ => ?_
    cases hx : x.owner <;> simp
  have h1 := leasesIn_perm i hm.leases
  have h2 := creditIn_perm i hm.reservations
  rw [hl, hl] at h1
  rw [hr, hr] at h2
  refine ⟨hi, ?_⟩
  show PoolInv p _ (creditIn i w'.reservations)
  rw [h2]
  exact hpi.perm h1.symm

/-- One call keeps the invariant. -/
theorem call_inv (h : Inv w) (hc : Call w (.ok w')) : Inv w' := by
  generalize hout : Except.ok w' = out at hc
  cases hc with
  | @reserve i p hp pages =>
    cases hres : p.reserve pages with
    | none =>
      rw [hres] at hout
      exact Except.ok.inj hout ▸ h
    | some g =>
      rw [hres] at hout
      cases hout
      exact h.grant hp hres
  | @makeEmptyReservation i p hp =>
    cases hout
    intro j q hq
    obtain ⟨h1, h2⟩ := h j q hq
    refine ⟨h1, ?_⟩
    show PoolInv q _ (creditIn j _)
    rw [creditIn_append_singleton]
    have hzero : (if p.makeEmptyReservation.owner = some j then p.makeEmptyReservation.pages
        else 0) = 0 := by
      split <;> rfl
    rw [hzero, Nat.zero_add]
    exact h2
  | reserveBundle requests =>
    obtain ⟨_, _, hout⟩ := bind_ok hout.symm
    exact reserveEach_inv h hout
  | @resizeReservation i k p r hp hr newReservedPages =>
    obtain ⟨⟨r', p'⟩, hres, hout⟩ := bind_ok hout.symm
    cases hout
    unfold DeviceKVPagePool.resizeReservation at hres
    split at hres
    · next hcan =>
      obtain ⟨rfl, rfl⟩ := hres
      simp only [canResizeReservation] at hcan
      split at hcan
      · cases hcan
      next hok =>
      simp only [not_or, not_not] at hok
      have hroom := of_decide_eq_true hcan
      exact h.recredited hp hr { r with pages := newReservedPages } hok.1 (.inl hok.1) (by dsimp only; omega)
    · cases hres
  | clear hr => exact clearReservation_inv h hr hout.symm
  | release hr => exact releaseReservation_inv h hr hout.symm
  | @materialize i k v p r d hp hr hd targetPageCount capacity preferredPredecessor =>
    obtain ⟨⟨p', r', d'⟩, hmat, hout⟩ := bind_ok hout.symm
    cases hout
    exact h.update_vector hp hr hd fun _ _ hinv => materialize_inv hinv hmat
  | @materializeOne i k p r hp hr =>
    obtain ⟨⟨p', r', l⟩, hmat, hout⟩ := bind_ok hout.symm
    cases hout
    obtain ⟨hi, hpi⟩ := h i p hp
    obtain ⟨kept, hcred⟩ := creditOf_rest i hr
    obtain ⟨ho, ho', hs, hl, hstep⟩ := materializeOne_inv (fun ho => hcred (hi ▸ ho) ▸ hpi) hmat
    rw [hi] at hl
    have hflat : (w.vectors ++ [[l]]).flatten = w.vectors.flatten ++ [l] := by simp
    refine h.update_reservation hp hr p' r' hs ho (.inl ho') (fun j hj => ?_) fun credit hc => ?_
    · rw [hflat, leasesIn_append, leasesIn_other (l := [l]) (by simpa using hl) hj, append_nil]
    have hcr : credit = kept := by
      have := hcred (hi ▸ ho)
      omega
    rw [hcr, hflat, leasesIn_append, leasesIn_own (l := [l]) (by simpa using hl)]
    have hperm : ([l] ++ leasesIn i w.vectors.flatten).Perm (leasesIn i w.vectors.flatten ++ [l]) :=
      perm_append_comm
    exact hstep.perm hperm
  | @dematerialize i k v p r d hp hr hd targetPageCount =>
    obtain ⟨⟨p', r', d'⟩, hmat, hout⟩ := bind_ok hout.symm
    cases hout
    exact h.update_vector hp hr hd fun _ _ hinv => dematerialize_inv hinv hmat
  | @dematerializeOne i k v j p r d l hp hr hd hl =>
    obtain ⟨⟨p', r'⟩, hmat, hout⟩ := bind_ok hout.symm
    cases hout
    obtain ⟨hi, hpi⟩ := h i p hp
    obtain ⟨rest, hperm, hset⟩ := disarm_perm hd hl
    obtain ⟨kept, hcred⟩ := creditOf_rest i hr
    have hpool : r.owner = some p.self → l.owner = some p.self →
        PoolInv p (l :: leasesIn i rest) (r.pages + kept) := by
      intro ho hlo
      rw [← hcred (hi ▸ ho), ← leasesIn_cons_own (hi ▸ hlo)]
      exact hpi.perm (leasesIn_perm i hperm)
    obtain ⟨ho, ho', hs, hlo, hstep⟩ := dematerializeOne_inv hpool hmat
    refine h.update_reservation hp hr p' r' hs ho (.inl ho') (fun m hm => ?_) fun credit hc => ?_
    · refine (leasesIn_perm m hperm).trans ?_
      rw [leasesIn_cons_other (hi ▸ hlo) hm]
      exact (hset m).symm
    have hcr : credit = kept := by
      have := hcred (hi ▸ ho)
      omega
    rw [hcr]
    exact hstep.perm (hset i).symm
  | releaseLease hd hl =>
    cases hout
    exact releaseLease_inv h hd hl

theorem Run.inv (hr : Run w) : Inv w := by
  induction hr with
  | start h =>
    intro i p hp
    obtain ⟨n, hn⟩ := h i p hp
    exact make_inv hn
  | call _ hc ih => exact call_inv ih hc
  | throws _ _ ih => exact ih
  | moved _ hm ih => exact moved_inv ih hm

/-- In every reachable world and for each of its pools: the free runs are sorted, non-empty, disjoint and not adjacent,
    and cover exactly the unallocated pages; the live leases name distinct pages, and their number is `allocated_pages_`
    and the number of allocated pages; `reserved_pages_` is what the live reservations hold; and both fit. -/
theorem pool_run_invariant {w : World} (hr : Run w) {i : Nat} {p : DeviceKVPagePool} (hp : w.pools[i]? = some p) :
    Canonical p.freePageRuns ∧
    (∀ x, Covers p.freePageRuns x ↔ p.pageAllocated[x]? = some false) ∧
    p.allocatedPages = p.pageAllocated.count true ∧
    p.allocatedPages = (w.leasesOf i).length ∧
    ((w.leasesOf i).map (·.index)).Nodup ∧
    p.reservedPages = ((w.reservationsOf i).map (·.pages)).sum ∧
    p.allocatedPages + p.reservedPages ≤ p.capacityPages := by
  obtain ⟨-, h⟩ := hr.inv i p hp
  have hcount := length_eq_countP (l := p.pageAllocated) (p := (· == true)) h.nodup
    (by simpa using h.mem)
  refine ⟨h.canonical, h.covers, ?_, h.allocated, h.nodup, h.reserved, h.fits⟩
  rw [h.allocated, ← length_map _, hcount]
  rfl

/-- Two pages reserved and materialized, and the first lease released. -/
def sampleWorld : World :=
  { pools := [{ self := 0, capacityPages := 3, freePageRuns := [⟨0, 1⟩, ⟨2, 1⟩]
                pageGenerations := [2, 1, 1], pageAllocated := [false, true, false]
                allocatedPages := 1, reservedPages := 0 }]
    reservations := [⟨some 0, 0⟩]
    vectors := [[{}, ⟨some 0, 1, 1⟩]] }

/-- A fresh pool of three pages. -/
def samplePool : DeviceKVPagePool :=
  { self := 0, capacityPages := 3, freePageRuns := [⟨0, 3⟩], pageGenerations := [1, 1, 1]
    pageAllocated := [false, false, false] }

theorem sampleWorld_run : Run sampleWorld := by
  have h0 : Run { pools := [samplePool] } := by
    refine Run.start fun i p hp => ⟨3, ?_⟩
    have hi : i = 0 := by simpa using (lt_of_getElem? hp)
    subst hi
    cases hp
    rfl
  have h1 : Run { pools := [{ samplePool with reservedPages := 2 }]
                  reservations := [⟨some 0, 2⟩] } :=
    h0.call (Call.reserve (i := 0) (p := samplePool) rfl 2)
  have h2 : Run { pools := [{ samplePool with reservedPages := 2 }]
                  reservations := [⟨some 0, 2⟩], vectors := [[]] } :=
    h1.moved ⟨rfl, List.Perm.refl _, List.Perm.refl _⟩
  have h3 : Run { pools := [{ samplePool with
                    freePageRuns := [⟨2, 1⟩], pageAllocated := [true, true, false]
                    allocatedPages := 2 }]
                  reservations := [⟨some 0, 0⟩]
                  vectors := [[⟨some 0, 0, 1⟩, ⟨some 0, 1, 1⟩]] } :=
    h2.call (Call.materialize (i := 0) (k := 0) (v := 0)
      (p := { samplePool with reservedPages := 2 }) (r := ⟨some 0, 2⟩) (d := []) rfl rfl rfl
      2 2 none)
  exact h3.call (Call.releaseLease (v := 0) (j := 0) (d := [⟨some 0, 0, 1⟩, ⟨some 0, 1, 1⟩])
    (l := ⟨some 0, 0, 1⟩) rfl rfl)

theorem pool_run_invariant_sample :
    Run sampleWorld ∧ (sampleWorld.leasesOf 0).length = 1 ∧
      ∀ p, sampleWorld.pools[0]? = some p → Canonical p.freePageRuns ∧
        p.allocatedPages = (sampleWorld.leasesOf 0).length :=
  ⟨sampleWorld_run, by decide, fun _ hp =>
    have h := pool_run_invariant sampleWorld_run hp
    ⟨h.1, h.2.2.2.1⟩⟩

end World
end VoidInfer.DeviceKV
