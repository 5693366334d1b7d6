import VoidInfer.Base
import Mathlib.Logic.Relation

/-
  `Exl3VeriCacheQueue` (`src/exl3/vericache_queue.h`): requests that take turns on one physical lane. The cursor goes
  round the slots and hands a lease to the next ready one.

  `Before c r q` says that a cursor at `c` comes to `r` before it comes to `q`. It holds right after a lease for `q`,
  adding a slot does not touch it, and the search only moves the cursor over slots that are not ready, so that it lasts
  until `r` has its turn: `queue_run`. A slot that is cancelled or completed is left alone from then on.
-/

namespace VoidInfer.Exl3.VeriCacheQueue
open List Option

/-- What `is_child_of` reads of an `Exl3VeriCacheRequest`: its revision and its parent's, as
    the numbers of the objects, 0 for none. -/
structure Request where
  revision : Nat
  parentRevision : Nat := 0

/-- `is_child_of`. -/
def Request.isChildOf (request root : Request) : Bool := request.parentRevision = root.revision

inductive Status where
  | ready | cancelled | completed
deriving DecidableEq

/-- `Lease`; a shared pointer is the number of its immutable object, 0 when null. -/
structure Lease where
  request : Nat
  generation : Nat
  root : Nat
deriving DecidableEq

structure Slot where
  state : Nat
  generation : Nat := 0
  status : Status := .ready
deriving DecidableEq

/-- `++generation`. -/
def Slot.bumped (slot : Slot) : Nat := (slot.generation + 1) % 2 ^ 64

structure Queue where
  capacity : Nat
  cursor : Nat := 0
  slots : List Slot := []
  busy : Option Lease := none
deriving DecidableEq

namespace Queue

def create (capacity : Nat) : Except Exn Queue := do
  throwIf (capacity < 1 ∨ 64 < capacity) (.invalidArgument "request queue capacity1..64")
  return { capacity }

/-- `check_lease`. -/
def checkLease (q : Queue) (lease : Lease) : Except Exn Unit :=
  throwIf (q.busy ≠ some lease) (.invalidArgument "foreign or expired execution lease")

def add (q : Queue) (state : Nat) : Except Exn (Nat × Queue) := do
  throwIf (state = 0 ∨ q.slots.length = q.capacity) (.invalidArgument "request admission capacity")
  return (q.slots.length, { q with slots := q.slots ++ [{ state }] })

/-- The loop of `acquire`, with so many slots left to look at. -/
def search : Nat → Queue → Option Lease × Queue
  | 0, q => (none, q)
  | n + 1, q =>
    let next := { q with cursor := (q.cursor + 1) % q.slots.length }
    match q.slots[q.cursor]? with
    | none => search n next
    | some slot =>
      if slot.status = .ready then
        let lease := ⟨q.cursor, slot.generation, slot.state⟩
        (some lease, { next with busy := some lease })
      else search n next

def acquire (q : Queue) : Except Exn (Option Lease × Queue) := do
  throwIf (q.busy ≠ none) (.logicError "physical execution lane is already owned")
  return search q.slots.length q

def cancel (q : Queue) (id : Nat) : Except Exn Queue :=
  match q.slots[id]? with
  | none => .error (.outOfRange "vector::at")
  | some slot =>
    .ok (if slot.status = .ready then
      { q with slots := q.slots.set id { slot with status := .cancelled, generation := slot.bumped } }
    else q)

/-- `publish`; the leased slot is always there. -/
def publish (heap : Nat → Request) (q : Queue) (lease : Lease) (updated : Nat) (finished : Bool) :
    Except Exn (Bool × Queue) := do
  q.checkLease lease
  let free := { q with busy := none }
  match q.slots[lease.request]? with
  | none => return (false, free)
  | some slot =>
    if slot.status ≠ .ready ∨ slot.generation ≠ lease.generation then return (false, free)
    else
      throwIf (slot.state ≠ lease.root ∨ updated = 0 ∨ (heap updated).isChildOf (heap lease.root) = false)
        (.invalidArgument "request result has a different authoritative parent")
      let status := if finished then .completed else slot.status
      return (true, { free with slots := q.slots.set lease.request ⟨updated, slot.bumped, status⟩ })

def release (q : Queue) (lease : Lease) : Except Exn Queue := do
  q.checkLease lease
  return { q with busy := none }

end Queue

/-! ## Runs -/

inductive Call where
  | add (state : Nat)
  | acquire
  | cancel (id : Nat)
  | publish (lease : Lease) (updated : Nat) (finished : Bool)
  | release (lease : Lease)
deriving DecidableEq

/-- The queue and the leases that were handed out and not yet given back. -/
structure World where
  queue : Queue
  outstanding : List Lease := []
deriving DecidableEq

/-- The lease that an `acquire` hands out. -/
def World.leased (w : World) : Option Lease :=
  match w.queue.acquire with
  | .ok (lease, _) => lease
  | .error _ => none

/-- One call; one that throws changes nothing. -/
def World.step (heap : Nat → Request) (w : World) : Call → World
  | .add state =>
    match w.queue.add state with
    | .ok (_, queue) => { w with queue }
    | .error _ => w
  | .acquire =>
    match w.queue.acquire with
    | .ok (lease, queue) => { queue, outstanding := lease.toList ++ w.outstanding }
    | .error _ => w
  | .cancel id =>
    match w.queue.cancel id with
    | .ok queue => { w with queue }
    | .error _ => w
  | .publish lease updated finished =>
    match w.queue.publish heap lease updated finished with
    | .ok (_, queue) => { queue, outstanding := w.outstanding.erase lease }
    | .error _ => w
  | .release lease =>
    match w.queue.release lease with
    | .ok queue => { queue, outstanding := w.outstanding.erase lease }
    | .error _ => w

def World.run (heap : Nat → Request) (w : World) (calls : List Call) : World :=
  calls.foldl (World.step heap) w

/-- The request is there and neither cancelled nor completed. -/
def World.Ready (w : World) (id : Nat) : Prop := ∃ s, w.queue.slots[id]? = some s ∧ s.status = .ready

variable {heap : Nat → Request} {q q' : Queue} {w : World} {c : Call} {calls : List Call}
  {lease : Lease} {id r n : Nat} {s : Slot}

/-! ## What a call does to a slot -/

/-- The lane's owner publishes a child of the slot's state, while the slot is ready at the lease's generation. -/
structure Accepted (heap : Nat → Request) (q : Queue) (id : Nat) (s : Slot) (lease : Lease) (updated : Nat) : Prop where
  owner : q.busy = some lease
  request : lease.request = id
  ready : s.status = .ready
  generation : s.generation = lease.generation
  root : s.state = lease.root
  some : updated ≠ 0
  child : (heap updated).isChildOf (heap s.state) = true

/-- What an accepted publication makes of the slot. -/
def Slot.published (s : Slot) (updated : Nat) (finished : Bool) : Slot :=
  ⟨updated, s.bumped, if finished then .completed else s.status⟩

/-- What a call does to a slot: it cancels it where it is ready, or publishes in it, and nothing else changes it. -/
inductive Moves (heap : Nat → Request) (q : Queue) (id : Nat) (s : Slot) : Call → Slot → Prop where
  | same {c : Call} (hcancel : c = .cancel id → s.status ≠ .ready)
    (hpublish : ∀ lease updated finished, c = .publish lease updated finished → ¬ Accepted heap q id s lease updated) :
    Moves heap q id s c s
  | cancelled (hready : s.status = .ready) :
    Moves heap q id s (.cancel id) { s with status := .cancelled, generation := s.bumped }
  | published {lease : Lease} {updated : Nat} (finished : Bool) (h : Accepted heap q id s lease updated) :
    Moves heap q id s (.publish lease updated finished) (s.published updated finished)

theorem search_spec (hc : q.cursor < q.slots.length) :
    (Queue.search n q).2.slots = q.slots ∧ (Queue.search n q).2.cursor < q.slots.length ∧
      (Queue.search n q).2.busy = (Queue.search n q).1.or q.busy ∧
      ∀ l, (Queue.search n q).1 = some l →
        l.request < q.slots.length ∧ (Queue.search n q).2.cursor = (l.request + 1) % q.slots.length := by
  induction n generalizing q with
  | zero => exact ⟨rfl, hc, by simp [Queue.search], by simp [Queue.search]⟩
  | succ n ih =>
    have hnext : (q.cursor + 1) % q.slots.length < q.slots.length :=
      Nat.mod_lt _ (Nat.zero_lt_of_lt hc)
    rw [Queue.search, getElem?_eq_getElem hc]
    dsimp only
    split
    · refine ⟨rfl, hnext, rfl, ?_⟩
      rintro l hl
      cases hl
      exact ⟨hc, rfl⟩
    · exact ih hnext

theorem acquire_spec {l : Option Lease} (hc : q.cursor ≤ q.slots.length - 1) (h : q.acquire = .ok (l, q')) :
    q.busy = none ∧ q'.busy = l ∧ q'.slots = q.slots ∧ q'.cursor ≤ q.slots.length - 1 := by
  obtain ⟨hbusy, h⟩ := check_ok h
  have hfree : q.busy = none := Classical.not_not.mp hbusy
  have hsearch : Queue.search q.slots.length q = (l, q') := Except.ok.inj h
  rcases Nat.eq_zero_or_pos q.slots.length with h0 | hpos
  · rw [h0, Queue.search] at hsearch
    cases hsearch
    exact ⟨hfree, hfree, rfl, hc⟩
  obtain ⟨hslots, hcursor, hb, -⟩ := search_spec (q := q) (n := q.slots.length) (by omega)
  rw [hsearch] at hslots hcursor hb
  rw [hfree, Option.or_none] at hb
  exact ⟨hfree, hb, hslots, by dsimp only at hcursor; omega⟩

theorem checkLease_ok {u : Unit} (h : q.checkLease lease = .ok u) : q.busy = some lease :=
  Classical.not_not.mp (throwIf_ok.mp h)

/-- The cursor points into the slots, and the lane's owner is what is outstanding. -/
structure Inv (w : World) : Prop where
  cursor : w.queue.cursor ≤ w.queue.slots.length - 1
  outstanding : w.outstanding = w.queue.busy.toList

theorem publish_accepted {updated : Nat} (finished : Bool) (hs : q.slots[id]? = some s)
    (h : Accepted heap q id s lease updated) :
    q.publish heap lease updated finished =
      .ok (true, { q with busy := none, slots := q.slots.set id (s.published updated finished) }) := by
  obtain ⟨howner, rfl, hready, hgeneration, hroot, hsome, hchild⟩ := h
  have hlease : q.checkLease lease = .ok () := throwIf_ok.mpr (not_not_intro howner)
  have hparent : ¬ (s.state ≠ lease.root ∨ updated = 0 ∨ (heap updated).isChildOf (heap lease.root) = false) := by
    rintro (hnot | hnull | hstranger)
    · exact hnot hroot
    · exact hsome hnull
    · rw [← hroot, hchild] at hstranger
      cases hstranger
  unfold Queue.publish
  simp only [hlease, hs]
  rw [show (bind (Except.ok ()) _ : Except Exn (Bool × Queue)) = _ from rfl]
  rw [if_neg (not_or.mpr ⟨not_not_intro hready, not_not_intro hgeneration⟩), throwIf_neg hparent]
  rfl

theorem publish_spec {updated : Nat} {finished ok : Bool} (h : q.publish heap lease updated finished = .ok (ok, q')) :
    q.busy = some lease ∧ q'.busy = none ∧ q'.cursor = q.cursor ∧ q'.slots.length = q.slots.length ∧
      ∀ id s, q.slots[id]? = some s → ∃ s', q'.slots[id]? = some s' ∧
        Moves heap q id s (.publish lease updated finished) s' := by
  obtain ⟨_, hcheck, hrest⟩ := bind_ok h
  have howner := checkLease_ok hcheck
  -- where nothing is published, nothing was acceptable
  have hsame : q'.slots = q.slots → ∀ id s, q.slots[id]? = some s → ∃ s', q'.slots[id]? = some s' ∧
      Moves heap q id s (.publish lease updated finished) s' := by
    intro hslots id s hs
    by_cases haccepted : Accepted heap q id s lease updated
    · rw [publish_accepted finished hs haccepted] at h
      cases h
      exact ⟨_, getElem?_set_self (lt_of_getElem? hs), .published finished haccepted⟩
    · refine ⟨s, hslots ▸ hs, .same nofun fun _ _ _ hc => ?_⟩
      cases hc
      exact haccepted
  cases hslot : q.slots[lease.request]? with
  | none =>
    rw [hslot] at hrest
    cases hrest
    exact ⟨howner, rfl, rfl, rfl, hsame rfl⟩
  | some slot =>
    rw [hslot] at hrest
    dsimp only at hrest
    split at hrest
    · cases hrest
      exact ⟨howner, rfl, rfl, rfl, hsame rfl⟩
    next hopen =>
    obtain ⟨hready, hgeneration⟩ := not_or.mp hopen
    obtain ⟨hparent, hrest⟩ := check_ok hrest
    obtain ⟨hroot, hnull, hchild⟩ := by simpa only [not_or, Classical.not_not] using hparent
    cases hrest
    have haccepted : Accepted heap q lease.request slot lease updated :=
      ⟨howner, rfl, Classical.not_not.mp hready, Classical.not_not.mp hgeneration, hroot, hnull,
        by rw [hroot]; simpa using hchild⟩
    refine ⟨howner, rfl, rfl, length_set, fun id s hs => ?_⟩
    by_cases hid : lease.request = id
    · subst hid
      obtain rfl := mem_unique hslot hs
      exact ⟨_, getElem?_set_self (lt_of_getElem? hs), .published finished haccepted⟩
    · refine ⟨s, by rw [← hs]; exact getElem?_set_ne hid, .same nofun fun _ _ _ hc h => hid ?_⟩
      cases hc
      exact h.request

/-- What one call leaves of a world. -/
structure Stepped (heap : Nat → Request) (w : World) (c : Call) (w' : World) : Prop where
  inv : Inv w'
  slots : ∀ id s, w.queue.slots[id]? = some s →
    ∃ s', w'.queue.slots[id]? = some s' ∧ Moves heap w.queue id s c s'
  cursor : c ≠ .acquire → w'.queue.cursor = w.queue.cursor

theorem step_spec (heap : Nat → Request) (c : Call) (hi : Inv w) : Stepped heap w c (w.step heap c) := by
  have hsame : (∀ id s, w.queue.slots[id]? = some s → Moves heap w.queue id s c s) → Stepped heap w c w :=
    fun hmoves => ⟨hi, fun id s h => ⟨s, h, hmoves id s h⟩, fun _ => rfl⟩
  cases c with
  | add state =>
    cases h : w.queue.add state with
    | error e => simpa only [World.step, h] using hsame fun _ _ _ => .same nofun nofun
    | ok result =>
      obtain ⟨_, -, hadd⟩ := bind_ok h
      obtain rfl := (Except.ok.inj hadd).symm
      simp only [World.step, h]
      refine ⟨⟨?_, hi.outstanding⟩, fun id s hs => ⟨s, ?_, .same nofun nofun⟩, fun _ => rfl⟩
      · have := hi.cursor
        simp only [length_append, length_singleton]
        omega
      · rw [getElem?_append_left (lt_of_getElem? hs), hs]
  | acquire =>
    cases h : w.queue.acquire with
    | error e => simpa only [World.step, h] using hsame fun _ _ _ => .same nofun nofun
    | ok result =>
      obtain ⟨hfree, hbusy, hslots, hcursor⟩ := acquire_spec hi.cursor h
      simp only [World.step, h]
      refine ⟨⟨?_, ?_⟩, fun id s hs => ⟨s, hslots ▸ hs, .same nofun nofun⟩, fun hc => absurd rfl hc⟩
      · simpa only [hslots] using hcursor
      · simp only [hbusy, hi.outstanding, hfree, toList_none, append_nil]
  | cancel i =>
    have hother : ∀ id s, id ≠ i → Moves heap w.queue id s (.cancel i) s :=
      fun id s hne => .same (fun hc => absurd (Call.cancel.inj hc).symm hne) nofun
    cases h : w.queue.slots[i]? with
    | none =>
      simp only [World.step, Queue.cancel, h]
      refine hsame fun id s hs => hother id s fun he => ?_
      subst he
      cases h.symm.trans hs
    | some slot =>
      simp only [World.step, Queue.cancel, h]
      split
      · next hready =>
        refine ⟨⟨by simpa using hi.cursor, hi.outstanding⟩, fun id s hs => ?_, fun _ => rfl⟩
        by_cases he : i = id
        · subst he
          obtain rfl := mem_unique h hs
          exact ⟨_, getElem?_set_self (lt_of_getElem? hs), .cancelled hready⟩
        · exact ⟨s, by rw [← hs]; exact getElem?_set_ne he, hother id s fun h => he h.symm⟩
      · next hnot =>
        refine hsame fun id s hs => ?_
        by_cases he : i = id
        · subst he
          obtain rfl := mem_unique h hs
          exact .same (fun _ => hnot) nofun
        · exact hother id s fun h => he h.symm
  | publish lease updated finished =>
    cases h : w.queue.publish heap lease updated finished with
    | error e =>
      simp only [World.step, h]
      refine hsame fun id s hs => .same nofun fun _ _ _ hc haccepted => ?_
      cases hc
      cases (publish_accepted finished hs haccepted).symm.trans h
    | ok result =>
      obtain ⟨hown, hfree, hcursor, hlength, hslots⟩ := publish_spec h
      simp only [World.step, h]
      refine ⟨⟨?_, ?_⟩, hslots, fun _ => hcursor⟩
      · rw [hcursor, hlength]
        exact hi.cursor
      · rw [hi.outstanding, hown, hfree]
        simp
  | release lease =>
    cases h : w.queue.release lease with
    | error e => simpa only [World.step, h] using hsame fun _ _ _ => .same nofun nofun
    | ok result =>
      obtain ⟨_, hcheck, hrelease⟩ := bind_ok h
      obtain rfl := (Except.ok.inj hrelease).symm
      simp only [World.step, h]
      refine ⟨⟨hi.cursor, ?_⟩, fun id s hs => ⟨s, hs, .same nofun nofun⟩, fun _ => rfl⟩
      rw [hi.outstanding, checkLease_ok hcheck]
      simp

/-! ## Runs -/

theorem Inv.run (hi : Inv w) : Inv (w.run heap calls) := by
  induction calls generalizing w with
  | nil => exact hi
  | cons c rest ih => exact ih (step_spec heap c hi).inv

/-- The second state comes from the first by publications, each of a child. -/
def Descends (heap : Nat → Request) : Nat → Nat → Prop :=
  Relation.ReflTransGen fun old new => (heap new).isChildOf (heap old) = true

theorem slot_run (heap : Nat → Request) (calls : List Call) (hi : Inv w) (h : w.queue.slots[id]? = some s) :
    ∃ s', (w.run heap calls).queue.slots[id]? = some s' ∧ Descends heap s.state s'.state ∧
      (s.status ≠ .ready → s' = s) := by
  induction calls generalizing w s with
  | nil => exact ⟨s, h, .refl, fun _ => rfl⟩
  | cons c rest ih =>
    have hstep := step_spec heap c hi
    obtain ⟨s₁, h₁, hmove⟩ := hstep.slots id s h
    obtain ⟨s₂, h₂, hdescends, hstay⟩ := ih hstep.inv h₁
    refine ⟨s₂, h₂, ?_, fun hnot => ?_⟩
    · cases hmove with
      | same => exact hdescends
      | cancelled => exact hdescends
      | published finished haccepted => exact .head haccepted.child hdescends
    · cases hmove with
      | same => exact hstay hnot
      | cancelled hready => exact absurd hready hnot
      | published finished haccepted => exact absurd haccepted.ready hnot

theorem cancel_run (heap : Nat → Request) (calls : List Call) (hi : Inv w) (h : w.queue.slots[id]? = some s) :
    ∃ s', s'.state = s.state ∧ s'.status ≠ .ready ∧
      ((w.step heap (.cancel id)).run heap calls).queue.slots[id]? = some s' := by
  have hstep := step_spec heap (.cancel id) hi
  obtain ⟨s₁, h₁, hmove⟩ := hstep.slots id s h
  obtain ⟨s₂, h₂, -, hstay⟩ := slot_run heap calls hstep.inv h₁
  cases hmove with
  | same hcancel _ =>
    have hnot := hcancel rfl
    exact ⟨s, rfl, hnot, hstay hnot ▸ h₂⟩
  | cancelled hready =>
    have hnot : Status.cancelled ≠ .ready := by decide
    obtain rfl := hstay hnot
    exact ⟨{ s with status := .cancelled, generation := s.bumped }, rfl, hnot, h₂⟩

theorem complete_run {updated : Nat} (calls : List Call) (hi : Inv w) (h : w.queue.slots[id]? = some s)
    (haccepted : Accepted heap w.queue id s lease updated) :
    ((w.step heap (.publish lease updated true)).run heap calls).queue.slots[id]? =
      some (s.published updated true) := by
  have hstep := step_spec heap (.publish lease updated true) hi
  obtain ⟨s₁, h₁, hmove⟩ := hstep.slots id s h
  obtain ⟨s₂, h₂, -, hstay⟩ := slot_run heap calls hstep.inv h₁
  cases hmove with
  | same _ hpublish => exact absurd haccepted (hpublish _ _ _ rfl)
  | published _ _ =>
    have hnot : (s.published updated true).status ≠ .ready := by simp [Slot.published]
    exact hstay hnot ▸ h₂

/-! ## Taking turns -/

/-- Going round from `c`, the cursor comes to `r` before it comes to `x`. -/
def Before (c r x : Nat) : Prop := c ≤ r ∧ r < x ∨ c ≤ r ∧ x < c ∨ r < x ∧ x < c

theorem Before.next {c x : Nat} (h : Before c r x) (hr : r < n) (hc : c < n) (hcr : c ≠ r) :
    Before ((c + 1) % n) r x := by
  unfold Before at h ⊢
  rcases Nat.lt_or_ge _ n with hlt | hge
  · rw [Nat.mod_eq_of_lt hlt]
    omega
  rw [show c + 1 = n by omega, Nat.mod_self]
  omega

theorem before_next {x : Nat} (hr : r < n) (hx : x < n) (hne : r ≠ x) : Before ((x + 1) % n) r x := by
  unfold Before
  rcases Nat.lt_or_ge _ n with hlt | hge
  · rw [Nat.mod_eq_of_lt hlt]
    omega
  rw [show x + 1 = n by omega, Nat.mod_self]
  omega

theorem Before.ne {c x : Nat} (h : Before c r x) : c ≠ x := by
  unfold Before at h
  omega

theorem search_before {x : Nat} (hr : q.slots[r]? = some s) (hready : s.status = .ready)
    (hc : q.cursor < q.slots.length) (h : Before q.cursor r x) :
    (∃ l, (Queue.search n q).1 = some l ∧ l.request = r) ∨
      (∀ l, (Queue.search n q).1 = some l → l.request ≠ x) ∧ Before (Queue.search n q).2.cursor r x := by
  have hrlt : r < q.slots.length := lt_of_getElem? hr
  induction n generalizing q with
  | zero => exact .inr ⟨by simp [Queue.search], h⟩
  | succ n ih =>
    have hnext : (q.cursor + 1) % q.slots.length < q.slots.length := Nat.mod_lt _ (Nat.zero_lt_of_lt hc)
    rw [Queue.search, getElem?_eq_getElem hc]
    dsimp only
    by_cases hcr : q.cursor = r
    · have hslot : q.slots[q.cursor] = s := by
        subst hcr
        exact mem_unique (getElem?_eq_getElem hc) hr
      rw [hslot, if_pos hready]
      exact .inl ⟨_, rfl, hcr⟩
    have hbefore := h.next hrlt hc hcr
    split
    · refine .inr ⟨?_, hbefore⟩
      rintro l hl
      cases hl
      exact h.ne
    · exact ih hr hnext hbefore hrlt

theorem World.Ready.lt (h : w.Ready r) : r < w.queue.slots.length := by
  obtain ⟨s, hs, -⟩ := h
  exact lt_of_getElem? hs

theorem ready_of_run (hi : Inv w) (hr : r < w.queue.slots.length) (h : (w.run heap calls).Ready r) : w.Ready r := by
  obtain ⟨s', hs', hready⟩ := h
  have hs := getElem?_eq_getElem hr
  obtain ⟨t, ht, -, hkeep⟩ := slot_run heap calls hi hs
  obtain rfl := mem_unique ht hs'
  by_cases h : w.queue.slots[r].status = .ready
  · exact ⟨_, hs, h⟩
  · exact absurd (hkeep h ▸ hready) h

theorem leased_spec {l : Lease} (heap : Nat → Request) (hi : Inv w) (h : w.leased = some l) :
    (w.step heap .acquire).queue.cursor = (l.request + 1) % w.queue.slots.length ∧
      l.request < w.queue.slots.length := by
  unfold World.leased at h
  cases hacq : w.queue.acquire with
  | error e => rw [hacq] at h; cases h
  | ok result =>
    rw [hacq] at h
    simp only [World.step, hacq]
    obtain ⟨_, -, hsearch⟩ := bind_ok hacq
    cases hsearch
    rcases Nat.eq_zero_or_pos w.queue.slots.length with h0 | hpos
    · rw [h0] at h
      cases h
    have hcursor := hi.cursor
    obtain ⟨-, -, -, hl⟩ := search_spec (q := w.queue) (n := w.queue.slots.length) (by omega)
    exact ⟨(hl l h).2, (hl l h).1⟩

theorem step_before {x : Nat} (heap : Nat → Request) (c : Call) (hi : Inv w) (hr : w.Ready r) (h : Before w.queue.cursor r x) :
    (c = .acquire ∧ ∃ l, w.leased = some l ∧ l.request = r) ∨
      (c = .acquire → ∀ l, w.leased = some l → l.request ≠ x) ∧ Before (w.step heap c).queue.cursor r x := by
  by_cases hc : c = .acquire
  · subst hc
    cases hacq : w.queue.acquire with
    | error e =>
      simp only [World.step, World.leased, hacq]
      exact .inr ⟨by simp, h⟩
    | ok result =>
      obtain ⟨_, -, hsearch⟩ := bind_ok hacq
      cases hsearch
      have hlt := hr.lt
      obtain ⟨s, hs, hready⟩ := hr
      have hcursor := hi.cursor
      have hturn := search_before (n := w.queue.slots.length) hs hready (by omega) h
      simp only [World.step, World.leased, hacq]
      rcases hturn with hfound | ⟨hne, hbefore⟩
      · exact .inl ⟨trivial, hfound⟩
      · exact .inr ⟨fun _ => hne, hbefore⟩
  · exact .inr ⟨fun he => absurd he hc, (step_spec heap c hi).cursor hc ▸ h⟩

theorem run_before {x : Nat} (hi : Inv w) (hr : r < w.queue.slots.length)
    (h : Before w.queue.cursor r x) (hend : (w.run heap calls).Ready r) :
    (∃ before after l, calls = before ++ .acquire :: after ∧ (w.run heap before).leased = some l ∧
      l.request = r) ∨ Before (w.run heap calls).queue.cursor r x := by
  induction calls generalizing w with
  | nil => exact .inr h
  | cons c rest ih =>
    have hstep := step_spec heap c hi
    have hready := ready_of_run hi hr hend
    rcases step_before heap c hi hready h with ⟨rfl, l, hl, hlr⟩ | ⟨-, hbefore⟩
    · exact .inl ⟨[], rest, l, rfl, hl, hlr⟩
    obtain ⟨s, hs, -⟩ := hready
    obtain ⟨s', hs', -⟩ := hstep.slots r s hs
    rcases ih hstep.inv (lt_of_getElem? hs') hbefore hend with
      ⟨before, after, l, rfl, hl, hlr⟩ | hbefore
    · exact .inl ⟨c :: before, after, l, rfl, hl, hlr⟩
    · exact .inr hbefore

/-- Every run of a queue: at most one lease is outstanding; slots only move as `Moves` says, so that states only give
    way to their children; nothing is published in a slot once it is cancelled or completed; and between two leases of
    one request every other request that is ready at both has one. -/
theorem queue_run (capacity : Nat) (heap : Nat → Request) (hq : Queue.create capacity = .ok q)
    (calls : List Call) : let w := World.run heap ⟨q, []⟩ calls
    w.outstanding.length ≤ 1 ∧
    (∀ c id s, w.queue.slots[id]? = some s →
      ∃ s', (w.step heap c).queue.slots[id]? = some s' ∧ Moves heap w.queue id s c s') ∧
    (∀ more (id : Nat) s, w.queue.slots[id]? = some s → ∃ s', (w.run heap more).queue.slots[id]? = some s' ∧
      Descends heap s.state s'.state ∧ (s.status ≠ .ready → s' = s)) ∧
    (∀ more (id : Nat) s, w.queue.slots[id]? = some s →
      (∃ s', s'.state = s.state ∧ s'.status ≠ .ready ∧
        ((w.step heap (.cancel id)).run heap more).queue.slots[id]? = some s') ∧
      ∀ lease updated, Accepted heap w.queue id s lease updated →
        ((w.step heap (.publish lease updated true)).run heap more).queue.slots[id]? =
          some (s.published updated true)) ∧
    ∀ between first second r, w.leased = some first →
      ((w.step heap .acquire).run heap between).leased = some second →
      second.request = first.request → r ≠ first.request → w.Ready r →
      ((w.step heap .acquire).run heap between).Ready r →
      ∃ before after l, between = before ++ .acquire :: after ∧
        ((w.step heap .acquire).run heap before).leased = some l ∧ l.request = r := by
  intro w
  obtain ⟨_, -, hq⟩ := bind_ok hq
  cases hq
  have hi : Inv w := Inv.run ⟨Nat.le_refl 0, rfl⟩
  refine ⟨?_, fun c => (step_spec heap c hi).slots, fun more id s h => slot_run heap more hi h,
    fun more id s h => ⟨cancel_run heap more hi h, fun _ _ haccepted => complete_run more hi h haccepted⟩, ?_⟩
  · rw [hi.outstanding]
    cases w.queue.busy <;> simp
  · intro between first second r hfirst hsecond hsame hne hready hready'
    have hi' := (step_spec heap .acquire hi).inv
    obtain ⟨hcursor, hlt⟩ := leased_spec heap hi hfirst
    have hbefore : Before (w.step heap .acquire).queue.cursor r first.request :=
      hcursor ▸ before_next hready.lt hlt hne
    obtain ⟨s, hs, -⟩ := hready
    obtain ⟨s', hs', -⟩ := (step_spec heap .acquire hi).slots r s hs
    rcases run_before hi' (lt_of_getElem? hs') hbefore hready' with hfound | hlast
    · exact hfound
    rcases step_before heap .acquire hi'.run hready' hlast with ⟨-, l, hl, hlr⟩ | ⟨hnot, -⟩
    · obtain rfl := mem_unique hsecond hl
      exact absurd (hlr.symm.trans hsame) hne
    · exact absurd hsame (hnot rfl second hsecond)

/-- Two requests, the first leased. One is published between its leases and the other has its turn; or the first is
    cancelled, and the publication of its worker changes nothing; or it is published and completed. -/
theorem queue_run_two : let heap := fun n => (⟨n, n - 1⟩ : Request)
    let w := World.run heap ⟨{ capacity := 2 }, []⟩ [.add 1, .add 10]
    let leased := w.step heap .acquire
    let publish := fun finished => Call.publish ⟨0, 0, 1⟩ 2 finished
    (∃ before after l, [publish false, .acquire, .release ⟨1, 0, 10⟩] = before ++ .acquire :: after ∧
      (leased.run heap before).leased = some l ∧ l.request = 1) ∧
    (∃ s', s'.state = 1 ∧ s'.status ≠ .ready ∧
      ((leased.step heap (.cancel 0)).run heap [publish false, .acquire]).queue.slots[0]? = some s') ∧
    ((leased.step heap (publish true)).run heap [.acquire, .cancel 0]).queue.slots[0]? = some ⟨2, 1, .completed⟩ := by
  have hfair := (queue_run (q := { capacity := 2 }) 2 (fun n => (⟨n, n - 1⟩ : Request)) rfl
    [.add 1, .add 10]).2.2.2.2
  have hends := (queue_run (q := { capacity := 2 }) 2 (fun n => (⟨n, n - 1⟩ : Request)) rfl
    [.add 1, .add 10, .acquire]).2.2.2.1
  refine ⟨?_, ?_, ?_⟩
  · exact hfair _ ⟨0, 0, 1⟩ ⟨0, 1, 2⟩ 1 (by decide) (by decide) rfl (by decide) ⟨_, rfl, rfl⟩ ⟨_, rfl, rfl⟩
  · exact (hends [.publish ⟨0, 0, 1⟩ 2 false, .acquire] 0 ⟨1, 0, .ready⟩ rfl).1
  · exact (hends [.acquire, .cancel 0] 0 ⟨1, 0, .ready⟩ rfl).2 ⟨0, 0, 1⟩ 2 ⟨rfl, rfl, rfl, rfl, rfl, by decide, rfl⟩

end VoidInfer.Exl3.VeriCacheQueue
