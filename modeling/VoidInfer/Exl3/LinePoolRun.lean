import Mathlib.Tactic.Common
import VoidInfer.Exl3.LinePool

/-
  The shared line as a private line of each lane. `Private` is a lane with a line of its own: a root, and the state
  after its last pass. `line_is_private`: in every order of leases of any number of lanes, a lease of the shared line
  succeeds and shows what the private one would; the lane's root slot holds the private root, whoever had the line in
  between; and another lane's slots change only when its unsaved pass is parked.
-/

namespace VoidInfer.Exl3.LinePool
open Option Function

open Throwing

variable {S : Type}

/-! ## A line of one's own -/

/-- Where a lane is between its leases. -/
inductive Phase
  | idle | rooted | passed | ended

/-- A lane with a line of its own: the state last saved or accepted as its root, and the state after
    its last pass with the number of that forward. -/
structure Private (S : Type) where
  phase : Phase := .idle
  root : Option S := none
  pass : Option (S × Nat) := none

namespace Private

/-- The lane has a root. -/
def Bound (p : Private S) : Prop := p.phase = .rooted ∨ p.phase = .passed

/-- The leases a round takes next. -/
def Allows (p : Private S) : Use S → Prop
  | .begin _ => p.phase = .idle
  | .pass _ => p.phase = .rooted
  | .rescore | .rewind | .accept | .drop => p.phase = .passed
  | .commitPart corrected _ => p.phase = if corrected = true then .rooted else .passed
  | .finish _ => p.Bound
  | .release => True

/-- The lane after a lease; `n` numbers the next forward. -/
def step (p : Private S) (n : Nat) : Use S → Private S
  | .begin s => ⟨.rooted, some s, none⟩
  | .pass f => ⟨.passed, p.root, p.root.map fun s => (f s, n)⟩
  | .rescore => p
  | .rewind => ⟨.rooted, p.root, none⟩
  | .accept => ⟨.rooted, p.pass.map Prod.fst, none⟩
  | .commitPart _ f => ⟨.rooted, p.root.map (f.getD id), none⟩
  | .drop => ⟨.rooted, p.root, none⟩
  | .finish _ => ⟨.ended, p.root, none⟩
  | .release => ⟨.idle, p.root, none⟩

end Private

/-- The pool, and the lanes as if each had a line of its own. -/
structure World (S : Type) where
  pool : Pool S
  lanes : Nat → Private S

/-- After a lease of a lane that left the pool as `pool`. -/
def World.after (w : World S) (lane : Nat) (u : Use S) (pool : Pool S) : World S :=
  ⟨pool, Function.update w.lanes lane ((w.lanes lane).step (w.pool.line.forwards + 1) u)⟩

/-- The leases of the lanes in any order, each lane in the order of its round. -/
inductive Reachable (line : Line S) : World S → Prop
  | start : Reachable line ⟨{ line }, fun _ => {}⟩
  | lease {w : World S} (h : Reachable line w) (lane : Nat) (u : Use S) (hallows : (w.lanes lane).Allows u)
      {seen : Seen S} {pool : Pool S} (hrun : u.run lane w.pool = .ok seen pool) :
      Reachable line (w.after lane u pool)

/-! ## The invariant -/

/-- What the pool says of a lane. -/
structure LaneInv (pool : Pool S) (lane : Nat) (p : Private S) : Prop where
  root : p.Bound → ∃ s, p.root = some s ∧ (pool.slots lane).root = some s
  pass : p.phase = .passed → ∃ q : S × Nat, p.pass = some q ∧ (pool.holdsPassOf lane = true ∨
    (pool.slots lane).pendingParked = true ∧ (pool.slots lane).pending = some q.1)
  window : pool.owner = some lane → pool.line.window = some lane ∧ pool.line.bound = some lane
  atRoot : pool.owner = some lane → pool.holds = .root → p.Bound → p.root = some pool.line.state
  kept : pool.owner = some lane → p.phase = .passed → pool.holds = .pass
  held : pool.holdsPassOf lane = true → p.phase = .passed ∧ p.pass = some (pool.line.state, pool.line.outputs)

def Inv (w : World S) : Prop := ∀ lane, LaneInv w.pool lane (w.lanes lane)

variable {pool pool' : Pool S} {lane l : Nat} {p : Private S} {w : World S} {s : S}

theorem holdsPassOf_iff : pool.holdsPassOf lane = true ↔ pool.owner = some lane ∧ pool.holds = .pass := by
  simp [Pool.holdsPassOf]

@[simp] theorem setSlots_self (slots : Slots S) : (pool.setSlots lane slots).slots lane = slots :=
  update_self ..

theorem setSlots_other (slots : Slots S) (h : l ≠ lane) : (pool.setSlots lane slots).slots l = pool.slots l :=
  update_of_ne h ..

theorem park_slots (l : Nat) :
    pool.park.slots l = if pool.holdsPassOf l = true then
      { pool.slots l with pending := some pool.line.state, pendingParked := true } else pool.slots l := by
  unfold Pool.park
  split
  · rename_i owner howner
    by_cases hl : l = owner
    · subst hl
      split
      · rename_i hpass
        rw [if_pos (holdsPassOf_iff.mpr ⟨howner, hpass⟩)]
        simp
      rename_i hpass
      rw [if_neg fun h => hpass (holdsPassOf_iff.mp h).2]
    have hnot : ¬ pool.holdsPassOf l = true := by
      intro h
      exact hl (some.inj ((holdsPassOf_iff.mp h).1.symm.trans howner))
    split
    · exact setSlots_other _ hl
    · rfl
  rename_i howner
  rw [if_neg fun h => nomatch (holdsPassOf_iff.mp h).1.symm.trans howner]

theorem taken_slots_other (h : l ≠ lane) :
    (pool.taken lane).slots l = if pool.holdsPassOf l = true then
      { pool.slots l with pending := some pool.line.state, pendingParked := true } else pool.slots l := by
  unfold Pool.taken
  by_cases howner : pool.owner = some lane
  · have hnot : ¬ pool.holdsPassOf l = true := by
      intro hl
      exact h (some.inj ((holdsPassOf_iff.mp hl).1.symm.trans howner))
    rw [if_pos howner, if_neg hnot]
  rw [if_neg howner]
  exact park_slots l

theorem taken_slots_self : (pool.taken lane).slots lane = pool.slots lane := by
  unfold Pool.taken
  by_cases howner : pool.owner = some lane
  · rw [if_pos howner]
  rw [if_neg howner]
  refine (park_slots lane).trans (if_neg fun h => howner (holdsPassOf_iff.mp h).1)

theorem LaneInv.taken (h : LaneInv pool l p) (hl : l ≠ lane) (howner : pool'.owner = some lane)
    (hslots : pool'.slots l = (pool.taken lane).slots l) : LaneInv pool' l p := by
  have hnot : ¬ pool'.owner = some l := fun hown => hl (mem_unique hown howner)
  rw [taken_slots_other hl] at hslots
  refine ⟨fun hbound => ?_, fun hpassed => ?_, fun hown => absurd hown hnot, fun hown => absurd hown hnot,
    fun hown => absurd hown hnot, fun hheld => absurd (holdsPassOf_iff.mp hheld).1 hnot⟩
  · obtain ⟨s, hs, hroot⟩ := h.root hbound
    refine ⟨s, hs, ?_⟩
    rw [hslots]
    split
    · exact hroot
    · exact hroot
  · obtain ⟨q, hq, hheld | hparked⟩ := h.pass hpassed
    · refine ⟨q, hq, .inr ?_⟩
      rw [hslots, if_pos hheld]
      have hstate := (h.held hheld).2
      obtain rfl := mem_unique hq hstate
      exact ⟨rfl, rfl⟩
    · refine ⟨q, hq, .inr ?_⟩
      rw [hslots]
      split
      · rename_i hheld
        have hstate := (h.held hheld).2
        obtain rfl := mem_unique hq hstate
        exact ⟨rfl, rfl⟩
      · exact hparked

theorem LaneInv.beside (h : LaneInv pool l p) (hslots : pool'.slots l = pool.slots l)
    (hline : pool'.line = pool.line) (howner : pool'.owner = some l ↔ pool.owner = some l)
    (hholds : pool.owner = some l → pool'.holds = pool.holds) : LaneInv pool' l p := by
  have hheld : pool'.holdsPassOf l = true ↔ pool.holdsPassOf l = true := by
    rw [holdsPassOf_iff, holdsPassOf_iff, howner]
    constructor
    · intro hp
      exact ⟨hp.1, (hholds hp.1).symm.trans hp.2⟩
    · intro hp
      exact ⟨hp.1, (hholds hp.1).trans hp.2⟩
  refine ⟨fun hb => ?_, fun hp => ?_, fun hown => ?_, fun hown hr hb => ?_, fun hown hp => ?_, fun hh => ?_⟩
  · rw [hslots]
    exact h.root hb
  · rw [hslots, hheld]
    exact h.pass hp
  · rw [hline]
    exact h.window (howner.mp hown)
  · rw [hline]
    have hown := howner.mp hown
    exact h.atRoot hown ((hholds hown).symm.trans hr) hb
  · have hown := howner.mp hown
    exact (hholds hown).trans (h.kept hown hp)
  · rw [hline]
    exact h.held (hheld.mp hh)

/-! ## The line at a root -/

/-- The pool after `at_root`. -/
structure AtRoot (pool pool' : Pool S) (lane : Nat) (s : S) : Prop where
  state : pool'.line.state = s
  window : pool'.line.window = some lane
  bound : pool'.line.bound = some lane
  owner : pool'.owner = some lane
  holds : pool'.holds = .root
  slots : pool'.slots = (pool.taken lane).slots
  forwards : pool'.line.forwards = pool.line.forwards

theorem park_line : pool.park.line = pool.line := by
  unfold Pool.park
  split
  · split
    · rfl
    · rfl
  · rfl

theorem taken_line : (pool.taken lane).line = { pool.line with bound := some lane } := by
  unfold Pool.taken
  split
  · rfl
  · simp only [park_line]

theorem taken_owner : (pool.taken lane).owner = some lane := by
  unfold Pool.taken
  split
  · rename_i h
    exact h
  · rfl

variable {E : Exn → Pool S → Prop}

variable {Q : Line S → Pool S → Prop} {u : Use S} {line : Line S}

theorem wp_atRoot (hroot : (pool.slots lane).root = some s)
    (hwindow : pool.owner = some lane → pool.line.window = some lane)
    (hat : pool.owner = some lane → pool.holds = .root → pool.line.state = s)
    (hQ : ∀ line pool', line = pool'.line → AtRoot pool pool' lane s → Q line pool') :
    wp (atRoot lane) Q E pool := by
  simp only [atRoot, take, wp_bind, wp_get, wp_modify, wp_pure, restoreUnlessAtRoot]
  split
  · rw [taken_slots_self, hroot]
    refine hQ _ _ rfl ⟨rfl, ?_, ?_, ?_, rfl, rfl, ?_⟩
    · show (if (pool.owner != some lane) = true then (pool.taken lane).line.bound
        else (pool.taken lane).line.window) = some lane
      rw [taken_line]
      split
      · rfl
      rename_i hown
      exact hwindow (by simpa using hown)
    · show (pool.taken lane).line.bound = some lane
      rw [taken_line]
    · exact taken_owner
    show (pool.taken lane).line.forwards = _
    rw [taken_line]
  rename_i hif
  -- the line is the lane's, at its root
  simp only [not_or, ne_eq, not_not] at hif
  obtain ⟨hmoved, hholds⟩ := hif
  have hown : pool.owner = some lane := by simpa using hmoved
  have htaken : pool.taken lane = { pool with line := { pool.line with bound := some lane } } := by
    unfold Pool.taken
    rw [if_pos hown]
  rw [htaken] at hholds
  refine hQ _ _ rfl ⟨?_, ?_, ?_, taken_owner, ?_, rfl, ?_⟩
  · rw [taken_line]
    exact hat hown hholds
  · rw [taken_line]
    exact hwindow hown
  · rw [taken_line]
  · rw [htaken]
    exact hholds
  · rw [taken_line]

theorem wp_laneAtRoot (h : LaneInv pool lane p) (hbound : p.Bound)
    (hQ : ∀ s line pool', line = pool'.line → p.root = some s → (pool.slots lane).root = some s →
      AtRoot pool pool' lane s → Q line pool') :
    wp (atRoot lane) Q E pool := by
  obtain ⟨s, hs, hroot⟩ := h.root hbound
  refine wp_atRoot hroot (fun hown => (h.window hown).1) (fun hown hholds => ?_)
    fun line pool' hline hat => hQ s line pool' hline hs hroot hat
  exact mem_unique (h.atRoot hown hholds hbound) hs

theorem LaneInv.owned {s : S} (hwindow : pool.line.window = some lane ∧ pool.line.bound = some lane)
    (howner : pool.owner = some lane) (hroot : p.Bound → p.root = some s ∧ (pool.slots lane).root = some s)
    (hat : pool.holds = .root → p.Bound → pool.line.state = s)
    (hpass : p.phase = .passed ↔ pool.holds = .pass)
    (hheld : pool.holds = .pass → p.pass = some (pool.line.state, pool.line.outputs)) : LaneInv pool lane p := by
  refine ⟨fun hb => ⟨s, hroot hb⟩, fun hp => ?_, fun _ => hwindow, fun _ hr hb => ?_, fun _ hp => hpass.mp hp,
    fun hh => ?_⟩
  · have hholds := hpass.mp hp
    exact ⟨_, hheld hholds, .inl (holdsPassOf_iff.mpr ⟨howner, hholds⟩)⟩
  · rw [(hroot hb).1, hat hr hb]
  · have hholds := (holdsPassOf_iff.mp hh).2
    exact ⟨hpass.mpr hholds, hheld hholds⟩

/-! ## Leases -/

/-- A lane's slots, but for the parking of its own unsaved pass. -/
def Untouched (pool pool' : Pool S) (l : Nat) : Prop :=
  pool'.slots l = pool.slots l ∨ pool.holdsPassOf l = true ∧
    pool'.slots l = { pool.slots l with pending := some pool.line.state, pendingParked := true }

/-- What a lease shows and leaves. -/
structure LeaseOk (w : World S) (lane : Nat) (u : Use S) (seen : Seen S) (pool' : Pool S) : Prop where
  inv : Inv (w.after lane u pool')
  shown : ∀ line, seen.line = some line → (w.lanes lane).root = some line.state ∧ line.window = some lane
  answer : ∀ held, seen.held = some held → held = w.pool.holdsPassOf lane
  others : ∀ l, l ≠ lane → Untouched w.pool pool' l

theorem inv_after (hself : LaneInv pool' lane ((w.lanes lane).step (w.pool.line.forwards + 1) u))
    (hother : ∀ l, l ≠ lane → LaneInv pool' l (w.lanes l)) : Inv (w.after lane u pool') := by
  intro l
  show LaneInv pool' l (update w.lanes lane _ l)
  by_cases hl : l = lane
  · subst hl
    rw [update_self]
    exact hself
  rw [update_of_ne hl]
  exact hother l hl

theorem untouched_taken (hl : l ≠ lane) (hslots : pool'.slots l = (pool.taken lane).slots l) :
    Untouched pool pool' l := by
  rw [taken_slots_other hl] at hslots
  split at hslots
  · rename_i hheld
    exact .inr ⟨hheld, hslots⟩
  · exact .inl hslots

theorem discarded_slots_other (hl : l ≠ lane) : (pool.discarded lane).slots l = pool.slots l := by
  refine (setSlots_other _ hl).trans ?_
  split
  · rfl
  · rfl

theorem discarded_owner : (pool.discarded lane).owner = pool.owner := by
  unfold Pool.discarded Pool.setSlots
  split
  · rfl
  · rfl

theorem discarded_line : (pool.discarded lane).line = pool.line := by
  unfold Pool.discarded Pool.setSlots
  split
  · rfl
  · rfl

theorem discarded_holds : (pool.discarded lane).holds =
    if pool.holdsPassOf lane = true then .stale else pool.holds := by
  unfold Pool.discarded Pool.setSlots
  split
  · rfl
  · rfl

theorem discarded_self : ((pool.discarded lane).slots lane).root = (pool.slots lane).root := by
  unfold Pool.discarded
  rw [setSlots_self]
  split
  · rfl
  · rfl

theorem LaneInv.discarded (h : LaneInv pool lane p) (hbound : p.Bound) :
    LaneInv (pool.discarded lane) lane ⟨.rooted, p.root, none⟩ := by
  have hnot : ¬ (pool.discarded lane).holdsPassOf lane = true := by
    intro hheld
    obtain ⟨hown, hpass⟩ := holdsPassOf_iff.mp hheld
    rw [discarded_holds] at hpass
    rw [discarded_owner] at hown
    split at hpass
    · cases hpass
    rename_i hno
    exact hno (holdsPassOf_iff.mpr ⟨hown, hpass⟩)
  refine ⟨fun _ => ?_, nofun, fun hown => ?_, fun hown hholds _ => ?_,
    fun _ hp => absurd hp (by simp), fun hh => absurd hh hnot⟩
  · rw [discarded_self]
    exact h.root hbound
  · rw [discarded_line]
    rw [discarded_owner] at hown
    exact h.window hown
  · rw [discarded_line]
    rw [discarded_owner] at hown
    rw [discarded_holds] at hholds
    split at hholds
    · cases hholds
    · exact h.atRoot hown hholds hbound

theorem LaneInv.beside_discarded (h : LaneInv pool l p) (hl : l ≠ lane) : LaneInv (pool.discarded lane) l p := by
  refine h.beside (discarded_slots_other hl) discarded_line (by rw [discarded_owner]) fun hown => ?_
  rw [discarded_holds, if_neg]
  intro hheld
  exact hl (some.inj (hown.symm.trans (holdsPassOf_iff.mp hheld).1))

theorem Inv.discarded (h : Inv w) (hbound : (w.lanes lane).Bound) : Inv (w.after lane .drop (w.pool.discarded lane)) :=
  inv_after ((h lane).discarded hbound) fun l hl => (h l).beside_discarded hl

theorem untouched_discarded (hl : l ≠ lane) (h : Untouched (pool.discarded lane) pool' l) : Untouched pool pool' l := by
  have hheld : (pool.discarded lane).holdsPassOf l = true → pool.holdsPassOf l = true := by
    intro hh
    obtain ⟨hown, hholds⟩ := holdsPassOf_iff.mp hh
    rw [discarded_owner] at hown
    rw [discarded_holds] at hholds
    split at hholds
    · cases hholds
    · exact holdsPassOf_iff.mpr ⟨hown, hholds⟩
  unfold Untouched at h ⊢
  rw [discarded_slots_other hl, discarded_line] at h
  exact h.imp_right fun hp => ⟨hheld hp.1, hp.2⟩

section Leases

variable {E : Exn → Pool S → Prop}

section
variable (h : Inv w)
include h

theorem LeaseOk.of_taken {u : Use S} {seen : Seen S} (howner : pool'.owner = some lane)
    (hslots : ∀ l, l ≠ lane → pool'.slots l = (w.pool.taken lane).slots l)
    (hself : LaneInv pool' lane ((w.lanes lane).step (w.pool.line.forwards + 1) u))
    (hshown : ∀ line, seen.line = some line → (w.lanes lane).root = some line.state ∧ line.window = some lane)
    (hheld : seen.held = none) : LeaseOk w lane u seen pool' :=
  ⟨inv_after hself fun l hl => (h l).taken hl howner (hslots l hl), hshown,
    fun held hh => absurd (hheld.symm.trans hh) (by simp), fun l hl => untouched_taken hl (hslots l hl)⟩

theorem wp_begin : wp ((Use.begin s).run lane) (LeaseOk w lane (.begin s)) E w.pool := by
  refine .of_taken h taken_owner (fun l hl => setSlots_other _ hl) ?_ (fun line hline => nomatch hline) rfl
  refine .owned (s := s) ⟨?_, ?_⟩ taken_owner (fun _ => ⟨rfl, ?_⟩) (fun _ _ => rfl) ?_ ?_
  · show (w.pool.taken lane).line.bound = some lane
    rw [taken_line]
  · show (w.pool.taken lane).line.bound = some lane
    rw [taken_line]
  · exact congrArg Slots.root (setSlots_self _)
  · exact ⟨fun hp => absurd hp (by simp [Private.step]), nofun⟩
  intro hp
  cases hp

theorem wp_pass {f : S → S} (hallows : (w.lanes lane).phase = .rooted) :
    wp ((Use.pass f).run lane) (LeaseOk w lane (.pass f)) E w.pool := by
  simp only [Use.run, forwardRows, ranPass, wp_bind]
  refine wp_laneAtRoot (h lane) (.inl hallows) fun s line pool₁ hline hs hroot hat => ?_
  refine .of_taken h hat.owner (fun l _ => congrFun hat.slots l) ?_ (fun line' hline' => ?_) rfl
  · refine .owned (s := s) ⟨hat.window, hat.bound⟩ hat.owner (fun _ => ⟨hs, ?_⟩) (nofun) ?_ fun _ => ?_
    · rw [hat.slots, taken_slots_self]
      exact hroot
    · exact ⟨fun _ => rfl, fun _ => rfl⟩
    · simp [Private.step, hs, hat.state, hat.forwards]
  cases hline'
  rw [hline, hat.state]
  exact ⟨hs, hat.window⟩

theorem wp_rescore : wp (Use.rescore.run lane) (LeaseOk w lane .rescore) E w.pool := by
  exact ⟨inv_after (h lane) fun l _ => h l, fun line hline => absurd hline (by simp),
    fun held hh => (some.inj hh).symm, fun l _ => .inl rfl⟩

theorem wp_drop (hallows : (w.lanes lane).Bound) : wp (Use.drop.run lane) (LeaseOk w lane .drop) E w.pool := by
  exact ⟨h.discarded hallows, fun line hline => absurd hline (by simp), fun held hh => absurd hh (by simp),
    fun l hl => .inl (discarded_slots_other hl)⟩

theorem wp_rewind (hallows : (w.lanes lane).Bound) : wp (Use.rewind.run lane) (LeaseOk w lane .rewind) E w.pool := by
  have h₁ := h.discarded hallows
  have hself : (w.after lane .drop (w.pool.discarded lane)).lanes lane = ⟨.rooted, (w.lanes lane).root, none⟩ :=
    update_self ..
  simp only [Use.run, discardPass, wp_bind, wp_modify]
  refine wp_laneAtRoot (h₁ lane) (.inl (by rw [hself])) fun s line pool₁ hline hs hroot hat => ?_
  rw [hself] at hs
  have htaken : ∀ l, pool₁.slots l = ((w.pool.discarded lane).taken lane).slots l := congrFun hat.slots
  refine ⟨inv_after ?_ fun l hl => ?_, fun line' hline' => ?_, fun held hh => absurd hh (by simp), fun l hl => ?_⟩
  · refine .owned (s := s) ⟨hat.window, hat.bound⟩ hat.owner (fun _ => ⟨hs, ?_⟩) (fun _ _ => hat.state) ?_ fun hp => ?_
    · rw [htaken, taken_slots_self]
      exact hroot
    · exact ⟨fun hp => absurd hp (by simp [Private.step]), fun hp => nomatch hat.holds.symm.trans hp⟩
    · cases hat.holds.symm.trans hp
  · exact ((h l).beside_discarded hl).taken hl hat.owner (htaken l)
  · cases hline'
    rw [hline, hat.state]
    exact ⟨hs, hat.window⟩
  · exact untouched_discarded hl (untouched_taken hl (htaken l))

theorem wp_accept (hallows : (w.lanes lane).phase = .passed) :
    wp (Use.accept.run lane) (LeaseOk w lane .accept) E w.pool := by
  obtain ⟨q, hq, hpass⟩ := (h lane).pass hallows
  have hstep : (w.lanes lane).step (w.pool.line.forwards + 1) .accept = ⟨.rooted, some q.1, none⟩ := by
    simp [Private.step, hq]
  simp only [Use.run, acceptPass, acceptRoot, wp_bind, wp_get]
  by_cases hheld : w.pool.holdsPassOf lane = true
  · -- the line still holds the pass
    obtain ⟨hown, -⟩ := holdsPassOf_iff.mp hheld
    obtain rfl : q = (w.pool.line.state, w.pool.line.outputs) :=
      some.inj (hq.symm.trans ((h lane).held hheld).2)
    rw [if_pos hheld]
    refine ⟨inv_after ?_ fun l hl => ?_, fun line hline => absurd hline (by simp), fun held hh => absurd hh (by simp),
      fun l hl => .inl ?_⟩
    · rw [hstep]
      refine .owned (s := w.pool.line.state) ((h lane).window hown) hown (fun _ => ⟨rfl, ?_⟩) (fun _ _ => rfl) ?_ ?_
      · simp [Pool.saveRoot, Pool.setSlots]
      · exact ⟨(fun hf => by cases hf), fun hp => absurd hp (by simp [Pool.setSlots])⟩
      · exact fun hp => absurd hp (by simp [Pool.setSlots])
    · refine (h l).beside ((setSlots_other _ hl).trans (setSlots_other _ hl)) rfl Iff.rfl fun hown' => ?_
      exact absurd (mem_unique hown' hown) hl
    · exact (setSlots_other _ hl).trans (setSlots_other _ hl)
  -- another lane parked it
  obtain ⟨hparked, hpending⟩ : (w.pool.slots lane).pendingParked = true ∧
      (w.pool.slots lane).pending = some q.1 := hpass.resolve_left hheld
  have hown : ¬ w.pool.owner = some lane :=
    fun hown => hheld (holdsPassOf_iff.mpr ⟨hown, (h lane).kept hown hallows⟩)
  rw [if_neg hheld]
  simp only [wp_bind]
  refine wp_ofExcept.mpr ⟨fun _ _ => ?_, fun e he => ?_⟩
  · refine ⟨inv_after ?_ fun l hl => ?_, fun line hline => absurd hline (by simp),
      fun held hh => absurd hh (by simp), fun l hl => .inl ((setSlots_other _ hl).trans (setSlots_other _ hl))⟩
    · rw [hstep]
      refine ⟨fun _ => ⟨q.1, rfl, ?_⟩, (fun hf => by cases hf), fun hown' => absurd hown' hown,
        fun hown' => absurd hown' hown, fun hown' => absurd hown' hown,
        fun hh => absurd (holdsPassOf_iff.mp hh).1 hown⟩
      simp [Pool.setSlots, hpending]
    · exact (h l).beside ((setSlots_other _ hl).trans (setSlots_other _ hl)) rfl Iff.rfl fun _ => rfl
  rw [throwIf_neg (fun hnot => hnot hparked)] at he
  cases he

end

variable {f : Option (S → S)}

theorem wp_runToRoot {Q : Unit → Pool S → Prop} (hholds : pool.holds = .root)
    (hQ : ∀ pool', pool'.slots = pool.slots → pool'.owner = pool.owner → pool'.holds = .root →
      pool'.line.window = pool.line.window → pool'.line.bound = pool.line.bound →
      pool'.line.state = f.getD id pool.line.state → Q () pool') : wp (runToRoot f) Q E pool := by
  unfold runToRoot
  split
  · exact hQ pool rfl rfl hholds rfl rfl rfl
  exact hQ _ rfl rfl rfl rfl rfl rfl

theorem wp_finish (h : Inv w) (hallows : (w.lanes lane).Bound) :
    wp ((Use.finish f).run lane) (LeaseOk w lane (.finish f)) E w.pool := by
  simp only [Use.run, wp_bind]
  refine wp_laneAtRoot (h lane) hallows fun s line pool₁ hline hs hroot hat => ?_
  refine wp_runToRoot hat.holds fun pool₂ hslots howner hholds hwindow hbound _ => ?_
  have hended : ¬ ((w.lanes lane).step (w.pool.line.forwards + 1) (.finish f)).Bound := by
    simp [Private.Bound, Private.step]
  refine .of_taken h (howner.trans hat.owner) (fun l _ => congrFun (hslots.trans hat.slots) l) ?_
    (fun line' hline' => ?_) rfl
  · refine .owned (s := s) ⟨hwindow.trans hat.window, hbound.trans hat.bound⟩ (howner.trans hat.owner)
      (fun hb => absurd hb hended) (fun _ hb => absurd hb hended) ?_
      fun hp => by cases hholds.symm.trans hp
    exact ⟨fun hp => absurd hp (by simp [Private.step]), fun hp => by cases hholds.symm.trans hp⟩
  cases hline'
  rw [hline, hat.state]
  exact ⟨hs, hat.window⟩

theorem wp_commitRows (h : LaneInv pool lane p) (hbound : p.Bound) {Q : Seen S → Pool S → Prop}
    (hQ : ∀ s line pool', p.root = some s → line.state = s → line.window = some lane →
      LaneInv pool' lane ⟨.rooted, p.root.map (f.getD id), none⟩ → pool'.owner = some lane →
      (∀ l, l ≠ lane → pool'.slots l = (pool.taken lane).slots l) → Q { line := some line } pool') :
    wp (do
      let line ← atRoot lane
      runToRoot f
      modify fun pool => pool.saveRoot lane
      syncedToRoot
      return { line := some line }) Q E pool := by
  simp only [syncedToRoot, wp_bind]
  refine wp_laneAtRoot h hbound fun s line pool₁ hline hs hroot hat => ?_
  refine wp_runToRoot hat.holds fun pool₂ hslots howner hholds hwindow hbound₂ hstate => ?_
  rw [hat.state] at hstate
  refine hQ s line _ hs (hline ▸ hat.state) (hline ▸ hat.window) ?_ (howner.trans hat.owner) fun l hl => ?_
  · refine .owned (s := f.getD id s) ⟨hwindow.trans hat.window, hbound₂.trans hat.bound⟩ (howner.trans hat.owner)
      (fun _ => ⟨by rw [hs]; rfl, ?_⟩) (fun _ _ => hstate) ?_ nofun
    · show ((pool₂.saveRoot lane).slots lane).root = _
      rw [Pool.saveRoot, setSlots_self, hstate]
    · exact ⟨nofun, nofun⟩
  show (pool₂.saveRoot lane).slots l = _
  rw [Pool.saveRoot, setSlots_other _ hl, hslots, hat.slots]

theorem wp_commitPart {corrected : Bool} (h : Inv w) (hallows : (w.lanes lane).Allows (.commitPart corrected f)) :
    wp ((Use.commitPart corrected f).run lane) (LeaseOk w lane (.commitPart corrected f)) E w.pool := by
  simp only [Use.run]
  rw [wp_bind]
  cases corrected with
  | true =>
    have hrooted : (w.lanes lane).phase = .rooted := hallows
    refine wp_commitRows (h lane) (.inl hrooted) fun s line pool' hs hline hwindow hself howner hslots => ?_
    refine .of_taken h howner hslots hself (fun line' hline' => ?_) rfl
    cases hline'
    exact ⟨hline ▸ hs, hwindow⟩
  | false =>
    have hpassed : (w.lanes lane).phase = .passed := hallows
    have h₁ := h.discarded (.inr hpassed)
    have hlane : (w.after lane .drop (w.pool.discarded lane)).lanes lane = ⟨.rooted, (w.lanes lane).root, none⟩ :=
      update_self ..
    have hself₁ := h₁ lane
    rw [hlane] at hself₁
    refine wp_commitRows hself₁ (.inl rfl) fun s line pool' hs hline hwindow hself howner hslots => ?_
    refine ⟨inv_after hself fun l hl => ?_, fun line' hline' => ?_, fun held hh => absurd hh (by simp), fun l hl => ?_⟩
    · exact ((h l).beside_discarded hl).taken hl howner (hslots l hl)
    · cases hline'
      exact ⟨hline ▸ hs, hwindow⟩
    · exact untouched_discarded hl (untouched_taken hl (hslots l hl))

theorem wp_release (h : Inv w) : wp (Use.release.run lane) (LeaseOk w lane .release) E w.pool := by
  simp only [Use.run, releaseLane, wp_bind, wp_modify, wp_pure]
  have hidle : ¬ ((w.lanes lane).step (w.pool.line.forwards + 1) .release).Bound := by
    simp [Private.Bound, Private.step]
  refine ⟨inv_after ?_ fun l hl => ?_, fun line hline => absurd hline (by simp), fun held hh => absurd hh (by simp),
    fun l hl => .inl ?_⟩
  · split
    · refine ⟨fun hb => absurd hb hidle, fun hp => absurd hp (by simp [Private.step]), (fun hf => by cases hf),
        (fun hf => by cases hf), (fun hf => by cases hf), fun hh => absurd (holdsPassOf_iff.mp hh).1 (by simp)⟩
    · rename_i hnot
      exact ⟨fun hb => absurd hb hidle, fun hp => absurd hp (by simp [Private.step]), fun hown => absurd hown hnot,
        fun hown => absurd hown hnot, fun hown => absurd hown hnot, fun hh => absurd (holdsPassOf_iff.mp hh).1 hnot⟩
  · split
    · rename_i hown
      have hne : ¬ w.pool.owner = some l := fun hl' => hl (mem_unique hl' hown)
      exact (h l).beside rfl rfl ⟨(fun hf => by cases hf), fun hf => absurd hf hne⟩ fun hf => absurd hf hne
    · exact h l
  · split
    · rfl
    · rfl

end Leases

theorem wp_lease (h : Inv w) (hallows : (w.lanes lane).Allows u) : wp (u.run lane) (LeaseOk w lane u) E w.pool := by
  cases u with
  | begin s => exact wp_begin h
  | pass f => exact wp_pass h hallows
  | rescore => exact wp_rescore h
  | rewind => exact wp_rewind h (.inr hallows)
  | accept => exact wp_accept h hallows
  | commitPart corrected f => exact wp_commitPart h hallows
  | drop => exact wp_drop h (.inr hallows)
  | finish f => exact wp_finish h hallows
  | release => exact wp_release h

theorem Reachable.inv (h : Reachable line w) : Inv w := by
  induction h with
  | start =>
    intro l
    exact ⟨fun hb => absurd hb (by simp [Private.Bound]), nofun, nofun, nofun, nofun,
      fun hh => absurd (holdsPassOf_iff.mp hh).1 (by simp)⟩
  | lease h lane u hallows hrun ih =>
    have hwp : wp (u.run lane) (LeaseOk _ lane u) (fun _ _ => True) _ := wp_lease ih hallows
    exact (wp_ok hwp hrun).inv

/-- The shared line behaves as a line of each lane's own. In any state reached by leases of any lanes in any order, the
    next lease of a lane succeeds; the line it gets at its root is in the state of its own root, over its own window;
    afterwards its root slot holds its own root; the line holds a lane's pass only if its state and logits are those
    after that pass; and the slots of the other lanes are as they were, but for an unsaved pass that was parked. -/
theorem line_is_private {line : Line S} {w : World S} (h : Reachable line w) (lane : Nat) (u : Use S)
    (hallows : (w.lanes lane).Allows u) :
    ∃ seen pool', u.run lane w.pool = .ok seen pool' ∧
      (∀ line, seen.line = some line → (w.lanes lane).root = some line.state ∧ line.window = some lane) ∧
      (∀ held, seen.held = some held → held = w.pool.holdsPassOf lane) ∧
      (∀ l, ((w.after lane u pool').lanes l).Bound → ((w.after lane u pool').lanes l).root.isSome ∧
        (pool'.slots l).root = ((w.after lane u pool').lanes l).root) ∧
      (∀ l, pool'.holdsPassOf l = true →
        ((w.after lane u pool').lanes l).pass = some (pool'.line.state, pool'.line.outputs)) ∧
      ∀ l, l ≠ lane → Untouched w.pool pool' l := by
  have hwp : wp (u.run lane) (LeaseOk w lane u) (fun _ _ => False) w.pool := wp_lease h.inv hallows
  cases hrun : u.run lane w.pool with
  | error e pool' => exact (wp_error hwp hrun).elim
  | ok seen pool' =>
    have hok := wp_ok hwp hrun
    refine ⟨seen, pool', rfl, hok.shown, hok.answer, fun l hb => ?_, fun l hh => ((hok.inv l).held hh).2, hok.others⟩
    obtain ⟨s, hs, hroot⟩ := (hok.inv l).root hb
    exact ⟨by rw [hs]; rfl, hroot.trans hs.symm⟩

/-- The world after a lease. -/
def World.lease (w : World S) (lane : Nat) (u : Use S) : World S :=
  match u.run lane w.pool with
  | .ok _ pool => w.after lane u pool
  | .error _ _ => w

theorem Reachable.next (h : Reachable line w) (lane : Nat) (u : Use S)
    (hallows : (w.lanes lane).Allows u) : Reachable line (w.lease lane u) := by
  unfold World.lease
  split
  · rename_i hrun
    exact h.lease lane u hallows hrun
  · exact h

/-- Lane 0 ran a pass, then lane 1 took the line. -/
def sampleWorld : World Nat :=
  ((World.mk { line := { state := 0 } } fun _ => {}).lease 0 (.begin 10) |>.lease 0 (.pass (· + 5))).lease 1 (.begin 100)

/-- Lane 0 accepts its pass from the slot it was parked in. -/
theorem line_is_private_sample :
    ∃ seen pool', Use.accept.run 0 sampleWorld.pool = .ok seen pool' ∧ (pool'.slots 0).root = some 15 ∧
      (pool'.slots 1).root = some 100 := by
  have h : Reachable { state := 0 } sampleWorld := 
    ((Reachable.start.next 0 (.begin 10) rfl).next 0 (.pass _) rfl).next 1 _ rfl
  obtain ⟨seen, pool', hrun, -, -, hroot, -⟩ := line_is_private h 0 .accept rfl
  exact ⟨seen, pool', hrun, (hroot 0 (.inl rfl)).2, (hroot 1 (.inl rfl)).2⟩

end VoidInfer.Exl3.LinePool
