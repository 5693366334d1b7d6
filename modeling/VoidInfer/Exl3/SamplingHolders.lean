import Mathlib.Tactic.Common
import VoidInfer.Exl3.SamplingState
import VoidInfer.Lib.ListUpdate

/-
  Transactions in any hands. `Change` says what one call can do; a nonce is used for one transaction (`Inv`), so a
  commit or rollback finishes all its copies, and after `cancel()` nothing more is claimed (`run_cancelled`).
-/

namespace VoidInfer.Exl3.Sampling
open List Option ListUpdate

variable {self o i n : Nat} {s s' : RequestState} {t t' : Transaction}

/-! ## The request's state -/

theorem requireCurrent_ok {allow : Bool} {u : Unit} (h : s.requireCurrent self t allow = .ok u) :
    t.owner = some self ∧ s.activeNonce ≠ 0 ∧ t.nonce = s.activeNonce ∧
      (s.cancelled = true → allow = true ∧ t.publicationClaimed = true) := by
  have hnot := throwIf_ok.mp h
  push Not at hnot
  exact ⟨hnot.2.1, hnot.2.2.1, hnot.2.2.2.1, hnot.1⟩

theorem requireCurrent_of {allow : Bool} (howner : t.owner = some self) (hactive : s.activeNonce ≠ 0)
    (hnonce : t.nonce = s.activeNonce) (hacq : t.acquisition = s.acquisition)
    (hrev : t.rootRevision = s.rootRevision) (hcancel : s.cancelled = false) :
    s.requireCurrent self t allow = .ok () :=
  throwIf_ok.mpr (by simp [howner, hactive, hnonce, hacq, hrev, hcancel])

variable {p : Nat} {rev : Revision} {r : Transaction × RequestState}

theorem commit_ok {draws : Nat} (h : s.commit self t draws p rev = .ok r) :
    t.owner = some self ∧ s.activeNonce ≠ 0 ∧ t.nonce = s.activeNonce ∧
      t.publicationClaimed = true ∧ s.committedCounter + draws ≤ max s.committedCounter uint64Max ∧
      r = (t.finish, { s with
        committedCounter := s.committedCounter + draws, committedPrefix := p, rootRevision := rev
        activeNonce := 0 }) := by
  obtain ⟨u, hcur, h⟩ := bind_ok h
  obtain ⟨u', hext, h⟩ := bind_ok h
  obtain ⟨howner, hactive, hnonce, -⟩ := requireCurrent_ok hcur
  have hnot := throwIf_ok.mp hext
  push Not at hnot
  exact ⟨howner, hactive, hnonce, hnot.1, by omega, (Except.ok.inj h).symm⟩

theorem rollback_ok (h : s.rollback self t = .ok r) :
    t.owner = some self ∧ s.activeNonce ≠ 0 ∧ t.nonce = s.activeNonce ∧
      r = (t.finish, { s with activeNonce := 0 }) := by
  obtain ⟨u, hcur, h⟩ := bind_ok h
  obtain ⟨howner, hactive, hnonce, -⟩ := requireCurrent_ok hcur
  exact ⟨howner, hactive, hnonce, (Except.ok.inj h).symm⟩

theorem claimPublication_ok (h : s.claimPublication self t = .ok t') :
    t.owner = some self ∧ s.cancelled = false ∧ t' = { t with publicationClaimed := true } := by
  obtain ⟨u, hcur, h⟩ := bind_ok h
  obtain ⟨u', -, h⟩ := bind_ok h
  obtain ⟨howner, -, -, hcancel⟩ := requireCurrent_ok hcur
  refine ⟨howner, ?_, (Except.ok.inj h).symm⟩
  by_contra hc
  exact absurd (hcancel (by simpa using hc)).1 (by simp)

theorem draw_ok {r : UInt64 × Transaction} (h : s.draw self t = .ok r) :
    s.cancelled = false ∧ t.tentativeCounter ≠ uint64Max ∧
      r = (s.id.value t.tentativeCounter, { t with tentativeCounter := t.tentativeCounter + 1 }) := by
  obtain ⟨u, hcur, h⟩ := bind_ok h
  obtain ⟨u', hmax, h⟩ := bind_ok h
  refine ⟨?_, throwIf_ok.mp hmax, (Except.ok.inj h).symm⟩
  by_contra hc
  exact absurd ((requireCurrent_ok hcur).2.2.2 (by simpa using hc)).1 (by simp)

theorem begin_ok (h : s.begin self p = .ok r) :
    s.activeNonce = 0 ∧ s.nextNonce ≠ 0 ∧
      r = ({ owner := some self, nonce := s.nextNonce, acquisition := s.acquisition,
             baseCounter := s.committedCounter, tentativeCounter := s.committedCounter,
             acceptedPrefix := p, rootRevision := s.rootRevision },
        { s with activeNonce := s.nextNonce, nextNonce := (s.nextNonce + 1) % 2 ^ 64 }) := by
  obtain ⟨u, hcheck, h⟩ := bind_ok h
  have hnot := throwIf_ok.mp hcheck
  push Not at hnot
  exact ⟨hnot.2.2.2.1, hnot.2.2.2.2.1, (Except.ok.inj h).symm⟩

theorem bindAcquisition_ok {a : Nat} (h : s.bindAcquisition a rev p = .ok s') :
    s.activeNonce = 0 ∧ s' = { s with acquisition := a, rootRevision := rev, committedPrefix := p } := by
  obtain ⟨u, hcheck, h⟩ := bind_ok h
  have hnot := throwIf_ok.mp hcheck
  push Not at hnot
  exact ⟨hnot.2.2.2.2, (Except.ok.inj h).symm⟩

theorem advanceForcedControl_ok {tokens : Nat} {resident : Bool}
    (h : s.advanceForcedControl tokens rev resident = .ok s') :
    s.activeNonce = 0 ∧ s' = { s with committedPrefix := s.committedPrefix + tokens, rootRevision := rev } := by
  obtain ⟨u, hcheck, h⟩ := bind_ok h
  have hnot := throwIf_ok.mp hcheck
  push Not at hnot
  exact ⟨hnot.2.2.2.1, (Except.ok.inj h).symm⟩

/-! ## Transactions in any hands -/

namespace Holders

variable {w w' : Holders}

/-- What a step can do. -/
inductive Change (w : Holders) : Holders → Prop
  | none : Change w w
  | object {o : Nat} {s s' : RequestState} (ho : w.objects[o]? = some s)
      (hnext : s'.nextNonce = s.nextNonce) (hactive : s'.activeNonce = s.activeNonce)
      (hcancel : s.cancelled = true → s'.cancelled = true) :
      Change w { w with objects := w.objects.set o s' }
  | begin {o : Nat} {s s' : RequestState} {t : Transaction} (ho : w.objects[o]? = some s)
      (hnext : s.nextNonce ≠ 0) (howner : t.owner = some o) (hnonce : t.nonce = s.nextNonce)
      (hclaim : t.publicationClaimed = false) (hactive' : s'.activeNonce = s.nextNonce)
      (hnext' : s'.nextNonce = (s.nextNonce + 1) % 2 ^ 64) (hcancel : s'.cancelled = s.cancelled) :
      Change w { w with
        objects := w.objects.set o s', held := w.held ++ [t], begun := w.begun ++ [(o, t.nonce)] }
  | copy {t : Transaction} (ht : t ∈ w.held) : Change w { w with held := w.held ++ [t] }
  | draw {i : Nat} {t t' : Transaction} (hi : w.held[i]? = some t) (howner : t'.owner = t.owner)
      (hnonce : t'.nonce = t.nonce) (hclaim : t'.publicationClaimed = t.publicationClaimed) :
      Change w { w with held := w.held.set i t' }
  | claim {o i : Nat} {s : RequestState} {t : Transaction} (ho : w.objects[o]? = some s)
      (hi : w.held[i]? = some t) (howner : t.owner = some o) (hcancel : s.cancelled = false) :
      Change w { w with
        held := w.held.set i { t with publicationClaimed := true }
        claimed := w.claimed ++ [(o, t.nonce)] }
  | finish {o i : Nat} {s s' : RequestState} {t : Transaction} (ho : w.objects[o]? = some s)
      (hi : w.held[i]? = some t) (howner : t.owner = some o) (hactive : s.activeNonce ≠ 0)
      (hnonce : t.nonce = s.activeNonce) (hactive' : s'.activeNonce = 0)
      (hnext : s'.nextNonce = s.nextNonce) (hcancel : s'.cancelled = s.cancelled) :
      Change w { w with
        objects := w.objects.set o s', held := w.held.set i t.finish
        finished := w.finished ++ [(o, t.nonce)] }

theorem change_of_toOption {x : Except Exn Holders} (h : ∀ w', x = .ok w' → Change w w') :
    Change w (x.toOption.getD w) := by
  cases x with
  | error e => exact .none
  | ok w' => exact h w' rfl

theorem onObject_change {call : ObjectCall} (ho : w.objects[o]? = some s)
    (h : w.onObject o s call = .ok w') : Change w w' := by
  cases call with
  | bind a rev p =>
    obtain ⟨s', hs', h⟩ := bind_ok h
    cases h
    obtain ⟨-, rfl⟩ := bindAcquisition_ok hs'
    exact .object ho rfl rfl id
  | advance tokens rev resident =>
    obtain ⟨s', hs', h⟩ := bind_ok h
    cases h
    obtain ⟨-, rfl⟩ := advanceForcedControl_ok hs'
    exact .object ho rfl rfl id
  | cancel =>
    cases h
    exact .object ho rfl rfl fun _ => rfl
  | begin p =>
    obtain ⟨r, hr, h⟩ := bind_ok h
    obtain ⟨-, hnext, rfl⟩ := begin_ok hr
    cases h
    exact .begin ho hnext rfl rfl rfl rfl rfl rfl

theorem transact_change {call : HolderCall} (ho : w.objects[o]? = some s) (hi : w.held[i]? = some t)
    (h : w.transact o i s t call = .ok w') : Change w w' := by
  cases call with
  | draw =>
    obtain ⟨r, hr, h⟩ := bind_ok h
    obtain ⟨-, -, rfl⟩ := draw_ok hr
    cases h
    exact .draw hi rfl rfl rfl
  | claim =>
    obtain ⟨t', ht', h⟩ := bind_ok h
    obtain ⟨howner, hcancel, rfl⟩ := claimPublication_ok ht'
    cases h
    exact .claim ho hi howner hcancel
  | commit draws p rev =>
    obtain ⟨r, hr, h⟩ := bind_ok h
    obtain ⟨howner, hactive, hnonce, -, -, rfl⟩ := commit_ok hr
    cases h
    exact .finish ho hi howner hactive hnonce rfl rfl rfl
  | rollback =>
    obtain ⟨r, hr, h⟩ := bind_ok h
    obtain ⟨howner, hactive, hnonce, rfl⟩ := rollback_ok hr
    cases h
    exact .finish ho hi howner hactive hnonce rfl rfl rfl

theorem step_change (w : Holders) (e : HolderEvent) : Change w (w.step e) := by
  cases e with simp only [step]
  | object o call =>
    split
    · rename_i s ho
      exact change_of_toOption fun w' h => onObject_change ho h
    · exact .none
  | copy i =>
    split
    · rename_i t hi
      exact .copy (mem_of_getElem? hi)
    · exact .none
  | call o i call =>
    split
    · rename_i s t ho hi
      exact change_of_toOption fun w' h => transact_change ho hi h
    · exact .none

/-- Nonces are used once; what is claimed in a transaction was claimed by a call. -/
structure Inv (w : Holders) : Prop where
  held : ∀ t ∈ w.held, ∀ o, t.owner = some o →
    (o, t.nonce) ∈ w.begun ∧ (t.publicationClaimed = true → (o, t.nonce) ∈ w.claimed)
  next : ∀ (o : Nat) (s : RequestState), w.objects[o]? = some s → s.nextNonce < 2 ^ 64 ∧
    ∀ n, (o, n) ∈ w.begun → n ≠ 0 ∧ (s.nextNonce = 0 ∨ n < s.nextNonce)
  finished : ∀ (o : Nat) (s : RequestState), w.objects[o]? = some s →
    ∀ n, (o, n) ∈ w.finished → (o, n) ∈ w.begun ∧ n ≠ s.activeNonce

namespace Inv

theorem heldInv {held : List Transaction} {begun claimed : List (Nat × Nat)} (h : Inv w)
    (hbegun : ∀ x ∈ w.begun, x ∈ begun) (hclaimed : ∀ x ∈ w.claimed, x ∈ claimed)
    (hheld : ∀ t ∈ held, t ∈ w.held ∨ ∀ o, t.owner = some o →
      (o, t.nonce) ∈ begun ∧ (t.publicationClaimed = true → (o, t.nonce) ∈ claimed)) :
    ∀ t ∈ held, ∀ o, t.owner = some o →
      (o, t.nonce) ∈ begun ∧ (t.publicationClaimed = true → (o, t.nonce) ∈ claimed) := by
  intro t ht o howner
  rcases hheld t ht with hold | hnew
  · obtain ⟨hb, hc⟩ := h.held t hold o howner
    exact ⟨hbegun _ hb, fun hclaim => hclaimed _ (hc hclaim)⟩
  · exact hnew o howner

theorem change (h : Inv w) (hchange : Change w w') : Inv w' := by
  cases hchange with
  | none => exact h
  | object ho hnext hactive hcancel =>
    refine ⟨h.held, fun j b hj => ?_, fun j b hj => ?_⟩
    · rcases getElem?_set_cases hj with ⟨rfl, rfl⟩ | ⟨-, hj⟩
      · rw [hnext]
        exact h.next j _ ho
      · exact h.next j b hj
    · rcases getElem?_set_cases hj with ⟨rfl, rfl⟩ | ⟨-, hj⟩
      · rw [hactive]
        exact h.finished j _ ho
      · exact h.finished j b hj
  | @begin o s s' t ho hnext howner hnonce hclaim hactive' hnext' hcancel =>
    obtain ⟨hlt, hnonces⟩ := h.next o s ho
    refine ⟨h.heldInv (fun x hx => mem_append_left _ hx) (fun _ hx => hx) fun t' ht' => ?_,
      fun j b hj => ?_, fun j b hj n hn => ?_⟩
    · rcases mem_append.mp ht' with hold | hnew
      · exact .inl hold
      · obtain rfl := mem_singleton.mp hnew
        refine .inr fun o' howner' => ⟨?_, fun hc => nomatch hclaim.symm.trans hc⟩
        obtain rfl := mem_unique howner howner'
        exact mem_append_right _ (mem_singleton_self _)
    · rcases getElem?_set_cases hj with ⟨rfl, rfl⟩ | ⟨hne, hj⟩
      · refine ⟨by omega, fun n hn => ?_⟩
        rcases mem_append.mp hn with hold | hnew
        · have := hnonces n hold
          omega
        obtain ⟨-, rfl⟩ := Prod.mk.inj (mem_singleton.mp hnew)
        omega
      · refine ⟨(h.next j b hj).1, fun n hn => ?_⟩
        rcases mem_append.mp hn with hold | hnew
        · exact (h.next j b hj).2 n hold
        obtain ⟨rfl, -⟩ := Prod.mk.inj (mem_singleton.mp hnew)
        exact absurd rfl hne
    · rcases getElem?_set_cases hj with ⟨rfl, rfl⟩ | ⟨-, hj⟩
      · -- the new nonce is above every one begun
        have hbegun := (h.finished j s ho n hn).1
        refine ⟨mem_append_left _ hbegun, ?_⟩
        have := hnonces n hbegun
        omega
      · exact ⟨mem_append_left _ (h.finished j b hj n hn).1, (h.finished j b hj n hn).2⟩
  | @copy t ht =>
    refine ⟨h.heldInv (fun _ hx => hx) (fun _ hx => hx) fun t' ht' => .inl ?_, h.next, h.finished⟩
    rcases mem_append.mp ht' with hold | hnew
    · exact hold
    obtain rfl := mem_singleton.mp hnew
    exact ht
  | @draw i t t' hi howner hnonce hclaim =>
    refine ⟨h.heldInv (fun _ hx => hx) (fun _ hx => hx) fun u hu => ?_, h.next, h.finished⟩
    rcases mem_or_eq_of_mem_set hu with hold | rfl
    · exact .inl hold
    refine .inr fun o ho => ?_
    rw [hnonce, hclaim]
    exact h.held t (mem_of_getElem? hi) o (howner ▸ ho)
  | @claim o i s t ho hi howner hcancel =>
    refine ⟨h.heldInv (fun _ hx => hx) (fun x hx => mem_append_left _ hx) fun u hu => ?_, h.next, h.finished⟩
    rcases mem_or_eq_of_mem_set hu with hold | rfl
    · exact .inl hold
    refine .inr fun o' ho' => ?_
    obtain rfl := mem_unique howner ho'
    exact ⟨(h.held t (mem_of_getElem? hi) o howner).1, fun _ => mem_append_right _ (mem_singleton_self _)⟩
  | @finish o i s s' t ho hi howner hactive hnonce hactive' hnext hcancel =>
    have hbegun := (h.held t (mem_of_getElem? hi) o howner).1
    refine ⟨h.heldInv (fun _ hx => hx) (fun _ hx => hx) fun u hu => ?_, fun j b hj => ?_, fun j b hj n hn => ?_⟩
    · rcases mem_or_eq_of_mem_set hu with hold | rfl
      · exact .inl hold
      · exact .inr fun o' ho' => absurd ho' (by simp [Transaction.finish])
    · rcases getElem?_set_cases hj with ⟨rfl, rfl⟩ | ⟨-, hj⟩
      · rw [hnext]
        exact h.next j s ho
      · exact h.next j b hj
    · rcases getElem?_set_cases hj with ⟨rfl, rfl⟩ | ⟨hne, hj⟩
      · have hin : (j, n) ∈ w.begun := by
          rcases mem_append.mp hn with hold | hnew
          · exact (h.finished j s ho n hold).1
          obtain ⟨-, rfl⟩ := Prod.mk.inj (mem_singleton.mp hnew)
          exact hbegun
        rw [hactive']
        exact ⟨hin, ((h.next j s ho).2 n hin).1⟩
      · rcases mem_append.mp hn with hold | hnew
        · exact h.finished j b hj n hold
        · obtain ⟨rfl, -⟩ := Prod.mk.inj (mem_singleton.mp hnew)
          exact absurd rfl hne

theorem start (ids : List Identity) : Inv { objects := ids.map fun id => { id } } := by
  refine ⟨fun t ht => by simp at ht, fun o s ho => ?_, fun o s _ n hn => by simp at hn⟩
  obtain ⟨id, -, rfl⟩ := List.mem_map.mp (mem_of_getElem? ho)
  exact ⟨by simp, fun n hn => by simp at hn⟩

end Inv

theorem run_inv (ids : List Identity) (events : List HolderEvent) : Inv (run ids events) :=
  List.foldlRecOn events step (Inv.start ids) fun w h e _ => h.change (w.step_change e)

theorem change_cancelled (hchange : Change w w') (ho : w.objects[o]? = some s) (hc : s.cancelled = true) :
    (∃ s', w'.objects[o]? = some s' ∧ s'.cancelled = true) ∧ ∀ n, (o, n) ∈ w'.claimed → (o, n) ∈ w.claimed := by
  have hset : ∀ j a b, w.objects[j]? = some a → (a.cancelled = true → b.cancelled = true) →
      ∃ s', (w.objects.set j b)[o]? = some s' ∧ s'.cancelled = true := by
    intro j a b hj hab
    by_cases hjo : j = o
    · subst hjo
      obtain rfl := mem_unique ho hj
      exact ⟨b, by simp [lt_of_getElem? ho], hab hc⟩
    · exact ⟨s, by rw [getElem?_set_ne hjo, ho], hc⟩
  cases hchange with
  | none => exact ⟨⟨s, ho, hc⟩, fun _ hn => hn⟩
  | object ho' hnext hactive hcancel => exact ⟨hset _ _ _ ho' hcancel, fun _ hn => hn⟩
  | begin ho' hnext howner hnonce hclaim hactive' hnext' hcancel =>
    exact ⟨hset _ _ _ ho' fun h => hcancel.trans h, fun _ hn => hn⟩
  | copy ht => exact ⟨⟨s, ho, hc⟩, fun _ hn => hn⟩
  | draw hi howner hnonce hclaim => exact ⟨⟨s, ho, hc⟩, fun _ hn => hn⟩
  | claim ho' hi howner hcancel =>
    refine ⟨⟨s, ho, hc⟩, fun n hn => ?_⟩
    rcases mem_append.mp hn with hold | hnew
    · exact hold
    obtain ⟨rfl, -⟩ := Prod.mk.inj (mem_singleton.mp hnew)
    obtain rfl := mem_unique ho ho'
    cases hc.symm.trans hcancel
  | finish ho' hi howner hactive hnonce hactive' hnext hcancel =>
    exact ⟨hset _ _ _ ho' fun h => hcancel.trans h, fun _ hn => hn⟩

theorem run_cancelled {ids : List Identity} {events : List HolderEvent} (later : List HolderEvent)
    (ho : (run ids events).objects[o]? = some s) (hc : s.cancelled = true) :
    (∃ s', (run ids (events ++ later)).objects[o]? = some s' ∧ s'.cancelled = true) ∧
      ∀ n, (o, n) ∈ (run ids (events ++ later)).claimed → (o, n) ∈ (run ids events).claimed := by
  induction later generalizing events s with
  | nil =>
    rw [append_nil]
    exact ⟨⟨s, ho, hc⟩, fun _ hn => hn⟩
  | cons e later ih =>
    have hstep : run ids (events ++ [e]) = (run ids events).step e := by
      rw [run, run, foldl_append]
      rfl
    obtain ⟨⟨s', ho', hc'⟩, hclaims⟩ := change_cancelled (step_change _ e) ho hc
    rw [← hstep] at ho' hclaims
    obtain ⟨hlast, hlater⟩ := ih ho' hc'
    rw [append_cons]
    exact ⟨hlast, fun n hn => hclaims n (hlater n hn)⟩

end Holders

end VoidInfer.Exl3.Sampling
