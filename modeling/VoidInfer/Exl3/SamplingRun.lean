import Mathlib.Data.List.Induction
import VoidInfer.Exl3.SamplingWindow

/-
  What sampling depends on. `sampling_by_published`: in every run of windows the committed counter is the number of
  draws of the published tokens, and the values a window offers are given by that number at its opening, whatever was
  drawn and rolled back before. Every run of windows is one of code that holds their transactions, and there a commit
  succeeds only for a transaction of that object that no commit or rollback has finished, after `cancel()` only if it
  was claimed before. A copy of a current transaction can commit too (`copied_commit`); then no other copy can.
-/

namespace VoidInfer.Exl3.Sampling
open List Holders

open Throwing Window

variable {o i : Nat} {s : RequestState} {t : Transaction} {id : Identity} {σ σ' : Session} {w : Window}

/-! ## Every run of windows -/

namespace Windows

variable {v : Windows}

/-- The object, and all its windows: at most one is live. -/
structure Inv (id : Identity) (v : Windows) : Prop where
  window : ∀ w ∈ v.windows, SessionOk id ⟨v.state, w, v.published⟩
  identity : v.state.id = id
  counter : v.state.committedCounter = v.published.sum
  bounded : v.published.sum ≤ uint64Max
  draws : ∀ d ∈ v.published, d = 2 ∨ d = 3
  one : ∀ (i j : Nat) (w w' : Window), v.windows[i]? = some w → v.windows[j]? = some w' →
    w.Live → w'.Live → i = j

namespace Inv

section
variable (h : Inv id v)
include h

theorem quiet (hactive : v.state.activeNonce = 0) : ∀ w ∈ v.windows, ¬ w.Live :=
  fun w hw hlive => ((h.window w hw).live hlive).1.active hactive

theorem setState (hquiet : ∀ w ∈ v.windows, ¬ w.Live) (hid : s.id = v.state.id)
    (hcounter : s.committedCounter = v.state.committedCounter) : Inv id { v with state := s } := by
  refine ⟨fun w hw => ⟨hid.trans h.identity, hcounter.trans h.counter, h.bounded, h.draws, ?_,
    fun hlive => absurd hlive (hquiet w hw)⟩, hid.trans h.identity, hcounter.trans h.counter,
    h.bounded, h.draws, h.one⟩
  intro n place value hin
  rw [hid]
  exact (h.window w hw).offered n place value hin

theorem cancel : Inv id { v with state := { v.state with cancelled := true } } := by
  refine ⟨fun w hw => ?_, h.identity, h.counter, h.bounded, h.draws, h.one⟩
  refine ⟨h.identity, h.counter, h.bounded, h.draws, (h.window w hw).offered, fun hlive => ?_⟩
  obtain ⟨hc, -⟩ := (h.window w hw).live hlive
  exact ⟨⟨hc.owner, hc.active, hc.nonce, hc.acquisition, hc.revision, hc.opened, hc.room, hc.fits,
    hc.draws, hc.order⟩, fun hstuck => absurd (.inl rfl) hstuck⟩

theorem make {v' : Windows} {p m : Nat} (hmake : v.make p m = .ok v') : Inv id v' := by
  obtain ⟨u, hprepare, hmake⟩ := bind_ok hmake
  obtain ⟨r, hr, hmake⟩ := bind_ok hmake
  obtain ⟨hactive, hnext, rfl⟩ := begin_ok hr
  cases hmake
  obtain ⟨u', -, hfits⟩ := bind_ok hprepare
  have hfits := not_lt.mp (throwIf_ok.mp hfits)
  have hquiet := h.quiet hactive
  have hold := h.setState (s := { v.state with
    activeNonce := v.state.nextNonce, nextNonce := (v.state.nextNonce + 1) % 2 ^ 64 }) hquiet rfl rfl
  refine ⟨fun w hw => ?_, h.identity, h.counter, h.bounded, h.draws, fun i j w w' hi hj hl hl' => ?_⟩
  · rcases mem_append.mp hw with hw | hw
    · exact hold.window w hw
    · obtain rfl := mem_singleton.mp hw
      refine ⟨h.identity, h.counter, h.bounded, h.draws, fun n place value hin => ?_, fun _ =>
        ⟨⟨rfl, hnext, rfl, rfl, rfl, rfl, Nat.zero_le _, hfits, fun d hd => ?_, fun ha => ?_⟩, fun _ _ => ?_⟩⟩
      · simp at hin
      · simp at hd
      · simp at ha
      · simpa [pending] using h.counter
  · -- the new window is the only live one
    have hlast : ∀ new k x, (v.windows ++ [new])[k]? = some x → x.Live → k = v.windows.length := by
      intro new k x hk hx
      by_contra hne
      have hlt : k < v.windows.length := by
        have := lt_of_getElem? hk
        simp at this
        omega
      rw [getElem?_append_left hlt] at hk
      exact hquiet x (mem_of_getElem? hk) hx
    exact (hlast _ i w hi hl).trans (hlast _ j w' hj hl').symm

theorem setSession (hi : v.windows[i]? = some w) (hσ : SessionOk id σ)
    (hothers : w.Live ∨ σ.state = v.state ∧ σ.published = v.published)
    (hlive : σ.window.Live → w.Live) : Inv id ⟨σ.state, v.windows.set i σ.window, σ.published⟩ := by
  refine ⟨fun x hx => ?_, hσ.identity, hσ.counter, hσ.bounded, hσ.draws, fun j k x y hj hk hx hy => ?_⟩
  · obtain ⟨j, hj⟩ := mem_iff_getElem?.mp hx
    rcases ListUpdate.getElem?_set_cases hj with ⟨-, rfl⟩ | ⟨hji, hj⟩
    · exact hσ
    have hold := h.window x (mem_of_getElem? hj)
    refine ⟨hσ.identity, hσ.counter, hσ.bounded, hσ.draws, fun n place value hin => ?_, fun hx => ?_⟩
    · have hv := hold.offered n place value hin
      rw [hold.identity] at hv
      rw [hσ.identity]
      exact hv
    · rcases hothers with hw | ⟨hs, hp⟩
      · exact absurd (h.one j i x w hj hi hx hw) hji
      · rw [hs, hp]
        exact hold.live hx
  · have hwas : ∀ (k : Nat) z, (v.windows.set i σ.window)[k]? = some z → z.Live →
        ∃ z', v.windows[k]? = some z' ∧ z'.Live := by
      intro k z hk hz
      rcases ListUpdate.getElem?_set_cases hk with ⟨rfl, rfl⟩ | ⟨-, hk⟩
      · exact ⟨w, hi, hlive hz⟩
      · exact ⟨z, hk, hz⟩
    obtain ⟨x', hj', hx'⟩ := hwas j x hj hx
    obtain ⟨y', hk', hy'⟩ := hwas k y hk hy
    exact h.one j k x' y' hj' hk' hx' hy'

theorem call (hi : v.windows[i]? = some w) (hd : w.destroyed = false) (c : WindowCall) : Inv id (v.call i w c) := by
  have hok := (h.window w (mem_of_getElem? hi)).call hd c
  have hboth : ∀ σ, (∃ u, c.run 0 ⟨v.state, w, v.published⟩ = .ok u σ) ∨
      (∃ e, c.run 0 ⟨v.state, w, v.published⟩ = .error e σ) →
      Inv id ⟨σ.state, v.windows.set i σ.window, σ.published⟩ := by
    intro σ hrun
    have hσ : SessionOk id σ := wp_final hok hrun
    by_cases hactive : w.active = true
    · exact h.setSession hi hσ (.inl ⟨hactive, hd⟩) fun _ => ⟨hactive, hd⟩
    have hoff : (⟨v.state, w, v.published⟩ : Session).window.active = false := by
      simpa using hactive
    have hidle := idle_call hoff c
    have hid : Idle ⟨v.state, w, v.published⟩ σ := wp_final hidle hrun
    exact h.setSession hi hσ (.inr ⟨hid.state, hid.published⟩) fun hl =>
      nomatch hid.active.symm.trans hl.1
  unfold Windows.call
  split
  · rename_i u σ hu
    exact hboth σ (.inl ⟨u, hu⟩)
  rename_i e σ he
  exact hboth σ (.inr ⟨e, he⟩)

theorem step (e : WindowEvent) : Inv id (v.step e) := by
  cases e with simp only [Windows.step]
  | bind a rev p =>
    split
    · rename_i s hs
      obtain ⟨hactive, rfl⟩ := bindAcquisition_ok hs
      exact h.setState (h.quiet hactive) rfl rfl
    · exact h
  | advance tokens rev resident =>
    split
    · rename_i s hs
      obtain ⟨hactive, rfl⟩ := advanceForcedControl_ok hs
      exact h.setState (h.quiet hactive) rfl rfl
    · exact h
  | cancel => exact h.cancel
  | make p m =>
    cases hmake : v.make p m with
    | error e => exact h
    | ok v' => exact h.make hmake
  | call i c =>
    split
    · rename_i w hi
      split
      · exact h
      rename_i hd
      exact h.call hi (by simpa using hd) c
    · exact h

end

theorem start (id : Identity) : Inv id { state := { id } } :=
  ⟨fun w hw => by simp at hw, rfl, rfl, Nat.zero_le _, fun d hd => by simp at hd, fun i j w w' hi => by simp at hi⟩

end Inv

theorem run_inv (id : Identity) (events : List WindowEvent) : Inv id (run id events) :=
  List.foldlRecOn events step (Inv.start id) fun _ h e _ => h.step e

end Windows

/-! ## Windows hold transactions -/

/-- From `σ` to `σ'` the object was called at most once, with the window's transaction. -/
def Follows (σ σ' : Session) : Prop :=
  (σ'.state = σ.state ∧ σ'.window.transaction = σ.window.transaction) ∨
    ∃ c : HolderCall, ∀ (h : Holders) (i : Nat), h.objects = [σ.state] →
      ∃ h', h.transact 0 i σ.state σ.window.transaction c = .ok h' ∧
        h'.objects = [σ'.state] ∧ h'.held = h.held.set i σ'.window.transaction

namespace Follows

theorem refl (σ : Session) : Follows σ σ := .inl ⟨rfl, rfl⟩

variable {σ₀ : Session}

section
variable (hs : σ.state = σ₀.state) (ht : σ.window.transaction = σ₀.window.transaction)
include hs ht

theorem draw {place : Nat} {Q : UInt64 → Session → Prop} (hQ : ∀ value σ', Follows σ₀ σ' → Q value σ') :
    wp (Window.draw 0 place) Q (fun _ => Follows σ₀) σ := by
  simp only [Window.draw, wp_bind, wp_get]
  refine wp_ofExcept.mpr ⟨fun r hr => ?_, fun _ _ => .inl ⟨hs, ht⟩⟩
  refine hQ _ _ (.inr ⟨.draw, fun h i ho => ?_⟩)
  rw [hs, ht] at hr
  exact ⟨{ h with held := h.held.set i r.2 }, by simp only [transact, hr]; rfl, by rw [ho, hs], rfl⟩

theorem rollbackState {Q : Session → Prop} (hQ : ∀ σ', Follows σ₀ σ' → Q σ') :
    wp (Window.rollbackState 0) (fun _ => Q) (fun _ => Follows σ₀) σ := by
  simp only [Window.rollbackState, wp_bind, wp_get]
  refine wp_ofExcept.mpr ⟨fun r hr => ?_, fun _ _ => .inl ⟨hs, ht⟩⟩
  refine hQ _ (.inr ⟨.rollback, fun h i ho => ?_⟩)
  rw [hs, ht] at hr
  refine ⟨{ h with
    objects := h.objects.set 0 r.2, held := h.held.set i r.1
    finished := h.finished ++ [(0, σ₀.window.transaction.nonce)] },
    by simp only [transact, hr]; rfl, by simp [ho], rfl⟩

end

theorem call (σ : Session) (c : WindowCall) : wp (c.run 0) (fun _ => Follows σ) (fun _ => Follows σ) σ := by
  have hrefl := refl σ
  cases c with
  | drawProposal =>
    refine wp_discard ?_
    simp only [Window.drawProposal, wp_bind]
    refine wp_requireOpen hrefl fun _ _ => ?_
    refine wp_require hrefl fun _ => ?_
    exact draw rfl rfl fun _ _ h => h
  | drawAcceptance =>
    refine wp_discard ?_
    simp only [Window.drawAcceptance, wp_bind]
    refine wp_requireOpen hrefl fun _ _ => ?_
    refine wp_require hrefl fun _ => ?_
    exact draw rfl rfl fun _ _ h => h
  | acceptProposal =>
    simp only [WindowCall.run, Window.acceptProposal, wp_bind]
    refine wp_requirePending hrefl fun _ _ _ => ?_
    exact .inl ⟨rfl, rfl⟩
  | rejectAndDrawCorrection =>
    refine wp_discard ?_
    simp only [Window.rejectAndDrawCorrection, wp_bind]
    refine wp_requirePending hrefl fun _ _ _ => ?_
    refine draw rfl rfl fun value σ' h => ?_
    exact h
  | sealStopBoundary =>
    simp only [WindowCall.run, Window.sealStopBoundary, wp_bind]
    refine wp_requireOpen hrefl fun _ _ => ?_
    refine wp_require hrefl fun _ => ?_
    exact .inl ⟨rfl, rfl⟩
  | claimPublication =>
    simp only [WindowCall.run, Window.claimPublication, wp_bind]
    refine wp_requireActive hrefl fun _ => ?_
    refine wp_require hrefl fun _ => wp_ofExcept.mpr ⟨fun t ht => ?_, fun _ _ => hrefl⟩
    refine .inr ⟨.claim, fun h i ho => ⟨{ h with
      held := h.held.set i t, claimed := h.claimed ++ [(0, σ.window.transaction.nonce)] },
      by simp only [transact, ht]; rfl, ho, rfl⟩⟩
  | commit n rev =>
    simp only [WindowCall.run, Window.commit, wp_bind]
    refine wp_requireActive hrefl fun _ => ?_
    refine wp_require hrefl fun _ => wp_ofExcept.mpr ⟨fun r hr => ?_, fun _ _ => hrefl⟩
    refine .inr ⟨.commit ((σ.window.decisions.take n).sum % 2 ^ 64) (σ.window.acceptedPrefix + n) rev,
      fun h i ho => ⟨{ h with
        objects := h.objects.set 0 r.2, held := h.held.set i r.1
        finished := h.finished ++ [(0, σ.window.transaction.nonce)] },
        by simp only [transact, hr]; rfl, by simp [ho], rfl⟩⟩
  | rollback =>
    simp only [WindowCall.run, Window.rollback, wp_bind]
    refine wp_requireActive hrefl fun _ => ?_
    exact rollbackState rfl rfl fun _ h => h
  | destroy =>
    simp only [WindowCall.run, Window.destroy, wp_bind, wp_get]
    split
    · simp only [wp_bind, wp_tryCatch]
      refine wp_mono (rollbackState (Q := Follows σ) rfl rfl fun _ h => h) (fun _ σ' h => ?_) (fun _ σ' h => ?_)
      · exact h
      exact h
    exact .inl ⟨rfl, rfl⟩

end Follows

/-- The object and the transactions of the windows. -/
def Holds (v : Windows) (h : Holders) : Prop :=
  h.objects = [v.state] ∧ h.held = v.windows.map Window.transaction

namespace Holds

variable {v : Windows} {h : Holders}

theorem step (hv : Holds v h) (e : WindowEvent) : ∃ e', Holds (v.step e) (h.step e') := by
  obtain ⟨ho, hheld⟩ := hv
  have hsome : h.objects[0]? = some v.state := by rw [ho]; rfl
  -- calls that change nothing are copies of no transaction
  have hnone : Holds v (h.step (.copy h.held.length)) := by
    simp only [Holders.step, getElem?_eq_none le_rfl]
    exact ⟨ho, hheld⟩
  cases e with simp only [Windows.step]
  | bind a rev p =>
    split
    · rename_i s hs
      refine ⟨.object 0 (.bind a rev p), ?_⟩
      simp only [Holders.step, hsome, Holders.onObject, hs]
      exact ⟨by rw [ho]; rfl, hheld⟩
    · exact ⟨_, hnone⟩
  | advance tokens rev resident =>
    split
    · rename_i s hs
      refine ⟨.object 0 (.advance tokens rev resident), ?_⟩
      simp only [Holders.step, hsome, Holders.onObject, hs]
      exact ⟨by rw [ho]; rfl, hheld⟩
    · exact ⟨_, hnone⟩
  | cancel =>
    refine ⟨.object 0 .cancel, ?_⟩
    simp only [Holders.step, hsome, Holders.onObject]
    exact ⟨by rw [ho]; rfl, hheld⟩
  | make p m =>
    cases hmake : v.make p m with
    | error e => exact ⟨_, hnone⟩
    | ok v' =>
      obtain ⟨u, -, hmake⟩ := bind_ok hmake
      obtain ⟨r, hr, hmake⟩ := bind_ok hmake
      cases hmake
      refine ⟨.object 0 (.begin p), ?_⟩
      simp only [Holders.step, hsome, Holders.onObject, hr]
      refine ⟨by rw [ho]; rfl, ?_⟩
      show h.held ++ [r.1] = (v.windows ++ [_]).map Window.transaction
      rw [hheld, map_append]
      rfl
  | call i c =>
    split
    · rename_i w hi
      split
      · exact ⟨_, hnone⟩
      have hheldi : h.held[i]? = some w.transaction := by
        rw [hheld, getElem?_map, hi]
        rfl
      -- the window's call, whichever way it ended
      have hboth : ∀ σ, Follows ⟨v.state, w, v.published⟩ σ →
          ∃ e', Holds ⟨σ.state, v.windows.set i σ.window, σ.published⟩ (h.step e') := by
        intro σ hσ
        rcases hσ with ⟨hs, ht⟩ | ⟨call, hcall⟩
        · refine ⟨.copy h.held.length, ?_⟩
          simp only [Holders.step, getElem?_eq_none le_rfl]
          refine ⟨by rw [ho, hs], ?_⟩
          obtain ⟨hlt, heq⟩ := List.getElem?_eq_some_iff.mp hheldi
          rw [map_set, ht, ← hheld]
          rw [← heq, set_getElem_self]
        obtain ⟨h', hok, ho', hheld'⟩ := hcall h i ho
        refine ⟨.call 0 i call, ?_⟩
        simp only [Holders.step, hsome, hheldi, hok]
        refine ⟨ho', ?_⟩
        show h'.held = _
        rw [hheld', hheld, map_set]
      unfold Windows.call
      have hfollows := Follows.call ⟨v.state, w, v.published⟩ c
      split
      · rename_i u σ hu
        exact hboth σ (wp_final hfollows (.inl ⟨u, hu⟩))
      rename_i e σ he
      exact hboth σ (wp_final hfollows (.inr ⟨e, he⟩))
    · exact ⟨_, hnone⟩

end Holds

theorem windows_hold (id : Identity) (events : List WindowEvent) :
    ∃ events', Holds (Windows.run id events) (run [id] events') := by
  induction events using List.reverseRecOn with
  | nil => exact ⟨[], rfl, rfl⟩
  | append_singleton events e ih =>
    obtain ⟨events', hholds⟩ := ih
    obtain ⟨e', he'⟩ := hholds.step e
    refine ⟨events' ++ [e'], ?_⟩
    rw [Windows.run, run, foldl_append, foldl_append]
    exact he'

/-! ## Results -/

/-- A commit succeeds for a transaction of this object that nothing has finished, and finishes it;
    if the object was cancelled after `events`, it was claimed by then. -/
theorem committed_once {ids : List Identity} {events later : List HolderEvent} {draws p : Nat}
    {rev : Revision} {r : Transaction × RequestState}
    (ho : (run ids (events ++ later)).objects[o]? = some s)
    (hi : (run ids (events ++ later)).held[i]? = some t)
    (hcommit : s.commit o t draws p rev = .ok r) :
    t.owner = some o ∧ (o, t.nonce) ∈ (run ids (events ++ later)).begun ∧
    (o, t.nonce) ∉ (run ids (events ++ later)).finished ∧
    (o, t.nonce) ∈ ((run ids (events ++ later)).step (.call o i (.commit draws p rev))).finished ∧
    ∀ s₀, (run ids events).objects[o]? = some s₀ → s₀.cancelled = true → (o, t.nonce) ∈ (run ids events).claimed := by
  have h := Holders.run_inv ids (events ++ later)
  obtain ⟨howner, -, hnonce, hclaim, -, -⟩ := commit_ok hcommit
  obtain ⟨hbegun, hclaimed⟩ := h.held t (mem_of_getElem? hi) o howner
  refine ⟨howner, hbegun, fun hin => (h.finished o s ho _ hin).2 hnonce, ?_, fun s₀ ho₀ hc => ?_⟩
  · simp only [step, ho, hi, transact, hcommit]
    exact mem_append_right _ (mem_singleton_self _)
  · exact (run_cancelled later ho₀ hc).2 _ (hclaimed hclaim)

theorem offered_value {id : Identity} {events : List WindowEvent} {w : Window} {n place : Nat}
    {value : UInt64} (hw : w ∈ (Windows.run id events).windows) (hin : (n, place, value) ∈ w.offered) :
    value = id.value (w.openedAfter.sum + 2 * n + place) := by
  have hok := (Windows.run_inv id events).window w hw
  have hv := hok.offered n place value hin
  rw [hok.identity] at hv
  exact hv

theorem sampling_by_published :
    (∀ (id : Identity) (events : List WindowEvent),
      (Windows.run id events).state.committedCounter = (Windows.run id events).published.sum ∧
      ∀ d ∈ (Windows.run id events).published, d = 2 ∨ d = 3) ∧
    (∀ (id id' : Identity) (events events' : List WindowEvent) (w w' : Window) (n place : Nat)
      (value value' : UInt64), id.seed = id'.seed → id.inputFingerprint = id'.inputFingerprint →
      id.requestGeneration = id'.requestGeneration → w ∈ (Windows.run id events).windows →
      w' ∈ (Windows.run id' events').windows → w.openedAfter.sum = w'.openedAfter.sum →
      (n, place, value) ∈ w.offered → (n, place, value') ∈ w'.offered → value = value') ∧
    (∀ (id : Identity) (events : List WindowEvent),
      ∃ events', Holds (Windows.run id events) (Holders.run [id] events')) ∧
    ∀ (ids : List Identity) (events later : List HolderEvent) (o i draws p : Nat) (rev : Revision)
      (s : RequestState) (t : Transaction) (r : Transaction × RequestState),
      (Holders.run ids (events ++ later)).objects[o]? = some s →
      (Holders.run ids (events ++ later)).held[i]? = some t → s.commit o t draws p rev = .ok r →
      t.owner = some o ∧ (o, t.nonce) ∈ (Holders.run ids (events ++ later)).begun ∧
      (o, t.nonce) ∉ (Holders.run ids (events ++ later)).finished ∧
      (o, t.nonce) ∈
        ((Holders.run ids (events ++ later)).step (.call o i (.commit draws p rev))).finished ∧
      ∀ s₀, (Holders.run ids events).objects[o]? = some s₀ → s₀.cancelled = true →
        (o, t.nonce) ∈ (Holders.run ids events).claimed := by
  refine ⟨fun id events => ?_, fun id id' events events' w w' n place value value' hseed hprint
    hgeneration hw hw' hsum hin hin' => ?_, windows_hold,
    fun ids events later o i draws p rev s t r ho hi hcommit => committed_once ho hi hcommit⟩
  · exact ⟨(Windows.run_inv id events).counter, (Windows.run_inv id events).draws⟩
  · rw [offered_value hw hin, offered_value hw' hin', hsum, Identity.value, Identity.value, hseed,
      hprint, hgeneration]

/-- A transaction is begun and copied, and the copy is claimed. -/
def copyEvents : List HolderEvent :=
  [.object 0 (.bind 41 ⟨1, 1⟩ 64), .object 0 (.begin 64), .copy 0, .call 0 1 .claim]

/-- The copy commits. -/
theorem copied_commit :
    ((Holders.run [⟨11, 7, 0xabc, 123, by decide⟩] copyEvents).held.map Transaction.owner =
      [some 0, some 0]) ∧
    (Holders.run [⟨11, 7, 0xabc, 123, by decide⟩] copyEvents).finished = [] ∧
    (Holders.run [⟨11, 7, 0xabc, 123, by decide⟩]
      (copyEvents ++ [.call 0 1 (.commit 0 64 ⟨2, 2⟩)])).finished = [(0, 1)] := by
  refine ⟨?_, ?_, ?_⟩
  all_goals decide +kernel

end VoidInfer.Exl3.Sampling
