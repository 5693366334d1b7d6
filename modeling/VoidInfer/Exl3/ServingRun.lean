import VoidInfer.Exl3.ServingInv

/-
  Runs of the coordinator: any calls in any order, returning or throwing, with the log of what they published.
  `coordinator_run_invariant` are the books in every reachable state.

  `Change.entries` follows one entry through a commit: generation and acquisition never go back, root and mode change
  only with the generation, and the entry's tokens grow by exactly what is published for it. From it come the log
  (`publications_are_exact`) and the fact that a lease that stopped being current never is again.
-/

namespace VoidInfer.Exl3
open List

open Throwing Relation Exl3VeriCacheRequest

namespace ServingCoordinator

variable {R : Requests} {s : ServingCoordinator}

/-- The tokens a request stands for: its root's, and what it published in device mode. -/
def authority (R : Requests) (e : Entry) : List Int :=
  if e.deviceMode then (R e.root).history ++ e.deviceSuffix else (R e.root).history

/-- Everything published for a request. -/
def published (log : List LogRecord) (id : Nat) : List Int :=
  (log.filter (·.id = id)).flatMap (·.tokens)

theorem published_append (log log' : List LogRecord) (id : Nat) :
    published (log ++ log') id = published log id ++ published log' id := by
  simp [published]

theorem published_own (sequence id : Nat) (tokens : List Int) : published [⟨sequence, id, tokens⟩] id = tokens := by
  simp [published]

variable {id sequence i : Nat} {lease : DeviceLogicalLease}

theorem published_other {id' : Nat} (h : id' ≠ id) (tokens : List Int) :
    published [⟨sequence, id, tokens⟩] id' = [] := by
  simp [published, Ne.symm h]

theorem published_of_below {log : List LogRecord} (h : ∀ r ∈ log, r.id < id) : published log id = [] := by
  have hnil : log.filter (·.id = id) = [] := by
    refine filter_eq_nil_iff.mpr fun r hr => ?_
    have := h r hr
    simp only [decide_eq_true_eq]
    omega
  simp [published, hnil]

/-- `e'` is the same request at a later time. -/
structure Follows (e e' : Entry) : Prop where
  id : e'.id = e.id
  generation : e.generation ≤ e'.generation
  acquisition : e.acquisition ≤ e'.acquisition
  kept : e.generation = e'.generation → e'.root = e.root ∧ e'.deviceMode = e.deviceMode ∧
    e'.deviceOwner = e.deviceOwner ∧ e'.deviceInitialFrontier = e.deviceInitialFrontier ∧
    e'.deviceSuffix = e.deviceSuffix
  reacquired : e.active = false → e'.active = true → e.acquisition < e'.acquisition

theorem Follows.refl (e : Entry) : Follows e e :=
  ⟨rfl, le_rfl, le_rfl, fun _ => ⟨rfl, rfl, rfl, rfl, rfl⟩, fun h h' => nomatch h.symm.trans h'⟩

variable {e e' : Entry} {eff : Effects} {out : Outside} {c : Call}

theorem Follows.trans {e'' : Entry} (h : Follows e e') (h' : Follows e' e'') : Follows e e'' := by
  have hg := h.generation
  have hg' := h'.generation
  have ha := h.acquisition
  have ha' := h'.acquisition
  refine ⟨h'.id.trans h.id, by omega, by omega, fun heq => ?_, fun hidle hact => ?_⟩
  · obtain ⟨h1, h2, h3, h4, h5⟩ := h.kept (by omega)
    obtain ⟨h1', h2', h3', h4', h5'⟩ := h'.kept (by omega)
    exact ⟨h1'.trans h1, h2'.trans h2, h3'.trans h3, h4'.trans h4, h5'.trans h5⟩
  · cases hmid : e'.active with
    | true =>
      have := h.reacquired hidle hmid
      omega
    | false =>
      have := h'.reacquired hmid hact
      omega

theorem Follows.of_generation (hid : e'.id = e.id) (hg : e'.generation = e.generation + 1)
    (ha : e'.acquisition = e.acquisition) (hact : e'.active = e.active) : Follows e e' :=
  ⟨hid, by omega, by omega, fun h => absurd h (by omega), fun h h' => nomatch h.symm.trans (hact.symm.trans h')⟩

/-- Where an entry comes from: it was just admitted, or it follows an earlier entry and
    stands for what was published in between. -/
def ComesFrom (R : Requests) (s : ServingCoordinator) (eff : Effects) (e' : Entry) : Prop :=
  (e'.id = s.nextRequestId ∧ (e'.id, e'.root) ∈ eff.admitted ∧ eff.published = [] ∧
    authority R e' = (R e'.root).history) ∨
  ∃ e ∈ s.entries, Follows e e' ∧
    authority R e' = authority R e ++ published eff.published e'.id

theorem ComesFrom.same (he : e ∈ s.entries) (hpub : published eff.published e.id = []) : ComesFrom R s eff e := by
  refine .inr ⟨e, he, Follows.refl e, ?_⟩
  rw [hpub, append_nil]

theorem comesFrom_set (hat : s.entries[i]? = some e)
    (hothers : ∀ x ∈ s.entries.eraseIdx i, published eff.published x.id = [])
    (hnew : ComesFrom R s eff e') : ∀ x ∈ s.entries.set i e', ComesFrom R s eff x := by
  intro x hx
  rcases mem_cons.mp ((set_perm_cons hat e').mem_iff.mp hx) with rfl | hx
  · exact hnew
  · exact ComesFrom.same (mem_of_mem_eraseIdx hx) (hothers x hx)

theorem Inv.published_others (h : Inv R s) (hat : s.entries[i]? = some e) (tokens : List Int) :
    ∀ x ∈ s.entries.eraseIdx i, published [⟨sequence, e.id, tokens⟩] x.id = [] := by
  intro x hx
  refine published_other (fun heq => h.id_notMem hat ?_) tokens
  rw [← heq]
  exact List.mem_map_of_mem hx

theorem history_of_suffix (hR : Made R) {p c : Nat} {first : Int} (hp : RootValid R p)
    (hchild : (R c).isChildOf (R p)) (hfirst : first = (R p).position) {tokens : List Int}
    (hdrop : (R c).history.drop first.toNat = tokens) :
    (R c).history = (R p).history ++ tokens := by
  obtain ⟨rest, hrest⟩ := prefix_of_isChildOf hR hchild
  have hlen : first.toNat = (R p).history.length := by
    rw [hfirst, hp.position]
    simp
  rw [← hrest, hlen, drop_left] at hdrop
  rw [← hrest, hdrop]

/-- One commit, entry by entry. -/
theorem Change.entries (hR : Made R) {s s' : ServingCoordinator} (h : Inv R s)
    (hc : Change R s eff s') : ∀ e' ∈ s'.entries, ComesFrom R s eff e' := by
  cases hc with
  | reserved extent => exact fun e he => ComesFrom.same he rfl
  | @admitted root hv hroom hqueue hid =>
    intro x hx
    rcases mem_append.mp hx with hx | hx
    · exact ComesFrom.same hx rfl
    obtain rfl := mem_singleton.mp hx
    exact .inl ⟨rfl, mem_singleton.mpr rfl, rfl, rfl⟩
  | @acquired i e rest hat hq hidle hroom =>
    refine comesFrom_set hat (fun _ _ => rfl) (.inr ⟨e, mem_of_getElem? hat, ?_, ?_⟩)
    · exact ⟨rfl, le_rfl, Nat.le_succ _, fun _ => ⟨rfl, rfl, rfl, rfl, rfl⟩, fun _ _ => Nat.lt_succ_self _⟩
    · exact (append_nil _).symm
  | @yielded lease i e held =>
    refine comesFrom_set held.found (fun _ _ => rfl) (.inr ⟨e, mem_of_getElem? held.found, ?_, ?_⟩)
    · exact ⟨rfl, le_rfl, le_rfl, fun _ => ⟨rfl, rfl, rfl, rfl, rfl⟩, fun _ hact => nomatch hact⟩
    · exact (append_nil _).symm
  | @entered lease i e held owner capacity =>
    refine comesFrom_set held.found (fun _ _ => rfl)
      (.inr ⟨e, mem_of_getElem? held.found, Follows.of_generation rfl rfl rfl rfl, ?_⟩)
    show (R e.root).history ++ [] = authority R e ++ []
    rw [authority, held.host]
    rfl
  | @publishedDevice lease i e tokens held hroom =>
    refine comesFrom_set held.found (h.published_others held.found tokens)
      (.inr ⟨e, mem_of_getElem? held.found, Follows.of_generation rfl rfl rfl rfl, ?_⟩)
    simp only [authority, held.device, if_true, published_own, append_assoc]
  | @materialized lease i e c held hv hchild hid hpos hsuffix =>
    have hok := h.entry e (mem_of_getElem? held.found)
    refine comesFrom_set held.found (fun _ _ => rfl)
      (.inr ⟨e, mem_of_getElem? held.found, Follows.of_generation rfl rfl rfl rfl, ?_⟩)
    have hhist := history_of_suffix hR hok.valid hchild (hok.device held.device).2.2 hsuffix
    show (R c).history = authority R e ++ []
    rw [authority, if_pos held.device, append_nil]
    exact hhist
  | @published lease i e c tokens held hchild =>
    have hok := h.entry e (mem_of_getElem? held.found)
    refine comesFrom_set held.found (h.published_others held.found tokens)
      (.inr ⟨e, mem_of_getElem? held.found, Follows.of_generation rfl rfl rfl rfl, ?_⟩)
    have hhist := history_of_suffix hR hok.valid hchild.lineage rfl hchild.suffix
    simp only [authority, held.host, Bool.false_eq_true, if_false, published_own]
    exact hhist
  | @cancelledDevice lease i e held =>
    exact fun x hx => ComesFrom.same (mem_of_mem_eraseIdx hx) rfl
  | @cancelled i e hat => exact fun x hx => ComesFrom.same (mem_of_mem_eraseIdx hx) rfl
  | @completed lease i e held => exact fun x hx => ComesFrom.same (mem_of_mem_eraseIdx hx) rfl
  | @turnedOver lease i e c held hv hid =>
    exact comesFrom_set held.found (fun _ _ => rfl) (.inl ⟨rfl, mem_singleton.mpr rfl, rfl, rfl⟩)
  | cleared hactive => exact fun x hx => absurd hx (by simp [clearEntries])
  | flags closed allocating failed => exact fun e he => ComesFrom.same he rfl

theorem Change.admits {s s' : ServingCoordinator} (hc : Change R s eff s') :
    (eff.admitted = [] ∧ s'.nextRequestId = s.nextRequestId) ∨
    ∃ root, eff.admitted = [(s.nextRequestId, root)] ∧ s'.nextRequestId = s.nextRequestId + 1 := by
  cases hc with
  | @admitted root hv hroom hqueue hid => exact .inr ⟨root, rfl, rfl⟩
  | @turnedOver lease i e c held hv hid => exact .inr ⟨c, rfl, rfl⟩
  | _ => exact .inl ⟨rfl, rfl⟩

theorem Change.sequences {s s' : ServingCoordinator} (hc : Change R s eff s') :
    (eff.published = [] ∧ s.nextPublicationSequence ≤ s'.nextPublicationSequence) ∨
    ∃ e ∈ s.entries, ∃ tokens, eff.published = [⟨s.nextPublicationSequence, e.id, tokens⟩] ∧
      s'.nextPublicationSequence = s.nextPublicationSequence + 1 := by
  cases hc with
  | @publishedDevice lease i e tokens held hroom =>
    exact .inr ⟨e, mem_of_getElem? held.found, tokens, rfl, rfl⟩
  | @published lease i e c tokens held hchild =>
    exact .inr ⟨e, mem_of_getElem? held.found, tokens, rfl, rfl⟩
  | materialized => exact .inl ⟨rfl, Nat.le_succ _⟩
  | _ => exact .inl ⟨rfl, le_rfl⟩

/-- The later state's entries are new requests or the earlier ones, later. -/
structure Evolves (s s' : ServingCoordinator) : Prop where
  ids : s.nextRequestId ≤ s'.nextRequestId
  entries : ∀ e' ∈ s'.entries, s.nextRequestId ≤ e'.id ∨ ∃ e ∈ s.entries, Follows e e'

theorem Evolves.refl (s : ServingCoordinator) : Evolves s s :=
  ⟨le_rfl, fun e he => .inr ⟨e, he, Follows.refl e⟩⟩

theorem Evolves.trans {s s₁ s₂ : ServingCoordinator} (h : Evolves s s₁) (h' : Evolves s₁ s₂) : Evolves s s₂ := by
  refine ⟨Nat.le_trans h.ids h'.ids, fun e₂ he₂ => ?_⟩
  rcases h'.entries e₂ he₂ with hnew | ⟨e₁, he₁, hf₁⟩
  · exact .inl (Nat.le_trans h.ids hnew)
  rcases h.entries e₁ he₁ with hnew | ⟨e, he, hf⟩
  · exact .inl (by rw [hf₁.id]; exact hnew)
  · exact .inr ⟨e, he, hf.trans hf₁⟩

theorem Change.evolves (hR : Made R) {s s' : ServingCoordinator} (h : Inv R s)
    (hc : Change R s eff s') : Evolves s s' := by
  refine ⟨?_, fun e' he' => ?_⟩
  · rcases hc.admits with ⟨-, hnext⟩ | ⟨root, -, hnext⟩
    · exact Nat.le_of_eq hnext.symm
    · omega
  · rcases hc.entries hR h e' he' with ⟨hid, -⟩ | ⟨e, he, hf, -⟩
    · exact .inl (Nat.le_of_eq hid.symm)
    · exact .inr ⟨e, he, hf⟩

theorem Changes.evolves (hR : Made R) {s s' : ServingCoordinator} (h : Inv R s)
    (hc : Changes R s eff s') : Evolves s s' := by
  induction hc with
  | refl s => exact Evolves.refl s
  | step hc _ ih => exact (hc.evolves hR h).trans (ih (hc.inv h))

theorem Inv.entry_unique (h : Inv R s) (he : e ∈ s.entries) (he' : e' ∈ s.entries) (hid : e.id = e'.id) : e = e' :=
  inj_on_of_nodup_map h.ids he he' hid

/-! ## Leases -/

/-- The lease is current. -/
def HasLease (s : ServingCoordinator) (lease : Lease) : Prop := ∃ i e, s.HostHeld lease i e

/-- The device lease is current. -/
def HasDeviceLease (s : ServingCoordinator) (lease : DeviceLogicalLease) : Prop :=
  ∃ i e, s.DeviceHeld lease i e

/-- A request seen at three times, its id, generation and acquisition at the last as at the
    first: at the middle one it was active and is unchanged. -/
theorem Evolves.pinned {s s₁ s₂ : ServingCoordinator} (h : Inv R s) (h1 : Evolves s s₁)
    (h2 : Evolves s₁ s₂) {e₂ : Entry} (he : e ∈ s.entries) (he₂ : e₂ ∈ s₂.entries)
    (hid : e₂.id = e.id) (hgen : e₂.generation = e.generation)
    (hacq : e₂.acquisition = e.acquisition) (hact : e₂.active = true) :
    ∃ e₁ ∈ s₁.entries, e₁.id = e.id ∧ e₁.generation = e.generation ∧
      e₁.acquisition = e.acquisition ∧ e₁.active = true ∧ e₁.root = e.root ∧
      e₁.deviceMode = e.deviceMode ∧ e₁.deviceOwner = e.deviceOwner ∧
      e₁.deviceInitialFrontier = e.deviceInitialFrontier ∧ e₁.deviceSuffix = e.deviceSuffix := by
  have hold := h.below e he
  have hids := h1.ids
  obtain ⟨e₁, he₁, hf₁⟩ : ∃ e₁ ∈ s₁.entries, Follows e₁ e₂ := by
    rcases h2.entries e₂ he₂ with hnew | hf
    · omega
    · exact hf
  obtain ⟨e₀, he₀, hf₀⟩ : ∃ e₀ ∈ s.entries, Follows e₀ e₁ := by
    rcases h1.entries e₁ he₁ with hnew | hf
    · have := hf₁.id
      omega
    · exact hf
  have hid₁ := hf₁.id
  have hid₀ := hf₀.id
  obtain rfl := h.entry_unique he₀ he (by omega)
  have hg₀ := hf₀.generation
  have hg₁ := hf₁.generation
  have ha₀ := hf₀.acquisition
  have ha₁ := hf₁.acquisition
  refine ⟨e₁, he₁, hid₀, by omega, by omega, ?_, hf₀.kept (by omega)⟩
  -- had it been idle, it would have been acquired since
  by_contra hidle
  have := hf₁.reacquired (by simpa using hidle) hact
  omega

theorem Evolves.lease_lost {s s₁ s₂ : ServingCoordinator} (h : Inv R s) (h1 : Evolves s s₁)
    (h2 : Evolves s₁ s₂) {lease : Lease} (hhas : s.HasLease lease) (hlost : ¬ s₁.HasLease lease) :
    ¬ s₂.HasLease lease := by
  rintro ⟨j, e₂, held₂⟩
  obtain ⟨i, e, held⟩ := hhas
  obtain ⟨e₁, he₁, hid, hgen, hacq, hact, hroot, hmode, -⟩ := Evolves.pinned h h1 h2
    (mem_of_getElem? held.found) (mem_of_getElem? held₂.found)
    (held₂.id.trans held.id.symm) (held₂.generation.trans held.generation.symm)
    (held₂.acquisition.trans held.acquisition.symm) held₂.active
  obtain ⟨k, hk⟩ := mem_iff_getElem?.mp he₁
  apply hlost
  refine ⟨k, e₁, hk, hid.trans held.id, hmode.trans held.host, hact, hgen.trans held.generation,
    ?_, hacq.trans held.acquisition⟩
  rw [hroot]
  exact held.root

theorem Evolves.deviceLease_lost {s s₁ s₂ : ServingCoordinator} (h : Inv R s) (h1 : Evolves s s₁)
    (h2 : Evolves s₁ s₂) (hhas : s.HasDeviceLease lease) (hlost : ¬ s₁.HasDeviceLease lease) :
    ¬ s₂.HasDeviceLease lease := by
  rintro ⟨j, e₂, held₂⟩
  obtain ⟨i, e, held⟩ := hhas
  obtain ⟨e₁, he₁, hid, hgen, hacq, hact, hroot, hmode, howner, hfrontier, hsuffix⟩ :=
    Evolves.pinned h h1 h2 (mem_of_getElem? held.found) (mem_of_getElem? held₂.found)
      (held₂.id.trans held.id.symm) (held₂.generation.trans held.generation.symm)
      (held₂.acquisition.trans held.acquisition.symm) held₂.active
  obtain ⟨k, hk⟩ := mem_iff_getElem?.mp he₁
  apply hlost
  refine ⟨k, e₁, hk, hid.trans held.id, hmode.trans held.device, hact,
    hgen.trans held.generation, ?_, hacq.trans held.acquisition, ?_, ?_⟩
  · rw [hroot]
    exact held.root
  · rw [howner]
    exact held.owner
  · rw [hfrontier, hsuffix]
    exact held.frontier

/-- The calls that publish, yield or complete with a lease, or change its mode. -/
def Call.presents (lease : Lease) : Call → Prop
  | .yield l => l = lease
  | .yieldRetired l _ => l = lease
  | .enterDeviceLogical l _ _ _ _ => l = lease
  | .publishBatchInto leases _ _ _ => lease ∈ leases
  | .publishWindow l _ _ => l = lease
  | .complete l => l = lease
  | .completeRetired l _ => l = lease
  | .completeAndAdmit l _ => l = lease
  | _ => False

/-- The same for a device lease. -/
def Call.presentsDevice (lease : DeviceLogicalLease) : Call → Prop
  | .publishDeviceLogicalWindow l _ => l = lease
  | .materializeDeviceLogical l _ => l = lease
  | .cancelDeviceLogical l _ => l = lease
  | _ => False

/-- The call throws and leaves the coordinator as it was. -/
def Refused (R : Requests) (out : Outside) (c : Call) (s : ServingCoordinator) : Prop :=
  ∃ e, perform R out c s = .error e s

theorem refused_of_wp (h : wp (perform R out c) (fun _ _ => False) (fun _ s' => s' = s) s) : Refused R out c s := by
  cases hp : perform R out c s with
  | ok eff s' => exact (wp_ok h hp).elim
  | error e s' =>
    obtain rfl := wp_error h hp
    exact ⟨e, hp⟩

theorem refused_of_not_hasLease {lease : Lease}
    (hno : ¬ s.HasLease lease) (hc : c.presents lease) : Refused R out c s := by
  apply refused_of_wp
  cases c with simp only [perform, wp_bind]
  | yield l =>
    obtain rfl : l = lease := hc
    refine wp_imp wp_yield ?_
    rintro _ _ ⟨i, e, held, -⟩
    exact hno ⟨i, e, held⟩
  | yieldRetired l retirement =>
    obtain rfl : l = lease := hc
    simp only [yieldRetired, wp_bind]
    refine wp_ofExcept.mpr ⟨fun _ _ => ?_, fun _ _ => rfl⟩
    refine wp_imp wp_yield ?_
    rintro _ _ ⟨i, e, held, -⟩
    exact hno ⟨i, e, held⟩
  | enterDeviceLogical l owner frontier capacity maxContext =>
    obtain rfl : l = lease := hc
    refine wp_imp wp_enterDeviceLogical ?_
    rintro _ _ ⟨i, e, held, -⟩
    exact hno ⟨i, e, held⟩
  | publishBatchInto leases roots tokens outputs =>
    exact wp_imp wp_publishBatchInto fun _ _ h => hno (h.1 lease hc)
  | publishWindow l root tokens =>
    obtain rfl : l = lease := hc
    refine wp_imp wp_publishWindow ?_
    rintro _ _ ⟨i, e, -, held, -⟩
    exact hno ⟨i, e, held⟩
  | complete l =>
    obtain rfl : l = lease := hc
    refine wp_imp wp_complete ?_
    rintro _ _ ⟨i, e, held, -⟩
    exact hno ⟨i, e, held⟩
  | completeRetired l retirement =>
    obtain rfl : l = lease := hc
    simp only [completeRetired, wp_bind]
    refine wp_ofExcept.mpr ⟨fun _ _ => ?_, fun _ _ => rfl⟩
    refine wp_imp wp_complete ?_
    rintro _ _ ⟨i, e, held, -⟩
    exact hno ⟨i, e, held⟩
  | completeAndAdmit l root =>
    obtain rfl : l = lease := hc
    refine wp_imp wp_completeAndAdmit ?_
    rintro _ _ ⟨i, e, -, held, -⟩
    exact hno ⟨i, e, held⟩
  | _ => exact hc.elim

theorem refused_of_not_hasDeviceLease
    (hno : ¬ s.HasDeviceLease lease) (hc : c.presentsDevice lease) : Refused R out c s := by
  apply refused_of_wp
  cases c with simp only [perform, wp_bind]
  | publishDeviceLogicalWindow l tokens =>
    obtain rfl : l = lease := hc
    refine wp_imp wp_publishDeviceLogicalWindow ?_
    rintro _ _ ⟨i, e, held, -⟩
    exact hno ⟨i, e, held⟩
  | materializeDeviceLogical l child =>
    obtain rfl : l = lease := hc
    refine wp_imp wp_materializeDeviceLogical ?_
    rintro _ _ ⟨i, e, -, held, -⟩
    exact hno ⟨i, e, held⟩
  | cancelDeviceLogical l workerComplete =>
    obtain rfl : l = lease := hc
    refine wp_imp wp_cancelDeviceLogical ?_
    rintro _ _ ⟨i, e, held, -⟩
    exact hno ⟨i, e, held⟩
  | _ => exact hc.elim

/-! ## Runs -/

/-- The coordinator, what it has published in commit order, and the requests it admitted with the root each had then. -/
structure World where
  coordinator : ServingCoordinator
  log : List LogRecord := []
  admitted : List (Nat × Nat) := []

namespace World

/-- One call, or a change of the flags that startup and runtime allocation set. -/
inductive Step (R : Requests) : World → World → Prop
  | call {w : World} {c : Call} {s' : ServingCoordinator} {eff : Effects} (out : Outside)
      (h : perform R out c w.coordinator = .ok eff s') :
      Step R w { coordinator := s', log := w.log ++ eff.published
                 admitted := w.admitted ++ eff.admitted }
  | throws {w : World} {c : Call} {s' : ServingCoordinator} {e : Exn} (out : Outside)
      (h : perform R out c w.coordinator = .error e s') : Step R w { w with coordinator := s' }
  | environment {w : World} (allocating startupRetirementFailed : Bool) :
      Step R w { w with
        coordinator := { w.coordinator with allocating, startupRetirementFailed } }

/-- Any number of steps. -/
def Steps (R : Requests) : World → World → Prop := ReflTransGen (Step R)

/-- Reached from a new coordinator. -/
def Reachable (R : Requests) (w : World) : Prop :=
  ∃ policy s, make policy = .ok s ∧ Steps R { coordinator := s } w

variable {w w' : World}

theorem Step.of_perform (c : Call) (out : Outside) (eff : Effects)
    (h : perform R out c w.coordinator = .ok eff w'.coordinator)
    (hlog : w'.log = w.log ++ eff.published) (hadm : w'.admitted = w.admitted ++ eff.admitted) :
    Step R w w' := by
  have := Step.call out h
  rwa [← hlog, ← hadm] at this

theorem Step.changes (h : Step R w w') :
    ∃ eff, Changes R w.coordinator eff w'.coordinator ∧ w'.log = w.log ++ eff.published ∧
      w'.admitted = w.admitted ++ eff.admitted := by
  cases h with
  | call out h => exact ⟨_, wp_ok (perform_changes _) h, rfl, rfl⟩
  | throws out h =>
    have hc := wp_error (perform_changes _) h
    exact ⟨{}, hc, (append_nil _).symm, (append_nil _).symm⟩
  | environment allocating failed =>
    exact ⟨{}, (Change.flags w.coordinator.closed allocating failed).changes,
      (append_nil _).symm, (append_nil _).symm⟩

theorem Steps.inv (h : Inv R w.coordinator) (hs : Steps R w w') : Inv R w'.coordinator := by
  induction hs with
  | refl => exact h
  | tail _ hstep ih =>
    obtain ⟨eff, hc, -⟩ := hstep.changes
    exact hc.inv ih

theorem Steps.evolves (hR : Made R) (h : Inv R w.coordinator)
    (hs : Steps R w w') : Evolves w.coordinator w'.coordinator := by
  induction hs with
  | refl => exact Evolves.refl _
  | tail hs hstep ih =>
    obtain ⟨eff, hc, -⟩ := hstep.changes
    exact ih.trans (hc.evolves hR (Steps.inv h hs))

theorem Reachable.inv (hr : Reachable R w) : Inv R w.coordinator := by
  obtain ⟨policy, s, hmake, hs⟩ := hr
  exact Steps.inv (make_inv hmake) hs

/-- The books in every reachable state, whatever calls were made and whichever threw. -/
theorem coordinator_run_invariant {w : World} (hr : Reachable R w) :
    (w.coordinator.entries.map (·.id)).Nodup ∧
    (∀ e ∈ w.coordinator.entries, e.id < w.coordinator.nextRequestId) ∧
    w.coordinator.queue.Nodup ∧
    (∀ id, id ∈ w.coordinator.queue ↔ ∃ e ∈ w.coordinator.entries, e.active = false ∧ e.id = id) ∧
    w.coordinator.active = w.coordinator.entries.countP (·.active) ∧
    w.coordinator.active ≤ w.coordinator.policy.physicalCapacity ∧
    w.coordinator.entries.length ≤ w.coordinator.policy.logicalCapacity ∧
    (∀ e ∈ w.coordinator.entries, e.deviceMode = true →
      e.active = true ∧ e.deviceSuffix.length ≤ e.deviceCapacity) ∧
    (w.coordinator.modelIdentity = none ↔ w.coordinator.entries = []) ∧
    ∀ e ∈ w.coordinator.entries, w.coordinator.modelIdentity = some (R e.root).modelIdentity := by
  have h := hr.inv
  refine ⟨h.ids, h.below, ?_, fun id => ?_, h.active, h.physical, h.logical, fun e he hd => ?_,
    ⟨fun hnone => ?_, h.empty⟩, h.identity⟩
  · refine h.queue.nodup_iff.mpr (h.ids.sublist ?_)
    exact filter_sublist.map _
  · rw [h.queue.mem_iff, List.mem_map]
    simp only [mem_filter, Bool.not_eq_true', and_assoc]
  · obtain ⟨h1, h2, -⟩ := (h.entry e he).device hd
    exact ⟨h1, h2⟩
  · refine eq_nil_iff_forall_not_mem.mpr fun e he => ?_
    cases hnone.symm.trans (h.identity e he)

/-- A state at this position of model 3. -/
def sampleState (position : Int) : Option Exl3ExactHostState :=
  some { position, modelIdentity := 3, nativeExtentValid := fun _ => true }

/-- The prompt `[7]`, its child `[7, 8]`, and more prompts. -/
def sampleRequests : Requests
  | 1 => (initializeRoot 0 [7] (sampleState 1)).verify 1 [8] (sampleState 2)
  | r => initializeRoot r [7] (sampleState 1)

/-- The prompt admitted, acquired and published up to its child. -/
def sampleWorld : World :=
  { coordinator :=
      { policy := ⟨2, 1, 1, 2 ^ 30⟩
        entries := [{ id := 1, generation := 2, active := true, publications := 1, root := 1
                      acquisition := 1 }]
        queueCapacity := 1, modelIdentity := some 3, nextRequestId := 2
        nextPublicationSequence := 2, publications := 1, active := 1 }
    log := [⟨1, 1, [8]⟩]
    admitted := [(1, 0)] }

/-- The lease that `acquire` gave. -/
def sampleLease : Lease := { ticket := ⟨1, 1⟩, root := some 0, acquisition := 1 }

/-- The same world when the prompt was admitted, and when it was acquired. -/
def sampleAdmitted : World :=
  { coordinator :=
      { policy := ⟨2, 1, 1, 2 ^ 30⟩, entries := [{ id := 1, generation := 1, root := 0 }]
        queue := [1], queueCapacity := 1, modelIdentity := some 3, nextRequestId := 2 }
    admitted := [(1, 0)] }

def sampleAcquired : World :=
  { coordinator :=
      { policy := ⟨2, 1, 1, 2 ^ 30⟩
        entries := [{ id := 1, generation := 1, active := true, root := 0, acquisition := 1 }]
        queueCapacity := 1, modelIdentity := some 3, nextRequestId := 2, active := 1 }
    admitted := [(1, 0)] }

theorem sampleAcquired_reachable : Reachable sampleRequests sampleAcquired := by
  refine ⟨⟨2, 1, 1, 2 ^ 30⟩, { policy := ⟨2, 1, 1, 2 ^ 30⟩ }, rfl, ?_⟩
  have h1 : Step sampleRequests { coordinator := { policy := ⟨2, 1, 1, 2 ^ 30⟩ } } sampleAdmitted :=
    Step.of_perform (.admitOne (some 0)) {} { admitted := [(1, 0)] } rfl rfl rfl
  have h2 : Step sampleRequests sampleAdmitted sampleAcquired :=
    Step.of_perform .acquire {} {} rfl rfl rfl
  exact (ReflTransGen.single h1).tail h2

theorem sampleWorld_reachable : Reachable sampleRequests sampleWorld := by
  obtain ⟨policy, s, hmake, hs⟩ := sampleAcquired_reachable
  have h3 : Step sampleRequests sampleAcquired sampleWorld :=
    Step.of_perform (.publishWindow sampleLease (some 1) [8]) {} { published := [⟨1, 1, [8]⟩] }
      rfl rfl rfl
  exact ⟨policy, s, hmake, hs.tail h3⟩

theorem coordinator_run_invariant_sample :
    Reachable sampleRequests sampleWorld ∧
      sampleWorld.coordinator.active = sampleWorld.coordinator.entries.countP (·.active) :=
  ⟨sampleWorld_reachable, (coordinator_run_invariant sampleWorld_reachable).2.2.2.2.1⟩

/-! ## The log -/

/-- The log and the admissions, against the entries. -/
structure LogInv (R : Requests) (s : ServingCoordinator) (log : List LogRecord)
    (admitted : List (Nat × Nat)) : Prop where
  sequences : (log.map (·.sequence)).Pairwise (· < ·)
  below : ∀ r ∈ log, r.sequence < s.nextPublicationSequence ∧ r.id < s.nextRequestId
  admittedOnce : (admitted.map Prod.fst).Nodup
  admittedBelow : ∀ p ∈ admitted, p.1 < s.nextRequestId
  tokens : ∀ e ∈ s.entries, ∃ root, (e.id, root) ∈ admitted ∧
    authority R e = (R root).history ++ published log e.id

variable {log : List LogRecord} {admitted : List (Nat × Nat)}

theorem LogInv.change (hR : Made R) {s s' : ServingCoordinator}
     {eff : Effects} (h : Inv R s) (hl : LogInv R s log admitted)
    (hc : Change R s eff s') : LogInv R s' (log ++ eff.published) (admitted ++ eff.admitted) := by
  have hnext : s.nextRequestId ≤ s'.nextRequestId := (hc.evolves hR h).ids
  refine ⟨?_, fun r hr => ?_, ?_, fun p hp => ?_, fun e' he' => ?_⟩
  · rcases hc.sequences with ⟨hnil, -⟩ | ⟨e, -, tokens, hpub, -⟩
    · rw [hnil, append_nil]
      exact hl.sequences
    · rw [hpub, map_append]
      refine pairwise_append.mpr ⟨hl.sequences, by simp, fun a ha b hb => ?_⟩
      obtain ⟨r, hr, rfl⟩ := List.mem_map.mp ha
      obtain rfl : b = s.nextPublicationSequence := by simpa using hb
      exact (hl.below r hr).1
  · rcases hc.sequences with ⟨hnil, hseq⟩ | ⟨e, he, tokens, hpub, hseq⟩
    · rw [hnil, append_nil] at hr
      have := hl.below r hr
      exact ⟨by omega, by omega⟩
    · rw [hpub] at hr
      rcases mem_append.mp hr with hr | hr
      · have := hl.below r hr
        exact ⟨by omega, by omega⟩
      obtain rfl := mem_singleton.mp hr
      have := h.below e he
      exact ⟨by show s.nextPublicationSequence < _; omega, by show e.id < _; omega⟩
  · rcases hc.admits with ⟨hnil, -⟩ | ⟨root, hadm, -⟩
    · rw [hnil, append_nil]
      exact hl.admittedOnce
    · rw [hadm, map_append]
      refine nodup_append.mpr ⟨hl.admittedOnce, by simp, fun a ha b hb hab => ?_⟩
      obtain ⟨p, hp, rfl⟩ := List.mem_map.mp ha
      obtain rfl : b = s.nextRequestId := by simpa using hb
      exact absurd hab (Nat.ne_of_lt (hl.admittedBelow p hp))
  · rcases hc.admits with ⟨hnil, hid⟩ | ⟨root, hadm, hid⟩
    · rw [hnil, append_nil] at hp
      have := hl.admittedBelow p hp
      omega
    · rw [hadm] at hp
      rcases mem_append.mp hp with hp | hp
      · have := hl.admittedBelow p hp
        omega
      obtain rfl := mem_singleton.mp hp
      omega
  · rcases hc.entries hR h e' he' with ⟨hid, hadm, hnil, hauth⟩ | ⟨e, he, hf, hauth⟩
    · -- a new request: nothing was published under its id
      refine ⟨e'.root, mem_append_right _ hadm, ?_⟩
      have hnone : published log e'.id = [] := by
        rw [hid]
        exact published_of_below fun r hr => (hl.below r hr).2
      rw [hnil, append_nil, hnone, append_nil]
      exact hauth
    · obtain ⟨root, hmem, htokens⟩ := hl.tokens e he
      refine ⟨root, mem_append_left _ (by rw [hf.id]; exact hmem), ?_⟩
      rw [published_append, ← append_assoc, hauth, htokens, hf.id]

theorem LogInv.changes (hR : Made R) {s s' : ServingCoordinator} {eff : Effects}
    (hc : Changes R s eff s') (h : Inv R s) (hl : LogInv R s log admitted) :
    LogInv R s' (log ++ eff.published) (admitted ++ eff.admitted) := by
  induction hc generalizing log admitted with
  | refl s =>
    rw [append_nil, append_nil]
    exact hl
  | step hc _ ih =>
    have := ih (hc.inv h) (hl.change hR h hc)
    rwa [append_assoc, append_assoc] at this

theorem Reachable.logInv (hR : Made R) (hr : Reachable R w) : LogInv R w.coordinator w.log w.admitted := by
  obtain ⟨policy, s, hmake, hs⟩ := hr
  induction hs with
  | refl =>
    obtain ⟨_, -, hmake⟩ := bind_ok hmake
    cases hmake
    exact ⟨List.Pairwise.nil, by simp, nodup_nil, by simp, by simp⟩
  | tail hs hstep ih =>
    obtain ⟨eff, hc, hlog, hadm⟩ := hstep.changes
    rw [hlog, hadm]
    exact LogInv.changes hR hc (Steps.inv (make_inv hmake) hs) ih

/-- No publication is lost, doubled or late. What was published for a request, in sequence order, is what its authority
    has beyond the root it was admitted with; sequence numbers increase in commit order; and a lease that is not
    current, and one that was once lost at any later time, publishes, yields and completes nothing. -/
theorem publications_are_exact (hR : Made R) {w : World} (hr : Reachable R w) :
    (∀ e ∈ w.coordinator.entries, ∃ root, (e.id, root) ∈ w.admitted ∧ (R root).history <+: authority R e ∧
      published w.log e.id = (authority R e).drop (R root).history.length) ∧
    (w.admitted.map Prod.fst).Nodup ∧
    (w.log.map (·.sequence)).Pairwise (· < ·) ∧
    (∀ lease out c, c.presents lease → (¬ w.coordinator.HasLease lease → Refused R out c w.coordinator) ∧
      (w.coordinator.HasLease lease → ∀ w₁ w₂, Steps R w w₁ → Steps R w₁ w₂ →
        ¬ w₁.coordinator.HasLease lease → Refused R out c w₂.coordinator)) ∧
    ∀ lease out c, c.presentsDevice lease →
      (¬ w.coordinator.HasDeviceLease lease → Refused R out c w.coordinator) ∧
      (w.coordinator.HasDeviceLease lease → ∀ w₁ w₂, Steps R w w₁ → Steps R w₁ w₂ →
        ¬ w₁.coordinator.HasDeviceLease lease → Refused R out c w₂.coordinator) := by
  have h := hr.inv
  have hl := hr.logInv hR
  refine ⟨fun e he => ?_, hl.admittedOnce, hl.sequences, fun lease out c hc => ⟨fun hno => ?_,
    fun hhas w₁ w₂ h1 h2 hlost => ?_⟩, fun lease out c hc => ⟨fun hno => ?_,
    fun hhas w₁ w₂ h1 h2 hlost => ?_⟩⟩
  · obtain ⟨root, hmem, htokens⟩ := hl.tokens e he
    rw [htokens]
    exact ⟨root, hmem, prefix_append _ _, drop_left.symm⟩
  · exact refused_of_not_hasLease hno hc
  · have hlost₂ := Evolves.lease_lost h (Steps.evolves hR h h1)
      (Steps.evolves hR (Steps.inv h h1) h2) hhas hlost
    exact refused_of_not_hasLease hlost₂ hc
  · exact refused_of_not_hasDeviceLease hno hc
  · have hlost₂ := Evolves.deviceLease_lost h (Steps.evolves hR h h1)
      (Steps.evolves hR (Steps.inv h h1) h2) hhas hlost
    exact refused_of_not_hasDeviceLease hlost₂ hc

theorem sampleRequests_made : Made sampleRequests := by
  have hfresh : ∀ r, r ≠ 1 → FreshRevision sampleRequests r r := by
    intro r _ q hq
    have hrev : (sampleRequests q).revision = q := by
      unfold sampleRequests
      split <;> rfl
    omega
  intro r
  match r with
  | 0 => exact Factory.initializeRoot [7] _ (hfresh 0 (by decide)) rfl
  | 1 =>
    refine Factory.verify (p := 0) (by decide) [8] _ (fun q hq => ?_) rfl
    obtain rfl : q = 0 := by omega
    exact Nat.zero_ne_one
  | r + 2 => exact Factory.initializeRoot [7] _ (hfresh _ (by omega)) rfl

theorem publications_are_exact_sample :
    Made sampleRequests ∧ Reachable sampleRequests sampleWorld ∧
      (sampleWorld.log.map (·.sequence)).Pairwise (· < ·) ∧
      Refused sampleRequests {} (.publishWindow sampleLease (some 1) [8]) sampleWorld.coordinator := by
  have h := publications_are_exact sampleRequests_made sampleWorld_reachable
  refine ⟨sampleRequests_made, sampleWorld_reachable, h.2.2.1, ?_⟩
  refine (h.2.2.2.1 sampleLease {} (.publishWindow sampleLease _ [8]) rfl).1 ?_
  rintro ⟨i, e, held⟩
  have hmem := mem_of_getElem? held.found
  obtain rfl := mem_singleton.mp hmem
  cases held.generation

end World
end ServingCoordinator
end VoidInfer.Exl3
