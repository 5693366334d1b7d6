import VoidInfer.Exl3.PrefixIndexLookup

/-
  The two classes of the prefix index. Conversation roots and shared roots have bounds of their own, and conversation
  turnover leaves the shared roots alone, as long as no conversation root takes over the identity of a shared one. A
  publication that does so is counted to the conversations without a check of their bound, and from then on conversation
  turnover evicts the root.
-/

namespace VoidInfer.Exl3.PrefixCache

open Throwing

variable {s : PrefixIndex}

variable {op : Op} {contract : List UInt8} {e : Entry} {model : Nat} {tokens : List Int}
  {prepared : Option Exl3PreparedIdentity}

variable {root : Root} {shared : Bool} {account : List Entry → Except Exn StorageStats}

theorem offers_conversation (hop : op.offers = some (root, contract, shared))
    (hconversation : op.isConversation = true) : shared = false := by
  cases op with
  | publish full root' contract' =>
    obtain ⟨r, -, hr⟩ := Option.map_eq_some_iff.mp hop
    exact (Prod.mk.inj (Prod.mk.inj hr).2).2.symm
  | admitRoot root' contract' byteBudget available reserve retention shared' =>
    obtain ⟨r, -, hr⟩ := Option.map_eq_some_iff.mp hop
    rw [← (Prod.mk.inj (Prod.mk.inj hr).2).2]
    simpa [Op.isConversation] using hconversation
  | _ => simp [Op.offers] at hop

/-- The byte bound forces no eviction in an operation. -/
def Op.ForcesNoEviction (account : List Entry → Except Exn StorageStats) (op : Op) (s : PrefixIndex) : Prop :=
  ∀ admission, (op.step account s).1 = some admission → admission.byteEvicted = 0

theorem shared_stays (h : Inv s) (hconversation : op.isConversation = true)
    (hcross : ¬ op.Crosses s) (hbytes : op.ForcesNoEviction account s) (he : e ∈ s.entries.map core)
    (hshared : e.shared = true) : e ∈ (op.step account s).2.entries.map core := by
  have hnext := (step_next account h op).2
  have hbytes : (op.step account s).1.all (fun a => a.byteEvicted = 0) = true := by
    cases hreply : (op.step account s).1 with
    | none => rfl
    | some a => simpa using hbytes a hreply
  generalize (op.step account s).2.entries = l at hnext ⊢
  cases hnext with
  | observed hcore => rwa [hcore]
  | removed _ hop => simp [hconversation] at hop
  | renewed _ hop => simp [hop, Op.isConversation] at hconversation
  | @added kept entry _ _ hop _ hstay =>
    obtain ⟨e', he', rfl⟩ := List.mem_map.mp he
    have hmem := hstay hcross hbytes e' he' hshared (offers_conversation hop hconversation)
    exact List.mem_map_of_mem (List.mem_append_left _ hmem)

theorem Equals.of_core {e' : Entry} (h : Equals model tokens contract prepared e)
    (hcore : core e' = core e) : Equals model tokens contract prepared e' := by
  obtain ⟨hroot, hcontract, -, hmodel, -⟩ := core_fields hcore
  refine ⟨hmodel ▸ h.model, hcontract ▸ h.contract, hroot ▸ h.tokens, ?_⟩
  have hprepared := h.prepared
  unfold matchesPrepared at hprepared ⊢
  rwa [hroot]

theorem lookup_finds (h : Inv s) (he : e ∈ s.entries) (hequal : Equals model tokens contract prepared e) :
    ∃ root s', lookup model tokens contract prepared s = .ok (some root) s' ∧ root.tokens = tokens := by
  obtain ⟨found, s', hlookup, hnewest⟩ := returns_of_wp (lookup_newest h model tokens contract prepared)
  match found with
  | none => exact absurd hequal (hnewest e he)
  | some root =>
    obtain ⟨i, e', -, hroot, hequal', -⟩ := hnewest
    exact ⟨root, s', hlookup, hroot ▸ hequal'.tokens⟩

/-- A run of conversation publications and admissions, none of which takes over the identity of
    a shared root or evicts for bytes. -/
def Turnover (account : List Entry → Except Exn StorageStats) (op : Op) (s : PrefixIndex) : Prop :=
  op.isConversation = true ∧ ¬ op.Crosses s ∧ op.ForcesNoEviction account s

/-- When no conversation root takes over the identity of a resident shared root, the classes keep their bounds in every
    state, and a shared root stays retrievable through every conversation turnover without an eviction for bytes. -/
theorem classes_bounded_and_isolated (account : List Entry → Except Exn StorageStats)
    {capacity sharedCapacity : Nat} {hasher : Option (List Int → List UInt8 → Nat)} {s₀ s : PrefixIndex}
    (hcreate : create capacity hasher sharedCapacity = .ok s₀)
    (hreach : Reaches account (fun op s => ¬ op.Crosses s) s₀ s) :
    classCount false s.entries ≤ s.capacity ∧ classCount true s.entries ≤ s.sharedCapacity ∧
    s.entries.length ≤ maximumEntries ∧
    ∀ e ∈ s.entries, e.shared = true → ∀ s', Reaches account (Turnover account) s s' →
      ∀ model tokens contract prepared, Equals model tokens contract prepared e →
        ∃ root s'', lookup model tokens contract prepared s' = .ok (some root) s'' ∧ root.tokens = tokens := by
  have h : Inv s := inv_reaches (fun _ _ hop _ => hop) (inv_create hcreate) hreach
  refine ⟨h.classes false, h.classes true, h.ordered.fits, ?_⟩
  intro e he hshared s' hturnover model tokens contract prepared hequal
  have hstays : Inv s' ∧ core e ∈ s'.entries.map core := by
    induction hturnover with
    | refl => exact ⟨h, List.mem_map_of_mem he⟩
    | tail _ hstep ih =>
      obtain ⟨op, ⟨hconversation, hcross, hbytes⟩, rfl⟩ := hstep
      exact ⟨inv_step account ih.1 op fun _ => hcross, shared_stays ih.1 hconversation hcross hbytes ih.2 hshared⟩
  obtain ⟨e', he', hcore⟩ := List.mem_map.mp hstays.2
  exact lookup_finds hstays.1 he' (hequal.of_core hcore)

theorem not_crosses (hop : op.offers = some (root, contract, shared))
    (h : (shared || s.entries.all fun e => !(e.shared && repeats e root contract)) = true) : ¬ op.Crosses s := by
  rintro ⟨root', contract', hop', e, he, hshared, hrepeats⟩
  rw [hop] at hop'
  obtain ⟨rfl, rfl, rfl⟩ := hop'
  rw [Bool.false_or, List.all_eq_true] at h
  have hall := h e he
  simp [hshared, hrepeats] at hall

theorem forcesNoEviction_of_all
    (h : (op.step account s).1.all (fun a => a.byteEvicted == 0) = true) : op.ForcesNoEviction account s := by
  intro admission hreply
  rw [hreply] at h
  simpa using h

theorem exists_shared_equals
    (h : (s.entries.any fun e => e.shared && e.modelIdentity == model && e.contract == contract &&
      e.root.tokens == tokens && matchesPrepared e prepared false) = true) :
    ∃ e ∈ s.entries, e.shared = true ∧ Equals model tokens contract prepared e := by
  obtain ⟨e, he, hall⟩ := List.any_eq_true.mp h
  simp only [Bool.and_eq_true, beq_iff_eq] at hall
  obtain ⟨⟨⟨⟨hshared, hmodel⟩, hcontract⟩, htokens⟩, hprepared⟩ := hall
  exact ⟨e, he, hshared, hmodel, hcontract, htokens, hprepared⟩

/-- A shared prefix outlives the turns of the conversations beside it. -/
theorem shared_prefix_outlives_turn :
    ∃ s₀ s s', create 1 none 1 = .ok s₀ ∧ Reaches countEntries (fun op s => ¬ op.Crosses s) s₀ s ∧
      Reaches countEntries (Turnover countEntries) s s' ∧ s.entries.length = 1 ∧ s'.entries.length = 2 ∧
      classCount false s.entries ≤ s.capacity ∧
      ∃ root s'', lookup 7 [5, 6] [1] none s' = .ok (some root) s'' ∧ root.tokens = [5, 6] := by
  let s₀ : PrefixIndex := { capacity := 1, sharedCapacity := 1, hasher := none }
  let s₁ := ((admitText 1 [5, 6] true).step countEntries s₀).2
  let s₂ := ((admitText 2 [5, 6, 8] false).step countEntries s₁).2
  let s₃ := ((admitText 3 [5, 6, 9] false).step countEntries s₂).2
  have hcreate : create 1 none 1 = .ok s₀ := rfl
  have hreach : Reaches countEntries (fun op s => ¬ op.Crosses s) s₀ s₁ :=
    .tail .refl ⟨admitText 1 [5, 6] true, not_crosses rfl rfl, rfl⟩
  have hturnover : Reaches countEntries (Turnover countEntries) s₁ s₃ :=
    .tail (.tail .refl ⟨admitText 2 [5, 6, 8] false,
      ⟨rfl, not_crosses rfl (by decide +kernel), forcesNoEviction_of_all (by decide +kernel)⟩, rfl⟩)
      ⟨admitText 3 [5, 6, 9] false,
        ⟨rfl, not_crosses rfl (by decide +kernel), forcesNoEviction_of_all (by decide +kernel)⟩, rfl⟩
  obtain ⟨hclass, -, -, hstays⟩ := classes_bounded_and_isolated countEntries hcreate hreach
  have hentry : ∃ e ∈ s₁.entries, e.shared = true ∧ Equals 7 [5, 6] [1] none e :=
    exists_shared_equals (by decide +kernel)
  obtain ⟨e, he, hshared, hequal⟩ := hentry
  refine ⟨s₀, s₁, s₃, hcreate, hreach, hturnover, by decide +kernel, by decide +kernel, hclass, ?_⟩
  exact hstays e he hshared s₃ hturnover 7 [5, 6] [1] none hequal

/-- Publishing the tokens of a shared root: the conversations exceed their bound. And admitting
    them as a conversation: the next turn evicts the root, though no byte bound forces it. -/
theorem shared_root_taken_over :
    (∃ s₀ s, create 1 none 1 = .ok s₀ ∧ Reaches countEntries (fun _ _ => True) s₀ s ∧
      ¬ classCount false s.entries ≤ s.capacity) ∧
    ∃ s₀ s s', create 1 none 1 = .ok s₀ ∧ Reaches countEntries (fun _ _ => True) s₀ s ∧
      (∃ e ∈ s.entries, e.shared = true ∧ Equals 7 [5, 6] [1] none e) ∧
      Reaches countEntries (fun op s => op.isConversation = true ∧ op.ForcesNoEviction countEntries s) s s' ∧
      ∃ s'', lookup 7 [5, 6] [1] none s' = .ok none s'' := by
  let s₀ : PrefixIndex := { capacity := 1, sharedCapacity := 1, hasher := none }
  let s₁ := ((admitText 1 [5, 6] true).step countEntries s₀).2
  have hcreate : create 1 none 1 = .ok s₀ := rfl
  have hshared : Reaches countEntries (fun _ _ => True) s₀ s₁ :=
    .tail .refl ⟨admitText 1 [5, 6] true, trivial, rfl⟩
  constructor
  · let turn := admitText 2 [5, 6, 8] false
    let taken : Op := .publish false (some (textRoot 3 [5, 6])) [1]
    let s₂ := (turn.step countEntries s₁).2
    let s₃ := (taken.step countEntries s₂).2
    have hreach : Reaches countEntries (fun _ _ => True) s₀ s₃ :=
      .tail (.tail hshared ⟨turn, trivial, rfl⟩) ⟨taken, trivial, rfl⟩
    exact ⟨s₀, s₃, hcreate, hreach, by decide +kernel⟩
  · let taken := admitText 2 [5, 6] false
    let turn := admitText 3 [5, 6, 9] false
    let s₂ := (taken.step countEntries s₁).2
    let s₃ := (turn.step countEntries s₂).2
    have hturns : Reaches countEntries
        (fun op s => op.isConversation = true ∧ op.ForcesNoEviction countEntries s) s₁ s₃ :=
      .tail (.tail .refl ⟨taken, ⟨rfl, forcesNoEviction_of_all (by decide +kernel)⟩, rfl⟩)
        ⟨turn, ⟨rfl, forcesNoEviction_of_all (by decide +kernel)⟩, rfl⟩
    refine ⟨s₀, s₁, s₃, hcreate, hshared, exists_shared_equals (by decide +kernel), hturns, ?_⟩
    have hnone : (match lookup 7 [5, 6] [1] none s₃ with
        | .ok root _ => root.isNone
        | .error _ _ => false) = true := by decide +kernel
    split at hnone
    · next root s'' hlookup => exact ⟨s'', by rw [hlookup, Option.isNone_iff_eq_none.mp hnone]⟩
    · simp at hnone

end VoidInfer.Exl3.PrefixCache
