import VoidInfer.Serve.ResponseStoreCalls

/-
  Runs of the response store: contexts are appended to contexts, and responses with them are put, looked up and erased
  in any order. The accounts hold in every state that is reached, a `put` changes everything or nothing, and no internal
  error is thrown.
-/

namespace VoidInfer.Serve
open SharedChains Throwing List

variable {P : StorePlatform}

structure StoreWorld (P : StorePlatform) where
  store : ResponseStore P := {}
  /-- The contexts that were built; the node of each has its index as its address. -/
  contexts : List ResponseContext := []
  /-- Ghost: when each record was last put or found. -/
  used : List UInt8 → Nat := fun _ => 0
  clock : Nat := 0

def StoreWorld.Built (w : StoreWorld P) (context : ResponseContext) : Prop := context = [] ∨ context ∈ w.contexts

/-- The record `id` is used. -/
def StoreWorld.touch (w : StoreWorld P) (id : List UInt8) : StoreWorld P :=
  { w with used := Function.update w.used id (w.clock + 1), clock := w.clock + 1 }

inductive StoreStep (limits : Limits) : StoreWorld P → StoreWorld P → Prop where
  | append {w parent turns context} : w.Built parent →
    appendResponseContext P w.contexts.length parent turns = .ok context →
    StoreStep limits w { w with contexts := w.contexts ++ [context] }
  | put {w response s'} : w.Built response.context → ResponseStore.put limits response w.store = .ok () s' →
    StoreStep limits w (StoreWorld.touch { w with store := s' } response.id)
  | putThrows {w response error s'} : w.Built response.context →
    ResponseStore.put limits response w.store = .error error s' → StoreStep limits w { w with store := s' }
  | found {w id response s'} : ResponseStore.get id w.store = .ok (some response) s' →
    StoreStep limits w (StoreWorld.touch { w with store := s' } id)
  | missed {w id s'} : ResponseStore.get id w.store = .ok none s' → StoreStep limits w { w with store := s' }
  | getThrows {w id error s'} : ResponseStore.get id w.store = .error error s' → StoreStep limits w { w with store := s' }
  | erase {w id erased s'} : ResponseStore.erase id w.store = .ok erased s' → StoreStep limits w { w with store := s' }
  | eraseThrows {w id error s'} : ResponseStore.erase id w.store = .error error s' →
    StoreStep limits w { w with store := s' }

def StoreReaches (limits : Limits) (w : StoreWorld P) : Prop := Relation.ReflTransGen (StoreStep limits) {} w

/-! ## The invariant -/

structure WorldSound (limits : Limits) (w : StoreWorld P) : Prop where
  sound : Sound w.store
  records_le : w.store.records.length ≤ limits.maxRecords
  bytes_le : w.store.currentBytes ≤ limits.maxBytes
  contexts : ∀ context ∈ w.contexts, WellFormed context
  recency : w.store.lru.Pairwise fun a b => w.used b < w.used a
  clock : ∀ id, w.used id ≤ w.clock

section Steps

variable {limits : Limits} {w w' : StoreWorld P} {id : List UInt8}

theorem WorldSound.wellFormed (h : WorldSound limits w) {context : ResponseContext} (hbuilt : w.Built context) :
    WellFormed context := by
  rcases hbuilt with rfl | hmem
  · trivial
  · exact h.contexts context hmem

theorem recency_touch {rest : List (List UInt8)} (hclock : ∀ id, w.used id ≤ w.clock)
    (h : rest.Pairwise fun a b => w.used b < w.used a) (hnot : id ∉ rest) :
    (id :: rest).Pairwise (fun a b => (w.touch id).used b < (w.touch id).used a) ∧
      ∀ d, (w.touch id).used d ≤ (w.touch id).clock := by
  have hother : ∀ d, d ≠ id → (w.touch id).used d = w.used d := fun d hd => Function.update_of_ne hd ..
  have hself : (w.touch id).used id = w.clock + 1 := Function.update_self ..
  have hne : ∀ d ∈ rest, d ≠ id := by
    intro d hd heq
    subst heq
    exact hnot hd
  refine ⟨pairwise_cons.mpr ⟨fun d hd => ?_, ?_⟩, fun d => ?_⟩
  · rw [hother d (hne d hd), hself]
    exact Nat.lt_succ_of_le (hclock d)
  · refine Pairwise.imp_of_mem (fun {a b} ha hb hab => ?_) h
    rw [hother a (hne a ha), hother b (hne b hb)]
    exact hab
  · by_cases hd : d = id
    · rw [hd, hself]
      exact le_rfl
    · rw [hother d hd]
      exact Nat.le_succ_of_le (hclock d)

theorem worldSound_step (h : WorldSound limits w) (hstep : StoreStep limits w w') : WorldSound limits w' := by
  cases hstep with
  | append hbuilt hok =>
    refine ⟨h.sound, h.records_le, h.bytes_le, fun context hmem => ?_, h.recency, h.clock⟩
    rcases mem_append.mp hmem with hmem | hmem
    · exact h.contexts context hmem
    obtain rfl := mem_singleton.mp hmem
    exact wellFormed_append (h.wellFormed hbuilt) hok
  | @put response s' hbuilt hok =>
    obtain ⟨hsound, hrecords, hbytes, envelopeBytes, hmem, hsub, kept, hkept, hlru⟩ :=
      wp_ok (wp_put h.sound h.bytes_le (h.wellFormed hbuilt)) hok
    have hnot : response.id ∉ kept := by
      have hnodup := hsound.lru_nodup
      rw [hlru] at hnodup
      exact (nodup_cons.mp hnodup).1
    obtain ⟨hrecency, hclock⟩ := recency_touch (w := { w with store := s' }) h.clock (h.recency.sublist hkept.sublist) hnot
    refine ⟨hsound, hrecords, hbytes, h.contexts, ?_, hclock⟩
    show s'.lru.Pairwise _
    rw [hlru]
    exact hrecency
  | putThrows hbuilt herror =>
    obtain ⟨rfl, -⟩ := wp_error (wp_put h.sound h.bytes_le (h.wellFormed hbuilt)) herror
    exact h
  | @found id response s' hok =>
    obtain ⟨hsound, hrecords, hbytes, hfound, hlru⟩ := wp_ok (wp_storeGet h.sound) hok
    have hmem : id ∈ w.store.lru := by
      refine h.sound.find_iff.mp ?_
      cases hfind : w.store.find id with
      | none => simp [hfind] at hfound
      | some entry => rfl
    rw [if_pos hmem] at hlru
    have hnot : id ∉ w.store.lru.erase id := h.sound.lru_nodup.not_mem_erase
    obtain ⟨hrecency, hclock⟩ :=
      recency_touch (w := { w with store := s' }) h.clock (h.recency.sublist erase_sublist) hnot
    refine ⟨hsound, ?_, ?_, h.contexts, ?_, hclock⟩
    · show s'.records.length ≤ limits.maxRecords
      rw [hrecords]
      exact h.records_le
    · show s'.currentBytes ≤ limits.maxBytes
      rw [hbytes]
      exact h.bytes_le
    · show s'.lru.Pairwise _
      rw [hlru]
      exact hrecency
  | @missed id s' hok =>
    obtain ⟨hsound, hrecords, hbytes, hfound, hlru⟩ := wp_ok (wp_storeGet h.sound) hok
    have hnot : id ∉ w.store.lru := by
      intro hmem
      obtain ⟨entry, hfind⟩ := Option.isSome_iff_exists.mp (h.sound.find_iff.mpr hmem)
      simp [hfind] at hfound
    rw [if_neg hnot] at hlru
    refine ⟨hsound, ?_, ?_, h.contexts, ?_, h.clock⟩
    · rw [hrecords]
      exact h.records_le
    · rw [hbytes]
      exact h.bytes_le
    · rw [hlru]
      exact h.recency
  | getThrows herror => exact (wp_error (wp_storeGet h.sound) herror).elim
  | @erase id erased s' hok =>
    obtain ⟨hsound, hrecords, hlru, hbytes, -⟩ := wp_ok (wp_storeErase h.sound) hok
    refine ⟨hsound, ?_, hbytes.trans h.bytes_le, h.contexts, ?_, h.clock⟩
    · rw [hrecords]
      exact eraseP_sublist.length_le.trans h.records_le
    · rw [hlru]
      exact h.recency.sublist erase_sublist
  | eraseThrows herror => exact (wp_error (wp_storeErase h.sound) herror).elim

theorem worldSound_start : WorldSound limits ({} : StoreWorld P) := by
  refine ⟨⟨⟨∅, counted_empty, by simp [envelopesOf]⟩, ?_, ?_, by simp, by simp⟩, ?_, ?_, by simp, List.Pairwise.nil, by simp⟩
  · exact nodup_nil
  · exact List.Perm.refl _
  · exact Nat.zero_le _
  · exact Nat.zero_le _

theorem worldSound_reaches (hreach : StoreReaches limits w) : WorldSound limits w := by
  induction hreach with
  | refl => exact worldSound_start
  | tail _ hstep ih => exact worldSound_step ih hstep

end Steps

/-! ## Errors -/

/-- The errors that would mean that the accounts are wrong, or that an eviction does not end. -/
def internalErrors : List StoreError := [
  .exn (.logicError "response store LRU is empty"),
  .exn (.logicError "response context activation raced itself"),
  .exn (.logicError "response context activation lost its live parent"),
  .exn (.logicError "response context release lost its live node"),
  .exn (.logicError "response context byte accounting underflowed"),
  .exn (.logicError "response envelope byte accounting underflowed"),
  referencesOverflowed, .exn .terminate]

variable {error : StoreError} {limits : Limits}

theorem dumpSize_error {value : P.Json} (h : dumpSize value = .error error) : ∃ what, error = .json what := by
  unfold dumpSize at h
  split at h
  · cases h
  · next what _ => exact ⟨what, (Except.error.inj h).symm⟩

theorem dumpSizes_error {values : List P.Json} (h : values.mapM dumpSize = .error error) :
    ∃ what, error = .json what := by
  induction values with
  | nil => cases h
  | cons value rest ih =>
    rw [mapM_cons] at h
    cases hvalue : dumpSize value with
    | error e =>
      rw [hvalue] at h
      cases h
      exact dumpSize_error hvalue
    | ok size =>
      rw [hvalue] at h
      cases hrest : rest.mapM dumpSize with
      | error e =>
        rw [hrest] at h
        cases h
        exact ih hrest
      | ok sizes =>
        rw [hrest] at h
        cases h

theorem checkPut_error {response : StoredResponse P} (h : checkPut limits response = .error error) :
    error = .exn (.invalidArgument "stored response must have an id, bounded session key and object body") ∨
      error = storeCapacity ∨ ∃ what, error = .json what := by
  unfold checkPut at h
  split at h
  · exact .inl (Except.error.inj h).symm
  refine .inr ?_
  cases henvelope : recordEnvelopeBytes response with
  | error e =>
    rw [henvelope] at h
    cases h
    refine .inr ?_
    unfold recordEnvelopeBytes at henvelope
    cases hbody : dumpSize response.response with
    | error e =>
      rw [hbody] at henvelope
      cases henvelope
      exact dumpSize_error hbody
    | ok body =>
      rw [hbody] at henvelope
      cases hitems : response.inputItems.mapM dumpSize with
      | error e =>
        rw [hitems] at henvelope
        cases henvelope
        exact dumpSizes_error hitems
      | ok items =>
        rw [hitems] at henvelope
        cases henvelope
  | ok bytes =>
    rw [henvelope] at h
    simp only [bind, Except.bind] at h
    split at h
    · exact .inl (Except.error.inj h).symm
    · cases h

theorem Refused.not_internal {s : ResponseStore P} {response : StoredResponse P}
    (h : Refused limits s response error) : error ∉ internalErrors ∧
      (error = bytesOverflowed → ∃ bytes, recordEnvelopeBytes response = .ok bytes ∧
        sizeMax < s.currentBytes + bytes + cumulativeBytes response.context) := by
  rcases h with hcheck | ⟨-, rfl⟩ | ⟨rfl, hbytes⟩
  · rcases checkPut_error hcheck with rfl | rfl | ⟨what, rfl⟩
    · exact ⟨by decide, fun h => by simp [bytesOverflowed] at h⟩
    · exact ⟨by decide, fun h => by simp [bytesOverflowed, storeCapacity] at h⟩
    · exact ⟨by simp [internalErrors, referencesOverflowed], fun h => by simp [bytesOverflowed] at h⟩
  · exact ⟨by decide, fun h => by simp [bytesOverflowed] at h⟩
  · exact ⟨by decide, fun _ => hbytes⟩

/-! ## Accounts -/

/-- The nodes that records reach. -/
def reachableNodes (records : List (Entry P)) : Finset ResponseContext :=
  ((records.flatMap fun entry => entry.response.context.tails).filter (· ≠ [])).toFinset

theorem alive_eq {alive : Finset ResponseContext} {live : ResponseContext → Option Nat} {records : List (Entry P)}
    (h : Counted alive live (rootsOf records)) : alive = reachableNodes records := by
  ext c
  rw [h.mem_iff]
  simp only [reachableNodes, rootsOf, List.mem_toFinset, mem_filter, mem_flatMap, mem_tails, List.mem_map,
    decide_eq_true_eq]
  constructor
  · rintro ⟨hne, _, ⟨entry, hentry, rfl⟩, hsuffix⟩
    exact ⟨⟨entry, hentry, hsuffix⟩, hne⟩
  · rintro ⟨⟨entry, hentry, hsuffix⟩, hne⟩
    exact ⟨hne, _, ⟨entry, hentry, rfl⟩, hsuffix⟩

/-- In every state that is reached the bytes are those of the records and of the nodes that they reach, each once; the
    counts are those of these nodes; and the order is that of the last uses. A `put` keeps the limits, the new record
    and the records that were used last, or changes nothing; and no call meets an internal error. -/
theorem store_accounts_exact {limits : Limits} {w : StoreWorld P} (hreach : StoreReaches limits w) :
    w.store.currentBytes = envelopesOf w.store.records + ∑ c ∈ reachableNodes w.store.records, ownedBytes c ∧
    (∀ entry ∈ w.store.records, recordEnvelopeBytes entry.response = .ok entry.envelopeBytes) ∧
    (∀ c, w.store.live c = if c ∈ reachableNodes w.store.records then
      some ((rootsOf w.store.records).count c + (children (reachableNodes w.store.records) c).card) else none) ∧
    (idsOf w.store.records).Nodup ∧ w.store.lru.Perm (idsOf w.store.records) ∧
    w.store.lru.Pairwise (fun a b => w.used b < w.used a) ∧
    (∀ response : StoredResponse P, w.Built response.context → wp (ResponseStore.put limits response)
        (fun _ s' => s'.records.length ≤ limits.maxRecords ∧ s'.currentBytes ≤ limits.maxBytes ∧
          ∃ envelopeBytes, { response, envelopeBytes } ∈ s'.records ∧
            s'.records.Sublist ({ response, envelopeBytes } :: w.store.records) ∧
            ∃ kept, kept <+: w.store.lru ∧ s'.lru = response.id :: kept)
        (fun error s' => s' = w.store ∧ error ∉ internalErrors ∧
          (error = bytesOverflowed → ∃ bytes, recordEnvelopeBytes response = .ok bytes ∧
            sizeMax < w.store.currentBytes + bytes + cumulativeBytes response.context)) w.store) ∧
    (∀ id, wp (ResponseStore.get id)
      (fun found s' => found = (w.store.find id).map (·.response) ∧ s'.records = w.store.records)
      (fun _ _ => False) w.store) ∧
    ∀ id, wp (ResponseStore.erase id)
      (fun erased s' => erased = (w.store.find id).isSome ∧ s'.records = eraseRecord id w.store.records)
      (fun _ _ => False) w.store := by
  have h := worldSound_reaches hreach
  obtain ⟨alive, hcounted, hbytes⟩ := h.sound.accounted
  obtain rfl := alive_eq hcounted
  refine ⟨hbytes, h.sound.envelopes, fun c => ?_, h.sound.ids, h.sound.lru, h.recency, ?_, ?_, ?_⟩
  · cases hk : w.store.live c with
    | none => rw [if_neg (by simp [hcounted.alive_iff, hk])]
    | some k => rw [if_pos (by simp [hcounted.alive_iff, hk]), hcounted.count_eq hk]
  · intro response hbuilt
    refine wp_mono (wp_put h.sound h.bytes_le (h.wellFormed hbuilt)) ?_ ?_
    · rintro _ s' ⟨-, hrecords, hbytes', hrest⟩
      exact ⟨hrecords, hbytes', hrest⟩
    rintro error s' ⟨rfl, hrefused⟩
    exact ⟨rfl, hrefused.not_internal⟩
  · intro id
    refine wp_imp (wp_storeGet h.sound) ?_
    rintro found s' ⟨-, hrecords, -, hfound, -⟩
    exact ⟨hfound, hrecords⟩
  · intro id
    refine wp_imp (wp_storeErase h.sound) ?_
    rintro erased s' ⟨-, hrecords, -, -, herased⟩
    exact ⟨herased, hrecords⟩

theorem append_reaches {w : StoreWorld P} {context : ResponseContext} (parent : ResponseContext)
    (hreach : StoreReaches limits w) (hbuilt : w.Built parent)
    (hok : appendResponseContext P w.contexts.length parent [] = .ok context) :
    StoreReaches limits { w with contexts := w.contexts ++ [context] } :=
  hreach.tail (.append hbuilt hok)

theorem put_reaches {w : StoreWorld P} {s' : ResponseStore P} (response : StoredResponse P)
    (hreach : StoreReaches limits w) (hbuilt : w.Built response.context)
    (hok : ResponseStore.put limits response w.store = .ok () s') :
    StoreReaches limits (StoreWorld.touch { w with store := s' } response.id) :=
  hreach.tail (.put hbuilt hok)

/-- One JSON value, of an empty text, and classes of one byte. -/
def unitPlatform : StorePlatform :=
  ⟨Unit, fun _ => true, fun _ => .ok [], 1, 1, 1, 1, 1, 1, Nat.one_pos, Nat.one_pos⟩

/-- A node without turns. -/
def plainNode (address depth : Nat) : ContextNode := ⟨address, [], 1, depth, 0⟩

def plainResponse (id : UInt8) (context : ResponseContext) : StoredResponse unitPlatform := ⟨[id], [0], (), [], context⟩

def smallLimits : Limits := ⟨8, 64, by decide, by decide, by decide⟩

/-- Two responses that continue one context count its node once, with two references. -/
theorem shared_context_counted_once : ∃ w : StoreWorld unitPlatform, StoreReaches smallLimits w ∧
    w.store.lru = [[2], [1]] ∧ w.store.live [plainNode 0 1] = some 2 ∧ w.store.currentBytes = 9 ∧
    w.store.currentBytes = envelopesOf w.store.records + ∑ c ∈ reachableNodes w.store.records, ownedBytes c := by
  have h0 : StoreReaches smallLimits ({} : StoreWorld unitPlatform) := .refl
  have h1 := append_reaches [] h0 (.inl rfl) rfl
  have h2 := append_reaches [plainNode 0 1] h1 (.inr (by decide)) rfl
  have h3 := append_reaches [plainNode 0 1] h2 (.inr (by decide)) rfl
  have h4 := put_reaches (plainResponse 1 [plainNode 1 2, plainNode 0 1]) h3 (.inr (by decide)) rfl
  have h5 := put_reaches (plainResponse 2 [plainNode 2 2, plainNode 0 1]) h4 (.inr (by decide)) rfl
  exact ⟨_, h5, rfl, rfl, rfl, (store_accounts_exact h5).1⟩

end VoidInfer.Serve
