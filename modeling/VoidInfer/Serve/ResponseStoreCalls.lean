import VoidInfer.Serve.ResponseStoreInv
import Mathlib.Data.Nat.Cast.Basic

/-
  The calls of the response store: what each does to the accounts, to the records and to their order, and that a call
  that throws takes everything back.
-/

namespace VoidInfer.Serve
open SharedChains Throwing List Option Function

variable {P : StorePlatform} {s s' : ResponseStore P} {context : ResponseContext} {roots : List ResponseContext}
 {total : Nat} {id : List UInt8} {entry : Entry P}

/-! ## Taking up a context -/

/-- The store with nodes that were just brought to life. -/
def withNodes (s : ResponseStore P) (nodes : List ResponseContext) : ResponseStore P :=
  { s with live := fun c => if c ∈ nodes then some 1 else s.live c
           currentBytes := s.currentBytes + (nodes.map ownedBytes).sum }

theorem withNodes_nil (s : ResponseStore P) : withNodes s [] = s := by
  simp [withNodes]

variable {nodes : List ResponseContext}

theorem rollback_withNodes (hdead : ∀ c ∈ nodes, s.live c = none) (hnodup : nodes.Nodup) :
    rollbackInserted nodes (withNodes s nodes) = s := by
  induction nodes with
  | nil => exact withNodes_nil s
  | cons node rest ih =>
    obtain ⟨hfresh, hnodup⟩ := nodup_cons.mp hnodup
    have hundo : { withNodes s (node :: rest) with
        currentBytes := (withNodes s (node :: rest)).currentBytes - ownedBytes node
        live := update (withNodes s (node :: rest)).live node none } = withNodes s rest := by
      have hlive : update (withNodes s (node :: rest)).live node none = (withNodes s rest).live := by
        funext c
        by_cases hc : c = node
        · subst hc
          simp [withNodes, hfresh, hdead c _]
        · simp [withNodes, hc]
      have hbytes : (withNodes s (node :: rest)).currentBytes - ownedBytes node = (withNodes s rest).currentBytes := by
        simp only [withNodes, map_cons, sum_cons]
        omega
      rw [hlive, hbytes]
      rfl
    unfold rollbackInserted at ih ⊢
    rw [foldl_cons, hundo]
    exact ih (fun c hc => hdead c (mem_cons_of_mem _ hc)) hnodup

theorem wp_activate (inserted : List ResponseContext) (hdead : ∀ c ∈ inserted ++ nodes, s.live c = none)
    (hnodup : (inserted ++ nodes).Nodup) :
    wp (activate inserted nodes)
      (fun result s' => result = nodes.reverse ++ inserted ∧ s' = withNodes s (nodes.reverse ++ inserted))
      (fun error s' => error = bytesOverflowed ∧ s' = s ∧
        sizeMax < s.currentBytes + ((inserted ++ nodes).map ownedBytes).sum) (withNodes s inserted) := by
  induction nodes generalizing inserted with
  | nil => exact ⟨rfl, rfl⟩
  | cons node rest ih =>
    have hinserted : ∀ c ∈ inserted, s.live c = none := fun c hc => hdead c (mem_append_left _ hc)
    have hrollback := rollback_withNodes hinserted (nodup_append.mp hnodup).1
    have hfresh : node ∉ inserted := fun hmem =>
      (nodup_append.mp hnodup).2.2 node hmem node (mem_cons_self ..) rfl
    have hlive : (withNodes s inserted).live node = none := by
      simp [withNodes, hfresh, hdead node (by simp)]
    unfold activate
    rw [wp_get_bind]
    split
    · next hbig =>
      rw [wp_bind, wp_modify]
      dsimp only
      rw [hrollback]
      refine ⟨rfl, rfl, ?_⟩
      simp only [withNodes, map_append, map_cons, sum_append, sum_cons] at hbig ⊢
      omega
    rw [hlive, if_neg (by simp), wp_bind, wp_set]
    have hnext : { withNodes s inserted with
        live := update (withNodes s inserted).live node (some 1)
        currentBytes := (withNodes s inserted).currentBytes + ownedBytes node } = withNodes s (node :: inserted) := by
      have hlive' : update (withNodes s inserted).live node (some 1) = (withNodes s (node :: inserted)).live := by
        funext c
        by_cases hc : c = node
        · subst hc
          simp [withNodes]
        · simp [withNodes, hc]
      have hbytes : (withNodes s inserted).currentBytes + ownedBytes node = (withNodes s (node :: inserted)).currentBytes := by
        simp only [withNodes, map_cons, sum_cons]
        omega
      rw [hlive', hbytes]
      rfl
    have hperm : (inserted ++ node :: rest).Perm (node :: inserted ++ rest) := perm_middle
    rw [hnext]
    refine wp_mono (ih _ (fun c hc => hdead c (hperm.symm.mem_iff.mp hc)) (hperm.nodup_iff.mp hnodup)) ?_ ?_
    · rintro result s' ⟨rfl, rfl⟩
      simp
    rintro error s' ⟨rfl, rfl, hbig⟩
    rw [((hperm.map ownedBytes).sum_eq : _ = _)]
    exact ⟨rfl, rfl, hbig⟩

/-- A context is taken up, unless its bytes do not fit: then nothing is. -/
theorem wp_retainContext (h : Accounted s roots total) (hwf : WellFormed context)
    (hroom : ∀ c k, s.live c = some k → k < sizeMax) :
    wp (retainContext context)
      (fun _ s' => Accounted s' (context :: roots) total ∧ s'.records = s.records ∧ s'.lru = s.lru)
      (fun error s' => error = bytesOverflowed ∧ s' = s ∧ sizeMax < s.currentBytes + cumulativeBytes context) s := by
  obtain ⟨alive, hcounted, hbytes⟩ := h
  unfold retainContext
  split
  · next hnil =>
    subst hnil
    exact ⟨⟨alive, hcounted.nil_root, hbytes⟩, rfl, rfl⟩
  next hne =>
  rw [wp_get_bind]
  split
  · next references hk =>
    rw [if_neg (Nat.ne_of_lt (hroom _ _ hk))]
    exact ⟨⟨alive, hcounted.retain hk, hbytes⟩, rfl, rfl⟩
  next hnone =>
  have hnew := newNodes_suffix s.live context
  have hactivate := wp_activate [] (fun c hc => (hnew.1 c hc).2.2) (newNodes_nodup s.live context)
  obtain ⟨alive', hcounted', hsum⟩ := counted_retained hcounted context
  have hend : ∀ live', live' = retained s.live context →
      Accounted { withNodes s ((newNodes s.live context).1.reverse ++ []) with live := live' } (context :: roots) total := by
    rintro live' rfl
    refine ⟨alive', hcounted', ?_⟩
    simp only [withNodes, append_nil, map_reverse, sum_reverse]
    rw [hsum, hbytes, Nat.add_assoc]
  rw [wp_bind]
  refine wp_mono hactivate ?_ ?_
  · rintro inserted s' ⟨rfl, rfl⟩
    split
    · next hcursor =>
      refine ⟨?_, rfl, rfl⟩
      refine hend _ ?_
      funext c
      simp [retained, hcursor]
    next hcursor =>
    -- the node behind the new ones was alive before, and is none of them
    obtain ⟨k, hk⟩ := isSome_iff_exists.mp ((newNodes_cursor s.live context).resolve_left hcursor)
    have hnot : (newNodes s.live context).2 ∉ (newNodes s.live context).1 := by
      intro hmem
      rw [(hnew.1 _ hmem).2.2] at hk
      cases hk
    have hlive : (withNodes s ((newNodes s.live context).1.reverse ++ [])).live (newNodes s.live context).2 = some k := by
      simp [withNodes, hnot, hk]
    rw [wp_get_bind]
    rw [hlive]
    dsimp only
    rw [if_neg (Nat.ne_of_lt (hroom _ _ hk))]
    refine ⟨hend _ ?_, rfl, rfl⟩
    funext c
    unfold retained
    by_cases hc : c = (newNodes s.live context).2
    · subst hc
      simp [hnot, hcursor, hk]
    · simp [withNodes, hc]
  rintro error s' ⟨rfl, rfl, hbig⟩
  refine ⟨rfl, rfl, ?_⟩
  have hle := newNodes_sum_le s'.live hwf
  exact Nat.lt_of_lt_of_le hbig (Nat.add_le_add_left hle _)

/-! ## Records -/

theorem perm_eraseRecord {records : List (Entry P)} (h : records.find? (·.response.id = id) = some entry) :
    records.Perm (entry :: eraseRecord id records) := by
  unfold eraseRecord
  induction records with
  | nil => simp at h
  | cons first rest ih =>
    by_cases hid : first.response.id = id
    · rw [find?_cons_of_pos (by simpa using hid)] at h
      cases h
      rw [eraseP_cons_of_pos (by simpa using hid)]
    rw [find?_cons_of_neg (by simpa using hid)] at h
    rw [eraseP_cons_of_neg (by simpa using hid)]
    exact ((ih h).cons first).trans (List.Perm.swap ..)

def rootsOf (records : List (Entry P)) : List ResponseContext := records.map (·.response.context)

def envelopesOf (records : List (Entry P)) : Nat := (records.map (·.envelopeBytes)).sum

def idsOf (records : List (Entry P)) : List (List UInt8) := records.map (·.response.id)

/-- What the store keeps between its calls, and while it evicts. -/
structure Sound (s : ResponseStore P) : Prop where
  accounted : Accounted s (rootsOf s.records) (envelopesOf s.records)
  ids : (idsOf s.records).Nodup
  lru : s.lru.Perm (idsOf s.records)
  wellFormed : ∀ entry ∈ s.records, WellFormed entry.response.context
  envelopes : ∀ entry ∈ s.records, recordEnvelopeBytes entry.response = .ok entry.envelopeBytes

theorem Sound.lru_nodup (h : Sound s) : s.lru.Nodup := h.lru.nodup_iff.mpr h.ids

theorem Sound.find_iff (h : Sound s) : (s.find id).isSome = true ↔ id ∈ s.lru := by
  rw [h.lru.mem_iff]
  simp [ResponseStore.find, idsOf, find?_isSome]

theorem find_id (hfind : s.find id = some entry) : entry.response.id = id := by
  simpa using find?_some hfind

theorem wp_eraseLocked (h : Sound s) (hfind : s.find id = some entry) :
    wp (eraseLocked id) (fun _ s' => Sound s' ∧ s'.lru = s.lru.erase id ∧ s'.records = eraseRecord id s.records ∧
      s'.currentBytes ≤ s.currentBytes) (fun _ _ => False) s := by
  have hperm : s.records.Perm (entry :: eraseRecord id s.records) := perm_eraseRecord hfind
  have hid := find_id hfind
  have htotal : envelopesOf s.records = entry.envelopeBytes + envelopesOf (eraseRecord id s.records) := by
    unfold envelopesOf
    rw [(hperm.map _).sum_eq, map_cons, sum_cons]
  have hroots : (rootsOf s.records).Perm (entry.response.context :: rootsOf (eraseRecord id s.records)) := hperm.map _
  have hids : (idsOf s.records).Perm (id :: idsOf (eraseRecord id s.records)) := by
    have := hperm.map fun e => e.response.id
    rwa [map_cons, hid] at this
  obtain ⟨alive, hcounted, hbytes⟩ := h.accounted
  unfold eraseLocked
  rw [wp_get_bind]
  rw [hfind]
  dsimp only
  rw [if_neg (by omega), wp_bind, wp_set, wp_bind]
  have haccounted : Accounted { s with currentBytes := s.currentBytes - entry.envelopeBytes }
      (entry.response.context :: rootsOf (eraseRecord id s.records)) (envelopesOf (eraseRecord id s.records)) := by
    refine ⟨alive, hcounted.perm hroots, ?_⟩
    dsimp only
    omega
  refine wp_imp (wp_releaseContext haccounted) ?_
  rintro _ s' ⟨haccounted, hrecords, hlru, hle⟩
  rw [wp_modify]
  dsimp only at hrecords hlru ⊢
  rw [hrecords, hlru]
  have hsub : ∀ e ∈ eraseRecord id s.records, e ∈ s.records := fun e he => mem_of_mem_eraseP he
  refine ⟨⟨haccounted, ?_, ?_, fun e he => h.wellFormed e (hsub e he), fun e he => h.envelopes e (hsub e he)⟩, rfl, rfl,
    hle.trans (Nat.sub_le _ _)⟩
  · exact (nodup_cons.mp (hids.nodup_iff.mp h.ids)).2
  · have := (h.lru.trans hids).erase id
    rwa [erase_cons_head] at this

/-! ## Eviction -/

theorem victim_eq {rest : List (List UInt8)} {last : List UInt8} (hnodup : (id :: rest ++ [last]).Nodup) :
    victim id (id :: rest ++ [last]) = .ok last ∧ (id :: rest ++ [last]).erase last = id :: rest := by
  have hne : last ≠ id := by
    intro heq
    subst heq
    exact (nodup_append.mp hnodup).2.2 last (mem_cons_self ..) last (mem_singleton_self _) rfl
  constructor
  · unfold victim
    simp [hne]
  · have hnot : last ∉ id :: rest := fun hmem =>
      (nodup_append.mp hnodup).2.2 last hmem last (mem_singleton_self _) rfl
    rw [erase_append_right _ hnot, erase_cons_head, append_nil]

section Limited

variable {limits : Limits}

theorem Sound.alone_le (h : Sound s) (hone : s.records = [entry])
    (hfits : entry.envelopeBytes + cumulativeBytes entry.response.context ≤ limits.maxBytes) :
    s.currentBytes ≤ limits.maxBytes := by
  obtain ⟨alive, hcounted, hbytes⟩ := h.accounted
  rw [hone] at hcounted hbytes
  have hsum := (h.wellFormed entry (by simp [hone])).sum_le alive fun c hc => by
    obtain ⟨hne, r, hr, hsuffix⟩ := hcounted.mem_iff.mp hc
    obtain rfl : r = entry.response.context := by simpa [rootsOf] using hr
    exact ⟨hne, hsuffix⟩
  calc s.currentBytes = envelopesOf [entry] + ∑ c ∈ alive, ownedBytes c := hbytes
    _ = entry.envelopeBytes + ∑ c ∈ alive, ownedBytes c := by simp [envelopesOf]
    _ ≤ entry.envelopeBytes + cumulativeBytes entry.response.context := Nat.add_le_add_left hsum _
    _ ≤ limits.maxBytes := hfits

/-- The rounds end with a store within its limits: the new record, and the others that were used last. -/
theorem wp_evict {fuel : Nat} {rest : List (List UInt8)} (h : Sound s) (hlru : s.lru = entry.response.id :: rest)
    (hmem : entry ∈ s.records)
    (hfits : entry.envelopeBytes + cumulativeBytes entry.response.context ≤ limits.maxBytes)
    (hfuel : rest.length < fuel) :
    wp (evict limits entry.response.id fuel)
      (fun _ s' => Sound s' ∧ s'.records.length ≤ limits.maxRecords ∧ s'.currentBytes ≤ limits.maxBytes ∧
        entry ∈ s'.records ∧ s'.records.Sublist s.records ∧ ∃ kept, kept <+: rest ∧ s'.lru = entry.response.id :: kept)
      (fun _ _ => False) s := by
  induction fuel generalizing s rest with
  | zero => exact absurd hfuel (Nat.not_lt_zero _)
  | succ fuel ih =>
    unfold evict
    rw [wp_get_bind]
    split
    · next hover =>
      rcases eq_nil_or_concat rest with rfl | ⟨front, last, rfl⟩
      · -- the new record alone is within the limits
        have hlength : s.records.length = 1 := by
          have := h.lru.length_eq
          rw [hlru] at this
          simpa [idsOf] using this.symm
        obtain ⟨only, honly⟩ := length_eq_one_iff.mp hlength
        obtain rfl : entry = only := by simpa [honly] using hmem
        have hle := h.alone_le honly hfits
        have hpos := limits.records_pos
        omega
      rw [concat_eq_append] at hlru hfuel
      have hnodup : (entry.response.id :: front ++ [last]).Nodup := by
        have := h.lru_nodup
        rwa [hlru] at this
      obtain ⟨hvictim, herase⟩ := victim_eq hnodup
      rw [hlru]
      obtain ⟨gone, hgone⟩ := isSome_iff_exists.mp (h.find_iff.mpr (show last ∈ s.lru by rw [hlru]; simp))
      rw [show entry.response.id :: (front ++ [last]) = entry.response.id :: front ++ [last] from rfl, hvictim, wp_bind,
        wp_ofExcept]
      refine ⟨fun v hv => ?_, fun e he => by simp at he⟩
      cases hv
      rw [wp_bind]
      refine wp_imp (wp_eraseLocked h hgone) ?_
      rintro _ s' ⟨hsound, hlru', hrecords, -⟩
      have hlast : last ≠ entry.response.id := by
        intro heq
        have := (nodup_append.mp hnodup).2.2 last (by rw [heq]; simp) last (by simp)
        exact this rfl
      have hmem' : entry ∈ s'.records := by
        rw [hrecords]
        exact (mem_eraseP_of_neg (by simpa using Ne.symm hlast)).mpr hmem
      have hlru'' : s'.lru = entry.response.id :: front := by
        rw [hlru', hlru]
        exact herase
      refine wp_imp (ih hsound hlru'' hmem' ?_) ?_
      · rw [length_append, length_singleton] at hfuel
        omega
      rintro _ s'' ⟨hsound', hcount, hbytes, hkept, hsub, kept, hfront, hend⟩
      refine ⟨hsound', hcount, hbytes, hkept, hsub.trans ?_, kept, hfront.trans ?_, hend⟩
      · rw [hrecords]
        exact eraseP_sublist
      · rw [concat_eq_append]
        exact prefix_append _ _
    · next hover =>
      rw [not_or, Nat.not_lt, Nat.not_lt] at hover
      exact ⟨h, hover.1, hover.2, hmem, List.Sublist.refl _, rest, prefix_refl _, hlru⟩

variable {response : StoredResponse P} {bytes : Nat}

/-! ## The calls -/

theorem envelope_pos (h : recordEnvelopeBytes response = .ok bytes) : 0 < bytes := by
  obtain ⟨body, -, h⟩ := bind_ok h
  obtain ⟨items, -, h⟩ := bind_ok h
  cases h
  have := P.response_pos
  omega

theorem Sound.count_lt (h : Sound s) (hbytes : s.currentBytes ≤ limits.maxBytes) {c : ResponseContext} {k : Nat}
    (hk : s.live c = some k) : k < sizeMax := by
  obtain ⟨alive, hcounted, heq⟩ := h.accounted
  have hroots : (rootsOf s.records).length ≤ envelopesOf s.records := by
    have hle := card_nsmul_le_sum _ 1 fun n hn => by
      obtain ⟨e, he, rfl⟩ := List.mem_map.mp hn
      exact envelope_pos (h.envelopes e he)
    simpa [rootsOf, envelopesOf] using hle
  have halive : alive.card ≤ ∑ c ∈ alive, ownedBytes c := by
    have hle := Finset.card_nsmul_le_sum alive ownedBytes 1 fun c hc => by
      obtain ⟨hne, r, hr, hsuffix⟩ := hcounted.mem_iff.mp hc
      obtain ⟨e, he, rfl⟩ := List.mem_map.mp hr
      exact ((h.wellFormed e he).of_suffix hsuffix).owned_pos hne
    simpa using hle
  have hlt := hcounted.count_lt hk
  have hle := limits.bytes_le
  omega

theorem checkPut_ok (h : checkPut limits response = .ok bytes) :
    recordEnvelopeBytes response = .ok bytes ∧ bytes + cumulativeBytes response.context ≤ limits.maxBytes := by
  unfold checkPut at h
  split at h
  · cases h
  obtain ⟨envelope, henvelope, h⟩ := bind_ok h
  split at h
  · cases h
  next hfits =>
  cases h
  exact ⟨henvelope, by omega⟩

/-- How `put` refuses a response. -/
def Refused (limits : Limits) (s : ResponseStore P) (response : StoredResponse P) (error : StoreError) : Prop :=
  checkPut limits response = .error error ∨
  (response.id ∈ idsOf s.records ∧ error = .exn (.logicError "duplicate response id in response store")) ∨
  (error = bytesOverflowed ∧ ∃ bytes, recordEnvelopeBytes response = .ok bytes ∧
    sizeMax < s.currentBytes + bytes + cumulativeBytes response.context)

theorem wp_put (h : Sound s) (hbytes : s.currentBytes ≤ limits.maxBytes) (hwf : WellFormed response.context) :
    wp (ResponseStore.put limits response)
      (fun _ s' => Sound s' ∧ s'.records.length ≤ limits.maxRecords ∧ s'.currentBytes ≤ limits.maxBytes ∧
        ∃ envelopeBytes, { response, envelopeBytes } ∈ s'.records ∧
          s'.records.Sublist ({ response, envelopeBytes } :: s.records) ∧
          ∃ kept, kept <+: s.lru ∧ s'.lru = response.id :: kept)
      (fun error s' => s' = s ∧ Refused limits s response error) s := by
  unfold ResponseStore.put
  rw [wp_bind, wp_ofExcept]
  refine ⟨fun bytes hcheck => ?_, fun error hcheck => ⟨rfl, .inl hcheck⟩⟩
  obtain ⟨henvelope, hfits⟩ := checkPut_ok hcheck
  rw [wp_bind, wp_get]
  dsimp only
  split
  · next hdup =>
    refine ⟨rfl, .inr (.inl ⟨?_, rfl⟩)⟩
    rw [h.find_iff, h.lru.mem_iff] at hdup
    exact hdup
  next hnew =>
  have hfresh : response.id ∉ s.lru := fun hmem => hnew (h.find_iff.mpr hmem)
  rw [wp_bind, wp_modify]
  have hundo : ∀ n, undoPut response.id { s with
      lru := response.id :: s.lru, records := { response, envelopeBytes := bytes } :: s.records, currentBytes := n } =
      { s with currentBytes := n } := by
    intro n
    simp [undoPut, eraseRecord]
  split
  · next hbig =>
    rw [wp_bind, wp_modify]
    dsimp only
    rw [hundo]
    exact ⟨rfl, .inr (.inr ⟨rfl, bytes, henvelope, by omega⟩)⟩
  rw [wp_bind, wp_modify, wp_bind, wp_tryCatch]
  obtain ⟨alive, hcounted, heq⟩ := h.accounted
  have haccounted : Accounted { s with
      lru := response.id :: s.lru, records := { response, envelopeBytes := bytes } :: s.records
      currentBytes := s.currentBytes + bytes } (rootsOf s.records) (bytes + envelopesOf s.records) := by
    refine ⟨alive, hcounted, ?_⟩
    dsimp only
    omega
  refine wp_mono (wp_retainContext haccounted hwf fun c k hk => h.count_lt hbytes hk) ?_ ?_
  · rintro _ s' ⟨haccounted', hrecords, hlru⟩
    have hsound : Sound s' := by
      refine ⟨?_, ?_, ?_, ?_, ?_⟩
      · rw [hrecords]
        simpa [rootsOf, envelopesOf] using haccounted'
      · rw [hrecords]
        exact nodup_cons.mpr ⟨fun hmem => hfresh (h.lru.mem_iff.mpr hmem), h.ids⟩
      · rw [hrecords, hlru]
        exact h.lru.cons _
      · rw [hrecords]
        exact forall_mem_cons.mpr ⟨hwf, h.wellFormed⟩
      · rw [hrecords]
        exact forall_mem_cons.mpr ⟨henvelope, h.envelopes⟩
    rw [wp_bind, wp_get]
    have hmem : { response, envelopeBytes := bytes } ∈ s'.records := by
      rw [hrecords]
      exact mem_cons_self ..
    have hfuel : s.lru.length < s'.lru.length + 1 := by
      rw [hlru, length_cons]
      omega
    refine wp_mono (wp_evict hsound hlru hmem hfits hfuel) ?_ fun _ _ hfalse => hfalse.elim
    rintro _ s'' ⟨hsound', hcount, hbytes', hmem, hsub, hkept⟩
    rw [hrecords] at hsub
    exact ⟨hsound', hcount, hbytes', bytes, hmem, hsub, hkept⟩
  rintro error s' ⟨rfl, rfl, hbig⟩
  rw [wp_bind, wp_modify]
  dsimp only at hbig ⊢
  rw [Nat.add_sub_cancel, hundo]
  exact ⟨rfl, .inr (.inr ⟨rfl, bytes, henvelope, hbig⟩)⟩

theorem wp_storeGet (h : Sound s) :
    wp (ResponseStore.get id) (fun found s' => Sound s' ∧ s'.records = s.records ∧ s'.currentBytes = s.currentBytes ∧
      found = (s.find id).map (·.response) ∧ s'.lru = if id ∈ s.lru then id :: s.lru.erase id else s.lru)
      (fun _ _ => False) s := by
  unfold ResponseStore.get
  rw [wp_get_bind]
  split
  · next hnone =>
    have hnot : id ∉ s.lru := by
      intro hmem
      have := h.find_iff.mpr hmem
      rw [hnone] at this
      cases this
    exact ⟨h, rfl, rfl, by rw [hnone]; rfl, by rw [if_neg hnot]⟩
  next entry hfind =>
  have hmem : id ∈ s.lru := h.find_iff.mp (by rw [hfind]; rfl)
  refine ⟨⟨h.accounted, h.ids, (perm_cons_erase hmem).symm.trans h.lru, h.wellFormed, h.envelopes⟩, rfl, rfl, ?_, ?_⟩
  · rw [hfind]
    rfl
  · rw [if_pos hmem]

theorem wp_storeErase (h : Sound s) :
    wp (ResponseStore.erase id) (fun erased s' => Sound s' ∧ s'.records = eraseRecord id s.records ∧
      s'.lru = s.lru.erase id ∧ s'.currentBytes ≤ s.currentBytes ∧ erased = (s.find id).isSome) (fun _ _ => False) s := by
  unfold ResponseStore.erase
  rw [wp_get_bind]
  split
  · next hsome =>
    obtain ⟨entry, hfind⟩ := isSome_iff_exists.mp hsome
    rw [wp_bind]
    refine wp_imp (wp_eraseLocked h hfind) ?_
    rintro _ s' ⟨hsound, hlru, hrecords, hle⟩
    exact ⟨hsound, hrecords, hlru, hle, hsome.symm⟩
  next hnone =>
  have hnot : id ∉ s.lru := fun hmem => hnone (h.find_iff.mpr hmem)
  have hnone' : s.find id = none := by simpa using hnone
  refine ⟨h, ?_, (erase_of_not_mem hnot).symm, le_rfl, by rw [hnone']; rfl⟩
  refine (eraseP_of_forall_not ?_).symm
  exact fun e he => find?_eq_none.mp hnone' e he

end Limited

end VoidInfer.Serve
