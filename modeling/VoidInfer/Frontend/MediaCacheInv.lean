import Mathlib.Data.List.Infix
import VoidInfer.Frontend.MediaCache

/-
  The invariant of the media cache: the order and the map have the same keys, the retained bytes and the live bytes are
  sums, and a key is in the map of flights as long as its flight is not removed. Evictions and publications keep it.
-/

namespace VoidInfer.Frontend.MediaCache
open List Function

variable {κ ε : Type} {s s' s'' : State κ ε} {key : κ}

/-! ## Entries -/

/-- The bytes of a key's entry. -/
def bytesOf (s : State κ ε) (key : κ) : Nat := ((s.ready key).map (·.bytes)).getD 0

structure CacheOk (s : State κ ε) : Prop where
  nodup : s.lru.Nodup
  keys : ∀ key, key ∈ s.lru ↔ (s.ready key).isSome = true
  retained : s.retainedBytes = (s.lru.map (bytesOf s)).sum
  bounded : s.retainedBytes ≤ s.capacityBytes

/-- What evictions and publications leave as it is. -/
structure SameRest (s s' : State κ ε) : Prop where
  capacity : s'.capacityBytes = s.capacityBytes
  limit : s'.limit = s.limit
  inflight : s'.inflight = s.inflight
  flights : s'.flights = s.flights
  nextFlight : s'.nextFlight = s.nextFlight
  live : s'.live = s.live
  payloads : s'.payloads = s.payloads
  nextPayload : s'.nextPayload = s.nextPayload
  handles : s'.handles = s.handles

theorem SameRest.refl (s : State κ ε) : SameRest s s := ⟨rfl, rfl, rfl, rfl, rfl, rfl, rfl, rfl, rfl⟩

theorem SameRest.trans (h : SameRest s s') (h' : SameRest s' s'') : SameRest s s'' :=
  ⟨h'.capacity.trans h.capacity, h'.limit.trans h.limit, h'.inflight.trans h.inflight, h'.flights.trans h.flights,
    h'.nextFlight.trans h.nextFlight, h'.live.trans h.live, h'.payloads.trans h.payloads,
    h'.nextPayload.trans h.nextPayload, h'.handles.trans h.handles⟩

/-- Entries have left. -/
structure Evicted (s s' : State κ ε) : Prop where
  rest : SameRest s s'
  ready : ∀ key entry, s'.ready key = some entry → s.ready key = some entry
  retained : s'.retainedBytes ≤ s.retainedBytes

theorem Evicted.refl (s : State κ ε) : Evicted s s := ⟨.refl s, fun _ _ h => h, le_rfl⟩

theorem Evicted.trans (h : Evicted s s') (h' : Evicted s' s'') : Evicted s s'' :=
  ⟨h.rest.trans h'.rest, fun key entry hk => h.ready key entry (h'.ready key entry hk), h'.retained.trans h.retained⟩

variable [DecidableEq κ]

theorem evictOne_spec (h : CacheOk s) :
    ∃ s', evictOne s = .ok s' ∧ CacheOk s' ∧ Evicted s s' ∧ s'.lru = s.lru.dropLast := by
  rcases eq_nil_or_concat s.lru with hnil | ⟨front, last, hlru⟩
  · refine ⟨s, ?_, h, .refl s, by rw [hnil]; rfl⟩
    unfold evictOne
    rw [hnil]
    rfl
  rw [concat_eq_append] at hlru
  have hmem : last ∈ s.lru := by simp [hlru]
  obtain ⟨entry, hentry⟩ := Option.isSome_iff_exists.mp ((h.keys last).mp hmem)
  have hnodup := h.nodup
  rw [hlru] at hnodup
  have hnot : last ∉ front := fun hfront =>
    (nodup_append.mp hnodup).2.2 last hfront last (mem_singleton_self _) rfl
  have hbytes : bytesOf s last = entry.bytes := by simp [bytesOf, hentry]
  have hsum : s.retainedBytes = (front.map (bytesOf s)).sum + entry.bytes := by
    rw [h.retained, hlru, map_append, sum_append, map_singleton, sum_singleton, hbytes]
  have hevict : evictOne s = .ok { s with
      retainedBytes := s.retainedBytes - entry.bytes, lru := s.lru.dropLast
      ready := update s.ready last none } := by
    unfold evictOne
    rw [show s.lru.getLast? = some last by rw [hlru]; simp]
    dsimp only
    rw [hentry]
    dsimp only
    rw [if_neg (by omega)]
  have hother : ∀ {k}, k ≠ last → update s.ready last none k = s.ready k := fun hk =>
    update_of_ne hk ..
  refine ⟨_, hevict, ⟨?_, ?_, ?_, ?_⟩, ⟨⟨rfl, rfl, rfl, rfl, rfl, rfl, rfl, rfl, rfl⟩, ?_, Nat.sub_le _ _⟩, rfl⟩
  · exact h.nodup.sublist (dropLast_sublist _)
  · intro k
    dsimp only
    rw [hlru, dropLast_concat]
    by_cases hk : k = last
    · subst hk
      simp [hnot]
    rw [hother hk, ← h.keys, hlru]
    simp [hk]
  · dsimp only
    rw [hlru, dropLast_concat, hsum, Nat.add_sub_cancel]
    congr 1
    refine map_congr_left fun k hk => ?_
    have hne : k ≠ last := by
      intro heq
      subst heq
      exact hnot hk
    simp only [bytesOf]
    rw [hother hne]
  · exact (Nat.sub_le _ _).trans h.bounded
  · intro k e hk
    dsimp only at hk
    by_cases heq : k = last
    · subst heq
      simp at hk
    · rwa [hother heq] at hk

theorem makeRoom_spec (bytes : Nat) {rounds : Nat} (h : CacheOk s) (hrounds : s.lru.length ≤ rounds) :
    ∃ s', makeRoom bytes rounds s = .ok s' ∧ CacheOk s' ∧ Evicted s s' ∧ s'.retainedBytes ≤ s.capacityBytes - bytes := by
  induction rounds generalizing s with
  | zero =>
    have hnil : s.lru = [] := length_eq_zero_iff.mp (Nat.le_zero.mp hrounds)
    refine ⟨s, rfl, h, .refl s, ?_⟩
    rw [h.retained, hnil]
    exact Nat.zero_le _
  | succ rounds ih =>
    unfold makeRoom
    split
    · obtain ⟨s1, hevict, hok, hevicted, hlru⟩ := evictOne_spec h
      have hlength : s1.lru.length ≤ rounds := by
        rw [hlru, length_dropLast]
        omega
      obtain ⟨s2, hroom, hok', hevicted', hretained⟩ := ih hok hlength
      refine ⟨s2, ?_, hok', hevicted.trans hevicted', ?_⟩
      · rw [hevict]
        exact hroom
      · rwa [hevicted.rest.capacity] at hretained
    · next hfits => exact ⟨s, rfl, h, .refl s, Nat.not_lt.mp hfits⟩

theorem publish_spec (payload : Payload) (h : CacheOk s) (hnew : s.ready key = none) :
    ∃ s', publish key payload s = .ok s' ∧ CacheOk s' ∧ SameRest s s' ∧
      ∀ k entry, s'.ready k = some entry → s.ready k = some entry ∨ (k = key ∧ entry = ⟨payload.id, payload.bytes⟩) := by
  unfold publish
  split
  · next hfits =>
    obtain ⟨s1, hroom, hok, hevicted, hretained⟩ := makeRoom_spec payload.bytes h (Nat.le_refl s.lru.length)
    rw [hroom]
    have hcapacity := hevicted.rest.capacity
    have hnone : s1.ready key = none := by
      cases hk : s1.ready key with
      | none => rfl
      | some entry =>
        rw [hevicted.ready key entry hk] at hnew
        cases hnew
    have hnot : key ∉ s1.lru := by
      rw [hok.keys, hnone]
      simp
    have hother : ∀ {k}, k ≠ key →
        update s1.ready key (s1.ready key <|> some ⟨payload.id, payload.bytes⟩) k = s1.ready k :=
      fun hk => update_of_ne hk ..
    have hself : update s1.ready key (s1.ready key <|> some ⟨payload.id, payload.bytes⟩) key =
        some ⟨payload.id, payload.bytes⟩ := by
      rw [update_self, hnone]
      rfl
    refine ⟨{ s1 with lru := key :: s1.lru, retainedBytes := s1.retainedBytes + payload.bytes
                      ready := update s1.ready key (s1.ready key <|> some ⟨payload.id, payload.bytes⟩) }, ?_,
      ⟨?_, ?_, ?_, ?_⟩, ?_, ?_⟩
    · show (if s1.retainedBytes ≤ s1.capacityBytes - payload.bytes then _ else _) = _
      rw [if_pos (by omega)]
      rfl
    · exact nodup_cons.mpr ⟨hnot, hok.nodup⟩
    · intro k
      dsimp only
      by_cases hk : k = key
      · subst hk
        simp
      rw [hother hk, ← hok.keys]
      simp [hk]
    · dsimp only
      rw [map_cons, sum_cons, hok.retained, Nat.add_comm]
      congr 1
      · simp [bytesOf, hnone]
      · congr 1
        refine map_congr_left fun k hk => ?_
        have hne : k ≠ key := by
          intro heq
          subst heq
          exact hnot hk
        simp only [bytesOf]
        rw [hother hne]
    · dsimp only
      omega
    · exact hevicted.rest.trans ⟨rfl, rfl, rfl, rfl, rfl, rfl, rfl, rfl, rfl⟩
    · intro k entry hk
      dsimp only at hk
      by_cases heq : k = key
      · subst heq
        rw [hself] at hk
        exact .inr ⟨rfl, (Option.some.inj hk).symm⟩
      rw [hother heq] at hk
      exact .inl (hevicted.ready k entry hk)
  · exact ⟨s, rfl, h, .refl s, fun _ _ hk => .inl hk⟩

/-! ## The invariant -/

/-- The flight is still in the map. -/
def Phase.Open : Phase ε → Prop
  | .removed _ _ => False
  | _ => True

/-- The flight has not published anything. -/
def Phase.Early : Phase ε → Prop
  | .published _ | .done _ _ | .removed _ _ => False
  | _ => True

theorem Phase.Early.open {phase : Phase ε} (h : phase.Early) : phase.Open := by
  cases phase <;> trivial

/-- Somebody refers to the payload. -/
def Held (s : State κ ε) (payload : Payload) : Prop :=
  payload ∈ s.handles ∨ (∃ key, s.ready key = some ⟨payload.id, payload.bytes⟩) ∨
    ∃ f flight, s.flights f = some flight ∧ flight.phase.payload? = some payload

structure Inv (s : State κ ε) : Prop where
  cache : CacheOk s
  live : s.live = (s.payloads.map (·.bytes)).sum
  live_le : s.live ≤ s.limit
  own : ∀ (f : Nat) (flight : Flight κ ε), s.flights f = some flight → flight.phase.Open →
    s.inflight flight.key = some f
  mapped : ∀ (key : κ) (f : Nat), s.inflight key = some f →
    ∃ flight, s.flights f = some flight ∧ flight.key = key ∧ flight.phase.Open
  fresh : ∀ f, s.nextFlight ≤ f → s.flights f = none
  unready : ∀ (f : Nat) (flight : Flight κ ε), s.flights f = some flight → flight.phase.Early →
    s.ready flight.key = none
  refs : ∀ payload, Held s payload → payload ∈ s.payloads

end VoidInfer.Frontend.MediaCache
