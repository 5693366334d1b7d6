import VoidInfer.Runtime.PrefixIdentity

/-
  Appending to a resident identity: the checks made up front leave nothing to throw once a vector has changed, and
  `appended_copy` takes exactly the room it has announced.
-/

namespace VoidInfer.Runtime
open List

variable {capacity required : Nat}

variable {room width : Nat} {log : List Nat}

theorem appendCapacity_ge {maximum : Nat}
    (h : appendCapacity capacity maximum required = .ok room) : required ≤ room ∧ capacity ≤ room := by
  obtain ⟨u, hfits, h⟩ := bind_ok h
  rw [← Except.ok.inj h]
  split
  · omega
  · split <;> omega

theorem reserveAppend_of_le {grants : Grants}
    (h : required ≤ capacity) : reserveAppend grants width capacity required log = .ok (capacity, log) := by
  rw [reserveAppend, if_pos h]

theorem reserveAppend_always (h : appendCapacity capacity (maxSize width) required = .ok room) :
    ∃ log', reserveAppend always width capacity required log = .ok (room, log') := by
  unfold reserveAppend
  split
  · next hle =>
    have hroom : room = capacity := by
      obtain ⟨u, -, h⟩ := bind_ok h
      rw [← Except.ok.inj h, if_pos hle]
    exact ⟨log, by rw [hroom]⟩
  obtain ⟨log', hlog⟩ := allocate_always (room * width) log
  exact ⟨log', by rw [h]; simp only [bind, Except.bind, hlog]⟩

theorem checkGeneratedExtent_ok {first count : Nat} {delta : Int} {u : Unit}
    (h : checkGeneratedExtent first count delta = .ok u) (hcount : count ≠ 0) :
    first + count - 1 ≤ int32Max ∧ int32Min ≤ (first : Int) + delta ∧
      ((first + count - 1 : Nat) : Int) + delta ≤ int32Max := by
  obtain ⟨u1, -, h⟩ := bind_ok h
  rw [if_neg hcount] at h
  obtain ⟨u2, hlast, h⟩ := bind_ok h
  have h1 := throwIf_ok.mp hlast
  have h2 := throwIf_ok.mp h
  omega

namespace ResidentPrefixIdentity

/-- What an identity holds, whatever room its vectors have. -/
@[ext] structure Content where
  tokenTypes : List Nat
  positions : Fin 3 → List Int
  visionItems : List VisionItem
  rewriteExecutionFrontiers : List Nat

def content (identity : ResidentPrefixIdentity) : Content :=
  ⟨identity.tokenTypes.items, fun axis => (identity.positions axis).items,
    identity.visionItems.items, identity.rewriteExecutionFrontiers.items⟩

variable {grants : Grants} {identity : ResidentPrefixIdentity} {required count first : Nat} {delta : Int}
  {log : List Nat}

variable {s : Logged ResidentPrefixIdentity} {u : Unit} {width : Nat}

variable {s' : Logged ResidentPrefixIdentity} {types bytes n : Nat} {axes : Fin 3 → Nat}
  {log' : List Nat}

/-! ## Room -/

theorem reserveTypes_content (h : reserveTypes grants required s = .ok s') : s'.1.content = s.1.content := by
  obtain ⟨⟨room, log'⟩, -, h⟩ := bind_ok h
  rw [← Except.ok.inj h]
  rfl

theorem reserveAxis_content {axis : Fin 3}
    (h : reserveAxis grants required axis s = .ok s') : s'.1.content = s.1.content := by
  obtain ⟨⟨room, log'⟩, -, h⟩ := bind_ok h
  rw [← Except.ok.inj h]
  refine Content.ext rfl ?_ rfl rfl
  funext other
  simp only [content]
  split <;> rfl

/-- The four reservations of `append_generated`. -/
def reservations (grants : Grants) (required : Nat) :
    List (Logged ResidentPrefixIdentity → Except Exn (Logged ResidentPrefixIdentity)) :=
  reserveTypes grants required :: (List.finRange 3).map (reserveAxis grants required)

theorem reservations_eq {P : List Nat → Prop} (hlog : P log)
    (htypes : ∀ log, P log → ∃ log', P log' ∧
      reserveAppend grants 1 identity.tokenTypes.capacity required log = .ok (types, log'))
    (haxes : ∀ axis log, P log → ∃ log', P log' ∧
      reserveAppend grants 4 (identity.positions axis).capacity required log = .ok (axes axis, log')) :
    ∃ log', P log' ∧ inPlace (reservations grants required) (identity, log) =
      ((identity.roomy types axes, log'), .ok ()) := by
  obtain ⟨log0, hlog0, h0⟩ := htypes log hlog
  obtain ⟨log1, hlog1, h1⟩ := haxes 0 log0 hlog0
  obtain ⟨log2, hlog2, h2⟩ := haxes 1 log1 hlog1
  obtain ⟨log3, hlog3, h3⟩ := haxes 2 log2 hlog2
  refine ⟨log3, hlog3, ?_⟩
  have hrange : List.finRange 3 = [0, 1, 2] := rfl
  simp only [reservations, hrange, map_cons, map_nil, inPlace, reserveTypes, reserveAxis, h0, bind, Except.bind]
  simp only [h1]
  simp only [show (1 : Fin 3) ≠ 0 by decide, show (2 : Fin 3) ≠ 0 by decide, show (2 : Fin 3) ≠ 1 by decide,
    if_false, h2, h3]
  refine Prod.ext (Prod.ext (ResidentPrefixIdentity.ext rfl ?_ rfl rfl) rfl) rfl
  funext axis
  obtain ⟨_ | _ | _ | axis, haxis⟩ := axis
  · rfl
  · rfl
  · rfl
  · omega

theorem reservations_of_room (htypes : required ≤ identity.tokenTypes.capacity)
    (haxes : ∀ axis, required ≤ (identity.positions axis).capacity) :
    inPlace (reservations grants required) (identity, log) = ((identity, log), .ok ()) := by
  have hkept : ∃ log', log' = log ∧ inPlace (reservations grants required) (identity, log) =
      ((identity.roomy identity.tokenTypes.capacity (fun axis => (identity.positions axis).capacity), log'),
        .ok ()) := reservations_eq (P := (· = log)) rfl
    (fun log hlog => ⟨log, hlog, reserveAppend_of_le htypes⟩)
    (fun axis log hlog => ⟨log, hlog, reserveAppend_of_le (haxes axis)⟩)
  obtain ⟨log', rfl, h⟩ := hkept
  rw [h]
  have hself : identity.roomy identity.tokenTypes.capacity (fun axis => (identity.positions axis).capacity) =
      identity := by
    refine ResidentPrefixIdentity.ext (Vec.ext rfl (Nat.max_self _)) ?_ rfl rfl
    funext axis
    exact Vec.ext rfl (Nat.max_self _)
  rw [hself]

/-! ## Tokens -/

/-- The identity after the generated tokens from `first` on. -/
def generated (identity : ResidentPrefixIdentity) (first count : Nat) (delta : Int) : ResidentPrefixIdentity :=
  (List.range count).foldl (fun identity offset => identity.pushToken (((first + offset : Nat) : Int) + delta))
    identity

theorem pushToken_content (position : Int) :
    (identity.pushToken position).content =
      ⟨identity.content.tokenTypes ++ [0], fun axis => identity.content.positions axis ++ [position],
        identity.content.visionItems, identity.content.rewriteExecutionFrontiers⟩ := rfl

theorem generated_content :
    (identity.generated first count delta).content =
      ⟨identity.tokenTypes.items ++ List.replicate count 0,
        fun axis => (identity.positions axis).items ++
          (List.range count).map fun offset => ((first + offset : Nat) : Int) + delta,
        identity.visionItems.items, identity.rewriteExecutionFrontiers.items⟩ := by
  unfold generated
  induction count with
  | zero => simp [content]
  | succ count ih =>
    simp only [range_succ, foldl_append, foldl_cons, foldl_nil, map_append, map_cons, map_nil]
    rw [pushToken_content, ih]
    simp only [replicate_succ', append_assoc]

theorem pushes_eq (hcheck : checkGeneratedExtent first count delta = .ok u) :
    inPlace ((List.range count).map fun offset => pushGenerated (first + offset) delta) (identity, log) =
      ((identity.generated first count delta, log), .ok ()) := by
  have hok : ∀ done ≤ count,
      inPlace ((List.range done).map fun offset => pushGenerated (first + offset) delta) (identity, log) =
        ((identity.generated first done delta, log), .ok ()) := by
    intro done
    induction done with
    | zero => exact fun _ => rfl
    | succ done ih =>
      intro hle
      obtain ⟨h1, h2, h3⟩ := checkGeneratedExtent_ok hcheck (by omega)
      have hstep : pushGenerated (first + done) delta (identity.generated first done delta, log) =
          .ok ((identity.generated first done delta).pushToken (((first + done : Nat) : Int) + delta), log) := by
        unfold pushGenerated
        rw [show throwIf (first + done > int32Max) _ = .ok () from throwIf_neg (by omega),
          show throwIf (((first + done : Nat) : Int) + delta < int32Min ∨ _) _ = .ok () from
            throwIf_ok.mpr (by omega)]
        rfl
      rw [range_succ, map_append, inPlace_append, ih (by omega)]
      change inPlace [pushGenerated (first + done) delta] (identity.generated first done delta, log) = _
      rw [inPlace_cons_ok hstep, inPlace_nil]
      simp only [generated, range_succ, foldl_append, foldl_cons, foldl_nil]
  exact hok count le_rfl

/-! ## `append_generated` -/

theorem appendGenerated_of_check (hcheck : checkGeneratedExtent s.1.size count delta = .ok u) :
    appendGenerated grants count delta s =
      inPlace (reservations grants (s.1.size + count) ++
        (List.range count).map fun offset => pushGenerated (s.1.size + offset) delta) s := by
  simp only [appendGenerated, hcheck, reservations]

theorem reservations_content : (inPlace (reservations grants required) s).1.1.content = s.1.content := by
  refine inPlace_keeps (fun s : Logged ResidentPrefixIdentity => s.1.content) fun f hf s s' hs => ?_
  rcases mem_cons.mp hf with rfl | hf
  · exact reserveTypes_content hs
  obtain ⟨axis, -, rfl⟩ := List.mem_map.mp hf
  exact reserveAxis_content hs

theorem appendGenerated_cases (grants : Grants) (s : Logged ResidentPrefixIdentity) :
    (∃ e, (appendGenerated grants count delta s).2 = .error e ∧
      (appendGenerated grants count delta s).1.1.content = s.1.content) ∨
    ∃ room : ResidentPrefixIdentity, room.content = s.1.content ∧
      (∃ u, checkGeneratedExtent s.1.size count delta = .ok u) ∧
      (appendGenerated grants count delta s).2 = .ok () ∧
      (appendGenerated grants count delta s).1.1 = room.generated s.1.size count delta := by
  cases hcheck : checkGeneratedExtent s.1.size count delta with
  | error e => exact .inl ⟨e, by simp only [appendGenerated, hcheck], by simp only [appendGenerated, hcheck]⟩
  | ok u =>
    have hkeeps : (inPlace (reservations grants (s.1.size + count)) s).1.1.content = s.1.content :=
      reservations_content
    rw [appendGenerated_of_check hcheck, inPlace_append]
    rcases hres : inPlace _ s with ⟨⟨room, log'⟩, e | ⟨⟩⟩
    · rw [hres] at hkeeps
      exact .inl ⟨e, rfl, hkeeps⟩
    rw [hres] at hkeeps
    refine .inr ⟨room, hkeeps, ⟨u, rfl⟩, ?_, ?_⟩
    · simp only [pushes_eq hcheck]
    · simp only [pushes_eq hcheck]

/-! ## `appended_copy` -/

theorem copyGrowing_ok {α : Type} {room : Nat} {source : Vec α}
    (h : copyGrowing grants width source required log = .ok (room, log')) :
    appendCapacity source.items.length (maxSize width) required = .ok room ∧ log'.sum = log.sum + room * width := by
  obtain ⟨room', hroom, h⟩ := bind_ok h
  obtain ⟨log1, hlog, h⟩ := bind_ok h
  cases h
  exact ⟨hroom, allocate_ok hlog⟩

/-- What the vectors of one item take. -/
def itemBytes (item : VisionItem) : Nat := item.timestamps.length * 8 + item.tokenSpans.length * 16

theorem copyItems_ok {items : List VisionItem} (h : items.foldlM (copyItem grants) log = .ok log') :
    log'.sum = log.sum + (items.map itemBytes).sum := by
  induction items generalizing log with
  | nil => rw [← Except.ok.inj h]; simp
  | cons item items ih =>
    obtain ⟨log1, h1, h⟩ := bind_ok h
    obtain ⟨log0, h0, h1⟩ := bind_ok h1
    rw [ih h, allocate_ok h1, allocate_ok h0, map_cons, sum_cons, itemBytes]
    omega

/-- What the copy takes, from the capacities of its growing vectors. -/
def copyBytes (identity : ResidentPrefixIdentity) (types : Nat) (axes : Fin 3 → Nat) : Nat :=
  types * 1 + axes 0 * 4 + axes 1 * 4 + axes 2 * 4 + identity.visionItems.items.length * visionItemBytes +
    (identity.visionItems.items.map itemBytes).sum + identity.rewriteExecutionFrontiers.items.length * 4

section
variable (h : appendedCopy grants identity count delta = .ok s)
include h

theorem appendedCopy_ok :
    ∃ u types axes, checkGeneratedExtent identity.size count delta = .ok u ∧
      appendCapacity identity.tokenTypes.items.length (maxSize 1) (identity.size + count) = .ok types ∧
      (∀ axis, appendCapacity (identity.positions axis).items.length (maxSize 4) (identity.size + count) =
        .ok (axes axis)) ∧
      s.1 = (identity.copy.roomy types axes).generated identity.size count delta ∧
      s.2.sum = identity.copyBytes types axes := by
  obtain ⟨u, hcheck, h⟩ := bind_ok h
  obtain ⟨⟨types, log0⟩, hc, h⟩ := bind_ok h
  obtain ⟨⟨axis0, log1⟩, hc0, h⟩ := bind_ok h
  obtain ⟨⟨axis1, log2⟩, hc1, h⟩ := bind_ok h
  obtain ⟨⟨axis2, log3⟩, hc2, h⟩ := bind_ok h
  obtain ⟨log4, h4, h⟩ := bind_ok h
  obtain ⟨log5, h5, h⟩ := bind_ok h
  obtain ⟨log6, h6, h⟩ := bind_ok h
  obtain ⟨htypes, hs⟩ := copyGrowing_ok hc
  obtain ⟨h0, hs0⟩ := copyGrowing_ok hc0
  obtain ⟨h1, hs1⟩ := copyGrowing_ok hc1
  obtain ⟨h2, hs2⟩ := copyGrowing_ok hc2
  have haxes : ∀ axis, appendCapacity (identity.positions axis).items.length (maxSize 4)
      (identity.size + count) = .ok ((![axis0, axis1, axis2] : Fin 3 → Nat) axis) := fun axis => by
    match axis with
    | 0 => exact h0
    | 1 => exact h1
    | 2 => exact h2
  refine ⟨u, types, ![axis0, axis1, axis2], hcheck, htypes, haxes, ?_⟩
  -- the room is there, so the reservations of the append take nothing
  have hres : inPlace (reservations grants (identity.size + count))
      (identity.copy.roomy types ![axis0, axis1, axis2], log6) =
      ((identity.copy.roomy types ![axis0, axis1, axis2], log6), .ok ()) := reservations_of_room
    (Nat.le_trans (appendCapacity_ge htypes).1 (Nat.le_max_right _ _))
    (fun axis => Nat.le_trans (appendCapacity_ge (haxes axis)).1 (Nat.le_max_right _ _))
  have hsize : (identity.copy.roomy types ![axis0, axis1, axis2]).size = identity.size := rfl
  unfold appendedTo at h
  rw [appendGenerated_of_check (by exact hcheck), inPlace_append, hsize, hres] at h
  simp only [pushes_eq hcheck] at h
  rw [← Except.ok.inj h]
  refine ⟨rfl, ?_⟩
  have hs4 := allocate_ok h4
  have hs5 := copyItems_ok h5
  have hs6 := allocate_ok h6
  rw [sum_nil] at hs
  simp only [copyBytes, hs6, hs5, hs4, hs2, hs1, hs0, hs]
  change _ = types * 1 + axis0 * 4 + axis1 * 4 + axis2 * 4 + _ + _ + _
  omega

theorem appendedCopy_eq : ∃ log', appendGenerated always count delta (identity.copy, []) = ((s.1, log'), .ok ()) := by
  obtain ⟨u, types, axes, hcheck, htypes, haxes, hobject, -⟩ := appendedCopy_ok h
  have hrooms : ∃ log', True ∧ inPlace (reservations always (identity.size + count)) (identity.copy, []) =
      ((identity.copy.roomy types axes, log'), .ok ()) := reservations_eq (P := fun _ => True) trivial
    (fun log _ => (reserveAppend_always htypes).imp fun log' hlog => ⟨trivial, hlog⟩)
    (fun axis log _ => (reserveAppend_always (haxes axis)).imp fun log' hlog => ⟨trivial, hlog⟩)
  obtain ⟨log', -, hres⟩ := hrooms
  refine ⟨log', ?_⟩
  have hsize : identity.copy.size = identity.size := rfl
  rw [appendGenerated_of_check (by exact hcheck), inPlace_append, hsize, hres]
  simp only [pushes_eq hcheck, hobject]

end

/-! ## `copied_append_allocation_bytes` -/

/-- A total that a 64-bit count can hold. -/
def counted (bytes : Nat) : Except Exn Nat :=
  if bytes ≤ uint64Max then .ok bytes
  else .error (.overflowError "prefix identity copied allocation bytes")

theorem addBytes_eq (hwidth : 0 < width) (hle : bytes ≤ uint64Max) :
    addBytes bytes n width = counted (bytes + n * width) := by
  have hdiv : n > uint64Max / width ↔ n * width > uint64Max := Nat.div_lt_iff_lt_mul hwidth
  unfold addBytes counted throwIf
  by_cases hfits : bytes + n * width ≤ uint64Max
  · rw [if_neg (by omega), if_pos hfits]
    rfl
  rw [if_pos (by omega), if_neg hfits]
  rfl

theorem counted_add (hwidth : 0 < width) :
    (counted bytes >>= fun bytes => addBytes bytes n width) = counted (bytes + n * width) := by
  by_cases hle : bytes ≤ uint64Max
  · rw [← addBytes_eq hwidth hle, counted, if_pos hle]
    rfl
  rw [counted, counted, if_neg hle, if_neg (by omega)]
  rfl

theorem counted_items (items : List VisionItem) (bytes : Nat) :
    (counted bytes >>= fun bytes => items.foldlM (fun bytes item => do
      let bytes ← addBytes bytes item.timestamps.length 8
      addBytes bytes item.tokenSpans.length 16) bytes) = counted (bytes + (items.map itemBytes).sum) := by
  induction items generalizing bytes with
  | nil => exact bind_pure _
  | cons item items ih =>
    simp only [foldlM_cons]
    rw [← bind_assoc, ← bind_assoc, counted_add (by omega), counted_add (by omega), ih, map_cons, sum_cons, itemBytes]
    congr 1
    omega

theorem copiedAppendAllocationBytes_eq (hcheck : checkGeneratedExtent identity.size count delta = .ok u)
    (htypes : appendCapacity identity.tokenTypes.items.length (maxSize 1) (identity.size + count) = .ok types)
    (haxes : ∀ axis, appendCapacity (identity.positions axis).items.length (maxSize 4)
      (identity.size + count) = .ok (axes axis)) :
    copiedAppendAllocationBytes identity count delta = counted (identity.copyBytes types axes) := by
  have hrange : List.finRange 3 = [0, 1, 2] := rfl
  have hzero : ∀ width n, 0 < width → addBytes 0 n width = counted (0 + n * width) := fun width n hwidth =>
    addBytes_eq hwidth (Nat.zero_le _)
  have hok : ∀ {β : Type} a (f : Nat → Except Exn β), (Except.ok a >>= f) = f a := fun _ _ => rfl
  unfold copiedAppendAllocationBytes
  rw [hcheck]
  simp only [hrange, foldlM_cons, foldlM_nil, haxes, htypes, hok]
  change (addBytes 0 types 1 >>= _) = _
  rw [hzero 1 types (by omega)]
  simp only [← bind_assoc, bind_pure]
  rw [counted_add (by omega), counted_add (by omega), counted_add (by omega), counted_add (by decide),
    counted_items, counted_add (by omega)]
  congr 1
  simp only [copyBytes]
  omega

end ResidentPrefixIdentity

end VoidInfer.Runtime
