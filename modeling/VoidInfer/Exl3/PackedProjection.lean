import VoidInfer.Base

/-
  `Exl3ProjectionRows` and `Exl3PackedProjectionPlan` (`src/exl3/packed_projection.h`): the rows of several requests
  packed into one projection.

  `Admitted` and `Agrees` say in exact arithmetic what is asked of a source and of two; the pair check and the plan both
  decide them, each by its own formulas.
-/

namespace VoidInfer.Exl3.PackedProjection
open List

/-! ## The source -/

/-- A result of type `std::size_t` or `std::uintptr_t`. -/
def wrap (value : Int) : Nat := (value % 2 ^ 64).toNat

/-- `std::shared_ptr<const void>`. -/
structure SharedPointer where
  pointer : UInt64
  control : UInt64
  useCount : Nat

def sameOwner (a b : SharedPointer) : Bool :=
  a.pointer = b.pointer && !decide (a.control < b.control) && !decide (b.control < a.control)

/-- The fields of the input, or those of the output. -/
structure Side where
  pointer : UInt64
  columns : Int32
  stride : UInt64
  storageElements : UInt64

/-- `Exl3ProjectionRows`. -/
structure Rows where
  request : UInt64
  acquisition : UInt64
  execution : UInt64
  model : SharedPointer
  root : SharedPointer
  inputOwner : SharedPointer
  outputOwner : SharedPointer
  contract : { bytes : List UInt8 // bytes.length ≤ 128 }
  position : Int32
  rows : Int32
  input : Side
  output : Side

namespace Rows

def geometry (r : Rows) (capacity : Int) : Bool :=
  r.request ≠ 0 && r.acquisition ≠ 0 && r.execution ≠ 0 &&
  [r.model, r.root, r.inputOwner, r.outputOwner].all (fun p => p.pointer ≠ 0 && p.useCount ≠ 0) &&
  !r.contract.1.isEmpty && r.input.pointer ≠ 0 && r.output.pointer ≠ 0 &&
  0 < r.rows.toInt && r.rows.toInt ≤ capacity && 0 ≤ r.position.toInt &&
  r.position.toInt ≤ int32Max - r.rows.toInt && 0 < r.input.columns.toInt && 0 < r.output.columns.toInt &&
  wrap r.input.columns.toInt ≤ r.input.stride.toNat && wrap r.output.columns.toInt ≤ r.output.stride.toNat &&
  r.input.stride.toNat ≤ sizeMax / 2 && r.output.stride.toNat ≤ sizeMax / 2

def covers (r : Rows) (s : Side) : Bool :=
  let width := wrap s.columns.toInt
  let storage := min s.storageElements.toNat (sizeMax / 2)
  width ≤ storage && wrap (r.rows.toInt - 1) ≤ wrap (storage - width) / s.stride.toNat

/-- `((rows-1)*stride+columns)*sizeof(std::uint16_t)`. -/
def bytes (r : Rows) (s : Side) : Nat :=
  wrap (wrap (wrap (wrap (r.rows.toInt - 1) * s.stride.toNat) + wrap s.columns.toInt) * 2)

def validAdmission (r : Rows) (capacity : Int) : Bool :=
  let a := r.input.pointer.toNat
  let b := r.output.pointer.toNat
  r.geometry capacity && r.covers r.input && r.covers r.output &&
    r.bytes r.input ≤ wrap (sizeMax - a) && r.bytes r.output ≤ wrap (sizeMax - b) &&
    if a ≥ b then wrap (a - b) ≥ r.bytes r.output else wrap (b - a) ≥ r.bytes r.input

/-- `bounds` of the pair check. -/
def bounds (r : Rows) (s : Side) : Nat × Nat := (s.pointer.toNat, wrap (s.pointer.toNat + r.bytes s))

/-- `range` of the plan. -/
def range (r : Rows) (s : Side) : Except Exn (Nat × Nat) := do
  let limit := sizeMax / 2
  throwIf (s.stride.toNat > limit ∨ wrap s.columns.toInt > limit ∨
      wrap (r.rows.toInt - 1) > wrap (limit - wrap s.columns.toInt) / s.stride.toNat)
    (.overflowError "packed projection byte extent")
  throwIf (r.bytes s > wrap (sizeMax - s.pointer.toNat)) (.overflowError "packed projection address extent")
  return (s.pointer.toNat, wrap (s.pointer.toNat + r.bytes s))

def mismatched (p s : Rows) : Bool :=
  p.request = s.request || !sameOwner p.model s.model || p.contract ≠ s.contract ||
    p.input.columns ≠ s.input.columns || p.output.columns ≠ s.output.columns

end Rows

def overlap (a b : Nat × Nat) : Bool := a.1 < b.2 && b.1 < a.2

def validPair (a b : Rows) (capacity : Int) : Bool :=
  !(capacity < 2 || capacity > 16 || !a.validAdmission capacity || !b.validAdmission (capacity - a.rows.toInt) ||
    a.mismatched b) &&
  [a.input, a.output].all fun left => [b.input, b.output].all fun right =>
    !overlap (a.bounds left) (b.bounds right)

structure Lane where
  source : Rows
  packedFirst : Int

/-- `Exl3PackedProjectionPlan`. -/
structure Plan where
  lanes : List Lane := []
  rows : Int := 0

/-- What the liveness owner answers, by the number of the call. -/
abbrev Live := Nat → Rows → Bool

/-- The body of the inner loop of `assemble`; `input` and `output` are the ranges of `s`. -/
def checkLane (s : Rows) (input output : Nat × Nat) (lane : Lane) : Except Exn Unit := do
  let p := lane.source
  throwIf (p.mismatched s) (.invalidArgument "packed projection contract/alias mismatch")
  let first ← p.range p.input
  throwIf (overlap input first) (.invalidArgument "packed projection contract/alias mismatch")
  let second ← p.range p.output
  throwIf (overlap input second ∨ overlap output first ∨ overlap output second)
    (.invalidArgument "packed projection contract/alias mismatch")

/-- The body of the loop of `assemble`. -/
def add (capacity : Int) (live : Live) (plan : Plan) (s : Rows) : Except Exn Plan := do
  throwIf (¬ s.validAdmission (capacity - plan.rows) ∨ ¬ live plan.lanes.length s)
    (.invalidArgument "packed projection incompatible/stale row")
  let input ← s.range s.input
  let output ← s.range s.output
  throwIf (wrap (input.2 - input.1) / 2 > s.input.storageElements.toNat ∨
      wrap (output.2 - output.1) / 2 > s.output.storageElements.toNat)
    (.invalidArgument "packed projection owner extent too small")
  throwIf (overlap input output) (.invalidArgument "packed projection in-place alias")
  plan.lanes.forM (checkLane s input output)
  return { lanes := plan.lanes ++ [⟨s, plan.rows⟩], rows := plan.rows + s.rows.toInt }

def Plan.validateLive (plan : Plan) (live : Live) : Except Exn Unit := do
  throwIf (plan.lanes.length < 2 ∨ plan.rows < 2) (.invalidArgument "packed projection empty or moved-from plan")
  (plan.lanes.zipIdx plan.lanes.length).forM fun (lane, call) =>
    throwIf (¬ live call lane.source) (.invalidArgument "packed projection canceled/stale acquisition")

/-- Without a liveness owner `live` is `none`. -/
def assemble (sources : List Rows) (capacity : Int) (live : Option Live) : Except Exn Plan :=
  match live with
  | none => .error (.invalidArgument "packed projection liveness owner missing")
  | some live => do
    throwIf (sources.length < 2 ∨ sources.length > 8 ∨ capacity < 2 ∨ capacity > 16)
      (.invalidArgument "packed projection bounded membership")
    let plan ← sources.foldlM (add capacity live) {}
    plan.validateLive live
    return plan

/-! ## In exact arithmetic -/

/-- The bytes from the first element of a side to the last. -/
def Rows.extent (r : Rows) (s : Side) : Int := ((r.rows.toInt - 1) * s.stride.toNat + s.columns.toInt) * 2

def Rows.span (r : Rows) (s : Side) : Int × Int := (s.pointer.toNat, s.pointer.toNat + r.extent s)

/-- The unsigned results on the way to the range of a side. -/
def Rows.computed (r : Rows) (s : Side) : List Int :=
  [r.rows.toInt - 1, s.columns.toInt, min s.storageElements.toNat (sizeMax / 2) - s.columns.toInt,
    sizeMax / 2 - s.columns.toInt, (r.rows.toInt - 1) * s.stride.toNat,
    (r.rows.toInt - 1) * s.stride.toNat + s.columns.toInt, r.extent s, sizeMax - s.pointer.toNat,
    s.pointer.toNat + r.extent s]

/-- A side inside its storage and inside the address space. -/
def Rows.Fits (r : Rows) (s : Side) : Prop :=
  r.extent s ≤ 2 * s.storageElements.toNat ∧ s.pointer.toNat + r.extent s ≤ sizeMax

def Apart (x y : Int × Int) : Prop := x.2 ≤ y.1 ∨ y.2 ≤ x.1

structure Admitted (r : Rows) (capacity : Int) : Prop where
  geometry : r.geometry capacity = true
  input : r.Fits r.input
  output : r.Fits r.output
  apart : Apart (r.span r.input) (r.span r.output)

def Agrees (p s : Rows) : Prop :=
  p.mismatched s = false ∧ Apart (p.span p.input) (s.span s.input) ∧ Apart (p.span p.input) (s.span s.output) ∧
    Apart (p.span p.output) (s.span s.input) ∧ Apart (p.span p.output) (s.span s.output)

/-- What the geometry says of a side. -/
structure Shaped (r : Rows) (s : Side) : Prop where
  rows : 0 < r.rows.toInt
  columns : 0 < s.columns.toInt
  stride : s.columns.toInt ≤ s.stride.toNat
  bounded : s.stride.toNat ≤ sizeMax / 2

variable {r a b : Rows} {s : Side} {capacity : Int}

theorem wrap_eq {v : Int} (h : 0 ≤ v) (hle : v ≤ sizeMax) : (wrap v : Int) = v := by
  unfold wrap sizeMax at *
  omega

theorem shaped_of_geometry (h : r.geometry capacity = true) : Shaped r r.input ∧ Shaped r r.output := by
  simp only [Rows.geometry, Bool.and_eq_true, decide_eq_true_eq] at h
  have hin := r.input.columns.toInt_lt
  have hout := r.output.columns.toInt_lt
  have h1 := wrap_eq (v := r.input.columns.toInt) (by omega) (by unfold sizeMax; omega)
  have h2 := wrap_eq (v := r.output.columns.toInt) (by omega) (by unfold sizeMax; omega)
  exact ⟨⟨by omega, by omega, by omega, by omega⟩, by omega, by omega, by omega, by omega⟩

section
variable (h : Shaped r s)
include h

theorem Shaped.lasts : wrap (r.rows.toInt - 1) = r.rows.toInt - 1 ∧
    (wrap s.columns.toInt : Int) = s.columns.toInt ∧ 0 ≤ (r.rows.toInt - 1) * s.stride.toNat ∧
    ((wrap (r.rows.toInt - 1) * s.stride.toNat : Nat) : Int) = (r.rows.toInt - 1) * s.stride.toNat := by
  have hrows := r.rows.toInt_lt
  have hcolumns := s.columns.toInt_lt
  obtain ⟨h1, h2, -, -⟩ := id h
  have hrow := wrap_eq (v := r.rows.toInt - 1) (by omega) (by unfold sizeMax; omega)
  exact ⟨hrow, wrap_eq (by omega) (by unfold sizeMax; omega), Int.mul_nonneg (by omega) (by omega),
    by rw [Int.natCast_mul, hrow]⟩

theorem Shaped.extent_pos : 0 < r.extent s := by
  have h1 := h.lasts.2.2.1
  have h2 := h.columns
  unfold Rows.extent
  omega

theorem Shaped.bytes_eq (hfits : r.extent s ≤ sizeMax) : (r.bytes s : Int) = r.extent s := by
  obtain ⟨h1, h2, h3, -⟩ := h.lasts
  unfold Rows.extent at hfits ⊢
  unfold Rows.bytes
  have h5 : (wrap (wrap (r.rows.toInt - 1) * s.stride.toNat) : Int) = (r.rows.toInt - 1) * s.stride.toNat := by
    rw [h1]
    exact wrap_eq h3 (by omega)
  rw [h5, h2, wrap_eq (v := _ + _) (by omega) (by omega), wrap_eq (by omega) hfits]

theorem Shaped.covers_iff : r.covers s = true ↔ r.extent s ≤ 2 * s.storageElements.toNat ∧ r.extent s ≤ sizeMax := by
  obtain ⟨h1, h2, h3, hproduct⟩ := h.lasts
  obtain ⟨-, h4, h5, -⟩ := id h
  simp only [Rows.covers, Bool.and_eq_true, decide_eq_true_eq]
  rw [Nat.le_div_iff_mul_le (by omega)]
  unfold Rows.extent
  by_cases hwide : wrap s.columns.toInt ≤ min s.storageElements.toNat (sizeMax / 2)
  · have hroom := wrap_eq (v := (min s.storageElements.toNat (sizeMax / 2) : Nat) - wrap s.columns.toInt)
      (by omega) (by omega)
    omega
  · omega

end

/-- A side where both checks find it, with every result on the way exact. -/
structure Placed (r : Rows) (s : Side) : Prop where
  fits : r.Fits s
  found : r.range s = .ok (r.bounds s)
  first : ((r.bounds s).1 : Int) = (r.span s).1
  last : ((r.bounds s).2 : Int) = (r.span s).2
  computed : ∀ x ∈ r.computed s, 0 ≤ x ∧ x ≤ sizeMax

theorem Shaped.placed (h : Shaped r s) (hfits : r.Fits s) : Placed r s := by
  obtain ⟨h1, h2, h3, hproduct⟩ := h.lasts
  obtain ⟨h4, h5, h6, h7⟩ := id h
  have hrows := r.rows.toInt_lt
  obtain ⟨hstorage, hsum⟩ := id hfits
  have hbytes := h.bytes_eq (by omega)
  have hmax : sizeMax / 2 * 2 + 1 = sizeMax ∧ 2 ^ 31 ≤ sizeMax := by decide
  refine ⟨hfits, ?_, rfl, ?_, ?_⟩
  · have hroom := wrap_eq (v := (sizeMax / 2 : Nat) - wrap s.columns.toInt) (by omega) (by omega)
    have hlast : wrap (r.rows.toInt - 1) ≤ wrap ((sizeMax / 2 : Nat) - wrap s.columns.toInt) / s.stride.toNat := by
      rw [Nat.le_div_iff_mul_le (by omega)]
      unfold Rows.extent at hsum
      omega
    have hleft := wrap_eq (v := sizeMax - s.pointer.toNat) (by omega) (by omega)
    unfold Rows.range
    dsimp only
    rw [throwIf_neg (by omega), throwIf_neg (by omega)]
    rfl
  · rw [Rows.bounds, hbytes]
    exact wrap_eq (by omega) hsum
  · simp only [Rows.computed, mem_cons, not_mem_nil, or_false]
    unfold Rows.extent at *
    rintro x (rfl | rfl | rfl | rfl | rfl | rfl | rfl | rfl | rfl) <;> omega

theorem distance_iff {x y i o : Nat} (hx : x ≤ sizeMax) (hy : y ≤ sizeMax) (hi : 0 < i) (ho : 0 < o) :
    (if x ≥ y then decide (wrap (x - y) ≥ o) else decide (wrap (y - x) ≥ i)) = true ↔ x + i ≤ y ∨ y + o ≤ x := by
  split <;> rw [decide_eq_true_eq]
  · have hd := wrap_eq (v := x - y) (by omega) (by omega)
    omega
  have hd := wrap_eq (v := y - x) (by omega) (by omega)
  omega

theorem validAdmission_iff : r.validAdmission capacity = true ↔ Admitted r capacity := by
  by_cases hgeometry : r.geometry capacity = true
  · obtain ⟨hshaped, hshaped'⟩ := shaped_of_geometry hgeometry
    have ha := r.input.pointer.toNat_lt
    have hb := r.output.pointer.toNat_lt
    have hmax : sizeMax + 1 = 2 ^ 64 := by decide
    have hwa := wrap_eq (v := sizeMax - r.input.pointer.toNat) (by omega) (by omega)
    have hwb := wrap_eq (v := sizeMax - r.output.pointer.toNat) (by omega) (by omega)
    have hpos := hshaped.extent_pos
    have hpos' := hshaped'.extent_pos
    simp only [Rows.validAdmission, Bool.and_eq_true, decide_eq_true_eq, hgeometry, hshaped.covers_iff,
      hshaped'.covers_iff, true_and]
    constructor
    · rintro ⟨⟨⟨⟨⟨hin, hi⟩, hout, ho⟩, h1⟩, h2⟩, hdistance⟩
      have hib := hshaped.bytes_eq hi
      have hob := hshaped'.bytes_eq ho
      rw [distance_iff (by omega) (by omega) (by omega) (by omega)] at hdistance
      exact ⟨hgeometry, ⟨hin, by omega⟩, ⟨hout, by omega⟩, by unfold Apart Rows.span; omega⟩
    · rintro ⟨-, ⟨hin, hi⟩, ⟨hout, ho⟩, hapart⟩
      have hib := hshaped.bytes_eq (by omega)
      have hob := hshaped'.bytes_eq (by omega)
      unfold Apart Rows.span at hapart
      rw [distance_iff (by omega) (by omega) (by omega) (by omega)]
      omega
  · exact iff_of_false (by simp [Rows.validAdmission, hgeometry]) fun h => hgeometry h.geometry

theorem Admitted.placed (h : Admitted r capacity) : Placed r r.input ∧ Placed r r.output := by
  obtain ⟨hin, hout⟩ := shaped_of_geometry h.geometry
  exact ⟨hin.placed h.input, hout.placed h.output⟩

/-! ## Two sources -/

theorem overlap_iff {t : Side} (ha : Placed a s) (hb : Placed b t) :
    overlap (a.bounds s) (b.bounds t) = false ↔ Apart (a.span s) (b.span t) := by
  simp only [overlap, Apart, Bool.and_eq_false_iff, decide_eq_false_iff_not, ← ha.first, ← ha.last, ← hb.first,
    ← hb.last]
  omega

theorem agrees_iff {other : Int} (ha : Admitted a capacity) (hb : Admitted b other) : Agrees a b ↔
    a.mismatched b = false ∧ overlap (a.bounds a.input) (b.bounds b.input) = false ∧
      overlap (a.bounds a.input) (b.bounds b.output) = false ∧
      overlap (a.bounds a.output) (b.bounds b.input) = false ∧
      overlap (a.bounds a.output) (b.bounds b.output) = false := by
  obtain ⟨hai, hao⟩ := ha.placed
  obtain ⟨hbi, hbo⟩ := hb.placed
  rw [overlap_iff hai hbi, overlap_iff hai hbo, overlap_iff hao hbi, overlap_iff hao hbo, Agrees]

theorem validPair_iff : validPair a b capacity = true ↔
    (2 ≤ capacity ∧ capacity ≤ 16) ∧ Admitted a capacity ∧ Admitted b (capacity - a.rows.toInt) ∧ Agrees a b := by
  simp only [validPair, Bool.and_eq_true, Bool.not_eq_true', Bool.or_eq_false_iff, Bool.not_eq_false',
    decide_eq_false_iff_not, validAdmission_iff, all_cons, all_nil, Bool.and_true]
  constructor
  · rintro ⟨⟨⟨⟨hcapacity, ha⟩, hb⟩, hmatched⟩, ⟨h1, h2⟩, h3, h4⟩
    exact ⟨by omega, ha, hb, (agrees_iff ha hb).mpr ⟨hmatched, h1, h2, h3, h4⟩⟩
  · rintro ⟨hcapacity, ha, hb, hagrees⟩
    obtain ⟨hmatched, h1, h2, h3, h4⟩ := (agrees_iff ha hb).mp hagrees
    exact ⟨⟨⟨⟨by omega, ha⟩, hb⟩, hmatched⟩, ⟨h1, h2⟩, h3, h4⟩

theorem throwIf_bind {α : Type} {bad : Prop} [Decidable bad] {e : Exn} {f : Unit → Except Exn α} {x : α} :
    (throwIf bad e >>= f) = .ok x ↔ ¬ bad ∧ f () = .ok x := by
  unfold throwIf
  split
  · next hbad => exact ⟨nofun, fun h => absurd hbad h.1⟩
  · next hgood => exact ⟨fun h => ⟨hgood, h⟩, fun h => h.2⟩

theorem forM_ok {α : Type} {l : List α} {f : α → Except Exn Unit} : l.forM f = .ok () ↔ ∀ x ∈ l, f x = .ok () := by
  induction l with
  | nil => exact ⟨by simp, fun _ => rfl⟩
  | cons a rest ih =>
    rw [forall_mem_cons, ← ih]
    show (f a >>= fun _ => rest.forM f) = _ ↔ _
    cases h : f a with
    | error e => exact ⟨nofun, fun h => nomatch h.1⟩
    | ok u => exact ⟨fun h => ⟨rfl, h⟩, fun h => h.2⟩

theorem checkLane_iff {lane : Lane} {other : Int} (hp : Admitted lane.source other) (ha : Admitted a capacity) :
    checkLane a (a.bounds a.input) (a.bounds a.output) lane = .ok () ↔ Agrees lane.source a := by
  obtain ⟨hin, hout⟩ := hp.placed
  have hcomm : ∀ x y, overlap x y = overlap y x := fun x y => Bool.and_comm ..
  rw [agrees_iff hp ha, checkLane, throwIf_bind, hin.found]
  show _ ∧ (throwIf _ _ >>= _) = _ ↔ _
  rw [throwIf_bind, hout.found]
  show _ ∧ _ ∧ throwIf _ _ = _ ↔ _
  rw [throwIf_ok, hcomm _, hcomm (a.bounds a.input), hcomm (a.bounds a.output), hcomm (a.bounds a.output)]
  simp only [Bool.not_eq_true, not_or]
  exact ⟨fun ⟨h, h1, h2, h3, h4⟩ => ⟨h, h1, h3, h2, h4⟩, fun ⟨h, h1, h2, h3, h4⟩ => ⟨h, h1, h3, h2, h4⟩⟩

theorem add_iff {live : Live} {plan next : Plan} (hp : ∀ lane ∈ plan.lanes, ∃ room, Admitted lane.source room) :
    add capacity live plan a = .ok next ↔ Admitted a (capacity - plan.rows) ∧ live plan.lanes.length a = true ∧
      (∀ lane ∈ plan.lanes, Agrees lane.source a) ∧
      { lanes := plan.lanes ++ [⟨a, plan.rows⟩], rows := plan.rows + a.rows.toInt } = next := by
  unfold add
  rw [throwIf_bind, not_or, Decidable.not_not, Decidable.not_not, validAdmission_iff, and_assoc]
  refine and_congr_right fun ha => and_congr_right fun _ => ?_
  obtain ⟨hin, hout⟩ := ha.placed
  have hwidth : ∀ {s}, Placed a s → wrap ((a.bounds s).2 - (a.bounds s).1) / 2 ≤ s.storageElements.toNat := by
    intro s h
    obtain ⟨hstorage, hsum⟩ := h.fits
    have hfirst := h.first
    have hlast := h.last
    have hextent := h.computed (a.extent s) (by simp [Rows.computed])
    unfold Rows.span at hfirst hlast
    have hw := wrap_eq (v := (a.bounds s).2 - (a.bounds s).1) (by omega) (by omega)
    omega
  have hwi := hwidth hin
  have hwo := hwidth hout
  rw [hin.found, hout.found]
  show (throwIf _ _ >>= _) = _ ↔ _
  rw [throwIf_bind, throwIf_bind, Bool.not_eq_true, overlap_iff hin hout]
  constructor
  · rintro ⟨-, -, h⟩
    obtain ⟨_, hlanes, h⟩ := bind_ok h
    refine ⟨fun lane hl => ?_, Except.ok.inj h⟩
    obtain ⟨room, hroom⟩ := hp lane hl
    exact (checkLane_iff hroom ha).mp (forM_ok.mp hlanes lane hl)
  · rintro ⟨hagrees, rfl⟩
    refine ⟨by omega, ha.apart, ?_⟩
    rw [forM_ok.mpr fun lane hl => (checkLane_iff (hp lane hl).choose_spec ha).mpr (hagrees lane hl)]
    rfl

/-! ## Plans -/

def total (sources : List Rows) : Int := (sources.map fun s => s.rows.toInt).sum

def lanesFrom : Int → List Rows → List Lane
  | _, [] => []
  | first, s :: rest => ⟨s, first⟩ :: lanesFrom (first + s.rows.toInt) rest

/-- The plan for the sources so far. -/
def packing (done : List Rows) : Plan := { lanes := lanesFrom 0 done, rows := total done }

/-- Each of the sources to come is live, admitted behind those before it and agrees with them. -/
def Accepts (capacity : Int) (live : Live) : List Rows → List Rows → Prop
  | _, [] => True
  | done, s :: rest => Admitted s (capacity - total done) ∧ live done.length s = true ∧
      (∀ p ∈ done, Agrees p s) ∧ Accepts capacity live (done ++ [s]) rest

/-- The lanes' rows follow one another from `first` to `stop`. -/
def Tiled (first : Int) : List Lane → Int → Prop
  | [], stop => first = stop
  | lane :: rest, stop =>
    lane.packedFirst = first ∧ 0 < lane.source.rows.toInt ∧ Tiled (first + lane.source.rows.toInt) rest stop

variable {first : Int} {done rest : List Rows} {live : Live} {plan : Plan}

theorem total_cons : total (r :: rest) = r.rows.toInt + total rest := by simp [total]

theorem total_concat : total (done ++ [r]) = total done + r.rows.toInt := by simp [total]

theorem lanesFrom_source : (lanesFrom first done).map Lane.source = done := by
  induction done generalizing first with
  | nil => rfl
  | cons s rest ih => rw [lanesFrom, map_cons, ih]

theorem lanesFrom_concat : lanesFrom first (done ++ [r]) = lanesFrom first done ++ [⟨r, first + total done⟩] := by
  induction done generalizing first with
  | nil => simp [lanesFrom, total]
  | cons s rest ih => rw [cons_append, lanesFrom, ih, lanesFrom, cons_append, total_cons, Int.add_assoc]

theorem tiled_lanesFrom (h : ∀ s ∈ done, 0 < s.rows.toInt) : Tiled first (lanesFrom first done) (first + total done) := by
  induction done generalizing first with
  | nil => simp [lanesFrom, Tiled, total]
  | cons s rest ih =>
    refine ⟨rfl, h s mem_cons_self, ?_⟩
    rw [total_cons, ← Int.add_assoc]
    exact ih fun p hp => h p (mem_cons_of_mem _ hp)

theorem forall_lanes {p : Rows → Prop} : (∀ lane ∈ lanesFrom first done, p lane.source) ↔ ∀ s ∈ done, p s := by
  rw [← forall_mem_map, lanesFrom_source]

theorem Admitted.rows (h : Admitted r capacity) : 0 < r.rows.toInt ∧ r.rows.toInt ≤ capacity := by
  have hgeometry := h.geometry
  simp only [Rows.geometry, Bool.and_eq_true, decide_eq_true_eq] at hgeometry
  omega

theorem Accepts.sources (h : Accepts capacity live done rest) : (∀ s ∈ rest, ∃ room, Admitted s room) ∧
    rest.Pairwise Agrees ∧ (∀ p ∈ done, ∀ s ∈ rest, Agrees p s) ∧
    (rest ≠ [] → total done + total rest ≤ capacity) := by
  induction rest generalizing done with
  | nil => simp
  | cons s rest ih =>
    obtain ⟨hadmitted, -, hagrees, h⟩ := h
    obtain ⟨h1, h2, h3, h4⟩ := ih h
    refine ⟨forall_mem_cons.mpr ⟨⟨_, hadmitted⟩, h1⟩, pairwise_cons.mpr ⟨h3 s (by simp), h2⟩, fun p hp => ?_, fun _ => ?_⟩
    · exact forall_mem_cons.mpr ⟨hagrees p hp, h3 p (by simp [hp])⟩
    rw [total_concat] at h4
    rw [total_cons]
    have hrows := hadmitted.rows
    by_cases hnil : rest = []
    · rw [hnil, show total [] = 0 from rfl]
      omega
    have hfits := h4 hnil
    omega

theorem addAll_iff (hdone : ∀ s ∈ done, ∃ room, Admitted s room) :
    rest.foldlM (add capacity live) (packing done) = .ok plan ↔
      Accepts capacity live done rest ∧ packing (done ++ rest) = plan := by
  induction rest generalizing done with
  | nil => simp [Accepts, pure, Except.pure]
  | cons s rest ih =>
    have hlength : (lanesFrom 0 done).length = done.length := by
      rw [← length_map Lane.source, lanesFrom_source]
    have hadd : ∀ next, add capacity live (packing done) s = .ok next ↔ (Admitted s (capacity - total done) ∧
        live done.length s = true ∧ ∀ p ∈ done, Agrees p s) ∧ packing (done ++ [s]) = next := fun next => by
      rw [add_iff (forall_lanes.mpr hdone)]
      simp only [packing, lanesFrom_concat, total_concat, hlength, and_assoc, Int.zero_add]
      exact and_congr_right fun _ => and_congr_right fun _ => and_congr_left fun _ =>
        forall_lanes (p := (Agrees · s))
    rw [foldlM_cons, Accepts]
    constructor
    · intro h
      obtain ⟨next, hnext, h⟩ := bind_ok h
      obtain ⟨⟨h1, h2, h3⟩, rfl⟩ := (hadd next).mp hnext
      obtain ⟨h4, hplan⟩ := (ih (by simpa [or_imp, forall_and] using ⟨hdone, _, h1⟩)).mp h
      exact ⟨⟨h1, h2, h3, h4⟩, by rw [append_cons, hplan]⟩
    · rintro ⟨⟨h1, h2, h3, h4⟩, hplan⟩
      rw [(hadd _).mpr ⟨⟨h1, h2, h3⟩, rfl⟩]
      refine (ih (by simpa [or_imp, forall_and] using ⟨hdone, _, h1⟩)).mpr ⟨h4, by rw [← hplan, append_assoc]; rfl⟩

theorem validateLive_ok (hlive : ∀ n x, live n x = true) (hlength : 2 ≤ plan.lanes.length) (hrows : 2 ≤ plan.rows) :
    plan.validateLive live = .ok () := by
  unfold Plan.validateLive
  rw [throwIf_bind]
  exact ⟨by omega, forM_ok.mpr fun x _ => throwIf_ok.mpr (by simp [hlive])⟩

theorem assemble_ok {sources : List Rows} (h : assemble sources capacity (some live) = .ok plan) :
    Accepts capacity live [] sources ∧ packing sources = plan := by
  obtain ⟨-, h⟩ := throwIf_bind.mp h
  obtain ⟨plan', hplan, h⟩ := bind_ok h
  obtain ⟨_, -, h⟩ := bind_ok h
  cases h
  have hnone : ∀ s ∈ ([] : List Rows), ∃ room, Admitted s room := by simp
  exact (addAll_iff hnone).mp hplan

/-- The pair check accepts what a plan of the two accepts. Any plan has its sources as lanes, one after another from row
    zero; every side lies in its storage and apart from all others; and nothing on the way to them wraps. -/
theorem pair_and_plan : (∀ a b capacity live, (∀ n x, live n x = true) →
      (validPair a b capacity = true ↔ ∃ plan, assemble [a, b] capacity (some live) = .ok plan)) ∧
    ∀ sources capacity live plan, assemble sources capacity live = .ok plan →
      plan.lanes.map Lane.source = sources ∧ Tiled 0 plan.lanes plan.rows ∧ plan.rows ≤ capacity ∧
      sources.Pairwise Agrees ∧
      ∀ s ∈ sources, Apart (s.span s.input) (s.span s.output) ∧ Placed s s.input ∧ Placed s s.output := by
  refine ⟨fun a b capacity live hlive => ?_, fun sources capacity live plan h => ?_⟩
  · rw [validPair_iff]
    constructor
    · rintro ⟨hcapacity, ha, hb, hagrees⟩
      have haccepts : Accepts capacity live [] [a, b] :=
        ⟨by simpa [total] using ha, hlive .., by simp, by simpa [total] using hb, hlive .., by simpa using hagrees, trivial⟩
      refine ⟨packing [a, b], ?_⟩
      unfold assemble
      rw [throwIf_bind]
      refine ⟨by simp; omega, ?_⟩
      rw [show ({} : Plan) = packing [] from rfl, (addAll_iff (by simp)).mpr ⟨haccepts, rfl⟩]
      have hrowsA := ha.rows
      have hrowsB := hb.rows
      show (Plan.validateLive _ live >>= _) = _
      rw [validateLive_ok hlive (by simp [packing, lanesFrom]) (by simp [packing, total]; omega)]
      rfl
    · rintro ⟨plan, h⟩
      obtain ⟨⟨ha, -, -, hb, -, hagrees, -⟩, -⟩ := assemble_ok h
      have hbounds := (throwIf_bind.mp h).1
      exact ⟨by omega, by simpa [total] using ha, by simpa [total] using hb, by simpa using hagrees⟩
  · cases live with
    | none => cases h
    | some live =>
      obtain ⟨haccepts, rfl⟩ := assemble_ok h
      obtain ⟨hadmitted, hpairwise, -, hrows⟩ := haccepts.sources
      refine ⟨lanesFrom_source, ?_, ?_, hpairwise, fun s hs => ?_⟩
      · have htiled : Tiled 0 (lanesFrom 0 sources) (0 + total sources) :=
          tiled_lanesFrom fun s hs => (hadmitted s hs).choose_spec.rows.1
        simpa [packing] using htiled
      · have hbounds := (throwIf_bind.mp h).1
        have hfits := hrows (by rintro rfl; simp at hbounds)
        simpa [total, packing] using hfits
      · obtain ⟨room, hroom⟩ := hadmitted s hs
        exact ⟨hroom.apart, hroom.placed⟩

/-- Two rows of four columns, of this request and at this address. -/
def sampleRows (request address : UInt64) : Rows where
  request := request
  acquisition := 1
  execution := 1
  model := ⟨1, 1, 1⟩
  root := ⟨2, 2, 1⟩
  inputOwner := ⟨3, 3, 1⟩
  outputOwner := ⟨4, 4, 1⟩
  contract := ⟨[1], by decide⟩
  position := 7
  rows := 2
  input := ⟨address, 4, 4, 8⟩
  output := ⟨address + 16, 4, 4, 8⟩

/-- The pair check accepts the two requests, and in the plan the second begins at row two. -/
theorem pair_and_plan_accepted : ∃ plan, validPair (sampleRows 1 4096) (sampleRows 2 8192) 4 = true ∧
    assemble [sampleRows 1 4096, sampleRows 2 8192] 4 (some fun _ _ => true) = .ok plan ∧
    plan.lanes.map Lane.source = [sampleRows 1 4096, sampleRows 2 8192] ∧ Tiled 0 plan.lanes plan.rows ∧
    plan.lanes.map Lane.packedFirst = [0, 2] := by
  have hpair : validPair (sampleRows 1 4096) (sampleRows 2 8192) 4 = true := by decide +kernel
  obtain ⟨plan, hplan⟩ := (pair_and_plan.1 _ _ _ (fun _ _ => true) fun _ _ => rfl).mp hpair
  obtain ⟨hsources, htiled, -⟩ := pair_and_plan.2 _ _ _ _ hplan
  refine ⟨plan, hpair, hplan, hsources, htiled, ?_⟩
  rw [← (assemble_ok hplan).2]
  rfl

end VoidInfer.Exl3.PackedProjection
