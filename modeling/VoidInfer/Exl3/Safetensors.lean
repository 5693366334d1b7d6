import Mathlib.Data.List.Dedup
import Mathlib.Data.List.Perm.Subperm
import Mathlib.Data.List.Sort
import Mathlib.Data.String.Basic
import VoidInfer.Base
import VoidInfer.Lib.Bytes
import VoidInfer.Lib.ListUpdate
import VoidInfer.Lib.OrderedMap

/-
  Safetensors files (src/exl3/safetensors): the framing and header of one file, the bytes of one tensor, and a directory
  whose index assigns every tensor to a shard. A file is its list of bytes, and the JSON library is a parameter.

  An accepted header cuts the payload into the tensors it names (`HeaderSound`), and an accepted directory holds every
  indexed tensor in the shard the index gives it (`DirectorySound`).
-/

namespace VoidInfer.Exl3.Safetensors
open List

/-! ## Parsed JSON -/

/-- A parsed document. `unsigned` is `is_number_unsigned()`; any other number is `number`. -/
inductive Json where
  | null
  | boolean (value : Bool)
  | unsigned (value : UInt64)
  | number
  | string (value : String)
  | array (elements : List Json)
  | object (members : List (String × Json))

/-- No object in the document has a key twice. -/
inductive Json.Unique : Json → Prop where
  | null : Unique .null
  | boolean (value : Bool) : Unique (.boolean value)
  | unsigned (value : UInt64) : Unique (.unsigned value)
  | number : Unique .number
  | string (value : String) : Unique (.string value)
  | array {elements : List Json} : (∀ e ∈ elements, Unique e) → Unique (.array elements)
  | object {members : List (String × Json)} :
      (members.map Prod.fst).Nodup → (∀ m ∈ members, Unique m.2) → Unique (.object members)

attribute [simp] Json.Unique.null Json.Unique.boolean Json.Unique.unsigned Json.Unique.number Json.Unique.string

@[simp] theorem Json.unique_array {elements : List Json} :
    (Json.array elements).Unique ↔ ∀ e ∈ elements, e.Unique := by
  constructor
  · intro h
    cases h with
    | array helements => exact helements
  · exact .array

variable {members : List (String × Json)} {left right : Nat} {label : String} {value : Json}
  {t : TensorInfo} {u : Unit} {header : SafetensorsHeader}

@[simp] theorem Json.unique_object :
    (Json.object members).Unique ↔ (members.map Prod.fst).Nodup ∧ ∀ m ∈ members, m.2.Unique := by
  constructor
  · intro h
    cases h with
    | object hkeys hmembers => exact ⟨hkeys, hmembers⟩
  · intro h
    exact .object h.1 h.2

/-- `value.contains(key)` with `value.at(key)`. -/
def Json.at? (value : Json) (key : String) : Option Json :=
  match value with
  | .object members => (members.find? fun m => m.1 == key).map Prod.snd
  | _ => none

/-- `Json::parse`, or what the exception says. -/
abbrev Parser := List UInt8 → Except String Json

def requireString (value : Json) (label : String) : Except Exn String :=
  match value with
  | .string text => .ok text
  | _ => .error (.runtimeError (label ++ " must be a string"))

def requireU64 (value : Json) (label : String) : Except Exn Nat :=
  match value with
  | .unsigned n => .ok n.toNat
  | _ => .error (.runtimeError (label ++ " must be a non-negative integer"))

/-! ## Arithmetic -/

def checkedAdd (left right : Nat) (label : String) : Except Exn Nat := do
  throwIf (right > uint64Max - left) (.runtimeError (label ++ " overflows u64"))
  return left + right

def checkedMul (left right : Nat) (label : String) : Except Exn Nat := do
  throwIf (left ≠ 0 ∧ right > uint64Max / left) (.runtimeError (label ++ " overflows u64"))
  return left * right

def dtypeBytes (dtype : String) : Except Exn Nat :=
  if dtype ∈ ["BOOL", "U8", "I8", "F8_E4M3", "F8_E5M2"] then .ok 1
  else if dtype ∈ ["U16", "I16", "F16", "BF16"] then .ok 2
  else if dtype ∈ ["U32", "I32", "F32"] then .ok 4
  else if dtype ∈ ["U64", "I64", "F64"] then .ok 8
  else .error (.runtimeError ("unsupported safetensors dtype: " ++ dtype))

/-! ## One file -/

structure TensorInfo where
  name : String
  dtype : String
  shape : List Nat
  dataBegin : Nat
  dataEnd : Nat
deriving DecidableEq

def TensorInfo.bytes (t : TensorInfo) : Nat := t.dataEnd - t.dataBegin

structure SafetensorsHeader where
  fileBytes : Nat
  headerBytes : Nat
  payloadBytes : Nat
  metadataKeys : List String
  tensors : List TensorInfo
deriving DecidableEq

def SafetensorsHeader.find (header : SafetensorsHeader) (name : String) : Option TensorInfo :=
  header.tensors.find? fun t => t.name == name

/-- The loop over the dimensions: the shape, and the element count carried on. -/
def parseShape : List Json → Nat → Except Exn (List Nat × Nat)
  | [], elements => .ok ([], elements)
  | dimension :: rest, elements => do
    let value ← requireU64 dimension "tensor shape dimension"
    let elements ← checkedMul elements value "tensor element count"
    let tail ← parseShape rest elements
    return (value :: tail.1, tail.2)

def requireShape (name : String) (shape : Json) : Except Exn (List Json) :=
  match shape with
  | .array dimensions => .ok dimensions
  | _ => .error (.runtimeError ("tensor " ++ name ++ " shape must be an array"))

def requireOffsets (name : String) (offsets : Json) : Except Exn (Json × Json) :=
  match offsets with
  | .array [first, second] => .ok (first, second)
  | _ => .error (.runtimeError ("tensor " ++ name ++ " data_offsets must have two entries"))

def parseTensor (name : String) (value : Json) (payloadBytes : Nat) : Except Exn TensorInfo :=
  match value.at? "dtype", value.at? "shape", value.at? "data_offsets" with
  | some dtype, some shape, some offsets => do
    let dtype ← requireString dtype "tensor dtype"
    let elementBytes ← dtypeBytes dtype
    let dimensions ← requireShape name shape
    let parsed ← parseShape dimensions 1
    let entries ← requireOffsets name offsets
    let dataBegin ← requireU64 entries.1 "tensor data begin"
    let dataEnd ← requireU64 entries.2 "tensor data end"
    throwIf (dataEnd < dataBegin ∨ dataEnd > payloadBytes)
      (.runtimeError ("tensor " ++ name ++ " data range is outside the payload"))
    let expectedBytes ← checkedMul parsed.2 elementBytes "tensor byte count"
    throwIf (dataEnd - dataBegin ≠ expectedBytes)
      (.runtimeError ("tensor " ++ name ++ " byte count does not match dtype/shape"))
    return { name, dtype, shape := parsed.1, dataBegin, dataEnd }
  | _, _, _ => .error (.runtimeError ("tensor " ++ name ++ " has an invalid descriptor"))

/-- The keys of the reserved metadata object, whose values are all strings. -/
def metadataNames : List (String × Json) → Except Exn (List String)
  | [] => .ok []
  | (name, .string _) :: rest => do
    let names ← metadataNames rest
    return name :: names
  | _ => .error (.runtimeError "safetensors metadata values must be strings")

def readMetadata (value : Json) : Except Exn (List String) :=
  match value with
  | .object members => metadataNames members
  | _ => .error (.runtimeError "__metadata must be an object")

/-- The loop over the header's members: the metadata keys, and the tensors. -/
def readItems (payloadBytes : Nat) : List (String × Json) → Except Exn (List String × List TensorInfo)
  | [] => .ok ([], [])
  | (name, value) :: rest =>
    if name = "__metadata__" ∨ name = "__metadata" then do
      let keys ← readMetadata value
      let tail ← readItems payloadBytes rest
      return (keys ++ tail.1, tail.2)
    else do
      let tensor ← parseTensor name value payloadBytes
      let tail ← readItems payloadBytes rest
      return (tail.1, tensor :: tail.2)

/-- The order of the sweep. -/
def byOffset (left right : TensorInfo) : Prop :=
  if left.dataBegin ≠ right.dataBegin then left.dataBegin < right.dataBegin
  else left.dataEnd ≤ right.dataEnd

instance : DecidableRel byOffset := fun left right =>
  inferInstanceAs (Decidable (if left.dataBegin ≠ right.dataBegin then _ else _))

def sweep : List TensorInfo → Nat → Except Exn Unit
  | [], _ => .ok ()
  | tensor :: rest, previousEnd => do
    throwIf (tensor.dataBegin < previousEnd) (.runtimeError "safetensors tensor data ranges overlap")
    sweep rest (max previousEnd tensor.dataEnd)

def kPrefixBytes : Nat := 8

def kMaxHeaderBytes : Nat := 128 * 1024 * 1024

def readU64LE (bytes : List UInt8) : Nat :=
  bytes.zipIdx.foldl (fun value b => value ||| b.1.toNat <<< (8 * b.2)) 0

def parseHeader (parse : Parser) (text : List UInt8) : Except Exn (List (String × Json)) :=
  match parse text with
  | .error what => .error (.runtimeError ("invalid safetensors header JSON: " ++ what))
  | .ok (.object members) => .ok members
  | .ok _ => .error (.runtimeError "safetensors header must be a JSON object")

/-- `inspect_file`; `file` is what `path` holds, if anything. -/
def inspectFile (parse : Parser) (path : String) (file : Option (List UInt8)) : Except Exn SafetensorsHeader :=
  match file with
  | none => .error (.runtimeError ("cannot stat safetensors file " ++ path ++ ": No such file or directory"))
  | some file => do
    throwIf (file.length < kPrefixBytes) (.runtimeError "safetensors file is shorter than its 8-byte prefix")
    let headerBytes := readU64LE (file.take kPrefixBytes)
    throwIf (headerBytes > kMaxHeaderBytes) (.runtimeError "safetensors header exceeds the audit safety limit")
    let payloadStart ← checkedAdd kPrefixBytes headerBytes "safetensors payload start"
    throwIf (payloadStart > file.length) (.runtimeError "safetensors header extends beyond the file")
    let members ← parseHeader parse ((file.drop kPrefixBytes).take headerBytes)
    let payloadBytes := file.length - payloadStart
    let items ← readItems payloadBytes members
    sweep (items.2.insertionSort byOffset) 0
    return { fileBytes := file.length, headerBytes, payloadBytes, metadataKeys := items.1, tensors := items.2 }

/-- `std::numeric_limits<std::streamoff>::max()`. -/
def streamoffMax : Nat := 2 ^ 63 - 1

structure TensorPayload where
  info : TensorInfo
  storage : List UInt8

/-- `read_tensor`; the read may come back short, the storage is never longer than asked for. -/
def readTensor (path : String) (file : Option (List UInt8)) (header : SafetensorsHeader)
    (name : String) : Except Exn TensorPayload :=
  match header.find name with
  | none => .error (.runtimeError ("tensor is absent from safetensors file: " ++ name))
  | some info => do
    let payloadStart ← checkedAdd kPrefixBytes header.headerBytes "safetensors payload start"
    let fileBegin ← checkedAdd payloadStart info.dataBegin "safetensors tensor file offset"
    let fileEnd ← checkedAdd payloadStart info.dataEnd "safetensors tensor file end"
    throwIf (fileEnd > header.fileBytes ∨ fileBegin > fileEnd)
      (.runtimeError ("tensor " ++ info.name ++ " is outside the validated file"))
    match file with
    | none => .error (.runtimeError ("cannot open safetensors payload: " ++ path))
    | some file => do
      throwIf (fileBegin > streamoffMax) (.runtimeError "safetensors tensor offset exceeds stream range")
      let storage := (file.drop fileBegin).take info.bytes
      throwIf (storage.length ≠ info.bytes) (.runtimeError ("cannot read complete tensor payload for " ++ info.name))
      return { info, storage }

/-! ## An indexed directory -/

/-- The checks on a `std::filesystem::path`, as a POSIX host splits it. -/
def safeRelativeFilename (value : String) : Bool :=
  value ≠ "" && value.toList.head? ≠ some '/' && !((value.toList.splitOn '/').contains ['.', '.'])

/-- `directory / path(name)` for a relative name. -/
def joined (directory name : String) : String :=
  if directory = "" ∨ directory.toList.getLast? = some '/' then directory ++ name
  else directory ++ "/" ++ name

structure Shard where
  path : String
  header : SafetensorsHeader
deriving DecidableEq

structure IndexedSafetensors where
  indexTotalSize : Option Nat
  indexedTensorCount : Nat
  headerTensorCount : Nat
  shards : List Shard
deriving DecidableEq

/-- What each path holds. -/
abbrev Files := String → Option (List UInt8)

def readJsonFile (parse : Parser) (files : Files) (path : String) : Except Exn Json :=
  match files path with
  | none => .error (.runtimeError ("cannot open JSON file: " ++ path))
  | some encoded =>
    match parse encoded with
    | .error what => .error (.runtimeError ("invalid JSON in " ++ path ++ ": " ++ what))
    | .ok root => .ok root

def requireWeightMap (root : Json) : Except Exn (List (String × Json)) :=
  match root.at? "weight_map" with
  | some (.object members) => .ok members
  | _ => .error (.runtimeError "safetensors index must contain an object weight_map")

def readTotalSize (root : Json) : Except Exn (Option Nat) :=
  match root.at? "metadata" with
  | none => .ok none
  | some (.object members) =>
    match (Json.object members).at? "total_size" with
    | none => .ok none
    | some size => do
      let size ← requireU64 size "index total_size"
      return some size
  | some _ => .error (.runtimeError "safetensors index metadata must be an object")

/-- The order of `std::map<std::string, …>`. -/
def nameLess (a b : String) : Bool := decide (a < b)

def namesByShard : List (String × Json) → List (String × List String) → Except Exn (List (String × List String))
  | [], names => .ok names
  | (tensorName, value) :: rest, names => do
    let shardName ← requireString value "weight_map shard filename"
    throwIf (¬ safeRelativeFilename shardName) (.runtimeError "weight_map contains an unsafe shard filename")
    namesByShard rest (OrderedMap.pushBack nameLess shardName tensorName names)

/-- The first of `names` that `header` has not, or the first tensor that `names` has not. -/
def checkNames (shardName : String) (indexedNames : List String) (header : SafetensorsHeader) : Except Exn Unit := do
  match indexedNames.find? fun name => (header.find name).isNone with
  | some name => .error (.runtimeError ("index tensor " ++ name ++ " is absent from shard " ++ shardName))
  | none =>
    throwIf (indexedNames.dedup.length ≠ header.tensors.length)
      (.runtimeError ("index has duplicate tensor names in shard " ++ shardName))
    match header.tensors.find? fun tensor => !indexedNames.contains tensor.name with
    | some tensor => .error (.runtimeError ("shard tensor " ++ tensor.name ++ " is absent from the index"))
    | none => .ok ()

def inspectShards (parse : Parser) (files : Files) (directory : String) :
    List (String × List String) → IndexedSafetensors → Except Exn IndexedSafetensors
  | [], result => .ok result
  | (shardName, indexedNames) :: rest, result => do
    let path := joined directory shardName
    let header ← inspectFile parse path (files path)
    checkNames shardName indexedNames header
    inspectShards parse files directory rest
      { result with
        indexedTensorCount := result.indexedTensorCount + indexedNames.length
        headerTensorCount := result.headerTensorCount + header.tensors.length
        shards := result.shards ++ [{ path, header }] }

/-- The bytes of all tensors together. -/
def totalBytes : List TensorInfo → Nat → Except Exn Nat
  | [], total => .ok total
  | tensor :: rest, total => do
    let total ← checkedAdd total tensor.bytes "indexed tensor bytes"
    totalBytes rest total

def inspectIndexedDirectory (parse : Parser) (files : Files) (directory indexFilename : String) :
    Except Exn IndexedSafetensors := do
  throwIf (¬ safeRelativeFilename indexFilename)
    (.runtimeError "safetensors index filename must be a safe relative path")
  let root ← readJsonFile parse files (joined directory indexFilename)
  let members ← requireWeightMap root
  let indexTotalSize ← readTotalSize root
  let names ← namesByShard members []
  throwIf (names = []) (.runtimeError "safetensors weight_map is empty")
  let result ← inspectShards parse files directory names
    { indexTotalSize, indexedTensorCount := 0, headerTensorCount := 0, shards := [] }
  match indexTotalSize with
  | none => return result
  | some size =>
    let actual ← totalBytes (result.shards.flatMap fun s => s.header.tensors) 0
    throwIf (actual ≠ size) (.runtimeError "index total_size does not match shard tensor bytes")
    return result

variable {r payloadBytes : Nat} {tensors : List TensorInfo} {parse : Parser} {file : List UInt8}

/-! ## What the checks establish -/

theorem checkedAdd_ok (h : checkedAdd left right label = .ok r) : r = left + right := by
  obtain ⟨u, hcheck, hr⟩ := bind_ok h
  cases hr
  rfl

theorem checkedAdd_of_le (label : String) (h : left + right ≤ uint64Max) :
    checkedAdd left right label = .ok (left + right) := by
  unfold checkedAdd throwIf
  rw [if_neg (by omega)]
  rfl

theorem checkedMul_ok (h : checkedMul left right label = .ok r) : r = left * right ∧ r ≤ uint64Max := by
  obtain ⟨u, hcheck, hr⟩ := bind_ok h
  have hbound := throwIf_ok.mp hcheck
  cases hr
  refine ⟨rfl, ?_⟩
  rcases Nat.eq_zero_or_pos left with rfl | hpos
  · simp
  have hle : right ≤ uint64Max / left := by
    by_contra hlt
    exact hbound ⟨by omega, by omega⟩
  calc left * right ≤ left * (uint64Max / left) := Nat.mul_le_mul_left _ hle
    _ ≤ uint64Max := Nat.mul_div_le _ _

theorem parseShape_ok {dimensions : List Json} {elements : Nat} {parsed : List Nat × Nat}
    (h : parseShape dimensions elements = .ok parsed) (hle : elements ≤ uint64Max) :
    parsed.2 = elements * parsed.1.prod ∧ ∀ k, elements * (parsed.1.take k).prod ≤ uint64Max := by
  induction dimensions generalizing elements parsed with
  | nil =>
    cases h
    simp [hle]
  | cons dimension rest ih =>
    obtain ⟨value, -, h⟩ := bind_ok h
    obtain ⟨product, hproduct, h⟩ := bind_ok h
    obtain ⟨rfl, hbound⟩ := checkedMul_ok hproduct
    obtain ⟨tail, htail, h⟩ := bind_ok h
    obtain ⟨hcount, hpartial⟩ := ih htail hbound
    cases h
    refine ⟨by rw [hcount, prod_cons, Nat.mul_assoc], fun k => ?_⟩
    cases k with
    | zero => simpa using hle
    | succ k =>
      rw [take_succ_cons, prod_cons, ← Nat.mul_assoc]
      exact hpartial k

/-- A tensor that lies in a payload of `payloadBytes`, with as many bytes as its shape and type
    ask for, all of the sizes computed without wrapping. -/
structure TensorSound (payloadBytes : Nat) (t : TensorInfo) : Prop where
  inside : t.dataBegin ≤ t.dataEnd ∧ t.dataEnd ≤ payloadBytes
  elements : ∀ k, (t.shape.take k).prod ≤ uint64Max
  bytes : ∃ width, dtypeBytes t.dtype = .ok width ∧ t.shape.prod * width ≤ uint64Max ∧
    t.bytes = t.shape.prod * width

variable {name path : String}

theorem parseTensor_ok (h : parseTensor name value payloadBytes = .ok t) :
    t.name = name ∧ TensorSound payloadBytes t := by
  unfold parseTensor at h
  split at h
  · obtain ⟨dtype, -, h⟩ := bind_ok h
    obtain ⟨width, hwidth, h⟩ := bind_ok h
    obtain ⟨dimensions, -, h⟩ := bind_ok h
    obtain ⟨parsed, hparsed, h⟩ := bind_ok h
    obtain ⟨entries, -, h⟩ := bind_ok h
    obtain ⟨dataBegin, -, h⟩ := bind_ok h
    obtain ⟨dataEnd, -, h⟩ := bind_ok h
    obtain ⟨u, hrange, h⟩ := bind_ok h
    obtain ⟨expected, hexpected, h⟩ := bind_ok h
    obtain ⟨u', hcount, h⟩ := bind_ok h
    have hrange := throwIf_ok.mp hrange
    have hcount := throwIf_ok.mp hcount
    obtain ⟨helements, hpartial⟩ := parseShape_ok hparsed (by decide)
    obtain ⟨hexpected, hbound⟩ := checkedMul_ok hexpected
    cases h
    rw [helements, Nat.one_mul] at hexpected
    refine ⟨rfl, ⟨by dsimp only; omega, fun k => by simpa using hpartial k, width, hwidth, ?_, ?_⟩⟩
    · dsimp only
      omega
    · unfold TensorInfo.bytes
      dsimp only
      omega
  · cases h

theorem readItems_ok {items : List String × List TensorInfo} (h : readItems payloadBytes members = .ok items) :
    (items.2.map TensorInfo.name).Sublist (members.map Prod.fst) ∧ ∀ t ∈ items.2, TensorSound payloadBytes t := by
  induction members generalizing items with
  | nil =>
    cases h
    simp
  | cons member rest ih =>
    unfold readItems at h
    split at h
    · obtain ⟨keys, -, h⟩ := bind_ok h
      obtain ⟨tail, htail, h⟩ := bind_ok h
      obtain ⟨hsub, hsound⟩ := ih htail
      cases h
      exact ⟨hsub.cons _, hsound⟩
    obtain ⟨tensor, htensor, h⟩ := bind_ok h
    obtain ⟨tail, htail, h⟩ := bind_ok h
    obtain ⟨hsub, hsound⟩ := ih htail
    obtain ⟨hname, htensor⟩ := parseTensor_ok htensor
    cases h
    refine ⟨?_, forall_mem_cons.mpr ⟨htensor, hsound⟩⟩
    rw [map_cons, map_cons, hname]
    exact hsub.cons_cons _

theorem sweep_ok {previousEnd : Nat} (h : sweep tensors previousEnd = .ok u) :
    (∀ t ∈ tensors, previousEnd ≤ t.dataBegin) ∧ tensors.Pairwise fun a b => a.dataEnd ≤ b.dataBegin := by
  induction tensors generalizing previousEnd with
  | nil => simp
  | cons tensor rest ih =>
    obtain ⟨u, hfirst, hrest⟩ := bind_ok h
    have hfirst := throwIf_ok.mp hfirst
    obtain ⟨hbehind, hpairwise⟩ := ih hrest
    have hboth (t : TensorInfo) (ht : t ∈ rest) := Nat.max_le.mp (hbehind t ht)
    refine ⟨forall_mem_cons.mpr ⟨by omega, fun t ht => (hboth t ht).1⟩, ?_⟩
    exact pairwise_cons.mpr ⟨fun t ht => (hboth t ht).2, hpairwise⟩

/-- The bytes of the payload that are `t`'s. -/
def TensorInfo.Occupies (t : TensorInfo) (offset : Nat) : Prop :=
  t.dataBegin ≤ offset ∧ offset < t.dataEnd

theorem disjoint_of_sweep (h : sweep (tensors.insertionSort byOffset) 0 = .ok u) :
    tensors.Pairwise fun a b => ∀ offset, ¬ (a.Occupies offset ∧ b.Occupies offset) := by
  obtain ⟨-, hsorted⟩ := sweep_ok h
  have hdisjoint : (tensors.insertionSort byOffset).Pairwise
      fun a b => ∀ offset, ¬ (a.Occupies offset ∧ b.Occupies offset) := by
    apply hsorted.imp
    rintro a b hab offset ⟨ha, hb⟩
    exact absurd ha.2 (by have := hb.1; omega)
  apply (perm_insertionSort byOffset tensors).pairwise hdisjoint
  intro a b hab offset hba
  exact hab offset hba.symm

/-! ## An accepted header -/

/-- The header of a file: its tensors stand in the payload side by side, none over another. -/
structure HeaderSound (file : List UInt8) (header : SafetensorsHeader) : Prop where
  framing : kPrefixBytes + header.headerBytes + header.payloadBytes = file.length
  fileBytes : header.fileBytes = file.length
  names : (header.tensors.map TensorInfo.name).Nodup
  tensors : ∀ t ∈ header.tensors, TensorSound header.payloadBytes t
  disjoint : header.tensors.Pairwise fun a b => ∀ offset, ¬ (a.Occupies offset ∧ b.Occupies offset)

theorem parseHeader_ok {text : List UInt8}
    (h : parseHeader parse text = .ok members) : parse text = .ok (.object members) := by
  unfold parseHeader at h
  split at h
  · cases h
  · next hparse =>
    cases h
    exact hparse
  · cases h

theorem inspectFile_ok (hparse : ∀ text value, parse text = .ok value → value.Unique)
    (h : inspectFile parse path (some file) = .ok header) : HeaderSound file header := by
  obtain ⟨_, hshort, h⟩ := bind_ok h
  obtain ⟨_, hlimit, h⟩ := bind_ok h
  obtain ⟨payloadStart, hstart, h⟩ := bind_ok h
  obtain ⟨hextent, h⟩ := check_ok h
  obtain ⟨members, hmembers, h⟩ := bind_ok h
  obtain ⟨items, hitems, h⟩ := bind_ok h
  obtain ⟨_, hsweep, h⟩ := bind_ok h
  have hstart := checkedAdd_ok hstart
  obtain ⟨hnames, hsound⟩ := readItems_ok hitems
  obtain ⟨hkeys, -⟩ := Json.unique_object.mp (hparse _ _ (parseHeader_ok hmembers))
  cases h
  exact {
    framing := by dsimp only; omega
    fileBytes := rfl
    names := hnames.nodup hkeys
    tensors := hsound
    disjoint := disjoint_of_sweep hsweep }

/-! ## Reading a tensor -/

theorem find_of_mem (hnames : (header.tensors.map TensorInfo.name).Nodup)
     (ht : t ∈ header.tensors) : header.find t.name = some t :=
  ListUpdate.find?_of_nodup hnames ht

/-- What `read_tensor` addresses for `t`: its own bytes, all of them in the file. -/
structure ReadSound (file : List UInt8) (header : SafetensorsHeader) (t : TensorInfo) : Prop where
  inFile : kPrefixBytes + header.headerBytes + t.dataBegin + t.bytes ≤ file.length
  returned : ∀ path payload, readTensor path (some file) header t.name = .ok payload →
    payload.info = t ∧ payload.storage.length = t.bytes ∧
      payload.storage = (file.drop (kPrefixBytes + header.headerBytes + t.dataBegin)).take t.bytes
  returns : file.length ≤ streamoffMax →
    ∀ path, ∃ payload, readTensor path (some file) header t.name = .ok payload

theorem HeaderSound.read (hs : HeaderSound file header) (ht : t ∈ header.tensors) : ReadSound file header t := by
  have hinside := (hs.tensors t ht).inside
  have hframing := hs.framing
  have hfind := find_of_mem hs.names ht
  have hbytes : t.bytes = t.dataEnd - t.dataBegin := rfl
  have hfile : kPrefixBytes + header.headerBytes + t.dataBegin + t.bytes ≤ file.length := by omega
  have hlength : ((file.drop (kPrefixBytes + header.headerBytes + t.dataBegin)).take t.bytes).length = t.bytes := by
    rw [length_take, length_drop]
    omega
  refine ⟨hfile, ?_, ?_⟩
  · intro path payload h
    unfold readTensor at h
    rw [hfind] at h
    obtain ⟨payloadStart, hstart, h⟩ := bind_ok h
    obtain ⟨fileBegin, hbegin, h⟩ := bind_ok h
    obtain ⟨fileEnd, -, h⟩ := bind_ok h
    obtain ⟨_, -, h⟩ := bind_ok h
    obtain ⟨_, -, h⟩ := bind_ok h
    obtain ⟨_, -, h⟩ := bind_ok h
    have hoffset : fileBegin = kPrefixBytes + header.headerBytes + t.dataBegin := by
      rw [checkedAdd_ok hbegin, checkedAdd_ok hstart]
    cases h
    rw [hoffset]
    exact ⟨rfl, hlength, rfl⟩
  · intro hsmall path
    have hmax : streamoffMax ≤ uint64Max := by decide
    refine ⟨⟨t, (file.drop (kPrefixBytes + header.headerBytes + t.dataBegin)).take t.bytes⟩, ?_⟩
    unfold readTensor
    rw [hfind]
    rw [checkedAdd_of_le _ (by omega)]
    dsimp only [bind, Except.bind]
    rw [checkedAdd_of_le _ (by omega)]
    rw [checkedAdd_of_le _ (by omega)]
    dsimp only [throwIf]
    rw [if_neg (by rw [hs.fileBytes]; omega)]
    rw [if_neg (by omega)]
    rw [if_neg (by rw [hlength]; simp)]
    rfl

/-! ## An accepted directory -/

theorem nameLess_order : OrderedMap.StrictOrder nameLess where
  irrefl a := by simp [nameLess]
  trans a b c hab hbc := by
    simp only [nameLess, decide_eq_true_eq] at hab hbc ⊢
    exact lt_trans hab hbc
  eq_of_not_less a b hab hba := by
    simp only [nameLess, decide_eq_false_iff_not] at hab hba
    exact le_antisymm (not_lt.mp hba) (not_lt.mp hab)

theorem Json.Unique.at {found : Json} (h : value.Unique) {key : String}
    (hfound : value.at? key = some found) : found.Unique := by
  cases h with
  | object _ hmembers =>
    obtain ⟨m, hm, rfl⟩ := Option.map_eq_some_iff.mp hfound
    exact hmembers m (mem_of_find?_eq_some hm)
  | _ => cases hfound

theorem requireString_ok {text : String} (h : requireString value label = .ok text) : value = .string text := by
  unfold requireString at h
  split at h
  · cases h
    rfl
  · cases h

theorem namesByShard_ok {names result : List (String × List String)} (h : namesByShard members names = .ok result) :
    ∃ assigned, members = assigned.map (fun a => (a.1, Json.string a.2)) ∧
      (OrderedMap.entries result).Perm (assigned ++ OrderedMap.entries names) := by
  induction members generalizing names with
  | nil =>
    cases h
    exact ⟨[], rfl, List.Perm.refl _⟩
  | cons member rest ih =>
    obtain ⟨tensorName, value⟩ := member
    obtain ⟨shardName, hstring, h⟩ := bind_ok h
    obtain ⟨_, _, h⟩ := bind_ok h
    obtain ⟨assigned, rfl, hentries⟩ := ih h
    refine ⟨(tensorName, shardName) :: assigned, by rw [requireString_ok hstring]; rfl, ?_⟩
    have hpush := OrderedMap.entries_pushBack nameLess_order shardName tensorName names
    exact hentries.trans ((hpush.append_left assigned).trans perm_middle)

theorem checkNames_ok {shardName : String} {indexedNames : List String}
    (h : checkNames shardName indexedNames header = .ok u) (hnodup : indexedNames.Nodup) :
    (header.tensors.map TensorInfo.name).Perm indexedNames := by
  unfold checkNames at h
  split at h
  · cases h
  next hfound =>
  obtain ⟨_, hcount, _⟩ := bind_ok h
  have hcount := throwIf_ok.mp hcount
  rw [not_not, hnodup.dedup] at hcount
  have hsubset : indexedNames ⊆ header.tensors.map TensorInfo.name := by
    intro name hname
    have hsome : header.find name ≠ none := by simpa using find?_eq_none.mp hfound name hname
    obtain ⟨t, ht⟩ := Option.ne_none_iff_exists'.mp hsome
    have hmatch : t.name = name := by simpa using find?_some ht
    rw [← hmatch]
    exact List.mem_map_of_mem (mem_of_find?_eq_some ht)
  have hsubperm := List.Nodup.subperm hnodup hsubset
  exact (hsubperm.perm_of_length_le (by rw [length_map, hcount])).symm

section Directory

variable (parse : Parser) (files : Files) (directory : String)

/-- The shard `s` is the file the index calls `e.1`, and holds the tensors `e.2`. -/
structure ShardOf (e : String × List String) (s : Shard) : Prop where
  path : s.path = joined directory e.1
  header : inspectFile parse s.path (files s.path) = .ok s.header
  names : (s.header.tensors.map TensorInfo.name).Perm e.2

/-- What an accepted directory holds: every tensor of `assigned` in its shard and in no other, and no further tensor. -/
structure DirectorySound (assigned : List (String × String)) (found : IndexedSafetensors) : Prop where
  unique : (assigned.map Prod.fst).Nodup
  headers : ∀ s ∈ found.shards, inspectFile parse s.path (files s.path) = .ok s.header
  names : (found.shards.flatMap fun s => s.header.tensors.map fun t => (t.name, s.path)).Perm
    (assigned.map fun a => (a.1, joined directory a.2))
  only : ∀ a ∈ assigned, ∃ s ∈ found.shards, s.path = joined directory a.2 ∧
    ∀ s' ∈ found.shards, a.1 ∈ s'.header.tensors.map TensorInfo.name ↔ s' = s

variable {parse files directory}

variable {names : List (String × List String)} {shards : List Shard}

theorem inspectShards_ok {result final : IndexedSafetensors}
    (h : inspectShards parse files directory names result = .ok final)
    (hnodup : ∀ e ∈ names, e.2.Nodup) :
    ∃ shards, final.shards = result.shards ++ shards ∧ List.Forall₂ (ShardOf parse files directory) names shards := by
  induction names generalizing result with
  | nil =>
    cases h
    exact ⟨[], by simp, .nil⟩
  | cons e rest ih =>
    obtain ⟨header, hheader, h⟩ := bind_ok h
    obtain ⟨_, hnames, h⟩ := bind_ok h
    obtain ⟨hfirst, hrest⟩ := forall_mem_cons.mp hnodup
    obtain ⟨shards, hshards, hall⟩ := ih h hrest
    refine ⟨⟨joined directory e.1, header⟩ :: shards, by rw [hshards]; simp, .cons ?_ hall⟩
    exact ⟨rfl, hheader, checkNames_ok hnames hfirst⟩

theorem tensors_of_shards (h : List.Forall₂ (ShardOf parse files directory) names shards) :
    (shards.flatMap fun s => s.header.tensors.map fun t => (t.name, s.path)).Perm
      ((OrderedMap.entries names).map fun a => (a.1, joined directory a.2)) := by
  induction h with
  | nil => exact List.Perm.refl _
  | @cons e s names shards hshard _ ih =>
    have hone : (s.header.tensors.map fun t => (t.name, s.path)).Perm
        (e.2.map fun v => (v, joined directory e.1)) := by
      have hmap := hshard.names.map fun name => (name, s.path)
      rw [List.map_map, hshard.path] at hmap
      rw [hshard.path]
      exact hmap
    have hentries : (OrderedMap.entries (e :: names)).map (fun a => (a.1, joined directory a.2)) =
        (e.2.map fun v => (v, joined directory e.1)) ++
          (OrderedMap.entries names).map fun a => (a.1, joined directory a.2) := by
      simp [OrderedMap.entries]
    rw [hentries, flatMap_cons]
    exact hone.append ih

theorem names_nodup (h : ((OrderedMap.entries names).map Prod.fst).Nodup) : ∀ e ∈ names, e.2.Nodup := by
  have hnames : (OrderedMap.entries names).map Prod.fst = names.flatMap Prod.snd := by
    unfold OrderedMap.entries
    rw [map_flatMap]
    refine congrArg (fun f => names.flatMap f) (funext fun e => ?_)
    rw [List.map_map]
    exact List.map_id _
  rw [hnames] at h
  exact (nodup_flatMap.mp h).1

variable {s : Shard} {found : IndexedSafetensors} {root : Json}

theorem shard_unique (h : (shards.flatMap fun s => s.header.tensors.map TensorInfo.name).Nodup) {s' : Shard}
    (hs : s ∈ shards) (hs' : s' ∈ shards)
    (hname : name ∈ s.header.tensors.map TensorInfo.name)
    (hname' : name ∈ s'.header.tensors.map TensorInfo.name) : s' = s := by
  by_contra hne
  have : Std.Symm (Function.onFun List.Disjoint fun s : Shard => s.header.tensors.map TensorInfo.name) :=
    ⟨fun _ _ hd => hd.symm⟩
  have hdisjoint := (nodup_flatMap.mp h).2.forall hs' hs hne
  exact hdisjoint hname' hname

theorem shardOf_of_mem (h : List.Forall₂ (ShardOf parse files directory) names shards)
    (hs : s ∈ shards) : ∃ e, ShardOf parse files directory e s := by
  induction h with
  | nil => simp at hs
  | cons hshard _ ih =>
    rcases mem_cons.mp hs with rfl | hs
    · exact ⟨_, hshard⟩
    · exact ih hs

theorem directorySound_of_shards {assigned : List (String × String)}
    (hunique : (assigned.map Prod.fst).Nodup) (hentries : (OrderedMap.entries names).Perm assigned)
    (hshards : List.Forall₂ (ShardOf parse files directory) names found.shards) :
    DirectorySound parse files directory assigned found := by
  have hnames := (tensors_of_shards hshards).trans (hentries.map _)
  have hflat : (found.shards.flatMap fun s => s.header.tensors.map TensorInfo.name).Nodup := by
    have hfirst := hnames.map Prod.fst
    rw [List.map_map, map_flatMap] at hfirst
    simp only [List.map_map] at hfirst
    exact hfirst.nodup_iff.mpr hunique
  refine ⟨hunique, ?_, hnames, ?_⟩
  · intro s hs
    obtain ⟨e, hshard⟩ := shardOf_of_mem hshards hs
    exact hshard.header
  · intro a ha
    have hmem := hnames.mem_iff.mpr (List.mem_map_of_mem ha)
    obtain ⟨s, hs, ht⟩ := mem_flatMap.mp hmem
    obtain ⟨t, ht, hpair⟩ := List.mem_map.mp ht
    have hname : a.1 ∈ s.header.tensors.map TensorInfo.name := by
      rw [← congrArg Prod.fst hpair]
      exact List.mem_map_of_mem ht
    refine ⟨s, hs, congrArg Prod.snd hpair, fun s' hs' => ⟨?_, ?_⟩⟩
    · exact fun hname' => shard_unique hflat hs hs' hname hname'
    · rintro rfl
      exact hname

theorem readJsonFile_ok (h : readJsonFile parse files path = .ok root) :
    ∃ encoded, files path = some encoded ∧ parse encoded = .ok root := by
  unfold readJsonFile at h
  split at h
  · cases h
  next encoded hencoded =>
  split at h
  · cases h
  next hparsed =>
  cases h
  exact ⟨encoded, hencoded, hparsed⟩

theorem requireWeightMap_ok {members : List (String × Json)}
    (h : requireWeightMap root = .ok members) : root.at? "weight_map" = some (.object members) := by
  unfold requireWeightMap at h
  split at h
  · next hmap =>
    cases h
    exact hmap
  · cases h

theorem inspectIndexedDirectory_ok (hparse : ∀ text value, parse text = .ok value → value.Unique)
    {indexFilename : String}
    (h : inspectIndexedDirectory parse files directory indexFilename = .ok found) :
    ∃ index root assigned, files (joined directory indexFilename) = some index ∧ parse index = .ok root ∧
      root.at? "weight_map" = some (.object (assigned.map fun a => (a.1, Json.string a.2))) ∧
      DirectorySound parse files directory assigned found := by
  obtain ⟨_, -, h⟩ := bind_ok h
  obtain ⟨root, hroot, h⟩ := bind_ok h
  obtain ⟨members, hmembers, h⟩ := bind_ok h
  obtain ⟨size, -, h⟩ := bind_ok h
  obtain ⟨names, hnames, h⟩ := bind_ok h
  obtain ⟨_, -, h⟩ := bind_ok h
  obtain ⟨result, hresult, h⟩ := bind_ok h
  have hfound : found = result := by
    cases size with
    | none =>
      cases h
      rfl
    | some size =>
      obtain ⟨_, -, h⟩ := bind_ok h
      obtain ⟨_, -, h⟩ := bind_ok h
      cases h
      rfl
  obtain ⟨index, hindex, hparsed⟩ := readJsonFile_ok hroot
  have hmap := requireWeightMap_ok hmembers
  obtain ⟨assigned, rfl, hentries⟩ := namesByShard_ok hnames
  have hunique : (assigned.map Prod.fst).Nodup := by
    obtain ⟨hkeys, -⟩ := Json.unique_object.mp ((hparse _ _ hparsed).at hmap)
    rw [List.map_map] at hkeys
    exact hkeys
  have hentries : (OrderedMap.entries names).Perm assigned := by simpa [OrderedMap.entries] using hentries
  have hnodup := names_nodup ((hentries.map Prod.fst).nodup_iff.mpr hunique)
  obtain ⟨shards, hshards, hall⟩ := inspectShards_ok hresult hnodup
  rw [nil_append] at hshards
  rw [← hshards] at hall
  rw [hfound]
  exact ⟨index, root, assigned, hindex, hparsed, hmap, directorySound_of_shards hunique hentries hall⟩

end Directory

/-- An accepted file is sound, and so is every read of its tensors; an accepted directory holds
    each tensor of its index in the shard the index assigns, and nothing else. -/
theorem inspected_sound (parse : Parser) (hparse : ∀ text value, parse text = .ok value → value.Unique) :
    (∀ path file header, inspectFile parse path (some file) = .ok header →
      HeaderSound file header ∧ ∀ t ∈ header.tensors, ReadSound file header t) ∧
    ∀ files directory indexFilename found,
      inspectIndexedDirectory parse files directory indexFilename = .ok found →
        ∃ index root assigned, files (joined directory indexFilename) = some index ∧
          parse index = .ok root ∧
          root.at? "weight_map" = some (.object (assigned.map fun a => (a.1, Json.string a.2))) ∧
          DirectorySound parse files directory assigned found := by
  constructor
  · intro path file header h
    have hsound := inspectFile_ok hparse h
    exact ⟨hsound, fun t ht => hsound.read ht⟩
  · intro files directory indexFilename found h
    exact inspectIndexedDirectory_ok hparse h

/-! A directory of one shard with two tensors, one of them empty. -/

def shardText : List UInt8 :=
  Bytes.ascii ("\x7b\"a\":\x7b\"dtype\":\"U8\",\"shape\":[2],\"data_offsets\":[0,2]\x7d," ++
    "\"b\":\x7b\"dtype\":\"F32\",\"shape\":[0],\"data_offsets\":[2,2]\x7d\x7d")

def shardRoot : Json :=
  .object [("a", .object [("data_offsets", .array [.unsigned 0, .unsigned 2]), ("dtype", .string "U8"),
      ("shape", .array [.unsigned 2])]),
    ("b", .object [("data_offsets", .array [.unsigned 2, .unsigned 2]), ("dtype", .string "F32"),
      ("shape", .array [.unsigned 0])])]

def indexText : List UInt8 :=
  Bytes.ascii ("\x7b\"metadata\":\x7b\"total_size\":2\x7d," ++
    "\"weight_map\":\x7b\"a\":\"w.safetensors\",\"b\":\"w.safetensors\"\x7d\x7d")

def indexRoot : Json :=
  .object [("metadata", .object [("total_size", .unsigned 2)]),
    ("weight_map", .object [("a", .string "w.safetensors"), ("b", .string "w.safetensors")])]

/-- A parser of these two texts. -/
def parseTwoTexts (text : List UInt8) : Except String Json :=
  if text = shardText then .ok shardRoot
  else if text = indexText then .ok indexRoot
  else .error "parse error"

theorem parseTwoTexts_unique (text : List UInt8) (value : Json) (h : parseTwoTexts text = .ok value) :
    value.Unique := by
  unfold parseTwoTexts at h
  split at h
  · cases h
    simp [shardRoot]
  split at h
  · cases h
    simp [indexRoot]
  · cases h

def shardFile : List UInt8 := [106, 0, 0, 0, 0, 0, 0, 0] ++ shardText ++ [7, 9]

def twoFiles (path : String) : Option (List UInt8) :=
  if path = "model/w.safetensors" then some shardFile
  else if path = "model/index.json" then some indexText
  else none

def shardHeader : SafetensorsHeader where
  fileBytes := 116
  headerBytes := 106
  payloadBytes := 2
  metadataKeys := []
  tensors := [⟨"a", "U8", [2], 0, 2⟩, ⟨"b", "F32", [0], 2, 2⟩]

def twoTensors : IndexedSafetensors where
  indexTotalSize := some 2
  indexedTensorCount := 2
  headerTensorCount := 2
  shards := [⟨"model/w.safetensors", shardHeader⟩]

theorem inspected_sound_twoTensors :
    HeaderSound shardFile shardHeader ∧
      ∃ assigned, DirectorySound parseTwoTexts twoFiles "model" assigned twoTensors := by
  obtain ⟨hfile, hdirectory⟩ := inspected_sound parseTwoTexts parseTwoTexts_unique
  refine ⟨(hfile "model/w.safetensors" shardFile shardHeader (by decide +kernel)).1, ?_⟩
  obtain ⟨_, _, assigned, -, -, -, hsound⟩ :=
    hdirectory twoFiles "model" "index.json" twoTensors (by decide +kernel)
  exact ⟨assigned, hsound⟩

end VoidInfer.Exl3.Safetensors
