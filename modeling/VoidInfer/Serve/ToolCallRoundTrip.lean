import VoidInfer.Serve.ToolCallParser
import VoidInfer.Frontend.ToolCallRender
import VoidInfer.Lib.Occurrence

/-
  The tool calls a template renders are the ones the parser reads. The format is not escaped, so every search of the
  parser must end at the tag that was rendered for it: the closing tags may be in no string of the arguments, and no key
  may end so that its `>` completes one.
-/

namespace VoidInfer.Serve
open Bytes Occurrence Frontend List

/-! ## The markers -/

/-- A closing tag: its first byte is not in the rest, and no byte that structures JSON or separates lines is in it. -/
structure ClosingTag (marker : List UInt8) : Prop where
  first : ∃ tail, marker = 60 :: tail ∧ (60 : UInt8) ∉ tail
  plain : ∀ d ∈ ([9, 10, 32, 34, 44, 58, 61, 91, 92, 93, 123, 125] : List UInt8), d ∉ marker

theorem plain_of_all {marker bytes : List UInt8} (h : bytes.all (fun d => !marker.contains d) = true) :
    ∀ d ∈ bytes, d ∉ marker := by
  intro d hd hmem
  have := List.all_eq_true.mp h d hd
  simp [hmem] at this

theorem kToolClose_closing : ClosingTag kToolClose := ⟨⟨kToolClose.tail, rfl, by decide⟩, plain_of_all (by decide)⟩

theorem kFunctionClose_closing : ClosingTag kFunctionClose := ⟨⟨kFunctionClose.tail, rfl, by decide⟩, plain_of_all (by decide)⟩

theorem kParamClose_closing : ClosingTag kParamClose := ⟨⟨kParamClose.tail, rfl, by decide⟩, plain_of_all (by decide)⟩

variable {marker : List UInt8}

theorem ClosingTag.absent_nil (h : ClosingTag marker) : Absent marker [] := by
  obtain ⟨tail, rfl, -⟩ := h.first
  exact absent_of_notMem (by simp)

variable {text a b : List UInt8}

theorem ClosingTag.absent_of_notMem (h : ClosingTag marker) (hnot : (60 : UInt8) ∉ text) : Absent marker text := by
  obtain ⟨tail, rfl, -⟩ := h.first
  exact Occurrence.absent_of_notMem hnot

theorem ClosingTag.absent_around (h : ClosingTag marker) {d : UInt8}
    (hd : d ∈ ([9, 10, 32, 34, 44, 58, 61, 91, 92, 93, 123, 125] : List UInt8)) (ha : Absent marker a)
    (hb : Absent marker b) : Absent marker (a ++ d :: b) :=
  (absent_split (h.plain d hd)).mpr ⟨ha, hb⟩

theorem ClosingTag.absent_after (h : ClosingTag marker) (ha : (60 : UInt8) ∉ a)
    (hb : Absent marker b) : Absent marker (a ++ b) := by
  obtain ⟨tail, rfl, -⟩ := h.first
  exact absent_append ha hb

/-! ## Strings and values -/

theorem escapeByte_cases (b : UInt8) :
    escapeByte b = [b] ∨ ∃ rest, escapeByte b = 92 :: rest ∧ (60 : UInt8) ∉ rest := by
  have hall : ∀ n, escapeByte (UInt8.ofFin n) = [UInt8.ofFin n] ∨
      (escapeByte (UInt8.ofFin n)).head? = some 92 ∧ (60 : UInt8) ∉ (escapeByte (UInt8.ofFin n)).tail := by
    decide +kernel
  rcases hall b.toFin with h | ⟨hhead, htail⟩
  · exact .inl h
  obtain ⟨rest, hrest⟩ := head?_eq_some_iff.mp hhead
  exact .inr ⟨rest, hrest, by rwa [hrest] at htail⟩

theorem ClosingTag.absent_escape (h : ClosingTag marker) (raw : List UInt8) (htext : Absent marker (raw ++ text)) :
    Absent marker (raw ++ text.flatMap escapeByte) := by
  induction text generalizing raw with
  | nil => simpa using htext
  | cons b text ih =>
    rw [flatMap_cons]
    rcases escapeByte_cases b with hb | ⟨rest, hb, hrest⟩
    · rw [hb, ← append_assoc]
      refine ih _ ?_
      rw [append_assoc]
      exact htext
    rw [hb, cons_append]
    refine h.absent_around (by decide) (htext.part (prefix_append _ _).isInfix) (h.absent_after hrest ?_)
    have hpart : Absent marker text :=
      htext.part ((suffix_cons b text).trans (suffix_append raw _)).isInfix
    exact ih [] hpart

theorem ClosingTag.absent_dumpString (h : ClosingTag marker) (htext : Absent marker text) :
    Absent marker (dumpString text) := by
  unfold dumpString
  refine h.absent_around (a := []) (by decide) h.absent_nil ?_
  exact h.absent_around (by decide) (h.absent_escape [] htext) h.absent_nil

mutual

/-- The strings of a value, keys included. -/
def jsonStrings : OrderedJson → List (List UInt8)
  | .string text => [text]
  | .array values => elementStrings values
  | .object members => memberStrings members
  | _ => []

def elementStrings : List OrderedJson → List (List UInt8)
  | [] => []
  | value :: values => jsonStrings value ++ elementStrings values

def memberStrings : List (List UInt8 × OrderedJson) → List (List UInt8)
  | [] => []
  | (key, value) :: members => key :: jsonStrings value ++ memberStrings members

end

variable {text : List UInt8}

theorem ClosingTag.absent_separated (h : ClosingTag marker) {index : Nat} {before : List UInt8}
    (hbefore : Absent marker before) (hindex : index = 0 → before = []) (htext : Absent marker text) :
    Absent marker (before ++ (if index ≠ 0 then kSeparator else []) ++ text) := by
  by_cases h0 : index = 0
  · rw [if_neg (by simpa using h0), hindex h0]
    exact htext
  rw [if_pos h0, append_assoc]
  exact h.absent_around (by decide) hbefore (h.absent_around (a := []) (by decide) h.absent_nil htext)

theorem number_notMem (value : NumberText) : (60 : UInt8) ∉ value.text := fun h => by
  have := value.bytes 60 h
  cases this

mutual

theorem ClosingTag.absent_tojsonText (h : ClosingTag marker) :
    ∀ value, (∀ text ∈ jsonStrings value, Absent marker text) → Absent marker (tojsonText value)
  | .array values, hstrings => by
    rw [tojsonText, append_assoc]
    refine h.absent_around (a := []) (by decide) h.absent_nil ?_
    refine h.absent_around (by decide)
      (ClosingTag.absent_elementsText h 0 [] h.absent_nil (fun _ => rfl) values ?_) h.absent_nil
    rwa [jsonStrings] at hstrings
  | .object members, hstrings => by
    rw [tojsonText, append_assoc]
    refine h.absent_around (a := []) (by decide) h.absent_nil ?_
    refine h.absent_around (by decide)
      (ClosingTag.absent_membersText h 0 [] h.absent_nil (fun _ => rfl) members ?_) h.absent_nil
    rwa [jsonStrings] at hstrings
  | .null, _ => by
    rw [tojsonText]
    exact h.absent_of_notMem (by decide)
  | .boolean value, _ => by
    rw [tojsonText]
    cases value <;> exact h.absent_of_notMem (by decide)
  | .number value, _ => by
    rw [tojsonText]
    exact h.absent_of_notMem (number_notMem value)
  | .string text, hstrings => by
    rw [tojsonText]
    exact h.absent_dumpString (hstrings text (by simp [jsonStrings]))

theorem ClosingTag.absent_elementsText (h : ClosingTag marker) (index : Nat) (before : List UInt8)
    (hbefore : Absent marker before) (hindex : index = 0 → before = []) :
    ∀ values, (∀ text ∈ elementStrings values, Absent marker text) →
      Absent marker (before ++ elementsText index values)
  | [], _ => by
    rw [elementsText, append_nil]
    exact hbefore
  | value :: values, hstrings => by
    rw [elementStrings] at hstrings
    have hvalue := ClosingTag.absent_tojsonText h value fun text htext => hstrings text (mem_append_left _ htext)
    have hrest : ∀ text ∈ elementStrings values, Absent marker text := fun text htext =>
      hstrings text (mem_append_right _ htext)
    rw [elementsText, ← append_assoc, ← append_assoc]
    refine ClosingTag.absent_elementsText h (index + 1) _ ?_ (fun h0 => absurd h0 (Nat.succ_ne_zero _)) values hrest
    exact h.absent_separated hbefore hindex hvalue

theorem ClosingTag.absent_membersText (h : ClosingTag marker) (index : Nat) (before : List UInt8)
    (hbefore : Absent marker before) (hindex : index = 0 → before = []) :
    ∀ members, (∀ text ∈ memberStrings members, Absent marker text) →
      Absent marker (before ++ membersText index members)
  | [], _ => by
    rw [membersText, append_nil]
    exact hbefore
  | (key, value) :: members, hstrings => by
    rw [memberStrings] at hstrings
    have hkey := h.absent_dumpString (hstrings key (by simp))
    have hvalue := ClosingTag.absent_tojsonText h value fun text htext => hstrings text (by simp [htext])
    have hrest : ∀ text ∈ memberStrings members, Absent marker text := fun text htext =>
      hstrings text (by simp [htext])
    rw [membersText]
    have hmember : Absent marker (dumpString key ++ kColon ++ tojsonText value) := by
      rw [append_assoc]
      exact h.absent_around (by decide) hkey (h.absent_around (a := []) (by decide) h.absent_nil hvalue)
    have := ClosingTag.absent_membersText h (index + 1) _ (h.absent_separated hbefore hindex hmember)
      (fun h0 => absurd h0 (Nat.succ_ne_zero _)) members hrest
    simpa only [append_assoc] using this

end

/-! ## Trimmed texts -/

/-- A text without white space around it. -/
def Trimmed (text : List UInt8) : Prop := trimAscii text = text

theorem dropWhile_of_trimmed (h : Trimmed text) : text.dropWhile isSpace = text ∧ rtrimAscii text = text := by
  have hlong : (rtrimAscii (text.dropWhile isSpace)).length ≤ (text.dropWhile isSpace).length :=
    IsPrefix.length_le <| rdropWhile_prefix _ _
  have hsuffix := dropWhile_suffix (l := text) isSpace
  have hdrop : text.dropWhile isSpace = text := by
    refine hsuffix.eq_of_length_le ?_
    have : rtrimAscii (text.dropWhile isSpace) = text := h
    rw [this] at hlong
    exact hlong
  refine ⟨hdrop, ?_⟩
  have : rtrimAscii (text.dropWhile isSpace) = text := h
  rwa [hdrop] at this

theorem trimmed_of_ends {a z : UInt8} (hhead : text.head? = some a)
    (hlast : text.getLast? = some z) (ha : isSpace a = false) (hz : isSpace z = false) : Trimmed text := by
  obtain ⟨rest, rfl⟩ := head?_eq_some_iff.mp hhead
  have hdrop : (a :: rest).dropWhile isSpace = a :: rest := by simp [ha]
  obtain ⟨start, hstart⟩ := getLast?_eq_some_iff.mp hlast
  unfold Trimmed trimAscii
  rw [hdrop, hstart, rtrimAscii_concat hz]

theorem trim_lines (h : Trimmed text) : trimAscii ([10] ++ text ++ [10]) = text := by
  obtain ⟨hdrop, hrtrim⟩ := dropWhile_of_trimmed h
  have hright : rtrimAscii (text ++ [10]) = text := by
    unfold rtrimAscii
    rw [rdropWhile_concat_pos _ _ _ (by decide)]
    exact hrtrim
  change rtrimAscii ((text ++ [10]).dropWhile isSpace) = text
  cases text with
  | nil => decide
  | cons a text =>
    have ha : isSpace a = false := by
      by_contra hspace
      rw [dropWhile_cons_of_pos (by simpa using hspace)] at hdrop
      have := congrArg List.length hdrop
      have hle := (dropWhile_suffix (l := text) isSpace).length_le
      simp only [length_cons] at this
      omega
    rw [cons_append, dropWhile_cons_of_neg (by simp [ha]), ← cons_append, hright]

theorem number_trimmed (value : NumberText) : Trimmed value.text := by
  have hbyte : ∀ b, isNumberByte b = true → isSpace b = false := by
    have hall : ∀ n, isNumberByte (UInt8.ofFin n) = true → isSpace (UInt8.ofFin n) = false := by
      decide +kernel
    exact fun b => hall b.toFin
  obtain ⟨a, rest, htext⟩ := exists_cons_of_ne_nil value.nonempty
  have hlast := getLast?_eq_some_getLast value.nonempty
  exact trimmed_of_ends (by rw [htext]; rfl) hlast (hbyte a (value.bytes a (by simp [htext])))
    (hbyte _ (value.bytes _ (getLast_mem value.nonempty)))

theorem tojsonText_trimmed (value : OrderedJson) : Trimmed (tojsonText value) := by
  cases value with
  | null => unfold Trimmed; decide
  | boolean value =>
    unfold Trimmed
    cases value <;> decide
  | number value =>
    exact number_trimmed value
  | string text =>
    exact trimmed_of_ends (a := 34) (z := 34) rfl (getLast?_concat ..) (by decide) (by decide)
  | array values =>
    exact trimmed_of_ends (a := 91) (z := 93) rfl (getLast?_concat ..) (by decide) (by decide)
  | object members =>
    exact trimmed_of_ends (a := 123) (z := 125) rfl (getLast?_concat ..) (by decide) (by decide)

/-! ## What is rendered -/

/-- A key that the parser reads up to its `>`. -/
structure PlainKey (key : List UInt8) : Prop where
  nonempty : key ≠ []
  free : (62 : UInt8) ∉ key
  toolClose : ¬ ascii "</tool_call" <:+ key
  functionClose : ¬ ascii "</function" <:+ key

instance (key : List UInt8) : Decidable (PlainKey key) :=
  decidable_of_iff (key ≠ [] ∧ (62 : UInt8) ∉ key ∧ ¬ ascii "</tool_call" <:+ key ∧ ¬ ascii "</function" <:+ key)
    ⟨fun ⟨h, h₁, h₂, h₃⟩ => ⟨h, h₁, h₂, h₃⟩, fun h => ⟨h.nonempty, h.free, h.toolClose, h.functionClose⟩⟩

/-- JSON round-trips the arguments `args` of a call: their text parses to these members, in both
    kinds of JSON objects; texts of values parse to the values; and the object of the members is
    dumped to a text that parses to it. -/
structure JsonAgrees (lib : JsonLibrary) (parse : List UInt8 → Except Exn OrderedJson)
    (convert : OrderedJson → lib.Json) (call : Frontend.ToolCall) (args : List (List UInt8 × OrderedJson)) : Prop where
  nonempty : call.argumentsJson ≠ []
  parsed : parse call.argumentsJson = .ok (.object args)
  string : ∀ arg ∈ args, ∀ text, arg.2 = .string text → lib.ofString text = convert arg.2
  value : ∀ arg ∈ args, (∀ text, arg.2 ≠ .string text) → lib.parse (tojsonText arg.2) = some (convert arg.2)
  members : lib.parse call.argumentsJson =
    some (args.foldl (fun object arg => lib.set object arg.1 (convert arg.2)) lib.object)
  dumped : ∃ text, lib.dump (args.foldl (fun object arg => lib.set object arg.1 (convert arg.2)) lib.object) = .ok text ∧
    lib.parse text = some (args.foldl (fun object arg => lib.set object arg.1 (convert arg.2)) lib.object)

/-- A call whose name the parser accepts and whose arguments survive the tags. -/
structure Renderable (lib : JsonLibrary) (maxNameLength : Nat) (call : Frontend.ToolCall)
    (args : List (List UInt8 × OrderedJson)) : Prop where
  name : validFunctionName call.name maxNameLength = true
  keys : ∀ arg ∈ args, PlainKey arg.1
  /-- String values are trimmed and are no JSON themselves. -/
  strings : ∀ arg ∈ args, ∀ text, arg.2 = .string text → Trimmed text ∧ lib.parse text = none
  /-- No string in a value, however deep, holds a closing tag. -/
  tags : ∀ arg ∈ args, ∀ text ∈ jsonStrings arg.2,
    Absent kToolClose text ∧ Absent kFunctionClose text ∧ Absent kParamClose text

section Values

variable {lib : JsonLibrary} {parse : List UInt8 → Except Exn OrderedJson} {convert : OrderedJson → lib.Json}
  {maxNameLength : Nat} {call : Frontend.ToolCall} {args : List (List UInt8 × OrderedJson)}

variable {arg : List UInt8 × OrderedJson} {name text rest : List UInt8}

theorem parameterText_trimmed (hcall : Renderable lib maxNameLength call args)
    (harg : arg ∈ args) : Trimmed (parameterText arg.2) := by
  cases hvalue : arg.2 with
  | string text => exact (hcall.strings arg harg text hvalue).1
  | null => exact tojsonText_trimmed _
  | boolean value => exact tojsonText_trimmed _
  | number value => exact tojsonText_trimmed _
  | array values => exact tojsonText_trimmed _
  | object members => exact tojsonText_trimmed _

theorem parameterText_absent (h : ClosingTag marker) {value : OrderedJson}
    (hstrings : ∀ text ∈ jsonStrings value, Absent marker text) : Absent marker (parameterText value) := by
  cases value with
  | string text => exact hstrings text (by simp [jsonStrings])
  | null => exact h.absent_tojsonText _ hstrings
  | boolean value => exact h.absent_tojsonText _ hstrings
  | number value => exact h.absent_tojsonText _ hstrings
  | array values => exact h.absent_tojsonText _ hstrings
  | object members => exact h.absent_tojsonText _ hstrings

theorem parsed_value (hcall : Renderable lib maxNameLength call args)
    (hjson : JsonAgrees lib parse convert call args) (harg : arg ∈ args) :
    (lib.parse (parameterText arg.2)).getD (lib.ofString (parameterText arg.2)) = convert arg.2 := by
  by_cases hstring : ∃ text, arg.2 = .string text
  · obtain ⟨text, htext⟩ := hstring
    have htext' : parameterText arg.2 = text := by rw [htext]; rfl
    rw [htext', (hcall.strings arg harg text htext).2, Option.getD_none]
    exact hjson.string arg harg text htext
  have hother : ∀ text, arg.2 ≠ .string text := fun text htext => hstring ⟨text, htext⟩
  have htext' : parameterText arg.2 = tojsonText arg.2 := by
    unfold parameterText
    split
    · next text htext => exact absurd htext (hother text)
    · rfl
  rw [htext', hjson.value arg harg hother, Option.getD_some]

/-! ## Parameters -/

theorem startsWithAt_append (pattern rest : List UInt8) : startsWithAt (pattern ++ rest) pattern = some rest := by
  unfold startsWithAt
  rw [if_pos (by simp), drop_left]

theorem readName_append (hne : name ≠ []) (hfree : (62 : UInt8) ∉ name) (rest : List UInt8) :
    readName (name ++ kNameEnd ++ rest) = some (name, rest) := by
  have hcut : cut kNameEnd (name ++ kNameEnd ++ rest) = some (name, rest) :=
    cut_of_absent (p := 62) (by simp) (absent_of_notMem hfree) rest
  unfold readName
  rw [hcut]
  simp [Option.filter, hne]

/-- One rendered parameter. -/
def parameterChunk (arg : List UInt8 × OrderedJson) : List UInt8 :=
  kParamOpen ++ (arg.1 ++ kNameEnd ++ ([10] ++ parameterText arg.2 ++ [10] ++ kParamClose ++ [10]))

theorem parametersText_cons (arg : List UInt8 × OrderedJson) (args : List (List UInt8 × OrderedJson)) :
    parametersText (arg :: args) = parameterChunk arg ++ parametersText args := by
  have hopen : ascii "<parameter=" = kParamOpen := rfl
  have hname : ascii ">\n" = kNameEnd ++ [10] := rfl
  have hclose : ascii "\n</parameter>\n" = [10] ++ kParamClose ++ [10] := rfl
  simp only [parametersText, flatMap_cons, parameterChunk, hopen, hname, hclose, append_assoc]

theorem parseParameter_chunk (hkey : PlainKey arg.1) (htrimmed : Trimmed (parameterText arg.2))
    (habsent : Absent kParamClose (parameterText arg.2)) (rest : List UInt8) (object : lib.Json) :
    parseParameter lib (parameterChunk arg ++ rest) object =
      some ([10] ++ rest, lib.set object arg.1
        ((lib.parse (parameterText arg.2)).getD (lib.ofString (parameterText arg.2)))) := by
  have hvalue : Absent kParamClose ([10] ++ parameterText arg.2 ++ [10]) := by
    refine kParamClose_closing.absent_around (a := []) (by decide) kParamClose_closing.absent_nil ?_
    exact kParamClose_closing.absent_around (by decide) habsent kParamClose_closing.absent_nil
  have hcut : cut kParamClose ([10] ++ parameterText arg.2 ++ [10] ++ kParamClose ++ ([10] ++ rest)) =
      some ([10] ++ parameterText arg.2 ++ [10], [10] ++ rest) :=
    cut_of_absent (p := 60) (by decide) hvalue _
  have hopen : startsWithAt (parameterChunk arg ++ rest) kParamOpen =
      some (arg.1 ++ kNameEnd ++ ([10] ++ parameterText arg.2 ++ [10] ++ kParamClose ++ ([10] ++ rest))) := by
    have := startsWithAt_append kParamOpen
      (arg.1 ++ kNameEnd ++ ([10] ++ parameterText arg.2 ++ [10] ++ kParamClose ++ ([10] ++ rest)))
    rw [← this]
    simp only [parameterChunk, append_assoc]
  unfold parseParameter
  rw [hopen]
  simp only [Option.bind_eq_bind, Option.bind_some]
  rw [readName_append hkey.nonempty hkey.free]
  simp only [Option.bind_some, hcut, trim_lines htrimmed]

theorem skipWs_lines {b : UInt8} (hb : isSpace b = false) (hhead : text.head? = some b) :
    skipWs ([10] ++ text) = text ∧ skipWs text = text := by
  obtain ⟨rest, rfl⟩ := head?_eq_some_iff.mp hhead
  unfold skipWs
  constructor
  · rw [singleton_append, dropWhile_cons_of_pos (by decide), dropWhile_cons_of_neg (by simp [hb])]
  · rw [dropWhile_cons_of_neg (by simp [hb])]

theorem parseParameters_step {params : List UInt8} {object object' : lib.Json} (hne : (skipWs params).isEmpty = false)
    (h : parseParameter lib (skipWs params) object = some (rest, object')) :
    parseParameters lib params object = parseParameters lib rest object' := by
  rw [parseParameters, if_neg (by rw [hne]; exact Bool.false_ne_true)]
  split
  · next hnone =>
    rw [h] at hnone
    cases hnone
  next rest' object'' hsome =>
  rw [h] at hsome
  cases hsome
  rfl

theorem parseParameters_rendered (hcall : Renderable lib maxNameLength call args)
    (hjson : JsonAgrees lib parse convert call args) (done : List (List UInt8 × OrderedJson))
    (hdone : done <:+ args) (object : lib.Json) :
    parseParameters lib ([10] ++ parametersText done) object =
      some (done.foldl (fun object arg => lib.set object arg.1 (convert arg.2)) object) := by
  induction done generalizing object with
  | nil =>
    rw [parseParameters]
    rfl
  | cons arg done ih =>
    have harg : arg ∈ args := hdone.subset mem_cons_self
    have hskip : skipWs ([10] ++ (parameterChunk arg ++ parametersText done)) =
        parameterChunk arg ++ parametersText done := (skipWs_lines (b := 60) (by decide) rfl).1
    have hchunk := parseParameter_chunk (hcall.keys arg harg) (parameterText_trimmed hcall harg)
      (parameterText_absent kParamClose_closing fun text htext => (hcall.tags arg harg text htext).2.2)
      (parametersText done) object
    rw [parsed_value hcall hjson harg] at hchunk
    rw [parametersText_cons, parseParameters_step (by rfl) (by exact hchunk)]
    exact ih ((suffix_cons arg done).trans hdone) _

/-! ## Calls -/

/-- What stands between the tags of a call. -/
def innerText (name : List UInt8) (args : List (List UInt8 × OrderedJson)) : List UInt8 :=
  [10] ++ (kFunctionOpen ++ (name ++ kNameEnd ++ ([10] ++ parametersText args ++ kFunctionClose ++ [10])))

def callText (name : List UInt8) (args : List (List UInt8 × OrderedJson)) : List UInt8 :=
  kToolOpen ++ (innerText name args ++ kToolClose)

theorem renderToolCall_ok (hjson : JsonAgrees lib parse convert call args) (allowEmptyArguments : Bool) :
    renderToolCall parse call allowEmptyArguments = .ok (callText call.name args) := by
  have hempty : call.argumentsJson.isEmpty = false := by
    cases h : call.argumentsJson with
    | nil => exact absurd h hjson.nonempty
    | cons b rest => rfl
  have hopen : ascii "<tool_call>\n<function=" = kToolOpen ++ [10] ++ kFunctionOpen := rfl
  have hname : ascii ">\n" = kNameEnd ++ [10] := rfl
  have hclose : ascii "</function>\n</tool_call>" = kFunctionClose ++ [10] ++ kToolClose := rfl
  unfold renderToolCall
  rw [hempty, Bool.and_false, if_neg Bool.false_ne_true, hjson.parsed]
  simp only [bind, Except.bind, hopen, hname, hclose, callText, innerText, append_assoc]

theorem name_free (h : validFunctionName name maxNameLength = true) :
    name ≠ [] ∧ (62 : UInt8) ∉ name ∧ (60 : UInt8) ∉ name := by
  unfold validFunctionName at h
  rw [Bool.and_eq_true, List.all_eq_true] at h
  refine ⟨?_, fun hmem => absurd (h.2 62 hmem) (by decide), fun hmem => nomatch h.2 60 hmem⟩
  rintro rfl
  simp at h

theorem parametersText_absent (marker : List UInt8) (h : ClosingTag (marker ++ [62])) (hkeys : ∀ arg ∈ args, PlainKey arg.1 ∧ ¬ marker <:+ arg.1)
    (htags : ∀ arg ∈ args, ∀ text ∈ jsonStrings arg.2, Absent (marker ++ [62]) text)
    (hparam : Absent (marker ++ [62]) kParamClose) (hopen : Absent (marker ++ [62]) (kParamOpen.dropLast)) :
    Absent (marker ++ [62]) (parametersText args) := by
  induction args with
  | nil => exact h.absent_nil
  | cons arg args ih =>
    obtain ⟨hkey, hkeys⟩ := forall_mem_cons.mp hkeys
    obtain ⟨htag, htags⟩ := forall_mem_cons.mp htags
    have hname : Absent (marker ++ [62]) (arg.1 ++ [62]) := (absent_concat hkey.1.free).mpr hkey.2
    have hvalue : Absent (marker ++ [62]) (parameterText arg.2) := parameterText_absent h htag
    rw [parametersText_cons]
    have hshape : parameterChunk arg ++ parametersText args = kParamOpen.dropLast ++ 61 :: ((arg.1 ++ [62]) ++
        10 :: (parameterText arg.2 ++ 10 :: (kParamClose ++ 10 :: parametersText args))) := by
      have hsplit : kParamOpen = kParamOpen.dropLast ++ [61] := rfl
      rw [parameterChunk, hsplit]
      simp [kNameEnd, ascii]
    rw [hshape]
    refine h.absent_around (by decide) hopen (h.absent_around (by decide) hname ?_)
    exact h.absent_around (by decide) hvalue (h.absent_around (by decide) hparam (ih hkeys htags))

section
variable (hcall : Renderable lib maxNameLength call args)
include hcall

theorem functionClose_absent : Absent kFunctionClose (parametersText args) :=
  parametersText_absent (ascii "</function") kFunctionClose_closing
    (fun arg harg => ⟨hcall.keys arg harg, (hcall.keys arg harg).functionClose⟩)
    (fun arg harg text htext => (hcall.tags arg harg text htext).2.1) (by decide) (by decide)

theorem toolClose_absent : Absent kToolClose (parametersText args) :=
  parametersText_absent (ascii "</tool_call") kToolClose_closing
    (fun arg harg => ⟨hcall.keys arg harg, (hcall.keys arg harg).toolClose⟩)
    (fun arg harg text htext => (hcall.tags arg harg text htext).1) (by decide) (by decide)

theorem innerText_absent : Absent kToolClose (innerText call.name args) := by
  have h := kToolClose_closing
  have hname : Absent kToolClose (call.name ++ [62]) := h.absent_of_notMem (by
    rw [mem_append]
    exact fun hmem => hmem.elim (name_free hcall.name).2.2 (by decide))
  have hshape : innerText call.name args = 10 :: (kFunctionOpen.dropLast ++ 61 :: ((call.name ++ [62]) ++
      10 :: ((parametersText args ++ kFunctionClose) ++ [10]))) := by
    have hsplit : kFunctionOpen = kFunctionOpen.dropLast ++ [61] := rfl
    rw [innerText, hsplit]
    simp [kNameEnd, ascii]
  rw [hshape]
  refine h.absent_around (a := []) (by decide) h.absent_nil (h.absent_around (by decide) (by decide) ?_)
  refine h.absent_around (by decide) hname (h.absent_around (by decide) ?_ h.absent_nil)
  exact absent_join (by decide) (toolClose_absent hcall) (by decide)

theorem parseOneToolCall_rendered (hjson : JsonAgrees lib parse convert call args) (id : List UInt8) :
    ∃ text object, parseOneToolCall lib (innerText call.name args) maxNameLength id =
        .ok (some ⟨id, call.name, text⟩) ∧
      lib.parse text = some object ∧ lib.parse call.argumentsJson = some object := by
  obtain ⟨hne, hfree, -⟩ := name_free hcall.name
  obtain ⟨text, hdump, hparse⟩ := hjson.dumped
  have hskip : skipWs (innerText call.name args) = kFunctionOpen ++ (call.name ++ kNameEnd ++
      ([10] ++ parametersText args ++ kFunctionClose ++ [10])) :=
    (skipWs_lines (b := 60) (by decide) rfl).1
  have hparams : Absent kFunctionClose ([10] ++ parametersText args) :=
    kFunctionClose_closing.absent_around (a := []) (by decide) kFunctionClose_closing.absent_nil
      (functionClose_absent hcall)
  have hcut : cut kFunctionClose ([10] ++ parametersText args ++ kFunctionClose ++ [10]) =
      some ([10] ++ parametersText args, [10]) := cut_of_absent (p := 60) (by decide) hparams _
  have htail : (skipWs [10]).isEmpty = true := rfl
  have hargs := parseParameters_rendered hcall hjson args (suffix_refl _) lib.object
  refine ⟨text, _, ?_, hparse, hjson.members⟩
  unfold parseOneToolCall
  rw [hskip, startsWithAt_append]
  simp only [Option.bind_eq_bind, Option.bind_some, readName_append hne hfree, hcall.name, guard, if_true, hcut,
    hargs, htail, Option.pure_def, hdump]

end

variable (newToolCallId : Nat → List UInt8)

theorem parseToolCalls_step (hcall : Renderable lib maxNameLength call args)
    (hjson : JsonAgrees lib parse convert call args)
    (hskip : skipWs text = callText call.name args ++ rest) (toolCalls : List ToolCall) :
    ∃ parsed, ∃ object, parsed.name = call.name ∧ lib.parse parsed.argumentsJson = some object ∧
      lib.parse call.argumentsJson = some object ∧
      parseToolCalls lib newToolCallId maxNameLength text toolCalls =
        parseToolCalls lib newToolCallId maxNameLength rest (toolCalls ++ [parsed]) := by
  obtain ⟨dumped, object, hone, hparse, hmembers⟩ :=
    parseOneToolCall_rendered hcall hjson (newToolCallId toolCalls.length)
  refine ⟨⟨newToolCallId toolCalls.length, call.name, dumped⟩, object, rfl, hparse, hmembers, ?_⟩
  have hcut : (startsWithAt (skipWs text) kToolOpen).bind (cut kToolClose) =
      some (innerText call.name args, rest) := by
    rw [hskip, callText, append_assoc, startsWithAt_append, Option.bind_some]
    exact cut_of_absent (p := 60) (by decide) (innerText_absent hcall) rest
  have hblock : parseBlock lib (skipWs text) maxNameLength (newToolCallId toolCalls.length) =
      .ok (some (⟨newToolCallId toolCalls.length, call.name, dumped⟩, rest)) := by
    unfold parseBlock
    rw [hcut]
    simp only [hone]
    rfl
  rw [parseToolCalls, if_neg (by rw [hskip]; simp [callText, kToolOpen, ascii])]
  split
  · next e he =>
    rw [hblock] at he
    cases he
  · next hnone =>
    rw [hblock] at hnone
    cases hnone
  next parsed rest' hsome =>
  rw [hblock] at hsome
  cases hsome
  rfl

end Values

/-! ## A message -/

section Message

variable {lib : JsonLibrary} {parse : List UInt8 → Except Exn OrderedJson} {convert : OrderedJson → lib.Json}
  {maxNameLength : Nat} (newToolCallId : Nat → List UInt8)

/-- A message's calls with their arguments. -/
abbrev Calls := List (Frontend.ToolCall × List (List UInt8 × OrderedJson))

/-- The calls after the first, each on a new line. -/
def laterCalls (calls : Calls) : List UInt8 :=
  calls.flatMap fun call => [10] ++ callText call.1.name call.2

theorem renderToolCalls_later (effortTemplate bodyHasText : Bool) (calls : Calls)
    (hjson : ∀ call ∈ calls, JsonAgrees lib parse convert call.1 call.2) (index : Nat) (rendered : List UInt8) :
    renderToolCalls parse effortTemplate bodyHasText (index + 1) rendered (calls.map Prod.fst) =
      .ok (rendered ++ laterCalls calls) := by
  induction calls generalizing index rendered with
  | nil => simp [renderToolCalls, laterCalls]
  | cons call calls ih =>
    obtain ⟨hhead, hrest⟩ := forall_mem_cons.mp hjson
    have hnewline : ascii "\n" = [10] := rfl
    rw [map_cons, renderToolCalls, renderToolCall_ok hhead, if_neg (Nat.succ_ne_zero _), hnewline]
    simp only [bind, Except.bind]
    rw [ih hrest]
    simp only [laterCalls, flatMap_cons, append_assoc]

/-- What was parsed is what was rendered. -/
def SameCall (lib : JsonLibrary) (parsed : ToolCall)
    (call : Frontend.ToolCall × List (List UInt8 × OrderedJson)) : Prop :=
  parsed.name = call.1.name ∧ ∃ object, lib.parse parsed.argumentsJson = some object ∧
    lib.parse call.1.argumentsJson = some object

theorem parseToolCalls_later (calls : Calls) (hjson : ∀ call ∈ calls, JsonAgrees lib parse convert call.1 call.2)
    (hcalls : ∀ call ∈ calls, Renderable lib maxNameLength call.1 call.2) (toolCalls : List ToolCall) :
    ∃ more, parseToolCalls lib newToolCallId maxNameLength (laterCalls calls) toolCalls =
        .ok (some (toolCalls ++ more)) ∧ List.Forall₂ (SameCall lib) more calls := by
  induction calls generalizing toolCalls with
  | nil =>
    refine ⟨[], ?_, .nil⟩
    rw [parseToolCalls, append_nil]
    rfl
  | cons call calls ih =>
    obtain ⟨hhead, hrest⟩ := forall_mem_cons.mp hjson
    obtain ⟨hcall, hothers⟩ := forall_mem_cons.mp hcalls
    have hskip : skipWs (laterCalls (call :: calls)) = callText call.1.name call.2 ++ laterCalls calls := by
      rw [laterCalls, flatMap_cons, append_assoc]
      exact (skipWs_lines (b := 60) (by decide) rfl).1
    obtain ⟨parsed, object, hname, hparsed, hmembers, hstep⟩ :=
      parseToolCalls_step newToolCallId hcall hhead hskip toolCalls
    obtain ⟨more, hmore, hsame⟩ := ih hrest hothers _
    refine ⟨parsed :: more, ?_, .cons ⟨hname, object, hparsed, hmembers⟩ hsame⟩
    rw [hstep, hmore, append_assoc, singleton_append]

theorem rtrim_newlines (body : List UInt8) : rtrimAscii (body ++ [10, 10]) = rtrimAscii body := by
  unfold rtrimAscii
  rw [show body ++ [10, 10] = body ++ [10] ++ [10] by simp, rdropWhile_concat_pos _ _ _ (by decide),
    rdropWhile_concat_pos _ _ _ (by decide)]

/-- Tool calls survive rendering and parsing, for every body without an opening tag and every list of calls whose keys
    do not end in the rest of a closing tag and whose strings hold none. -/
theorem tool_calls_round_trip (lib : JsonLibrary) (newToolCallId : Nat → List UInt8)
    (parse : List UInt8 → Except Exn OrderedJson) (convert : OrderedJson → lib.Json) (maxNameLength : Nat)
    (effortTemplate : Bool) (body : List UInt8) (calls : Calls) (hne : calls ≠ [])
    (hbody : Absent kToolOpen body) (hjson : ∀ call ∈ calls, JsonAgrees lib parse convert call.1 call.2)
    (hcalls : ∀ call ∈ calls, Renderable lib maxNameLength call.1 call.2) :
    ∃ text output, renderBodyAndCalls parse effortTemplate body (calls.map Prod.fst) = .ok text ∧
      parseQwenToolCallOutput lib newToolCallId text maxNameLength = .ok output ∧
      output.isToolCallResponse = true ∧ output.content = rtrimAscii body ∧
      List.Forall₂ (SameCall lib) output.toolCalls calls := by
  obtain ⟨call, rest, rfl⟩ := exists_cons_of_ne_nil hne
  obtain ⟨hhead, hrest⟩ := forall_mem_cons.mp hjson
  obtain ⟨hcall, hothers⟩ := forall_mem_cons.mp hcalls
  -- the blank line before the first call, if any, is trimmed again
  obtain ⟨separator, hsep, hbefore, htrim⟩ : ∃ separator,
      (if (!(trimAscii body).isEmpty) = true then ascii "\n\n" else []) = separator ∧
        Absent kToolOpen (body ++ separator) ∧ rtrimAscii (body ++ separator) = rtrimAscii body := by
    split
    · refine ⟨[10, 10], rfl, ?_, rtrim_newlines body⟩
      exact (absent_split (d := 10) (by decide)).mpr ⟨hbody, by decide⟩
    · exact ⟨[], rfl, by rwa [append_nil], by rw [append_nil]⟩
  have hrender : renderBodyAndCalls parse effortTemplate body ((call :: rest).map Prod.fst) =
      .ok (body ++ separator ++ callText call.1.name call.2 ++ laterCalls rest) := by
    unfold renderBodyAndCalls
    rw [map_cons, renderToolCalls, renderToolCall_ok hhead, if_pos rfl, hsep]
    exact renderToolCalls_later effortTemplate _ rest hrest 0 _
  have hcut : cut kToolOpen (body ++ separator ++ callText call.1.name call.2 ++ laterCalls rest) =
      some (body ++ separator, innerText call.1.name call.2 ++ kToolClose ++ laterCalls rest) := by
    have hshape : body ++ separator ++ callText call.1.name call.2 ++ laterCalls rest =
        body ++ separator ++ kToolOpen ++ (innerText call.1.name call.2 ++ kToolClose ++ laterCalls rest) := by
      simp only [callText, append_assoc]
    rw [hshape]
    exact cut_of_absent (p := 60) (by decide) hbefore _
  have hskip : skipWs (kToolOpen ++ (innerText call.1.name call.2 ++ kToolClose ++ laterCalls rest)) =
      callText call.1.name call.2 ++ laterCalls rest := by
    rw [(skipWs_lines (b := 60) (by decide) rfl).2, callText]
    simp only [append_assoc]
  obtain ⟨parsed, object, hname, hparsed, hmembers, hstep⟩ :=
    parseToolCalls_step newToolCallId hcall hhead hskip []
  obtain ⟨more, hmore, hsame⟩ := parseToolCalls_later newToolCallId rest hrest hothers ([] ++ [parsed])
  refine ⟨_, ⟨true, rtrimAscii body, parsed :: more⟩, hrender, ?_, rfl, rfl,
    .cons ⟨hname, object, hparsed, hmembers⟩ hsame⟩
  unfold parseQwenToolCallOutput
  rw [hcut]
  simp only [hstep, hmore]
  rw [htrim]
  rfl

end Message

/-! ## Two calls -/

section Sample

/-- A JSON library that knows the texts of these values. -/
def sampleLibrary (values : List OrderedJson) : JsonLibrary where
  Json := OrderedJson
  parse text := values.find? fun value => tojsonText value = text
  ofString := .string
  object := .object []
  set
    | .object members, key, value => .object (members ++ [(key, value)])
    | other, _, _ => other
  dump value := .ok (tojsonText value)
  WellFormed _ := True

def sampleParse (values : List OrderedJson) (text : List UInt8) : Except Exn OrderedJson :=
  match (sampleLibrary values).parse text with
  | some value => .ok value
  | none => .error (.runtimeError "parse error")

def sampleCall (name : List UInt8) (args : List (List UInt8 × OrderedJson)) :
    Frontend.ToolCall × List (List UInt8 × OrderedJson) := (⟨[], name, tojsonText (.object args)⟩, args)

variable {values : List OrderedJson} {name : List UInt8} {args : List (List UInt8 × OrderedJson)}

theorem sample_set (args done : List (List UInt8 × OrderedJson)) :
    args.foldl (fun object arg => (sampleLibrary values).set object arg.1 arg.2) (.object done) =
      .object (done ++ args) := by
  induction args generalizing done with
  | nil => rw [append_nil]; rfl
  | cons arg args ih => exact (ih (done ++ [arg])).trans (by rw [append_assoc]; rfl)

theorem sample_agrees (hobject : (sampleLibrary values).parse (tojsonText (.object args)) = some (OrderedJson.object args))
    (hvalues : ∀ arg ∈ args, (∀ text, arg.2 ≠ .string text) →
      (sampleLibrary values).parse (tojsonText arg.2) = some arg.2) :
    JsonAgrees (sampleLibrary values) (sampleParse values) (fun value => value) (sampleCall name args).1 args where
  nonempty := by simp [sampleCall, tojsonText]
  parsed := by
    show sampleParse values (tojsonText (.object args)) = _
    rw [sampleParse, hobject]
  string arg harg text htext := htext.symm
  value := hvalues
  members := hobject.trans (congrArg some (sample_set args []).symm)
  dumped := by
    have hset : args.foldl (fun object arg => (sampleLibrary values).set object arg.1 arg.2)
      (sampleLibrary values).object = .object args := sample_set args []
    rw [hset]
    exact ⟨_, rfl, hobject⟩

/-- Whether a value is a string that the parser gives back. -/
def keepsString (values : List OrderedJson) : OrderedJson → Bool
  | .string text => decide (trimAscii text = text) && ((sampleLibrary values).parse text).isNone
  | _ => true

theorem sample_renderable (hname : validFunctionName name 64 = true) (hkeys : ∀ arg ∈ args, PlainKey arg.1)
    (hstrings : ∀ arg ∈ args, keepsString values arg.2 = true)
    (htags : ∀ arg ∈ args, ∀ text ∈ jsonStrings arg.2,
      Absent kToolClose text ∧ Absent kFunctionClose text ∧ Absent kParamClose text) :
    Renderable (sampleLibrary values) 64 (sampleCall name args).1 args where
  name := hname
  keys := hkeys
  strings arg harg text htext := by
    have hkeeps := hstrings arg harg
    simpa [htext, keepsString, Trimmed] using hkeeps
  tags := htags

/-- The arguments of two calls: a string; a number, and an array that holds a string in an object. -/
def sampleCalls : Calls :=
  [sampleCall (ascii "f") [(ascii "a", .string (ascii "b"))],
    sampleCall (ascii "g") [(ascii "n", .number ⟨ascii "12", by decide, all_eq_true.mp (by decide)⟩),
      (ascii "v", .object [(ascii "x", .array [.boolean true, .string (ascii "y z")])])]]

/-- The objects of the calls, and every member. -/
def sampleValues (calls : Calls) : List OrderedJson :=
  calls.map (fun call => .object call.2) ++ calls.flatMap fun call => call.2.map Prod.snd

/-- A body with text and both calls. -/
theorem tool_calls_round_trip_two :
    ∃ text output, renderBodyAndCalls (sampleParse (sampleValues sampleCalls)) false (ascii "hi ")
        (sampleCalls.map Prod.fst) = .ok text ∧
      parseQwenToolCallOutput (sampleLibrary (sampleValues sampleCalls)) (fun _ => []) text 64 = .ok output ∧
      output.isToolCallResponse = true ∧ output.content = rtrimAscii (ascii "hi ") ∧
      List.Forall₂ (SameCall (sampleLibrary (sampleValues sampleCalls))) output.toolCalls sampleCalls := by
  refine tool_calls_round_trip _ (fun _ => []) _ (fun value => value) 64 false _ sampleCalls (cons_ne_nil _ _)
    (by decide) (fun call hcall => ?_) fun call hcall => ?_
  · simp only [sampleCalls, mem_cons, not_mem_nil, or_false] at hcall
    obtain rfl | rfl := hcall
    · refine sample_agrees rfl fun arg harg hother => ?_
      rw [mem_singleton.mp harg] at hother
      exact absurd rfl (hother _)
    · refine sample_agrees rfl fun arg harg hother => ?_
      simp only [mem_cons, not_mem_nil, or_false] at harg
      obtain rfl | rfl := harg <;> rfl
  · simp only [sampleCalls, mem_cons, not_mem_nil, or_false] at hcall
    obtain rfl | rfl := hcall
    · exact sample_renderable (by decide) (by decide) (by decide) (by decide)
    · exact sample_renderable (by decide) (by decide) (by decide) (by decide)

/-- The key ends as the closing tag of a call does before its `>`: it is not empty and has no
    `>`, and the response is not read as a call. -/
theorem tool_call_key_closes : let key := ascii "</tool_call"
    let call := sampleCall (ascii "f") [(key, .string (ascii "b"))]
    JsonAgrees (sampleLibrary [.object call.2]) (sampleParse [.object call.2]) (fun value => value) call.1 call.2 ∧
      validFunctionName call.1.name 64 = true ∧ key ≠ [] ∧ (62 : UInt8) ∉ key ∧
      Trimmed (ascii "b") ∧ (sampleLibrary [.object call.2]).parse (ascii "b") = none ∧
      ∃ text output, renderBodyAndCalls (sampleParse [.object call.2]) false [] [call.1] = .ok text ∧
        parseQwenToolCallOutput (sampleLibrary [.object call.2]) (fun _ => []) text 64 = .ok output ∧
        output.isToolCallResponse = false := by
  intro key call
  have hagrees : JsonAgrees (sampleLibrary [.object call.2]) (sampleParse [.object call.2]) (fun value => value) call.1
      call.2 := sample_agrees rfl fun arg harg hother => by
    rw [mem_singleton.mp harg] at hother
    exact absurd rfl (hother _)
  refine ⟨hagrees, by decide, by decide, by decide, by unfold Trimmed; decide, rfl, ?_⟩
  let rest := innerText (ascii "f") call.2 ++ kToolClose
  refine ⟨kToolOpen ++ rest, fallback (kToolOpen ++ rest), ?_, ?_, rfl⟩
  · unfold renderBodyAndCalls
    rw [renderToolCalls, renderToolCall_ok hagrees]
    rfl
  have hcut : cut kToolOpen (kToolOpen ++ rest) = some ([], rest) := cut_of_prefix (by decide) rest
  -- the key closes the call before the tag that closes its function
  have hblock : parseBlock (sampleLibrary [.object call.2]) (skipWs (kToolOpen ++ rest)) 64 [] = .ok none := rfl
  have hcalls : parseToolCalls (sampleLibrary [.object call.2]) (fun _ => []) 64 (kToolOpen ++ rest) [] =
      .ok none := by
    rw [parseToolCalls, if_neg (show ¬ (skipWs (kToolOpen ++ rest)).isEmpty = true by decide)]
    split
    · next e he =>
      rw [hblock] at he
      cases he
    · rfl
    next parsed rest' hsome =>
    rw [hblock] at hsome
    cases hsome
  unfold parseQwenToolCallOutput
  rw [hcut]
  simp only [hcalls]

end Sample

end VoidInfer.Serve
