import VoidInfer.Frontend.BpeRun
import VoidInfer.Lib.ListUpdate

/-
  The vocabulary, and from tokens back to text: `load_vocab`, `load_byte_token_ids`, `load_bpe_merge_rules` and
  `decode_byte_level_token`. A token's text is its code points: the asset's strings are well formed.
-/

namespace VoidInfer.Frontend
open List PairMerge

/-! ## The byte-level alphabet -/

def visible (byte : Nat) : Bool :=
  (33 ≤ byte && byte ≤ 126) || (161 ≤ byte && byte ≤ 172) || (174 ≤ byte && byte ≤ 255)

/-- The loop of `build_byte_level_encoder`: each byte's code point, counted from `next` where it is not visible. -/
def buildByteLevelEncoder (next : Nat) : List Nat → List Nat
  | [] => []
  | byte :: bytes =>
    if visible byte then byte :: buildByteLevelEncoder next bytes else next :: buildByteLevelEncoder (next + 1) bytes

def byteEncoder (byte : UInt8) : Nat := (buildByteLevelEncoder 256 (range 256)).getD byte.toNat 0

/-- The table of `build_byte_level_decoder`. -/
def byteDecoder (codepoint : Nat) : Option UInt8 :=
  ((buildByteLevelEncoder 256 (range 256)).idxOf? codepoint).map UInt8.ofNat

theorem byteDecoder_encoder (byte : UInt8) : byteDecoder (byteEncoder byte) = some byte := by
  have hall : ∀ n : Fin 256, byteDecoder (byteEncoder (UInt8.ofNat n)) = some (UInt8.ofNat n) := by decide +kernel
  simpa using hall ⟨byte.toNat, byte.toNat_lt⟩

example : byteEncoder 0x20 = 0x120 := by decide +kernel

/-! ## The vocabulary -/

/-- What `load_vocab` accepts: texts with their ids, no id twice. -/
structure VocabMetadata where
  items : List (List Nat × Int)
  nodup : (items.map Prod.snd).Nodup

namespace VocabMetadata
variable (v : VocabMetadata)

def tokenToId (token : List Nat) : Option Int := (v.items.find? (·.1 == token)).map Prod.snd

def idToToken (id : Int) : Option (List Nat) := (v.items.find? (·.2 == id)).map Prod.fst

/-- `decode_byte_level_token` of the text with this id; none where it throws. -/
def decodeByteLevelToken (id : Int) : Option (List UInt8) := v.idToToken id >>= (·.mapM byteDecoder)

def loadByteTokenIds (byte : UInt8) : Int := (v.tokenToId [byteEncoder byte]).getD (-1)

/-- The loop of `load_bpe_merge_rules`, over the pairs of texts. -/
def loadBpeMergeRules (label : String) (rank : Int) (rules : MergeRules) : List (List Nat × List Nat) → Except Exn MergeRules
  | [] => .ok rules
  | (left, right) :: merges =>
    match v.tokenToId left, v.tokenToId right, v.tokenToId (left ++ right) with
    | some leftId, some rightId, some result =>
      if (rules leftId rightId).isSome then .error (.invalidArgument "duplicate merge pair in model.merges")
      else loadBpeMergeRules label (rank + 1)
        (fun l r => if l = leftId ∧ r = rightId then some ⟨rank, result⟩ else rules l r) merges
    | _, _, _ => .error (.invalidArgument ("model.merges references a symbol outside model.vocab in " ++ label))

/-- A rule's symbol has the texts of its two symbols, one after the other. -/
def Joins (rules : MergeRules) : Prop := ∀ left right rule, rules left right = some rule →
  ∃ l r, v.idToToken left = some l ∧ v.idToToken right = some r ∧ v.idToToken rule.result = some (l ++ r)

/-- From `start` on, the pieces decode to the text, each up to where it ends. -/
def Spells : Nat → List UInt8 → List BpePiece → Prop
  | _, text, [] => text = []
  | start, text, piece :: rest => ∃ bytes tail, v.decodeByteLevelToken piece.symbol = some bytes ∧ text = bytes ++ tail ∧
      piece.finish = start + bytes.length ∧ Spells piece.finish tail rest

variable {v} {token : List Nat} {id : Int} {text word : List UInt8} {byte : UInt8} {start : Nat} {rules rules' : MergeRules}
  {pieces : List BpePiece}

theorem idToToken_of (h : v.tokenToId token = some id) : v.idToToken id = some token := by
  obtain ⟨item, hfind, rfl⟩ := Option.map_eq_some_iff.mp h
  rw [idToToken, ListUpdate.find?_of_nodup (f := Prod.snd) v.nodup (mem_of_find?_eq_some hfind)]
  have htoken := find?_some hfind
  exact congrArg some (beq_iff_eq.mp htoken)

theorem decode_byte (h : 0 ≤ v.loadByteTokenIds byte) : v.decodeByteLevelToken (v.loadByteTokenIds byte) = some [byte] := by
  unfold loadByteTokenIds at h ⊢
  cases hid : v.tokenToId [byteEncoder byte] with
  | none => rw [hid] at h; cases h
  | some id => simp [decodeByteLevelToken, idToToken_of hid, byteDecoder_encoder]

theorem Joins.load {label : String} {rank : Int} {merges : List (List Nat × List Nat)} (h : v.Joins rules)
    (hload : v.loadBpeMergeRules label rank rules merges = .ok rules') : v.Joins rules' := by
  induction merges generalizing rank rules with
  | nil => cases hload; exact h
  | cons merge merges ih =>
    unfold loadBpeMergeRules at hload
    split at hload
    next leftId rightId result hl hr hresult =>
      split at hload
      · cases hload
      refine ih (fun left right rule hrule => ?_) hload
      split at hrule
      · next heq =>
        cases hrule
        exact ⟨_, _, heq.1 ▸ idToToken_of hl, heq.2 ▸ idToToken_of hr, idToToken_of hresult⟩
      · exact h left right rule hrule
    · cases hload

theorem Spells.merge (hjoins : v.Joins rules) {xs ys : List BpePiece} {a b merged : BpePiece} {rank : Int}
    (hrule : pieceRule rules a b = some (rank, merged)) (h : v.Spells start text (xs ++ a :: b :: ys)) :
    v.Spells start text (xs ++ merged :: ys) := by
  induction xs generalizing start text with
  | nil =>
    obtain ⟨left, _, ha, rfl, hstart, right, tail, hb, rfl, hfinish, h⟩ := h
    obtain ⟨rule, hfind, heq⟩ := Option.map_eq_some_iff.mp hrule
    cases heq
    obtain ⟨l, r, hl, hr, hresult⟩ := hjoins _ _ _ hfind
    rw [decodeByteLevelToken, hl] at ha
    rw [decodeByteLevelToken, hr] at hb
    have hdecode : v.decodeByteLevelToken rule.result = some (left ++ right) := by
      rw [decodeByteLevelToken, hresult, Option.bind_eq_bind, Option.bind_some, mapM_append]
      exact Option.bind_eq_some_iff.mpr ⟨left, ha, Option.bind_eq_some_iff.mpr ⟨right, hb, rfl⟩⟩
    exact ⟨_, tail, hdecode, by rw [append_assoc], by rw [length_append, hfinish, hstart, Nat.add_assoc], h⟩
  | cons x xs ih =>
    obtain ⟨bytes, tail, hdecode, htext, hfinish, h⟩ := h
    exact ⟨bytes, tail, hdecode, htext, hfinish, ih h⟩

theorem spells_bytes (hword : ∀ byte ∈ word, 0 ≤ v.loadByteTokenIds byte) (start : Nat) :
    v.Spells start word ((word.map v.loadByteTokenIds).mapIdx fun index symbol => ⟨symbol, start + index + 1⟩) := by
  induction word generalizing start with
  | nil => rfl
  | cons byte word ih =>
    obtain ⟨hbyte, hword⟩ := forall_mem_cons.mp hword
    rw [map_cons, mapIdx_cons]
    refine ⟨[byte], word, decode_byte hbyte, rfl, rfl, ?_⟩
    simpa only [Nat.add_assoc, Nat.add_comm 1] using ih hword (start + 1)

theorem Spells.decode (h : v.Spells start text pieces) :
    (pieces.mapM fun piece => v.decodeByteLevelToken piece.symbol).map flatten = some text := by
  induction pieces generalizing start text with
  | nil => rw [Spells] at h; rw [h]; rfl
  | cons piece rest ih =>
    obtain ⟨bytes, tail, hdecode, rfl, -, h⟩ := h
    obtain ⟨decoded, hrest, rfl⟩ := Option.map_eq_some_iff.mp (ih h)
    rw [mapM_cons, hdecode, hrest]
    rfl

end VocabMetadata

theorem byteSymbols_ok {byteTokenIds : UInt8 → Int} {word : List UInt8} (h : ∀ byte ∈ word, 0 ≤ byteTokenIds byte) :
    byteSymbols byteTokenIds word = .ok (word.map byteTokenIds) := by
  induction word with
  | nil => rfl
  | cons byte word ih =>
    obtain ⟨hbyte, h⟩ := forall_mem_cons.mp h
    rw [byteSymbols] at ih ⊢
    rw [mapM_cons, if_neg (by omega), ih h]
    rfl

/-- What the constructor loads from the asset. -/
structure BpeTables extends VocabMetadata where
  label : String
  merges : List (List Nat × List Nat)
  rules : MergeRules
  loaded : toVocabMetadata.loadBpeMergeRules label 0 (fun _ _ => none) merges = .ok rules

/-- Encoding loses nothing: unless a byte of the word has no symbol, the word's tokens decode to the word, and each ends
    where its own bytes end. -/
theorem tokens_spell_word (heap : BpeQueue) (t : BpeTables) (word : List UInt8) (extra : Nat) :
    (∃ byte ∈ word, t.loadByteTokenIds byte < 0) ∨
    ∃ pieces, encodeWord heap t.rules t.loadByteTokenIds word (3 * word.length + extra) = .ok (some pieces) ∧
      t.Spells 0 word pieces ∧ (pieces.mapM fun piece => t.decodeByteLevelToken piece.symbol).map flatten = some word := by
  refine or_iff_not_imp_left.mpr fun hnone => ?_
  have hword : ∀ byte ∈ word, 0 ≤ t.loadByteTokenIds byte := fun byte hmem =>
    Int.not_lt.mp fun hlt => hnone ⟨byte, hmem, hlt⟩
  have hstart : t.Spells 0 word (bytePieces (word.map t.loadByteTokenIds)) := by
    unfold bytePieces
    simpa only [Nat.zero_add] using VocabMetadata.spells_bytes hword 0
  have hjoins : t.Joins t.rules := .load (fun _ _ _ h => by cases h) t.loaded
  have hspells := plainBpe_induction (fun _ _ _ _ _ _ hrule => .merge hjoins hrule) hstart
  refine ⟨_, ?_, hspells, hspells.decode⟩
  rw [encodeWord, byteSymbols_ok hword]
  exact congrArg Except.ok (mergeWord_eq heap _ _ (by rw [length_map]; omega))

/-- Two letters, and the texts of their merges. -/
def abTables : BpeTables where
  items := [([97], 0), ([98], 1), ([97, 98], 2), ([97, 98, 97, 98], 3)]
  nodup := by decide
  label := "tokenizer.json"
  merges := [([97], [98]), ([97, 98], [97, 98])]
  rules := abRules
  loaded := rfl

theorem tokens_spell_word_ababa : ∃ pieces,
    encodeWord .ofList abTables.rules abTables.loadByteTokenIds [97, 98, 97, 98, 97] 15 = .ok (some pieces) ∧
    (pieces.mapM fun piece => abTables.decodeByteLevelToken piece.symbol).map flatten = some [97, 98, 97, 98, 97] := by
  obtain ⟨pieces, hrun, -, htext⟩ :=
    (tokens_spell_word .ofList abTables [97, 98, 97, 98, 97] 0).resolve_left (by decide +kernel)
  exact ⟨pieces, hrun, htext⟩

end VoidInfer.Frontend
