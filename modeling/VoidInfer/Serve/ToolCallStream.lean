import VoidInfer.Serve.ToolCallParser

/-
  The stream filter and the parser agree. What the filter has shown and what it holds back is the text so far, at every
  byte; before the marker is complete, searching the whole text for it is searching from the partial marker on, so that
  the filter stops showing bytes exactly at the place the parser finds. What it has shown by then is the text before the
  marker without its trailing white space.
-/

namespace VoidInfer.Serve
open Bytes List Option

namespace ToolCallStreamFilter

variable {filter : ToolCallStreamFilter} {shown text : List UInt8}

/-- The bytes held back. -/
def held (filter : ToolCallStreamFilter) : List UInt8 :=
  filter.trailingWhitespace ++ kToolOpen.take filter.markerPrefixBytes ++ filter.toolRegion

/-- `before` followed by the search of `rest`. -/
def searchFrom (before rest : List UInt8) : Option (List UInt8 × List UInt8) :=
  (cut kToolOpen rest).map fun parts => (before ++ parts.1, parts.2)

/-- The filter after `text`, no marker completed: what it has shown ends in no white space, and
    the search goes on at the partial marker. -/
structure Scanning (filter : ToolCallStreamFilter) (shown text : List UInt8) : Prop where
  unseen : filter.sawToolMarker = false
  region : filter.toolRegion = []
  marker_lt : filter.markerPrefixBytes < kToolOpen.length
  spaces : ∀ b ∈ filter.trailingWhitespace, isSpace b = true
  trimmed : rtrimAscii shown = shown
  text_eq : text = shown ++ held filter
  search : ∀ rest, cut kToolOpen (text ++ rest) =
    searchFrom (shown ++ filter.trailingWhitespace) (kToolOpen.take filter.markerPrefixBytes ++ rest)

/-- The filter after `text`, a marker in it: everything from the white space before it is held. -/
structure Holding (filter : ToolCallStreamFilter) (shown text : List UInt8) : Prop where
  seen : filter.sawToolMarker = true
  spaces : filter.trailingWhitespace = []
  marker : filter.markerPrefixBytes = 0
  text_eq : text = shown ++ held filter
  search : ∃ before after, cut kToolOpen text = some (before, after) ∧ shown = rtrimAscii before

/-- The filter after `text`, with what it has shown. -/
def Streams (filter : ToolCallStreamFilter) (shown text : List UInt8) : Prop :=
  filter.finished = false ∧ (Scanning filter shown text ∨ Holding filter shown text)

theorem kToolOpen_eq : kToolOpen = 60 :: ascii "tool_call>" := by decide

theorem marker_notSpace : ∀ b ∈ kToolOpen, isSpace b = false := by decide +kernel

theorem marker_head_once : (60 : UInt8) ∉ ascii "tool_call>" := by decide

theorem rtrimAscii_append_notSpace {rest : List UInt8} (h : ∀ b ∈ rest, isSpace b = false)
    (hne : rest ≠ []) (before : List UInt8) : rtrimAscii (before ++ rest) = before ++ rest := by
  obtain ⟨init, b, rfl⟩ := eq_nil_or_concat rest |>.resolve_left hne
  rw [concat_eq_append, ← append_assoc, rtrimAscii_concat (h b (by simp))]

/-! ## One byte -/

theorem ordinaryByte_scanning {byte : UInt8} (hunseen : filter.sawToolMarker = false)
    (hregion : filter.toolRegion = []) (hmarker : filter.markerPrefixBytes = 0)
    (hspaces : ∀ b ∈ filter.trailingWhitespace, isSpace b = true)
    (htrimmed : rtrimAscii shown = shown) (htext : text = shown ++ filter.trailingWhitespace)
    (hsearch : ∀ rest, cut kToolOpen (text ++ byte :: rest) =
      searchFrom (shown ++ filter.trailingWhitespace) (byte :: rest)) :
    Scanning (ordinaryByte filter byte).2 (shown ++ (ordinaryByte filter byte).1) (text ++ [byte]) := by
  have hhead : kToolOpen.head? = some 60 := rfl
  unfold ordinaryByte
  rw [hhead]
  split
  · next hb =>
    obtain rfl : byte = 60 := (some.inj hb).symm
    refine ⟨hunseen, hregion, by change 1 < kToolOpen.length; decide, hspaces, by simpa using htrimmed, ?_, ?_⟩
    · have htake : kToolOpen.take 1 = [60] := by decide
      simp [held, hregion, htext, htake]
    · intro rest
      have htake : kToolOpen.take 1 = [60] := by decide
      simpa [htake] using hsearch rest
  next hb =>
  have hb' : byte ≠ 60 := fun h => hb (by rw [h])
  have hpass : ∀ rest, cut kToolOpen (text ++ byte :: rest) =
      searchFrom (shown ++ filter.trailingWhitespace ++ [byte]) rest := by
    intro rest
    rw [hsearch rest, searchFrom, kToolOpen_eq, cut_cons_of_ne hb', ← kToolOpen_eq, Option.map_map]
    simp [searchFrom, Function.comp_def]
  split
  · next hspace =>
    refine ⟨hunseen, hregion, by rw [hmarker]; decide, ?_, by simpa using htrimmed, ?_, ?_⟩
    · simp only [mem_append, mem_singleton]
      rintro b (hb | rfl)
      · exact hspaces b hb
      · exact hspace
    · simp [held, hregion, htext, hmarker]
    · intro rest
      simpa [hmarker] using hpass rest
  next hspace =>
  refine ⟨hunseen, hregion, by rw [hmarker]; decide, by simp, ?_, ?_, ?_⟩
  · rw [← append_assoc]
    exact rtrimAscii_concat (by simpa using hspace)
  · simp [held, hregion, htext, hmarker]
  · intro rest
    simpa [hmarker] using hpass rest

/-! ## A text -/

theorem Scanning.complete (h : Scanning filter shown text) {byte : UInt8} {rest : List UInt8}
    (hbyte : kToolOpen[filter.markerPrefixBytes]? = some byte)
    (hlast : filter.markerPrefixBytes + 1 = kToolOpen.length) :
    Holding { filter with
      toolRegion := filter.trailingWhitespace ++ kToolOpen ++ rest
      trailingWhitespace := []
      markerPrefixBytes := 0
      sawToolMarker := true } shown (text ++ byte :: rest) := by
  have htake : kToolOpen.take filter.markerPrefixBytes ++ byte :: rest = kToolOpen ++ rest := by
    have := take_append_getElem h.marker_lt
    rw [getElem?_eq_getElem h.marker_lt, Option.some.injEq] at hbyte
    rw [hbyte, hlast, take_length] at this
    rw [← singleton_append, ← append_assoc, this]
  refine ⟨rfl, rfl, rfl, ?_, shown ++ filter.trailingWhitespace, rest, ?_, ?_⟩
  · rw [h.text_eq, held, h.region, held]
    simp [append_assoc, htake]
  · rw [h.search, htake, searchFrom, cut_of_prefix (by decide)]
    simp
  · rw [rtrimAscii_append h.trimmed, rtrimAscii_eq_nil h.spaces, append_nil]

theorem feedBytes_finished (filter : ToolCallStreamFilter) (visible rest : List UInt8) :
    (feedBytes filter visible rest).2.finished = filter.finished := by
  have hordinary : ∀ filter byte, (ordinaryByte filter byte).2.finished = filter.finished := by
    intro filter byte
    unfold ordinaryByte
    split_ifs <;> rfl
  induction rest generalizing filter visible with
  | nil => rfl
  | cons byte rest ih =>
    unfold feedBytes
    split_ifs
    · rfl
    · rw [ih]
    · rw [ih, hordinary]
    · rw [ih, hordinary]

theorem feedBytes_streams {visible pre : List UInt8} (rest : List UInt8) (h : Scanning filter (pre ++ visible) text) :
    Scanning (feedBytes filter visible rest).2 (pre ++ (feedBytes filter visible rest).1) (text ++ rest) ∨
      Holding (feedBytes filter visible rest).2 (pre ++ (feedBytes filter visible rest).1) (text ++ rest) := by
  induction rest generalizing filter visible text with
  | nil => exact .inl (by simpa [feedBytes] using h)
  | cons byte rest ih =>
    unfold feedBytes
    split
    · next hmarker =>
      split
      · next hbyte =>
        split
        · next hlast => exact .inr (h.complete hbyte hlast)
        next hlast =>
        -- one more byte of the marker
        have htake : kToolOpen.take (filter.markerPrefixBytes + 1) =
            kToolOpen.take filter.markerPrefixBytes ++ [byte] := by
          rw [getElem?_eq_getElem h.marker_lt, Option.some.injEq] at hbyte
          rw [← hbyte, take_append_getElem h.marker_lt]
        have hnext : Scanning { filter with markerPrefixBytes := filter.markerPrefixBytes + 1 }
            (pre ++ visible) (text ++ [byte]) := by
          refine ⟨h.unseen, h.region, by have := h.marker_lt; dsimp only; omega, h.spaces, h.trimmed, ?_, ?_⟩
          · rw [h.text_eq]
            simp [held, h.region, htake]
          · intro rest
            rw [append_assoc, h.search, htake]
            simp
        simpa using ih hnext
      next hbyte =>
      have hmismatch : ∀ rest, cut kToolOpen (text ++ byte :: rest) =
          searchFrom (pre ++ visible ++ filter.trailingWhitespace ++
            kToolOpen.take filter.markerPrefixBytes) (byte :: rest) := by
        intro rest
        rw [h.search, searchFrom, kToolOpen_eq] at *
        rw [cut_mismatch marker_head_once (by omega) h.marker_lt hbyte, Option.map_map]
        simp [searchFrom, kToolOpen_eq, Function.comp_def]
      have htext : text = pre ++ visible ++ filter.trailingWhitespace ++ kToolOpen.take filter.markerPrefixBytes := by
        rw [h.text_eq, held, h.region]
        simp
      have htake : kToolOpen.take filter.markerPrefixBytes ≠ [] := by
        simp only [ne_eq, take_eq_nil_iff, not_or]
        exact ⟨hmarker, by decide⟩
      have htrimmed : rtrimAscii (pre ++ visible ++ filter.trailingWhitespace ++
          kToolOpen.take filter.markerPrefixBytes) = _ :=
        rtrimAscii_append_notSpace (fun b hb => marker_notSpace b (mem_of_mem_take hb)) htake _
      let flushed : ToolCallStreamFilter :=
        { filter with trailingWhitespace := [], markerPrefixBytes := 0 }
      have hnext : Scanning (ordinaryByte flushed byte).2 (_ ++ (ordinaryByte flushed byte).1) (text ++ [byte]) :=
        ordinaryByte_scanning h.unseen h.region rfl (by simp [flushed]) htrimmed
          (by rw [append_nil]; exact htext) (by rw [append_nil]; exact hmismatch)
      rw [append_assoc pre, append_assoc pre, append_assoc pre] at hnext
      have hrest := ih hnext
      simpa [append_assoc, flushed] using hrest
    · next hmarker =>
      have hzero : filter.markerPrefixBytes = 0 := by simpa using hmarker
      have htext : text = pre ++ visible ++ filter.trailingWhitespace := by
        rw [h.text_eq, held, h.region, hzero]
        simp
      have hsearch : ∀ rest, cut kToolOpen (text ++ byte :: rest) =
          searchFrom (pre ++ visible ++ filter.trailingWhitespace) (byte :: rest) := by
        intro rest
        rw [h.search, hzero]
        simp
      have hnext := ordinaryByte_scanning h.unseen h.region hzero h.spaces h.trimmed htext hsearch
      rw [append_assoc pre] at hnext
      have hrest := ih hnext
      rwa [append_assoc] at hrest

theorem feed_streams (h : Streams filter shown text) (delta : List UInt8) :
    ∃ visible after, feed filter delta = .ok (visible, after) ∧ Streams after (shown ++ visible) (text ++ delta) := by
  obtain ⟨hopen, h⟩ := h
  unfold feed
  rw [if_neg (by simp [hopen])]
  split
  · next hempty =>
    rw [List.isEmpty_iff.mp hempty]
    exact ⟨[], filter, rfl, hopen, by simpa using h⟩
  rcases h with h | h
  · rw [h.unseen, if_neg (by simp)]
    refine ⟨_, _, rfl, ?_, ?_⟩
    · exact (feedBytes_finished filter [] delta).trans hopen
    · have hrest := feedBytes_streams delta (by simpa using h : Scanning filter (shown ++ []) text)
      rcases hrest with hrest | hrest
      · exact .inl ⟨hrest.unseen, hrest.region, hrest.marker_lt, hrest.spaces, hrest.trimmed,
          hrest.text_eq, hrest.search⟩
      · exact .inr ⟨hrest.seen, hrest.spaces, hrest.marker, hrest.text_eq, hrest.search⟩
  rw [if_pos h.seen]
  obtain ⟨before, after, hcut, hshown⟩ := h.search
  refine ⟨_, _, rfl, hopen, .inr ⟨h.seen, h.spaces, h.marker, ?_, before, after ++ delta, cut_append hcut delta, ?_⟩⟩
  · rw [h.text_eq]
    simp [held]
  · rw [append_nil, hshown]

theorem feedAll_streams (deltas : List (List UInt8)) (h : Streams filter shown text) :
    ∃ visible after, feedAll filter deltas = .ok (visible, after) ∧
      Streams after (shown ++ visible.flatten) (text ++ deltas.flatten) := by
  induction deltas generalizing filter shown text with
  | nil => exact ⟨[], filter, rfl, by simpa using h⟩
  | cons delta deltas ih =>
    obtain ⟨visible, after, hfeed, hafter⟩ := feed_streams h delta
    obtain ⟨rest, last, hall, hlast⟩ := ih hafter
    refine ⟨visible :: rest, last, ?_, by simpa using hlast⟩
    simp [feedAll, hfeed, hall, bind, Except.bind, pure, Except.pure]

theorem streams_nil : Streams {} [] [] := by
  refine ⟨rfl, .inl ⟨rfl, rfl, by decide, by simp, rfl, rfl, ?_⟩⟩
  intro rest
  simp [searchFrom]

/-! ## The end of the response -/

theorem finish_fallback (h : Streams filter shown text) :
    ∃ tail after, finish filter false = .ok (tail, after) ∧ shown ++ tail = text := by
  obtain ⟨hopen, h⟩ := h
  refine ⟨held filter, _, by unfold finish; rw [hopen]; rfl, ?_⟩
  rcases h with h | h
  · exact h.text_eq.symm
  · exact h.text_eq.symm

theorem finish_toolCalls (h : Streams filter shown text) {before after : List UInt8}
    (hcut : cut kToolOpen text = some (before, after)) :
    ∃ last, finish filter true = .ok ([], last) ∧ shown = rtrimAscii before := by
  obtain ⟨hopen, h⟩ := h
  refine ⟨_, by unfold finish; rw [hopen]; rfl, ?_⟩
  rcases h with h | h
  · -- the partial marker alone holds no marker
    have hnone := h.search []
    rw [append_nil, append_nil, hcut, searchFrom] at hnone
    obtain ⟨⟨x, y⟩, hx, -⟩ := map_eq_some_iff.mp hnone.symm
    have hlen := congrArg List.length (cut_eq hx)
    have hlt := h.marker_lt
    simp only [length_append, length_take] at hlen
    omega
  obtain ⟨before', after', hcut', hshown⟩ := h.search
  rw [hcut] at hcut'
  rw [hshown, (Prod.mk.inj (some.inj hcut')).1]

end ToolCallStreamFilter

/-! ## The parser -/

section Parser

variable {lib : JsonLibrary} {newToolCallId : Nat → List UInt8} {maxToolNameLength : Nat}
  {text : List UInt8}

theorem parseQwenToolCallOutput_content {out : ParsedToolCallOutput}
    (h : parseQwenToolCallOutput lib newToolCallId text maxToolNameLength = .ok out) :
    (out.isToolCallResponse = false ∧ out.content = text) ∨
      (out.isToolCallResponse = true ∧ ∃ before after, cut kToolOpen text = some (before, after) ∧
        out.content = rtrimAscii before) := by
  unfold parseQwenToolCallOutput at h
  split at h
  · rw [← Except.ok.inj h]
    exact .inl ⟨rfl, rfl⟩
  next before after hcut =>
  split at h
  · simp at h
  · rw [← Except.ok.inj h]
    exact .inl ⟨rfl, rfl⟩
  split at h
  · rw [← Except.ok.inj h]
    exact .inl ⟨rfl, rfl⟩
  rw [← Except.ok.inj h]
  exact .inr ⟨rfl, before, after, hcut, rfl⟩

/-! A UTF-8 text is parsed without an exception: all its parts around the markers are UTF-8. -/

theorem parseParameters_wellFormed (encodes : lib.Encodes) {params : List UInt8} {args args' : lib.Json}
    (hutf : Utf8 params) (hargs : lib.WellFormed args) (h : parseParameters lib params args = some args') :
    lib.WellFormed args' := by
  induction params, args using parseParameters.induct lib with
  | case1 params args hempty =>
    rw [parseParameters, if_pos hempty] at h
    rwa [← some.inj h]
  | case2 params args hempty hparam =>
    rw [parseParameters, if_neg hempty] at h
    split at h
    · simp at h
    · next hsome => simp [hparam] at hsome
  | case3 params args hempty rest args'' hparam hlt ih =>
    rw [parseParameters, if_neg hempty] at h
    split at h
    · simp at h
    next rest' next hsome =>
    rw [hparam] at hsome
    cases hsome
    obtain ⟨key, raw, hskip, hset⟩ := parseParameter_eq hparam
    have hopened : Utf8 (key ++ kNameEnd ++ (raw ++ kParamClose ++ rest)) :=
      Utf8.drop_ascii (by decide +kernel) (hskip ▸ hutf.skipWs)
    obtain ⟨hkey, hvalue⟩ := Utf8.around (by decide +kernel) (by decide) hopened
    obtain ⟨hraw, hrest⟩ := Utf8.around (by decide +kernel) (by decide) hvalue
    apply ih hrest _ h
    rw [hset]
    apply encodes.set args key _ hargs hkey
    cases hparse : lib.parse _ with
    | none => exact encodes.ofString _ hraw.trimAscii
    | some value => exact encodes.parse _ value hparse

theorem parseOneToolCall_returns (encodes : lib.Encodes) {block : List UInt8} (hutf : Utf8 block)
    (maxNameLength : Nat) (id : List UInt8) :
    ∃ call, parseOneToolCall lib block maxNameLength id = .ok call := by
  unfold parseOneToolCall
  dsimp only
  split
  · exact ⟨none, rfl⟩
  next name args hcall =>
  obtain ⟨opened, hopened, hcall⟩ := bind_eq_some_iff.mp hcall
  obtain ⟨⟨name', body⟩, hname, hcall⟩ := bind_eq_some_iff.mp hcall
  obtain ⟨-, -, hcall⟩ := bind_eq_some_iff.mp hcall
  obtain ⟨⟨params, tail⟩, hparams, hcall⟩ := bind_eq_some_iff.mp hcall
  obtain ⟨args', hargs, hcall⟩ := bind_eq_some_iff.mp hcall
  obtain ⟨-, -, hcall⟩ := bind_eq_some_iff.mp hcall
  obtain ⟨-, rfl⟩ := Prod.mk.inj (some.inj hcall)
  have hskip := hutf.skipWs
  rw [startsWithAt_eq hopened, readName_eq hname] at hskip
  have hbody : Utf8 body := (Utf8.around (by decide +kernel) (by decide) (Utf8.drop_ascii (by decide +kernel) hskip)).2
  have hsplit : body = params ++ kFunctionClose ++ tail := cut_eq hparams
  rw [hsplit] at hbody
  have hutf' : Utf8 params := (Utf8.around (by decide +kernel) (by decide) hbody).1
  obtain ⟨text, hdump⟩ :=
    encodes.dump args' (parseParameters_wellFormed encodes hutf' encodes.object hargs)
  exact ⟨_, by rw [hdump]⟩

theorem parseBlock_returns (encodes : lib.Encodes) (hutf : Utf8 text) (maxNameLength : Nat)
    (id : List UInt8) : ∃ found, parseBlock lib text maxNameLength id = .ok found := by
  unfold parseBlock
  split
  · exact ⟨none, rfl⟩
  next block rest hcut =>
  obtain ⟨opened, hopened, hclose⟩ := bind_eq_some_iff.mp hcut
  rw [startsWithAt_eq hopened, cut_eq hclose] at hutf
  have hblock : Utf8 block := (Utf8.around (by decide +kernel) (by decide) (Utf8.drop_ascii (by decide +kernel) hutf)).1
  obtain ⟨call, hcall⟩ := parseOneToolCall_returns encodes hblock maxNameLength id
  exact ⟨_, by rw [hcall]; rfl⟩

theorem parseToolCalls_returns (encodes : lib.Encodes) (hutf : Utf8 text) (toolCalls : List ToolCall) :
    ∃ found, parseToolCalls lib newToolCallId maxToolNameLength text toolCalls = .ok found := by
  induction hn : text.length using Nat.strong_induction_on generalizing text toolCalls with
  | _ n ih =>
    unfold parseToolCalls
    split
    · exact ⟨some toolCalls, rfl⟩
    obtain ⟨found, hfound⟩ := parseBlock_returns encodes hutf.skipWs maxToolNameLength
      (newToolCallId toolCalls.length)
    split
    · next h => simp [hfound] at h
    · exact ⟨none, rfl⟩
    next call rest h =>
    have hlt : rest.length < n :=
      hn ▸ lt_of_lt_of_le (parseBlock_shorter h) (skipWs_length text)
    obtain ⟨block, hblock⟩ := parseBlock_eq h
    have hskip := hutf.skipWs
    rw [hblock] at hskip
    have hrest : Utf8 rest :=
      (Utf8.around (by decide +kernel) (by decide) (Utf8.drop_ascii (by decide +kernel) hskip)).2
    exact ih rest.length hlt hrest _ rfl

theorem parseQwenToolCallOutput_returns (encodes : lib.Encodes) (hutf : Utf8 text) :
    ∃ out, parseQwenToolCallOutput lib newToolCallId text maxToolNameLength = .ok out := by
  unfold parseQwenToolCallOutput
  split
  · exact ⟨_, rfl⟩
  next before after hcut =>
  rw [cut_eq hcut, append_assoc] at hutf
  have hrest : Utf8 (kToolOpen ++ after) := (Utf8.split_ascii (by decide : (60 : UInt8) < 128) hutf).2
  obtain ⟨found, hfound⟩ := parseToolCalls_returns encodes hrest []
  rw [hfound]
  match found with
  | none => exact ⟨_, rfl⟩
  | some toolCalls =>
    dsimp only
    split
    · exact ⟨_, rfl⟩
    · exact ⟨_, rfl⟩

end Parser

/-! ## Agreement -/

theorem ToolCallStreamFilter.feedAll_take {filter after : ToolCallStreamFilter} {deltas shown : List (List UInt8)}
    (h : filter.feedAll deltas = .ok (shown, after)) (k : Nat) :
    ∃ reached, filter.feedAll (deltas.take k) = .ok (shown.take k, reached) := by
  induction k generalizing filter deltas shown with
  | zero => exact ⟨filter, by simp [feedAll]⟩
  | succ k ih =>
    match deltas with
    | [] =>
      obtain ⟨rfl, rfl⟩ := Prod.mk.inj (Except.ok.inj h)
      exact ⟨filter, rfl⟩
    | delta :: deltas =>
      simp only [feedAll, bind, Except.bind, take_succ_cons] at h ⊢
      split at h
      · simp at h
      next first hfirst =>
      split at h
      · simp at h
      next rest hrest =>
      obtain ⟨rfl, rfl⟩ := Prod.mk.inj (Except.ok.inj h)
      obtain ⟨reached, hreached⟩ := ih hrest
      rw [hreached]
      exact ⟨reached, rfl⟩

theorem finish_parsed {lib : JsonLibrary} {newToolCallId : Nat → List UInt8} {maxToolNameLength : Nat}
    {filter : ToolCallStreamFilter} {shown text : List UInt8} {out : ParsedToolCallOutput}
    (hstreams : filter.Streams shown text)
    (hout : parseQwenToolCallOutput lib newToolCallId text maxToolNameLength = .ok out) :
    ∃ tail last, filter.finish out.isToolCallResponse = .ok (tail, last) ∧ shown ++ tail = out.content := by
  rcases parseQwenToolCallOutput_content hout with ⟨hcall, hcontent⟩ | ⟨hcall, before, after, hcut, hcontent⟩
  · rw [hcall, hcontent]
    exact ToolCallStreamFilter.finish_fallback hstreams
  rw [hcall, hcontent]
  obtain ⟨last, hlast, hshown⟩ := ToolCallStreamFilter.finish_toolCalls hstreams hcut
  exact ⟨[], last, hlast, by rw [append_nil, hshown]⟩

/-- Streaming in any pieces shows the content that the finished text is parsed to: the bytes
    shown by the deltas and the final tail are that content, what is shown at any time is a
    prefix of it, and parsing a UTF-8 text does not throw. -/
theorem stream_shows_parsed_content (lib : JsonLibrary) (encodes : lib.Encodes)
    (newToolCallId : Nat → List UInt8) (maxToolNameLength : Nat) (deltas : List (List UInt8)) :
    (Utf8 deltas.flatten →
      ∃ out, parseQwenToolCallOutput lib newToolCallId deltas.flatten maxToolNameLength = .ok out) ∧
    ∀ out, parseQwenToolCallOutput lib newToolCallId deltas.flatten maxToolNameLength = .ok out →
      ∃ shown filter tail last,
        ToolCallStreamFilter.feedAll {} deltas = .ok (shown, filter) ∧
        filter.finish out.isToolCallResponse = .ok (tail, last) ∧
        shown.flatten ++ tail = out.content ∧
        ∀ k, (∃ reached, ToolCallStreamFilter.feedAll {} (deltas.take k) = .ok (shown.take k, reached)) ∧
          (shown.take k).flatten <+: out.content := by
  refine ⟨fun hutf => parseQwenToolCallOutput_returns encodes hutf, ?_⟩
  intro out hout
  obtain ⟨shown, filter, hfeed, hstreams⟩ :=
    ToolCallStreamFilter.feedAll_streams deltas ToolCallStreamFilter.streams_nil
  rw [nil_append, nil_append] at hstreams
  obtain ⟨tail, last, htail, hcontent⟩ := finish_parsed hstreams hout
  refine ⟨shown, filter, tail, last, hfeed, htail, hcontent, ?_⟩
  intro k
  refine ⟨ToolCallStreamFilter.feedAll_take hfeed k, ?_⟩
  rw [← hcontent]
  have hsplit : shown.flatten = (shown.take k).flatten ++ (shown.drop k).flatten := by
    rw [← flatten_append, take_append_drop]
  rw [hsplit, append_assoc]
  exact prefix_append _ _

/-- Arguments that are all strings: a string is a single unnamed field. -/
def stringJson : JsonLibrary where
  Json := List (List UInt8 × List UInt8)
  parse _ := none
  ofString text := [([], text)]
  object := []
  set args key value := args ++ [(key, value.flatMap (·.2))]
  dump args :=
    let field (entry : List UInt8 × List UInt8) :=
      ascii "\"" ++ entry.1 ++ ascii "\":\"" ++ entry.2 ++ ascii "\""
    .ok (ascii "\x7b" ++ (ascii ",").intercalate (args.map field) ++ ascii "\x7d")
  WellFormed args := ∀ entry ∈ args, Utf8 entry.1 ∧ Utf8 entry.2

theorem utf8_flatMap {α : Type} {l : List α} {f : α → List UInt8} (h : ∀ a ∈ l, Utf8 (f a)) : Utf8 (l.flatMap f) := by
  induction l with
  | nil => exact utf8_nil
  | cons a l ih =>
    exact (h a mem_cons_self).append (ih fun b hb => h b (mem_cons_of_mem a hb))

theorem stringJson_encodes : stringJson.Encodes where
  parse _ _ h := by simp [stringJson] at h
  ofString text h := by
    intro entry hentry
    rw [mem_singleton.mp hentry]
    exact ⟨utf8_nil, h⟩
  object := by simp [stringJson]
  set args key value hargs hkey hvalue := by
    intro entry hentry
    rcases mem_append.mp hentry with hentry | hentry
    · exact hargs entry hentry
    rw [mem_singleton.mp hentry]
    exact ⟨hkey, utf8_flatMap fun e he => (hvalue e he).2⟩
  dump _ _ := ⟨_, rfl⟩

/-- A call after a line of text, cut inside the marker: the line is shown, without its end. -/
theorem stream_shows_line_before_call : let deltas := [ascii "Looking.\n<tool", ascii "_call><function=f><parameter=city>Oslo</parameter>",
      ascii "</function></tool_call>"]
    ∃ out, parseQwenToolCallOutput stringJson (fun _ => ascii "call_0") deltas.flatten 64 = .ok out ∧
      out.isToolCallResponse = true ∧ out.content = ascii "Looking." ∧
      ∃ shown filter tail last, ToolCallStreamFilter.feedAll {} deltas = .ok (shown, filter) ∧
        filter.finish out.isToolCallResponse = .ok (tail, last) ∧
        shown.flatten ++ tail = out.content := by
  intro deltas
  have hparse : parseQwenToolCallOutput stringJson (fun _ => ascii "call_0") deltas.flatten 64 =
      .ok { isToolCallResponse := true, content := ascii "Looking.",
            toolCalls := [{ id := ascii "call_0", name := ascii "f",
                            argumentsJson := ascii "\x7b\"city\":\"Oslo\"\x7d" }] } := by
    decide +kernel
  obtain ⟨shown, filter, tail, last, hfeed, hfinish, hcontent, -⟩ :=
    (stream_shows_parsed_content stringJson stringJson_encodes (fun _ => ascii "call_0") 64 deltas).2 _ hparse
  exact ⟨_, hparse, rfl, rfl, shown, filter, tail, last, hfeed, hfinish, hcontent⟩

end VoidInfer.Serve
