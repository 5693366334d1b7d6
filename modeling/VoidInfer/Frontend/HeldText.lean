import VoidInfer.Frontend.OutputRun
import VoidInfer.Lib.Fallible
import VoidInfer.Lib.StreamMatch

/-
  The searches of the output side as searches of a stream: what `longest_suffix_prefix` keeps is enough to find a
  marker, and an ASCII marker is found in the decoded text exactly where it stands in the bytes, since no replacement
  takes or leaves an ASCII byte.
-/

namespace VoidInfer.Frontend
open Bytes Utf8 StreamMatch Fallible
open List hiding tail

/-! ## The held suffix -/

theorem longestSuffixPrefixFrom_spec (text marker : List UInt8) (allowComplete : Bool) (size n : Nat)
    (hn : n ≤ size) (hallow : allowComplete = true ∨ n ≠ marker.length)
    (hmatch : text.drop (text.length - n) = marker.take n) :
    n ≤ longestSuffixPrefixFrom text marker allowComplete size := by
  induction size with
  | zero => exact hn
  | succ size ih =>
    unfold longestSuffixPrefixFrom
    split
    · exact hn
    next hno =>
    refine ih ?_
    rcases Nat.lt_or_ge n (size + 1) with hlt | hge
    · omega
    obtain rfl : n = size + 1 := by omega
    exact absurd ⟨hallow, hmatch⟩ hno

variable {text w skipped : List UInt8}

theorem length_le_longestSuffixPrefix {marker h : List UInt8} (allowComplete : Bool)
    (hs : h <:+ text) (hp : h <+: marker) (hallow : allowComplete = true ∨ h.length < marker.length) :
    h.length ≤ longestSuffixPrefix text marker allowComplete := by
  refine longestSuffixPrefixFrom_spec text marker allowComplete _ _ (le_min hs.length_le hp.length_le)
    (hallow.imp_right Nat.ne_of_lt) ?_
  rw [← prefix_iff_eq_take.mp hp]
  exact (suffix_iff_eq_drop.mp hs).symm

theorem cut_eq_none_iff (hw : w ≠ []) : cut w text = none ↔ ¬ w <:+: text := by
  induction text with
  | nil => simp [cut, hw]
  | cons b rest ih =>
    rw [cut, infix_cons_iff, not_or]
    by_cases hp : w <+: b :: rest
    · simp [hp]
    rw [if_neg fun hprefix => hp <| isPrefixOf_iff_prefix.mp hprefix, Option.map_eq_none_iff, ih]
    simp [hp]

theorem cut_eq_none_iff_noMatch (hw : w ≠ []) : cut w text = none ↔ NoMatch [w] text := by
  rw [cut_eq_none_iff hw]
  simp [NoMatch]

theorem keeps_longestSuffixPrefix (text marker : List UInt8) :
    Keeps [marker] text (text.drop (text.length - longestSuffixPrefix text marker true)) := by
  refine ⟨drop_suffix _ _, fun h hs hb => ?_⟩
  obtain ⟨w, hw, hp, -⟩ := hb
  obtain rfl := mem_singleton.mp hw
  have hle := length_le_longestSuffixPrefix true hs hp (.inl rfl)
  have := hs.length_le
  rw [length_drop]
  omega

/-! ## ASCII text -/

def Ascii (text : List UInt8) : Prop := ∀ b ∈ text, b.toNat ≤ 0x7F

def NonAscii (text : List UInt8) : Prop := ∀ b ∈ text, ¬ b.toNat ≤ 0x7F

theorem replacement_nonAscii : NonAscii replacement := by
  have h : replacement.all (fun b => decide (¬ b.toNat ≤ 0x7F)) = true := by decide
  exact fun b hb => of_decide_eq_true (all_eq_true.mp h b hb)

section
variable (hw : Ascii w) (hne : w ≠ []) (hskip : NonAscii skipped)
include hw hne hskip

theorem prefix_nonAscii_append {rest : List UInt8} (hskipped : skipped ≠ []) : ¬ w <+: skipped ++ rest := by
  obtain ⟨b, w, rfl⟩ := exists_cons_of_ne_nil hne
  obtain ⟨c, skipped, rfl⟩ := exists_cons_of_ne_nil hskipped
  rw [cons_append, cons_prefix_cons]
  rintro ⟨rfl, -⟩
  exact hskip b (by simp) (hw b (by simp))

theorem prefix_nonAscii_append' (hskipped : skipped ≠ []) : ¬ w <+: skipped := by
  rw [← append_nil skipped]
  exact prefix_nonAscii_append hw hne hskip hskipped

theorem infix_nonAscii_append (rest : List UInt8) : w <:+: skipped ++ rest ↔ w <:+: rest := by
  induction skipped with
  | nil => rfl
  | cons b skipped ih =>
    rw [cons_append, infix_cons_iff, ih fun c hc => hskip c (mem_cons_of_mem _ hc), or_iff_right]
    exact prefix_nonAscii_append hw hne (show NonAscii [b] from fun c hc => hskip c (by simp_all)) (by simp)

end

theorem prefix_append_nonAscii (hw : Ascii w) (hskip : NonAscii skipped) : w <+: text ++ skipped ↔ w <+: text := by
  induction text generalizing w with
  | nil =>
    by_cases hne : w = []
    · simp [hne]
    by_cases hskipped : skipped = []
    · simp [hskipped]
    have := prefix_nonAscii_append' hw hne hskip hskipped
    exact iff_of_false this (by simpa using hne)
  | cons b text ih =>
    cases w with
    | nil => simp
    | cons c w =>
      rw [cons_append, cons_prefix_cons, cons_prefix_cons,
        ih fun x hx => hw x (mem_cons_of_mem _ hx)]

theorem infix_append_nonAscii (hw : Ascii w) (hne : w ≠ [])
    (hskip : NonAscii skipped) : w <:+: text ++ skipped ↔ w <:+: text := by
  induction text with
  | nil =>
    have := infix_nonAscii_append hw hne hskip []
    rwa [append_nil] at this
  | cons b text ih =>
    rw [cons_append, infix_cons_iff, infix_cons_iff, ih, ← cons_append,
      prefix_append_nonAscii hw hskip]

theorem nonAscii_cons {b : UInt8} {rest : List UInt8} (hb : ¬ b.toNat ≤ 0x7F) (h : NonAscii rest) :
    NonAscii (b :: rest) := by
  intro c hc
  rcases mem_cons.mp hc with rfl | hc
  · exact hb
  · exact h c hc

theorem nonAscii_singleton {b : UInt8} (hb : ¬ b.toNat ≤ 0x7F) : NonAscii [b] :=
  nonAscii_cons hb fun _ h => absurd h not_mem_nil

/-- Text and bytes agree about every ASCII word. -/
def SameAscii (text bytes : List UInt8) : Prop :=
  ∀ w, Ascii w → (w <+: text ↔ w <+: bytes) ∧ (w <:+: text ↔ w <:+: bytes)

theorem SameAscii.cons {bytes : List UInt8} (h : SameAscii text bytes) (b : UInt8) :
    SameAscii (b :: text) (b :: bytes) := by
  intro w hw
  have hpre : w <+: b :: text ↔ w <+: b :: bytes := by
    cases w with
    | nil => simp
    | cons c w =>
      rw [cons_prefix_cons, cons_prefix_cons]
      rw [(h w fun x hx => hw x (mem_cons_of_mem _ hx)).1]
  exact ⟨hpre, by rw [infix_cons_iff, infix_cons_iff, hpre, (h w hw).2]⟩

theorem SameAscii.skip {bytes out chunk : List UInt8} (h : SameAscii text bytes)
    (hout : NonAscii out) (hchunk : NonAscii chunk) (hout' : out ≠ []) (hchunk' : chunk ≠ []) :
    SameAscii (out ++ text) (chunk ++ bytes) := by
  intro w hw
  by_cases hne : w = []
  · simp [hne]
  rw [infix_nonAscii_append hw hne hout, infix_nonAscii_append hw hne hchunk]
  exact ⟨iff_of_false (prefix_nonAscii_append hw hne hout hout')
    (prefix_nonAscii_append hw hne hchunk hchunk'), (h w hw).2⟩

theorem matched_nonAscii : ∀ left (bytes : List UInt8),
    NonAscii (bytes.take (matched (List.replicate left tail) bytes))
  | 0, _ => by simp [matched, NonAscii]
  | _ + 1, [] => by simp [matched, NonAscii]
  | left + 1, b :: rest => by
      rw [replicate_succ, matched]
      split
      · next hb =>
        intro c hc
        rcases mem_cons.mp hc with rfl | hc
        · unfold InRange tail at hb
          omega
        · exact matched_nonAscii left rest c hc
      · simp [NonAscii]

theorem decodeUtf8Prefix_sameAscii (bytes : List UInt8) : SameAscii (decodeUtf8Prefix bytes).2 bytes := by
  induction bytes using decodeUtf8Prefix.induct with
  | case1 => simp [decodeUtf8Prefix, SameAscii]
  | case2 lead rest hlead ih =>
    rw [decode_ascii hlead]
    exact ih.cons lead
  | case3 lead rest hlead hshape ih =>
    rw [decode_stray hlead hshape]
    exact ih.skip replacement_nonAscii (nonAscii_singleton hlead) (by decide) (cons_ne_nil _ [])
  | case4 lead rest hlead length bits minimum hshape run hwait =>
    have hrun : run.1 = matched (List.replicate (length - 1) tail) rest :=
      continuations_eq_matched _ bits rest
    have hskip : NonAscii (lead :: rest) := by
      have := nonAscii_cons hlead (matched_nonAscii (length - 1) rest)
      rwa [← hrun, hwait.2, take_length] at this
    rw [decode_wait hlead hshape hwait]
    intro w hw
    by_cases hne : w = []
    · simp [hne]
    have hin := infix_nonAscii_append hw hne hskip []
    have hpre := prefix_nonAscii_append' hw hne hskip (cons_ne_nil _ _)
    rw [append_nil] at hin
    exact ⟨iff_of_false (by simpa using hne) hpre, hin.symm⟩
  | case5 lead rest hlead length bits minimum hshape run hwait hill ih =>
    have hrun : run.1 = matched (List.replicate (length - 1) tail) rest :=
      continuations_eq_matched _ bits rest
    have hskip := nonAscii_cons hlead (matched_nonAscii (length - 1) rest)
    rw [← hrun] at hskip
    have := ih.skip replacement_nonAscii hskip (by decide) (cons_ne_nil _ _)
    rw [cons_append, take_append_drop] at this
    rw [decode_ill hlead hshape hwait hill]
    exact this
  | case6 lead rest hlead length bits minimum hshape run hwait hill ih =>
    have hrun : run.1 = matched (List.replicate (length - 1) tail) rest :=
      continuations_eq_matched _ bits rest
    have hleft : run.1 ≤ length - 1 := continuations_le_left _ bits rest
    have hskip := nonAscii_cons hlead (matched_nonAscii (length - 1) rest)
    rw [← hrun, show run.1 = length - 1 by omega] at hskip
    have := ih.skip hskip hskip (cons_ne_nil _ _) (cons_ne_nil _ _)
    change SameAscii _ (lead :: (rest.take (length - 1) ++ rest.drop (length - 1))) at this
    rw [take_append_drop] at this
    rw [decode_well hlead hshape hill]
    exact this

theorem kThinkClose_ascii : Ascii kThinkClose := by
  have h : kThinkClose.all (fun b => decide (b.toNat ≤ 0x7F)) = true := by decide
  exact fun b hb => of_decide_eq_true (all_eq_true.mp h b hb)

theorem noMatch_decode_iff (bytes : List UInt8) :
    NoMatch [kThinkClose] (decodeUtf8Prefix bytes).2 ↔ NoMatch [kThinkClose] bytes := by
  simp only [NoMatch, mem_singleton, forall_eq]
  exact not_congr (decodeUtf8Prefix_sameAscii bytes kThinkClose kThinkClose_ascii).2

end VoidInfer.Frontend
