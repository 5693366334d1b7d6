import Mathlib.Data.List.Infix

/-
  Searching a stream for patterns with a held-back suffix. As long as no pattern occurs, it is enough to keep the
  longest suffix that begins a pattern: a later occurrence lies in what is kept and what follows.
-/

namespace StreamMatch
open List

variable {α : Type}

/-- No pattern occurs in the text. -/
def NoMatch (patterns : List (List α)) (text : List α) : Prop :=
  ∀ w ∈ patterns, ¬ w <:+: text

/-- A beginning of a pattern, and not the whole of it. -/
def Beginning (patterns : List (List α)) (h : List α) : Prop :=
  ∃ w ∈ patterns, h <+: w ∧ h.length < w.length

/-- What is kept of a text: a suffix no shorter than any that begins a pattern. -/
structure Keeps (patterns : List (List α)) (text held : List α) : Prop where
  suffix : held <:+ text
  longest : ∀ h, h <:+ text → Beginning patterns h → h.length ≤ held.length

variable {patterns : List (List α)} {text held more w : List α}

theorem Beginning.of_prefix {h h' : List α} (hb : Beginning patterns h) (hp : h' <+: h) : Beginning patterns h' := by
  obtain ⟨w, hw, hpre, hlt⟩ := hb
  exact ⟨w, hw, hp.trans hpre, hp.length_le.trans_lt hlt⟩

theorem keeps_nil (patterns : List (List α)) : Keeps patterns [] [] :=
  ⟨suffix_refl _, fun h hs _ => by simpa using hs.length_le⟩

theorem suffix_append_split {h : List α} (hs : h <:+ text ++ more) (hlen : more.length ≤ h.length) :
    ∃ v, h = v ++ more ∧ v <:+ text := by
  obtain ⟨a, ha⟩ := hs
  rcases append_eq_append_iff.mp ha with ⟨c, hc, hm⟩ | ⟨c, hc, hm⟩
  · exact ⟨c, hm, a, hc.symm⟩
  have hc' : c = [] := by
    have := congrArg List.length hm
    rw [length_append] at this
    exact eq_nil_of_length_eq_zero (by omega)
  subst hc'
  exact ⟨[], by simpa using hm.symm, nil_suffix⟩

section
variable (hk : Keeps patterns text held)
include hk

theorem Keeps.infix_append (hno : NoMatch patterns text)
    (hw : w ∈ patterns) (hin : w <:+: text ++ more) : w <:+: held ++ more := by
  obtain ⟨a, c, hac⟩ := hin
  obtain ⟨y, hy⟩ := hk.suffix
  by_cases hle : y.length ≤ a.length
  · -- the occurrence starts behind `y`
    rw [← hy, append_assoc, append_assoc] at hac
    rcases append_eq_append_iff.mp hac with ⟨d, hd, -⟩ | ⟨d, hd, hrest⟩
    · have hd' : d = [] := by
        have := congrArg List.length hd
        rw [length_append] at this
        exact eq_nil_of_length_eq_zero (by omega)
      subst hd'
      rw [append_nil] at hd
      subst hd
      have := append_cancel_left hac
      exact ⟨[], c, by simpa using this⟩
    · exact ⟨d, c, by rw [append_assoc]; exact hrest.symm⟩
  -- it starts in `y`, so it would begin with a longer suffix of the text
  rw [append_assoc] at hac
  rcases append_eq_append_iff.mp hac with ⟨d, hd, hrest⟩ | ⟨d, hd, hrest⟩
  · rcases append_eq_append_iff.mp hrest with ⟨f, hf, -⟩ | ⟨f, hf, -⟩
    · exact absurd ⟨a, f, by rw [append_assoc, ← hf]; exact hd.symm⟩ (hno w hw)
    · by_cases hfe : f = []
      · subst hfe
        rw [append_nil] at hf
        exact absurd ⟨a, [], by rw [append_nil, hf]; exact hd.symm⟩ (hno w hw)
      · have hpos := length_pos_of_ne_nil hfe
        have hlong := hk.longest d ⟨a, hd.symm⟩ ⟨w, hw, ⟨f, hf.symm⟩, by rw [hf, length_append]; omega⟩
        have h1 := congrArg List.length hd
        have h2 := congrArg List.length hy
        rw [length_append] at h1 h2
        omega
  have h1 := congrArg List.length hd
  have h2 := congrArg List.length hy
  rw [length_append] at h1 h2
  omega

theorem Keeps.noMatch_append (hno : NoMatch patterns text)
    (more : List α) : NoMatch patterns (text ++ more) ↔ NoMatch patterns (held ++ more) := by
  constructor
  · intro h w hw hin
    obtain ⟨y, hy⟩ := hk.suffix
    refine h w hw (hin.trans ?_)
    rw [← hy, append_assoc]
    exact (suffix_append y _).isInfix
  · exact fun h w hw hin => h w hw (hk.infix_append hno hw hin)

theorem Keeps.append {next : List α}
    (hnext : Keeps patterns (held ++ more) next) : Keeps patterns (text ++ more) next := by
  refine ⟨?_, fun h hs hb => ?_⟩
  · obtain ⟨y, hy⟩ := hk.suffix
    refine hnext.suffix.trans ?_
    rw [← hy, append_assoc]
    exact suffix_append y _
  · by_cases hlen : h.length ≤ (held ++ more).length
    · refine hnext.longest h (suffix_of_suffix_length_le hs ?_ hlen) hb
      obtain ⟨y, hy⟩ := hk.suffix
      rw [← hy, append_assoc]
      exact suffix_append y _
    · rw [length_append] at hlen
      obtain ⟨v, rfl, hv⟩ := suffix_append_split hs (by omega)
      have := hk.longest v hv <| hb.of_prefix (prefix_append v more)
      rw [length_append] at hlen
      omega

end

end StreamMatch
