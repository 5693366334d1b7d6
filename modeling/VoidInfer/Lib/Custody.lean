import Mathlib.Data.List.Perm.Basic
import Mathlib.Data.List.Nodup

/-
  Custody of things that may be held once only: every live thing is held by exactly one owner, and once by it. A thing
  changes hands, is made or is given up; nothing is copied.
-/

namespace Custody
open List

variable {ω η : Type}

/-- Each owner holds its list of things; the live ones are held once, the others not at all. -/
structure HeldOnce (holding : ω → List η) (live : η → Prop) : Prop where
  nodup : ∀ o, (holding o).Nodup
  apart : ∀ o o' h, h ∈ holding o → h ∈ holding o' → o = o'
  held : ∀ h, (∃ o, h ∈ holding o) ↔ live h

variable {f g : ω → List η} {live live' : η → Prop} {a b : ω} {h : η}

section
variable (hc : HeldOnce f live)
include hc

theorem HeldOnce.congr (hfg : ∀ o, g o = f o) (hlive : ∀ h, live' h ↔ live h) : HeldOnce g live' := by
  have hg : g = f := funext hfg
  subst hg
  exact ⟨hc.nodup, hc.apart, fun h => (hc.held h).trans (hlive h).symm⟩

theorem HeldOnce.unique (h : η) (hl : live h) : ∃! o, h ∈ f o := by
  obtain ⟨o, ho⟩ := (hc.held h).mpr hl
  exact ⟨o, ho, fun o' ho' => hc.apart _ _ _ ho' ho⟩

theorem HeldOnce.move (hab : a ≠ b) (ha : (f a).Perm (h :: g a))
    (hb : (g b).Perm (h :: f b)) (hrest : ∀ o, o ≠ a → o ≠ b → g o = f o) : HeldOnce g live := by
  have hnodup : (h :: g a).Nodup := ha.nodup_iff.mp (hc.nodup a)
  obtain ⟨hnot, hga⟩ := nodup_cons.mp hnodup
  have hmemA : h ∈ f a := ha.mem_iff.mpr mem_cons_self
  have hnotB : h ∉ f b := fun hmem => hab (hc.apart _ _ _ hmemA hmem)
  have hback : ∀ o x, x ∈ g o → (x = h ∧ o = b) ∨ (x ≠ h ∧ x ∈ f o) := by
    intro o x hx
    by_cases hoa : o = a
    · subst hoa
      refine .inr ⟨fun heq => hnot (heq ▸ hx), ha.mem_iff.mpr (mem_cons_of_mem _ hx)⟩
    by_cases hob : o = b
    · subst hob
      rcases mem_cons.mp (hb.mem_iff.mp hx) with heq | hmem
      · exact .inl ⟨heq, rfl⟩
      · exact .inr ⟨fun heq => hnotB (heq ▸ hmem), hmem⟩
    rw [hrest o hoa hob] at hx
    exact .inr ⟨fun heq => hoa (hc.apart _ _ _ (heq ▸ hx) hmemA), hx⟩
  refine ⟨?_, ?_, ?_⟩
  · intro o
    by_cases hoa : o = a
    · exact hoa ▸ hga
    by_cases hob : o = b
    · subst hob
      exact hb.nodup_iff.mpr (nodup_cons.mpr ⟨hnotB, hc.nodup _⟩)
    rw [hrest o hoa hob]
    exact hc.nodup o
  · intro o o' x hx hx'
    rcases hback o x hx with ⟨rfl, rfl⟩ | ⟨hne, hmem⟩ <;> rcases hback o' x hx' with ⟨heq, rfl⟩ | ⟨hne', hmem'⟩
    · rfl
    · exact absurd rfl hne'
    · exact absurd heq hne
    · exact hc.apart _ _ _ hmem hmem'
  · intro x
    rw [← hc.held x]
    constructor
    · rintro ⟨o, hx⟩
      rcases hback o x hx with ⟨rfl, -⟩ | ⟨-, hmem⟩
      · exact ⟨a, hmemA⟩
      · exact ⟨o, hmem⟩
    · rintro ⟨o, hx⟩
      by_cases heq : x = h
      · exact ⟨b, hb.mem_iff.mpr (heq ▸ mem_cons_self)⟩
      by_cases hoa : o = a
      · subst hoa
        exact ⟨o, (mem_cons.mp (ha.mem_iff.mp hx)).resolve_left heq⟩
      by_cases hob : o = b
      · subst hob
        exact ⟨o, hb.mem_iff.mpr (mem_cons_of_mem _ hx)⟩
      · exact ⟨o, hrest o hoa hob ▸ hx⟩

theorem HeldOnce.handOver (hab : a ≠ b) (hempty : f b = []) (ha : g a = [])
    (hb : g b = f a) (hrest : ∀ o, o ≠ a → o ≠ b → g o = f o) : HeldOnce g live := by
  have hback : ∀ o x, x ∈ g o → (o = b ∧ x ∈ f a) ∨ (o ≠ b ∧ o ≠ a ∧ x ∈ f o) := by
    intro o x hx
    by_cases hob : o = b
    · subst hob
      exact .inl ⟨rfl, hb ▸ hx⟩
    by_cases hoa : o = a
    · rw [hoa, ha] at hx
      cases hx
    · exact .inr ⟨hob, hoa, hrest o hoa hob ▸ hx⟩
  refine ⟨?_, ?_, ?_⟩
  · intro o
    by_cases hob : o = b
    · rw [hob, hb]
      exact hc.nodup a
    by_cases hoa : o = a
    · rw [hoa, ha]
      exact nodup_nil
    rw [hrest o hoa hob]
    exact hc.nodup o
  · intro o o' x hx hx'
    rcases hback o x hx with ⟨rfl, hmem⟩ | ⟨-, hoa, hmem⟩ <;>
      rcases hback o' x hx' with ⟨rfl, hmem'⟩ | ⟨-, hoa', hmem'⟩
    · rfl
    · exact absurd (hc.apart _ _ _ hmem' hmem) hoa'
    · exact absurd (hc.apart _ _ _ hmem hmem') hoa
    · exact hc.apart _ _ _ hmem hmem'
  · intro x
    rw [← hc.held x]
    constructor
    · rintro ⟨o, hx⟩
      rcases hback o x hx with ⟨-, hmem⟩ | ⟨-, -, hmem⟩
      · exact ⟨a, hmem⟩
      · exact ⟨o, hmem⟩
    · rintro ⟨o, hx⟩
      by_cases hoa : o = a
      · exact ⟨b, by rw [hb, ← hoa]; exact hx⟩
      by_cases hob : o = b
      · rw [hob, hempty] at hx
        cases hx
      · exact ⟨o, hrest o hoa hob ▸ hx⟩

theorem HeldOnce.make (hnew : ¬ live h) (ha : (g a).Perm (h :: f a))
    (hrest : ∀ o, o ≠ a → g o = f o) (hlive : ∀ x, live' x ↔ x = h ∨ live x) : HeldOnce g live' := by
  have hnot : ∀ o, h ∉ f o := fun o hmem => hnew ((hc.held h).mp ⟨o, hmem⟩)
  have hback : ∀ o x, x ∈ g o → (x = h ∧ o = a) ∨ x ∈ f o := by
    intro o x hx
    by_cases hoa : o = a
    · subst hoa
      rcases mem_cons.mp (ha.mem_iff.mp hx) with heq | hmem
      · exact .inl ⟨heq, rfl⟩
      · exact .inr hmem
    · exact .inr (hrest o hoa ▸ hx)
  refine ⟨?_, ?_, ?_⟩
  · intro o
    by_cases hoa : o = a
    · subst hoa
      exact ha.nodup_iff.mpr (nodup_cons.mpr ⟨hnot _, hc.nodup _⟩)
    rw [hrest o hoa]
    exact hc.nodup o
  · intro o o' x hx hx'
    rcases hback o x hx with ⟨rfl, rfl⟩ | hmem <;> rcases hback o' x hx' with ⟨heq, rfl⟩ | hmem'
    · rfl
    · exact absurd hmem' (hnot _)
    · exact absurd (heq ▸ hmem) (hnot _)
    · exact hc.apart _ _ _ hmem hmem'
  · intro x
    rw [hlive]
    constructor
    · rintro ⟨o, hx⟩
      rcases hback o x hx with ⟨heq, -⟩ | hmem
      · exact .inl heq
      · exact .inr ((hc.held x).mp ⟨o, hmem⟩)
    · rintro (rfl | hl)
      · exact ⟨a, ha.mem_iff.mpr mem_cons_self⟩
      · obtain ⟨o, hx⟩ := (hc.held x).mpr hl
        by_cases hoa : o = a
        · subst hoa
          exact ⟨o, ha.mem_iff.mpr (mem_cons_of_mem _ hx)⟩
        · exact ⟨o, hrest o hoa ▸ hx⟩

theorem HeldOnce.giveUp (ha : (f a).Perm (h :: g a))
    (hrest : ∀ o, o ≠ a → g o = f o) (hlive : ∀ x, live' x ↔ live x ∧ x ≠ h) : HeldOnce g live' := by
  obtain ⟨hnot, hga⟩ := nodup_cons.mp (ha.nodup_iff.mp (hc.nodup a))
  have hmemA : h ∈ f a := ha.mem_iff.mpr mem_cons_self
  have hback : ∀ o x, x ∈ g o ↔ x ∈ f o ∧ x ≠ h := by
    intro o x
    by_cases hoa : o = a
    · subst hoa
      constructor
      · intro hx
        exact ⟨ha.mem_iff.mpr (mem_cons_of_mem _ hx), fun heq => hnot (heq ▸ hx)⟩
      · rintro ⟨hx, hne⟩
        exact (mem_cons.mp (ha.mem_iff.mp hx)).resolve_left hne
    rw [hrest o hoa]
    constructor
    · intro hx
      exact ⟨hx, fun heq => hoa (hc.apart _ _ _ (heq ▸ hx) hmemA)⟩
    · exact fun hx => hx.1
  refine ⟨?_, ?_, ?_⟩
  · intro o
    by_cases hoa : o = a
    · exact hoa ▸ hga
    rw [hrest o hoa]
    exact hc.nodup o
  · intro o o' x hx hx'
    exact hc.apart _ _ _ ((hback o x).mp hx).1 ((hback o' x).mp hx').1
  · intro x
    rw [hlive, ← hc.held x]
    constructor
    · rintro ⟨o, hx⟩
      exact ⟨⟨o, ((hback o x).mp hx).1⟩, ((hback o x).mp hx).2⟩
    · rintro ⟨⟨o, hx⟩, hne⟩
      exact ⟨o, (hback o x).mpr ⟨hx, hne⟩⟩

end

end Custody
