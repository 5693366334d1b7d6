import VoidInfer.Lib.SharedChains
import VoidInfer.Serve.ResponseStore

/-
  The accounts of the response store: the reference counts are those of the records' contexts, and the bytes are those
  of the records and of the live nodes. What taking up and dropping a context does to them.
-/

namespace VoidInfer.Serve
open SharedChains Throwing List

variable {P : StorePlatform} {s s' : ResponseStore P} {context parent : ResponseContext} {roots : List ResponseContext}
  {total : Nat}

/-! ## Contexts -/

/-- What `append_response_context` makes of a context. -/
def WellFormed : ResponseContext → Prop
  | [] => True
  | node :: parent =>
    node.cumulativeBytes = node.ownedBytes + cumulativeBytes parent ∧ 0 < node.ownedBytes ∧ WellFormed parent

theorem wellFormed_append {address : Nat} {turns : List ChatTurn} (h : WellFormed parent)
    (hok : appendResponseContext P address parent turns = .ok context) : WellFormed context := by
  obtain ⟨bytes, hbytes, hok⟩ := bind_ok hok
  obtain ⟨count, -, hok⟩ := bind_ok hok
  cases hok
  refine ⟨?_, ?_, h⟩
  · unfold checkedAdd at hbytes
    split at hbytes
    · cases hbytes
    · exact (Except.ok.inj hbytes).symm
  · exact Nat.lt_of_lt_of_le P.node_pos (Nat.le_add_right _ _)

section
variable (h : WellFormed context)
include h

theorem WellFormed.of_suffix (hsuffix : parent <:+ context) : WellFormed parent := by
  induction context with
  | nil =>
    rw [suffix_nil.mp hsuffix]
    trivial
  | cons node rest ih =>
    rcases suffix_cons_iff.mp hsuffix with rfl | hsuffix
    · exact h
    · exact ih h.2.2 hsuffix

theorem WellFormed.owned_pos (hne : context ≠ []) : 0 < ownedBytes context := by
  cases context with
  | nil => exact absurd rfl hne
  | cons node rest => exact h.2.1

theorem WellFormed.sum_le (nodes : Finset ResponseContext)
    (hnodes : ∀ c ∈ nodes, c ≠ [] ∧ c <:+ context) : ∑ c ∈ nodes, ownedBytes c ≤ cumulativeBytes context := by
  induction context generalizing nodes with
  | nil =>
    have hempty : nodes = ∅ := by
      refine Finset.eq_empty_of_forall_notMem fun c hc => ?_
      exact (hnodes c hc).1 (suffix_nil.mp (hnodes c hc).2)
    simp [hempty]
  | cons node rest ih =>
    have hrest : ∑ c ∈ nodes.erase (node :: rest), ownedBytes c ≤ cumulativeBytes rest := by
      refine ih h.2.2 _ fun c hc => ?_
      obtain ⟨hne, hc⟩ := Finset.mem_erase.mp hc
      exact ⟨(hnodes c hc).1, (suffix_cons_iff.mp (hnodes c hc).2).resolve_left hne⟩
    have hle : ∑ c ∈ nodes, ownedBytes c ≤
        ownedBytes (node :: rest) + ∑ c ∈ nodes.erase (node :: rest), ownedBytes c := by
      by_cases hmem : node :: rest ∈ nodes
      · rw [Finset.add_sum_erase _ _ hmem]
      rw [Finset.erase_eq_of_notMem hmem]
      exact Nat.le_add_left _ _
    calc ∑ c ∈ nodes, ownedBytes c ≤ ownedBytes (node :: rest) + ∑ c ∈ nodes.erase (node :: rest), ownedBytes c := hle
      _ ≤ ownedBytes (node :: rest) + cumulativeBytes rest := Nat.add_le_add_left hrest _
      _ = cumulativeBytes (node :: rest) := h.1.symm

end

/-! ## Accounts -/

/-- The counts are those of `roots`, and the bytes are `total` and those of the live nodes. -/
def Accounted (s : ResponseStore P) (roots : List ResponseContext) (total : Nat) : Prop :=
  ∃ alive, Counted alive s.live roots ∧ s.currentBytes = total + ∑ c ∈ alive, ownedBytes c

theorem wp_releaseContext (h : Accounted s (context :: roots) total) :
    wp (releaseContext context) (fun _ s' => Accounted s' roots total ∧ s'.records = s.records ∧ s'.lru = s.lru ∧
      s'.currentBytes ≤ s.currentBytes) (fun _ _ => False) s := by
  induction context generalizing s with
  | nil =>
    obtain ⟨alive, hcounted, hbytes⟩ := h
    exact ⟨⟨alive, hcounted.drop_nil, hbytes⟩, rfl, rfl, le_rfl⟩
  | cons node parent ih =>
    obtain ⟨alive, hcounted, hbytes⟩ := h
    obtain ⟨k, hk⟩ := hcounted.root (by simp)
    unfold releaseContext
    rw [wp_get_bind]
    rw [hk]
    cases k with
    | succ k => exact ⟨⟨alive, hcounted.release hk, hbytes⟩, rfl, rfl, le_rfl⟩
    | zero =>
      have hmem : node :: parent ∈ alive := by simp [hcounted.alive_iff, hk]
      have hsum := Finset.add_sum_erase alive ownedBytes hmem
      have howned : ownedBytes (node :: parent) = node.ownedBytes := rfl
      rw [if_neg (by omega), wp_bind, wp_set]
      refine wp_imp (ih ⟨alive.erase _, hcounted.erase hk, ?_⟩) ?_
      · dsimp only
        omega
      rintro _ s' ⟨haccounted, hrecords, hlru, hle⟩
      exact ⟨haccounted, hrecords, hlru, hle.trans (Nat.sub_le _ _)⟩

/-! ## New nodes -/

theorem newNodes_suffix (live : ResponseContext → Option Nat) (context : ResponseContext) :
    (∀ c ∈ (newNodes live context).1, c <:+ context ∧ c ≠ [] ∧ live c = none) ∧ (newNodes live context).2 <:+ context := by
  induction context with
  | nil => simp [newNodes]
  | cons node parent ih =>
    unfold newNodes
    split
    · simp
    next hdead =>
    refine ⟨fun c hc => ?_, ih.2.trans (suffix_cons node parent)⟩
    rcases mem_cons.mp hc with rfl | hc
    · exact ⟨suffix_refl _, by simp, by simpa using hdead⟩
    obtain ⟨hsuffix, hrest⟩ := ih.1 c hc
    exact ⟨hsuffix.trans (suffix_cons node parent), hrest⟩

theorem cons_not_suffix {node : ContextNode} {c : ResponseContext} (h : c <:+ parent) : c ≠ node :: parent := by
  intro heq
  have hlength := h.length_le
  rw [heq, length_cons] at hlength
  omega

section
variable (live : ResponseContext → Option Nat)

theorem newNodes_nodup (context : ResponseContext) : (newNodes live context).1.Nodup := by
  induction context with
  | nil => simp [newNodes]
  | cons node parent ih =>
    unfold newNodes
    split
    · simp
    refine nodup_cons.mpr ⟨fun hmem => ?_, ih⟩
    exact cons_not_suffix ((newNodes_suffix live parent).1 _ hmem).1 rfl

theorem newNodes_cursor (context : ResponseContext) :
    (newNodes live context).2 = [] ∨ (live (newNodes live context).2).isSome = true := by
  induction context with
  | nil => exact .inl rfl
  | cons node parent ih =>
    unfold newNodes
    split
    · next hlive => exact .inr hlive
    · exact ih

theorem newNodes_sum_le (h : WellFormed context) :
    ((newNodes live context).1.map ownedBytes).sum ≤ cumulativeBytes context := by
  rw [← sum_toFinset ownedBytes (newNodes_nodup live context)]
  refine h.sum_le _ fun c hc => ?_
  obtain ⟨hsuffix, hne, -⟩ := (newNodes_suffix live context).1 c (List.mem_toFinset.mp hc)
  exact ⟨hne, hsuffix⟩

/-- The counts with the new nodes of a context and its reference to the live one behind them. -/
def retained (context : ResponseContext) : ResponseContext → Option Nat := fun c =>
  if c ∈ (newNodes live context).1 then some 1
  else if c ≠ [] ∧ c = (newNodes live context).2 then (live c).map (· + 1)
  else live c

end

theorem counted_retained {alive : Finset ResponseContext} {live : ResponseContext → Option Nat}
    (h : Counted alive live roots) (context : ResponseContext) :
    ∃ alive', Counted alive' (retained live context) (context :: roots) ∧
      ∑ c ∈ alive', ownedBytes c = ∑ c ∈ alive, ownedBytes c + ((newNodes live context).1.map ownedBytes).sum := by
  induction context with
  | nil =>
    have heq : retained live [] = live := by
      funext c
      simp [retained, newNodes]
    rw [heq]
    exact ⟨alive, h.nil_root, by simp [newNodes]⟩
  | cons node parent ih =>
    cases hk : live (node :: parent) with
    | some k =>
      have hnew : newNodes live (node :: parent) = ([], node :: parent) := by
        rw [newNodes, if_pos (by simp [hk])]
      have heq : retained live (node :: parent) = Function.update live (node :: parent) (some (k + 1)) := by
        funext c
        unfold retained
        rw [hnew]
        by_cases hc : c = node :: parent
        · subst hc
          simp [hk]
        · simp [hc]
      rw [heq, hnew]
      exact ⟨alive, h.retain hk, by simp⟩
    | none =>
      have hnew : newNodes live (node :: parent) =
          ((node :: parent) :: (newNodes live parent).1, (newNodes live parent).2) := by
        rw [newNodes, if_neg (by simp [hk])]
      obtain ⟨hsuffix, hcursor⟩ := newNodes_suffix live parent
      have hfresh : node :: parent ∉ (newNodes live parent).1 := fun hmem => cons_not_suffix (hsuffix _ hmem).1 rfl
      have hother : node :: parent ≠ (newNodes live parent).2 := fun heq => cons_not_suffix hcursor heq.symm
      have heq : retained live (node :: parent) =
          Function.update (retained live parent) (node :: parent) (some 1) := by
        funext c
        unfold retained
        rw [hnew]
        by_cases hc : c = node :: parent
        · subst hc
          simp
        · simp [hc]
      have hnone : retained live parent (node :: parent) = none := by
        unfold retained
        rw [if_neg hfresh, if_neg (fun hand => hother hand.2), hk]
      obtain ⟨alive', hcounted, hsum⟩ := ih
      have hnot : node :: parent ∉ alive' := by simp [hcounted.alive_iff, hnone]
      rw [heq, hnew]
      refine ⟨insert _ alive', hcounted.insert (by simp) hnone, ?_⟩
      rw [Finset.sum_insert hnot, hsum, map_cons, sum_cons]
      omega

end VoidInfer.Serve
