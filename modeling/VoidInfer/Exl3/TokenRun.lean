import VoidInfer.Exl3.TokenTree

/-
  `Exl3TokenHistory` refines a token list. `HistoryRep nodes h ts` ties a history to the list it stands for; `append`
  gives one for the longer list (`wp_append`), and every observer answers as the list does. `Run` is any branching
  sequence of appends, returning or throwing, and `token_history_refines_list` says what holds along it.
-/

namespace VoidInfer.Exl3
open List

open Throwing Segments

/-- The history stands for `ts`. -/
structure HistoryRep (nodes : List Node) (h : Exl3TokenHistory) (ts : List Int) : Prop where
  position : h.position = ts.length
  root : RepEdge nodes h.level h.root ts
  level : LevelFor h.level ts.length
  fingerprint : h.fingerprint = extendFingerprint 1469598103934665603 ts
  extent : ts.length ≤ int32Max

theorem HistoryRep.empty (nodes : List Node) : HistoryRep nodes {} [] :=
  ⟨rfl, rfl, ⟨Nat.zero_le _, .inl rfl⟩, rfl, Nat.zero_le _⟩

variable {h : Exl3TokenHistory} {ts : List Int}

theorem HistoryRep.mono {nodes nodes' : List Node} (hn : nodes <+: nodes')
    (hr : HistoryRep nodes h ts) : HistoryRep nodes' h ts :=
  ⟨hr.position, hr.root.mono hn, hr.level, hr.fingerprint, hr.extent⟩

/-- What `append` checks before it makes a node. -/
def Exl3TokenHistory.Accepts (h : Exl3TokenHistory) (batch : List Int) : Prop :=
  batch.length ≤ int32Max - h.position ∧ ∀ token ∈ batch, 0 ≤ token ∧ token < 248320

/-- `append`: a history of the longer list, or a throw that left the old nodes alone. It
    throws only on a batch it does not accept or when a construction fails. -/
theorem wp_append {s : NodeStore} (hr : HistoryRep s.nodes h ts) (batch : List Int) :
    wp (h.append batch) (fun h' s' => Grew s s' ∧ h.Accepts batch ∧ HistoryRep s'.nodes h' (ts ++ batch))
      (fun _ s' => s.nodes <+: s'.nodes ∧ (h.Accepts batch → ¬ s.Quiet)) s := by
  have hpos := hr.position
  simp only [Exl3TokenHistory.append, wp_bind]
  refine wp_ofExcept.mpr ⟨fun _ hlen => ?_, fun e he => ?_⟩
  swap
  · refine ⟨prefix_rfl, fun hacc => ?_⟩
    have : ¬ batch.length > int32Max - h.position := by
      have := hacc.1
      omega
    rw [throwIf, if_neg this] at he
    cases he
  have hlen := throwIf_ok.mp hlen
  refine wp_ofExcept.mpr ⟨fun _ htok => ?_, fun e he => ?_⟩
  swap
  · refine ⟨prefix_rfl, fun hacc => ?_⟩
    have : ¬ ∃ token ∈ batch, token < 0 ∨ token ≥ 248320 := by
      rintro ⟨token, hmem, hbad⟩
      have := hacc.2 token hmem
      omega
    rw [throwIf, if_neg this] at he
    cases he
  have htok := throwIf_ok.mp htok
  have hacc : h.Accepts batch := by
    refine ⟨by omega, fun token hmem => ?_⟩
    by_contra hbad
    exact htok ⟨token, hmem, by omega⟩
  split
  · next hnil =>
    subst hnil
    rw [wp_pure, append_nil]
    exact ⟨Grew.refl s, hacc, hr⟩
  next hne =>
  have hbatch : 0 < batch.length := length_pos_iff.mpr hne
  have hstop : h.position + batch.length = (ts ++ batch).length := by
    rw [length_append, hpos]
  have hall : (ts ++ batch).length ≤ int32Max := by omega
  have hfuel : (ts ++ batch).length ≤ nodeRows (h.level + 6) :=
    calc (ts ++ batch).length ≤ int32Max := hall
      _ ≤ nodeRows 6 := by decide
      _ ≤ nodeRows (h.level + 6) := nodeRows_mono (by omega)
  have hmin : h.level = 0 ∨ nodeRows (h.level - 1) < (ts ++ batch).length := by
    rcases hr.level.2 with h0 | h0
    · exact .inl h0
    · exact .inr (by omega)
  have htake : (ts ++ batch).take ts.length = ts := take_left
  have hdrop : (ts ++ batch).drop ts.length = batch := drop_left
  simp only [wp_bind, hstop]
  refine wp_mono (wp_promote hr.root hfuel hmin) (fun ⟨root, level, promotedRoot⟩ s₁ hp => ?_)
    fun _ _ hf => ⟨hf.nodes, fun _ => hf.noisy⟩
  obtain ⟨hgrew, hlevel, hroot⟩ := hp
  rw [← htake] at hroot
  have happend := wp_appendRoot (by omega) hlevel.1 hroot
  rw [hdrop, ← hpos] at happend
  refine wp_mono happend (fun id s₂ ⟨hgrew', hrep⟩ => ?_) fun _ _ hf =>
    ⟨(hgrew.failed hf).nodes, fun _ => (hgrew.failed hf).noisy⟩
  refine ⟨hgrew.trans hgrew', hacc, rfl, hrep, hlevel, ?_, hall⟩
  rw [hr.fingerprint]
  exact (foldl_append ..).symm

/-! ## The observers -/

section Observers

variable {nodes : List Node} {h : Exl3TokenHistory} {ts : List Int}

theorem HistoryRep.pageAt (hr : HistoryRep nodes h ts) (index : Nat) (hi : index * 64 < ts.length) :
    ∃ tokens, h.pageAt nodes index = .ok (min 64 (ts.length - index * 64), tokens) ∧
      tokens.take (min 64 (ts.length - index * 64)) = seg (index * 64) 64 ts := by
  have hle := hr.root.le
  have hrows : nodeRows h.level = 2 ^ (5 * h.level) * 64 := by
    rw [nodeRows, Nat.shiftLeft_eq, Nat.mul_comm]
  have hmod : index % 2 ^ (5 * h.level) = index := by
    apply Nat.mod_eq_of_lt
    apply Nat.lt_of_mul_lt_mul_right (a := 64)
    omega
  cases hroot : h.root with
  | none =>
    have hrep := hr.root
    rw [hroot] at hrep
    rw [show ts = [] from hrep] at hi
    cases hi
  | some id =>
    have hrep := hr.root
    rw [hroot] at hrep
    have hpage := pageNode_rep index hrep (by rw [hmod]; exact hi)
    rw [hmod, length_seg] at hpage
    obtain ⟨tokens, hnode, htake⟩ := hpage
    refine ⟨tokens, ?_, htake⟩
    simp only [Exl3TokenHistory.pageAt, hroot, hnode]

theorem HistoryRep.sameTokens_iff (hr : HistoryRep nodes h ts) {h' : Exl3TokenHistory}
    {ts' : List Int} (hr' : HistoryRep nodes h' ts') : h.sameTokens nodes h' = true ↔ ts = ts' := by
  simp only [Exl3TokenHistory.sameTokens, Bool.and_eq_true, decide_eq_true_eq]
  rw [hr.position, hr'.position]
  constructor
  · rintro ⟨hlen, hsame⟩
    have hlevel := hr.level
    rw [hlen] at hlevel
    have heq := hlevel.unique hr'.level
    have hroot' := hr'.root
    rw [← heq] at hroot'
    exact (sameNodes_iff hr.root hroot').mp hsame
  · intro heq
    subst heq
    have hroot' := hr'.root
    rw [← hr.level.unique hr'.level] at hroot'
    exact ⟨rfl, (sameNodes_iff hr.root hroot').mpr rfl⟩

variable {us : List Int} {fuel offset n : Nat}

theorem HistoryRep.equalsFrom (hr : HistoryRep nodes h ts) (hlen : us.length = ts.length)
    (hle : offset ≤ us.length) (hpage : offset % 64 = 0 ∨ offset = us.length)
    (hfuel : us.length ≤ offset + fuel) (hsame : us.take offset = ts.take offset) :
    h.equalsFrom nodes us fuel offset = .ok (decide (us = ts)) := by
  have hend : offset = us.length → us = ts := by
    intro heq
    rw [heq, take_length, hlen, take_length] at hsame
    exact hsame
  induction fuel generalizing offset with
  | zero =>
    have heq : offset = us.length := by omega
    simp [Exl3TokenHistory.equalsFrom, heq, hend heq]
  | succ fuel ih =>
    unfold Exl3TokenHistory.equalsFrom
    split
    · next hlt =>
      have hdiv : offset / 64 * 64 = offset := by omega
      obtain ⟨page, hat, htake⟩ := hr.pageAt (offset / 64) (by omega)
      rw [hdiv] at hat htake
      have hrows : (us.drop offset).take (min 64 (ts.length - offset)) = seg offset 64 us := by
        rw [← hlen]
        exact seg_min_length offset 64 us
      simp only [hat, bind, Except.bind, htake, hrows]
      split
      · next heq =>
        have hnext : us.take (offset + min 64 (ts.length - offset)) =
            ts.take (offset + min 64 (ts.length - offset)) := by
          rw [take_add_seg, take_add_seg, hsame, seg_min_length, ← hlen, seg_min_length, heq]
        refine ih (by omega) (by omega) (by omega) hnext fun hdone => ?_
        rw [hdone, take_length, hlen, take_length] at hnext
        exact hnext
      next hne =>
      have : us ≠ ts := fun heq => hne (by rw [heq])
      simp [this, pure, Except.pure]
    next hge =>
    have heq : offset = us.length := by omega
    simp [heq, hend heq]

theorem HistoryRep.equals (hr : HistoryRep nodes h ts) (us : List Int) :
    h.equals nodes us = .ok (decide (us = ts)) := by
  unfold Exl3TokenHistory.equals
  rw [hr.position]
  split
  · next hne =>
    have : us ≠ ts := fun heq => hne (by rw [heq])
    simp [this]
  next hlen =>
  exact hr.equalsFrom (not_not.mp hlen) (Nat.zero_le _) (.inl rfl) (by omega) rfl

/-- `n` is the length of the longest common prefix. -/
structure LongestCommonPrefix (ts us : List Int) (n : Nat) : Prop where
  le : n ≤ ts.length ∧ n ≤ us.length
  same : ts.take n = us.take n
  longest : ∀ m, m ≤ ts.length → m ≤ us.length → ts.take m = us.take m → m ≤ n

theorem mismatch_le (l l' : List Int) :
    Exl3TokenHistory.mismatch l l' ≤ l.length ∧ Exl3TokenHistory.mismatch l l' ≤ l'.length := by
  fun_induction Exl3TokenHistory.mismatch l l' with
  | case1 xs y ys ih =>
    simp only [length_cons]
    omega
  | case2 => exact ⟨Nat.zero_le _, Nat.zero_le _⟩
  | case3 => exact ⟨Nat.zero_le _, Nat.zero_le _⟩

theorem mismatch_take (l l' : List Int) :
    l.take (Exl3TokenHistory.mismatch l l') = l'.take (Exl3TokenHistory.mismatch l l') := by
  fun_induction Exl3TokenHistory.mismatch l l' with
  | case1 xs y ys ih => rw [take_succ_cons, take_succ_cons, ih]
  | case2 => rfl
  | case3 => rfl

theorem mismatch_ne {l l' : List Int} (h : Exl3TokenHistory.mismatch l l' < l.length)
    (h' : Exl3TokenHistory.mismatch l l' < l'.length) :
    l[Exl3TokenHistory.mismatch l l']? ≠ l'[Exl3TokenHistory.mismatch l l']? := by
  fun_induction Exl3TokenHistory.mismatch l l' with
  | case1 xs y ys ih =>
    simp only [length_cons, Nat.add_lt_add_iff_right] at h h'
    simpa only [getElem?_cons_succ] using ih h h'
  | case2 x xs y ys hne => simpa using hne
  | case3 l l' hnil =>
    cases l with
    | nil => cases h
    | cons x xs =>
      cases l' with
      | nil => cases h'
      | cons y ys => exact absurd rfl (hnil x xs y ys rfl)

theorem LongestCommonPrefix.of_ne {ts us : List Int} (hle : n ≤ ts.length ∧ n ≤ us.length)
    (hsame : ts.take n = us.take n) (hne : ts[n]? ≠ us[n]?) : LongestCommonPrefix ts us n := by
  refine ⟨hle, hsame, fun m _ _ hm => ?_⟩
  by_contra hlt
  apply hne
  have := congrArg (fun l => l[n]?) hm
  simpa only [getElem?_take, if_pos (Nat.lt_of_not_le hlt)] using this

section
variable (hr : HistoryRep nodes h ts)
include hr

theorem HistoryRep.commonPrefixFrom (hle : offset ≤ min us.length ts.length)
    (hpage : offset % 64 = 0 ∨ offset = min us.length ts.length)
    (hfuel : min us.length ts.length ≤ offset + fuel) (hsame : ts.take offset = us.take offset) :
    ∃ n, h.commonPrefixFrom nodes us (min us.length ts.length) fuel offset = .ok n ∧ LongestCommonPrefix ts us n := by
  have hend : offset = min us.length ts.length → LongestCommonPrefix ts us offset := by
    intro heq
    exact ⟨by omega, hsame, fun m h1 h2 _ => by omega⟩
  induction fuel generalizing offset with
  | zero => exact ⟨offset, rfl, hend (by omega)⟩
  | succ fuel ih =>
    unfold Exl3TokenHistory.commonPrefixFrom
    split
    · next hlt =>
      have hdiv : offset / 64 * 64 = offset := by omega
      obtain ⟨page, hat, htake⟩ := hr.pageAt (offset / 64) (by omega)
      rw [hdiv] at hat htake
      simp only [hat, bind, Except.bind]
      generalize hk : min (min 64 (ts.length - offset)) (min us.length ts.length - offset) = rows
      have hrows : page.take rows = seg offset rows ts := by
        have := congrArg (List.take rows) htake
        rw [take_take, Nat.min_eq_left (by omega)] at this
        rw [this, seg, take_take, Nat.min_eq_left (by omega), seg]
      rw [hrows]
      have hmle := mismatch_le (seg offset rows ts) (us.drop offset)
      have hmtake := mismatch_take (seg offset rows ts) (us.drop offset)
      have hmne := @mismatch_ne (seg offset rows ts) (us.drop offset)
      generalize Exl3TokenHistory.mismatch (seg offset rows ts) (us.drop offset) = same at *
      rw [length_seg, length_drop] at hmle
      rw [length_seg, length_drop] at hmne
      -- what the page adds to the common prefix
      have hnext : ts.take (offset + same) = us.take (offset + same) := by
        rw [take_add_seg, take_add_seg, hsame]
        rw [seg, seg, ← hmtake, seg, take_take, Nat.min_eq_left (by omega)]
      split
      · next hstop =>
        refine ⟨offset + same, rfl, LongestCommonPrefix.of_ne (by omega) hnext ?_⟩
        have := hmne (by omega) (by omega)
        rw [getElem?_seg, if_pos hstop, getElem?_drop] at this
        exact this
      next hfull =>
      refine ih (by omega) (by omega) (by omega) hnext fun heq => ?_
      exact ⟨by omega, hnext, fun m h1 h2 _ => by omega⟩
    · next hge => exact ⟨offset, rfl, hend (by omega)⟩

theorem HistoryRep.commonPrefix (us : List Int) :
    ∃ n, h.commonPrefix nodes us = .ok n ∧ LongestCommonPrefix ts us n := by
  simp only [Exl3TokenHistory.commonPrefix, hr.position]
  exact hr.commonPrefixFrom (Nat.zero_le _) (.inl rfl) (by omega) rfl

theorem HistoryRep.suffixFrom {start j : Nat} {result : List Int}
    (hn : j + n = (ts.length + 63) / 64) (hresult : result = (ts.take (j * 64)).drop start) :
    (List.range' j n).foldlM (fun result index => do
        let (rows, page) ← h.pageAt nodes index
        let skip := start - index * 64
        return result ++ (page.take rows).drop skip) result = .ok (ts.drop start) := by
  induction n generalizing j result with
  | zero =>
    rw [range'_zero, foldlM_nil, hresult, take_of_length_le (by omega)]
    rfl
  | succ n ih =>
    obtain ⟨page, hat, htake⟩ := hr.pageAt j (by omega)
    rw [range'_succ, foldlM_cons]
    simp only [hat, bind, Except.bind, htake, pure, Except.pure]
    apply ih (by omega)
    have hnext : (j + 1) * 64 = j * 64 + 64 := by omega
    rw [hresult, hnext, take_add_seg, drop_append, length_take, Nat.min_eq_left (by omega)]

theorem HistoryRep.suffix {first : Int} (h0 : 0 ≤ first)
    (hle : first ≤ h.position) : h.suffix nodes first = .ok (ts.drop first.toNat) := by
  have hpos := hr.position
  have hgood : ¬ (first < 0 ∨ first > h.position) := by omega
  simp only [Exl3TokenHistory.suffix, throwIf, if_neg hgood]
  rw [hr.position]
  have hnil : [] = (ts.take (first.toNat / 64 * 64)).drop first.toNat := by
    apply Eq.symm
    apply drop_eq_nil_of_le
    rw [length_take]
    omega
  exact hr.suffixFrom (by omega) hnil

end

end Observers

/-! ## Runs -/

/-- A store and the histories made in it, each with the tokens appended to get there. -/
structure TokenWorld where
  store : NodeStore
  histories : List (Exl3TokenHistory × List Int)

namespace TokenWorld

/-- Any branching of appends from the empty history. Between two calls the outside may change
    what the next constructions will meet. -/
inductive Run : TokenWorld → Prop
  | start (allocationFaultCountdown : Nat) (refusals : List (Option Exn)) :
      Run { store := { allocationFaultCountdown, refusals }, histories := [({}, [])] }
  | append {w : TokenWorld} {h h' : Exl3TokenHistory} {ts : List Int} {s' : NodeStore}
      (hr : Run w) (hm : (h, ts) ∈ w.histories) (batch : List Int)
      (ha : h.append batch w.store = .ok h' s') :
      Run { store := s', histories := w.histories ++ [(h', ts ++ batch)] }
  | throws {w : TokenWorld} {h : Exl3TokenHistory} {ts : List Int} {s' : NodeStore} {e : Exn}
      (hr : Run w) (hm : (h, ts) ∈ w.histories) (batch : List Int)
      (ha : h.append batch w.store = .error e s') : Run { w with store := s' }
  | environment {w : TokenWorld} (hr : Run w) (allocationFaultCountdown : Nat)
      (refusals : List (Option Exn)) :
      Run { w with store := { w.store with allocationFaultCountdown, refusals } }

def Inv (w : TokenWorld) : Prop :=
  ∀ h ts, (h, ts) ∈ w.histories → HistoryRep w.store.nodes h ts

variable {w : TokenWorld} {s' : NodeStore}

theorem Inv.mono (hi : Inv w) (hn : w.store.nodes <+: s'.nodes) : Inv { w with store := s' } :=
  fun h ts hm => (hi h ts hm).mono hn

theorem Inv.append (hi : Inv w) {h h' : Exl3TokenHistory} {ts : List Int}
    (hm : (h, ts) ∈ w.histories) {batch : List Int} (ha : h.append batch w.store = .ok h' s') :
    Inv { store := s', histories := w.histories ++ [(h', ts ++ batch)] } := by
  obtain ⟨hgrew, -, hrep⟩ := wp_ok (wp_append (hi h ts hm) batch) ha
  intro g us hg
  rcases mem_append.mp hg with hg | hg
  · exact (hi g us hg).mono hgrew.nodes
  obtain ⟨rfl, rfl⟩ := Prod.mk.inj (mem_singleton.mp hg)
  exact hrep

theorem Run.inv (hr : Run w) : Inv w := by
  induction hr with
  | start =>
    intro h ts hm
    obtain ⟨rfl, rfl⟩ := Prod.mk.inj (mem_singleton.mp hm)
    exact HistoryRep.empty _
  | append _ hm batch ha ih => exact ih.append hm ha
  | throws _ hm batch ha ih => exact ih.mono (wp_error (wp_append (ih _ _ hm) batch) ha).1
  | environment _ _ _ ih => exact ih

/-- Every observer of every history answers as the history's token list does. -/
def AnswersAsLists (w : TokenWorld) : Prop :=
  ∀ h ts, (h, ts) ∈ w.histories →
    h.position = ts.length ∧
    (∀ first : Int, 0 ≤ first → first ≤ h.position →
      h.suffix w.store.nodes first = .ok (ts.drop first.toNat)) ∧
    (∀ us, h.equals w.store.nodes us = .ok (decide (us = ts))) ∧
    (∀ h' ts', (h', ts') ∈ w.histories → (h.sameTokens w.store.nodes h' = true ↔ ts = ts')) ∧
    (∀ us, ∃ n, h.commonPrefix w.store.nodes us = .ok n ∧ LongestCommonPrefix ts us n) ∧
    h.fingerprint = extendFingerprint 1469598103934665603 ts

theorem Inv.answersAsLists (hi : Inv w) : AnswersAsLists w := by
  intro h ts hm
  have hr := hi h ts hm
  exact ⟨hr.position, fun _ h0 hle => hr.suffix h0 hle, hr.equals,
    fun h' ts' hm' => hr.sameTokens_iff (hi h' ts' hm'), hr.commonPrefix, hr.fingerprint⟩

/-- In every reachable world each history answers as its token list, and so it does after
    every append to any of them: one that returns adds a history of the longer list, one that
    throws adds nothing. A batch within the limits throws only when a construction fails. -/
theorem token_history_refines_list {w : TokenWorld} (hr : Run w) :
    AnswersAsLists w ∧
    ∀ h ts batch, (h, ts) ∈ w.histories →
      match h.append batch w.store with
      | .ok h' s' => h.Accepts batch ∧
          AnswersAsLists { store := s', histories := w.histories ++ [(h', ts ++ batch)] }
      | .error _ s' => (h.Accepts batch → ¬ w.store.Quiet) ∧ AnswersAsLists { w with store := s' } := by
  have hi := hr.inv
  refine ⟨hi.answersAsLists, fun h ts batch hm => ?_⟩
  have hw := wp_append (hi h ts hm) batch
  split
  · next h' s' ha =>
    obtain ⟨-, hacc, -⟩ := wp_ok hw ha
    exact ⟨hacc, (hi.append hm ha).answersAsLists⟩
  next e s' ha =>
  obtain ⟨hnodes, hthrow⟩ := wp_error hw ha
  exact ⟨hthrow, (hi.mono hnodes).answersAsLists⟩

/-- The history `[5, 7]` and a fork of it that failed to get a third token. -/
def sampleWorld : TokenWorld :=
  { store := { nodes := [.page 2 (copyInto emptyPage [5, 7] 0)] }
    histories := [({}, []),
      ({ root := some 0, position := 2
         fingerprint := extendFingerprint 1469598103934665603 [5, 7] }, [5, 7])] }

theorem sampleWorld_run : Run sampleWorld := by
  have h1 : Run { sampleWorld with
      store := { sampleWorld.store with allocationFaultCountdown := 0, refusals := [] } } :=
    Run.append (Run.start 0 []) (mem_singleton.mpr rfl) [5, 7] rfl
  have h2 := Run.environment h1 1 []
  exact Run.throws h2 (mem_cons_of_mem _ (mem_singleton.mpr rfl)) [9] rfl

theorem token_history_refines_list_sample : Run sampleWorld ∧ AnswersAsLists sampleWorld :=
  ⟨sampleWorld_run, (token_history_refines_list sampleWorld_run).1⟩

end TokenWorld
end VoidInfer.Exl3
