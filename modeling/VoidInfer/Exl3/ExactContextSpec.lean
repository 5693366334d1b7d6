import Mathlib.Data.List.TakeDrop
import VoidInfer.Exl3.ExactContext

/-
  What each call of the exact context does, as rules for `wp`. Between forwards a context is `Settled` after some
  tokens; after a block forward it is a `Block`. A call of such a context throws only where the machine says so, and
  then the transaction is what it was (`Threw`).
-/

namespace VoidInfer.Exl3.Outer
open List

open Throwing

variable {m : Machine} {c c' : Context} {tokens base ts : List Int} {tx : Option Snapshot}
  {P : Option Snapshot → Prop} {root : HostState}

/-- Some call of this machine throws. -/
def Machine.Failing (m : Machine) : Prop := ∃ n e, m.fails n = some e

/-- A call threw; the transaction satisfies `P`. -/
def Threw (m : Machine) (P : Option Snapshot → Prop) : Exn → Context → Prop :=
  fun _ c => m.Failing ∧ P c.transaction

/-- The logits are those after the tokens. -/
structure Settled (c : Context) (l : List Int) (tx : Option Snapshot) : Prop where
  tokens : c.tokens = l
  head : c.head = l
  rows : c.rows = []
  transaction : c.transaction = tx
  torn : c.torn = false

/-- The block `ts` was run after `base`, all of it a chain. -/
structure Block (c : Context) (b ts : List Int) (tx : Option Snapshot) : Prop where
  base : c.base = b
  rows : c.rows = Machine.layoutRows ts []
  tokens : c.tokens = b ++ ts
  head : c.head = b ++ ts
  transaction : c.transaction = tx
  torn : c.torn = false
  tapRows : c.tapRows = ts.length

/-- Only time has passed. -/
def Same (c c' : Context) : Prop := ∃ n, c' = { c with clock := n }

theorem Same.refl (c : Context) : Same c c := ⟨c.clock, rfl⟩

theorem Settled.same (h : Settled c tokens tx) (hc : Same c c') : Settled c' tokens tx := by
  obtain ⟨n, rfl⟩ := hc
  exact ⟨h.tokens, h.head, h.rows, h.transaction, h.torn⟩

theorem Block.same (h : Block c base ts tx) (hc : Same c c') : Block c' base ts tx := by
  obtain ⟨n, rfl⟩ := hc
  exact ⟨h.base, h.rows, h.tokens, h.head, h.transaction, h.torn, h.tapRows⟩

variable {Q : Unit → Context → Prop}

/-! ## Calls -/

theorem wp_attempt {f : Context → Context} (hP : P c.transaction)
    (hQ : Q () { f c with clock := (f c).clock + 1 }) : wp (m.attempt f) Q (Threw m P) c := by
  unfold wp Machine.attempt
  cases hfail : m.fails c.clock with
  | some e => exact ⟨⟨_, e, hfail⟩, hP⟩
  | none => exact hQ

theorem wp_attemptIntact {f : Context → Context} (hP : P c.transaction)
    (hQ : Q () { f c with clock := (f c).clock + 1 }) : wp (m.attemptIntact f) Q (Threw m P) c := by
  unfold wp Machine.attemptIntact
  cases hfail : m.fails c.clock with
  | some e => exact ⟨⟨_, e, hfail⟩, hP⟩
  | none => exact hQ

theorem wp_read (hP : P c.transaction) (hQ : ∀ c', Same c c' → Q () c') : wp m.observe Q (Threw m P) c :=
  wp_attemptIntact hP (hQ _ ⟨_, rfl⟩)

theorem wp_requireTrue {condition : Context → Prop} [DecidablePred condition] {what : String}
    {E : Exn → Context → Prop} (hc : condition c) (hQ : Q () c) :
    wp (Machine.require condition what) Q E c := by
  refine wp_ofExcept.mpr ⟨fun _ _ => hQ, fun e he => ?_⟩
  rw [throwIf_neg (fun hnot => hnot hc)] at he
  cases he

theorem wp_restore (hnone : c.transaction = none) (hP : P none) (hQ : ∀ c', Settled c' root.tokens none → Q () c') :
    wp (m.restoreExactHostState root) Q (Threw m P) c := by
  simp only [Machine.restoreExactHostState, wp_bind]
  refine wp_requireTrue hnone (wp_attempt (by rw [hnone]; exact hP) (hQ _ ?_))
  exact ⟨rfl, rfl, rfl, rfl, rfl⟩

theorem wp_branchGreedy {Q : Int → Context → Prop} (h : Settled c tokens tx) (hP : P tx)
    (hQ : ∀ c', Same c c' → Q (m.next tokens) c') : wp m.branchGreedy Q (Threw m P) c := by
  simp only [Machine.branchGreedy, wp_bind]
  refine wp_read (h.transaction ▸ hP) fun c' hc => ?_
  simp only [wp_get, wp_pure]
  rw [(h.same hc).head]
  exact hQ c' hc

theorem wp_decode {token : Int} (htokens : c.tokens = tokens)
    (htx : c.transaction = tx) (htorn : c.torn = false) (hP : P tx)
    (hQ : ∀ c', Settled c' (tokens ++ [token]) tx → c'.tapRows = 1 → Q () c') :
    wp (m.decode token) Q (Threw m P) c := by
  refine wp_attempt (htx ▸ hP) (hQ _ ?_ rfl)
  exact ⟨by simp [Context.put, htokens], by simp [Context.put, htokens], rfl, htx, htorn⟩

/-! ## Blocks -/

theorem length_layoutRows : (Machine.layoutRows ts []).length = ts.length := by
  simp [Machine.layoutRows]

theorem layoutRows_getElem? (i : Nat) :
    (Machine.layoutRows ts [])[i]? = ts[i]?.map fun token => ⟨ts.take i, token⟩ := by
  simp [Machine.layoutRows]

theorem layoutRows_path {i : Nat} (hi : i < ts.length) :
    ((Machine.layoutRows ts [])[i]?.elim [] Row.path) = ts.take (i + 1) := by
  rw [layoutRows_getElem?, getElem?_eq_getElem hi]
  exact take_append_getElem hi

theorem layoutRows_take {n : Nat} : (Machine.layoutRows ts []).take n = Machine.layoutRows (ts.take n) [] := by
  apply ext_getElem?
  intro i
  by_cases hi : i < n
  · rw [getElem?_take_of_lt hi, layoutRows_getElem?, layoutRows_getElem?, getElem?_take_of_lt hi,
      take_take, Nat.min_eq_left (Nat.le_of_lt hi)]
  rw [getElem?_eq_none (by simp [length_layoutRows]; omega), getElem?_eq_none (by simp [length_layoutRows]; omega)]

theorem layoutRows_tokens : (Machine.layoutRows ts []).map Row.token = ts := by
  apply ext_getElem?
  intro i
  rw [getElem?_map, layoutRows_getElem?, Option.map_map]
  exact Option.map_id'

theorem wp_continueRows (h : Settled c tokens tx) (hne : tokens ≠ [])
    (hlen : 2 ≤ ts.length ∧ ts.length ≤ m.capacity) (hvocab : ∀ token ∈ ts, InVocabulary token)
    (hP : P tx)
    (hQ : ∀ c', Block c' tokens ts tx → c'.prefixAvailable = (tx.isSome && c.fresh) → Q () c') :
    wp (m.continueRows ts []) Q (Threw m P) c := by
  simp only [Machine.continueRows, wp_bind]
  refine wp_requireTrue (by rw [h.tokens]; exact hne) ?_
  refine wp_requireTrue hlen (wp_requireTrue hvocab (wp_requireTrue (.inl rfl) ?_))
  refine wp_ofExcept.mpr ⟨fun _ _ => ?_, fun e he => ?_⟩
  · refine wp_attempt (h.transaction ▸ hP) (hQ _ ?_ ?_)
    · have hlast : ts.length - 1 < ts.length := by omega
      have hrows : Machine.layoutRows (ts.take (ts.length - 0)) (List.zip [] (ts.drop (ts.length - 0))) =
          Machine.layoutRows ts [] := by simp
      have hpath : ((Machine.layoutRows ts []).getLast?.elim [] Row.path) = ts := by
        rw [getLast?_eq_getElem?, length_layoutRows, layoutRows_path hlast]
        exact take_of_length_le (by omega)
      refine ⟨h.tokens, ?_, ?_, ?_, h.transaction, h.torn, rfl⟩
      · exact hrows
      · exact congrArg (· ++ ts) h.tokens
      · show c.tokens ++ _ = _
        simp only [length_nil, hrows, hpath, h.tokens]
    · rw [h.transaction]
  cases he

theorem wp_finish (h : Block c base ts none) (hne : ts ≠ []) (hP : P none)
    (hQ : ∀ c', Settled c' (base ++ ts) none → Q () c') :
    wp m.finishExactContinuation Q (Threw m P) c := by
  simp only [Machine.finishExactContinuation, wp_bind]
  refine wp_requireTrue ⟨h.transaction, ?_, ?_⟩ (wp_attempt (h.transaction ▸ hP) (hQ _ ?_))
  · intro hnil
    have := congrArg List.length (h.rows.symm.trans hnil)
    rw [length_layoutRows] at this
    exact hne (length_eq_zero_iff.mp this)
  · rw [h.tapRows, h.rows, length_layoutRows]
  · exact ⟨h.tokens, h.head, rfl, h.transaction, h.torn⟩

/-! ## Transactions -/

theorem wp_begin (h : Settled c tokens none) (hprepared : m.prepared = true) (hne : tokens ≠ []) (hP : P none)
    (hQ : ∀ c', Settled c' tokens (some ⟨tokens, tokens, c.tapRows⟩) → c'.fresh = true → Q () c') :
    wp m.beginTransaction Q (Threw m P) c := by
  simp only [Machine.beginTransaction, wp_bind]
  refine wp_requireTrue ⟨hprepared, h.transaction⟩ (wp_requireTrue (by rw [h.tokens]; exact hne) ?_)
  refine wp_attemptIntact (h.transaction ▸ hP) (hQ _ ⟨h.tokens, h.head, h.rows, ?_, h.torn⟩ rfl)
  show some _ = some _
  rw [h.tokens, h.head]

theorem wp_retain {n : Nat} (h : Block c base ts tx) (htx : tx ≠ none)
    (havailable : c.prefixAvailable = true) (hpos : 0 < n) (hle : n ≤ ts.length) (hP : P tx)
    (hQ : ∀ c', Block c' base (ts.take n) tx → Q () c') :
    wp (m.retainTransactionPrefix n) Q (Threw m P) c := by
  have hrows : c.rows.length = ts.length := by rw [h.rows, length_layoutRows]
  simp only [Machine.retainTransactionPrefix, wp_bind]
  refine wp_requireTrue ⟨by rw [h.transaction]; exact htx, havailable⟩ (wp_requireTrue ⟨hpos, by omega⟩ ?_)
  refine wp_attempt (h.transaction ▸ hP) (hQ _ ?_)
  split
  · have htake : ts.take n = ts := take_of_length_le (by omega)
    rw [htake]
    exact ⟨h.base, h.rows, h.tokens, h.head, h.transaction, h.torn, h.tapRows⟩
  have hlt : n - 1 < ts.length := by omega
  have hpath := layoutRows_path hlt
  rw [Nat.sub_add_cancel hpos] at hpath
  refine ⟨h.base, ?_, ?_, ?_, h.transaction, h.torn, ?_⟩
  · show c.rows.take n = _
    rw [h.rows, layoutRows_take]
  · show c.base ++ (c.rows.take n).map Row.token = _
    rw [h.base, h.rows, layoutRows_take, layoutRows_tokens]
  · show c.base ++ (c.rows[n - 1]?.elim [] Row.path) = _
    rw [h.base, h.rows, hpath]
  · show n = _
    rw [length_take, Nat.min_eq_left hle]

theorem wp_rollback {saved : Snapshot} (h : c.transaction = some saved)
    (hhead : saved.head = saved.tokens) (hP : P (some saved))
    (hQ : ∀ c', Settled c' saved.tokens none → Q () c') :
    wp m.rollbackTransaction Q (Threw m P) c := by
  simp only [Machine.rollbackTransaction, wp_bind]
  refine wp_requireTrue (by simp [h]) (wp_attempt (h ▸ hP) (hQ _ ?_))
  simp only [h]
  exact ⟨rfl, hhead, rfl, rfl, rfl⟩

theorem wp_commit (htx : c.transaction ≠ none) (hP : P c.transaction)
    (hQ : ∀ c', c'.tokens = c.tokens → c'.head = c.head → c'.base = c.base → c'.rows = c.rows →
      c'.tapRows = c.tapRows → c'.torn = c.torn → c'.transaction = none → Q () c') :
    wp m.commitTransaction Q (Threw m P) c := by
  simp only [Machine.commitTransaction, wp_bind]
  exact wp_requireTrue htx (wp_attempt hP (hQ _ rfl rfl rfl rfl rfl rfl rfl))

theorem wp_commitSettled (h : Settled c tokens tx) (htx : tx ≠ none) (hP : P tx)
    (hQ : ∀ c', Settled c' tokens none → Q () c') : wp m.commitTransaction Q (Threw m P) c := by
  refine wp_commit (by rw [h.transaction]; exact htx) (h.transaction ▸ hP)
    fun c' ht hh _ hr _ htorn hnone => hQ c' ⟨ht.trans h.tokens, hh.trans h.head, hr.trans h.rows, hnone, htorn.trans h.torn⟩

theorem wp_commitBlock (h : Block c base ts tx) (htx : tx ≠ none) (hP : P tx)
    (hQ : ∀ c', Block c' base ts none → Q () c') : wp m.commitTransaction Q (Threw m P) c := by
  refine wp_commit (by rw [h.transaction]; exact htx) (h.transaction ▸ hP)
    fun c' ht hh hb hr htap htorn hnone => hQ c' ⟨hb.trans h.base, hr.trans h.rows, ht.trans h.tokens,
      hh.trans h.head, hnone, htorn.trans h.torn, htap.trans h.tapRows⟩

theorem wp_export {Q : List Int × List Int → Context → Prop} (h : Settled c tokens none)
    (hne : tokens ≠ []) (hP : P none) (hQ : ∀ c', Settled c' tokens none → Q (tokens, tokens) c') :
    wp m.exportExactHostState Q (Threw m P) c := by
  simp only [Machine.exportExactHostState, wp_bind]
  refine wp_requireTrue ⟨h.transaction, h.rows, by rw [h.tokens]; exact hne⟩ ?_
  refine wp_read (h.transaction ▸ hP) fun c' hc => ?_
  simp only [wp_get, wp_pure]
  rw [(h.same hc).tokens, (h.same hc).head]
  exact hQ c' (h.same hc)

end VoidInfer.Exl3.Outer
