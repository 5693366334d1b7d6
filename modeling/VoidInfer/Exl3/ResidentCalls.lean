import VoidInfer.Exl3.ResidentSet

/-
  What the calls into the operating system do to the machine, whatever they answer. Queries and accounting leave
  everything but the answers to come (`Quiet`); unlocking only takes locks away, and only from the pages named
  (`Weaker`); the lock loop only adds locks, and only on chunks that are completed or attempted (`Locking`). From these,
  `releasePartial` and `rollback` take back exactly what was locked, or throw.
-/

namespace VoidInfer.Exl3
open List

open Throwing

/-! ## Pages and ranges -/

/-- Page `p` has an address in one of the ranges. -/
def PageIn (page : Nat) (ranges : List ResidentRange) (p : Nat) : Prop :=
  ∃ r ∈ ranges, touches page r p = true

/-- Both ends of every range are page boundaries. -/
def Aligned (page : Nat) (ranges : List ResidentRange) : Prop := Ends (page ∣ ·) ranges

theorem touches_mul {page : Nat} (h : 0 < page) (a b p : Nat) :
    touches page (a * page, b * page) p = true ↔ a ≤ p ∧ p < b := by
  simp only [touches, decide_eq_true_eq, Nat.mul_lt_mul_right h]
  omega

variable {r : ResidentRange}

theorem aligned_eq {page : Nat} (h : page ∣ r.1 ∧ page ∣ r.2) : ∃ a b, r = (a * page, b * page) := by
  obtain ⟨⟨a, ha⟩, b, hb⟩ := h
  exact ⟨a, b, Prod.ext (ha.trans (Nat.mul_comm _ _)) (hb.trans (Nat.mul_comm _ _))⟩

theorem touches_aligned {page : Nat} (h : 0 < page) (hr : page ∣ r.1 ∧ page ∣ r.2) (p : Nat) :
    touches page r p = true ↔ r.1 ≤ p * page ∧ p * page < r.2 := by
  obtain ⟨a, b, rfl⟩ := aligned_eq hr
  simp only [touches_mul h, Nat.mul_le_mul_right_iff h, Nat.mul_lt_mul_right h]

theorem pageIn_iff_covers {page : Nat} (h : 0 < page) {ranges : List ResidentRange}
    (ha : Aligned page ranges) (p : Nat) : PageIn page ranges p ↔ Covers ranges (p * page) := by
  constructor
  · rintro ⟨r, hr, ht⟩
    exact ⟨r, hr, (touches_aligned h (ha r hr) p).mp ht⟩
  · rintro ⟨r, hr, ht⟩
    exact ⟨r, hr, (touches_aligned h (ha r hr) p).mpr ht⟩

/-! ## Calls that change nothing -/

/-- Only the answers to come and the last error differ. -/
def Quiet (m m' : Machine) : Prop :=
  ∃ replies lastError, m' = { m with os.replies := replies, os.lastError := lastError }

theorem Quiet.refl (m : Machine) : Quiet m m := ⟨_, _, rfl⟩

variable {m m₁ m₂ m' m₀ : Machine}

theorem Quiet.trans (h : Quiet m m₁) (h' : Quiet m₁ m₂) : Quiet m m₂ := by
  obtain ⟨_, _, rfl⟩ := h
  obtain ⟨replies, lastError, rfl⟩ := h'
  exact ⟨replies, lastError, rfl⟩

/-- `x` changes nothing, whether it returns or throws. -/
def Quietly {α : Type} (x : Exec α) : Prop := ∀ m, wp x (fun _ => Quiet m) (fun _ => Quiet m) m

variable {α β : Type}

variable {E : Exn → Machine → Prop}

theorem Quietly.use {x : Exec α} (h : Quietly x) {Q : α → Machine → Prop} (hQ : ∀ a m', Quiet m m' → Q a m')
    (hE : ∀ e m', Quiet m m' → E e m') : wp x Q E m := wp_mono (h m) hQ hE

theorem quietly_pure (a : α) : Quietly (pure a) := fun m => Quiet.refl m

theorem quietly_throw (e : Exn) : Quietly (throw e : Exec α) := fun m => Quiet.refl m

theorem quietly_get : Quietly (get : Exec Machine) := fun m => Quiet.refl m

theorem Quietly.bind {x : Exec α} {f : α → Exec β} (h : Quietly x) (hf : ∀ a, Quietly (f a)) : Quietly (x >>= f) := by
  intro m
  rw [wp_bind]
  exact h.use (fun a m₁ h₁ => (hf a).use (fun _ _ h₂ => h₁.trans h₂) fun _ _ h₂ => h₁.trans h₂) fun _ _ h₁ => h₁

theorem quietly_foldlM {f : β → α → Exec β} (h : ∀ b a, Quietly (f b a)) (l : List α) (b : β) :
    Quietly (l.foldlM f b) := by
  induction l generalizing b with
  | nil => exact quietly_pure b
  | cons a l ih =>
    exact (h b a).bind ih

theorem quietly_ofExcept (r : Except Exn α) : Quietly (MonadExcept.ofExcept r : Exec α) :=
  fun m => wp_ofExcept.mpr ⟨fun _ _ => Quiet.refl m, fun _ _ => Quiet.refl m⟩

theorem quietly_check (bad : Prop) [Decidable bad] (e : Exn) : Quietly (check bad e) :=
  quietly_ofExcept _

theorem quietly_reply : Quietly reply := by
  intro m
  simp only [reply, wp_bind, wp_get, wp_modify]
  split
  · exact ⟨m.os.replies.tail, m.os.lastError, rfl⟩
  · exact ⟨m.os.replies.tail, _, rfl⟩

theorem wp_reply {Q : Reply → Machine → Prop} (h : ∀ a m', Quiet m m' → Q a m') : wp reply Q E m := by
  simp only [reply, wp_bind, wp_get, wp_modify]
  split
  · exact h _ _ ⟨m.os.replies.tail, m.os.lastError, rfl⟩
  · exact h _ _ ⟨m.os.replies.tail, _, rfl⟩

theorem quietly_osError (operation : String) : Quietly (osError operation : Exec α) :=
  quietly_get.bind fun _ => quietly_throw _

theorem wp_osError {operation : String} {Q : α → Machine → Prop}
    (h : ∀ e, E e m) : wp (osError operation : Exec α) Q E m := h _

theorem quietly_callBack (callback : Option Exn) : Quietly (callBack callback) := by
  cases callback with
  | none => exact quietly_pure ()
  | some e => exact quietly_throw e

theorem quietly_accounting : Quietly accounting := quietly_reply.bind fun _ => quietly_callBack _

theorem quietly_queryWorkingSetEx (pages : List Nat) : Quietly (queryWorkingSetEx pages) := by
  refine quietly_reply.bind fun a => quietly_get.bind fun m => ?_
  split
  · exact quietly_pure _
  · exact quietly_pure _

theorem quietly_query {callback : β → Record → Exec β} (h : ∀ b record, Quietly (callback b record))
    (r : ResidentRange) (b : β) : Quietly (query r callback b) := by
  refine quietly_get.bind fun m => ?_
  have hbatches : ∀ fuel pages b, Quietly (queryBatches callback fuel pages b) := by
    intro fuel
    induction fuel with
    | zero => exact fun _ b => quietly_pure b
    | succ fuel ih =>
      intro pages b
      unfold queryBatches
      split
      · exact quietly_pure b
      refine (quietly_queryWorkingSetEx _).bind fun records => ?_
      cases records with
      | none => exact quietly_osError _
      | some records => exact (quietly_foldlM h records b).bind fun b => ih _ b
  exact hbatches _ _ b

theorem quietly_checkReserve (missing : Nat) : Quietly (checkReserve missing) := by
  refine quietly_reply.bind fun a => quietly_get.bind fun m => ?_
  split
  · exact quietly_osError _
  · exact quietly_check _ _

theorem quietly_preflight (added : List ResidentRange) : Quietly (preflight added) := by
  refine quietly_foldlM (fun missing r => quietly_get.bind fun m => ?_) added 0
  exact quietly_query (fun b record => (quietly_check _ _).bind fun _ => quietly_pure _) r missing

theorem quietly_witnessChunk (missing : Nat) (callback : Option Exn) (chunk : ResidentRange) :
    Quietly (witnessChunk missing callback chunk) := by
  refine (quietly_query (fun _ _ => quietly_check _ _) chunk ()).bind fun _ => ?_
  refine Quietly.bind ?_ fun _ => quietly_callBack callback
  split
  · exact quietly_checkReserve 0
  · exact quietly_pure ()

/-! ## Unlocking -/

/-- Only locks on the pages of `S` went, and none came. -/
def Weaker (S : Nat → Prop) (m m' : Machine) : Prop :=
  ∃ locked replies lastError,
    m' = { m with os.locked := locked, os.replies := replies, os.lastError := lastError } ∧
    (∀ p, locked p = true → m.os.locked p = true) ∧ ∀ p, ¬ S p → locked p = m.os.locked p

theorem Quiet.weaker (h : Quiet m m') (S : Nat → Prop) : Weaker S m m' := by
  obtain ⟨replies, lastError, rfl⟩ := h
  exact ⟨m.os.locked, replies, lastError, rfl, fun _ h => h, fun _ _ => rfl⟩

variable {S : Nat → Prop}

theorem Weaker.trans (h : Weaker S m m₁) (h' : Weaker S m₁ m₂) : Weaker S m m₂ := by
  obtain ⟨_, _, _, rfl, h1, h2⟩ := h
  obtain ⟨locked, replies, lastError, rfl, h3, h4⟩ := h'
  exact ⟨locked, replies, lastError, rfl, fun p hp => h1 p (h3 p hp), fun p hp => (h4 p hp).trans (h2 p hp)⟩

theorem Weaker.mono {S S' : Nat → Prop} (h : Weaker S m m') (hS : ∀ p, S p → S' p) : Weaker S' m m' := by
  obtain ⟨locked, replies, lastError, rfl, h1, h2⟩ := h
  exact ⟨locked, replies, lastError, rfl, h1, fun p hp => h2 p fun h => hp (hS p h)⟩

theorem Weaker.page (h : Weaker S m m') : m'.os.page = m.os.page := by
  obtain ⟨_, _, _, rfl, -, -⟩ := h
  rfl

theorem Weaker.le (h : Weaker S m m') {p : Nat} (hp : m'.os.locked p = true) : m.os.locked p = true := by
  obtain ⟨_, _, _, rfl, h1, -⟩ := h
  exact h1 p hp

theorem Weaker.keep (h : Weaker S m m') {p : Nat} (hp : ¬ S p) : m'.os.locked p = m.os.locked p := by
  obtain ⟨_, _, _, rfl, -, h2⟩ := h
  exact h2 p hp

theorem Weaker.unlocked (h : Weaker S m m') {p : Nat} (hp : m.os.locked p = false) : m'.os.locked p = false := by
  by_contra hne
  rw [Bool.not_eq_false] at hne
  exact absurd (h.le hne) (by simp [hp])

theorem wp_virtualUnlock :
    wp (virtualUnlock r) (fun ok m' => Weaker (fun p => touches m.os.page r p = true) m m' ∧
      (ok = true → ∀ p, touches m.os.page r p = true → m'.os.locked p = false)) E m := by
  simp only [virtualUnlock, wp_bind, wp_modify, wp_pure]
  refine wp_reply fun a m' h => ?_
  obtain ⟨replies, lastError, rfl⟩ := h
  refine ⟨⟨_, replies, lastError, rfl, fun p hp => ?_, fun p hp => ?_⟩, fun hok p hp => ?_⟩
  · simp only [unlockPages, Bool.and_eq_true] at hp
    exact hp.1
  · simp [unlockPages, Bool.not_eq_true _ ▸ hp]
  · simp [unlockPages, hp, hok]

theorem wp_unlockAll (operation : String) (l : List ResidentRange) (m : Machine) :
    wp (l.forM (unlockOrThrow operation))
      (fun _ m' => Weaker (PageIn m.os.page l) m m' ∧ ∀ p, PageIn m.os.page l p → m'.os.locked p = false)
      (fun _ => Weaker (PageIn m.os.page l) m) m := by
  induction l generalizing m with
  | nil => exact ⟨(Quiet.refl m).weaker _, by simp [PageIn]⟩
  | cons r l ih =>
    have hhead : ∀ m', Weaker (fun p => touches m.os.page r p = true) m m' →
        Weaker (PageIn m.os.page (r :: l)) m m' := fun m' h =>
      h.mono fun p hp => ⟨r, by simp, hp⟩
    have htail : ∀ m₁ m₂, m₁.os.page = m.os.page → Weaker (PageIn m₁.os.page l) m₁ m₂ →
        Weaker (PageIn m.os.page (r :: l)) m₁ m₂ := by
      intro m₁ m₂ hpage h
      rw [hpage] at h
      exact h.mono fun p ⟨q, hq, hp⟩ => ⟨q, by simp [hq], hp⟩
    show wp (unlockOrThrow operation r >>= fun _ => l.forM _) _ _ _
    simp only [unlockOrThrow, wp_bind]
    refine wp_imp wp_virtualUnlock fun ok m₁ ⟨h1, h2⟩ => ?_
    split
    · next hok =>
      rw [wp_pure]
      refine wp_mono (ih m₁) (fun _ m₂ ⟨h3, h4⟩ => ⟨(hhead m₁ h1).trans (htail m₁ m₂ h1.page h3), ?_⟩)
        fun _ m₂ h3 => (hhead m₁ h1).trans (htail m₁ m₂ h1.page h3)
      rintro p ⟨q, hq, hp⟩
      rcases mem_cons.mp hq with rfl | hq
      · exact h3.unlocked (h2 hok p hp)
      · exact h4 p ⟨q, hq, by rw [h1.page]; exact hp⟩
    · exact wp_osError fun _ => hhead m₁ h1

/-! ## Taking back a partial lock -/

/-- `release_partial` has seen the pages from `a` up to `i`: none of them is locked, but for
    those of the run `pending`, which ends at page `i`. -/
def Released (page a : Nat) (locked : Nat → Bool) (i : Nat) : Option ResidentRange → Prop
  | none => ∀ p, a ≤ p → p < i → locked p = false
  | some r => ∃ k, a ≤ k ∧ k < i ∧ r = (k * page, i * page) ∧ ∀ p, a ≤ p → p < k → locked p = false

variable {pending : Option ResidentRange}

theorem wp_flush {a b i : Nat} (hpage : 0 < m.os.page) (hi : i ≤ b) (h : Released m.os.page a m.os.locked i pending) :
    wp (flush pending)
      (fun out m' => Weaker (fun p => a ≤ p ∧ p < b) m m' ∧ out = none ∧ ∀ p, a ≤ p → p < i → m'.os.locked p = false)
      (fun _ => Weaker (fun p => a ≤ p ∧ p < b) m) m := by
  cases pending with
  | none => exact ⟨(Quiet.refl m).weaker _, rfl, h⟩
  | some r =>
    obtain ⟨k, hak, hki, rfl, hdone⟩ := h
    have hrun : ∀ p, touches m.os.page (k * m.os.page, i * m.os.page) p = true ↔ k ≤ p ∧ p < i :=
      touches_mul hpage k i
    simp only [flush, wp_bind]
    refine wp_imp wp_virtualUnlock fun ok m₁ ⟨h1, h2⟩ => ?_
    have hw : Weaker (fun p => a ≤ p ∧ p < b) m m₁ := h1.mono fun p hp => by
      have := (hrun p).mp hp
      omega
    split
    · next hok =>
      refine ⟨hw, rfl, fun p hp hpi => ?_⟩
      rcases Nat.lt_or_ge p k with hlt | hge
      · exact h1.unlocked (hdone p hp hlt)
      · exact h2 hok p ((hrun p).mpr ⟨hge, hpi⟩)
    · exact wp_osError fun _ => hw

theorem wp_releasePartialStep {a b i : Nat} {record : Record} (hpage : 0 < m.os.page) (ha : a ≤ i) (hi : i < b)
    (h : Released m.os.page a m.os.locked i pending) (hrec : record.page = i)
    (hflag : record.locked = false → m.os.locked i = false) :
    wp (releasePartialStep m.os.page pending record)
      (fun out m' => Weaker (fun p => a ≤ p ∧ p < b) m m' ∧ Released m.os.page a m'.os.locked (i + 1) out)
      (fun _ => Weaker (fun p => a ≤ p ∧ p < b) m) m := by
  unfold releasePartialStep
  split
  · refine ⟨(Quiet.refl m).weaker _, ?_⟩
    rw [hrec]
    -- the run goes on, or starts here
    cases pending with
    | none => exact ⟨i, ha, by omega, by simp [Nat.succ_mul], h⟩
    | some r =>
      obtain ⟨k, hak, hki, rfl, hdone⟩ := h
      exact ⟨k, hak, by omega, by simp [Nat.succ_mul], hdone⟩
  next hlocked =>
  refine wp_imp (wp_flush hpage (Nat.le_of_lt hi) h) fun out m' ⟨h1, h2, h3⟩ => ⟨h1, ?_⟩
  subst h2
  intro p hp hpi
  rcases Nat.lt_or_ge p i with hlt | hge
  · exact h3 p hp hlt
  obtain rfl : p = i := by omega
  exact h1.unlocked (hflag (by simpa using hlocked))

theorem wp_releaseRecords {a b i n : Nat} {f : Nat → Record} (hpage : 0 < m.os.page) (ha : a ≤ i) (hi : i + n ≤ b)
    (h : Released m.os.page a m.os.locked i pending) (hrec : ∀ p, (f p).page = p)
    (hflag : ∀ p, (f p).locked = false → m.os.locked p = false) :
    wp (((List.range' i n).map f).foldlM (releasePartialStep m.os.page) pending)
      (fun out m' => Weaker (fun p => a ≤ p ∧ p < b) m m' ∧ Released m.os.page a m'.os.locked (i + n) out)
      (fun _ => Weaker (fun p => a ≤ p ∧ p < b) m) m := by
  induction n generalizing i m pending with
  | zero => exact ⟨(Quiet.refl m).weaker _, h⟩
  | succ n ih =>
    rw [range'_succ, map_cons, foldlM_cons, wp_bind]
    refine wp_imp (wp_releasePartialStep hpage ha (by omega) h (hrec i) (hflag i)) fun out m₁ ⟨h1, h2⟩ => ?_
    rw [← h1.page] at hpage h2 ⊢
    have hflag₁ : ∀ p, (f p).locked = false → m₁.os.locked p = false := fun p hp =>
      h1.unlocked (hflag p hp)
    refine wp_mono (ih hpage (by omega) (by omega) h2 hflag₁)
      (fun out m₂ ⟨h3, h4⟩ => ⟨h1.trans h3, ?_⟩) fun _ _ h3 => h1.trans h3
    have hstep : i + (n + 1) = i + 1 + n := by omega
    rw [hstep]
    exact h4

theorem wp_releaseBatches {a b : Nat} (fuel : Nat) {i n : Nat} (hpage : 0 < m.os.page) (ha : a ≤ i) (hn : n ≤ fuel)
    (hi : i + n = b) (h : Released m.os.page a m.os.locked i pending) :
    wp (queryBatches (releasePartialStep m.os.page) fuel (List.range' i n) pending)
      (fun out m' => Weaker (fun p => a ≤ p ∧ p < b) m m' ∧ Released m.os.page a m'.os.locked b out)
      (fun _ => Weaker (fun p => a ≤ p ∧ p < b) m) m := by
  induction fuel generalizing i n m pending with
  | zero =>
    obtain rfl : i = b := by omega
    exact ⟨(Quiet.refl m).weaker _, h⟩
  | succ fuel ih =>
    unfold queryBatches
    split
    · next hnil =>
      obtain rfl : i = b := by
        have := congrArg List.length hnil
        simp at this
        omega
      exact ⟨(Quiet.refl m).weaker _, h⟩
    next hne =>
    simp only [queryWorkingSetEx, wp_bind, wp_get]
    refine wp_reply fun answer m₁ hq => ?_
    have hw := hq.weaker fun p => a ≤ p ∧ p < b
    obtain ⟨replies, lastError, rfl⟩ := hq
    split
    · -- one batch, then the rest
      have htake : (List.range' i n).take 4096 = List.range' i (min 4096 n) := by
        refine ext_getElem (by simp) fun k h1 h2 => ?_
        simp
      have hdrop : (List.range' i n).drop 4096 = List.range' (i + 4096) (n - 4096) := by
        rw [drop_range', Nat.mul_one]
      rw [wp_pure]
      simp only [wp_bind, htake, hdrop]
      have hbatch := wp_releaseRecords (m := { m with os.replies := replies, os.lastError := lastError })
        (i := i) (n := min 4096 n) (b := b)
        (f := fun p => { page := p, valid := m.os.locked p || m.os.foreign p || answer.part p,
                         locked := m.os.locked p || m.os.foreign p })
        hpage ha (by omega) h (fun p => rfl) fun p hp => (Bool.or_eq_false_iff.mp hp).1
      refine wp_mono hbatch (fun out m₂ ⟨h1, h2⟩ => ?_) fun _ _ h1 => hw.trans h1
      rcases Nat.lt_or_ge 4096 n with hlt | hge
      · rw [Nat.min_eq_left (Nat.le_of_lt hlt)] at h2
        have hm₂ : m₂.os.page = m.os.page := h1.page
        rw [← hm₂] at hpage h2 ⊢
        exact wp_mono (ih hpage (by omega) (by omega) (by omega) h2)
          (fun out m₃ ⟨h3, h4⟩ => ⟨(hw.trans h1).trans h3, h4⟩) fun _ _ h3 =>
            (hw.trans h1).trans h3
      have hempty : List.range' (i + 4096) (n - 4096) = [] := by
        rw [Nat.sub_eq_zero_of_le hge]
        rfl
      rw [hempty]
      have hend : i + min 4096 n = b := by omega
      rw [hend] at h2
      cases fuel with
      | zero => exact ⟨hw.trans h1, h2⟩
      | succ fuel => exact ⟨hw.trans h1, h2⟩
    rw [wp_pure]
    exact wp_osError fun _ => hw

theorem wp_releasePartial (hpage : 0 < m.os.page) (hr : m.os.page ∣ r.1 ∧ m.os.page ∣ r.2) :
    wp (releasePartial r)
      (fun _ m' => Weaker (fun p => touches m.os.page r p = true) m m' ∧
        ∀ p, touches m.os.page r p = true → m'.os.locked p = false)
      (fun _ => Weaker (fun p => touches m.os.page r p = true) m) m := by
  obtain ⟨a, b, rfl⟩ := aligned_eq hr
  simp only [touches_mul hpage, releasePartial, query, pageNumbers, wp_bind, wp_get]
  have hpages : List.range' (a * m.os.page / m.os.page) ((b * m.os.page - a * m.os.page) / m.os.page)
      = List.range' a (b - a) := by
    rw [← Nat.sub_mul, Nat.mul_div_cancel _ hpage, Nat.mul_div_cancel _ hpage]
  rw [hpages]
  rcases Nat.le_total a b with hab | hba
  · refine wp_imp (wp_releaseBatches (b := b) _ hpage (Nat.le_refl a) (by simp) (by omega)
      fun p hp hpa => by omega) fun out m₁ ⟨h1, h2⟩ => ?_
    have hm₁ := h1.page
    rw [← hm₁] at hpage h2
    refine wp_mono (wp_flush hpage (Nat.le_refl b) h2) (fun _ m₂ ⟨h3, h4, h5⟩ => ?_) fun _ _ h3 => h1.trans h3
    exact ⟨h1.trans h3, fun p hp => h5 p hp.1 hp.2⟩
  -- an empty range has no pages
  rw [Nat.sub_eq_zero_of_le hba]
  exact ⟨(Quiet.refl m).weaker _, fun p hp => by omega⟩

/-! ## The lock loop -/

theorem chunksFrom_covers {fuel first second : Nat} (h : second - first ≤ fuel * chunkBytes)
    (x : Nat) : Covers (chunksFrom fuel first second) x ↔ first ≤ x ∧ x < second := by
  induction fuel generalizing first with
  | zero =>
    simp only [chunksFrom, covers_nil, false_iff]
    omega
  | succ fuel ih =>
    unfold chunksFrom
    split
    · next hlt =>
      rw [Nat.succ_mul] at h
      rw [covers_cons, ih (by omega)]
      omega
    simp only [covers_nil, false_iff]
    omega

theorem chunksFrom_aligned {page : Nat} (hchunk : page ∣ chunkBytes) {fuel first second : Nat}
    (h1 : page ∣ first) (h2 : page ∣ second) : Aligned page (chunksFrom fuel first second) := by
  induction fuel generalizing first with
  | zero => simp [chunksFrom, Aligned, Ends]
  | succ fuel ih =>
    unfold chunksFrom
    split
    · next hlt =>
      have hstop : page ∣ first + min chunkBytes (second - first) := by
        rcases Nat.le_total chunkBytes _ with h | h
        · rw [Nat.min_eq_left h]
          exact Nat.dvd_add h1 hchunk
        rw [Nat.min_eq_right h, Nat.add_sub_cancel' (Nat.le_of_lt hlt)]
        exact h2
      exact ends_cons.mpr ⟨⟨h1, hstop⟩, ih hstop⟩
    · simp [Aligned, Ends]

theorem le_rangeChunks (r : ResidentRange) : r.2 - r.1 ≤ rangeChunks chunkBytes r * chunkBytes := by
  have hpos : 0 < chunkBytes := by decide
  have hdiv := Nat.div_add_mod (r.2 - r.1) chunkBytes
  have hmod := Nat.mod_lt (r.2 - r.1) hpos
  unfold rangeChunks
  rw [Nat.add_mul, Nat.mul_comm _ chunkBytes]
  split <;> omega

theorem lockChunks_covers (added : List ResidentRange) (x : Nat) : Covers (lockChunks added) x ↔ Covers added x := by
  induction added with
  | nil => exact Iff.rfl
  | cons r added ih =>
    show Covers (chunksFrom _ r.1 r.2 ++ lockChunks added) x ↔ _
    rw [covers_append, covers_cons, ih, chunksFrom_covers (le_rangeChunks r)]

theorem lockChunks_aligned {page : Nat} (hchunk : page ∣ chunkBytes) {added : List ResidentRange}
    (h : Aligned page added) : Aligned page (lockChunks added) := by
  intro c hc
  obtain ⟨r, hr, hc⟩ := mem_flatMap.mp hc
  exact chunksFrom_aligned hchunk (h r hr).1 (h r hr).2 c hc

/-- The lock loop at work on `chunks`, started on `m₀`. -/
structure Locking (chunks : List ResidentRange) (m₀ m : Machine) : Prop where
  reg : m.reg = { m₀.reg with currentQuota := m.reg.currentQuota }
  plans : m.plans = m₀.plans
  page : m.os.page = m₀.os.page
  quota : m.os.quota = m.reg.currentQuota
  completed : ∀ c ∈ m.completed, c ∈ chunks
  attempted : ∀ c, m.attempted = some c → c ∈ chunks
  grew : ∀ p, m₀.os.locked p = true → m.os.locked p = true
  only : ∀ p, m.os.locked p = true → m₀.os.locked p = true ∨
    PageIn m₀.os.page (m.attempted.toList ++ m.completed) p

variable {chunks : List ResidentRange}

theorem Locking.start (hq : m.os.quota = m.reg.currentQuota) (hc : m.completed = []) (ha : m.attempted = none) :
    Locking chunks m m :=
  ⟨rfl, rfl, rfl, hq, by simp [hc], by simp [ha], fun _ h => h, fun _ h => .inl h⟩

theorem Locking.quiet (h : Locking chunks m₀ m) (hq : Quiet m m') : Locking chunks m₀ m' := by
  obtain ⟨_, _, rfl⟩ := hq
  exact ⟨h.reg, h.plans, h.page, h.quota, h.completed, h.attempted, h.grew, h.only⟩

theorem Locking.within (h : Locking chunks m₀ m)
    {p : Nat} (hp : PageIn m₀.os.page (m.attempted.toList ++ m.completed) p) :
    PageIn m₀.os.page chunks p := by
  obtain ⟨r, hr, hp⟩ := hp
  refine ⟨r, ?_, hp⟩
  rcases mem_append.mp hr with hr | hr
  · exact h.attempted r (by simpa using hr)
  · exact h.completed r hr

theorem Locking.setQuota (h : Locking chunks m₀ m) (quota : Quota) :
    wp (setQuota quota) (fun _ m' => Locking chunks m₀ m' ∧ m'.reg.currentQuota = quota ∧
        m'.completed = m.completed ∧ m'.attempted = m.attempted ∧ m'.os.locked = m.os.locked)
      (fun _ => Locking chunks m₀) m := by
  simp only [Exl3.setQuota, wp_bind]
  refine wp_reply fun a m₁ hq => ?_
  have h₁ := h.quiet hq
  obtain ⟨_, _, rfl⟩ := hq
  split
  · refine ⟨⟨?_, h.plans, h.page, rfl, h.completed, h.attempted, h.grew, h.only⟩, rfl, rfl, rfl, rfl⟩
    rw [h.reg]
  · exact wp_osError fun _ => h₁

theorem Locking.growQuota (h : Locking chunks m₀ m) (required : Nat) :
    wp (growQuota required) (fun _ m' => Locking chunks m₀ m' ∧ m'.attempted = m.attempted)
      (fun _ => Locking chunks m₀) m := by
  simp only [Exl3.growQuota, wp_bind, wp_get]
  refine (quietly_check _ _).use (fun _ m₁ hq => ?_) fun _ _ hq => h.quiet hq
  have h₁ := h.quiet hq
  have ha : m₁.attempted = m.attempted := by
    obtain ⟨_, _, rfl⟩ := hq
    rfl
  split
  · exact wp_imp (h₁.setQuota _) fun _ m₂ h₂ => ⟨h₂.1, h₂.2.2.2.1.trans ha⟩
  · exact ⟨h₁, ha⟩

/-- One chunk: locked and completed, or the loop ends in a state it accounts for. -/
theorem Locking.lockChunk {c : ResidentRange}
    (h : Locking chunks m₀ m) (hc : c ∈ chunks) (ha : m.attempted = none) (missing slots : Nat)
    (afterLock : Nat → Option Exn) :
    wp (lockChunk missing slots afterLock c)
      (fun _ m' => Locking chunks m₀ m' ∧ m'.attempted = none ∧ (∀ p, m.os.locked p = true → m'.os.locked p = true) ∧
        ∀ p, touches m₀.os.page c p = true → m'.os.locked p = true)
      (fun _ => Locking chunks m₀) m := by
  simp only [Exl3.lockChunk, wp_bind, wp_get, wp_modify]
  refine (quietly_check _ _).use (fun _ m₁ hq => ?_) fun _ _ hq => h.quiet hq
  obtain ⟨_, _, rfl⟩ := hq
  simp only [virtualLock, wp_bind, wp_modify, wp_pure]
  refine wp_reply fun a m₂ hq => ?_
  obtain ⟨_, _, rfl⟩ := hq
  -- the pages locked by the call lie in the chunk
  have hlock : ∀ p, lockPages m.os c a p = true → m₀.os.locked p = true ∨ PageIn m₀.os.page (c :: m.completed) p := by
    intro p hp
    simp only [lockPages, Bool.or_eq_true, Bool.and_eq_true, h.page] at hp
    rcases hp with hp | hp
    · rcases h.only p hp with hp | ⟨r, hr, hp⟩
      · exact .inl hp
      · exact Or.inr ⟨r, by simpa [ha] using Or.inr hr, hp⟩
    · exact .inr ⟨c, by simp, hp.1⟩
  have hgrew : ∀ p, m.os.locked p = true → lockPages m.os c a p = true := fun p hp => by
    simp [lockPages, hp]
  have hcompleted : ∀ d ∈ c :: m.completed, d ∈ chunks := by
    intro d hd
    rcases mem_cons.mp hd with rfl | hd
    · exact hc
    · exact h.completed d hd
  split
  · next hok =>
    simp only [wp_bind, wp_modify]
    generalize hm₃ : Machine.mk _ _ _ _ _ = m₃
    have h₃ : Locking chunks m₀ m₃ := by
      subst hm₃
      exact ⟨h.reg, h.plans, h.page, h.quota, hcompleted, by simp, fun p hp => hgrew p (h.grew p hp), hlock⟩
    have hdone : m₃.attempted = none ∧ m₃.os.locked = lockPages m.os c a := by
      subst hm₃
      exact ⟨rfl, rfl⟩
    have hall : ∀ p, touches m₀.os.page c p = true → m₃.os.locked p = true := by
      intro p hp
      rw [hdone.2]
      simp [lockPages, h.page, hp, hok]
    -- what follows the lock only looks
    have hquiet : ∀ m', Quiet m₃ m' → Locking chunks m₀ m' ∧ m'.attempted = none ∧
        (∀ p, m.os.locked p = true → m'.os.locked p = true) ∧
        ∀ p, touches m₀.os.page c p = true → m'.os.locked p = true := by
      intro m' hq
      have h' := h₃.quiet hq
      obtain ⟨_, _, rfl⟩ := hq
      refine ⟨h', hdone.1, fun p hp => ?_, hall⟩
      rw [hdone.2]
      exact hgrew p hp
    exact (quietly_witnessChunk _ _ c).use (fun _ m' hq => hquiet m' hq) fun _ m' hq => (hquiet m' hq).1
  refine wp_osError fun _ => ?_
  exact ⟨h.reg, h.plans, h.page, h.quota, h.completed, by simpa using hc, fun p hp => hgrew p (h.grew p hp), hlock⟩

theorem wp_lockAdded (m : Machine) (hq : m.os.quota = m.reg.currentQuota)
    (hc : m.completed = []) (ha : m.attempted = none) (added : List ResidentRange)
    (addedBytes oldBytes missing slots : Nat) (afterLock : Nat → Option Exn) :
    wp (lockAdded added addedBytes oldBytes missing slots afterLock)
      (fun _ m' => Locking (lockChunks added) m m' ∧ m'.attempted = none ∧
        ∀ p, PageIn m.os.page (lockChunks added) p → m'.os.locked p = true)
      (fun _ => Locking (lockChunks added) m) m := by
  have hstart : Locking (lockChunks added) m m := Locking.start hq hc ha
  simp only [lockAdded, wp_bind]
  have hgrow : wp (if addedBytes ≠ 0 then growQuota (oldBytes + addedBytes) else pure ())
      (fun _ m' => Locking (lockChunks added) m m' ∧ m'.attempted = none)
      (fun _ => Locking (lockChunks added) m) m := by
    split
    · exact wp_imp (hstart.growQuota _) fun _ _ h => ⟨h.1, h.2.trans ha⟩
    · exact ⟨hstart, ha⟩
  refine wp_imp hgrow fun _ m₁ ⟨h₁, ha₁⟩ => ?_
  -- a chunk is either still to come or locked
  have hloop := wp_forM (l := lockChunks added) (s := m₁) (g := lockChunk missing slots afterLock)
    (E := fun _ m' => Locking (lockChunks added) m m')
    (I := fun rest m' => Locking (lockChunks added) m m' ∧ m'.attempted = none ∧
      (∀ c ∈ rest, c ∈ lockChunks added) ∧ ∀ c ∈ lockChunks added, c ∈ rest ∨
        ∀ p, touches m.os.page c p = true → m'.os.locked p = true)
    (fun c rest m₂ ⟨h₂, ha₂, hrest, hdone⟩ => by
      refine wp_imp (h₂.lockChunk (hrest c (by simp)) ha₂ missing slots afterLock)
        fun _ m₃ ⟨h₃, ha₃, hkeep, hlocked⟩ => ⟨h₃, ha₃, fun d hd => hrest d (by simp [hd]), ?_⟩
      intro d hd
      rcases hdone d hd with hd | hd
      · rcases mem_cons.mp hd with rfl | hd
        · exact .inr hlocked
        · exact .inl hd
      · exact .inr fun p hp => hkeep p (hd p hp))
    ⟨h₁, ha₁, fun _ h => h, fun _ h => .inl h⟩
  refine wp_imp hloop fun _ m₂ ⟨h₂, ha₂, _, hdone⟩ => ⟨h₂, ha₂, ?_⟩
  rintro p ⟨c, hc, hp⟩
  rcases hdone c hc with h | h
  · cases h
  · exact h p hp

/-! ## Rollback -/

/-- A rollback of the lock loop started on `m₀` leaves the registry as it was, apart from the
    quota and the injected fault, and no lock outside the old pages and the chunks. -/
structure RolledBack (chunks : List ResidentRange) (m₀ m : Machine) : Prop where
  reg : m.reg = { m₀.reg with currentQuota := m.reg.currentQuota, rollbackFaultForTest := false }
  plans : m.plans = m₀.plans
  page : m.os.page = m₀.os.page
  quota : m.os.quota = m.reg.currentQuota
  only : ∀ p, m.os.locked p = true → m₀.os.locked p = true ∨ PageIn m₀.os.page chunks p

theorem RolledBack.weaker (h : RolledBack chunks m₀ m) (hw : Weaker S m m') : RolledBack chunks m₀ m' := by
  obtain ⟨_, _, _, rfl, hle, -⟩ := hw
  exact ⟨h.reg, h.plans, h.page, h.quota, fun p hp => h.only p (hle p hp)⟩

theorem RolledBack.quiet (h : RolledBack chunks m₀ m) (hq : Quiet m m') : RolledBack chunks m₀ m' :=
  h.weaker (hq.weaker fun _ => False)

theorem RolledBack.setQuota (h : RolledBack chunks m₀ m) (quota : Quota) :
    wp (setQuota quota) (fun _ m' => RolledBack chunks m₀ m' ∧ m'.reg.currentQuota = quota ∧
        m'.os.locked = m.os.locked)
      (fun _ => RolledBack chunks m₀) m := by
  simp only [Exl3.setQuota, wp_bind]
  refine wp_reply fun a m₁ hq => ?_
  have h₁ := h.quiet hq
  obtain ⟨_, _, rfl⟩ := hq
  split
  · refine ⟨⟨?_, h.plans, h.page, rfl, h.only⟩, rfl, rfl⟩
    rw [h.reg]
  · exact wp_osError fun _ => h₁

/-- A rollback that returns has taken back exactly the locks of the loop. -/
theorem wp_rollback (h : Locking chunks m₀ m) (hpage : 0 < m₀.os.page) (ha : Aligned m₀.os.page chunks)
    (hnew : ∀ p, PageIn m₀.os.page chunks p → m₀.os.locked p = false) (previous : Quota) :
    wp (rollback previous)
      (fun _ m' => RolledBack chunks m₀ m' ∧ m'.reg.currentQuota = previous ∧ ∀ p, m'.os.locked p = m₀.os.locked p)
      (fun _ => RolledBack chunks m₀) m := by
  simp only [rollback, wp_bind, wp_get, wp_modify]
  generalize hm₁ : Machine.mk _ _ _ _ _ = m₁
  have hlocked₁ : m₁.os.locked = m.os.locked := by rw [← hm₁]
  have hpage₁ : m₁.os.page = m₀.os.page := by rw [← hm₁]; exact h.page
  have h₁ : RolledBack chunks m₀ m₁ := by
    subst hm₁
    refine ⟨?_, h.plans, h.page, h.quota, fun p hp => (h.only p hp).imp id h.within⟩
    rw [h.reg]
  refine (quietly_check _ _).use (fun _ m₂ hq₂ => ?_) fun _ _ hq => h₁.quiet hq
  have h₂ := h₁.quiet hq₂
  have hw₂ := hq₂.weaker fun p => PageIn m₀.os.page chunks p
  -- first the chunk attempted, then the completed ones
  have hpartial : wp (releaseAttempted m.attempted)
      (fun _ m' => Weaker (PageIn m₀.os.page chunks) m₂ m' ∧
        ∀ p, PageIn m₀.os.page m.attempted.toList p → m'.os.locked p = false)
      (fun _ => RolledBack chunks m₀) m₂ := by
    have hpage₂ : m₂.os.page = m₀.os.page := hw₂.page.trans hpage₁
    cases hatt : m.attempted with
    | none => exact ⟨(Quiet.refl m₂).weaker _, by simp [PageIn]⟩
    | some r =>
      have hr := h.attempted r hatt
      have hmono : ∀ m', Weaker (fun p => touches m₂.os.page r p = true) m₂ m' →
          Weaker (PageIn m₀.os.page chunks) m₂ m' := fun m' hw =>
        hw.mono fun p hp => ⟨r, hr, hpage₂ ▸ hp⟩
      refine wp_mono (wp_releasePartial (hpage₂ ▸ hpage) (hpage₂ ▸ ha r hr))
        (fun _ m' ⟨h3, h4⟩ => ⟨hmono m' h3, fun p hp => h4 p ?_⟩) fun _ m' h3 => h₂.weaker h3
      obtain ⟨q, hq, hp⟩ := hp
      simp only [Option.toList_some, mem_singleton] at hq
      rw [hpage₂, ← hq]
      exact hp
  refine wp_imp hpartial fun _ m₃ ⟨hw₃, hunlocked₃⟩ => ?_
  have hpage₃ : m₃.os.page = m₀.os.page := hw₃.page.trans (hw₂.page.trans hpage₁)
  have hcomp : ∀ p, PageIn m₃.os.page m.completed p → PageIn m₀.os.page chunks p := by
    rintro p ⟨r, hr, hp⟩
    exact ⟨r, h.completed r hr, hpage₃ ▸ hp⟩
  refine wp_mono (wp_unlockAll _ m.completed m₃) (fun _ m₄ ⟨hw₄, hunlocked₄⟩ => ?_)
    fun _ m₄ hw₄ => (h₂.weaker hw₃).weaker hw₄
  have hw : Weaker (PageIn m₀.os.page chunks) m₁ m₄ := (hw₂.trans hw₃).trans (hw₄.mono hcomp)
  refine wp_imp (((h₂.weaker hw₃).weaker hw₄).setQuota previous) fun _ m₅ ⟨h₅, hq₅, hl₅⟩ => ⟨h₅, hq₅, fun p => ?_⟩
  rw [hl₅]
  by_cases hp : PageIn m₀.os.page chunks p
  · -- a page of the chunks is unlocked before and after
    rw [hnew p hp]
    by_contra hne
    rw [Bool.not_eq_false] at hne
    have hm : m.os.locked p = true := hlocked₁ ▸ hw.le hne
    rcases h.only p hm with h6 | ⟨r, hr, hpr⟩
    · exact absurd h6 (by simp [hnew p hp])
    rcases mem_append.mp hr with hr | hr
    · exact absurd (hw₄.le hne) (by simp [hunlocked₃ p ⟨r, hr, hpr⟩])
    · exact absurd hne (by simp [hunlocked₄ p ⟨r, hr, hpage₃ ▸ hpr⟩])
  -- no other page is touched
  rw [hw.keep hp, hlocked₁]
  by_cases hold : m₀.os.locked p = true
  · rw [hold]
    exact h.grew p hold
  rw [Bool.not_eq_true] at hold
  rw [hold]
  by_contra hne
  rw [Bool.not_eq_false] at hne
  rcases h.only p hne with h6 | h6
  · exact absurd h6 (by simp [hold])
  · exact hp (h.within h6)

end VoidInfer.Exl3
