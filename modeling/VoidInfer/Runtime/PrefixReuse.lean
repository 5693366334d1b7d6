import VoidInfer.Runtime.PrefixRun

/-
  Comparing two identities at a smaller frontier, and what holds of the three objects after every run.
-/

namespace VoidInfer.Runtime
open List Option ResidentPrefixIdentity PrefixShortlistDigests

namespace VisionItem

/-- Where the first span of an item begins and its last one ends, of an item whose spans have tokens. -/
def extent (item : VisionItem) : Option (Nat × Nat) :=
  match item.tokenSpans.head?, item.tokenSpans.getLast? with
  | some first, some last =>
    if first.count = 0 ∨ last.count = 0 ∨ last.first > sizeMax - last.count then none
    else some (first.first, last.first + last.count)
  | _, _ => none

section
variable (frontier : Nat) (item : VisionItem)

/-- The item ends by `frontier`. -/
def Before : Prop :=
  ∃ first finish, item.extent = some (first, finish) ∧ finish ≤ frontier

/-- The item begins at `frontier` or after it. -/
def After : Prop :=
  ∃ first finish, item.extent = some (first, finish) ∧ frontier ≤ first ∧ frontier < finish

/-- A frontier strictly inside the tokens of an item divides it. -/
def DividedBy : Prop :=
  ∃ first finish, item.extent = some (first, finish) ∧ first < frontier ∧ frontier < finish

end

end VisionItem

open VisionItem (Before After DividedBy)

variable {count frontier n m : Nat} {items : List VisionItem} {left right : VisionItem}

variable {tokens : Nat} {saw : Bool} {resident : Resident} {history : History} {grants : Grants}
  {ropeDelta : Int} {e : Exn}

theorem prefixItemCount_cons {item : VisionItem} :
    prefixItemCount tokens (item :: items) count saw =
      match item.extent with
      | none => none
      | some (first, finish) =>
        if finish ≤ tokens then
          if saw then none else prefixItemCount tokens items (count + 1) saw
        else if first ≥ tokens then prefixItemCount tokens items count true
        else none := by
  rw [prefixItemCount]
  unfold VisionItem.extent
  cases item.tokenSpans.head? with
  | none => rfl
  | some first =>
    cases item.tokenSpans.getLast? with
    | none => rfl
    | some last =>
      by_cases hbad : first.count = 0 ∨ last.count = 0 ∨ last.first > sizeMax - last.count
      · simp only [if_pos hbad]
      · simp only [if_neg hbad]

theorem prefixItemCount_iff {result : Nat} :
    prefixItemCount tokens items count saw = some result ↔
      ∃ before after, items = before ++ after ∧ (∀ item ∈ before, Before tokens item) ∧
        (∀ item ∈ after, After tokens item) ∧ (saw = true → before = []) ∧ result = count + before.length := by
  induction items generalizing count saw with
  | nil =>
    simp only [prefixItemCount, Option.some.injEq]
    constructor
    · rintro rfl
      exact ⟨[], [], rfl, by simp, by simp, fun _ => rfl, rfl⟩
    · rintro ⟨before, after, hsplit, -, -, -, rfl⟩
      obtain ⟨rfl, -⟩ := append_eq_nil_iff.mp hsplit.symm
      rfl
  | cons item items ih =>
    rw [prefixItemCount_cons]
    constructor
    · intro h
      split at h
      · cases h
      next first finish hextent =>
      split at h
      · next hle =>
        split at h
        · cases h
        next hsaw =>
        obtain ⟨before, after, rfl, hbefore, hafter, -, rfl⟩ := ih.mp h
        refine ⟨item :: before, after, rfl, ?_, hafter, fun hs => absurd hs hsaw, ?_⟩
        · exact forall_mem_cons.mpr ⟨⟨first, finish, hextent, hle⟩, hbefore⟩
        · rw [length_cons]
          omega
      next hgt =>
      split at h
      · next hge =>
        obtain ⟨before, after, rfl, hbefore, hafter, hnone, rfl⟩ := ih.mp h
        obtain rfl := hnone rfl
        exact ⟨[], item :: after, rfl, by simp,
          forall_mem_cons.mpr ⟨⟨first, finish, hextent, hge, by omega⟩, hafter⟩, fun _ => rfl, rfl⟩
      · cases h
    · rintro ⟨before, after, hsplit, hbefore, hafter, hsaw, rfl⟩
      cases before with
      | nil =>
        subst hsplit
        obtain ⟨⟨first, finish, hextent, hge, hgt⟩, hrest⟩ := forall_mem_cons.mp hafter
        simp only [hextent, if_neg (Nat.not_le.mpr hgt), if_pos hge]
        exact ih.mpr ⟨[], items, rfl, by simp, hrest, fun _ => rfl, rfl⟩
      | cons head before =>
        cases hsplit
        obtain ⟨⟨first, finish, hextent, hle⟩, hrest⟩ := forall_mem_cons.mp hbefore
        have hfalse : saw = false := by
          cases saw with
          | false => rfl
          | true => cases hsaw rfl
        simp only [hextent, if_pos hle, hfalse]
        refine ih.mpr ⟨before, after, rfl, hrest, hafter, fun h => absurd h Bool.false_ne_true, ?_⟩
        rw [length_cons]
        omega

/-- No item that ends by the frontier is listed after one that begins there or later. -/
def InOrderAt (frontier : Nat) (items : List VisionItem) : Prop :=
  items.Pairwise fun left right => After frontier left → ¬ Before frontier right

theorem exists_split
    (hitems : ∀ item ∈ items, Before frontier item ∨ After frontier item) (horder : InOrderAt frontier items) :
    ∃ before after, items = before ++ after ∧ (∀ item ∈ before, Before frontier item) ∧
      ∀ item ∈ after, After frontier item := by
  induction items with
  | nil => exact ⟨[], [], rfl, by simp, by simp⟩
  | cons item items ih =>
    obtain ⟨hhead, hrest⟩ := forall_mem_cons.mp hitems
    obtain ⟨hnone, horder'⟩ := pairwise_cons.mp horder
    rcases hhead with hbefore | hafter
    · obtain ⟨before, after, rfl, hb, ha⟩ := ih hrest horder'
      exact ⟨item :: before, after, rfl, forall_mem_cons.mpr ⟨hbefore, hb⟩, ha⟩
    refine ⟨[], item :: items, rfl, by simp, forall_mem_cons.mpr ⟨hafter, fun other hother => ?_⟩⟩
    exact (hrest other hother).resolve_left (hnone other hother hafter)

/-! ## Equal items -/

section
variable (h : sameItem left right = true)
include h

theorem sameItem_extent : left.extent = right.extent := by
  simp only [sameItem, sameSpans, Bool.and_eq_true, beq_iff_eq] at h
  unfold VisionItem.extent
  rw [h.2]

theorem before_of_sameItem : Before frontier left → Before frontier right := by
  unfold Before
  rw [sameItem_extent h]
  exact id

theorem after_of_sameItem : After frontier left → After frontier right := by
  unfold After
  rw [sameItem_extent h]
  exact id

end

theorem sameItems_iff {left right : List VisionItem} :
    sameItems left right n = true ↔ ∀ i < n, ∀ item other, left[i]? = some item → right[i]? = some other →
      sameItem item other = true := by
  unfold sameItems
  rw [List.all_eq_true]
  constructor
  · intro h i hi item other hleft hright
    refine h (item, other) (mem_of_getElem? (i := i) ?_)
    rw [getElem?_zip_eq_some]
    exact ⟨by rw [getElem?_take, if_pos hi]; exact hleft, by rw [getElem?_take, if_pos hi]; exact hright⟩
  · intro h items hmem
    obtain ⟨i, hi⟩ := mem_iff_getElem?.mp hmem
    obtain ⟨hleft, hright⟩ := getElem?_zip_eq_some.mp hi
    rw [getElem?_take] at hleft hright
    split at hleft
    · next hlt =>
      rw [if_pos hlt] at hright
      exact h i hlt _ _ hleft hright
    · cases hleft

/-! ## Smaller frontiers -/

/-- Where the items of both sides agree at `n`, they agree at a smaller frontier that the
    items of one side do not cross. -/
theorem items_agree_smaller {left right : List VisionItem} {k : Nat} (hm : m ≤ n)
    (hleft : prefixItemCount n left 0 false = some k) (hright : prefixItemCount n right 0 false = some k)
    (hsame : sameItems left right k = true) (hdivided : ∀ item ∈ left, ¬ DividedBy m item)
    (horder : InOrderAt m left) :
    ∃ j, prefixItemCount m left 0 false = some j ∧ prefixItemCount m right 0 false = some j ∧
      sameItems left right j = true := by
  obtain ⟨beforeL, afterL, hsplitL, hbeforeL, hafterL, -, hk⟩ := prefixItemCount_iff.mp hleft
  obtain ⟨beforeR, afterR, hsplitR, hbeforeR, hafterR, -, hk'⟩ := prefixItemCount_iff.mp hright
  have hlater : ∀ item, After n item → After m item := fun item ⟨first, finish, hextent, h1, h2⟩ =>
    ⟨first, finish, hextent, by omega, by omega⟩
  have hnot : ∀ item, After m item → ¬ Before m item := by
    intro item ⟨first, finish, hextent, _, hgt⟩ ⟨first', finish', hextent', hle⟩
    rw [hextent] at hextent'
    cases hextent'
    omega
  have hplaced : ∀ item ∈ left, Before m item ∨ After m item := by
    intro item hitem
    rw [hsplitL] at hitem
    rcases mem_append.mp hitem with hb | ha
    · obtain ⟨first, finish, hextent, -⟩ := hbeforeL item hb
      have := hdivided item (by rw [hsplitL]; exact hitem)
      by_cases hle : finish ≤ m
      · exact .inl ⟨first, finish, hextent, hle⟩
      refine .inr ⟨first, finish, hextent, ?_, by omega⟩
      by_contra hlt
      exact this ⟨first, finish, hextent, by omega, by omega⟩
    · exact .inr (hlater item (hafterL item ha))
  obtain ⟨before, after, hsplit, hbefore, hafter⟩ := exists_split hplaced horder
  -- the items that end by the smaller frontier are among those that end by the larger one
  have hjk : before.length ≤ k := by
    by_contra hgt
    have hlt : k < left.length := by rw [hsplit, length_append]; omega
    have hitem : left[k] ∈ before := by
      have hk : k < before.length := by omega
      have : left[k] = before[k] := by simp only [hsplit, getElem_append_left hk]
      rw [this]
      exact getElem_mem _
    have hitem' : left[k] ∈ afterL := by
      have hplace : (beforeL ++ afterL)[k]? = some left[k] := by
        rw [← hsplitL]
        exact getElem?_eq_getElem hlt
      rw [getElem?_append_right (by omega)] at hplace
      exact mem_of_getElem? hplace
    exact hnot _ (hlater _ (hafterL _ hitem')) (hbefore _ hitem)
  have hpairs := sameItems_iff.mp hsame
  have hlengths : k ≤ left.length ∧ k ≤ right.length := by
    rw [hsplitL, hsplitR, length_append, length_append]
    omega
  refine ⟨before.length, ?_, ?_, sameItems_iff.mpr fun i hi => hpairs i (by omega)⟩
  · exact prefixItemCount_iff.mpr ⟨before, after, hsplit, hbefore, hafter, fun h => absurd h Bool.false_ne_true,
      (Nat.zero_add _).symm⟩
  · refine prefixItemCount_iff.mpr ⟨right.take before.length, right.drop before.length,
      (take_append_drop _ _).symm, fun item hitem => ?_, fun item hitem => ?_,
      fun h => absurd h Bool.false_ne_true, ?_⟩
    · obtain ⟨i, hi⟩ := mem_iff_getElem?.mp hitem
      rw [getElem?_take] at hi
      split at hi
      · next hlt =>
        have hplace : left[i]? = some before[i] := by
          rw [hsplit, getElem?_append_left hlt, getElem?_eq_getElem hlt]
        exact before_of_sameItem (hpairs i (by omega) _ _ hplace hi) (hbefore _ (getElem_mem hlt))
      · cases hi
    · obtain ⟨i, hi⟩ := mem_iff_getElem?.mp hitem
      rw [getElem?_drop] at hi
      by_cases hlt : before.length + i < k
      · have hin : i < after.length := by
          have : left.length = before.length + after.length := by rw [hsplit, length_append]
          omega
        have hplace : left[before.length + i]? = some after[i] := by
          rw [hsplit, getElem?_append_right (by omega), Nat.add_sub_cancel_left, getElem?_eq_getElem hin]
        exact after_of_sameItem (hpairs _ hlt _ _ hplace hi) (hafter _ (getElem_mem hin))
      rw [hsplitR, getElem?_append_right (by omega)] at hi
      exact hlater _ (hafterR _ (mem_of_getElem? hi))
    · rw [length_take]
      omega

theorem frontiersUpTo_smaller {frontiers : List Nat} (hm : m ≤ n) :
    frontiersUpTo frontiers m = frontiersUpTo (frontiersUpTo frontiers n) m := by
  unfold frontiersUpTo
  induction frontiers with
  | nil => rfl
  | cons frontier rest ih =>
    by_cases h : frontier ≤ m
    · simp [h, Nat.le_trans h hm, ih]
    by_cases h' : frontier ≤ n
    · simp [h, h']
    · simp [h, h']

theorem take_smaller {α : Type} {left right : List α} (hm : m ≤ n) (h : left.take n = right.take n) :
    left.take m = right.take m := by
  have := congrArg (List.take m) h
  rwa [take_take, take_take, Nat.min_eq_left hm] at this

theorem prefixEquals_smaller {left right : ResidentPrefixIdentity} (hm : m ≤ n)
    (h : left.prefixEquals right n = true) (hdivided : ∀ item ∈ left.visionItems.items, ¬ DividedBy m item)
    (horder : InOrderAt m left.visionItems.items) : left.prefixEquals right m = true := by
  simp only [prefixEquals, samePrefix, Bool.and_eq_true, beq_iff_eq, decide_eq_true_eq, List.all_eq_true] at h ⊢
  obtain ⟨hcount, ⟨⟨htypes, haxes⟩, hitems⟩, hfrontiers⟩ := h
  refine ⟨by omega, ⟨⟨take_smaller hm htypes, fun axis hmem => take_smaller hm (haxes axis hmem)⟩, ?_⟩, ?_⟩
  · split at hitems
    · next incoming counted hleft hright =>
      rw [Bool.and_eq_true, beq_iff_eq] at hitems
      obtain ⟨rfl, hsame⟩ := hitems
      obtain ⟨j, hj, hj', hsame'⟩ := items_agree_smaller hm hleft hright hsame hdivided horder
      simp only [hj, hj', Bool.and_eq_true, beq_iff_eq]
      exact ⟨trivial, hsame'⟩
    · cases hitems
  · rw [frontiersUpTo_smaller hm, hfrontiers, ← frontiersUpTo_smaller hm]

/-! ## Every run -/

theorem digests_from_scratch (hfollows : Follows resident history) :
    ∃ built, assign Vec.empty history.prompt = .ok built ∧
      ∀ frontier, resident.digests.«at» frontier = built.«at» frontier := by
  obtain ⟨built, hbuilt, hitems⟩ := History.assign_prompt hfollows.shaped Vec.empty
  refine ⟨built, hbuilt, fun frontier => ?_⟩
  unfold PrefixShortlistDigests.«at» PrefixShortlistDigests.size
  rw [hitems, hfollows.digests]

theorem identity_from_scratch (hfollows : Follows resident history) :
    ∃ built, empty.assign history.prompt = .ok built ∧ built.content = resident.identity.content := by
  have hassignable := History.assignable hfollows.shaped
  refine ⟨_, dif_pos ⟨hassignable.types, hassignable.positions⟩, ?_⟩
  rw [hfollows.identity, ← congrArg History.content (History.after_assign_prompt hfollows.shaped history)]
  rfl

theorem identity_of_throw {s : Logged ResidentPrefixIdentity}
    (h : (appendGenerated grants count ropeDelta s).2 = .error e) :
    (appendGenerated grants count ropeDelta s).1.1.content = s.1.content := by
  rcases appendGenerated_cases grants s with ⟨e', -, hkept⟩ | ⟨room, -, -, hok, -⟩
  · exact hkept
  rw [hok] at h
  cases h

theorem digests_of_throw {s : Logged PrefixShortlistDigests} {tokens : List TokenId}
    (h : (appendGenerated grants tokens ropeDelta s).2 = .error e) :
    (appendGenerated grants tokens ropeDelta s).1.1.items = s.1.items := by
  rcases appendGenerated_cases grants s with ⟨e', -, hkept⟩ | ⟨room, -, -, -, hok, -⟩
  · exact hkept
  rw [hok] at h
  cases h

/-- After every run of calls in step: the identity and the digests are those of the prompt that the calls amount to; the
    shortlist has no false negatives; equal prefixes are equal at smaller frontiers that the items, in order there, do
    not cross; a copy with appended tokens is the copy appended to, in the announced room; and an append that throws
    changes nothing that is held. -/
theorem prefix_identity_in_step (grants : Grants) (first : PrefixCall) (calls : List PrefixCall)
    (resident : Resident) (h : Resident.performAll grants (first :: calls) = .ok resident) :
    (resident.tokens = (History.ofCalls (first :: calls)).tokens ∧
      (∃ built, ResidentPrefixIdentity.empty.assign (History.ofCalls (first :: calls)).prompt = .ok built ∧
        built.content = resident.identity.content) ∧
      ∃ built, PrefixShortlistDigests.assign Vec.empty (History.ofCalls (first :: calls)).prompt = .ok built ∧
        ∀ frontier, resident.digests.«at» frontier = built.«at» frontier) ∧
    (∀ prompt (digests built : PrefixShortlistDigests) count, digests.assign prompt = .ok built →
      prefixMatches prompt resident.tokens resident.identity count = true →
      ∃ digest, built.«at» count = .ok digest ∧ resident.digests.«at» count = .ok digest) ∧
    (∀ (other : ResidentPrefixIdentity) n m, m ≤ n → resident.identity.prefixEquals other n = true →
      (∀ item ∈ resident.identity.visionItems.items, ¬ DividedBy m item) →
      InOrderAt m resident.identity.visionItems.items → resident.identity.prefixEquals other m = true) ∧
    (∀ grants' count ropeDelta s, resident.identity.appendedCopy grants' count ropeDelta = .ok s →
      (∃ log, ResidentPrefixIdentity.appendGenerated always count ropeDelta (resident.identity.copy, []) =
        ((s.1, log), .ok ())) ∧
      resident.identity.copiedAppendAllocationBytes count ropeDelta =
        ResidentPrefixIdentity.counted s.2.sum) ∧
    (∀ grants' count ropeDelta e,
      (ResidentPrefixIdentity.appendGenerated grants' count ropeDelta (resident.identity, [])).2 = .error e →
      (ResidentPrefixIdentity.appendGenerated grants' count ropeDelta (resident.identity, [])).1.1.content =
        resident.identity.content) ∧
    ∀ grants' tokens ropeDelta e,
      (PrefixShortlistDigests.appendGenerated grants' tokens ropeDelta (resident.digests, [])).2 = .error e →
      (PrefixShortlistDigests.appendGenerated grants' tokens ropeDelta (resident.digests, [])).1.1.items =
        resident.digests.items := by
  have hfollows := follows_performAll (cons_ne_nil first calls) h
  refine ⟨⟨hfollows.tokens, identity_from_scratch hfollows, digests_from_scratch hfollows⟩,
    fun prompt digests built count hassign => at_of_prefixMatches hfollows hassign,
    fun other n m hm heq => prefixEquals_smaller hm heq, fun grants' count ropeDelta s hs => ?_,
    fun grants' count ropeDelta e => identity_of_throw, fun grants' tokens ropeDelta e => digests_of_throw⟩
  obtain ⟨u, types, axes, hcheck, htypes, haxes, -, hbytes⟩ := appendedCopy_ok hs
  refine ⟨appendedCopy_eq hs, ?_⟩
  rw [copiedAppendAllocationBytes_eq hcheck htypes haxes, hbytes]

/-- A prompt with one image and two ends of rewrites. -/
def imagePrompt : PreparedPromptData where
  tokenIds := [7, 8, 9]
  tokenTypes := [0, 0, 1]
  positions := [0, 1, 2, 0, 1, 2, 0, 1, 2]
  visionItems := [{ tokenSpans := [⟨2, 1⟩] }]
  rewriteExecutionFrontiers := [1, 2]

/-- The prompt, a generated token, and a truncation before the image. -/
theorem prefix_identity_in_step_image :
    ∃ resident, Resident.performAll always [.assign imagePrompt, .appendGenerated [5] (-1), .truncate 2] =
      .ok resident ∧ resident.tokens = [7, 8] :=
  ⟨_, rfl, (prefix_identity_in_step always (.assign imagePrompt) [.appendGenerated [5] (-1), .truncate 2] _
    rfl).1.1⟩

/-- Two images, the one at the later token listed first. -/
def lateImageFirst : PreparedPromptData where
  tokenIds := [7, 8, 9, 10]
  tokenTypes := [1, 0, 1, 0]
  positions := [0, 1, 2, 3, 0, 1, 2, 3, 0, 1, 2, 3]
  visionItems := [{ tokenSpans := [⟨2, 1⟩] }, { tokenSpans := [⟨0, 1⟩] }]

/-- Frontier 1 divides no image, and the identity does not equal itself there. -/
theorem lateImageFirst_not_equal :
    ∃ resident, Resident.performAll always [.assign lateImageFirst] = .ok resident ∧
      resident.identity.prefixEquals resident.identity 4 = true ∧
      (∀ item ∈ resident.identity.visionItems.items, ¬ DividedBy 1 item) ∧
      resident.identity.prefixEquals resident.identity 1 = false := by
  refine ⟨_, rfl, by decide, ?_, by decide⟩
  intro item hitem ⟨begin, finish, hextent, hlow, hhigh⟩
  rcases mem_cons.mp hitem with rfl | hrest
  · obtain ⟨rfl, rfl⟩ := Prod.mk.inj (some.inj hextent)
    exact absurd hlow (by decide)
  rw [mem_singleton.mp hrest] at hextent
  obtain ⟨rfl, rfl⟩ := Prod.mk.inj (some.inj hextent)
  exact absurd hhigh (by decide)

end VoidInfer.Runtime
