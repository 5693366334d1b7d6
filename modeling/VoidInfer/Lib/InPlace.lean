import VoidInfer.Base

/-
  Objects changed in place by calls that may throw, and vectors that grow. What a call had done when it threw stays
  done, so the state after a throw is part of what a call returns.
-/

namespace VoidInfer
open List

section InPlace

variable {σ τ : Type}

/-- One change after the other, up to the first that throws. -/
def inPlace : List (σ → Except Exn σ) → σ → σ × Except Exn Unit
  | [], s => (s, .ok ())
  | f :: fs, s =>
    match f s with
    | .error e => (s, .error e)
    | .ok s' => inPlace fs s'

variable {f : σ → Except Exn σ} {fs gs : List (σ → Except Exn σ)} {s s' : σ} {e : Exn}

@[simp] theorem inPlace_nil : inPlace [] s = (s, .ok ()) := rfl

theorem inPlace_cons_ok (h : f s = .ok s') : inPlace (f :: fs) s = inPlace fs s' := by
  simp [inPlace, h]

theorem inPlace_cons_error (h : f s = .error e) : inPlace (f :: fs) s = (s, .error e) := by
  simp [inPlace, h]

theorem inPlace_append : inPlace (fs ++ gs) s =
    match inPlace fs s with
    | (s', .error e) => (s', .error e)
    | (s', .ok ()) => inPlace gs s' := by
  induction fs generalizing s with
  | nil => rfl
  | cons f fs ih =>
    cases h : f s with
    | error e => simp [inPlace_cons_error h]
    | ok s' => simp [inPlace_cons_ok h, ih]

theorem inPlace_keeps (view : σ → τ) (h : ∀ f ∈ fs, ∀ s s', f s = .ok s' → view s' = view s) :
    view (inPlace fs s).1 = view s := by
  induction fs generalizing s with
  | nil => rfl
  | cons f fs ih =>
    cases hf : f s with
    | error e => rw [inPlace_cons_error hf]
    | ok s' =>
      rw [inPlace_cons_ok hf, ih fun g hg => h g (mem_cons_of_mem _ hg)]
      exact h f mem_cons_self _ _ hf

end InPlace

/-! ## Vectors -/

/-- `std::vector`: what it holds and how much it has room for. -/
@[ext] structure Vec (α : Type) where
  items : List α
  capacity : Nat
  fits : items.length ≤ capacity

/-- Which allocations succeed, by the sizes of those made before in the call. -/
abbrev Grants := List Nat → Nat → Bool

/-- An allocator that never fails. -/
def always : Grants := fun _ _ => true

/-- `operator new`, after the allocations of `log`; an empty extent takes none. -/
def allocate (grants : Grants) (bytes : Nat) (log : List Nat) : Except Exn (List Nat) :=
  if bytes = 0 then .ok log
  else if grants log bytes then .ok (log ++ [bytes])
  else .error .badAlloc

theorem allocate_ok {grants : Grants} {bytes : Nat} {log log' : List Nat}
    (h : allocate grants bytes log = .ok log') : log'.sum = log.sum + bytes := by
  unfold allocate at h
  split at h
  · next hb => rw [← Except.ok.inj h, hb, Nat.add_zero]
  split at h
  · rw [← Except.ok.inj h]
    simp
  · cases h

theorem allocate_always (bytes : Nat) (log : List Nat) : ∃ log', allocate always bytes log = .ok log' := by
  unfold allocate always
  split <;> simp

namespace Vec

variable {α : Type}

def empty : Vec α := ⟨[], 0, Nat.le_refl _⟩

section
variable (v : Vec α)

/-- A copy, with room for what it holds. -/
def copy : Vec α := ⟨v.items, v.items.length, Nat.le_refl _⟩

/-- `push_back` where there is room. -/
def push (x : α) : Vec α :=
  ⟨v.items ++ [x], max v.capacity (v.items.length + 1), by
    simp only [length_append, length_singleton]
    omega⟩

/-- The vector with room for `room` elements at least. -/
def grown (room : Nat) : Vec α := ⟨v.items, max v.capacity room, by have := v.fits; omega⟩

/-- `resize` to fewer elements. -/
def shrink (size : Nat) : Vec α :=
  ⟨v.items.take size, v.capacity, by have := v.fits; simp only [length_take]; omega⟩

@[simp] theorem push_items (x : α) : (v.push x).items = v.items ++ [x] := rfl

@[simp] theorem grown_items (room : Nat) : (v.grown room).items = v.items := rfl

@[simp] theorem shrink_items (size : Nat) : (v.shrink size).items = v.items.take size := rfl

@[simp] theorem grown_capacity (room : Nat) : (v.grown room).capacity = max v.capacity room := rfl

end

end Vec

end VoidInfer
