/-
  Pre- and postconditions of code that changes a state and may throw. A throw keeps the state reached so far, as an
  exception does: `wp x Q E s` says that `x`, started in `s`, either returns with `Q` or throws with `E`.

  The rules below turn the `wp` of a block into that of its parts; a proof about a function cites the functions it calls
  through `wp_mono`.
-/

namespace Throwing

variable {ε σ α β : Type}

/-- `x` started in `s` returns with `Q`, or throws with `E`. -/
def wp (x : EStateM ε σ α) (Q : α → σ → Prop) (E : ε → σ → Prop) (s : σ) : Prop :=
  match x s with
  | .ok a s' => Q a s'
  | .error e s' => E e s'

variable {x : EStateM ε σ α} {f : α → EStateM ε σ β} {Q Q' : α → σ → Prop} {R : β → σ → Prop}
  {E E' : ε → σ → Prop} {s s' : σ}

section
variable (h : wp x Q E s)
include h

theorem wp_mono (hQ : ∀ a s', Q a s' → Q' a s') (hE : ∀ e s', E e s' → E' e s') : wp x Q' E' s := by
  unfold wp at h ⊢
  split
  · next h' => rw [h'] at h; exact hQ _ _ h
  · next h' => rw [h'] at h; exact hE _ _ h

theorem wp_imp (hQ : ∀ a s', Q a s' → Q' a s') : wp x Q' E s := wp_mono h hQ fun _ _ he => he

theorem wp_fail (hE : ∀ e s', E e s' → E' e s') : wp x Q E' s := wp_mono h (fun _ _ hq => hq) hE

theorem wp_and (h' : wp x Q' E' s) : wp x (fun a s' => Q a s' ∧ Q' a s') (fun e s' => E e s' ∧ E' e s') s := by
  unfold wp at h h' ⊢
  split
  · next hx => rw [hx] at h h'; exact ⟨h, h'⟩
  · next hx => rw [hx] at h h'; exact ⟨h, h'⟩

theorem wp_ok {a : α} (hx : x s = .ok a s') : Q a s' := by
  unfold wp at h
  rw [hx] at h
  exact h

theorem wp_error {e : ε} (hx : x s = .error e s') : E e s' := by
  unfold wp at h
  rw [hx] at h
  exact h

end

theorem wp_const (hQ : ∀ a s', Q a s') (hE : ∀ e s', E e s') : wp x Q E s := by
  unfold wp
  split
  · exact hQ _ _
  · exact hE _ _

@[simp] theorem wp_pure {a : α} : wp (pure a : EStateM ε σ α) Q E = Q a := rfl

@[simp] theorem wp_throw {e : ε} : wp (throw e : EStateM ε σ α) Q E = E e := rfl

@[simp] theorem wp_bind : wp (x >>= f) R E = wp x (fun a => wp (f a) R E) E := by
  funext s
  show wp (EStateM.bind x f) R E s = _
  unfold wp EStateM.bind
  cases x s <;> rfl

@[simp] theorem wp_map {g : α → β} : wp (g <$> x) R E = wp x (fun a => R (g a)) E := by
  funext s
  show wp (EStateM.map g x) R E s = _
  unfold wp EStateM.map
  cases x s <;> rfl

@[simp] theorem wp_discard {Q : PUnit → σ → Prop} : wp (discard x) Q E = wp x (fun _ => Q ⟨⟩) E := by
  show wp ((fun _ => PUnit.unit) <$> x) Q E = _
  rw [wp_map]

@[simp] theorem wp_get {Q : σ → σ → Prop} : wp (get : EStateM ε σ σ) Q E = fun s => Q s s := rfl

theorem wp_get_bind {f : σ → EStateM ε σ β} : wp (get >>= f) R E s = wp (f s) R E s := by
  rw [wp_bind, wp_get]

@[simp] theorem wp_set {s' : σ} {Q : PUnit → σ → Prop} :
    wp (set s' : EStateM ε σ PUnit) Q E = fun _ => Q ⟨⟩ s' := rfl

@[simp] theorem wp_modify {g : σ → σ} {Q : PUnit → σ → Prop} :
    wp (modify g : EStateM ε σ PUnit) Q E = fun s => Q ⟨⟩ (g s) := rfl

@[simp] theorem wp_tryCatch {h : ε → EStateM ε σ α} :
    wp (tryCatch x h) Q E = wp x Q (fun e => wp (h e) Q E) := by
  funext s
  show wp (EStateM.tryCatch x h) Q E s = _
  unfold wp EStateM.tryCatch
  cases x s <;> rfl

theorem wp_ofExcept {r : Except ε α} :
    wp (MonadExcept.ofExcept r) Q E s ↔ (∀ a, r = .ok a → Q a s) ∧ ∀ e, r = .error e → E e s := by
  cases r <;> simp [MonadExcept.ofExcept]

/-- `x` with `exit` run on the way out, whichever way that is. -/
def finally' (x : EStateM ε σ α) (exit : σ → σ) : EStateM ε σ α := do
  let a ← tryCatch x fun e => do
    modify exit
    throw e
  modify exit
  return a

@[simp] theorem wp_finally {exit : σ → σ} :
    wp (finally' x exit) Q E = wp x (fun a s => Q a (exit s)) (fun e s => E e (exit s)) := by
  simp only [finally', wp_bind, wp_tryCatch, wp_modify, wp_throw, wp_pure]

/-- `if (condition) x;`. -/
def whenever (condition : Bool) (x : EStateM ε σ Unit) : EStateM ε σ Unit :=
  if condition then x else pure ()

theorem wp_whenever {condition : Bool} {x : EStateM ε σ Unit} {Q : Unit → σ → Prop}
    (ht : condition = true → wp x Q E s) (hf : condition = false → Q () s) : wp (whenever condition x) Q E s := by
  unfold whenever
  split
  · rename_i h
    exact ht h
  rename_i h
  exact hf (by simpa using h)

theorem wp_forM {g : α → EStateM ε σ PUnit} {l : List α} {I : List α → σ → Prop}
    (hI : ∀ a rest s, I (a :: rest) s → wp (g a) (fun _ => I rest) E s) (h : I l s) :
    wp (l.forM g) (fun _ => I []) E s := by
  induction l generalizing s with
  | nil => exact h
  | cons a l ih =>
    show wp (g a >>= fun _ => l.forM g) _ _ _
    rw [wp_bind]
    exact wp_mono (hI a l s h) (fun _ _ h' => ih h') fun _ _ h' => h'

end Throwing
