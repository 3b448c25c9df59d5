import Mathlib.Logic.Basic

/-!
Code that changes a state and may leave by an exception, which keeps the changes made
before; and its weakest preconditions.
-/

namespace PgFort.Stateful

variable {σ ε α β : Type}

/-- A function of a state; what it has changed of the state stays when it throws. -/
def Action (σ ε α : Type) : Type :=
  σ → Except ε α × σ

namespace Action

instance : Monad (Action σ ε) where
  pure a := fun s => (.ok a, s)
  bind x f := fun s =>
    match x s with
    | (.ok a, s') => f a s'
    | (.error e, s') => (.error e, s')

def state : Action σ ε σ := fun s => (.ok s, s)

def modify (f : σ → σ) : Action σ ε Unit := fun s => (.ok (), f s)

def ofExcept (x : Except ε α) : Action σ ε α := fun s => (x, s)

/-- Go on with the handler where it takes the exception. -/
def catching (x : Action σ ε α) (handler : ε → Option (Action σ ε α)) : Action σ ε α := fun s =>
  match x s with
  | (.ok a, s') => (.ok a, s')
  | (.error e, s') =>
      match handler e with
      | some y => y s'
      | none => (.error e, s')

theorem bind_of_ok {x : Action σ ε α} {f : α → Action σ ε β} {s s' : σ} {a : α}
    (h : x s = (.ok a, s')) : (x >>= f) s = f a s' := by
  show (match x s with
    | (.ok a, s') => f a s'
    | (.error e, s') => (.error e, s')) = f a s'
  rw [h]

theorem bind_of_error {x : Action σ ε α} {f : α → Action σ ε β} {s s' : σ} {e : ε}
    (h : x s = (.error e, s')) : (x >>= f) s = (.error e, s') := by
  show (match x s with
    | (.ok a, s') => f a s'
    | (.error e, s') => (.error e, s')) = (.error e, s')
  rw [h]

theorem state_bind {f : σ → Action σ ε β} {s : σ} : (state >>= f) s = f s s := rfl

theorem ofExcept_bind_ok {r : Except ε α} {f : α → Action σ ε β} {s : σ} {a : α}
    (h : r = .ok a) : (ofExcept r >>= f) s = f a s := by
  rw [h]
  rfl

theorem ofExcept_bind_error {r : Except ε α} {f : α → Action σ ε β} {s : σ} {e : ε}
    (h : r = .error e) : (ofExcept r >>= f) s = (.error e, s) := by
  rw [h]
  rfl

/-- The code ends well with `Q`, or by an exception with `E`. -/
def wp (x : Action σ ε α) (Q : α → σ → Prop) (E : ε → σ → Prop) (s : σ) : Prop :=
  match x s with
  | (.ok a, s') => Q a s'
  | (.error e, s') => E e s'

variable {x : Action σ ε α} {Q Q' : α → σ → Prop} {E E' : ε → σ → Prop} {s s' : σ}

theorem wp_pure {a : α} : wp (pure a) Q E = Q a := rfl

theorem wp_bind {f : α → Action σ ε β} {Q : β → σ → Prop} :
    wp (x >>= f) Q E = wp x (fun a => wp (f a) Q E) E := by
  funext s
  show (match (match x s with
      | (.ok a, s') => f a s'
      | (.error e, s') => (.error e, s')) with
    | (.ok b, s') => Q b s'
    | (.error e, s') => E e s') = _
  rw [wp]
  cases hx : x s with
  | mk r s' => cases r <;> rfl

theorem wp_state {Q : σ → σ → Prop} : wp state Q E = fun s => Q s s := rfl

theorem wp_modify {f : σ → σ} {Q : Unit → σ → Prop} :
    wp (modify f) Q E = fun s => Q () (f s) := rfl

theorem wp_ofExcept {r : Except ε α} :
    wp (ofExcept r) Q E =
      fun s => (∀ a, r = .ok a → Q a s) ∧ ∀ e, r = .error e → E e s := by
  funext s
  cases r with
  | ok a => simp [wp, ofExcept]
  | error e => simp [wp, ofExcept]

theorem wp_ite {c : Prop} [Decidable c] {y : Action σ ε α} :
    wp (if c then x else y) Q E = fun s => (c → wp x Q E s) ∧ (¬ c → wp y Q E s) := by
  split <;> simp [*]

theorem wp_catching {handler : ε → Option (Action σ ε α)} :
    wp (x.catching handler) Q E =
      wp x Q fun e s' => match handler e with
        | some y => wp y Q E s'
        | none => E e s' := by
  funext s
  rw [wp, catching, wp]
  cases hx : x s with
  | mk r s' =>
      cases r with
      | ok a => rfl
      | error e =>
          simp only
          cases handler e <;> rfl

theorem wp_mono (h : wp x Q E s) (hQ : ∀ a s', Q a s' → Q' a s') (hE : ∀ e s', E e s' → E' e s') :
    wp x Q' E' s := by
  rw [wp] at h ⊢
  cases hx : x s with
  | mk r s' =>
      rw [hx] at h
      cases r with
      | ok a => exact hQ a s' h
      | error e => exact hE e s' h

theorem wp_true (x : Action σ ε α) (s : σ) : wp x (fun _ _ => True) (fun _ _ => True) s := by
  rw [wp]
  split <;> trivial

theorem wp_result (x : Action σ ε α) (s : σ) :
    wp x (fun a s' => x s = (.ok a, s')) (fun e s' => x s = (.error e, s')) s := by
  rw [wp]
  split
  · assumption
  · assumption

theorem wp_and (h : wp x Q E s) (h' : wp x Q' E' s) :
    wp x (fun a s' => Q a s' ∧ Q' a s') (fun e s' => E e s' ∧ E' e s') s := by
  rw [wp] at h h' ⊢
  cases hx : x s with
  | mk r s' =>
      rw [hx] at h h'
      cases r with
      | ok a => exact ⟨h, h'⟩
      | error e => exact ⟨h, h'⟩

theorem of_wp_ok {a : α} (h : wp x Q E s) (hx : x s = (.ok a, s')) : Q a s' := by
  rw [wp, hx] at h
  exact h

theorem of_wp_error {e : ε} (h : wp x Q E s) (hx : x s = (.error e, s')) : E e s' := by
  rw [wp, hx] at h
  exact h

end Action

end PgFort.Stateful
