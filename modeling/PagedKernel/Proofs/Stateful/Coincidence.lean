import PagedKernel.Proofs.Machine.Steps

/-!
# Computations that coincide

A computation that is run from two states comes to the same thing twice when it reads only what the states
have in common. What the states have in common afterwards may depend on the value.

* `Coincide`: two ends with one value, or with one violation, and what is known of the states.
* `Coincide.bind`, `Coincide.query_bind` and their like: how two ends come about step by step.
-/

namespace PagedKernel.Stateful

variable {σ τ α β : Type} {Q : α → σ → τ → Prop} {Q' : β → σ → τ → Prop} {B : σ → τ → Prop}

/-- Two computations have ended with one value and states that `Q` relates, or with one violation and
states that `B` relates. -/
inductive Coincide (Q : α → σ → τ → Prop) (B : σ → τ → Prop) :
    EStateM.Result Violation σ α → EStateM.Result Violation τ α → Prop
  | ok (a : α) {s : σ} {t : τ} (hState : Q a s t) : Coincide Q B (.ok a s) (.ok a t)
  | error (v : Violation) {s : σ} {t : τ} (hState : B s t) : Coincide Q B (.error v s) (.error v t)

namespace Coincide

theorem imp {R : α → σ → τ → Prop} {p : EStateM.Result Violation σ α}
    {q : EStateM.Result Violation τ α} (h : Coincide Q B p q) (hQ : ∀ a s t, Q a s t → R a s t) :
    Coincide R B p q := by
  cases h with
  | ok a hState => exact .ok a (hQ a _ _ hState)
  | error v hState => exact .error v hState

variable {x : Stateful σ α} {y : Stateful τ α} {f : α → Stateful σ β} {g : α → Stateful τ β} {s : σ} {t : τ}

theorem bind (hx : Coincide Q B (x s) (y t))
    (hf : ∀ a s' t', Q a s' t' → Coincide Q' B (f a s') (g a t')) :
    Coincide Q' B ((x >>= f) s) ((y >>= g) t) := by
  show Coincide Q' B (EStateM.bind x f s) (EStateM.bind y g t)
  rw [EStateM.bind, EStateM.bind]
  generalize x s = p, y t = q at hx
  cases hx with
  | ok a hState => exact hf a _ _ hState
  | error v hState => exact .error v hState

theorem lift_bind {c : Checked α} (hB : B s t)
    (hf : ∀ a, c = .ok a → Coincide Q' B (f a s) (g a t)) :
    Coincide Q' B (((liftM c : Stateful σ α) >>= f) s) (((liftM c : Stateful τ α) >>= g) t) := by
  cases hc : c with
  | ok a =>
    rw [bind_ok (lift_ok rfl), bind_ok (lift_ok rfl)]
    exact hf a hc
  | error v =>
    rw [bind_error (lift_error rfl), bind_error (lift_error rfl)]
    exact .error v hB

theorem query_bind {c : σ → Checked α} {d : τ → Checked α} (hSame : d t = c s) (hB : B s t)
    (hf : ∀ a, c s = .ok a → Coincide Q' B (f a s) (g a t)) :
    Coincide Q' B ((query c >>= f) s) ((query d >>= g) t) := by
  cases hc : c s with
  | ok a =>
    have hLeft : query c s = .ok a s := by rw [query, hc]
    have hRight : query d t = .ok a t := by rw [query, hSame, hc]
    rw [bind_ok hLeft, bind_ok hRight]
    exact hf a hc
  | error v =>
    have hLeft : query c s = .error v s := by rw [query, hc]
    have hRight : query d t = .error v t := by rw [query, hSame, hc]
    rw [bind_error hLeft, bind_error hRight]
    exact .error v hB

end Coincide

end PagedKernel.Stateful
