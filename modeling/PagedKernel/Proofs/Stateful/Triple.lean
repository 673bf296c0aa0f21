import PagedKernel.Proofs.Stateful.Simulation

/-!
# What a computation comes to

A triple says what is known of the value and of the state that a computation comes to, and of the state
in which it breaks a precondition. Where the value matters for what follows, a triple carries it; where
it does not, keeping an invariant is enough.

* `Meets`: from states where `P` holds, a value comes with `Q`, and a violation with `B`.
* `Meets.bind`, `Meets.after`: triples one after another, and after what keeps an invariant.
* `Keeps.lift`: a value that is there or not changes nothing.
-/

namespace PagedKernel.Stateful

variable {σ α β : Type} {V : Violation → Prop} {P : σ → Prop} {Q : α → σ → Prop}
  {Q' : β → σ → Prop} {B : σ → Prop} {x : Stateful σ α} {f : α → Stateful σ β}

/-- From states where `P` holds the computation comes to a value with which `Q` holds, or it breaks a
precondition where `B` holds. -/
def Meets (P : σ → Prop) (x : Stateful σ α) (Q : α → σ → Prop) (B : σ → Prop) : Prop :=
  ∀ s, P s → match x s with
    | .ok a s' => Q a s'
    | .error _ s' => B s'

namespace Meets

theorem pure {a : α} (h : ∀ s, P s → Q a s) : Meets P (Pure.pure a : Stateful σ α) Q B :=
  fun s hP => h s hP

theorem bind (hx : Meets P x Q B) (hf : ∀ a, Meets (Q a) (f a) Q' B) : Meets P (x >>= f) Q' B := by
  intro s hP
  have hFirst := hx s hP
  cases hEnd : x s with
  | ok a s' =>
    rw [hEnd] at hFirst
    rw [bind_ok hEnd]
    exact hf a s' hFirst
  | error v s' =>
    rw [hEnd] at hFirst
    rw [bind_error hEnd]
    exact hFirst

theorem imp {R : α → σ → Prop} (h : Meets P x Q B) (hQ : ∀ a s, Q a s → R a s) : Meets P x R B := by
  intro s hP
  have hEnd := h s hP
  cases hx : x s with
  | ok a s' =>
    rw [hx] at hEnd
    exact hQ a s' hEnd
  | error v s' =>
    rw [hx] at hEnd
    exact hEnd

theorem of_imp {R : σ → Prop} (h : Meets P x Q B) (hP : ∀ s, R s → P s) : Meets R x Q B :=
  fun s hR => h s (hP s hR)

theorem query {f : σ → Checked α} :
    Meets P (query f) (fun a s => P s ∧ f s = .ok a) P := by
  intro s hP
  rw [PagedKernel.query]
  cases hf : f s with
  | ok a => exact ⟨hP, hf⟩
  | error v => exact hP

theorem lift_bind {c : Checked α} {a : α} (hc : c = .ok a) (hf : Meets P (f a) Q' B) :
    Meets P ((liftM c : Stateful σ α) >>= f) Q' B := by
  intro s hP
  rw [bind_ok (lift_ok hc)]
  exact hf s hP

/-- What a computation is known to come to, if it is known at all. -/
theorem of_ok (h : ∀ s, P s → ∃ a s', x s = .ok a s' ∧ Q a s') : Meets P x Q B := by
  intro s hP
  obtain ⟨a, s', hx, hQ⟩ := h s hP
  rw [hx]
  exact hQ

end Meets

namespace Keeps

theorem meets (h : Keeps V P x) : Meets P x (fun _ => P) P := by
  intro s hP
  have hEnd := h s s ⟨rfl, hP⟩
  cases hx : x s with
  | ok a s' =>
    rw [hx] at hEnd
    cases hEnd with
    | ok _ hState => exact hState.2
  | error v s' =>
    rw [hx] at hEnd
    cases hEnd with
    | error _ hState => exact hState.2

theorem lift (hV : ∀ v, V v) (c : Checked α) : Keeps V P (liftM c : Stateful σ α) := by
  rintro s _ ⟨rfl, hP⟩
  cases c with
  | ok a => exact .ok a ⟨rfl, hP⟩
  | error v => exact .error (hV v) ⟨rfl, hP⟩

end Keeps

/-- A triple after a computation that keeps an invariant. -/
theorem Meets.after (hf : ∀ a, Meets P (f a) Q' P) (hx : Keeps V P x) : Meets P (x >>= f) Q' P :=
  hx.meets.bind hf

end PagedKernel.Stateful
