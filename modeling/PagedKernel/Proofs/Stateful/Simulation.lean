import PagedKernel.Proofs.Machine.Steps

/-!
# Computations that go together

Two computations go together when, from states that a relation `R` relates, both end in the same way:
with the same value, or with the same violation, and in related states again. Violations are let
through only as far as `V` says; with none let through, going together means that both come to a value.

The relation is carried through the steps of a computation, so it need be shown only of those that
touch the state. With `R` an equation and an invariant it says that one computation keeps the
invariant.

* `Simulates`: the two computations go together.
* `Simulates.bind`, `Simulates.lift_bind`: so do computations that are built from such.
* `Keeps`: a computation keeps an invariant.
-/

namespace PagedKernel.Stateful

variable {σ τ α β : Type} {V : Violation → Prop} {R : σ → τ → Prop}

/-- Two computations have ended in the same way. -/
inductive EndAlike (V : Violation → Prop) (R : σ → τ → Prop) :
    EStateM.Result Violation σ α → EStateM.Result Violation τ α → Prop
  | ok (a : α) {s : σ} {t : τ} (hState : R s t) : EndAlike V R (.ok a s) (.ok a t)
  | error {v : Violation} (hViolation : V v) {s : σ} {t : τ} (hState : R s t) :
      EndAlike V R (.error v s) (.error v t)

theorem EndAlike.exists_ok {p : EStateM.Result Violation σ α} {a : α} {t : τ}
    (h : EndAlike V R p (.ok a t)) : ∃ s, p = .ok a s ∧ R s t := by
  cases h with
  | ok _ hState => exact ⟨_, rfl, hState⟩

def Simulates (V : Violation → Prop) (R : σ → τ → Prop) (x : Stateful σ α) (y : Stateful τ α) : Prop :=
  ∀ s t, R s t → EndAlike V R (x s) (y t)

def Keeps (V : Violation → Prop) (P : σ → Prop) (x : Stateful σ α) : Prop :=
  Simulates V (fun s t => s = t ∧ P s) x x

namespace Simulates

variable {x : Stateful σ α} {y : Stateful τ α} {f : α → Stateful σ β} {g : α → Stateful τ β}

theorem pure (a : α) : Simulates V R (Pure.pure a : Stateful σ α) (Pure.pure a : Stateful τ α) := by
  intro s t hR
  exact .ok a hR

theorem bind (hx : Simulates V R x y) (hf : ∀ a, Simulates V R (f a) (g a)) :
    Simulates V R (x >>= f) (y >>= g) := by
  intro s t hR
  show EndAlike V R (EStateM.bind x f s) (EStateM.bind y g t)
  rw [EStateM.bind, EStateM.bind]
  have hEnd := hx s t hR
  generalize x s = p, y t = q at hEnd
  cases hEnd with
  | ok a hState => exact hf a _ _ hState
  | error hViolation hState => exact .error hViolation hState

theorem lift_bind {c : Checked α} {a : α} (hc : c = .ok a) (hf : Simulates V R (f a) (g a)) :
    Simulates V R ((liftM c : Stateful σ α) >>= f) ((liftM c : Stateful τ α) >>= g) := by
  intro s t hR
  rw [bind_ok (lift_ok hc), bind_ok (lift_ok hc)]
  exact hf s t hR

theorem refl (x : Stateful σ α) : Simulates (fun _ => True) Eq x x := by
  rintro s _ rfl
  cases x s with
  | ok a s' => exact .ok a rfl
  | error v s' => exact .error trivial rfl

theorem of_answers (h : ∀ s, ∃ a s', x s = .ok a s') : Simulates V Eq x x := by
  rintro s _ rfl
  obtain ⟨a, s', hx⟩ := h s
  rw [hx]
  exact .ok a rfl

/-- When no violation is let through, both computations come to a value. -/
theorem exists_ok (h : Simulates (fun _ => False) R x y) {s : σ} {t : τ} (hR : R s t) :
    ∃ a s' t', x s = .ok a s' ∧ y t = .ok a t' ∧ R s' t' := by
  have hEnd := h s t hR
  generalize x s = p, y t = q at hEnd
  cases hEnd with
  | ok a hState => exact ⟨a, _, _, rfl, rfl, hState⟩
  | error hViolation _ => exact hViolation.elim

end Simulates

namespace Keeps

variable {P : σ → Prop} {x : Stateful σ α}

theorem of_ok (h : ∀ s, P s → ∃ a s', x s = .ok a s' ∧ P s') : Keeps V P x := by
  rintro s _ ⟨rfl, hP⟩
  obtain ⟨a, s', hx, hP'⟩ := h s hP
  rw [hx]
  exact .ok a ⟨rfl, hP'⟩

end Keeps

end PagedKernel.Stateful
