import Mathlib.Data.List.Basic

/-!
# Sessions

Questions are put to a state one after another. Each gets its answer and may change the state for those
that follow.

* `answerAll`: the answers to questions in order, and the state then.
* `getElem?_answerAll`: an answer comes from the state that the earlier questions led to.
* `answerAll_keeps`, `mem_answerAll`: what no question breaks holds whenever one is answered, and at the end.
-/

namespace PagedKernel

variable {σ Q R : Type} (answer : σ → Q → R × σ)

/-- The answers to questions one after another, and the state then. -/
def answerAll (s : σ) : List Q → List R × σ
  | [] => ([], s)
  | q :: rest =>
    let (reply, s) := answer s q
    let (replies, s) := answerAll s rest
    (reply :: replies, s)

theorem answerAll_cons (s : σ) (q : Q) (rest : List Q) :
    answerAll answer s (q :: rest) =
      ((answer s q).1 :: (answerAll answer (answer s q).2 rest).1,
        (answerAll answer (answer s q).2 rest).2) := rfl

/-- Every answer comes from the state that the questions before it have led to. -/
theorem getElem?_answerAll (s : σ) (qs : List Q) (i : Nat) :
    (answerAll answer s qs).1[i]? =
      qs[i]?.map fun q => (answer (answerAll answer s (qs.take i)).2 q).1 := by
  induction qs generalizing s i with
  | nil => rfl
  | cons q qs ih =>
    rw [answerAll_cons]
    cases i with
    | zero => rfl
    | succ i => exact ih (answer s q).2 i

variable {answer} {P : σ → Prop}

/-- What no question breaks holds after all of them. -/
theorem answerAll_keeps (hKeep : ∀ s q, P s → P (answer s q).2) {s : σ} (hP : P s) (qs : List Q) :
    P (answerAll answer s qs).2 := by
  induction qs generalizing s with
  | nil => exact hP
  | cons q qs ih => exact ih (hKeep s q hP)

theorem mem_answerAll (hKeep : ∀ s q, P s → P (answer s q).2) {s : σ} (hP : P s) {qs : List Q} {r : R}
    (hr : r ∈ (answerAll answer s qs).1) : ∃ s' q, P s' ∧ (answer s' q).1 = r := by
  obtain ⟨i, hi⟩ := List.mem_iff_getElem?.1 hr
  rw [getElem?_answerAll] at hi
  obtain ⟨q, -, hq⟩ := Option.map_eq_some_iff.1 hi
  exact ⟨_, q, answerAll_keeps hKeep hP (qs.take i), hq⟩

end PagedKernel
