import PagedKernel.KernelSpace.Published
import PagedKernel.Proofs.Stateful.Sessions

/-!
# What becomes of the values offered to a cell

Of all values offered to a cell that is assigned once, the first stays in it and is found from then on. Each
of the others is handed back at once. So it is with the address spaces offered for publication.

* `WriteOnce.offers`, `WriteOnce.expected`: the values offered, and the answer that they leave to a step.
* `WriteOnce.refuses_while_writing`: a cell that somebody has taken shows nothing and accepts nothing.
* `WriteOnce.answerAll_offers`: where the offers decide what comes of a step, they decide all of a history.
* `PublishedSpace.answer`: a step at the place of publication.
* `WriteOnce.keeps_first`: the answers, and the values dropped, after any steps.
-/

namespace PagedKernel

namespace WriteOnce

variable {α : Type} {c c' : WriteOnce α} {a : α} {past : List α} {s : Step α}

/-! ## Offers -/

def Step.offer? : Step α → Option α
  | .get => none
  | .set a => some a

def offers (steps : List (Step α)) : List α := steps.filterMap Step.offer?

/-- The answer to a step when these values were offered before. -/
def expected (past : List α) : Step α → Answer α
  | .get => .found past.head?
  | .set a => if past.isEmpty then .accepted a else .refused a

theorem offers_cons (s : Step α) (steps : List (Step α)) : offers (s :: steps) = offers [s] ++ offers steps :=
  List.filterMap_append (l := [s])

theorem offers_take_succ {steps : List (Step α)} {i : Nat} (h : steps[i]? = some s) :
    offers (steps.take (i + 1)) = offers (steps.take i) ++ offers [s] := by
  rw [List.take_add_one, h, offers, List.filterMap_append]
  rfl

/-- Where the values offered so far decide what comes of a step, they decide what comes of all. -/
theorem answerAll_offers {σ R : Type} (state : List α → σ) {answer : σ → Step α → R × σ}
    {reply : List α → Step α → R}
    (h : ∀ past s, answer (state past) s = (reply past s, state (past ++ offers [s])))
    (steps : List (Step α)) :
    (answerAll answer (state []) steps).2 = state (offers steps) ∧
      ∀ i, (answerAll answer (state []) steps).1[i]? = steps[i]?.map (reply (offers (steps.take i))) := by
  have hState : ∀ past steps, (answerAll answer (state past) steps).2 = state (past ++ offers steps) := by
    intro past steps
    induction steps generalizing past with
    | nil => exact congrArg state (List.append_nil past).symm
    | cons s steps ih => rw [answerAll_cons, h, ih, List.append_assoc, ← offers_cons]
  refine ⟨hState [] steps, fun i => ?_⟩
  rw [getElem?_answerAll]
  refine congrArg (Option.map · steps[i]?) (funext fun s => ?_)
  rw [hState, h, List.nil_append]

/-! ## A cell between two steps -/

def offered : List α → WriteOnce α
  | [] => empty
  | a :: _ => empty.publish a

theorem get_offered (past : List α) : (offered past).get = past.head? := by
  cases past <;> rfl

theorem drop_offered (past : List α) : (offered past).drop = past.head?.toList := by
  cases past <;> rfl

theorem stage_offered (past : List α) : (offered past).stage = if past.isEmpty then .empty else .full := by
  cases past <;> rfl

/-- Those who come while a value is being written find nothing, and get their own value back. -/
theorem refuses_while_writing (h : c.beginInit = some c') : c'.get = none ∧ c'.set a = (.error a, c') := by
  rw [beginInit] at h
  split at h
  · cases h
    exact ⟨rfl, rfl⟩
  · cases h

theorem step_offered (past : List α) (s : Step α) :
    (offered past).step s = (expected past s, offered (past ++ offers [s])) := by
  cases s with
  | get =>
    show (Answer.found (offered past).get, offered past) = (.found past.head?, offered (past ++ []))
    rw [get_offered, List.append_nil]
  | set a => cases past <;> rfl

/-! ## The values that are dropped -/

def recorded : WriteOnce α × List α → Step α → (Answer α × List α) × WriteOnce α × List α
  | (c, dropped), s =>
    let (answer, c) := c.step s
    ((answer, dropped ++ answer.dropped), c, dropped ++ answer.dropped)

theorem runFrom_eq_answerAll (c : WriteOnce α) (dropped : List α) (steps : List (Step α)) :
    runFrom c dropped steps = answerAll recorded (c, dropped) steps := by
  induction steps generalizing c dropped with
  | nil => rfl
  | cons s steps ih =>
    simp only [runFrom, ih]
    rfl

/-- All but the first of the values offered are dropped, each as it is refused. -/
theorem dropped_expected (past : List α) (s : Step α) :
    past.tail ++ (expected past s).dropped = (past ++ offers [s]).tail := by
  cases s with
  | get =>
    show past.tail ++ [] = (past ++ []).tail
    rw [List.append_nil, List.append_nil]
  | set a => cases past <;> rfl

theorem recorded_offered (past : List α) (s : Step α) :
    recorded (offered past, past.tail) s =
      ((expected past s, (past ++ offers [s]).tail),
        (offered (past ++ offers [s]), (past ++ offers [s]).tail)) := by
  rw [recorded, step_offered, ← dropped_expected]

/-- What a history comes to, and what it answers, step by step. -/
theorem runFrom_empty (steps : List (Step α)) :
    (runFrom empty [] steps).2 = (offered (offers steps), (offers steps).tail) ∧
      ∀ i, (runFrom empty [] steps).1[i]? = steps[i]?.map fun s =>
        (expected (offers (steps.take i)) s, (offers (steps.take (i + 1))).tail) := by
  rw [runFrom_eq_answerAll]
  obtain ⟨hLast, hAnswers⟩ :=
    answerAll_offers (fun past : List α => (offered past, past.tail)) recorded_offered steps
  refine ⟨hLast, fun i => (hAnswers i).trans ?_⟩
  cases hStep : steps[i]? with
  | none => rfl
  | some s =>
    rw [offers_take_succ hStep]
    rfl

end WriteOnce

/-! ## Publication -/

namespace PublishedSpace

open WriteOnce (offers offered expected get_offered)

/-- A step at the place of publication: what is answered there, and what is reported. -/
def answer (c : PublishedSpace) :
    WriteOnce.Step KernelSpace → (WriteOnce.Answer KernelSpace × List Notice) × PublishedSpace
  | .get => ((.found c.get, []), c)
  | .set k =>
    match install k c with
    | ((.ok k, notices), c) => ((.accepted k, notices), c)
    | ((.error k, notices), c) => ((.refused k, notices), c)

def notices (past : List KernelSpace) : WriteOnce.Step KernelSpace → List Notice
  | .get => []
  | .set k => if past.isEmpty then [.kernelInstalled k.root] else []

theorem answer_offered (past : List KernelSpace) (s : WriteOnce.Step KernelSpace) :
    answer (offered past) s = ((expected past s, notices past s), offered (past ++ offers [s])) := by
  cases s with
  | get =>
    show ((WriteOnce.Answer.found (offered past).get, []), offered past) =
      ((.found past.head?, []), offered (past ++ []))
    rw [get_offered, List.append_nil]
  | set k => cases past <;> rfl

end PublishedSpace

namespace WriteOnce

variable {α : Type}

/-- In any history of a cell the first offer is accepted and every later one handed back; until the first
offer nothing is found, and from then on the value that was offered first. After each step just the offers
handed back so far have been dropped, in order. Between steps the cell is full or empty, as something was
offered or not. When it is dropped, its value follows: then each value offered was dropped, and none of them
twice. Where address spaces are published it is the same, and just the first one is reported. -/
theorem keeps_first (steps : List (Step α)) (calls : List (Step KernelSpace)) :
    (∀ i, (run steps).1[i]? = steps[i]?.map fun s =>
        (expected (offers (steps.take i)) s, (offers (steps.take (i + 1))).tail)) ∧
      (runFrom empty [] steps).2.1.stage = (if (offers steps).isEmpty then .empty else .full) ∧
      (run steps).2 = (offers steps).tail ++ (offers steps).head?.toList ∧
      (run steps).2.Perm (offers steps) ∧
      (∀ i, (answerAll PublishedSpace.answer empty calls).1[i]? = calls[i]?.map fun s =>
        (expected (offers (calls.take i)) s, PublishedSpace.notices (offers (calls.take i)) s)) ∧
      (answerAll PublishedSpace.answer empty calls).2.get = (offers calls).head? := by
  obtain ⟨hLast, hAnswers⟩ := runFrom_empty steps
  obtain ⟨hPublished, hInstalls⟩ := answerAll_offers offered PublishedSpace.answer_offered calls
  have hDropped : (run steps).2 = (offers steps).tail ++ (offers steps).head?.toList := by
    show (runFrom empty [] steps).2.2 ++ (runFrom empty [] steps).2.1.drop = _
    rw [hLast, drop_offered]
  refine ⟨hAnswers, ?_, hDropped, ?_, hInstalls, ?_⟩
  · rw [hLast, stage_offered]
  · rw [hDropped]
    cases offers steps with
    | nil => exact .nil
    | cons a rest => exact List.perm_append_comm
  · exact (congrArg get hPublished).trans (get_offered _)

end WriteOnce

end PagedKernel
