import PagedKernel.Proofs.Machine.Script
import PagedKernel.Walk

/-!
# A unit that remembers

A memory-management unit may remember which entry maps a page, so that it need not walk the tables
again. What it remembers is taken from the tree under the active root, at any moment that it likes;
loading a root makes it forget all but the global entries, and it forgets a page when it is told to.
Nothing else need make it forget, so what it remembers may be stale.

* `Memory.Maps`: the tree under a root maps a page.
* `Tlb`, `Action.onTlb`: what is remembered, and what an action does to it.
* `Script.Runs`: a script runs while the unit takes up entries before, after and between its actions.
* `Coherent`, `CoherentBut`: what is remembered is so, or may be stale of one page.
* `Script.Coheres`: whatever the unit takes up while the script runs, it is so afterwards, if it was so
  before.
-/

namespace PagedKernel

/-- The present leaf entry of a page in the tree under a root. Processors know canonical addresses only. -/
structure Memory.Maps (m : Memory) (root : Frame) (p : Page) (e : Entry) : Prop where
  canonical : p.base.isCanonical = true
  leaf_eq : m.leaf? root p.base = .ok (some e)
  present : e.present = true

/-- Pages, with the entries that are remembered of them. -/
abbrev Tlb := List (Page × Entry)

def Action.onTlb : Action → Tlb → Tlb
  | load _, tlb => tlb.filter (·.2.flag .global)
  | invalidate p, tlb => tlb.filter (·.1 ≠ p)
  | setEntry _ _, tlb | frames _, tlb | note _, tlb => tlb

/-- Some of what is mapped was taken up, and anything may have been dropped. -/
def Fills (m : Machine) (tlb tlb' : Tlb) : Prop :=
  ∀ x ∈ tlb', x ∈ tlb ∨ m.memory.Maps m.mmu.active x.1 x.2

/-- What is remembered is so. -/
def Coherent (m : Machine) (tlb : Tlb) : Prop :=
  ∀ x ∈ tlb, m.memory.Maps m.mmu.active x.1 x.2

variable {α β : Type} {m m' : Machine} {tlb tlb' : Tlb}

theorem Fills.refl (m : Machine) (tlb : Tlb) : Fills m tlb tlb := fun _ => Or.inl

/-- What holds of all that is mapped goes on to hold of what is remembered. -/
theorem Fills.forall {P : Page × Entry → Prop} (hFill : Fills m tlb tlb')
    (hMaps : ∀ x, m.memory.Maps m.mmu.active x.1 x.2 → P x) (h : ∀ x ∈ tlb, P x) :
    ∀ x ∈ tlb', P x := by
  intro x hx
  exact (hFill x hx).elim (h x) (hMaps x)

theorem Coherent.fills (h : Coherent m tlb) (hFill : Fills m tlb tlb') : Coherent m tlb' :=
  hFill.forall (fun _ => id) h

theorem Coherent.mono (h : Coherent m tlb)
    (hMaps : ∀ p e, m.memory.Maps m.mmu.active p e → m'.memory.Maps m'.mmu.active p e) :
    Coherent m' tlb :=
  fun x hx => hMaps x.1 x.2 (h x hx)

/-- What is remembered is so, but of one page it may be stale. -/
def CoherentBut (p : Page) (m : Machine) (tlb : Tlb) : Prop :=
  ∀ x ∈ tlb, x.1 ≠ p → m.memory.Maps m.mmu.active x.1 x.2

theorem CoherentBut.fills {p : Page} (h : CoherentBut p m tlb) (hFill : Fills m tlb tlb') :
    CoherentBut p m tlb' :=
  hFill.forall (fun _ hMaps _ => hMaps) h

theorem CoherentBut.invalidate {p : Page} (h : CoherentBut p m tlb) :
    Coherent ((Action.invalidate p).apply m) ((Action.invalidate p).onTlb tlb) := by
  intro x hx
  obtain ⟨hMem, hNe⟩ := List.mem_filter.1 hx
  exact h x hMem (of_decide_eq_true hNe)

namespace Script

/-- The script runs from one machine to another, while the unit takes up entries as it likes. -/
inductive Runs : Script α → Machine → Tlb → Checked α → Machine → Tlb → Prop
  | done {outcome : Checked α} {m : Machine} {tlb tlb' : Tlb} (hFill : Fills m tlb tlb') :
      Runs (done outcome) m tlb outcome m tlb'
  | look {rest : Machine → Script α} {m m' : Machine} {tlb tlb₁ tlb' : Tlb} {outcome : Checked α}
      (hFill : Fills m tlb tlb₁) (hRest : Runs (rest m) m tlb₁ outcome m' tlb') :
      Runs (look rest) m tlb outcome m' tlb'
  | act {a : Action} {rest : Script α} {m m' : Machine} {tlb tlb₁ tlb' : Tlb} {outcome : Checked α}
      (hFill : Fills m tlb tlb₁) (hRest : Runs rest (a.apply m) (a.onTlb tlb₁) outcome m' tlb') :
      Runs (act a rest) m tlb outcome m' tlb'

variable {x : Script α} {f : α → Script β} {outcome : Checked α}

/-- What is taken up makes no difference to the machine. -/
theorem Runs.run_eq (h : Runs x m tlb outcome m' tlb') : x.run m = (Script.done outcome).run m' := by
  induction h with
  | done => rfl
  | look _ _ ih => exact ih
  | act _ _ ih => exact ih

theorem Runs.of_done {o : Checked α} (h : Runs (Script.done o) m tlb outcome m' tlb') :
    m' = m ∧ Fills m tlb tlb' := by
  cases h with
  | done hFill => exact ⟨rfl, hFill⟩

theorem Runs.of_look {rest : Machine → Script α} (h : Runs (Script.look rest) m tlb outcome m' tlb') :
    ∃ tlb₁, Fills m tlb tlb₁ ∧ Runs (rest m) m tlb₁ outcome m' tlb' := by
  cases h with
  | look hFill hRest => exact ⟨_, hFill, hRest⟩

theorem Runs.of_act {a : Action} (h : Runs (Script.act a x) m tlb outcome m' tlb') :
    ∃ tlb₁, Fills m tlb tlb₁ ∧ Runs x (a.apply m) (a.onTlb tlb₁) outcome m' tlb' := by
  cases h with
  | act hFill hRest => exact ⟨_, hFill, hRest⟩

theorem Runs.of_bind {outcome : Checked β} (h : Runs (x >>= f) m tlb outcome m' tlb') :
    (∃ v, outcome = .error v ∧ Runs x m tlb (.error v) m' tlb') ∨
      ∃ a m₁ tlb₁, Runs x m tlb (.ok a) m₁ tlb₁ ∧ Runs (f a) m₁ tlb₁ outcome m' tlb' := by
  induction x generalizing m tlb with
  | done o =>
    cases o with
    | ok a => exact Or.inr ⟨a, m, tlb, .done (Fills.refl m tlb), h⟩
    | error v =>
      cases h with
      | done hFill => exact Or.inl ⟨v, rfl, .done hFill⟩
  | look rest ih =>
    obtain ⟨tlb₁, hFill, hRest⟩ := h.of_look
    rcases ih m hRest with ⟨v, hv, hx⟩ | ⟨a, m₁, tlb₁, hx, hf⟩
    · exact Or.inl ⟨v, hv, .look hFill hx⟩
    · exact Or.inr ⟨a, m₁, tlb₁, .look hFill hx, hf⟩
  | act a rest ih =>
    obtain ⟨tlb₁, hFill, hRest⟩ := h.of_act
    rcases ih hRest with ⟨v, hv, hx⟩ | ⟨a, m₁, tlb₁, hx, hf⟩
    · exact Or.inl ⟨v, hv, .act hFill hx⟩
    · exact Or.inr ⟨a, m₁, tlb₁, .act hFill hx, hf⟩

/-- Every script can run, whatever is remembered. -/
theorem exists_runs (x : Script α) (m : Machine) (tlb : Tlb) :
    ∃ outcome m' tlb', Runs x m tlb outcome m' tlb' := by
  induction x generalizing m tlb with
  | done o => exact ⟨o, m, tlb, .done (Fills.refl m tlb)⟩
  | look rest ih =>
    obtain ⟨o, m', tlb', hRest⟩ := ih m m tlb
    exact ⟨o, m', tlb', .look (Fills.refl m tlb) hRest⟩
  | act a rest ih =>
    obtain ⟨o, m', tlb', hRest⟩ := ih (a.apply m) (a.onTlb tlb)
    exact ⟨o, m', tlb', .act (Fills.refl m tlb) hRest⟩

/-- Whatever is taken up on the way, what is remembered in the end is so. -/
def Coheres (x : Script α) (m : Machine) : Prop :=
  ∀ tlb, Coherent m tlb → ∀ outcome m' tlb', Runs x m tlb outcome m' tlb' → Coherent m' tlb'

namespace Coheres

theorem done (o : Checked α) (m : Machine) : Coheres (Script.done o) m := by
  intro tlb hTlb outcome m' tlb' hRuns
  obtain ⟨rfl, hFill⟩ := hRuns.of_done
  exact hTlb.fills hFill

theorem look {rest : Machine → Script α} (h : Coheres (rest m) m) :
    Coheres (Script.look rest) m := by
  intro tlb hTlb outcome m' tlb' hRuns
  obtain ⟨tlb₁, hFill, hRest⟩ := hRuns.of_look
  exact h tlb₁ (hTlb.fills hFill) _ _ _ hRest

theorem act {a : Action} {rest : Script α}
    (hAction : ∀ tlb, Coherent m tlb → Coherent (a.apply m) (a.onTlb tlb))
    (h : Coheres rest (a.apply m)) : Coheres (Script.act a rest) m := by
  intro tlb hTlb outcome m' tlb' hRuns
  obtain ⟨tlb₁, hFill, hRest⟩ := hRuns.of_act
  exact h _ (hAction tlb₁ (hTlb.fills hFill)) _ _ _ hRest

theorem bind (hx : Coheres x m) (hf : ∀ a m', x.run m = .ok a m' → Coheres (f a) m') :
    Coheres (x >>= f) m := by
  intro tlb hTlb outcome m' tlb' hRuns
  rcases hRuns.of_bind with ⟨v, -, hFirst⟩ | ⟨a, m₁, tlb₁, hFirst, hSecond⟩
  · exact hx tlb hTlb _ _ _ hFirst
  · exact hf a m₁ hFirst.run_eq tlb₁ (hx tlb hTlb _ _ _ hFirst) _ _ _ hSecond

theorem done_bind {c : Checked α} (h : ∀ a, c = .ok a → Coheres (f a) m) :
    Coheres (Script.done c >>= f) m := by
  cases c with
  | error v => exact .done _ m
  | ok a => exact h a rfl

theorem ask_bind {c : Memory → Checked α} (h : ∀ a, c m.memory = .ok a → Coheres (f a) m) :
    Coheres (Script.ask c >>= f) m :=
  .look (.done_bind h)

theorem perform_bind {a : Action} {f : Unit → Script β}
    (hAction : ∀ tlb, Coherent m tlb → Coherent (a.apply m) (a.onTlb tlb))
    (h : Coheres (f ()) (a.apply m)) : Coheres (Script.perform a >>= f) m :=
  .act hAction h

theorem unless_bind {c : Bool} {v : Violation} (h : c = true → Coheres x m) :
    Coheres (if c = true then x else Script.fail v >>= fun _ : PUnit => x) m := by
  split
  next hc => exact h hc
  next => exact .done _ m

theorem perform_note (n : Notice) (m : Machine) : Coheres (Script.perform (.note n)) m :=
  .act (fun _ => id) (.done _ _)

theorem giveFrame (f : Frame) (m : Machine) : Coheres (Script.giveFrame f) m := by
  refine .look ?_
  split
  · exact .act (fun _ => id) (.done _ _)
  · exact .done _ m

theorem takeFrame?_bind {f : Option Frame → Script β}
    (h : Coheres (f m.frames.alloc.1) { m with frames := m.frames.alloc.2 }) :
    Coheres (Script.takeFrame? >>= f) m :=
  .look (.act (fun _ => id) h)

end Coheres

end Script

end PagedKernel
