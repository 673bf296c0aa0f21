import PagedKernel.Proofs.Machine.Steps

/-!
# Computations step by step

A computation on the machine is a function from machines to machines, which does not tell what the
machine went through on the way. A script does: it says which looks at the machine and which actions the
computation is made of, one after another. An action is as small as the processor could tell apart:
tables are stored entry by entry. Running a script is a computation again.

* `Action`, `Script`: one action, and what is made of looks and actions.
* `Script.run`: the computation that a script spells out.
* `Script.run_bind` and its like: the scripts of the steps of paging, and of what is built from them.
* `Script.KeepsMmu`: a script leaves the memory-management unit as it is, as far as this matters.
-/

namespace PagedKernel

inductive Action where
  | setEntry (slot : Slot) (e : Entry)
  | frames (f : FrameAllocator → FrameAllocator)
  | note (n : Notice)
  | load (root : Frame)
  | invalidate (p : Page)

def Action.apply : Action → Machine → Machine
  | setEntry slot e, m => { m with memory := m.memory.setEntry slot e }
  | frames f, m => { m with frames := f m.frames }
  | note n, m => { m with log := n :: m.log }
  | load root, m => { m with mmu := m.mmu.load root }
  | invalidate p, m => { m with mmu := m.mmu.invalidate p }

/-- A computation on the machine, spelled out. -/
inductive Script (α : Type) where
  | done (outcome : Checked α)
  | look (rest : Machine → Script α)
  | act (a : Action) (rest : Script α)

namespace Script

def andThen {α β : Type} : Script α → (α → Script β) → Script β
  | done (.ok a), f => f a
  | done (.error v), _ => done (.error v)
  | look rest, f => look fun m => (rest m).andThen f
  | act a rest, f => act a (rest.andThen f)

instance : Monad Script where
  pure a := done (.ok a)
  bind := andThen

def run {α : Type} : Script α → MachineM α
  | done (.ok a), m => .ok a m
  | done (.error v), m => .error v m
  | look rest, m => (rest m).run m
  | act a rest, m => rest.run (a.apply m)

/-! ## The steps of paging -/

def fail {α : Type} (v : Violation) : Script α := done (.error v)

def ask {α : Type} (f : Memory → Checked α) : Script α := look fun m => done (f m.memory)

def perform (a : Action) : Script Unit := act a (pure ())

def takeFrame? : Script (Option Frame) :=
  look fun m => act (.frames fun a => a.alloc.2) (pure m.frames.alloc.1)

def giveFrame (f : Frame) : Script Unit :=
  look fun m =>
    if f ∈ m.frames.inUse then perform (.frames (·.releaseAll [f])) else fail (.notAllocated f)

def setEntries (f : Frame) (t : PageTable) : List TableIndex → Script Unit
  | [] => pure ()
  | i :: is => act (.setEntry ⟨f, i⟩ (t.get i)) (setEntries f t is)

def writeTable (f : Frame) (t : PageTable) : Script Unit := do
  ask (·.requireTable f)
  setEntries f t TableIndex.all

variable {α β : Type} {m : Machine}

@[simp] theorem run_pure (a : α) : (pure a : Script α).run = pure a := rfl

@[simp] theorem run_fail (v : Violation) : (fail v : Script α).run = throw v := rfl

@[simp] theorem run_bind (x : Script α) (f : α → Script β) :
    (x >>= f).run = x.run >>= fun a => (f a).run := by
  funext m
  induction x generalizing m with
  | done outcome => cases outcome <;> rfl
  | look rest ih => exact ih m m
  | act a rest ih => exact @ih (a.apply m)

@[simp] theorem run_ask (f : Memory → Checked α) : (ask f).run = MachineM.look f := by
  funext m
  show (done (f m.memory)).run m = _
  rw [MachineM.look, query]
  cases f m.memory <;> rfl

@[simp] theorem run_takeFrame? : takeFrame?.run = MachineM.takeFrame? := rfl

@[simp] theorem run_giveFrame (f : Frame) : (giveFrame f).run = MachineM.giveFrame f := by
  funext m
  by_cases hUse : f ∈ m.frames.inUse
  · rw [MachineM.giveFrame_of_mem hUse, giveFrame, run, if_pos hUse]
    rfl
  · rw [MachineM.giveFrame, MachineM.onFrames, FrameAllocator.release, if_neg hUse, giveFrame, run,
      if_neg hUse]
    rfl

@[simp] theorem run_setEntry (slot : Slot) (e : Entry) :
    (perform (.setEntry slot e)).run = MachineM.setEntry slot e := rfl

@[simp] theorem run_note (n : Notice) : (perform (.note n)).run = MachineM.note n := rfl

theorem run_setEntries (f : Frame) (t : PageTable) (is : List TableIndex) :
    (setEntries f t is).run = MachineM.alter (·.setEntries f t is) := by
  funext m
  induction is generalizing m with
  | nil => rfl
  | cons i is ih => exact ih _

@[simp] theorem run_writeTable (f : Frame) (t : PageTable) :
    (writeTable f t).run = MachineM.writeTable f t := by
  rw [writeTable, run_bind, run_ask]
  exact congrArg (MachineM.look (·.requireTable f) >>= ·)
    (funext fun _ => run_setEntries f t TableIndex.all)

theorem exists_run (x : Script α) (m : Machine) :
    ∃ outcome m', x.run m = (done outcome : Script α).run m' := by
  cases hEnd : x.run m with
  | ok a m' => exact ⟨.ok a, m', rfl⟩
  | error v m' => exact ⟨.error v, m', rfl⟩

/-! ## What becomes of the unit -/

/-- As long as the unit is as `J` says, the script does nothing to change that. -/
inductive KeepsMmu (J : Mmu → Prop) : Script α → Prop
  | done (outcome : Checked α) : KeepsMmu J (done outcome)
  | look {rest : Machine → Script α} (hRest : ∀ m, J m.mmu → KeepsMmu J (rest m)) :
      KeepsMmu J (look rest)
  | act {a : Action} {rest : Script α} (hAction : ∀ m, J m.mmu → J (a.apply m).mmu)
      (hRest : KeepsMmu J rest) : KeepsMmu J (act a rest)

namespace KeepsMmu

variable {J : Mmu → Prop}

theorem of_run {x : Script α} {outcome : Checked α} {m' : Machine} (h : KeepsMmu J x) (hJ : J m.mmu)
    (hRun : x.run m = (Script.done outcome).run m') : J m'.mmu := by
  induction h generalizing m with
  | done o =>
    cases o <;> cases outcome <;> cases hRun <;> exact hJ
  | look _ ih => exact ih m hJ hJ hRun
  | act hAction _ ih => exact ih (hAction m hJ) hRun

theorem pure (a : α) : KeepsMmu J (Pure.pure a : Script α) := .done _

theorem bind {x : Script α} {f : α → Script β} (hx : KeepsMmu J x) (hf : ∀ a, KeepsMmu J (f a)) :
    KeepsMmu J (x >>= f) := by
  induction hx with
  | done outcome =>
    cases outcome with
    | error v => exact .done _
    | ok a => exact hf a
  | look _ ih => exact .look ih
  | act hAction _ ih => exact .act hAction ih

theorem ask (f : Memory → Checked α) : KeepsMmu J (ask f) := .look fun _ _ => .done _

theorem perform {a : Action} (h : ∀ m, J m.mmu → J (a.apply m).mmu) : KeepsMmu J (perform a) :=
  .act h (.pure ())

theorem takeFrame? : KeepsMmu J takeFrame? := .look fun _ _ => .act (fun _ => id) (.pure _)

theorem giveFrame (f : Frame) : KeepsMmu J (giveFrame f) := by
  refine .look fun m _ => ?_
  split
  · exact perform fun _ => id
  · exact .done _

theorem writeTable (f : Frame) (t : PageTable) : KeepsMmu J (writeTable f t) := by
  refine (ask _).bind fun _ => ?_
  induction TableIndex.all with
  | nil => exact .pure ()
  | cons i is ih => exact .act (fun _ => id) ih

end KeepsMmu

end Script

end PagedKernel
