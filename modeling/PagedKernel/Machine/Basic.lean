import PagedKernel.FrameAllocator
import PagedKernel.Machine.Notice
import PagedKernel.Memory.Table
import PagedKernel.Mmu

/-!
# The machine

Paging code works on a machine: memory, the allocator of its frames, the memory-management unit and
the log. A computation on the machine is `MachineM`; when it meets a violation, the machine stays as
it was then.

* `onMemory`, `onFrames`: a computation on one part.
* `look`: a question about memory, which changes nothing.
* `takeFrame?`, `giveFrame`, `setEntry`, `writeTable`, `note`: the steps that paging is made of.
-/

namespace PagedKernel

/-- The parts that paging code works on. -/
structure Machine where
  memory : Memory
  frames : FrameAllocator
  mmu : Mmu
  /-- What was reported, latest first. -/
  log : List Notice

abbrev MachineM (α : Type) := Stateful Machine α

namespace Machine

def ofFrames (frames : Nat) (active : Frame) : Machine where
  memory := .zeroed frames
  frames := .ofFrames frames
  mmu := .ofRoot active
  log := []

/-- The reports so far, oldest first, and the machine with an empty log. -/
def takeLog (s : Machine) : List Notice × Machine := (s.log.reverse, { s with log := [] })

end Machine

namespace MachineM

@[inline] def onMemory {α : Type} (f : Stateful Memory α) : MachineM α := fun s =>
  let ⟨memory, frames, mmu, log⟩ := s
  match f memory with
  | .ok a memory => .ok a ⟨memory, frames, mmu, log⟩
  | .error v memory => .error v ⟨memory, frames, mmu, log⟩

@[inline] def onFrames {α : Type} (f : Stateful FrameAllocator α) : MachineM α := fun s =>
  let ⟨memory, frames, mmu, log⟩ := s
  match f frames with
  | .ok a frames => .ok a ⟨memory, frames, mmu, log⟩
  | .error v frames => .error v ⟨memory, frames, mmu, log⟩

@[inline] def look {α : Type} (f : Memory → Checked α) : MachineM α := query fun s => f s.memory

@[inline] def alter (f : Memory → Memory) : MachineM Unit :=
  onMemory fun m => .ok () (f m)

@[inline] def tell (f : Mmu → Mmu) : MachineM Unit := modify fun s => { s with mmu := f s.mmu }

def note (n : Notice) : MachineM Unit := modify fun s => { s with log := n :: s.log }

/-- A frame from the allocator, if it has one to give. -/
def takeFrame? : MachineM (Option Frame) :=
  onFrames fun a => let (f, a) := a.alloc; .ok f a

def takeFrame : MachineM Frame := do
  match ← takeFrame? with
  | some f => return f
  | none => throw .framesExhausted

def giveFrame (f : Frame) : MachineM Unit := onFrames (FrameAllocator.release f)

def setEntry (s : Slot) (e : Entry) : MachineM Unit := alter (·.setEntry s e)

def writeTable (f : Frame) (t : PageTable) : MachineM Unit := do
  look (·.requireTable f)
  alter (·.setTable f t)

end MachineM

end PagedKernel
