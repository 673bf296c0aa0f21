import PagedKernel.Table.Level

/-!
# Broken preconditions

Every operation states what it needs of its caller. A `Violation` names the need that was not met;
an operation that meets one stops there and keeps whatever it had done before.

* `Violation.message`: what the violation says.
* `Checked`: a value, or the violation that prevented it.
* `Stateful`: a computation on a state, which both outcomes carry on.
-/

namespace PagedKernel

/-- A precondition that was not met. -/
inductive Violation where
  | addressOverflow
  | wordUnderflow
  | offsetTooLarge
  | indexTooLarge
  | fieldOverflow (max : UInt64)
  | hugePage
  | misaligned (a : PhysicalAddress)
  /-- An address lies below the direct map of the hardware. -/
  | outsideDirectMap (a : VirtualAddress)
  /-- An address is no alias of simulated memory. -/
  | notKernelAlias (a : VirtualAddress)
  | beyondMemory (a : PhysicalAddress)
  | crossesFrame (a : PhysicalAddress)
  | framesExhausted
  | notAllocated (f : Frame)
  | unalignedUserPage (a : VirtualAddress)
  | unalignedKernelPage (a : VirtualAddress)
  | notUserAddress (a : VirtualAddress)
  | notKernelAddress (a : VirtualAddress)
  | kernelSpaceImmutable
  | alreadyMapped (a : VirtualAddress)
  | kernelSpaceDestroyed
  | noSuchArgument
  | noKernelRoot
  | noKernelTable (level : Level)
  | nestedProbe
  | fatalFault (a : VirtualAddress)
deriving DecidableEq

namespace Violation

def message : Violation → String
  | addressOverflow => "attempt to add with overflow"
  | wordUnderflow => "attempt to subtract with overflow"
  | offsetTooLarge => "offset must be < page size"
  | indexTooLarge => "assertion failed: (v as usize) < ENTRIES_PER_TABLE"
  | fieldOverflow max => s!"value out of bounds [0, {max}]"
  | hugePage => "huge page entries are not supported"
  | misaligned a => s!"{a} is misaligned for the target type"
  | outsideDirectMap a => s!"{a} is outside the direct map"
  | notKernelAlias a => s!"{a} is not a kernel alias"
  | beyondMemory a => s!"{a} is beyond simulated memory"
  | crossesFrame a => s!"object at {a} crosses a frame boundary"
  | framesExhausted => "test frame allocator exhausted"
  | notAllocated f => s!"{f} freed but not allocated"
  | unalignedUserPage a => s!"user page {a} is not page aligned"
  | unalignedKernelPage a => s!"kernel page {a} is not page aligned"
  | notUserAddress a => s!"{a} is not a user address"
  | notKernelAddress a => s!"{a} is not a kernel address"
  | kernelSpaceImmutable => "the kernel address space is immutable"
  | alreadyMapped a => s!"{a} is already mapped"
  | kernelSpaceDestroyed => "the kernel address space must never be destroyed"
  | noSuchArgument => "system calls take at most six arguments"
  | noKernelRoot => "kernel PML4: OutOfMemory"
  | noKernelTable level => s!"kernel mapping: OutOfMemory({level.inspect})"
  | nestedProbe => "user memory probes must not nest"
  | fatalFault a => s!"page fault at {a}"

end Violation

/-- A value, or the violation that prevented it. -/
abbrev Checked (α : Type) := Except Violation α

/-- A computation on a state. A violation ends it and keeps the state reached so far. -/
abbrev Stateful (σ α : Type) := EStateM Violation σ α

/-- The value, whose absence is the violation `v`. -/
def demand {α : Type} (o : Option α) (v : Violation) : Checked α :=
  match o with
  | some a => .ok a
  | none => .error v

@[inline] def query {σ α : Type} (f : σ → Checked α) : Stateful σ α := fun s =>
  match f s with
  | .ok a => .ok a s
  | .error v => .error v s

instance {σ : Type} : MonadLift Checked (Stateful σ) := ⟨fun c => query fun _ => c⟩

def distance (a b : UInt64) : Checked UInt64 :=
  if b ≤ a then .ok (a - b) else .error .wordUnderflow

def VirtualAddress.add (a : VirtualAddress) (n : Nat) : Checked VirtualAddress :=
  demand (a.add? n) .addressOverflow

def PhysicalAddress.add (a : PhysicalAddress) (n : Nat) : Checked PhysicalAddress :=
  demand (a.add? n) .addressOverflow

def PageOffset.ofWord (w : UInt64) : Checked PageOffset := demand (ofWord? w) .offsetTooLarge

def TableIndex.ofNat (n : Nat) : Checked TableIndex := demand (ofNat? n) .indexTooLarge

end PagedKernel
