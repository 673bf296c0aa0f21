import PagedKernel.KernelSpace.Basic
import PagedKernel.Walk

/-!
# Address spaces

An address space is a root table and all that hangs below its lower half. The upper half is a copy
of the kernel's root table, taken when the space is created.

* `AddressSpace.create`: a new space, which costs one frame.
* `AddressSpace.ofRoot`: the space of a root table that exists already.
* `KernelSpace.view`: the kernel's own tables as an address space.
* `AddressSpace.activate`: make the space the one that the processor translates with.
-/

namespace PagedKernel

inductive SpaceError where
  | outOfMemory
deriving DecidableEq, Repr

namespace SpaceError

instance : ToString SpaceError where
  toString
    | outOfMemory => "out of memory while allocating the PML4"

def inspect : SpaceError → String
  | outOfMemory => "OutOfMemory"

end SpaceError

inductive MapError where
  | outOfMemory (level : Level)
deriving DecidableEq, Repr

namespace MapError

instance : ToString MapError where
  toString
    | outOfMemory level => s!"out of memory while allocating a {level} table"

def inspect : MapError → String
  | outOfMemory level => s!"OutOfMemory({level.inspect})"

def ofWalk : WalkError → MapError
  | .missing level => outOfMemory level
  | .outOfMemory level => outOfMemory level

end MapError

inductive Access where
  | read
  | write
deriving DecidableEq, Repr

/-- An address space, known by its root table. -/
@[ext] structure AddressSpace where
  root : Frame
  /-- The root table of the kernel that the space belongs to. -/
  kernelRoot : Frame
deriving DecidableEq

/-- The kernel's own tables as an address space. It can be looked at, not changed. -/
def KernelSpace.view (k : KernelSpace) : AddressSpace := ⟨k.root, k.root⟩

def KernelSpace.activate (k : KernelSpace) : MachineM Unit := MachineM.tell (·.load k.root)

namespace AddressSpace

open MachineM

def activate (s : AddressSpace) : MachineM Unit := tell (·.load s.root)

/-- Make the space the active one, or the kernel's if there is none. -/
def activate? (s : Option AddressSpace) (k : KernelSpace) : MachineM Unit :=
  match s with
  | some s => s.activate
  | none => k.activate

def ofRoot (root : Frame) (k : KernelSpace) : AddressSpace := ⟨root, k.root⟩

def isKernel (s : AddressSpace) : Bool := s.root == s.kernelRoot

/-- A new address space: a frame for the root table, filled with a copy of the kernel's. -/
def create (k : KernelSpace) : MachineM (Except SpaceError AddressSpace) := do
  match ← takeFrame? with
  | none =>
    note .rootRefused
    return .error .outOfMemory
  | some root =>
    look (·.requireTable k.root)
    writeTable root (← look fun m => .ok (m.table k.root))
    note (.spaceCreated root)
    return .ok ⟨root, k.root⟩

/-- What is remembered of a page need be forgotten only while the space is active: loading another
root forgets the rest. -/
def forget (s : AddressSpace) (a : VirtualAddress) : MachineM Unit :=
  tell fun u => if u.active = s.root then u.invalidate a.page else u

end AddressSpace

end PagedKernel
