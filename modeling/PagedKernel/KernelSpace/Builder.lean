import PagedKernel.AddressSpace.Basic

/-!
# Building the kernel's address space

During boot the kernel's root table is filled page by page; `KernelBuilder.finish` then freezes it.

* `KernelBuilder.create`: an empty root table.
* `KernelBuilder.map`: map a page of the kernel half, for the kernel alone and in every space.
-/

namespace PagedKernel

/-- A root table under construction. -/
structure KernelBuilder where
  root : Frame
deriving DecidableEq

namespace KernelBuilder

open MachineM

def create : MachineM (Except SpaceError KernelBuilder) := do
  match ← takeFrame? with
  | none => return .error .outOfMemory
  | some root =>
    writeTable root .zeroed
    return .ok ⟨root⟩

/-- Map the kernel page at `page` to a frame, in place of what it was mapped to before. Missing
tables are made. -/
def map (b : KernelBuilder) (page : VirtualAddress) (frame : Frame) (writable : Bool) :
    MachineM (Except MapError Unit) := do
  unless page.isAligned do throw (.unalignedKernelPage page)
  unless page.isKernel do throw (.notKernelAddress page)
  match ← lookupCreating b.root page with
  | .error e => return .error (.ofWalk e)
  | .ok slot =>
    setEntry slot (← Entry.kernelLeaf frame writable)
    return .ok ()

def finish (b : KernelBuilder) : MachineM KernelSpace := do
  note (.kernelFinished b.root)
  return ⟨b.root⟩

end KernelBuilder

end PagedKernel
