import PagedKernel.KernelSpace.Builder

/-!
# A machine that has booted

`Machine.boot` makes a machine whose kernel has one page mapped at `kernelBase`, writable, and whose
kernel address space is active. It takes five frames: the root, the page and three tables.
-/

namespace PagedKernel

open MachineM

/-- Build the kernel's address space: an empty root, one page for the kernel's image, its mapping.
-/
def bootKernel : MachineM KernelSpace := do
  match ← KernelBuilder.create with
  | .error .outOfMemory => throw .noKernelRoot
  | .ok builder =>
    let image ← takeFrame
    match ← builder.map ⟨kernelBase⟩ image true with
    | .error (.outOfMemory level) => throw (.noKernelTable level)
    | .ok () =>
      let k ← builder.finish
      tell fun _ => .ofRoot k.root
      return k

def Machine.boot (frames : Nat) : Checked (KernelSpace × Machine) :=
  match bootKernel (Machine.ofFrames frames default) with
  | .ok k s => .ok (k, s)
  | .error v _ => .error v

end PagedKernel
