import PagedKernel.Address.Page

/-!
# The kernel's address space

The kernel's own address space is built once and never changes; every other address space shares its
upper half.
-/

namespace PagedKernel

/-- The finished address space of the kernel, known by its root table. -/
@[ext] structure KernelSpace where
  root : Frame
deriving DecidableEq

namespace KernelSpace

def inspect (k : KernelSpace) : String :=
  let root := k.root.inspect
  s!"KernelAddressSpace \x7b root: {root} \x7d"

end KernelSpace

end PagedKernel
