import PagedKernel.KernelSpace.Basic
import PagedKernel.Machine.Notice
import PagedKernel.WriteOnce

/-!
# Publishing the kernel's address space

The kernel's address space is published once, for all of the kernel to find. A second publication is
refused.
-/

namespace PagedKernel

abbrev PublishedSpace := WriteOnce KernelSpace

namespace PublishedSpace

/-- Publish an address space. The answer is the published one, or the space handed back when another
was there first. Only a publication is reported. -/
def install (k : KernelSpace) (c : PublishedSpace) :
    (Except KernelSpace KernelSpace × List Notice) × PublishedSpace :=
  match c.set k with
  | (.ok k, c) => ((.ok k, [.kernelInstalled k.root]), c)
  | (.error k, c) => ((.error k, []), c)

end PublishedSpace

end PagedKernel
