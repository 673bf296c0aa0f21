import PagedKernel.Address.Page

/-!
# The layout of a virtual address space

The lower canonical half belongs to user programs, the upper half to the kernel. The kernel half
starts at a boundary of the root table, so its entries there can be shared whole.

    0x0000000000000000   user space
    0x0000800000000000   non-canonical hole
    0xffff800000000000   kernel space
    0xffff888000000000   direct map of physical memory
    0xffffffff80000000   kernel text and data
-/

namespace PagedKernel

def userSpaceEnd : UInt64 := 0x0000800000000000

def kernelSpaceStart : UInt64 := 0xffff800000000000

/-- Where the kernel sees physical address zero. -/
def directMapBase : UInt64 := 0xffff888000000000

def kernelBase : UInt64 := 0xffffffff80000000

def tableEntries : Nat := 512

/-- The first entry of a root table that belongs to the kernel half. -/
def kernelRootStart : Nat := (kernelSpaceStart / 0x8000000000 % 512).toNat

namespace VirtualAddress

def isUser (a : VirtualAddress) : Bool := a.val < userSpaceEnd

def isKernel (a : VirtualAddress) : Bool := kernelSpaceStart ≤ a.val

end VirtualAddress

end PagedKernel
