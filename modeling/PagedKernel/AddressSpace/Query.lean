import PagedKernel.AddressSpace.Basic

/-!
# Questions about an address space

None of these changes anything.

* `translate`: the physical address behind any mapped address.
* `aliasOf`: where the kernel sees the byte behind a user address.
* `resolve`: the physical address behind a user address, if a user program may access it.
* `dirtyAt`, `accessedAt`: two flags of the leaf entry.
-/

namespace PagedKernel.AddressSpace

def translate (s : AddressSpace) (m : Memory) (a : VirtualAddress) :
    Checked (Option PhysicalAddress) := do
  let some e ← m.leaf? s.root a | return none
  let some f ← e.target | return none
  return some (f.join a.offset)

/-- Where the kernel sees the byte behind `a`, a user address. -/
def aliasOf (s : AddressSpace) (m : Memory) (a : VirtualAddress) :
    Checked (Option VirtualAddress) := do
  unless a.isUser do throw (.notUserAddress a)
  let some e ← m.leaf? s.root a | return none
  let some f ← e.target | return none
  return some (← (f.join a.offset).alias)

/-- Whether the permissions of a leaf let a user program access the page. -/
def allows (e : Entry) : Access → Bool
  | .read => e.user
  | .write => e.user && e.writable

/-- The physical address behind `a`, if `a` is a user address that a user program may access. -/
def resolve (s : AddressSpace) (m : Memory) (a : VirtualAddress) (access : Access) :
    Checked (Option PhysicalAddress) := do
  unless a.isUser do return none
  let some e ← m.leaf? s.root a | return none
  unless allows e access do return none
  let some f ← e.target | return none
  return some (f.join a.offset)

def dirtyAt (s : AddressSpace) (m : Memory) (a : VirtualAddress) : Checked Bool := do
  return (← m.leaf? s.root a).any (·.dirty)

def accessedAt (s : AddressSpace) (m : Memory) (a : VirtualAddress) : Checked Bool := do
  return (← m.leaf? s.root a).any (·.accessed)

end PagedKernel.AddressSpace
