import PagedKernel.AddressSpace.Basic

/-!
# Mapping and unmapping pages

* `map`: map a user page to the frame behind a kernel alias. It maps the page, or it fails and
  leaves every table as it was.
* `unmap`: unmap a user page. The entry keeps all but its presence.
* `markDirty`, `markAccessed`: overwrite a flag of the leaf entry.

Only user pages of a space that is not the kernel's can be changed: the upper half is shared.
-/

namespace PagedKernel.AddressSpace

open MachineM

/-- The page at `a` is changed through this space: `a` is a user address and the space is not the
kernel's. -/
def requireMutable (s : AddressSpace) (a : VirtualAddress) : Checked Unit := do
  unless a.isUser do throw (.notUserAddress a)
  if s.isKernel then throw .kernelSpaceImmutable

/-- Map the user page at `page` to the frame that the kernel sees at `kernelAlias`. Missing tables
are made. -/
def map (s : AddressSpace) (page kernelAlias : VirtualAddress) (writable : Bool) :
    MachineM (Except MapError Unit) := do
  unless page.isAligned do throw (.unalignedUserPage page)
  unless kernelAlias.isAligned do throw (.unalignedKernelPage kernelAlias)
  s.requireMutable page
  let frame := (← Memory.behind kernelAlias).frame
  match ← lookupCreating s.root page with
  | .error e => return .error (.ofWalk e)
  | .ok slot =>
    if ← look fun m => .ok (m.entry slot).present then throw (.alreadyMapped page)
    setEntry slot (← Entry.userLeaf frame writable)
    note (.mapped page frame writable)
    return .ok ()

def unmap (s : AddressSpace) (page : VirtualAddress) : MachineM Unit := do
  unless page.isAligned do throw (.unalignedUserPage page)
  s.requireMutable page
  match ← look (·.lookup s.root page) with
  | .error _ => return ()
  | .ok slot =>
    let e ← look fun m => .ok (m.entry slot)
    if e.present then
      setEntry slot (e.putFlag .present false)
      s.forget page
      note (.unmapped page)

/-- Overwrite a flag of the leaf entry of `a`, if there is one. -/
def setLeafFlag (s : AddressSpace) (f : Entry.Field) (a : VirtualAddress) (on : Bool) :
    MachineM Unit := do
  s.requireMutable a
  match ← look (·.lookup s.root a) with
  | .error _ => return ()
  | .ok slot =>
    let e ← look fun m => .ok (m.entry slot)
    setEntry slot (e.putFlag f on)
    s.forget a

def markDirty (s : AddressSpace) (a : VirtualAddress) (on : Bool) : MachineM Unit :=
  s.setLeafFlag .dirty a on

def markAccessed (s : AddressSpace) (a : VirtualAddress) (on : Bool) : MachineM Unit :=
  s.setLeafFlag .accessed a on

end PagedKernel.AddressSpace
