import PagedKernel.Violation

/-!
# The memory that the processor sees

While a process runs, an access of the kernel to user memory goes through the tables in use and ends
in a page, or in a page fault. `LiveMemory` holds the pages that are mapped, each with its own
bytes.

* `LiveMemory.byte?`: what a read finds, if it does not fault.
* `LiveMemory.setByte?`: what a write leaves, if it does not fault.
-/

namespace PagedKernel

structure LivePage where
  page : Page
  writable : Bool
  bytes : Vector UInt8 4096

/-- The pages that are mapped, and whether a probe is running. -/
structure LiveMemory where
  pages : List LivePage
  probing : Bool

namespace LivePage

def byte (p : LivePage) (o : PageOffset) : UInt8 := p.bytes.get ⟨o.val.toNat, o.lt⟩

def setByte (p : LivePage) (o : PageOffset) (b : UInt8) : LivePage :=
  { p with bytes := p.bytes.set o.val.toNat b o.lt }

end LivePage

namespace LiveMemory

/-- The byte at an address; none is found on a page that is not mapped. -/
def byte? (m : LiveMemory) (a : VirtualAddress) : Option UInt8 :=
  (m.pages.find? fun p => p.page = a.page).map fun p => p.byte a.offset

/-- Store a byte on the first of some pages that `a` lies on, if that one is writable. -/
def setByteIn? (a : VirtualAddress) (b : UInt8) : List LivePage → Option (List LivePage)
  | [] => none
  | p :: rest =>
    if p.page = a.page then
      if p.writable then some (p.setByte a.offset b :: rest) else none
    else
      (setByteIn? a b rest).map (p :: ·)

def setByte? (m : LiveMemory) (a : VirtualAddress) (b : UInt8) : Option LiveMemory :=
  (setByteIn? a b m.pages).map fun pages => { m with pages }

end LiveMemory

end PagedKernel
