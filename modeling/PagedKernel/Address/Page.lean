import PagedKernel.Address.Basic

/-!
# Pages, frames and offsets

Memory is divided into pieces of 4096 bytes. A `Page` is such a piece of a virtual address space, a
`Frame` one of physical memory; both are given by the address of their first byte. A `PageOffset`
is the distance of a byte from there.

* `VirtualAddress.page`, `VirtualAddress.offset`: an address is split at its page boundary.
* `Page.join`, `Frame.join`: the inverse of the split.
* `Frame.number`, `Frame.ofNumber`: table entries name a frame by its place in memory.
-/

namespace PagedKernel

def pageSize : UInt64 := 4096

def pageShift : Nat := 12

def offsetMask : UInt64 := pageSize - 1

def pageSizeText : String := "4K"

theorem floor_mod_eq_zero (w : UInt64) : w / 4096 * 4096 % 4096 = 0 := by
  apply UInt64.toNat_inj.1
  have := w.toNat_lt
  simp only [UInt64.toNat_mod, UInt64.toNat_mul, UInt64.toNat_div, UInt64.reduceToNat]
  omega

theorem shifted_mod_eq_zero (n : UInt64) : n * 4096 % 4096 = 0 := by
  apply UInt64.toNat_inj.1
  simp only [UInt64.toNat_mod, UInt64.toNat_mul, UInt64.reduceToNat]
  omega

/-- A page of a virtual address space. -/
@[ext] structure Page where
  base : VirtualAddress
  aligned : base.val % 4096 = 0
deriving DecidableEq

/-- A frame of physical memory. -/
@[ext] structure Frame where
  base : PhysicalAddress
  aligned : base.val % 4096 = 0
deriving DecidableEq

/-- The distance of a byte from the start of its page. -/
@[ext] structure PageOffset where
  val : UInt64
  lt : val < 4096
deriving DecidableEq

namespace PageOffset

def ofLowBits (w : UInt64) : PageOffset where
  val := w % 4096
  lt := UInt64.mod_lt w (by decide)

def ofWord? (w : UInt64) : Option PageOffset := if h : w < 4096 then some ⟨w, h⟩ else none

def inspect (o : PageOffset) : String := s!"PageOffset<{pageSizeText}>({Hex.upper o.val})"

end PageOffset

namespace Page

def containing (a : VirtualAddress) : Page := ⟨⟨a.val / 4096 * 4096⟩, floor_mod_eq_zero a.val⟩

def ofAligned? (a : VirtualAddress) : Option Page :=
  if h : a.val % 4096 = 0 then some ⟨a, h⟩ else none

/-- The byte of the page at an offset. -/
def join (p : Page) (o : PageOffset) : VirtualAddress := ⟨p.base.val + o.val⟩

instance : ToString Page := ⟨fun p => s!"{p.base}/{pageSizeText}"⟩

def inspect (p : Page) : String := s!"VirtualPage<{pageSizeText}>({p.base})"

end Page

namespace Frame

def containing (a : PhysicalAddress) : Frame := ⟨⟨a.val / 4096 * 4096⟩, floor_mod_eq_zero a.val⟩

def ofAligned? (a : PhysicalAddress) : Option Frame :=
  if h : a.val % 4096 = 0 then some ⟨a, h⟩ else none

def number (f : Frame) : UInt64 := f.base.val / 4096

/-- The frame at place `n`; a place beyond the 52 bits of a frame number loses its high bits. -/
def ofNumber (n : UInt64) : Frame := ⟨⟨n * 4096⟩, shifted_mod_eq_zero n⟩

def join (f : Frame) (o : PageOffset) : PhysicalAddress := ⟨f.base.val + o.val⟩

instance : Inhabited Frame := ⟨ofNumber 0⟩

instance : ToString Frame := ⟨fun f => s!"{f.base}/{pageSizeText}"⟩

def inspect (f : Frame) : String := s!"PhysicalPage<{pageSizeText}>({f.base})"

end Frame

namespace VirtualAddress

def page (a : VirtualAddress) : Page := Page.containing a

def offset (a : VirtualAddress) : PageOffset := PageOffset.ofLowBits a.val

theorem toNat_base_page (a : VirtualAddress) :
    a.page.base.val.toNat = a.val.toNat / 4096 * 4096 := by
  have hBound := a.val.toNat_lt
  have hSize : (4096 : UInt64).toNat = 4096 := rfl
  rw [page, Page.containing, UInt64.toNat_mul, UInt64.toNat_div, hSize]
  omega

end VirtualAddress

namespace PhysicalAddress

def frame (a : PhysicalAddress) : Frame := Frame.containing a

def offset (a : PhysicalAddress) : PageOffset := PageOffset.ofLowBits a.val

end PhysicalAddress

end PagedKernel
