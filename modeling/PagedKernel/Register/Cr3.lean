import PagedKernel.Violation
import PagedKernel.Word.Field

/-!
# CR3

The register that selects the active root table. Bits 12 to 51 hold the frame number of the root;
two flags control how the walk caches it.
-/

namespace PagedKernel

@[ext] structure Cr3 where
  bits : UInt64
deriving DecidableEq

namespace Cr3

def writeThrough : WordField := .flag 3

def cacheDisable : WordField := .flag 4

def rootNumber : WordField := .frameNumber

/-- The value that selects a root, its frame cached and written back. -/
def ofRoot (root : Frame) : Checked Cr3 :=
  if root.number ≤ rootNumber.max then .ok ⟨rootNumber.put 0 root.number⟩
  else .error (.fieldOverflow rootNumber.max)

def root (r : Cr3) : Frame := Frame.ofNumber (rootNumber.get r.bits)

def writesThrough (r : Cr3) : Bool := writeThrough.get r.bits != 0

def bypassesCache (r : Cr3) : Bool := cacheDisable.get r.bits != 0

def setWriteThrough (r : Cr3) (on : Bool) : Cr3 := ⟨writeThrough.put r.bits (if on then 1 else 0)⟩

def setCacheDisable (r : Cr3) (on : Bool) : Cr3 := ⟨cacheDisable.put r.bits (if on then 1 else 0)⟩

def inspect (r : Cr3) : String :=
  let frame := rootNumber.get r.bits
  s!"Cr3 \x7b pwt: {r.writesThrough}, pcd: {r.bypassesCache}, pml4_frame: {frame} \x7d"

end Cr3

end PagedKernel
