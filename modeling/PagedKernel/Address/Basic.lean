import PagedKernel.Text.Hex

/-!
# Virtual and physical addresses

Two kinds of 64-bit address that the types keep apart. A virtual address is translated by the page
tables; a physical address names a byte of RAM.

Four-level paging translates 48 address bits. An address is *canonical* when bits 48 to 63 are
copies of bit 47, so the canonical addresses form a lower and an upper half with a hole between.

* `VirtualAddress.signExtend`: the canonical address with given low 48 bits.
* `VirtualAddress.add?`, `PhysicalAddress.add?`: addition that refuses to wrap.
-/

namespace PagedKernel

/-- The word `n` above `w`, unless it exceeds 64 bits. -/
def addWord? (w : UInt64) (n : Nat) : Option UInt64 :=
  if w.toNat + n < UInt64.size then some (w + UInt64.ofNat n) else none

theorem toNat_of_addWord? {w v : UInt64} {n : Nat} (h : addWord? w n = some v) :
    v.toNat = w.toNat + n := by
  unfold addWord? at h
  split at h
  · next hLt =>
    cases h
    have hSum : w.toNat + n < 0x10000000000000000 := hLt
    rw [UInt64.toNat_add, UInt64.toNat_ofNat']
    omega
  · cases h

/-- An address that the page tables translate. -/
@[ext] structure VirtualAddress where
  val : UInt64
deriving DecidableEq, Ord, Inhabited

/-- An address of a byte of RAM. -/
@[ext] structure PhysicalAddress where
  val : UInt64
deriving DecidableEq, Ord, Inhabited

namespace VirtualAddress

instance : ToString VirtualAddress := ⟨fun a => Hex.padded a.val⟩

def inspect (a : VirtualAddress) : String := s!"VA({a})"

def zero : VirtualAddress := ⟨0⟩

def isNull (a : VirtualAddress) : Bool := a.val == 0

/-- The canonical address whose low 48 bits are those of `bits`: bit 47 is copied into the
sixteen bits above it. -/
def signExtend (bits : UInt64) : VirtualAddress :=
  let low := bits % 0x1000000000000
  if low < 0x800000000000 then ⟨low⟩ else ⟨low + 0xffff000000000000⟩

/-- Whether bits 48 to 63 are copies of bit 47. -/
def isCanonical (a : VirtualAddress) : Bool := signExtend a.val == a

def isAligned (a : VirtualAddress) : Bool := a.val % 4096 == 0

def add? (a : VirtualAddress) (n : Nat) : Option VirtualAddress :=
  (addWord? a.val n).map VirtualAddress.mk

theorem toNat_of_add? {a b : VirtualAddress} {n : Nat} (h : a.add? n = some b) :
    b.val.toNat = a.val.toNat + n := by
  obtain ⟨c, hc, rfl⟩ := Option.map_eq_some_iff.1 h
  exact toNat_of_addWord? hc

end VirtualAddress

namespace PhysicalAddress

instance : ToString PhysicalAddress := ⟨fun a => Hex.padded a.val⟩

def inspect (a : PhysicalAddress) : String := s!"PA({a})"

def zero : PhysicalAddress := ⟨0⟩

def add? (a : PhysicalAddress) (n : Nat) : Option PhysicalAddress :=
  (addWord? a.val n).map PhysicalAddress.mk

end PhysicalAddress

end PagedKernel
