import PagedKernel.Layout

/-!
# Levels and indices

A virtual address selects one entry in each of four tables, by nine bits per level:

    | 47-39 | 38-30 | 29-21 | 20-12 | 11-0   |
    |  PML4 |  PDPT |  PD   |  PT   | offset |

* `Level.next?`: the level below; a walk ends at the leaf level, which has none.
* `Level.indexOf`: the entry that an address selects.
* `Level.bitsOf`: the part of an address that an index stands for.
-/

namespace PagedKernel

/-- A level of the page-table tree, from the root down to the tables that map pages. -/
inductive Level where
  | pml4
  | pdpt
  | pd
  | pt
deriving DecidableEq, Repr

abbrev TableIndex := Fin 512

namespace TableIndex

def ofNat? (n : Nat) : Option TableIndex := if h : n < 512 then some ⟨n, h⟩ else none

def all : List TableIndex := List.finRange 512

theorem mem_all (i : TableIndex) : i ∈ all := List.mem_finRange i

/-- The indices of a root table that translate user addresses. -/
def userHalf : List TableIndex := all.filter (·.val < kernelRootStart)

def inspect (i : TableIndex) : String := s!"TableIndex({i.val})"

end TableIndex

namespace Level

def height : Level → Nat
  | pml4 => 3
  | pdpt => 2
  | pd => 1
  | pt => 0

def depth : Level → Nat
  | pml4 => 0
  | pdpt => 1
  | pd => 2
  | pt => 3

def next? : Level → Option Level
  | pml4 => some pdpt
  | pdpt => some pd
  | pd => some pt
  | pt => none

theorem height_lt_of_next? {level below : Level} (h : level.next? = some below) :
    below.height < level.height := by
  cases level <;> cases h <;> decide

def shift : Level → Nat
  | pml4 => 39
  | pdpt => 30
  | pd => 21
  | pt => 12

/-- The bytes that one entry of the level covers. -/
def span : Level → UInt64
  | pml4 => 0x8000000000
  | pdpt => 0x40000000
  | pd => 0x200000
  | pt => 0x1000

theorem toNat_span (level : Level) : level.span.toNat = 1 <<< level.shift := by
  cases level <;> rfl

/-- The entry that an address selects at this level. -/
def indexOf (level : Level) (a : VirtualAddress) : TableIndex :=
  ⟨(a.val / level.span % 512).toNat, by
    rw [UInt64.toNat_mod]
    exact Nat.mod_lt _ (by decide)⟩

/-- The address bits that an index stands for at this level. -/
def bitsOf (level : Level) (i : TableIndex) : UInt64 := UInt64.ofNat i.val * level.span

instance : ToString Level where
  toString
    | pml4 => "PML4"
    | pdpt => "PDPT"
    | pd => "PD"
    | pt => "PT"

def inspect : Level → String
  | pml4 => "Pml4"
  | pdpt => "Pdpt"
  | pd => "Pd"
  | pt => "Pt"

def all : List Level := [pml4, pdpt, pd, pt]

instance : Ord Level := ⟨fun a b => compare a.depth b.depth⟩

end Level

def VirtualAddress.indices (a : VirtualAddress) : List TableIndex := Level.all.map (·.indexOf a)

end PagedKernel
