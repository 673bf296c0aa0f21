import PagedKernel.Address.Page

/-!
# The memory-management unit

The unit translates with the active root table and may remember where a page leads. It is told when
the root changes and when what it remembers of a page no longer holds; this one keeps a record of
both.
-/

namespace PagedKernel

/-- The state of the unit, with a record of what it was told. -/
structure Mmu where
  active : Frame
  loads : Nat
  dropped : List Page

namespace Mmu

def ofRoot (root : Frame) : Mmu := ⟨root, 0, []⟩

def load (root : Frame) (u : Mmu) : Mmu := { u with active := root, loads := u.loads + 1 }

def invalidate (p : Page) (u : Mmu) : Mmu := { u with dropped := p :: u.dropped }

/-- The pages dropped since the record was last taken, oldest first, and the unit with an empty
record. -/
def takeDropped (u : Mmu) : List Page × Mmu := (u.dropped.reverse, { u with dropped := [] })

end Mmu

end PagedKernel
