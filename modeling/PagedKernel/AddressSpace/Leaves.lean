import PagedKernel.AddressSpace.Basic

/-!
# Traversing an address space

A traversal visits every present leaf entry, in ascending order of the addresses that they map. The
visitor sees the entry and its address, may change the entry, carries a value from visit to visit,
and may stop the traversal.

* `AddressSpace.visitLeaves`: all leaves.
* `AddressSpace.visitUserLeaves`: the leaves of the user half.
-/

namespace PagedKernel

/-- Whether a traversal goes on or stops with a value. -/
inductive Flow (β : Type) where
  | proceed
  | stop (b : β)
deriving DecidableEq

/-- What is done at a leaf: a computation on the leaf entry and on the value that the visitor
carries. -/
abbrev Visitor (κ β : Type) := VirtualAddress → Stateful (Entry × κ) (Flow β)

namespace Leaves

abbrev VisitM (κ α : Type) := Stateful (Memory × κ) α

def untilStop {ι κ β : Type} (f : ι → VisitM κ (Flow β)) : List ι → VisitM κ (Flow β)
  | [] => return .proceed
  | i :: is => do
    match ← f i with
    | .proceed => untilStop f is
    | .stop b => return .stop b

/-- Let the visitor see the entry at a slot. What it leaves in the entry is stored, even when it
ends in a violation. -/
def visitLeaf {κ β : Type} (visitor : Visitor κ β) (slot : Slot) (a : VirtualAddress) :
    VisitM κ (Flow β) := fun (m, k) =>
  match visitor a (m.entry slot, k) with
  | .ok flow (e, k) => .ok flow (m.setEntry slot e, k)
  | .error v (e, k) => .error v (m.setEntry slot e, k)

/-- Visit the present leaves below the entries `slots` of a table at `level`, whose first address
has the table bits `bits`. -/
def visitTable {κ β : Type} (visitor : Visitor κ β) (level : Level) (table : Frame) (bits : UInt64)
    (slots : List TableIndex) : VisitM κ (Flow β) := do
  query fun (m, _) => m.requireTable table
  untilStop (fun i => do
    let slot : Slot := ⟨table, i⟩
    match ← query fun (m, _) => (m.entry slot).target with
    | none => return .proceed
    | some next =>
      let bits := bits + level.bitsOf i
      match _h : level.next? with
      | some below => visitTable visitor below next bits TableIndex.all
      | none => visitLeaf visitor slot (.signExtend bits)) slots
termination_by level.height
decreasing_by exact Level.height_lt_of_next? (by assumption)

section Equations

variable {κ β : Type} (visitor : Visitor κ β) (table : Frame) (bits : UInt64) (slots : List TableIndex)

theorem visitTable_pt : visitTable visitor .pt table bits slots = (do
    query fun (m, _) => m.requireTable table
    untilStop (fun i => do
      match ← query fun (m, _) => (m.entry ⟨table, i⟩).target with
      | none => return .proceed
      | some _ => visitLeaf visitor ⟨table, i⟩ (.signExtend (bits + Level.pt.bitsOf i))) slots) := by
  rw [visitTable]
  rfl

theorem visitTable_next {level below : Level} (h : level.next? = some below) :
    visitTable visitor level table bits slots = (do
      query fun (m, _) => m.requireTable table
      untilStop (fun i => do
        match ← query fun (m, _) => (m.entry ⟨table, i⟩).target with
        | none => return .proceed
        | some next => visitTable visitor below next (bits + level.bitsOf i) TableIndex.all) slots) := by
  rw [visitTable]
  cases level <;> cases h <;> rfl

end Equations

/-- Traverse the tree below a root table, starting from the value `k`. -/
def run {κ β : Type} (visitor : Visitor κ β) (root : Frame) (slots : List TableIndex) (k : κ) :
    MachineM (Flow β × κ) :=
  MachineM.onMemory fun m =>
    match visitTable visitor .pml4 root 0 slots (m, k) with
    | .ok flow (m, k) => .ok (flow, k) m
    | .error v (m, _) => .error v m

end Leaves

namespace AddressSpace

/-- Visit every present leaf, the kernel's included. -/
def visitLeaves {κ β : Type} (s : AddressSpace) (visitor : Visitor κ β) (k : κ) :
    MachineM (Flow β × κ) :=
  Leaves.run visitor s.root TableIndex.all k

def visitUserLeaves {κ β : Type} (s : AddressSpace) (visitor : Visitor κ β) (k : κ) :
    MachineM (Flow β × κ) :=
  Leaves.run visitor s.root TableIndex.userHalf k

end AddressSpace

end PagedKernel
