import PagedKernel.Machine.Basic

/-!
# Walking the tables

A walk descends from a root table to the leaf entry of an address, one level at a time.

* `Memory.lookup`: the slot of the leaf entry, if every table on the way exists. It only looks.
* `lookupCreating`: the same, with missing tables taken from the allocator, cleared and linked on
  the way down. When a frame is refused further down, each level that linked a table unlinks it and
  gives its frame back, so a walk that fails leaves the tree as it was.
-/

namespace PagedKernel

inductive WalkError where
  | missing (level : Level)
  | outOfMemory (level : Level)
deriving DecidableEq, Repr

namespace WalkError

instance : ToString WalkError where
  toString
    | missing level => s!"no {level} table on the walk"
    | outOfMemory level => s!"out of memory while allocating a {level} table"

def inspect : WalkError → String
  | missing level => s!"Missing({level.inspect})"
  | outOfMemory level => s!"OutOfMemory({level.inspect})"

end WalkError

namespace Memory

/-- The slot of the leaf entry for `a` below `table`, a table at `level`. -/
def lookupFrom (m : Memory) (a : VirtualAddress) (level : Level) (table : Frame) :
    Checked (Except WalkError Slot) := do
  m.requireTable table
  let slot : Slot := ⟨table, level.indexOf a⟩
  match _h : level.next? with
  | none => return .ok slot
  | some below =>
    match ← (m.entry slot).target with
    | some next => m.lookupFrom a below next
    | none => return .error (.missing below)
termination_by level.height
decreasing_by exact Level.height_lt_of_next? (by assumption)

def lookup (m : Memory) (root : Frame) (a : VirtualAddress) : Checked (Except WalkError Slot) :=
  m.lookupFrom a .pml4 root

/-- The leaf entry for `a` below a root table, if there is a slot for it. -/
def leaf? (m : Memory) (root : Frame) (a : VirtualAddress) : Checked (Option Entry) := do
  match ← m.lookup root a with
  | .ok slot => return some (m.entry slot)
  | .error _ => return none

end Memory

open MachineM

/-- The slot of the leaf entry for `a` below `table`, a table at `level`; missing tables are made on
the way. -/
def lookupCreatingFrom (a : VirtualAddress) (level : Level) (table : Frame) :
    MachineM (Except WalkError Slot) := do
  look (·.requireTable table)
  let slot : Slot := ⟨table, level.indexOf a⟩
  match _h : level.next? with
  | none => return .ok slot
  | some below =>
    match ← look fun m => (m.entry slot).target with
    | some next => lookupCreatingFrom a below next
    | none =>
      match ← takeFrame? with
      | none =>
        note (.tableRefused below a)
        return .error (.outOfMemory below)
      | some fresh =>
        writeTable fresh .zeroed
        setEntry slot (← Entry.link fresh)
        match ← lookupCreatingFrom a below fresh with
        | .ok leaf => return .ok leaf
        | .error e =>
          -- What was linked on this level goes back before the error travels up.
          setEntry slot .empty
          giveFrame fresh
          return .error e
termination_by level.height
decreasing_by all_goals exact Level.height_lt_of_next? (by assumption)

def lookupCreating (root : Frame) (a : VirtualAddress) : MachineM (Except WalkError Slot) :=
  lookupCreatingFrom a .pml4 root

end PagedKernel
