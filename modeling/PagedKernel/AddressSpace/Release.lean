import PagedKernel.AddressSpace.Basic

/-!
# Destroying an address space

An address space owns its root table, the tables below the user half and the pages that their leaves
map. `AddressSpace.destroy` gives all of them back, each table after what hangs below it.
-/

namespace PagedKernel.AddressSpace

open MachineM

def targetAt (slot : Slot) : MachineM (Option Frame) := look fun m => (m.entry slot).target

def sumOver (f : TableIndex → MachineM Nat) : List TableIndex → MachineM Nat
  | [] => return 0
  | i :: is => do
    let n ← f i
    return n + (← sumOver f is)

/-- Give back a table at `level` with everything below it. The answer is the number of frames. -/
def freeTable (level : Level) (table : Frame) : MachineM Nat := do
  look (·.requireTable table)
  let released ← match _h : level.next? with
    | some below =>
      sumOver (fun i => do
        match ← targetAt ⟨table, i⟩ with
        | some next => freeTable below next
        | none => return 0) TableIndex.all
    | none =>
      sumOver (fun i => do
        match ← targetAt ⟨table, i⟩ with
        | some page =>
          giveFrame page
          return 1
        | none => return 0) TableIndex.all
  giveFrame table
  return released + 1
termination_by level.height
decreasing_by exact Level.height_lt_of_next? (by assumption)

/-- Give back every frame that the space owns. -/
def destroy (s : AddressSpace) : MachineM Unit := do
  if s.isKernel then throw .kernelSpaceDestroyed
  look (·.requireTable s.root)
  let released ← sumOver (fun i => do
    match ← targetAt ⟨s.root, i⟩ with
    | some table => freeTable .pdpt table
    | none => return 0) TableIndex.userHalf
  giveFrame s.root
  note (.spaceDestroyed s.root (released + 1))

def destroy? : Option AddressSpace → MachineM Unit
  | some s => s.destroy
  | none => return ()

end PagedKernel.AddressSpace
