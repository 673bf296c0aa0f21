import PagedKernel.AddressSpace.Query
import PagedKernel.UserMemory.Basic

/-!
# User memory through the page tables

Every access walks the tables of an address space, checks the permissions of the leaf and then
touches the byte in physical memory. It works whether or not the space is the active one.
-/

namespace PagedKernel

open MachineM

def AddressSpace.userMemory (s : AddressSpace) : UserMemory Machine where
  readByte a := do
    match ← look (s.resolve · a .read) with
    | some p => return .ok (← look (·.load p))
    | none => return .error ⟨a⟩
  writeByte a b := do
    match ← look (s.resolve · a .write) with
    | some p =>
      onMemory (Memory.store p b)
      return .ok ()
    | none => return .error ⟨a⟩

end PagedKernel
