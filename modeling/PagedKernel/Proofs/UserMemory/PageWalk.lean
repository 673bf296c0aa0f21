import PagedKernel.Proofs.Machine.Steps
import PagedKernel.UserMemory.PageWalk

/-!
# Single bytes through the page tables

What an access to one byte of user memory does to the machine, as one equation. All four ways to end
are in it: the tables are broken, the byte is out of reach, its frame is not in memory, or it is there.
-/

namespace PagedKernel.AddressSpace

open MachineM

variable {s : AddressSpace} {m : Machine}

theorem readByte_apply (a : VirtualAddress) :
    s.userMemory.readByte a m =
      match s.resolve m.memory a .read with
      | .error v => .error v m
      | .ok none => .ok (.error ⟨a⟩) m
      | .ok (some p) =>
        if m.memory.holds p.frame then .ok (.ok (m.memory.byte p.val.toNat)) m
        else .error (.beyondMemory p) m := by
  show (look (s.resolve · a .read) >>= _ : MachineM _) m = _
  cases hResolve : s.resolve m.memory a .read with
  | error v =>
    refine Stateful.bind_error ?_
    simp only [look, query, hResolve]
  | ok o =>
    rw [Stateful.bind_ok (look_ok (f := (s.resolve · a .read)) hResolve)]
    cases o with
    | none => rfl
    | some p =>
      show (look (·.load p) >>= _ : MachineM _) m = _
      by_cases hHolds : m.memory.holds p.frame = true
      · have hLoad : m.memory.load p = .ok (m.memory.byte p.val.toNat) := by
          rw [Memory.load, if_pos hHolds]
        rw [Stateful.bind_ok (look_ok (f := (·.load p)) hLoad)]
        simp only [hHolds, ↓reduceIte]
        rfl
      · have hBeyond : look (·.load p) m = .error (.beyondMemory p) m := by
          simp only [look, query, Memory.load, hHolds]
          rfl
        rw [Stateful.bind_error hBeyond]
        simp only [hHolds]
        rfl

theorem writeByte_apply (a : VirtualAddress) (b : UInt8) :
    s.userMemory.writeByte a b m =
      match s.resolve m.memory a .write with
      | .error v => .error v m
      | .ok none => .ok (.error ⟨a⟩) m
      | .ok (some p) =>
        if m.memory.holds p.frame then
          .ok (.ok ()) { m with memory := m.memory.setByte p.val.toNat b }
        else .error (.beyondMemory p) m := by
  show (look (s.resolve · a .write) >>= _ : MachineM _) m = _
  cases hResolve : s.resolve m.memory a .write with
  | error v =>
    refine Stateful.bind_error ?_
    simp only [look, query, hResolve]
  | ok o =>
    rw [Stateful.bind_ok (look_ok (f := (s.resolve · a .write)) hResolve)]
    cases o with
    | none => rfl
    | some p =>
      show (onMemory (Memory.store p b) >>= _ : MachineM _) m = _
      by_cases hHolds : m.memory.holds p.frame = true
      · have hStored : onMemory (Memory.store p b) m =
            .ok () { m with memory := m.memory.setByte p.val.toNat b } := by
          simp only [onMemory, Memory.store, hHolds, ↓reduceIte]
        rw [Stateful.bind_ok hStored]
        simp only [hHolds, ↓reduceIte]
        rfl
      · have hBeyond : onMemory (Memory.store p b) m = .error (.beyondMemory p) m := by
          simp only [onMemory, Memory.store, hHolds]
          rfl
        rw [Stateful.bind_error hBeyond]
        simp only [hHolds]
        rfl

end PagedKernel.AddressSpace
