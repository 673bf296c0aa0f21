import PagedKernel.Proofs.Machine.Steps
import PagedKernel.Proofs.Table.Paths

/-!
# Descending through tables that exist

As long as the tables on the way exist, a walk only moves down: `Memory.Descends` is the relation of
where it starts and where it may stop. Looking up an address gives the same answer from both ends,
and so does a walk that makes tables, which makes none on this stretch.
-/

namespace PagedKernel

/-- Present entries lead from a table at one level down to a table at another, on the way of `a`. -/
inductive Memory.Descends (m : Memory) (a : VirtualAddress) :
    Level → Frame → Level → Frame → Prop
  | here (level : Level) (table : Frame) : Descends m a level table level table
  | down {level below l : Level} {table next t : Frame} (hNext : level.next? = some below)
      (hHolds : m.holds table = true)
      (hTarget : (m.entry ⟨table, level.indexOf a⟩).target = .ok (some next))
      (rest : Descends m a below next l t) : Descends m a level table l t

namespace Memory

variable {m : Memory} {a : VirtualAddress} {level below : Level} {table : Frame}

theorem lookupFrom_pt (hHolds : m.holds table = true) :
    m.lookupFrom a .pt table = .ok (.ok ⟨table, Level.pt.indexOf a⟩) := by
  rw [lookupFrom, requireTable_of_holds hHolds]
  rfl

theorem lookupFrom_missing (hNext : level.next? = some below) (hHolds : m.holds table = true)
    (hTarget : (m.entry ⟨table, level.indexOf a⟩).target = .ok none) :
    m.lookupFrom a level table = .ok (.error (.missing below)) := by
  rw [lookupFrom, requireTable_of_holds hHolds]
  cases level <;> cases hNext <;>
    simp only [bind, Except.bind, hTarget, Level.next?, pure, Except.pure]

theorem lookupFrom_next (hNext : level.next? = some below) (hHolds : m.holds table = true)
    {next : Frame} (hTarget : (m.entry ⟨table, level.indexOf a⟩).target = .ok (some next)) :
    m.lookupFrom a level table = m.lookupFrom a below next := by
  rw [lookupFrom, requireTable_of_holds hHolds]
  cases level <;> cases hNext <;> simp only [bind, Except.bind, hTarget, Level.next?]

theorem Descends.lookupFrom_eq {l : Level} {t : Frame} (h : m.Descends a level table l t) :
    m.lookupFrom a level table = m.lookupFrom a l t := by
  induction h with
  | here => rfl
  | down hNext hHolds hTarget _ ih => rw [lookupFrom_next hNext hHolds hTarget, ih]

end Memory

open MachineM

variable {a : VirtualAddress} {level below : Level} {table : Frame} {s : Machine}

theorem lookupCreatingFrom_pt (hHolds : s.memory.holds table = true) :
    lookupCreatingFrom a .pt table s = .ok (.ok ⟨table, Level.pt.indexOf a⟩) s := by
  rw [lookupCreatingFrom, Stateful.bind_ok (look_ok (Memory.requireTable_of_holds hHolds))]
  rfl

theorem lookupCreatingFrom_next (hNext : level.next? = some below)
    (hHolds : s.memory.holds table = true) {next : Frame}
    (hTarget : (s.memory.entry ⟨table, level.indexOf a⟩).target = .ok (some next)) :
    lookupCreatingFrom a level table s = lookupCreatingFrom a below next s := by
  rw [lookupCreatingFrom, Stateful.bind_ok (look_ok (Memory.requireTable_of_holds hHolds))]
  cases level <;> cases hNext <;> simp only [Level.next?, Stateful.bind_ok (look_target hTarget)]

/-- A walk that comes to an entry without a table asks for a frame; with none to get it stops. -/
theorem lookupCreatingFrom_refused (hNext : level.next? = some below)
    (hHolds : s.memory.holds table = true)
    (hTarget : (s.memory.entry ⟨table, level.indexOf a⟩).target = .ok none)
    (hSupply : s.frames.supply = 0) :
    lookupCreatingFrom a level table s = .ok (.error (.outOfMemory below))
      { s with frames := s.frames.refuse, log := .tableRefused below a :: s.log } := by
  have hAlloc := takeFrame?_of_alloc (FrameAllocator.alloc_of_supply_eq_zero hSupply)
  rw [lookupCreatingFrom, Stateful.bind_ok (look_ok (Memory.requireTable_of_holds hHolds))]
  cases level <;> cases hNext <;>
    simp only [Level.next?, Stateful.bind_ok (look_target hTarget), Stateful.bind_ok hAlloc] <;> rfl

theorem Memory.Descends.lookupCreatingFrom_eq {l : Level} {t : Frame}
    (h : s.memory.Descends a level table l t) :
    lookupCreatingFrom a level table s = lookupCreatingFrom a l t s := by
  induction h with
  | here => rfl
  | down hNext hHolds hTarget _ ih => rw [lookupCreatingFrom_next hNext hHolds hTarget, ih]

end PagedKernel
