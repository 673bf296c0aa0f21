import PagedKernel.Proofs.Plan.Described
import PagedKernel.Proofs.Plan.Reach

/-!
# Creating a space

A new space costs one frame, which becomes a copy of the kernel's root table.

* `AddressSpace.create_refused`, `AddressSpace.create_made`: the two outcomes.
* `Plan.Describes.created`: the plan after a space was created.
* `Plan.Describes.leaf?_created`, `Plan.Describes.leaf?_created_of_mem`: the new space has nothing, and
  all others have what they had.
-/

namespace PagedKernel

open MachineM

namespace AddressSpace

variable {k : KernelSpace} {m : Machine} {f : Frame} {rest : List Frame}

theorem create_refused (hSupply : m.frames.supply = 0) :
    ∃ m', create k m = .ok (.error .outOfMemory) m' ∧ m'.memory = m.memory ∧
      m'.frames = m.frames.refuse := by
  have hAlloc := takeFrame?_of_alloc (FrameAllocator.alloc_of_supply_eq_zero hSupply)
  rw [create, Stateful.bind_ok hAlloc]
  exact ⟨_, rfl, rfl, rfl⟩

theorem create_made (hFree : m.frames.free = f :: rest) (hNew : f ∉ m.frames.inUse)
    (hSupply : 0 < m.frames.supply) (hHolds : m.memory.holds f = true)
    (hKernel : m.memory.holds k.root = true) :
    ∃ m', create k m = .ok (.ok ⟨f, k.root⟩) m' ∧ m'.frames = m.frames.serve 1 ∧
      m'.memory = m.memory.setTable f (m.memory.table k.root) := by
  have hAlloc := takeFrame?_of_alloc (FrameAllocator.alloc_of_supply_pos hFree hNew hSupply)
  have hWrite := writeTable_of_holds (s := { m with frames := m.frames.serve 1 }) hHolds
    (m.memory.table k.root)
  have hRequire := look_ok (s := { m with frames := m.frames.serve 1 }) (f := (·.requireTable k.root))
    (Memory.requireTable_of_holds hKernel)
  have hTable := look_value (s := { m with frames := m.frames.serve 1 }) fun m => m.table k.root
  rw [create, Stateful.bind_ok hAlloc]
  simp only
  rw [Stateful.bind_ok hRequire, Stateful.bind_ok hTable, Stateful.bind_ok hWrite,
    Stateful.bind_ok (note_apply _)]
  refine ⟨_, rfl, ?_, ?_⟩
  · dsimp only
  · dsimp only

end AddressSpace

namespace Plan.Describes

variable {plan : Plan} {kernel f r : Frame} {roots held rest : List Frame} {m m' : Machine}
  {b : VirtualAddress}

theorem created (h : plan.Describes kernel roots held m) (hFree : m.frames.free = f :: rest)
    (hFrames : m'.frames = m.frames.serve 1)
    (hMemory : m'.memory = m.memory.setTable f (m.memory.table kernel)) :
    (plan.put f ⟨f, []⟩).Describes kernel (f :: roots) held m' := by
  have hMem : f ∈ m.frames.free := hFree ▸ List.mem_cons_self
  have hNew := h.accounts.new_of_free hMem
  have hHolds := h.accounts.sound.free_holds hMem
  have hKept : plan.Fits kernel roots (m.memory.setTable f (m.memory.table kernel)) := by
    refine h.fits.of_entries (Memory.frames_setTable ..) fun hu _ i => ?_
    rw [Memory.entry_setTable hHolds, if_neg (ne_of_new hNew hu)]
  refine ⟨?_, ?_⟩
  · rw [hMemory]
    refine hKept.plant hNew (by simpa using hHolds) fun i => ?_
    rw [Memory.entry_setTable hHolds, if_pos rfl, Memory.get_table, Memory.entry_setTable hHolds,
      if_neg (ne_of_new hNew h.fits.kernel_place)]
  · refine (h.accounts.serve (plan.put f ⟨f, []⟩) 1 fun g => ?_).congr (by rw [hFrames])
      (by rw [hFrames]) (by rw [hMemory, Memory.frames_setTable])
    rw [isSome_put, hFree, List.take_succ_cons, List.take_zero, List.mem_singleton]

variable (h : plan.Describes kernel roots held m) (hFree : m.frames.free = f :: rest)
  (hFrames : m'.frames = m.frames.serve 1)
  (hMemory : m'.memory = m.memory.setTable f (m.memory.table kernel))

include h hFree hFrames hMemory

/-- A new space has nothing in the user half. -/
theorem leaf?_created (hb : b.isUser = true) : m'.memory.leaf? f b = .ok none := by
  have hAfter := h.created hFree hFrames hMemory
  have hMem : f ∈ m.frames.free := hFree ▸ List.mem_cons_self
  have hNew := h.accounts.new_of_free hMem
  refine hAfter.fits.leaf?_of_none (hAfter.fits.ownHalf List.mem_cons_self hb)
    (hAfter.fits.root_place List.mem_cons_self) fun u hu => ?_
  rcases (put_eq_some hNew).1 hu with ⟨-, hPlace⟩ | hu
  · simp [VirtualAddress.pathTo] at hPlace
  · rw [(h.fits.root_of_place hu).1] at hNew
    cases hNew

theorem leaf?_created_of_mem (hRoot : r ∈ roots) (hb : b.isUser = true) :
    m'.memory.leaf? r b = m.memory.leaf? r b := by
  have hAfter := h.created hFree hFrames hMemory
  have hMem : f ∈ m.frames.free := hFree ▸ List.mem_cons_self
  have hNew := h.accounts.new_of_free hMem
  have hRoot' := List.mem_cons_of_mem f hRoot
  refine h.fits.leaf?_congr hAfter.fits (h.fits.ownHalf hRoot hb) (h.fits.root_place hRoot)
    (hAfter.fits.root_place hRoot') (fun u => ?_) (fun u hu => ?_)
  · rw [put_eq_some hNew]
    refine ⟨fun hu => hu.resolve_left ?_, Or.inr⟩
    rintro ⟨-, hPlace⟩
    simp [VirtualAddress.pathTo] at hPlace
  · rw [hMemory, Memory.entry_setTable (h.accounts.sound.free_holds hMem),
      if_neg (ne_of_new hNew hu)]

end Plan.Describes

end PagedKernel
