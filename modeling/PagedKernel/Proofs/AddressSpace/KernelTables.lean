import PagedKernel.Proofs.AddressSpace.Copying
import PagedKernel.Proofs.AddressSpace.Creation
import PagedKernel.Proofs.AddressSpace.Leaf
import PagedKernel.Proofs.AddressSpace.Teardown
import PagedKernel.Proofs.Plan.Maps
import PagedKernel.Proofs.Stateful.Triple

/-!
# The kernel's tables

No operation on an address space writes a table of the kernel's tree: what is written is a table of the
space itself, a frame that was free, or a page. So it is with all frames that lie aside of the spaces.

* `Plan.KernelTable`: the tables of the kernel's tree.
* `Plan.Aside`: frames that are neither free nor in the tree of a space.
* `KeepsFrames`: a computation on the machine leaves frames as they are.
* `Plan.Describes.keepsFrames_map` and its like: the operations one by one leave what lies aside.
* `Plan.Fits.leaf?_of_kernelTables`: what every root has in the upper half is read off the entries of
  these tables.
-/

namespace PagedKernel

open MachineM Stateful

def Plan.KernelTable (plan : Plan) (kernel f : Frame) : Prop :=
  ∃ path, plan f = some ⟨kernel, path⟩ ∧ path.length < 4

/-- The frames that `keep` selects are neither free nor in the tree of a space, and they are no pages. -/
structure Plan.Aside (plan : Plan) (kernel : Frame) (m : Machine) (keep : Frame → Prop) : Prop where
  notFree {f : Frame} : keep f → f ∉ m.frames.free
  place {f r : Frame} {path : List TableIndex} : keep f → plan f = some ⟨r, path⟩ →
    r = kernel ∧ path.length < 4

def KeepsFrames {α : Type} (keep : Frame → Prop) (m : Machine) (x : MachineM α) : Prop :=
  Meets (· = m) x (fun _ m' => m.memory.AgreeOn keep m'.memory)
    (fun m' => m.memory.AgreeOn keep m'.memory)

namespace KeepsFrames

variable {α : Type} {keep : Frame → Prop} {m m' : Machine} {x : MachineM α}

theorem of_ok {a : α} (h : x m = .ok a m') (hAgree : m.memory.AgreeOn keep m'.memory) :
    KeepsFrames keep m x := by
  rintro _ rfl
  rw [h]
  exact hAgree

theorem of_error {v : Violation} (h : x m = .error v m') (hAgree : m.memory.AgreeOn keep m'.memory) :
    KeepsFrames keep m x := by
  rintro _ rfl
  rw [h]
  exact hAgree

theorem of_ok_self {a : α} (h : x m = .ok a m) : KeepsFrames keep m x := of_ok h (.refl _ _)

theorem of_error_self {v : Violation} (h : x m = .error v m) : KeepsFrames keep m x :=
  of_error h (.refl _ _)

theorem onFrames (x : Stateful FrameAllocator α) : KeepsFrames keep m (MachineM.onFrames x) := by
  cases hRun : x m.frames with
  | ok a frames =>
    have hGiven : MachineM.onFrames x m = .ok a { m with frames } := by
      simp only [MachineM.onFrames, hRun]
    exact .of_ok hGiven (.refl _ _)
  | error v frames =>
    have hRefused : MachineM.onFrames x m = .error v { m with frames } := by
      simp only [MachineM.onFrames, hRun]
    exact .of_error hRefused (.refl _ _)

end KeepsFrames

namespace Plan

variable {plan : Plan} {kernel r t f : Frame} {roots held : List Frame} {m : Machine} {m' : Memory}
  {s : AddressSpace} {a : VirtualAddress} {path : List TableIndex}

theorem Aside.ne_of_place {keep : Frame → Prop} (h : plan.Aside kernel m keep) (hf : keep f)
    (ht : plan t = some ⟨r, path⟩) (hNe : r ≠ kernel) : f ≠ t := by
  rintro rfl
  exact hNe (h.place hf ht).1

theorem Aside.notMem_take {keep : Frame → Prop} (h : plan.Aside kernel m keep) (hf : keep f) (n : Nat) :
    f ∉ m.frames.free.take n :=
  fun hMem => h.notFree hf (List.mem_of_mem_take hMem)

/-- What the kernel has at an address is read off the entries of its tables. -/
theorem Fits.leaf?_of_kernelTables {n : Memory} (h : plan.Fits kernel roots n)
    (hFrames : m'.frames = n.frames)
    (hEntry : ∀ t, plan.KernelTable kernel t → ∀ i, m'.entry ⟨t, i⟩ = n.entry ⟨t, i⟩)
    (a : VirtualAddress) : m'.leaf? kernel a = n.leaf? kernel a := by
  refine Memory.leaf?_of_entries hFrames fun level t hLeads => hEntry t ⟨a.pathTo level, ?_, ?_⟩ _
  · exact (h.place_of_leads (Or.inl rfl) hLeads).elim id id
  · exact a.length_pathTo_lt level

/-- So is what a space has at an address of the kernel half, as long as its root table repeats the
kernel's there. -/
theorem Fits.leaf?_upper_of_kernelTables {n : Memory} (h : plan.Fits kernel roots n)
    (hFrames : m'.frames = n.frames)
    (hEntry : ∀ t, plan.KernelTable kernel t → ∀ i, m'.entry ⟨t, i⟩ = n.entry ⟨t, i⟩)
    (hr : r ∈ roots) (hRoot : ∀ i, m'.entry ⟨r, i⟩ = n.entry ⟨r, i⟩)
    (hUpper : kernelRootStart ≤ (Level.pml4.indexOf a).val) : m'.leaf? r a = n.leaf? r a := by
  refine Memory.leaf?_of_entries hFrames fun level t hLeads => ?_
  by_cases hLevel : level = .pml4
  · subst hLevel
    cases hLeads
    exact hRoot _
  · refine hEntry t ⟨a.pathTo level, h.leads_upper hr ?_ ?_ hLeads, a.length_pathTo_lt level⟩ _
    · exact a.inKernelHalf_pathTo hUpper level
    · cases level <;> simp_all [VirtualAddress.pathTo]

namespace Describes

/-- The kernel's tables lie aside. -/
theorem aside_kernelTable (h : plan.Describes kernel roots held m) :
    plan.Aside kernel m (plan.KernelTable kernel) where
  notFree := fun ⟨_, hf, _⟩ => h.accounts.notMem_free hf
  place := by
    rintro f r path ⟨q, hf, hLength⟩ hPlace
    rw [hf] at hPlace
    obtain ⟨rfl, rfl⟩ : kernel = r ∧ q = path := by simpa using hPlace
    exact ⟨rfl, hLength⟩

variable {keep : Frame → Prop} (h : plan.Describes kernel roots held m) (hAside : plan.Aside kernel m keep)

include h hAside

theorem keepsFrames_create {k : KernelSpace} (hk : k.root = kernel) :
    KeepsFrames keep m (AddressSpace.create k) := by
  subst hk
  by_cases hSupply : m.frames.supply = 0
  · obtain ⟨m', hCreate, hMemory, -⟩ := AddressSpace.create_refused (k := k) hSupply
    exact .of_ok hCreate (hMemory ▸ .refl _ _)
  · have hPos := Nat.pos_of_ne_zero hSupply
    obtain ⟨r, rest, hFree⟩ := FrameAllocator.exists_free_of_supply hPos
    have hMem : r ∈ m.frames.free := hFree ▸ List.mem_cons_self
    have hSound := h.accounts.sound
    obtain ⟨m', hCreate, -, hMemory⟩ := AddressSpace.create_made (k := k) hFree (hSound.free_new hMem)
      hPos (hSound.free_holds hMem) (h.fits.holds h.fits.kernel_place)
    refine .of_ok hCreate ?_
    rw [hMemory]
    refine (Memory.agreeOn_setTable (hSound.free_holds hMem) _).mono fun f hf => ?_
    rintro rfl
    exact hAside.notFree hf hMem

/-- What is written to a table of a space leaves the frames aside as they are. -/
theorem keepsFrames_setEntry (hr : r ∈ roots) (ht : plan t = some ⟨r, path⟩) (i : TableIndex) (e : Entry) :
    m.memory.AgreeOn keep (m.memory.setEntry ⟨t, i⟩ e) :=
  (Memory.agreeOn_setEntry (s := ⟨t, i⟩) (h.fits.holds ht) e).mono fun _ hf =>
    hAside.ne_of_place hf ht (h.fits.ne_kernel hr)

variable (hs : s.isKernel = false → s.root ∈ roots)

include hs

theorem keepsFrames_map (page kernelAlias : VirtualAddress) (writable : Bool) :
    KeepsFrames keep m (s.map page kernelAlias writable) := by
  rcases s.mappable_or_refused page kernelAlias writable m with ⟨p, hMap⟩ | ⟨v, -, hRefused⟩
  · have hr := hs hMap.changeable
    have hNe := h.fits.ne_kernel hr
    obtain ⟨l, t, hDescends, ht, hBare⟩ :=
      h.bare (h.fits.ownHalf hr hMap.user) (h.fits.root_place hr)
    rcases h.stop_cases hr hMap.user ht hBare with ⟨-, hAbsent⟩ | ⟨-, rfl, hPresent⟩
    · by_cases hSupply : l.height ≤ m.frames.supply
      · refine .of_ok (map_mapped hMap hDescends hBare hSupply hAbsent writable) ?_
        have hLeaf := h.grow_leafTable ht hSupply
        have hGrown := h.grow (h.fits.ownHalf hr hMap.user) (fun hEq => absurd hEq hNe) ht hBare
        have hWalk : m.memory.AgreeOn _ (m.grow page l t).memory :=
          Memory.agreeOn_grow (h.fits.holds ht) (h.take_holds l.height)
        have hWrite : (m.grow page l t).memory.AgreeOn _ (m.mapped page p.frame writable l t).memory :=
          Memory.agreeOn_setEntry (s := ⟨m.leafTable l t, Level.pt.indexOf page⟩)
            (hGrown.fits.holds hLeaf) (Entry.compose writable .user p.frame)
        refine (hWalk.mono fun f hf => ⟨hAside.ne_of_place hf ht hNe, hAside.notMem_take hf _⟩).trans
          (hWrite.mono fun f hf => ?_)
        rintro rfl
        rcases grow_eq_some (h.take_nodup _) (h.take_new _) hLeaf with hOld | ⟨hNew, -⟩
        · exact hNe (hAside.place hf hOld).1
        · exact hAside.notMem_take hf _ hNew
      · obtain ⟨level, m', -, hRun, -, hUndone⟩ :=
          map_undone hMap hDescends hBare (Nat.lt_of_not_le hSupply) writable
        exact .of_ok hRun (hUndone.agree.mono fun f hf => hAside.notMem_take hf _)
    · exact .of_error_self (map_present hMap hDescends (h.fits.holds ht) hPresent)
  · exact .of_error_self hRefused

theorem keepsFrames_unmap (page : VirtualAddress) :
    KeepsFrames keep m (s.unmap page) := by
  by_cases hArguments : page.isAligned = true ∧ page.isUser = true ∧ s.isKernel = false
  · obtain ⟨hAligned, hUser, hKernel⟩ := hArguments
    have hr := hs hKernel
    have hHalf := h.fits.ownHalf hr hUser
    have hPlace := h.fits.root_place hr
    by_cases hTable : ∃ t, plan t = some ⟨s.root, page.pathTo .pt⟩
    · obtain ⟨t, ht⟩ := hTable
      have hLookup := h.fits.lookup_eq hHalf hPlace ht
      cases hPresent : (m.memory.entry ⟨t, Level.pt.indexOf page⟩).present with
      | false =>
        exact .of_ok_self (AddressSpace.unmap_absent hUser hKernel hAligned hLookup hPresent)
      | true =>
        obtain ⟨m', hUnmap, -, hMemory⟩ :=
          AddressSpace.unmap_present hUser hKernel hAligned hLookup hPresent
        exact .of_ok hUnmap (hMemory ▸ h.keepsFrames_setEntry hAside hr ht _ _)
    · obtain ⟨below, hMissing⟩ := h.fits.lookup_missing hHalf hPlace fun t ht => hTable ⟨t, ht⟩
      exact .of_ok_self (AddressSpace.unmap_missing hUser hKernel hAligned hMissing)
  · obtain ⟨v, -, hRefused⟩ := AddressSpace.unmap_refused (m := m) hArguments
    exact .of_error_self hRefused

theorem keepsFrames_setLeafFlag (f : Entry.Field) (a : VirtualAddress) (on : Bool) :
    KeepsFrames keep m (s.setLeafFlag f a on) := by
  by_cases hArguments : a.isUser = true ∧ s.isKernel = false
  · obtain ⟨hUser, hKernel⟩ := hArguments
    have hr := hs hKernel
    have hHalf := h.fits.ownHalf hr hUser
    have hPlace := h.fits.root_place hr
    by_cases hTable : ∃ t, plan t = some ⟨s.root, a.pathTo .pt⟩
    · obtain ⟨t, ht⟩ := hTable
      obtain ⟨m', hMark, -, hMemory⟩ :=
        AddressSpace.setLeafFlag_found hUser hKernel (h.fits.lookup_eq hHalf hPlace ht) f on
      exact .of_ok hMark (hMemory ▸ h.keepsFrames_setEntry hAside hr ht _ _)
    · obtain ⟨below, hMissing⟩ := h.fits.lookup_missing hHalf hPlace fun t ht => hTable ⟨t, ht⟩
      exact .of_ok_self (AddressSpace.setLeafFlag_missing hUser hKernel hMissing)
  · obtain ⟨v, -, hRefused⟩ := AddressSpace.setLeafFlag_refused hArguments f on m
    exact .of_error_self hRefused

omit hAside in
theorem keepsFrames_destroy : KeepsFrames keep m s.destroy := by
  cases hKernel : s.isKernel with
  | false =>
    obtain ⟨m', hDestroy, hMemory, -⟩ := h.destroy_eq (hs hKernel) hKernel
    exact .of_ok hDestroy (hMemory ▸ .refl _ _)
  | true =>
    refine .of_error_self (v := .kernelSpaceDestroyed) ?_
    rw [AddressSpace.destroy, hKernel]
    rfl

end Describes

end Plan

end PagedKernel
