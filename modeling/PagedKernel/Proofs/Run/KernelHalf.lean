import PagedKernel.Proofs.AddressSpace.VisitOrder
import PagedKernel.Proofs.Run.Edited
import PagedKernel.Proofs.Run.Progress

/-!
# One kernel half

Every address space begins with a copy of the upper half of the kernel's root table. Nothing writes that
half afterwards, in any root, so what hangs below it is the kernel's tree in every space: all spaces
answer alike there, also when visitors change flags of kernel leaves, and also when spaces go.

* `AddressSpace.SameKernelHalf`: two spaces give the same answers about the kernel half.
* `System.OneKernelHalf`: all spaces do, and go on doing so when one of them is destroyed.
* `Plan.Fits.filter_leaves`: the leaves that a traversal reports there.
* `EditedRun.shares_kernelHalf`: every run leads to a system with one kernel half.
-/

namespace PagedKernel

open Leaves

/-- About the kernel half the two spaces give the same answers, the one on the machine `m`, the other on
the machine `m'`. Every question has an answer, and traversals report the same leaves there. -/
structure AddressSpace.SameKernelHalf (s : AddressSpace) (m : Machine) (s' : AddressSpace)
    (m' : Machine) : Prop where
  translate (a : VirtualAddress) : a.isKernel = true →
    ∃ o, s.translate m.memory a = .ok o ∧ s'.translate m'.memory a = .ok o
  dirtyAt (a : VirtualAddress) : a.isKernel = true →
    ∃ on, s.dirtyAt m.memory a = .ok on ∧ s'.dirtyAt m'.memory a = .ok on
  accessedAt (a : VirtualAddress) : a.isKernel = true →
    ∃ on, s.accessedAt m.memory a = .ok on ∧ s'.accessedAt m'.memory a = .ok on
  leaves : ∃ seen seen', s.visitLeaves (Visitor.collect (β := Unit)) [] m = .ok (.proceed, seen) m ∧
    s'.visitLeaves (Visitor.collect (β := Unit)) [] m' = .ok (.proceed, seen') m' ∧
    seen.filter (·.1.isKernel) = seen'.filter (·.1.isKernel)

/-- All spaces of the system have one kernel half. -/
structure System.OneKernelHalf (σ : System) : Prop where
  entry_eq : ∀ s ∈ σ.live, ∀ i : TableIndex, kernelRootStart ≤ i.val →
    σ.machine.memory.entry ⟨s.root, i⟩ = σ.machine.memory.entry ⟨σ.kernel.root, i⟩
  same : ∀ s ∈ σ.live, s.SameKernelHalf σ.machine σ.kernel.view σ.machine
  leaves_eq : ∀ s, σ.Knows s → ∃ seen shared,
    s.visitLeaves (Visitor.collect (β := Unit)) [] σ.machine = .ok (.proceed, seen) σ.machine ∧
      σ.kernel.view.visitLeaves (Visitor.collect (β := Unit)) [] σ.machine =
        .ok (.proceed, shared) σ.machine ∧
      seen.filter (·.1.isKernel) = shared
  /-- A space that is destroyed changes nothing of this for the others. -/
  destroyed : ∀ s ∈ σ.live, (σ.perform (.destroy s)).1 = .done ∧
    ∀ s', σ.Knows s' → s' ≠ s →
      (σ.perform (.destroy s)).2.Knows s' ∧
        s'.SameKernelHalf σ.machine s' (σ.perform (.destroy s)).2.machine

namespace Memory

variable {m : Memory} {e : Entry} {i : TableIndex} {x : VirtualAddress × Entry}

theorem isKernel_of_mem (hx : x ∈ m.leavesBehind .pml4 e [i]) :
    x.1.isKernel = true ↔ kernelRootStart ≤ i.val := by
  obtain ⟨path, hLength, hLast, hAddress⟩ := exists_path_of_mem rfl hx
  rw [hAddress, VirtualAddress.isKernel_ofPath hLength, InKernelHalf, hLast]
  simp

theorem filter_leavesBehind : (m.leavesBehind .pml4 e [i]).filter (·.1.isKernel) =
    if kernelRootStart ≤ i.val then m.leavesBehind .pml4 e [i] else [] := by
  split
  next hUpper => exact List.filter_eq_self.2 fun x hx => (isKernel_of_mem hx).2 hUpper
  next hLower =>
    refine List.filter_eq_nil_iff.2 fun x hx => ?_
    rwa [isKernel_of_mem hx]

end Memory

namespace Plan.Fits

variable {plan : Plan} {kernel r : Frame} {roots : List Frame} {m m' : Machine} {s s' : AddressSpace}
  {a : VirtualAddress}

section Answers

variable (h : plan.Fits kernel roots m.memory) (hr : r = kernel ∨ r ∈ roots)

include h hr

theorem entry_upper (i : TableIndex) (hUpper : kernelRootStart ≤ i.val) :
    m.memory.entry ⟨r, i⟩ = m.memory.entry ⟨kernel, i⟩ := by
  rcases hr with rfl | hr
  · rfl
  · exact h.upper hr i hUpper

theorem leaf?_kernelHalf (ha : a.isKernel = true) :
    m.memory.leaf? r a = m.memory.leaf? kernel a := by
  rcases hr with rfl | hr
  · rfl
  · exact h.leaf?_upper hr (VirtualAddress.le_indexOf_pml4 ha)

theorem leaf?_kernelHalf_cases (ha : a.isKernel = true) :
    m.memory.leaf? r a = .ok none ∨
      ∃ e, m.memory.leaf? r a = .ok (some e) ∧ e.flag .pageSize = false := by
  have hHalf : OwnHalf kernel kernel a := iff_of_true rfl (VirtualAddress.le_indexOf_pml4 ha)
  rw [h.leaf?_kernelHalf hr ha]
  rcases h.leaf?_cases hHalf h.kernel_place with ⟨t, ht, hLeaf⟩ | ⟨-, hLeaf⟩
  · exact Or.inr ⟨_, hLeaf, (h.leaf ht rfl _).1⟩
  · exact Or.inl hLeaf

end Answers

/-- The leaves that a traversal of a space finds in the kernel half are those of the kernel's tree. -/
theorem filter_leaves (h : plan.Fits kernel roots m.memory) (hr : r = kernel ∨ r ∈ roots) :
    (TableIndex.all.flatMap fun i =>
        m.memory.leavesBehind .pml4 (m.memory.entry ⟨r, i⟩) [i]).filter (·.1.isKernel) =
      TableIndex.all.flatMap fun i =>
        m.memory.leavesBehind .pml4 (m.memory.entry ⟨kernel, i⟩) [i] := by
  rw [List.filter_flatMap]
  congr 1
  funext i
  rw [Memory.filter_leavesBehind]
  split
  next hUpper => rw [h.entry_upper hr i hUpper]
  next hLower =>
    rw [h.lower i (Nat.lt_of_not_le hLower), Memory.leavesBehind_none Entry.target_empty]

/-- Two spaces of one machine give the same answers about the kernel half, and so does a space on
machines with the same memory. -/
theorem sameKernelHalf (h : plan.Fits kernel roots m.memory) (hMemory : m'.memory = m.memory)
    (hr : s.root = kernel ∨ s.root ∈ roots) (hr' : s'.root = kernel ∨ s'.root ∈ roots) :
    s.SameKernelHalf m s' m' := by
  have hLeaf : ∀ a : VirtualAddress, a.isKernel = true →
      m'.memory.leaf? s'.root a = m.memory.leaf? s.root a := by
    intro a ha
    rw [hMemory, h.leaf?_kernelHalf hr ha, h.leaf?_kernelHalf hr' ha]
  refine ⟨fun a ha => ?_, fun a ha => ?_, fun a ha => ?_, ?_⟩
  · rw [AddressSpace.translate_congr (hLeaf a ha)]
    rcases h.leaf?_kernelHalf_cases hr ha with hNone | ⟨e, hEntry, hSmall⟩
    · exact ⟨_, AddressSpace.translate_of_none hNone, AddressSpace.translate_of_none hNone⟩
    · have hAnswer := AddressSpace.translate_of_entry hEntry hSmall
      exact ⟨_, hAnswer, hAnswer⟩
  · rw [AddressSpace.dirtyAt_congr (hLeaf a ha)]
    rcases h.leaf?_kernelHalf_cases hr ha with hNone | ⟨e, hEntry, -⟩
    · exact ⟨_, AddressSpace.dirtyAt_of_none hNone, AddressSpace.dirtyAt_of_none hNone⟩
    · exact ⟨_, AddressSpace.dirtyAt_of_entry hEntry, AddressSpace.dirtyAt_of_entry hEntry⟩
  · rw [AddressSpace.accessedAt_congr (hLeaf a ha)]
    rcases h.leaf?_kernelHalf_cases hr ha with hNone | ⟨e, hEntry, -⟩
    · exact ⟨_, AddressSpace.accessedAt_of_none hNone, AddressSpace.accessedAt_of_none hNone⟩
    · exact ⟨_, AddressSpace.accessedAt_of_entry hEntry, AddressSpace.accessedAt_of_entry hEntry⟩
  · have h' : plan.Fits kernel roots m'.memory := hMemory ▸ h
    refine ⟨_, _, run_collect (h.regular hr) _, run_collect (h'.regular hr') _, ?_⟩
    rw [h.filter_leaves hr, h'.filter_leaves hr', hMemory]

end Plan.Fits

theorem Plan.Tracks.oneKernelHalf {plan : Plan} {σ : System} (h : plan.Tracks σ) : σ.OneKernelHalf where
  entry_eq s hs := h.describes.fits.entry_upper (knows_root (Or.inl hs))
  same s hs := h.describes.fits.sameKernelHalf rfl (knows_root (Or.inl hs)) (Or.inl rfl)
  leaves_eq s hs := by
    have hFits := h.describes.fits
    exact ⟨_, _, run_collect (hFits.regular (knows_root hs)) _,
      run_collect (hFits.regular (Or.inl rfl)) _, hFits.filter_leaves (knows_root hs)⟩
  destroyed s hs := by
    obtain ⟨m, hDestroy, hMemory, -⟩ := h.destroy_live hs
    rw [hDestroy]
    refine ⟨rfl, fun s' hs' hNe => ⟨?_, ?_⟩⟩
    · exact hs'.imp_left fun hLive => (List.mem_erase_of_ne hNe).2 hLive
    · exact h.describes.fits.sameKernelHalf hMemory (knows_root hs') (knows_root hs')

variable {frames : Nat} {k : KernelSpace} {m : Machine} {σ : System}

/-- After every run from booting on, in which visitors may change the flags of any leaves, the kernel's
too, all spaces have one kernel half. -/
theorem EditedRun.shares_kernelHalf (hFrames : frames ≤ 2 ^ 40) (hBoot : Machine.boot frames = .ok (k, m))
    (hRun : EditedRun (System.EditsFlags fun _ => True) (.booted k m) σ) : σ.OneKernelHalf := by
  obtain ⟨-, plan, hTracks⟩ := hRun.tracks (System.followed_editsFlags _)
    (System.tracks_booted hFrames hBoot)
  exact hTracks.oneKernelHalf

/-- The kernel half of a machine of sixteen frames, after all leaves that its one space reaches have been
marked dirty. -/
theorem EditedRun.shares_kernelHalf_sixteen : ∃ k m σ, Machine.boot 16 = .ok (k, m) ∧
    EditedRun (System.EditsFlags fun _ => True) (.booted k m) σ ∧ σ.live ≠ [] ∧ σ.OneKernelHalf := by
  obtain ⟨k, m, f, s, σ, plan, hBoot, hRun, hTracks, hs, -⟩ := @Run.exists_space 16 (by decide)
    (by decide)
  obtain ⟨σ', hVisits, hLive⟩ := hTracks.exists_marked (Or.inl hs) .dirty true false rfl
    (by decide) fun _ _ => trivial
  have hMarked : EditedRun (System.EditsFlags fun _ => True) (.booted k m) σ' :=
    (EditedRun.of_run hRun).visit hVisits
  refine ⟨k, m, σ', hBoot, hMarked, ?_, EditedRun.shares_kernelHalf (by decide) hBoot hMarked⟩
  rw [hLive]
  exact List.ne_nil_of_mem hs

end PagedKernel
