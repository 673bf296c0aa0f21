import PagedKernel.Machine.Boot
import PagedKernel.Proofs.Machine.Allocations
import PagedKernel.Proofs.Plan.Described

/-!
# The machine that has booted

Booting builds the kernel's tree with the same walk that user pages are mapped with, so the plan
grows in the same way. It takes six frames: frame zero is never handed out, and five are in use
afterwards. The memory has at most `2 ^ 40` frames, for an entry has forty bits to name one: physical
addresses end at 52 bits.

* `FrameAllocator.sound_ofFrames`: where the allocator starts.
* `Machine.boot_cases`: booting fails for want of frames, or ends in a machine with a plan.
* `Machine.boot_describes`, `Machine.exists_boot`: the two halves of that.
-/

namespace PagedKernel

open MachineM

namespace FrameAllocator

/-- A memory of frames that entries can name starts with all of them free but the first. -/
theorem sound_ofFrames {frames : Nat} (h : frames ≤ 2 ^ 40) :
    (ofFrames frames).Sound (.zeroed frames) := by
  have hLe : frames ≤ 2 ^ 52 := by omega
  refine ⟨fun hf => ?_, nofun, nodup_ofFrames hLe, List.nodup_nil, fun _ => List.not_mem_nil⟩
  exact decide_eq_true ((mem_ofFrames hLe).1 hf).2

end FrameAllocator

variable {s : Machine} {f : Frame} {rest : List Frame}

theorem takeFrame_refused (hSupply : s.frames.supply = 0) :
    takeFrame s = .error .framesExhausted { s with frames := s.frames.refuse } := by
  rw [takeFrame, Stateful.bind_ok (takeFrame?_of_alloc (FrameAllocator.alloc_of_supply_eq_zero hSupply))]
  rfl

theorem takeFrame_given (hFree : s.frames.free = f :: rest) (hNew : f ∉ s.frames.inUse)
    (hSupply : 0 < s.frames.supply) :
    takeFrame s = .ok f { s with frames := s.frames.serve 1 } := by
  rw [takeFrame,
    Stateful.bind_ok (takeFrame?_of_alloc (FrameAllocator.alloc_of_supply_pos hFree hNew hSupply))]
  rfl

namespace KernelBuilder

theorem create_refused (hSupply : s.frames.supply = 0) :
    create s = .ok (.error .outOfMemory) { s with frames := s.frames.refuse } := by
  rw [create, Stateful.bind_ok (takeFrame?_of_alloc (FrameAllocator.alloc_of_supply_eq_zero hSupply))]
  rfl

theorem create_made (hFree : s.frames.free = f :: rest) (hNew : f ∉ s.frames.inUse)
    (hSupply : 0 < s.frames.supply) (hHolds : s.memory.holds f = true) :
    ∃ s', create s = .ok (.ok ⟨f⟩) s' ∧ s'.frames = s.frames.serve 1 ∧
      s'.memory = s.memory.setTable f .zeroed := by
  have hAlloc := takeFrame?_of_alloc (FrameAllocator.alloc_of_supply_pos hFree hNew hSupply)
  have hWrite := writeTable_of_holds (s := { s with frames := s.frames.serve 1 }) hHolds .zeroed
  rw [create, Stateful.bind_ok hAlloc]
  simp only
  rw [Stateful.bind_ok hWrite]
  refine ⟨_, rfl, ?_, ?_⟩
  · dsimp only
  · dsimp only

variable {b : KernelBuilder} {page : VirtualAddress} {writable : Bool} {l : Level} {t : Frame}
  {plan : Plan} {kernel : Frame} {held : List Frame}

theorem map_undone (hAligned : page.isAligned = true) (hKernel : page.isKernel = true)
    (hDescends : s.memory.Descends page .pml4 b.root l t) (hBare : Bare s page l t)
    (hSupply : s.frames.supply < l.height) :
    ∃ level s', b.map page f writable s = .ok (.error (.outOfMemory level)) s' ∧
      Undone s s' level page := by
  obtain ⟨level, s', hRun, -, hUndone⟩ := lookupCreatingFrom_undone hBare hSupply
  refine ⟨level, s', ?_, hUndone⟩
  rw [map]
  simp only [hAligned, hKernel, ↓reduceIte]
  rw [lookupCreating, Stateful.bind_ok (hDescends.lookupCreatingFrom_eq.trans hRun)]
  rfl

theorem map_refused (h : ¬ (page.isAligned = true ∧ page.isKernel = true)) :
    ∃ v, b.map page f writable s = .error v s := by
  rw [map]
  by_cases hAligned : page.isAligned = true
  · have hKernel : page.isKernel = false := by simpa [hAligned] using h
    simp only [hAligned, hKernel, ↓reduceIte]
    exact ⟨_, rfl⟩
  · simp only [hAligned]
    exact ⟨_, rfl⟩

theorem map_made (hAligned : page.isAligned = true) (hKernel : page.isKernel = true)
    (hDescends : s.memory.Descends page .pml4 b.root l t) (hBare : Bare s page l t)
    (hSupply : l.height ≤ s.frames.supply) (hNumber : f.number.toNat < 2 ^ 40) :
    ∃ s', b.map page f writable s = .ok (.ok ()) s' ∧ s'.frames = s.frames.serve l.height ∧
      s'.memory = (s.memory.grow page l t (s.frames.free.take l.height)).setEntry
        ⟨s.leafTable l t, Level.pt.indexOf page⟩ (Entry.compose writable .global f) := by
  have hWalk := hDescends.lookupCreatingFrom_eq.trans (lookupCreatingFrom_grown hBare hSupply)
  rw [map]
  simp only [hAligned, hKernel, ↓reduceIte]
  rw [lookupCreating, Stateful.bind_ok hWalk]
  simp only
  rw [Stateful.bind_ok (Stateful.lift_ok (Entry.kernelLeaf_eq hNumber writable)),
    Stateful.bind_ok (setEntry_apply _ _)]
  refine ⟨_, rfl, ?_, ?_⟩
  · dsimp only [Machine.grow]
  · dsimp only [Machine.grow, Machine.leafTable]

/-- A frame that an entry cannot name is refused when the walk has made its tables. -/
theorem map_overflow (hAligned : page.isAligned = true) (hKernel : page.isKernel = true)
    (hDescends : s.memory.Descends page .pml4 b.root l t) (hBare : Bare s page l t)
    (hSupply : l.height ≤ s.frames.supply) (hNumber : ¬ f.number.toNat < 2 ^ 40) :
    ∃ v, b.map page f writable s = .error v (s.grow page l t) := by
  have hWalk := hDescends.lookupCreatingFrom_eq.trans (lookupCreatingFrom_grown hBare hSupply)
  have hLeaf := Entry.kernelLeaf_error hNumber writable
  rw [map]
  simp only [hAligned, hKernel, ↓reduceIte]
  rw [lookupCreating, Stateful.bind_ok hWalk]
  simp only
  rw [Stateful.bind_error (Stateful.lift_error hLeaf)]
  exact ⟨_, rfl⟩

end KernelBuilder

namespace Machine

theorem supply_ofFrames (frames : Nat) :
    (FrameAllocator.ofFrames frames).supply = frames - 1 := by
  simp [FrameAllocator.supply, FrameAllocator.ofFrames]

theorem describes_root {s s' : Machine} (hSound : s.frames.Sound s.memory)
    (hUse : s.frames.inUse = []) (hFrames : s.memory.frames ≤ 2 ^ 40)
    (hFree : s.frames.free = f :: rest) (hMemory : s'.memory = s.memory.setTable f .zeroed)
    (hServed : s'.frames = s.frames.serve 1) :
    (Plan.put (fun _ => none) f ⟨f, []⟩).Describes f [] [] s' := by
  have hHolds := hSound.free_holds (hFree ▸ List.mem_cons_self)
  refine ⟨?_, ?_⟩
  · rw [hMemory]
    refine Plan.fits_kernel (by simpa using hFrames) (by simpa using hHolds) fun i => ?_
    rw [Memory.entry_setTable hHolds, if_pos rfl, PageTable.get_zeroed]
  · have hNothing : Plan.Accounts (fun _ => none) [] s.memory s.frames := by
      refine ⟨hSound, ?_, List.nodup_nil, fun _ => rfl⟩
      intro g
      rw [hUse]
      simp
    rw [hServed]
    refine (hNothing.serve (Plan.put (fun _ => none) f ⟨f, []⟩) 1 fun g => ?_).congr rfl rfl ?_
    · rw [Plan.isSome_put, hFree, List.take_succ_cons, List.take_zero, List.mem_singleton]
    · rw [hMemory, Memory.frames_setTable]

theorem ownHalf_kernelBase (kernel : Frame) : OwnHalf kernel kernel ⟨kernelBase⟩ :=
  iff_of_true rfl (VirtualAddress.le_indexOf_pml4 (by decide))

def bootFrom (builder : KernelBuilder) : MachineM KernelSpace := do
  let image ← takeFrame
  match ← builder.map ⟨kernelBase⟩ image true with
  | .error (.outOfMemory level) => throw (.noKernelTable level)
  | .ok () =>
    let k ← builder.finish
    tell fun _ => .ofRoot k.root
    return k

theorem bootFrom_cases {root : Frame} {s : Machine}
    (h : (Plan.put (fun _ => none) root ⟨root, []⟩).Describes root [] [] s) :
    (∃ v s', bootFrom ⟨root⟩ s = .error v s' ∧ s.frames.supply < 4) ∨
      ∃ s', ∃ plan : Plan, bootFrom ⟨root⟩ s = .ok ⟨root⟩ s' ∧ plan.Describes root [] [] s' ∧
        s'.frames.supply + 4 = s.frames.supply ∧ s'.memory.frames = s.memory.frames := by
  rw [bootFrom]
  by_cases hNone : s.frames.supply = 0
  · refine Or.inl ⟨.framesExhausted, _, Stateful.bind_error (takeFrame_refused hNone), by omega⟩
  obtain ⟨image, rest, hFree⟩ := FrameAllocator.exists_free_of_supply (Nat.pos_of_ne_zero hNone)
  have hMem : image ∈ s.frames.free := hFree ▸ List.mem_cons_self
  have hSound := h.accounts.sound
  rw [Stateful.bind_ok (takeFrame_given hFree (hSound.free_new hMem) (by omega))]
  have hTaken : Plan.Describes _ root [] [image] { s with frames := s.frames.serve 1 } :=
    h.take hFree rfl rfl
  have hLeft : (s.frames.serve 1).supply = s.frames.supply - 1 := FrameAllocator.supply_serve 1 _
  obtain ⟨l, t, hDescends, ht, hBare⟩ := hTaken.bare (ownHalf_kernelBase root) (Plan.put_self ..)
  have hLevel : l = .pml4 := by
    obtain ⟨-, hPlace⟩ := Plan.put_none_eq_some.1 ht
    have hPath : VirtualAddress.pathTo ⟨kernelBase⟩ l = [] := (Place.mk.inj hPlace).2
    cases l with
    | pml4 => rfl
    | pdpt | pd | pt => cases hPath
  subst hLevel
  by_cases hShort : (s.frames.serve 1).supply < 3
  · obtain ⟨level, s', hMap, -⟩ := @KernelBuilder.map_undone _ image ⟨root⟩ _ true _ _
      (by decide) (by decide) hDescends hBare hShort
    refine Or.inl ⟨.noKernelTable level, s', ?_, by omega⟩
    rw [Stateful.bind_ok hMap]
    rfl
  · have hNumber := Memory.number_lt_of_holds h.fits.frames_le (hSound.free_holds hMem)
    obtain ⟨s', hMap, hFrames, hMemory⟩ := @KernelBuilder.map_made _ _ ⟨root⟩ _ true _ _
      (by decide) (by decide) hDescends hBare (Nat.le_of_not_lt hShort) hNumber
    have hTarget := Entry.target_compose true .global rfl (by decide) hNumber
    have hFilled := hTaken.fillLeaf (ownHalf_kernelBase root) (fun _ => rfl) ht hBare
      (Nat.le_of_not_lt hShort) nofun List.mem_cons_self hTarget hMemory hFrames
    rw [List.erase_cons_head] at hFilled
    refine Or.inr ⟨{ s' with log := .kernelFinished root :: s'.log, mmu := .ofRoot root }, _, ?_,
      ⟨hFilled.fits, hFilled.accounts⟩, ?_, ?_⟩
    · rw [Stateful.bind_ok hMap]
      rfl
    · show s'.frames.supply + 4 = s.frames.supply
      rw [hFrames, FrameAllocator.supply_serve, hLeft]
      simp only [Level.height]
      omega
    · show s'.memory.frames = s.memory.frames
      rw [hMemory, Memory.frames_setEntry, Memory.frames_grow]

/-- Booting fails for want of frames, or ends in a machine with a plan. -/
theorem boot_cases {frames : Nat} (hFrames : frames ≤ 2 ^ 40) :
    (∃ v, boot frames = .error v ∧ frames < 6) ∨
      ∃ k s, ∃ plan : Plan, boot frames = .ok (k, s) ∧ plan.Describes k.root [] [] s ∧
        s.frames.supply + 6 = frames ∧ s.memory.frames = frames := by
  have hSound := FrameAllocator.sound_ofFrames hFrames
  have hSupply : (ofFrames frames default).frames.supply = frames - 1 := supply_ofFrames frames
  have hLength := (ofFrames frames default).frames.supply_le_length
  by_cases hRoot : frames - 1 = 0
  · refine Or.inl ⟨.noKernelRoot, ?_, by omega⟩
    rw [boot, bootKernel, Stateful.bind_ok (KernelBuilder.create_refused (hSupply.trans hRoot))]
    rfl
  obtain ⟨root, rest, hFree⟩ := List.exists_cons_of_length_pos
    (l := (ofFrames frames default).frames.free) (by omega)
  have hMem : root ∈ (ofFrames frames default).frames.free := hFree ▸ List.mem_cons_self
  obtain ⟨s, hCreate, hServed, hMemory⟩ := KernelBuilder.create_made hFree
    (hSound.free_new hMem) (by omega) (hSound.free_holds hMem)
  have hDescribes := describes_root hSound rfl hFrames hFree hMemory hServed
  have hLeft : s.frames.supply = frames - 1 - 1 := by
    rw [hServed, FrameAllocator.supply_serve, hSupply]
  have hRest : bootKernel (ofFrames frames default) = bootFrom ⟨root⟩ s := by
    rw [bootKernel, Stateful.bind_ok hCreate]
    rfl
  rcases bootFrom_cases hDescribes with ⟨v, s', hFail, hFew⟩ | ⟨s', plan, hDone, hPlan, hEnough, hSize⟩
  · refine Or.inl ⟨v, ?_, by omega⟩
    rw [boot, hRest, hFail]
  · refine Or.inr ⟨⟨root⟩, s', plan, ?_, hPlan, by omega, ?_⟩
    · rw [boot, hRest, hDone]
    · rw [hSize, hMemory, Memory.frames_setTable]
      rfl

variable {frames : Nat} {k : KernelSpace} {s : Machine}

/-- A machine that has booted has a plan, with no space in it but the kernel's. -/
theorem boot_describes (hFrames : frames ≤ 2 ^ 40) (hBoot : boot frames = .ok (k, s)) :
    ∃ plan : Plan, plan.Describes k.root [] [] s := by
  rcases boot_cases hFrames with ⟨v, hFail, -⟩ | ⟨k', s', plan, hDone, hPlan, -⟩
  · rw [hBoot] at hFail
    cases hFail
  · rw [hBoot] at hDone
    cases hDone
    exact ⟨plan, hPlan⟩

theorem active_of_boot (hBoot : boot frames = .ok (k, s)) : s.mmu.active = k.root := by
  rw [boot] at hBoot
  split at hBoot
  next k' s' hKernel =>
    cases hBoot
    rw [bootKernel] at hKernel
    obtain ⟨o, s₁, -, hBuild⟩ := Stateful.ok_of_bind hKernel
    cases o with
    | error e => cases hBuild
    | ok builder =>
      obtain ⟨image, s₂, -, hMap⟩ := Stateful.ok_of_bind hBuild
      obtain ⟨o, s₃, -, hFinish⟩ := Stateful.ok_of_bind hMap
      cases o with
      | error e => cases hFinish
      | ok _ =>
        obtain ⟨k', s₄, -, hTell⟩ := Stateful.ok_of_bind hFinish
        cases hTell
        rfl
  next => cases hBoot

/-- Six frames are enough to boot. -/
theorem exists_boot (hEnough : 6 ≤ frames) (hFrames : frames ≤ 2 ^ 40) :
    ∃ k s, boot frames = .ok (k, s) ∧ s.frames.supply + 6 = frames ∧ s.memory.frames = frames := by
  rcases boot_cases hFrames with ⟨v, -, hFew⟩ | ⟨k, s, plan, hDone, -, hLeft⟩
  · omega
  · exact ⟨k, s, hDone, hLeft⟩

end Machine

end PagedKernel
