import PagedKernel.Proofs.Plan.Ledger
import PagedKernel.Proofs.Stateful.Coincidence

/-!
# Machines that differ in bytes that do not matter

Two machines are twins when they have the same allocator, the same memory-management unit and the same
log, and the same bytes in the frames in use, apart from some that are said to be hidden. What free frames
hold does not matter at all: a frame joins those that count when a table is written to it, all of it.

* `Machine.Twins`: the relation.
* `Twins.setEntry`, `Twins.setTable` and their like: what is done to both twins keeps them twins.
* `Twins.takeFrame?_step`: both get the same frame, and it is hidden until a table is written to it.
* `Twins.write_step`: bytes are written to both.
-/

namespace PagedKernel

open MachineM Stateful

namespace Memory

variable {keep : Frame → Prop} {m m' : Memory}

theorem AgreeOn.store (h : m.AgreeOn keep m') (a : PhysicalAddress) (b : UInt8) :
    Coincide (fun _ => AgreeOn keep) (AgreeOn keep) (Memory.store a b m) (Memory.store a b m') := by
  simp only [Memory.store, h.holds]
  split
  next hHolds => exact .ok () (h.setByte hHolds b)
  next => exact .error _ h

/-- The same bytes are written to both memories. -/
theorem AgreeOn.writeFrom (h : m.AgreeOn keep m') (a : PhysicalAddress) (i : Nat) (bytes : List UInt8) :
    Coincide (fun _ => AgreeOn keep) (AgreeOn keep) (Memory.writeFrom a i bytes m)
      (Memory.writeFrom a i bytes m') := by
  induction bytes generalizing m m' i with
  | nil => exact .ok () h
  | cons b rest ih =>
    rw [Memory.writeFrom]
    refine Coincide.lift_bind h fun q _ => ?_
    exact (h.store q b).bind fun _ _ _ hStored => ih hStored (i + 1)

end Memory

/-- The machines differ in the bytes of free frames and of hidden ones alone. -/
structure Machine.Twins (hidden : Frame → Prop) (s t : Machine) : Prop where
  frames_eq : t.frames = s.frames
  mmu_eq : t.mmu = s.mmu
  log_eq : t.log = s.log
  agree : s.memory.AgreeOn (fun f => f ∈ s.frames.inUse ∧ ¬ hidden f) t.memory

namespace Machine.Twins

variable {α : Type} {hidden hidden' : Frame → Prop} {s t : Machine} {f : Frame} {rest : List Frame}
  {slot : Slot}

theorem refl (hidden : Frame → Prop) (s : Machine) : Twins hidden s s := ⟨rfl, rfl, rfl, .refl _ _⟩

theorem mono (h : Twins hidden s t) (hHidden : ∀ f ∈ s.frames.inUse, hidden f → hidden' f) :
    Twins hidden' s t :=
  ⟨h.frames_eq, h.mmu_eq, h.log_eq,
    h.agree.mono fun f ⟨hUse, hNot⟩ => ⟨hUse, fun hf => hNot (hHidden f hUse hf)⟩⟩

theorem entry (h : Twins hidden s t) (hUse : slot.table ∈ s.frames.inUse) (hNot : ¬ hidden slot.table) :
    t.memory.entry slot = s.memory.entry slot :=
  h.agree.entry ⟨hUse, hNot⟩

theorem holds_eq (h : Twins hidden s t) (f : Frame) : t.memory.holds f = s.memory.holds f :=
  h.agree.holds f

theorem setEntry (h : Twins hidden s t) (hHolds : s.memory.holds slot.table = true) (e : Entry) :
    Twins hidden { s with memory := s.memory.setEntry slot e }
      { t with memory := t.memory.setEntry slot e } := by
  have hAgree := h.agree.setEntry (s := slot) hHolds e
  exact ⟨h.frames_eq, h.mmu_eq, h.log_eq, hAgree⟩

/-- The same table is written on both machines, and what its frame held before is gone. -/
theorem setTable (h : Twins (fun g => hidden g ∨ g = f) s t) (hHolds : s.memory.holds f = true)
    (table : PageTable) :
    Twins hidden { s with memory := s.memory.setTable f table }
      { t with memory := t.memory.setTable f table } := by
  have hOther : s.memory.AgreeOn (fun g => (g ∈ s.frames.inUse ∧ ¬ hidden g) ∧ g ≠ f) t.memory :=
    h.agree.mono fun g ⟨⟨hUse, hNot⟩, hNe⟩ => ⟨hUse, not_or.2 ⟨hNot, hNe⟩⟩
  refine ⟨h.frames_eq, h.mmu_eq, h.log_eq, ?_⟩
  dsimp only
  exact hOther.setTable hHolds table

theorem note (h : Twins hidden s t) (n : Notice) :
    Twins hidden { s with log := n :: s.log } { t with log := n :: t.log } :=
  ⟨h.frames_eq, h.mmu_eq, congrArg (n :: ·) h.log_eq, h.agree⟩

theorem tell (h : Twins hidden s t) (f : Mmu → Mmu) :
    Twins hidden { s with mmu := f s.mmu } { t with mmu := f t.mmu } :=
  ⟨h.frames_eq, congrArg f h.mmu_eq, h.log_eq, h.agree⟩

/-- The allocators change alike, and hand out nothing. -/
theorem onFrames (h : Twins hidden s t) (x : FrameAllocator → FrameAllocator)
    (hUse : ∀ f ∈ (x s.frames).inUse, f ∈ s.frames.inUse) :
    Twins hidden { s with frames := x s.frames } { t with frames := x t.frames } :=
  ⟨congrArg x h.frames_eq, h.mmu_eq, h.log_eq, h.agree.mono fun f ⟨hf, hNot⟩ => ⟨hUse f hf, hNot⟩⟩

/-- The allocators hand out a frame, of which nothing is known yet. -/
theorem serve (h : Twins hidden s t) (hFree : s.frames.free = f :: rest) :
    Twins (fun g => hidden g ∨ g = f) { s with frames := s.frames.serve 1 }
      { t with frames := t.frames.serve 1 } := by
  refine ⟨congrArg (FrameAllocator.serve 1) h.frames_eq, h.mmu_eq, h.log_eq, h.agree.mono ?_⟩
  rintro g ⟨hUse, hNot⟩
  obtain ⟨hNot, hNe⟩ := not_or.1 hNot
  rw [FrameAllocator.mem_inUse_serve, hFree, List.take_succ_cons, List.take_zero,
    List.mem_singleton] at hUse
  exact ⟨hUse.resolve_left hNe, hNot⟩

theorem hang (h : Twins hidden s t) (hFree : s.frames.free = f :: rest)
    (hHolds : s.memory.holds f = true) (hSlot : s.memory.holds slot.table = true) :
    Twins hidden (s.hang slot f) (t.hang slot f) := by
  have hServed := h.serve hFree
  refine ⟨hServed.frames_eq, ?_, ?_, ?_⟩
  · rw [Machine.mmu_hang, Machine.mmu_hang, h.mmu_eq]
  · rw [Machine.log_hang, Machine.log_hang, h.log_eq]
  · rw [Machine.memory_hang, Machine.memory_hang]
    refine Memory.AgreeOn.setEntry (Memory.AgreeOn.setTable (hServed.agree.mono ?_) hHolds .zeroed)
      (by rwa [Memory.holds_setTable]) _
    rintro g ⟨⟨hUse, hNot⟩, hNe⟩
    exact ⟨hUse, not_or.2 ⟨hNot, hNe⟩⟩

/-! ## Steps -/

theorem look_bind {β : Type} {c : Memory → Checked α} {f : α → MachineM β}
    {Q : β → Machine → Machine → Prop} (h : Twins hidden s t) (hSame : c t.memory = c s.memory)
    (hf : ∀ a, c s.memory = .ok a → Coincide Q (Twins hidden) (f a s) (f a t)) :
    Coincide Q (Twins hidden) ((look c >>= f) s) ((look c >>= f) t) :=
  Coincide.query_bind hSame h hf

theorem setEntry_step (h : Twins hidden s t) (hHolds : s.memory.holds slot.table = true) (e : Entry) :
    Coincide (fun _ => Twins hidden) (Twins hidden) (MachineM.setEntry slot e s)
      (MachineM.setEntry slot e t) :=
  .ok () (h.setEntry hHolds e)

theorem giveFrame_step (h : Twins hidden s t) (f : Frame) :
    Coincide (fun _ s' t' => Twins hidden s' t' ∧ s'.memory = s.memory ∧ t'.memory = t.memory)
      (Twins hidden) (giveFrame f s) (giveFrame f t) := by
  by_cases hUse : f ∈ s.frames.inUse
  · rw [giveFrame_of_mem hUse, giveFrame_of_mem (h.frames_eq ▸ hUse)]
    exact .ok () ⟨h.onFrames (.releaseAll [f]) fun g hg => List.diff_subset _ _ hg, rfl, rfl⟩
  · have hRefused : ∀ {m : Machine}, f ∉ m.frames.inUse → giveFrame f m = .error (.notAllocated f) m := by
      intro m hNot
      simp only [giveFrame, MachineM.onFrames, FrameAllocator.release, if_neg hNot]
    rw [hRefused hUse, hRefused (h.frames_eq ▸ hUse)]
    exact .error _ h

/-- Both machines have the same frame to give, or none. -/
theorem takeFrame?_step (h : Twins hidden s t) (hSound : s.frames.Sound s.memory) :
    Coincide (fun o s' t' => Twins (fun g => hidden g ∨ o = some g) s' t' ∧ s'.memory = s.memory ∧
        t'.memory = t.memory ∧ ∀ f, o = some f → f ∈ s.frames.free)
      (Twins hidden) (takeFrame? s) (takeFrame? t) := by
  by_cases hSupply : s.frames.supply = 0
  · have hNone := FrameAllocator.alloc_of_supply_eq_zero hSupply
    have hNone' : t.frames.alloc = (none, t.frames.refuse) := by rw [h.frames_eq, hNone]
    rw [takeFrame?_of_alloc hNone, takeFrame?_of_alloc hNone']
    refine .ok none ⟨(h.onFrames .refuse fun _ hg => hg).mono fun _ _ => Or.inl, rfl, rfl, fun f hf => ?_⟩
    cases hf
  · obtain ⟨f, rest, hFree⟩ := FrameAllocator.exists_free_of_supply (Nat.pos_of_ne_zero hSupply)
    have hMem : f ∈ s.frames.free := hFree ▸ List.mem_cons_self
    have hSome := FrameAllocator.alloc_of_supply_pos hFree (hSound.free_new hMem)
      (Nat.pos_of_ne_zero hSupply)
    have hSome' : t.frames.alloc = (some f, t.frames.serve 1) := by rw [h.frames_eq, hSome]
    rw [takeFrame?_of_alloc hSome, takeFrame?_of_alloc hSome']
    refine .ok (some f) ⟨(h.serve hFree).mono fun g _ hg => hg.imp_right ?_, rfl, rfl, ?_⟩
    · rintro rfl
      rfl
    · rintro g hg
      exact Option.some.inj hg ▸ hMem

theorem onMemory_step (h : Twins hidden s t) {x : Stateful Memory α}
    (hx : ∀ {keep : Frame → Prop}, s.memory.AgreeOn keep t.memory →
      Coincide (fun _ => Memory.AgreeOn keep) (Memory.AgreeOn keep) (x s.memory) (x t.memory)) :
    Coincide (fun _ => Twins hidden) (Twins hidden) (onMemory x s) (onMemory x t) := by
  have hEnd := hx h.agree
  simp only [onMemory]
  generalize x s.memory = p, x t.memory = q at hEnd
  cases hEnd with
  | ok a hState => exact .ok a ⟨h.frames_eq, h.mmu_eq, h.log_eq, hState⟩
  | error v hState => exact .error v ⟨h.frames_eq, h.mmu_eq, h.log_eq, hState⟩

theorem write_step (h : Twins hidden s t) (p : PhysicalAddress) (bytes : List UInt8) :
    Coincide (fun _ => Twins hidden) (Twins hidden) (onMemory (Memory.write p bytes) s)
      (onMemory (Memory.write p bytes) t) :=
  h.onMemory_step fun hAgree => hAgree.writeFrom p 0 bytes

end Machine.Twins

end PagedKernel
