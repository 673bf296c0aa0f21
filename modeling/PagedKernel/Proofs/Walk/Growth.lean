import PagedKernel.Proofs.Walk.Descent

/-!
# Tables made on the way

Below an entry that is empty a walk has no table left to find: it makes all that are missing, one
frame for each, down to the leaf table. Either the supply lasts, or all that was made is undone.

* `Memory.hang`, `Memory.grow`: memory after one table, or all of them, were made.
* `Bare`: where the growth starts.
* `lookupCreatingFrom_grown`: the supply lasts, and the leaf table is the last frame taken.
* `lookupCreatingFrom_undone`: it does not, and only frames that were free, and are free again,
  hold other bytes than before.
-/

namespace PagedKernel

/-- Memory after a fresh table in the frame `f` was linked from `slot`. -/
def Memory.hang (m : Memory) (slot : Slot) (f : Frame) : Memory :=
  (m.setTable f .zeroed).setEntry slot (Entry.compose true .user f)

/-- Memory after fresh tables in the frames `fs` were linked below `table`, on the way of `a`. -/
def Memory.grow (a : VirtualAddress) : Level → Frame → List Frame → Memory → Memory
  | _, _, [], m => m
  | level, table, f :: fs, m =>
    match level.next? with
    | some below => grow a below f fs (m.hang ⟨table, level.indexOf a⟩ f)
    | none => m

/-- Nothing hangs below `table` on the way of `a`, and the allocator has frames to hang there. -/
structure Bare (s : Machine) (a : VirtualAddress) (level : Level) (table : Frame) : Prop where
  holds : s.memory.holds table = true
  entry_eq : level ≠ .pt → s.memory.entry ⟨table, level.indexOf a⟩ = .empty
  frames_le : s.memory.frames ≤ 2 ^ 40
  free_holds : ∀ f ∈ s.frames.free, s.memory.holds f = true
  free_nodup : s.frames.free.Nodup
  free_new : ∀ f ∈ s.frames.free, f ∉ s.frames.inUse
  table_not_free : table ∉ s.frames.free

namespace Memory

variable {m : Memory} {slot : Slot} {f : Frame}

@[simp] theorem frames_hang (m : Memory) (slot : Slot) (f : Frame) :
    (m.hang slot f).frames = m.frames := by
  simp [hang]

@[simp] theorem holds_hang (m : Memory) (slot : Slot) (f g : Frame) :
    (m.hang slot f).holds g = m.holds g := by
  simp [hang]

theorem entry_hang (slot : Slot) (hSlot : m.holds slot.table = true) (hHolds : m.holds f = true)
    (t : Slot) :
    (m.hang slot f).entry t =
      if t = slot then Entry.compose true .user f
      else if t.table = f then .empty else m.entry t := by
  rw [hang, entry_setEntry (by simpa using hSlot), entry_setTable hHolds]
  simp

theorem number_lt_of_holds (hFrames : m.frames ≤ 2 ^ 40) (hHolds : m.holds f = true) :
    f.number.toNat < 2 ^ 40 := by
  have hLt : f.number.toNat < m.frames := by simpa [holds] using hHolds
  omega

/-- A table that is cut off again leaves its trace in its own frame alone. -/
theorem agreeOn_hang_cut (slot : Slot) (hSlot : m.holds slot.table = true) (hHolds : m.holds f = true)
    (hNe : slot.table ≠ f) (hEmpty : m.entry slot = .empty) :
    AgreeOn (· ≠ f) m ((m.hang slot f).setEntry slot .empty) := by
  have hOld : (m.setTable f .zeroed).entry slot = .empty := by
    rw [entry_setTable hHolds, if_neg hNe, hEmpty]
  rw [hang, ← hOld, setEntry_setEntry_self (by simpa using hSlot)]
  exact agreeOn_setTable hHolds .zeroed

end Memory

open MachineM

variable {a : VirtualAddress} {level below : Level} {table f : Frame} {rest : List Frame}
  {s : Machine}

def Machine.hang (s : Machine) (slot : Slot) (f : Frame) : Machine :=
  { s with memory := s.memory.hang slot f, frames := s.frames.serve 1 }

def Machine.grow (s : Machine) (a : VirtualAddress) (level : Level) (table : Frame) : Machine :=
  { s with
    memory := s.memory.grow a level table (s.frames.free.take level.height)
    frames := s.frames.serve level.height }

namespace Machine

@[simp] theorem memory_hang (s : Machine) (slot : Slot) (f : Frame) :
    (s.hang slot f).memory = s.memory.hang slot f := rfl

@[simp] theorem frames_hang (s : Machine) (slot : Slot) (f : Frame) :
    (s.hang slot f).frames = s.frames.serve 1 := rfl

@[simp] theorem mmu_hang (s : Machine) (slot : Slot) (f : Frame) :
    (s.hang slot f).mmu = s.mmu := by
  cases s
  rfl

@[simp] theorem log_hang (s : Machine) (slot : Slot) (f : Frame) :
    (s.hang slot f).log = s.log := by
  cases s
  rfl

theorem free_hang {s : Machine} (slot : Slot) (hFree : s.frames.free = f :: rest) :
    (s.hang slot f).frames.free = rest := by
  simp [FrameAllocator.serve, hFree]

theorem grow_hang {s : Machine} (hNext : level.next? = some below)
    (hFree : s.frames.free = f :: rest) :
    (s.hang ⟨table, level.indexOf a⟩ f).grow a below f = s.grow a level table := by
  have hRest := free_hang ⟨table, level.indexOf a⟩ hFree
  have hMemory : s.memory.grow a level table (s.frames.free.take level.height) =
      (s.memory.hang ⟨table, level.indexOf a⟩ f).grow a below f (rest.take below.height) := by
    rw [hFree, Level.height_of_next? hNext, List.take_succ_cons, Memory.grow, hNext]
  have hFrames : (s.frames.serve 1).serve below.height = s.frames.serve level.height := by
    rw [FrameAllocator.serve_serve, Level.height_of_next? hNext, Nat.add_comm]
  rw [grow, grow, hRest, hMemory, memory_hang, frames_hang, hFrames]
  cases s
  rfl

end Machine

theorem Bare.hang (h : Bare s a level table) (below : Level) (hFree : s.frames.free = f :: rest) :
    Bare (s.hang ⟨table, level.indexOf a⟩ f) a below f := by
  have hNodup := h.free_nodup
  have hNew := h.free_new
  have hHolds := h.free_holds
  have hTable := h.table_not_free
  rw [hFree] at hNodup hNew hHolds hTable
  obtain ⟨hNotMem, hRest⟩ := List.nodup_cons.1 hNodup
  have hRestFree := Machine.free_hang ⟨table, level.indexOf a⟩ hFree
  have hUsed : (s.hang ⟨table, level.indexOf a⟩ f).frames.inUse = f :: s.frames.inUse := by
    simp [FrameAllocator.serve, hFree]
  refine ⟨?_, ?_, ?_, ?_, ?_, ?_, ?_⟩
  · simpa using hHolds f List.mem_cons_self
  · intro _
    have hNe : (⟨f, below.indexOf a⟩ : Slot) ≠ ⟨table, level.indexOf a⟩ := by
      intro hEq
      obtain rfl : f = table := congrArg Slot.table hEq
      exact hTable List.mem_cons_self
    have hFirst := hHolds f List.mem_cons_self
    rw [Machine.memory_hang, Memory.entry_hang ⟨table, level.indexOf a⟩ h.holds hFirst, if_neg hNe,
      if_pos rfl]
  · simpa using h.frames_le
  · rw [hRestFree]
    intro g hg
    simpa using hHolds g (List.mem_cons_of_mem f hg)
  · rwa [hRestFree]
  · rw [hRestFree, hUsed]
    intro g hg hUse
    rcases List.mem_cons.1 hUse with rfl | hUse
    · exact hNotMem hg
    · exact hNew g (List.mem_cons_of_mem f hg) hUse
  · rwa [hRestFree]

/-- What a walk that made a table does with the outcome below: it keeps the table, or it cuts it
off and gives the frame back. -/
def keepOrCut (slot : Slot) (f : Frame) : Except WalkError Slot → MachineM (Except WalkError Slot)
  | .ok leaf => return .ok leaf
  | .error e => do
    setEntry slot .empty
    giveFrame f
    return .error e

theorem keepOrCut_ok (slot : Slot) (f : Frame) (leaf : Slot) :
    keepOrCut slot f (.ok leaf) s = .ok (.ok leaf) s := rfl

theorem lookupCreatingFrom_hang (h : Bare s a level table) (hNext : level.next? = some below)
    (hSupply : 0 < s.frames.supply) (hFree : s.frames.free = f :: rest) :
    lookupCreatingFrom a level table s =
      (lookupCreatingFrom a below f >>= keepOrCut ⟨table, level.indexOf a⟩ f)
        (s.hang ⟨table, level.indexOf a⟩ f) := by
  have hMem : f ∈ s.frames.free := hFree ▸ List.mem_cons_self
  have hHolds := h.free_holds f hMem
  have hLevel := Level.ne_pt_of_next? hNext
  have hTarget : (s.memory.entry ⟨table, level.indexOf a⟩).target = .ok none := by
    rw [h.entry_eq hLevel, Entry.target_empty]
  have hAlloc := takeFrame?_of_alloc
    (FrameAllocator.alloc_of_supply_pos hFree (h.free_new f hMem) hSupply)
  have hWrite := writeTable_of_holds (s := { s with frames := s.frames.serve 1 }) hHolds .zeroed
  have hLink := Entry.link_eq (Memory.number_lt_of_holds h.frames_le hHolds)
  rw [lookupCreatingFrom, Stateful.bind_ok (look_ok (Memory.requireTable_of_holds h.holds))]
  cases level <;> cases hNext <;>
    simp only [Level.next?, Stateful.bind_ok (look_target hTarget), Stateful.bind_ok hAlloc,
      Stateful.bind_ok hWrite, Stateful.bind_ok (Stateful.lift_ok hLink),
      Stateful.bind_ok (setEntry_apply _ _)] <;> rfl

theorem lookupCreatingFrom_grown (h : Bare s a level table)
    (hSupply : level.height ≤ s.frames.supply) :
    lookupCreatingFrom a level table s =
      .ok (.ok ⟨(s.frames.free.take level.height).getLastD table, Level.pt.indexOf a⟩)
        (s.grow a level table) := by
  induction level using Level.descent generalizing s table with
  | leaf =>
    rw [lookupCreatingFrom_pt h.holds]
    simp [Machine.grow, Level.height, Memory.grow, FrameAllocator.serve_zero]
  | inner level below hNext ih =>
    rw [Level.height_of_next? hNext] at hSupply
    have hPos : 0 < s.frames.supply := by omega
    obtain ⟨f, rest, hFree⟩ := FrameAllocator.exists_free_of_supply hPos
    have hBelow := h.hang below hFree
    have hRest := Machine.free_hang ⟨table, level.indexOf a⟩ hFree
    have hLeft : below.height ≤ (s.hang ⟨table, level.indexOf a⟩ f).frames.supply := by
      rw [Machine.frames_hang, FrameAllocator.supply_serve]
      omega
    rw [lookupCreatingFrom_hang h hNext hPos hFree, Stateful.bind_ok (ih hBelow hLeft), hRest,
      Machine.grow_hang hNext hFree, keepOrCut_ok, Level.height_of_next? hNext, hFree,
      List.take_succ_cons, List.getLastD_cons]

theorem keepOrCut_error {slot : Slot} (hUse : f ∈ s.frames.inUse) (e : WalkError) :
    keepOrCut slot f (.error e) s =
      .ok (.error e) { s with
        memory := s.memory.setEntry slot .empty
        frames := s.frames.releaseAll [f] } := by
  have hBack := giveFrame_of_mem (s := { s with memory := s.memory.setEntry slot .empty }) hUse
  rw [keepOrCut, Stateful.bind_ok (setEntry_apply slot .empty), Stateful.bind_ok hBack]
  rfl

/-- What is left of a walk that ran out of frames: the allocator has all its frames, and memory
holds other bytes than before in frames that are free alone. -/
structure Undone (s s' : Machine) (level : Level) (a : VirtualAddress) : Prop where
  free_eq : s'.frames.free = s.frames.free
  inUse_eq : s'.frames.inUse = s.frames.inUse
  agree : s.memory.AgreeOn (· ∉ s.frames.free.take s.frames.supply) s'.memory
  mmu_eq : s'.mmu = s.mmu
  log_eq : s'.log = .tableRefused level a :: s.log

/-- A level that cuts off its table takes back all that the levels below did not. -/
theorem Bare.undone_hang (h : Bare s a level table) (hFree : s.frames.free = f :: rest)
    (hSupply : s.frames.supply ≠ 0) {s' : Machine} {l : Level}
    (hUndone : Undone (s.hang ⟨table, level.indexOf a⟩ f) s' l a) (hLevel : level ≠ .pt) :
    Undone s { s' with
      memory := s'.memory.setEntry ⟨table, level.indexOf a⟩ .empty
      frames := s'.frames.releaseAll [f] } l a := by
  have hRest := Machine.free_hang ⟨table, level.indexOf a⟩ hFree
  have hMem : f ∈ s.frames.free := hFree ▸ List.mem_cons_self
  have hNe : table ≠ f := by
    rintro rfl
    exact h.table_not_free hMem
  have hTaken : ∀ g, g ∉ s.frames.free.take s.frames.supply →
      g ∉ rest.take (s.frames.supply - 1) ∧ g ≠ f := by
    obtain ⟨n, hn⟩ := Nat.exists_eq_succ_of_ne_zero hSupply
    intro g hg
    rw [hFree, hn, List.take_succ_cons, List.mem_cons, not_or] at hg
    rw [hn]
    exact ⟨hg.2, hg.1⟩
  have hAgree : (s.memory.hang ⟨table, level.indexOf a⟩ f).AgreeOn
      (· ∉ rest.take (s.frames.supply - 1)) s'.memory := by
    have hAgree := hUndone.agree
    rwa [hRest, Machine.frames_hang, FrameAllocator.supply_serve, Machine.memory_hang] at hAgree
  have hCut := Memory.agreeOn_hang_cut ⟨table, level.indexOf a⟩ h.holds
    (h.free_holds f hMem) hNe (h.entry_eq hLevel)
  refine ⟨?_, ?_, ?_, ?_, ?_⟩
  · rw [hFree, ← hRest, ← hUndone.free_eq]
    rfl
  · have hUse : s'.frames.inUse = f :: s.frames.inUse := by
      rw [hUndone.inUse_eq]
      simp [FrameAllocator.serve, hFree]
    simp [FrameAllocator.releaseAll, hUse, List.diff_cons]
  · -- This level touches `f` and its own entry, and the entry is empty again.
    refine (hCut.mono fun g hg => (hTaken g hg).2).trans ?_
    exact (hAgree.mono fun g hg => (hTaken g hg).1).setEntry (by simpa using h.holds) .empty
  · exact hUndone.mmu_eq.trans (Machine.mmu_hang ..)
  · exact hUndone.log_eq.trans (congrArg _ (Machine.log_hang ..))

theorem lookupCreatingFrom_undone (h : Bare s a level table)
    (hSupply : s.frames.supply < level.height) :
    ∃ l s', lookupCreatingFrom a level table s = .ok (.error (.outOfMemory l)) s' ∧
      l.depth = level.depth + s.frames.supply + 1 ∧ Undone s s' l a := by
  induction level using Level.descent generalizing s table with
  | leaf => exact absurd hSupply (Nat.not_lt_zero _)
  | inner level below hNext ih =>
    have hLevel := Level.ne_pt_of_next? hNext
    by_cases hNone : s.frames.supply = 0
    · have hTarget : (s.memory.entry ⟨table, level.indexOf a⟩).target = .ok none := by
        rw [h.entry_eq hLevel, Entry.target_empty]
      refine ⟨below, _, lookupCreatingFrom_refused hNext h.holds hTarget hNone, ?_, ?_⟩
      · rw [hNone, Level.depth_of_next? hNext]
      · exact ⟨rfl, rfl, Memory.AgreeOn.refl _ _, rfl, rfl⟩
    · have hPos := Nat.pos_of_ne_zero hNone
      obtain ⟨f, rest, hFree⟩ := FrameAllocator.exists_free_of_supply hPos
      have hRest := Machine.free_hang ⟨table, level.indexOf a⟩ hFree
      have hLeft : (s.hang ⟨table, level.indexOf a⟩ f).frames.supply = s.frames.supply - 1 := by
        rw [Machine.frames_hang, FrameAllocator.supply_serve]
      have hHeight := Level.height_of_next? hNext
      obtain ⟨l, s', hRun, hDepth, hUndone⟩ := ih (h.hang below hFree) (by omega)
      -- The levels below have given back what they took, so `f` is the last frame that is taken.
      have hUse : f ∈ s'.frames.inUse := by
        rw [hUndone.inUse_eq]
        simp [FrameAllocator.serve, hFree]
      refine ⟨l, _, ?_, ?_, h.undone_hang hFree hNone hUndone hLevel⟩
      · rw [lookupCreatingFrom_hang h hNext hPos hFree, Stateful.bind_ok hRun,
          keepOrCut_error hUse]
      · rw [hDepth, hLeft, Level.depth_of_next? hNext]
        omega

end PagedKernel
