import PagedKernel.Proofs.Plan.Growth
import PagedKernel.Proofs.Plan.Ledger

/-!
# Machines with a plan

A plan describes a machine when memory is built as planned and the plan accounts for all frames that
the caller does not hold. Walks on such a machine have all that they ask for.

* `Plan.Describes`: the plan describes the machine.
* `Describes.bare`: a walk comes to where it stops or starts to make tables.
* `Describes.hang`: one table more.
* `Describes.grow`, `Describes.undone`: the machine is described after the walk, whether it ended well
  or not.
* `Describes.fillLeaf`: it is described when the leaf is written, too.
-/

namespace PagedKernel

/-- The plan describes the machine, with the caller holding the frames `held`. -/
structure Plan.Describes (plan : Plan) (kernel : Frame) (roots held : List Frame) (s : Machine) :
    Prop where
  fits : plan.Fits kernel roots s.memory
  accounts : plan.Accounts held s.memory s.frames

/-- The leaf table after all missing tables were made: the last one, or the one that was there. -/
def Machine.leafTable (m : Machine) (l : Level) (t : Frame) : Frame :=
  (m.frames.free.take l.height).getLastD t

/-- A leaf table that is new has no entries, and one that is not has those that it had. -/
theorem Bare.entry_leafTable {s : Machine} {a : VirtualAddress} {l : Level} {t : Frame} (h : Bare s a l t)
    (hSupply : l.height ≤ s.frames.supply) (j : TableIndex) :
    (s.memory.grow a l t (s.frames.free.take l.height)).entry ⟨s.leafTable l t, j⟩ =
      if l = .pt then s.memory.entry ⟨t, j⟩ else .empty := by
  by_cases hl : l = .pt
  · subst hl
    rw [if_pos rfl]
    rfl
  · obtain ⟨below, hNext⟩ := Level.exists_next? hl
    have hHeight := Level.height_of_next? hNext
    have hLength := s.frames.supply_le_length
    obtain ⟨f, rest, hFree⟩ := FrameAllocator.exists_free_of_supply (a := s.frames) (by omega)
    have hTake : s.frames.free.take l.height = f :: rest.take below.height := by
      rw [hFree, hHeight, List.take_succ_cons]
    have hHolds : ∀ g ∈ s.frames.free.take l.height, s.memory.holds g = true :=
      fun g hg => h.free_holds g (List.mem_of_mem_take hg)
    have hNodup := h.free_nodup.sublist (List.take_sublist l.height s.frames.free)
    have hNew : t ∉ s.frames.free.take l.height := fun hMem => h.table_not_free (List.mem_of_mem_take hMem)
    rw [if_neg hl, Machine.leafTable, hTake, List.getLastD_cons]
    rw [hTake] at hHolds hNodup hNew
    refine Memory.entry_grow_last hNext h.holds hHolds (List.nodup_cons.2 ⟨hNew, hNodup⟩) ?_ j
    rw [hFree, List.length_cons] at hLength
    rw [List.length_take]
    omega

/-- After a walk has made tables, a leaf table was there before and has kept its entries, or it is new and
has none. -/
theorem Bare.entry_leaf_grow {plan : Plan} {s : Machine} {a : VirtualAddress} {l : Level} {r r' t u : Frame}
    {path : List TableIndex} (h : Bare s a l t) (ht : plan t = some ⟨r, a.pathTo l⟩)
    (hNew : ∀ g ∈ s.frames.free, plan g = none) (hSupply : l.height ≤ s.frames.supply)
    (hInj : ∀ {f g x}, plan.grow r a l (s.frames.free.take l.height) f = some x →
      plan.grow r a l (s.frames.free.take l.height) g = some x → f = g)
    (hu : plan.grow r a l (s.frames.free.take l.height) u = some ⟨r', path⟩) (hLength : path.length = 3)
    (i : TableIndex) :
    plan u = some ⟨r', path⟩ ∧ (s.grow a l t).memory.entry ⟨u, i⟩ = s.memory.entry ⟨u, i⟩ ∨
      plan u = none ∧ (s.grow a l t).memory.entry ⟨u, i⟩ = .empty := by
  have hEntry := h.entry_leafTable hSupply i
  have hNodup := h.free_nodup.sublist (List.take_sublist l.height s.frames.free)
  have hTaken : ∀ g ∈ s.frames.free.take l.height, plan g = none :=
    fun g hg => hNew g (List.mem_of_mem_take hg)
  have hSame : ∀ {level : Level}, (a.pathTo level).length = 3 → level = .pt := fun hThree =>
    Level.depth_inj (by rw [← VirtualAddress.length_pathTo, hThree]; rfl)
  rcases Plan.grow_eq_some hNodup hTaken hu with hOld | ⟨hMem, l', hBelow, hPlace⟩
  · refine Or.inl ⟨hOld, ?_⟩
    by_cases hTable : u = t
    · subst hTable
      rw [ht] at hOld
      obtain rfl := hSame ((Place.mk.inj (Option.some.inj hOld)).2 ▸ hLength)
      rwa [if_pos rfl] at hEntry
    · have hAgree : s.memory.AgreeOn _ (s.memory.grow a l t (s.frames.free.take l.height)) :=
        Memory.agreeOn_grow h.holds fun g hg => h.free_holds g (List.mem_of_mem_take hg)
      refine hAgree.entry ⟨hTable, fun hMem => ?_⟩
      rw [hTaken u hMem] at hOld
      cases hOld
  · refine Or.inr ⟨hTaken u hMem, ?_⟩
    obtain ⟨rfl, rfl⟩ := Place.mk.inj hPlace
    obtain rfl := hSame hLength
    have hFull : (s.frames.free.take l.height).length = l.height := by
      have hEnough := s.frames.supply_le_length
      rw [List.length_take]
      omega
    obtain rfl := hInj hu (Plan.grow_leaf hNodup hTaken ht hFull)
    have hInner : l ≠ .pt := by
      rintro rfl
      exact absurd hBelow (Nat.lt_irrefl _)
    rw [if_neg hInner] at hEntry
    exact hEntry

namespace Plan.Describes

variable {plan : Plan} {kernel r t f : Frame} {roots held : List Frame} {s s' : Machine}
  {a : VirtualAddress} {l level : Level}

theorem bare_of_empty (h : plan.Describes kernel roots held s) (ht : plan t = some ⟨r, a.pathTo l⟩)
    (hEmpty : l ≠ .pt → s.memory.entry ⟨t, l.indexOf a⟩ = .empty) : Bare s a l t := by
  have hSound := h.accounts.sound
  exact ⟨h.fits.holds ht, hEmpty, h.fits.frames_le, fun _ => hSound.free_holds,
    hSound.free_nodup, fun _ => hSound.free_new, h.accounts.notMem_free ht⟩

theorem bare (h : plan.Describes kernel roots held s) (hHalf : OwnHalf kernel r a)
    (hRoot : plan r = some ⟨r, []⟩) :
    ∃ l t, s.memory.Descends a .pml4 r l t ∧ plan t = some ⟨r, a.pathTo l⟩ ∧ Bare s a l t := by
  obtain ⟨l, t, hDescends, ht, hStop⟩ := h.fits.descends hHalf .pml4 hRoot
  exact ⟨l, t, hDescends, ht, h.bare_of_empty ht hStop⟩

/-- What is written to frames that are not in the trees does not count. -/
theorem of_agreeOn (h : plan.Describes kernel roots held s)
    {keep : Frame → Prop} (hAgree : s.memory.AgreeOn keep s'.memory)
    (hKeep : ∀ {t r path}, plan t = some ⟨r, path⟩ → path.length < 4 → keep t)
    (hFree : s'.frames.free = s.frames.free) (hUse : s'.frames.inUse = s.frames.inUse) :
    plan.Describes kernel roots held s' where
  fits := h.fits.of_entries hAgree.frames_eq fun ht hLength _ => hAgree.entry (hKeep ht hLength)
  accounts := h.accounts.congr hFree hUse hAgree.frames_eq

theorem withFrames (h : plan.Describes kernel roots held s) {frames : FrameAllocator}
    (hFree : frames.free = s.frames.free) (hUse : frames.inUse = s.frames.inUse) :
    plan.Describes kernel roots held { s with frames } :=
  ⟨h.fits, h.accounts.congr hFree hUse rfl⟩

theorem take (h : plan.Describes kernel roots held s) {rest : List Frame}
    (hFree : s.frames.free = f :: rest) (hMemory : s'.memory = s.memory)
    (hFrames : s'.frames = s.frames.serve 1) : plan.Describes kernel roots (f :: held) s' := by
  refine ⟨?_, ?_⟩
  · rw [hMemory]
    exact h.fits
  · rw [hMemory, hFrames]
    exact h.accounts.take hFree

theorem undone (h : plan.Describes kernel roots held s) (hUndone : Undone s s' level a) :
    plan.Describes kernel roots held s' := by
  refine h.of_agreeOn hUndone.agree (fun ht _ hMem => ?_) hUndone.free_eq hUndone.inUse_eq
  exact h.accounts.notMem_free ht (List.mem_of_mem_take hMem)

theorem take_new (h : plan.Describes kernel roots held s) (n : Nat) :
    ∀ g ∈ s.frames.free.take n, plan g = none :=
  fun _ hg => h.accounts.new_of_free (List.mem_of_mem_take hg)

theorem take_holds (h : plan.Describes kernel roots held s) (n : Nat) :
    ∀ g ∈ s.frames.free.take n, s.memory.holds g = true :=
  fun _ hg => h.accounts.sound.free_holds (List.mem_of_mem_take hg)

theorem take_nodup (h : plan.Describes kernel roots held s) (n : Nat) :
    (s.frames.free.take n).Nodup :=
  h.accounts.sound.free_nodup.sublist (List.take_sublist n s.frames.free)

/-- One table is hung. -/
theorem hang (h : plan.Describes kernel roots held s) {rest : List Frame} {i : TableIndex}
    {path : List TableIndex} (ht : plan t = some ⟨r, path⟩) (hLength : path.length < 3)
    (hBranch : Branches kernel r path i) (hr : r ∈ roots) (hFree : s.frames.free = f :: rest)
    (hEmpty : s.memory.entry ⟨t, i⟩ = .empty) :
    (plan.put f ⟨r, i :: path⟩).Describes kernel roots held (s.hang ⟨t, i⟩ f) := by
  have hMem : f ∈ s.frames.free := hFree ▸ List.mem_cons_self
  refine ⟨?_, ?_⟩
  · exact h.fits.hang ht hLength hBranch (fun hEq => absurd hEq (h.fits.ne_kernel hr))
      (h.accounts.new_of_free hMem) (h.accounts.sound.free_holds hMem) hEmpty
  · refine (h.accounts.serve _ 1 fun g => ?_).congr rfl rfl (Memory.frames_hang ..)
    rw [isSome_put, hFree, List.take_succ_cons, List.take_zero, List.mem_singleton]

theorem grow (h : plan.Describes kernel roots held s) (hHalf : OwnHalf kernel r a)
    (hKernel : r = kernel → roots = []) (ht : plan t = some ⟨r, a.pathTo l⟩) (hBare : Bare s a l t) :
    (plan.grow r a l (s.frames.free.take l.height)).Describes kernel roots held (s.grow a l t) where
  fits := h.fits.grow hHalf hKernel ht hBare.entry_eq (h.take_nodup _) (h.take_new _) (h.take_holds _)
  accounts := by
    have hServed := h.accounts.serve (plan.grow r a l (s.frames.free.take l.height))
      l.height fun g => isSome_grow (List.length_take_le _ _)
    exact hServed.congr rfl rfl (Memory.frames_grow s.memory)

/-- The plan after a frame was hung at an address by a walk that had to make tables. -/
def mappedPlan (plan : Plan) (s : Machine) (r : Frame) (a : VirtualAddress) (frame : Frame)
    (l : Level) : Plan :=
  (plan.grow r a l (s.frames.free.take l.height)).put frame ⟨r, a.path⟩

theorem grow_leafTable (h : plan.Describes kernel roots held s)
    (ht : plan t = some ⟨r, a.pathTo l⟩) (hSupply : l.height ≤ s.frames.supply) :
    plan.grow r a l (s.frames.free.take l.height) (s.leafTable l t) =
      some ⟨r, a.pathTo .pt⟩ := by
  have hFull : (s.frames.free.take l.height).length = l.height := by
    have hLength := s.frames.supply_le_length
    rw [List.length_take]
    omega
  exact grow_leaf (h.take_nodup _) (h.take_new _) ht hFull

/-- A frame of the caller is hung at an address, below the tables that were made for it. -/
theorem fillLeaf (h : plan.Describes kernel roots held s) (hHalf : OwnHalf kernel r a)
    (hKernel : r = kernel → roots = []) (ht : plan t = some ⟨r, a.pathTo l⟩) (hBare : Bare s a l t)
    (hSupply : l.height ≤ s.frames.supply)
    (hAbsent : l = .pt → (s.memory.entry ⟨t, Level.pt.indexOf a⟩).present = false)
    (hHeld : f ∈ held) {e : Entry} (hTarget : e.target = .ok (some f))
    (hMemory : s'.memory = (s.memory.grow a l t (s.frames.free.take l.height)).setEntry
      ⟨s.leafTable l t, Level.pt.indexOf a⟩ e)
    (hFrames : s'.frames = s.frames.serve l.height) :
    (mappedPlan plan s r a f l).Describes kernel roots (held.erase f) s' := by
  have hGrown := h.grow hHalf hKernel ht hBare
  have hTable := h.grow_leafTable ht hSupply
  refine ⟨?_, ?_⟩
  · rw [hMemory]
    refine hGrown.fits.fill hTable (by simp [Level.depth]) (branches_of_length rfl) hKernel
      (hGrown.accounts.held_new hHeld) (hGrown.accounts.holds_of_held hHeld) ?_ hTarget (fun hLt => ?_)
    · rw [Machine.grow, hBare.entry_leafTable hSupply, Entry.target_eq_none]
      split
      next hl => exact hAbsent hl
      next => exact Entry.present_empty
    · simp [Level.depth] at hLt
  · refine (hGrown.accounts.giveUp hHeld _).congr (by rw [hFrames]; rfl) (by rw [hFrames]; rfl) ?_
    rw [hMemory, Memory.frames_setEntry]
    rfl

end Plan.Describes

end PagedKernel
