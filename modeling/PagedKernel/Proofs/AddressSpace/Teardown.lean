import PagedKernel.AddressSpace.Release
import PagedKernel.Proofs.Plan.Described
import PagedKernel.Proofs.Plan.Reach

/-!
# Destroying a space

Destroying a space gives back the frames of its tree, each table after what hangs below it. Memory
stays as it is, so the tree is still there to be read while its frames are on the free list already.

* `Memory.treeFrames`, `Memory.spaceFrames`: the frames in the order in which they are given back.
* `Gives`: a computation gives back these frames and counts them.
* `Plan.Fits.gives_tree`, `Plan.Fits.gives_space`: what freeing a tree, and a space, gives back.
* `Plan.Lists`: a list has the frames of a subtree of the plan, each of them once.
* `Plan.Fits.lists_space`: all that hangs below the root is given back, and nothing else.
* `Plan.Describes.destroyed`: the plan after a space was destroyed.
-/

namespace PagedKernel

open MachineM

/-! ## The frames -/

namespace Memory

/-- What `g` lists for the frame that the entry at a slot points at. -/
def behindEntry (m : Memory) (slot : Slot) (g : Frame → List Frame) : List Frame :=
  match (m.entry slot).target with
  | .ok (some next) => g next
  | _ => []

def under (m : Memory) (table : Frame) (slots : List TableIndex) (g : Frame → List Frame) :
    List Frame :=
  slots.flatMap fun i => m.behindEntry ⟨table, i⟩ g

/-- The frames of a table at `level` and of all that hangs below it, the table last. -/
def treeFrames (m : Memory) (level : Level) (table : Frame) : List Frame :=
  m.under table TableIndex.all (fun next =>
    match _h : level.next? with
    | some below => m.treeFrames below next
    | none => [next]) ++ [table]
termination_by level.height
decreasing_by exact Level.height_lt_of_next? (by assumption)

def spaceFrames (m : Memory) (root : Frame) : List Frame :=
  m.under root TableIndex.userHalf (m.treeFrames .pdpt) ++ [root]

variable {m : Memory} {g : Frame → List Frame}

theorem treeFrames_pt (m : Memory) (table : Frame) :
    m.treeFrames .pt table = m.under table TableIndex.all (fun page => [page]) ++ [table] := by
  rw [treeFrames.eq_def]
  simp only [Level.next?]

theorem treeFrames_next {level below : Level} (hNext : level.next? = some below) (m : Memory)
    (table : Frame) :
    m.treeFrames level table = m.under table TableIndex.all (m.treeFrames below) ++ [table] := by
  rw [treeFrames.eq_def]
  cases level <;> cases hNext <;> simp only [Level.next?]

theorem mem_behindEntry {slot : Slot} {f : Frame} :
    f ∈ m.behindEntry slot g ↔ ∃ next, (m.entry slot).target = .ok (some next) ∧ f ∈ g next := by
  rw [behindEntry]
  split
  next next hTarget => simp [hTarget]
  next hOther =>
    refine ⟨fun hf => absurd hf List.not_mem_nil, ?_⟩
    rintro ⟨next, hTarget, -⟩
    exact absurd hTarget (hOther next)

theorem nodup_behindEntry {slot : Slot}
    (h : ∀ next, (m.entry slot).target = .ok (some next) → (g next).Nodup) :
    (m.behindEntry slot g).Nodup := by
  rw [behindEntry]
  split
  next next hTarget => exact h next hTarget
  next => exact List.nodup_nil

end Memory

/-! ## Giving back -/

def Machine.released (s : Machine) (fs : List Frame) : Machine :=
  { s with frames := s.frames.releaseAll fs }

namespace Machine

theorem released_append (s : Machine) (fs gs : List Frame) :
    s.released (fs ++ gs) = (s.released fs).released gs := by
  simp only [released, FrameAllocator.releaseAll_append]

theorem mem_inUse_released {s : Machine} {fs : List Frame} {f : Frame} (hUse : f ∈ s.frames.inUse)
    (hNew : f ∉ fs) : f ∈ (s.released fs).frames.inUse :=
  List.mem_diff_of_mem hUse hNew

end Machine

/-- The computation gives back these frames, in order, and counts them, if all of them are in use. -/
def Gives (m : Memory) (x : MachineM Nat) (fs : List Frame) : Prop :=
  ∀ s : Machine, s.memory = m → fs.Nodup → (∀ f ∈ fs, f ∈ s.frames.inUse) →
    x s = .ok fs.length (s.released fs)

namespace Gives

variable {m : Memory} {x : MachineM Nat} {fs gs : List Frame} {f : Frame}

theorem none : Gives m (return 0) [] := fun _ _ _ _ => rfl

theorem giveFrame_one : Gives m (do giveFrame f; return 1) [f] := by
  intro s _ _ hUse
  rw [Stateful.bind_ok (giveFrame_of_mem (hUse f (List.mem_singleton_self f)))]
  rfl

theorem append {y : MachineM Nat} (hx : Gives m x fs) (hy : Gives m y gs) :
    Gives m (do let n ← x; return n + (← y)) (fs ++ gs) := by
  intro s hs hNodup hUse
  obtain ⟨hFs, hGs, hDisjoint⟩ := List.nodup_append'.1 hNodup
  have hFirst := hx s hs hFs fun f hf => hUse f (List.mem_append_left gs hf)
  have hSecond := hy (s.released fs) hs hGs fun f hf =>
    Machine.mem_inUse_released (hUse f (List.mem_append_right fs hf)) fun hMem => hDisjoint hMem hf
  rw [Stateful.bind_ok hFirst, Stateful.bind_ok hSecond, ← Machine.released_append, List.length_append]
  rfl

theorem sumOver {f : TableIndex → MachineM Nat} {g : TableIndex → List Frame} {is : List TableIndex}
    (h : ∀ i ∈ is, Gives m (f i) (g i)) : Gives m (AddressSpace.sumOver f is) (is.flatMap g) := by
  induction is with
  | nil => exact none
  | cons i is ih =>
    rw [List.flatMap_cons]
    exact (h i List.mem_cons_self).append (ih fun j hj => h j (List.mem_cons_of_mem i hj))

theorem under {table : Frame} {slots : List TableIndex} {x : Frame → MachineM Nat}
    {g : Frame → List Frame}
    (hTarget : ∀ i ∈ slots, ∃ o, (m.entry ⟨table, i⟩).target = .ok o ∧
      ∀ next, o = some next → Gives m (x next) (g next)) :
    Gives m (AddressSpace.sumOver (fun i => do
      match ← AddressSpace.targetAt ⟨table, i⟩ with
      | some next => x next
      | Option.none => return 0) slots) (m.under table slots g) := by
  refine sumOver fun i hi => ?_
  obtain ⟨o, ho, hNext⟩ := hTarget i hi
  rw [Memory.behindEntry, ho]
  intro s hs hNodup hUse
  subst hs
  rw [AddressSpace.targetAt, Stateful.bind_ok (look_target ho)]
  cases o with
  | none => rfl
  | some next => exact hNext next rfl s rfl hNodup hUse

/-- A table is given back after all that hangs below it. -/
theorem table {table : Frame} (hx : Gives m x fs) (hHolds : m.holds table = true) :
    Gives m (do
      look (·.requireTable table)
      let released ← x
      giveFrame table
      return released + 1) (fs ++ [table]) := by
  intro s hs hNodup hUse
  subst hs
  obtain ⟨hFs, -, hDisjoint⟩ := List.nodup_append'.1 hNodup
  have hBelow := hx s rfl hFs fun f hf => hUse f (List.mem_append_left [table] hf)
  have hStill := Machine.mem_inUse_released (hUse table (by simp)) fun hMem =>
    hDisjoint hMem (List.mem_singleton_self table)
  rw [Stateful.bind_ok (look_ok (f := (·.requireTable table)) (Memory.requireTable_of_holds hHolds)),
    Stateful.bind_ok hBelow, Stateful.bind_ok (giveFrame_of_mem hStill), List.length_append,
    Machine.released_append]
  rfl

end Gives

/-! ## The frames of a subtree -/

namespace Plan

/-- The list has the frames at and below a place, each of them once. -/
def Lists (plan : Plan) (r : Frame) (path : List TableIndex) (fs : List Frame) : Prop :=
  fs.Nodup ∧ ∀ f, f ∈ fs ↔ ∃ q, plan f = some ⟨r, q ++ path⟩

namespace Fits

variable {plan : Plan} {kernel r table : Frame} {roots : List Frame} {m : Memory}
  {path : List TableIndex}

/-- Whatever hangs below a place, the place itself is taken. -/
theorem exists_above (h : plan.Fits kernel roots m) {f : Frame} {q : List TableIndex}
    (hf : plan f = some ⟨r, q ++ path⟩) : ∃ t, plan t = some ⟨r, path⟩ := by
  induction q generalizing f with
  | nil => exact ⟨f, hf⟩
  | cons i q ih =>
    obtain ⟨t, ht, -, -⟩ := h.parent hf
    exact ih ht

theorem lists_page (h : plan.Fits kernel roots m) (hLength : path.length = 4) {page : Frame}
    (hPage : plan page = some ⟨r, path⟩) : plan.Lists r path [page] := by
  refine ⟨List.nodup_singleton page, fun f => ?_⟩
  rw [List.mem_singleton]
  constructor
  · rintro rfl
    exact ⟨[], hPage⟩
  · rintro ⟨q, hf⟩
    have hLe := h.length_le hf
    rw [List.length_append] at hLe
    obtain rfl : q = [] := List.length_eq_zero_iff.1 (by omega)
    exact h.place_inj hf hPage

section Below

variable (h : plan.Fits kernel roots m) (ht : plan table = some ⟨r, path⟩)
  (hLength : path.length < 4) {g : Frame → List Frame}
  (hBelow : ∀ i next, plan next = some ⟨r, i :: path⟩ → plan.Lists r (i :: path) (g next))

include h ht hLength hBelow

theorem lists_entry {i : TableIndex} (hBranch : Branches kernel r path i) :
    plan.Lists r (i :: path) (m.behindEntry ⟨table, i⟩ g) := by
  refine ⟨Memory.nodup_behindEntry fun next hTarget => ?_, fun f => ?_⟩
  · exact (hBelow i next (h.place_of_target ht hLength hBranch hTarget)).1
  · rw [Memory.mem_behindEntry]
    constructor
    · rintro ⟨next, hTarget, hf⟩
      have hNext := h.place_of_target ht hLength hBranch hTarget
      exact ((hBelow i next hNext).2 f).1 hf
    · rintro ⟨q, hf⟩
      obtain ⟨next, hNext⟩ := h.exists_above hf
      exact ⟨next, h.target_of_place ht hNext, ((hBelow i next hNext).2 f).2 ⟨q, hf⟩⟩

variable {slots : List TableIndex} (hMem : ∀ i, i ∈ slots ↔ Branches kernel r path i)

include hMem

theorem mem_under {f : Frame} :
    f ∈ m.under table slots g ↔ ∃ i q, plan f = some ⟨r, q ++ i :: path⟩ := by
  rw [Memory.under, List.mem_flatMap]
  constructor
  · rintro ⟨i, hi, hf⟩
    exact ⟨i, ((h.lists_entry ht hLength hBelow ((hMem i).1 hi)).2 f).1 hf⟩
  · rintro ⟨i, q, hf⟩
    obtain ⟨next, hNext⟩ := h.exists_above hf
    obtain ⟨-, -, hBranch, -⟩ := h.parent hNext
    exact ⟨i, (hMem i).2 hBranch, ((h.lists_entry ht hLength hBelow hBranch).2 f).2 ⟨q, hf⟩⟩

/-- What hangs below different entries has different places. -/
theorem nodup_under (hSlots : slots.Nodup) : (m.under table slots g).Nodup := by
  have hEntry : ∀ {i}, i ∈ slots → plan.Lists r (i :: path) (m.behindEntry ⟨table, i⟩ g) :=
    fun hi => h.lists_entry ht hLength hBelow ((hMem _).1 hi)
  refine List.nodup_flatMap.2 ⟨fun i hi => (hEntry hi).1, ?_⟩
  refine hSlots.imp_of_mem fun {i j} hi hj hNe f hf hf' => hNe ?_
  obtain ⟨q, hPlace⟩ := ((hEntry hi).2 f).1 hf
  obtain ⟨q', hPlace'⟩ := ((hEntry hj).2 f).1 hf'
  rw [hPlace] at hPlace'
  have hPath := (Place.mk.inj (Option.some.inj hPlace')).2
  exact (List.cons.inj (List.append_inj' hPath rfl).2).1

/-- What hangs below a table is what hangs below its entries. -/
theorem lists_table (hSlots : slots.Nodup) :
    plan.Lists r path (m.under table slots g ++ [table]) := by
  have hUnder : ∀ {f}, f ∈ m.under table slots g ↔ ∃ i q, plan f = some ⟨r, q ++ i :: path⟩ :=
    h.mem_under ht hLength hBelow hMem
  refine ⟨?_, fun f => ?_⟩
  · have hNodup := h.nodup_under ht hLength hBelow hMem hSlots
    refine List.nodup_append'.2 ⟨hNodup, List.nodup_singleton table, ?_⟩
    intro f hf hTable
    obtain rfl := List.mem_singleton.1 hTable
    obtain ⟨i, q, hPlace⟩ := hUnder.1 hf
    rw [ht] at hPlace
    have hLengths := congrArg List.length (Place.mk.inj (Option.some.inj hPlace)).2
    simp only [List.length_append, List.length_cons] at hLengths
    omega
  · rw [List.mem_append, hUnder, List.mem_singleton]
    constructor
    · rintro (⟨i, q, hf⟩ | rfl)
      · exact ⟨q ++ [i], by simpa using hf⟩
      · exact ⟨[], ht⟩
    · rintro ⟨q, hf⟩
      rcases List.eq_nil_or_concat' q with rfl | ⟨q, i, rfl⟩
      · exact Or.inr (h.place_inj hf ht)
      · exact Or.inl ⟨i, q, by simpa using hf⟩

end Below

theorem lists_tree (h : plan.Fits kernel roots m) {level : Level}
    (ht : plan table = some ⟨r, path⟩) (hLength : path.length = level.depth) (hPath : path ≠ []) :
    plan.Lists r path (m.treeFrames level table) := by
  have hAll : ∀ {path : List TableIndex} {i}, path ≠ [] →
      (i ∈ TableIndex.all ↔ Branches kernel r path i) := by
    intro path i hPath
    exact iff_of_true (TableIndex.mem_all i) fun hEq => absurd hEq hPath
  induction level using Level.descent generalizing table path with
  | leaf =>
    rw [Memory.treeFrames_pt]
    refine h.lists_table ht (hLength ▸ by decide) (fun i next hNext => h.lists_page ?_ hNext)
      (fun i => hAll hPath) (List.nodup_finRange 512)
    rw [List.length_cons, hLength]
    rfl
  | inner level below hNext ih =>
    have hDepth := Level.depth_of_next? hNext
    have hLt := level.depth_lt
    rw [Memory.treeFrames_next hNext]
    refine h.lists_table ht (hLength ▸ hLt)
      (fun i next hPlace => ih hPlace ?_ (List.cons_ne_nil i path))
      (fun i => hAll hPath) (List.nodup_finRange 512)
    rw [List.length_cons, hLength, hDepth]

/-- All that hangs below the root is listed, and nothing else. -/
theorem lists_space (h : plan.Fits kernel roots m) (hr : r ∈ roots) :
    plan.Lists r [] (m.spaceFrames r) := by
  have hUser : ∀ i, i ∈ TableIndex.userHalf ↔ Branches kernel r [] i := by
    intro i
    simp [TableIndex.userHalf, TableIndex.mem_all, Branches, h.ne_kernel hr]
  have hSlots : TableIndex.userHalf.Nodup := (List.nodup_finRange 512).filter _
  rw [Memory.spaceFrames]
  exact h.lists_table (h.root_place hr) (Nat.zero_lt_succ 3)
    (fun i next hNext => h.lists_tree hNext rfl (List.cons_ne_nil i [])) hUser hSlots

theorem gives_tree (h : plan.Fits kernel roots m) {level : Level}
    (ht : plan table = some ⟨r, path⟩) (hLength : path.length = level.depth) (hPath : path ≠ []) :
    Gives m (AddressSpace.freeTable level table) (m.treeFrames level table) := by
  have hBranch : ∀ {path : List TableIndex} {i}, path ≠ [] → Branches kernel r path i :=
    fun hPath hEq => absurd hEq hPath
  induction level using Level.descent generalizing table path with
  | leaf =>
    rw [Memory.treeFrames_pt, AddressSpace.freeTable.eq_def]
    refine Gives.table (Gives.under fun i _ => ?_) (h.holds ht)
    obtain ⟨o, ho, -⟩ := h.exists_target ht (hLength ▸ by decide) (hBranch hPath)
    exact ⟨o, ho, fun next _ => Gives.giveFrame_one⟩
  | inner level below hNext ih =>
    have hDepth := Level.depth_of_next? hNext
    have hLt := level.depth_lt
    have hTargets : ∀ i ∈ TableIndex.all, ∃ o, (m.entry ⟨table, i⟩).target = .ok o ∧
        ∀ next, o = some next → Gives m (AddressSpace.freeTable below next) (m.treeFrames below next) := by
      intro i _
      obtain ⟨o, ho, hPlace⟩ := h.exists_target (i := i) ht (hLength ▸ hLt) (hBranch hPath)
      refine ⟨o, ho, fun next hEq => ih (hPlace next hEq) ?_ (List.cons_ne_nil i path)⟩
      rw [List.length_cons, hLength, hDepth]
    have hBelow := Gives.under hTargets
    rw [Memory.treeFrames_next hNext, AddressSpace.freeTable.eq_def]
    cases level <;> cases hNext <;> exact hBelow.table (h.holds ht)

theorem gives_space (h : plan.Fits kernel roots m) (hr : r ∈ roots) :
    Gives m (AddressSpace.sumOver (fun i => do
      match ← AddressSpace.targetAt ⟨r, i⟩ with
      | some table => AddressSpace.freeTable .pdpt table
      | none => return 0) TableIndex.userHalf)
      (m.under r TableIndex.userHalf (m.treeFrames .pdpt)) := by
  refine Gives.under fun i hi => ?_
  have hBranch : Branches kernel r [] i := by
    have hLower : i.val < kernelRootStart := by
      simpa [TableIndex.userHalf, TableIndex.mem_all] using hi
    exact fun _ => iff_of_false (h.ne_kernel hr) (by omega)
  obtain ⟨o, ho, hPlace⟩ := h.exists_target (h.root_place hr) (Nat.zero_lt_succ 3) hBranch
  exact ⟨o, ho, fun next hEq => h.gives_tree (hPlace next hEq) rfl (List.cons_ne_nil i [])⟩

end Fits

namespace Describes

variable {plan : Plan} {kernel : Frame} {roots held : List Frame} {s : AddressSpace} {m m' : Machine}

theorem inUse_spaceFrames (h : plan.Describes kernel roots held m) {r : Frame} (hr : r ∈ roots) :
    ∀ f ∈ m.memory.spaceFrames r, f ∈ m.frames.inUse := by
  intro f hf
  obtain ⟨q, hPlace⟩ := ((h.fits.lists_space hr).2 f).1 hf
  exact h.accounts.mem_inUse.2 (Or.inr (by rw [hPlace]; rfl))

/-- Destroying a space gives back its frames, and that is all. -/
theorem destroy_eq (h : plan.Describes kernel roots held m) (hr : s.root ∈ roots)
    (hKernel : s.isKernel = false) :
    ∃ m', s.destroy m = .ok () m' ∧ m'.memory = m.memory ∧
      m'.frames = m.frames.releaseAll (m.memory.spaceFrames s.root) ∧ m'.mmu = m.mmu ∧
      m'.log = .spaceDestroyed s.root (m.memory.spaceFrames s.root).length :: m.log := by
  have hNodup := (h.fits.lists_space hr).1
  have hUse := h.inUse_spaceFrames hr
  have hHolds := h.fits.holds (h.fits.root_place hr)
  rw [Memory.spaceFrames] at hNodup hUse ⊢
  obtain ⟨hBelow, -, hDisjoint⟩ := List.nodup_append'.1 hNodup
  have hSum := h.fits.gives_space hr m rfl hBelow fun f hf => hUse f (List.mem_append_left _ hf)
  have hStill := Machine.mem_inUse_released (hUse s.root (by simp)) fun hMem =>
    hDisjoint hMem (List.mem_singleton_self s.root)
  rw [AddressSpace.destroy, hKernel]
  simp only [Bool.false_eq_true, ↓reduceIte]
  rw [Stateful.bind_ok (look_ok (f := (·.requireTable s.root)) (Memory.requireTable_of_holds hHolds))]
  refine ⟨{ m with
    frames := m.frames.releaseAll
      (m.memory.under s.root TableIndex.userHalf (m.memory.treeFrames .pdpt) ++ [s.root])
    log := .spaceDestroyed s.root
      (m.memory.under s.root TableIndex.userHalf (m.memory.treeFrames .pdpt) ++ [s.root]).length ::
        m.log }, (Stateful.bind_ok hSum).trans ?_, rfl, rfl, rfl, rfl⟩
  rw [Stateful.bind_ok (giveFrame_of_mem hStill), note_apply, List.length_append,
    List.length_singleton, FrameAllocator.releaseAll_append]
  dsimp only [Machine.released]

theorem isSome_uproot {plan : Plan} {r g : Frame} :
    (plan.uproot r g).isSome = true ↔ (plan g).isSome = true ∧ ∀ q, plan g ≠ some ⟨r, q⟩ := by
  rw [uproot, Option.isSome_filter]
  cases hPlace : plan g with
  | none => simp
  | some x =>
    obtain ⟨r', q⟩ := x
    simp

/-- After a space was destroyed its tree is gone from the plan. -/
theorem destroyed (h : plan.Describes kernel roots held m) {r : Frame} (hr : r ∈ roots)
    (hMemory : m'.memory = m.memory)
    (hFrames : m'.frames = m.frames.releaseAll (m.memory.spaceFrames r)) :
    (plan.uproot r).Describes kernel (roots.erase r) held m' := by
  have hLists := h.fits.lists_space hr
  refine ⟨?_, ?_⟩
  · rw [hMemory]
    exact h.fits.uproot (h.fits.ne_kernel hr)
  · rw [hMemory, hFrames]
    refine h.accounts.release hLists.1 (fun g hg => ?_) fun g => ?_
    · obtain ⟨q, hPlace⟩ := (hLists.2 g).1 hg
      rw [hPlace]
      rfl
    · rw [isSome_uproot, hLists.2 g]
      simp

end Describes

end Plan

end PagedKernel
