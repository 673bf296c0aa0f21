import PagedKernel.Proofs.Walk.Growth

/-!
# Plans of the trees

A plan says of every frame where it hangs, if it hangs anywhere: below which root, and along which
path of indices. Since a plan is a function, no frame hangs in two places; `Plan.Fits` says that
memory is built as planned, one entry at a time. The kernel's tree takes part like all others, but
its root has entries in the upper half where the roots of the address spaces have them in the lower
half, and what it has there they repeat.

* `Place`, `Plan`, `Plan.Fits`: the plan and what it says about memory.
* `Plan.Fits.place_inj`: no place is taken by two frames.
* `Plan.Fits.descends`: a walk goes along the plan, and stops at the leaf table or at an empty entry.
* `Plan.Fits.lookup_eq`, `Plan.Fits.lookup_missing`: so lookups are read off the plan, and with
  them what an address has, in `Plan.Fits.leaf?_cases`.
-/

namespace PagedKernel

/-- A place in one of the trees: a root, and the indices that lead there, the last one first. -/
structure Place where
  root : Frame
  path : List TableIndex
deriving DecidableEq

/-- Where each frame hangs. -/
abbrev Plan := Frame → Option Place

theorem Plan.ne_of_new {plan : Plan} {f g : Frame} {x : Place} (hNew : plan f = none)
    (hg : plan g = some x) : g ≠ f := by
  rintro rfl
  rw [hNew] at hg
  cases hg

/-- Entry `i` of the table at a path belongs to the tree of the root `r` itself: a root table has
entries of its own in one half only. -/
def Branches (kernel r : Frame) (path : List TableIndex) (i : TableIndex) : Prop :=
  path = [] → (r = kernel ↔ kernelRootStart ≤ i.val)

/-- Memory is built as planned, with the tree of `kernel` and those of `roots` in it. -/
structure Plan.Fits (plan : Plan) (kernel : Frame) (roots : List Frame) (m : Memory) : Prop where
  frames_le : m.frames ≤ 2 ^ 40
  holds {f : Frame} {x : Place} : plan f = some x → m.holds f = true
  kernel_place : plan kernel = some ⟨kernel, []⟩
  kernel_notMem : kernel ∉ roots
  roots_nodup : roots.Nodup
  root_place {r : Frame} : r ∈ roots → plan r = some ⟨r, []⟩
  eq_root {f r : Frame} : plan f = some ⟨r, []⟩ → f = r ∧ (r = kernel ∨ r ∈ roots)
  length_le {f r : Frame} {path : List TableIndex} : plan f = some ⟨r, path⟩ → path.length ≤ 4
  parent {f r : Frame} {i : TableIndex} {path : List TableIndex} :
    plan f = some ⟨r, i :: path⟩ →
      ∃ t, plan t = some ⟨r, path⟩ ∧ Branches kernel r path i ∧
        (m.entry ⟨t, i⟩).target = .ok (some f)
  link {t r : Frame} {path : List TableIndex} :
    plan t = some ⟨r, path⟩ → path.length < 3 → ∀ i, Branches kernel r path i →
      m.entry ⟨t, i⟩ = .empty ∨
        ∃ f, plan f = some ⟨r, i :: path⟩ ∧ m.entry ⟨t, i⟩ = Entry.compose true .user f
  leaf {t r : Frame} {path : List TableIndex} :
    plan t = some ⟨r, path⟩ → path.length = 3 → ∀ i,
      (m.entry ⟨t, i⟩).flag .pageSize = false ∧
        ∀ f, (m.entry ⟨t, i⟩).target = .ok (some f) → plan f = some ⟨r, i :: path⟩
  lower (i : TableIndex) : i.val < kernelRootStart → m.entry ⟨kernel, i⟩ = .empty
  upper {r : Frame} : r ∈ roots → ∀ i : TableIndex, kernelRootStart ≤ i.val →
    m.entry ⟨r, i⟩ = m.entry ⟨kernel, i⟩

/-- The address is translated by the part of the tree that belongs to the root `r` itself. -/
def OwnHalf (kernel r : Frame) (a : VirtualAddress) : Prop :=
  r = kernel ↔ kernelRootStart ≤ (Level.pml4.indexOf a).val

theorem OwnHalf.branches {kernel r : Frame} {a : VirtualAddress} (h : OwnHalf kernel r a)
    (level : Level) : Branches kernel r (a.pathTo level) (level.indexOf a) := by
  intro hPath
  cases level with
  | pml4 => exact h
  | pdpt | pd | pt => cases hPath

namespace Plan.Fits

variable {plan : Plan} {kernel r : Frame} {roots : List Frame} {m : Memory} {a : VirtualAddress}

theorem number_lt (h : plan.Fits kernel roots m) {f : Frame} {x : Place} (hPlace : plan f = some x) :
    f.number.toNat < 2 ^ 40 :=
  Memory.number_lt_of_holds h.frames_le (h.holds hPlace)

theorem ne_kernel (h : plan.Fits kernel roots m) (hRoot : r ∈ roots) : r ≠ kernel := by
  rintro rfl
  exact h.kernel_notMem hRoot

theorem ownHalf (h : plan.Fits kernel roots m) (hRoot : r ∈ roots) (ha : a.isUser = true) :
    OwnHalf kernel r a := by
  have hLt := a.indexOf_pml4_lt ha
  exact ⟨fun hEq => absurd hEq (h.ne_kernel hRoot), fun hLe => absurd hLe (by omega)⟩

/-- No place is taken by two frames. -/
theorem place_inj (h : plan.Fits kernel roots m) {f g : Frame} {x : Place} (hf : plan f = some x)
    (hg : plan g = some x) : f = g := by
  obtain ⟨r, path⟩ := x
  induction path generalizing f g with
  | nil => rw [(h.eq_root hf).1, (h.eq_root hg).1]
  | cons i path ih =>
    obtain ⟨t, ht, -, hTarget⟩ := h.parent hf
    obtain ⟨t', ht', -, hTarget'⟩ := h.parent hg
    -- Both hang from one table, and an entry of it points at one frame only.
    obtain rfl := ih ht ht'
    rw [hTarget] at hTarget'
    simpa using hTarget'

theorem target_of_place (h : plan.Fits kernel roots m) {t f : Frame} {i : TableIndex}
    {path : List TableIndex} (ht : plan t = some ⟨r, path⟩) (hf : plan f = some ⟨r, i :: path⟩) :
    (m.entry ⟨t, i⟩).target = .ok (some f) := by
  obtain ⟨t', ht', -, hTarget⟩ := h.parent hf
  rwa [h.place_inj ht ht']

/-- A link of the trees leads to the frame that is planned there. -/
theorem link_target (h : plan.Fits kernel roots m) {t : Frame} {path : List TableIndex}
    (ht : plan t = some ⟨r, path⟩) (hLength : path.length < 3) {i : TableIndex}
    (hBranch : Branches kernel r path i) :
    m.entry ⟨t, i⟩ = .empty ∨
      ∃ f, plan f = some ⟨r, i :: path⟩ ∧ (m.entry ⟨t, i⟩).target = .ok (some f) := by
  rcases h.link ht hLength i hBranch with hEmpty | ⟨f, hf, -⟩
  · exact Or.inl hEmpty
  · exact Or.inr ⟨f, hf, h.target_of_place ht hf⟩

theorem notMem_of_empty (h : plan.Fits kernel roots m) {t : Frame} {i : TableIndex}
    {path : List TableIndex} (ht : plan t = some ⟨r, path⟩)
    (hTarget : (m.entry ⟨t, i⟩).target = .ok none) (f : Frame) :
    plan f ≠ some ⟨r, i :: path⟩ := by
  intro hf
  rw [h.target_of_place ht hf] at hTarget
  cases hTarget

/-! ## Walks -/

/-- A walk goes along the plan, until the leaf table or an entry without a table. -/
theorem descends (h : plan.Fits kernel roots m) (hHalf : OwnHalf kernel r a) (level : Level)
    {table : Frame} (hPlace : plan table = some ⟨r, a.pathTo level⟩) :
    ∃ l t, m.Descends a level table l t ∧ plan t = some ⟨r, a.pathTo l⟩ ∧
      (l ≠ .pt → m.entry ⟨t, l.indexOf a⟩ = .empty) := by
  induction level using Level.descent generalizing table with
  | leaf => exact ⟨.pt, table, .here .pt table, hPlace, fun hNe => absurd rfl hNe⟩
  | inner level below hNext ih =>
    have hLength := a.length_pathTo_lt_of_next? hNext
    rcases h.link_target hPlace hLength (hHalf.branches level) with hEmpty | ⟨f, hf, hTarget⟩
    · exact ⟨level, table, .here level table, hPlace, fun _ => hEmpty⟩
    · rw [← VirtualAddress.pathTo_of_next? hNext] at hf
      obtain ⟨l, t, hDescends, ht, hStop⟩ := ih hf
      exact ⟨l, t, .down hNext (h.holds hPlace) hTarget hDescends, ht, hStop⟩

theorem exists_table (h : plan.Fits kernel roots m) {t : Frame}
    (hPlace : plan t = some ⟨r, a.pathTo .pt⟩) (level : Level) :
    ∃ g, plan g = some ⟨r, a.pathTo level⟩ := by
  obtain ⟨pd, hPd, -, -⟩ := h.parent hPlace
  obtain ⟨pdpt, hPdpt, -, -⟩ := h.parent hPd
  obtain ⟨root, hRoot, -, -⟩ := h.parent hPdpt
  cases level with
  | pml4 => exact ⟨root, hRoot⟩
  | pdpt => exact ⟨pdpt, hPdpt⟩
  | pd => exact ⟨pd, hPd⟩
  | pt => exact ⟨t, hPlace⟩

/-- Below an entry that is empty there is no leaf table. -/
theorem no_leaf_table (h : plan.Fits kernel roots m) {level : Level} (hLevel : level ≠ .pt) {t : Frame}
    (ht : plan t = some ⟨r, a.pathTo level⟩) (hEmpty : m.entry ⟨t, level.indexOf a⟩ = .empty)
    (u : Frame) : plan u ≠ some ⟨r, a.pathTo .pt⟩ := by
  intro hu
  obtain ⟨below, hNext⟩ := Level.exists_next? hLevel
  obtain ⟨g, hg⟩ := h.exists_table hu below
  rw [VirtualAddress.pathTo_of_next? hNext] at hg
  exact h.notMem_of_empty ht (by rw [hEmpty, Entry.target_empty]) g hg

theorem descends_leaf (h : plan.Fits kernel roots m) (hHalf : OwnHalf kernel r a)
    (hRoot : plan r = some ⟨r, []⟩) {t : Frame} (hPlace : plan t = some ⟨r, a.pathTo .pt⟩) :
    m.Descends a .pml4 r .pt t := by
  obtain ⟨l, t', hDescends, ht', hStop⟩ := h.descends hHalf .pml4 hRoot
  by_cases hl : l = .pt
  · subst hl
    rwa [h.place_inj hPlace ht']
  · exact absurd hPlace (h.no_leaf_table hl ht' (hStop hl) t)

theorem lookup_eq (h : plan.Fits kernel roots m) (hHalf : OwnHalf kernel r a)
    (hRoot : plan r = some ⟨r, []⟩) {t : Frame} (hPlace : plan t = some ⟨r, a.pathTo .pt⟩) :
    m.lookup r a = .ok (.ok ⟨t, Level.pt.indexOf a⟩) := by
  rw [Memory.lookup, (h.descends_leaf hHalf hRoot hPlace).lookupFrom_eq,
    Memory.lookupFrom_pt (h.holds hPlace)]

theorem lookup_missing (h : plan.Fits kernel roots m) (hHalf : OwnHalf kernel r a)
    (hRoot : plan r = some ⟨r, []⟩) (hNone : ∀ t, plan t ≠ some ⟨r, a.pathTo .pt⟩) :
    ∃ below, m.lookup r a = .ok (.error (.missing below)) := by
  obtain ⟨l, t, hDescends, ht, hStop⟩ := h.descends hHalf .pml4 hRoot
  have hl : l ≠ .pt := by
    rintro rfl
    exact hNone t ht
  obtain ⟨below, hNext⟩ := Level.exists_next? hl
  refine ⟨below, ?_⟩
  rw [Memory.lookup, hDescends.lookupFrom_eq,
    Memory.lookupFrom_missing hNext (h.holds ht) (by rw [hStop hl, Entry.target_empty])]

/-- An address has the entry of the leaf table that is planned there, or nothing. -/
theorem leaf?_cases (h : plan.Fits kernel roots m) (hHalf : OwnHalf kernel r a)
    (hRoot : plan r = some ⟨r, []⟩) :
    (∃ t, plan t = some ⟨r, a.pathTo .pt⟩ ∧
        m.leaf? r a = .ok (some (m.entry ⟨t, Level.pt.indexOf a⟩))) ∨
      (∀ t, plan t ≠ some ⟨r, a.pathTo .pt⟩) ∧ m.leaf? r a = .ok none := by
  by_cases hTable : ∃ t, plan t = some ⟨r, a.pathTo .pt⟩
  · obtain ⟨t, ht⟩ := hTable
    refine Or.inl ⟨t, ht, ?_⟩
    rw [Memory.leaf?, h.lookup_eq hHalf hRoot ht]
    rfl
  · have hNone : ∀ t, plan t ≠ some ⟨r, a.pathTo .pt⟩ := fun t ht => hTable ⟨t, ht⟩
    obtain ⟨below, hMissing⟩ := h.lookup_missing hHalf hRoot hNone
    refine Or.inr ⟨hNone, ?_⟩
    rw [Memory.leaf?, hMissing]
    rfl

theorem leaf?_of_place (h : plan.Fits kernel roots m) (hHalf : OwnHalf kernel r a)
    (hRoot : plan r = some ⟨r, []⟩) {t : Frame} (ht : plan t = some ⟨r, a.pathTo .pt⟩) :
    m.leaf? r a = .ok (some (m.entry ⟨t, Level.pt.indexOf a⟩)) := by
  rcases h.leaf?_cases hHalf hRoot with ⟨u, hu, hLeaf⟩ | ⟨hNone, -⟩
  · rw [hLeaf, h.place_inj hu ht]
  · exact absurd ht (hNone t)

theorem leaf?_of_none (h : plan.Fits kernel roots m) (hHalf : OwnHalf kernel r a)
    (hRoot : plan r = some ⟨r, []⟩) (hNone : ∀ t, plan t ≠ some ⟨r, a.pathTo .pt⟩) :
    m.leaf? r a = .ok none := by
  rcases h.leaf?_cases hHalf hRoot with ⟨u, hu, -⟩ | ⟨-, hLeaf⟩
  · exact absurd hu (hNone u)
  · exact hLeaf

/-- An address has what it had before if the leaf table and its entry are what they were. -/
theorem leaf?_congr {plan' : Plan} {roots' : List Frame} {m' : Memory}
    (h : plan.Fits kernel roots m) (h' : plan'.Fits kernel roots' m') (hHalf : OwnHalf kernel r a)
    (hRoot : plan r = some ⟨r, []⟩) (hRoot' : plan' r = some ⟨r, []⟩)
    (hTable : ∀ t, plan' t = some ⟨r, a.pathTo .pt⟩ ↔ plan t = some ⟨r, a.pathTo .pt⟩)
    (hEntry : ∀ t, plan t = some ⟨r, a.pathTo .pt⟩ →
      m'.entry ⟨t, Level.pt.indexOf a⟩ = m.entry ⟨t, Level.pt.indexOf a⟩) :
    m'.leaf? r a = m.leaf? r a := by
  rcases h.leaf?_cases hHalf hRoot with ⟨t, ht, hLeaf⟩ | ⟨hNone, hLeaf⟩
  · rw [hLeaf, h'.leaf?_of_place hHalf hRoot' ((hTable t).2 ht), hEntry t ht]
  · rw [hLeaf, h'.leaf?_of_none hHalf hRoot' fun t ht => hNone t ((hTable t).1 ht)]

end Plan.Fits

end PagedKernel
