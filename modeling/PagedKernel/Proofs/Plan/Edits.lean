import PagedKernel.Proofs.Plan.Basic

/-!
# Keeping the plan up to date

Each way to change the trees comes with the change of the plan after which memory is built as
planned again.

* `Plan.Fits.of_entries`: nothing but tables counts.
* `Plan.Edit.fits`: one entry is replaced. `Plan.Fits.hang` is the case of a fresh table, and
  `Plan.Fits.fill`, `Plan.Fits.cutLeaf`, `Plan.Fits.editLeaf` are the cases of a leaf.
* `Plan.Fits.plant`, `Plan.Fits.uproot`: an address space comes and goes.
* `Plan.fits_kernel`: where it all starts.
-/

namespace PagedKernel.Plan

variable {plan plan' : Plan} {kernel r t f : Frame} {roots : List Frame} {m m' : Memory}
  {i : TableIndex} {path : List TableIndex}

theorem Fits.of_entries (h : plan.Fits kernel roots m) (hFrames : m'.frames = m.frames)
    (hEntry : ∀ {t r path}, plan t = some ⟨r, path⟩ → path.length < 4 →
      ∀ i, m'.entry ⟨t, i⟩ = m.entry ⟨t, i⟩) : plan.Fits kernel roots m' where
  frames_le := hFrames ▸ h.frames_le
  holds hPlace := by
    rw [Memory.holds, hFrames]
    exact h.holds hPlace
  kernel_place := h.kernel_place
  kernel_notMem := h.kernel_notMem
  roots_nodup := h.roots_nodup
  root_place := h.root_place
  eq_root := h.eq_root
  length_le := h.length_le
  parent hPlace := by
    obtain ⟨t, ht, hBranch, hTarget⟩ := h.parent hPlace
    have hLength := h.length_le hPlace
    rw [List.length_cons] at hLength
    exact ⟨t, ht, hBranch, by rwa [hEntry ht (by omega)]⟩
  link ht hLength i hBranch := by
    rw [hEntry ht (by omega)]
    exact h.link ht hLength i hBranch
  leaf ht hLength i := by
    rw [hEntry ht (by omega)]
    exact h.leaf ht hLength i
  lower i hi := by
    rw [hEntry h.kernel_place (by simp)]
    exact h.lower i hi
  upper hr i hi := by
    rw [hEntry h.kernel_place (by simp), hEntry (h.root_place hr) (by simp)]
    exact h.upper hr i hi

theorem Fits.congr_roots (h : plan.Fits kernel roots m) {roots' : List Frame}
    (hMem : ∀ {g}, g ∈ roots' ↔ g ∈ roots) (hNodup : roots'.Nodup) : plan.Fits kernel roots' m :=
  { h with
    kernel_notMem := fun hg => h.kernel_notMem (hMem.1 hg)
    roots_nodup := hNodup
    root_place := fun hg => h.root_place (hMem.1 hg)
    eq_root := fun hg => ⟨(h.eq_root hg).1, (h.eq_root hg).2.imp_right hMem.2⟩
    upper := fun hg => h.upper (hMem.1 hg) }

theorem slot_inj {j : TableIndex} (h : (⟨f, j⟩ : Slot) = ⟨t, i⟩) : f = t ∧ j = i :=
  ⟨congrArg Slot.table h, congrArg Slot.index h⟩

theorem Fits.ne_upper (h : plan.Fits kernel roots m) (ht : plan t = some ⟨r, path⟩)
    (hBranch : Branches kernel r path i) {r' : Frame} (hr' : r' ∈ roots) {j : TableIndex}
    (hj : kernelRootStart ≤ j.val) : (⟨r', j⟩ : Slot) ≠ ⟨t, i⟩ := by
  intro hEq
  obtain ⟨rfl, rfl⟩ := slot_inj hEq
  obtain ⟨rfl, rfl⟩ : r = r' ∧ path = [] := by simpa [h.root_place hr', eq_comm] using ht
  have hKernel := (hBranch rfl).2 hj
  exact h.kernel_notMem (hKernel ▸ hr')

theorem Fits.ne_lower (h : plan.Fits kernel roots m) (ht : plan t = some ⟨r, path⟩)
    (hBranch : Branches kernel r path i) {j : TableIndex} (hj : j.val < kernelRootStart) :
    (⟨kernel, j⟩ : Slot) ≠ ⟨t, i⟩ := by
  intro hEq
  obtain ⟨rfl, rfl⟩ := slot_inj hEq
  obtain ⟨rfl, rfl⟩ : r = kernel ∧ path = [] := by simpa [h.kernel_place, eq_comm] using ht
  have hLe := (hBranch rfl).1 rfl
  omega

/-- The entry `i` of the table `t`, which hangs at `path` below `r`, becomes `e`, and the plan changes
at the place that this entry leads to and nowhere else. Above the leaf level an empty entry comes to
link a table without entries. While there are address spaces, the kernel's tree stays as it is. -/
structure Edit (plan plan' : Plan) (kernel : Frame) (roots : List Frame) (m : Memory)
    (r : Frame) (path : List TableIndex) (t : Frame) (i : TableIndex) (e : Entry) : Prop where
  table : plan t = some ⟨r, path⟩
  length_lt : path.length < 4
  branches : Branches kernel r path i
  kernel_only : r = kernel → roots = []
  elsewhere {g : Frame} {x : Place} : x ≠ ⟨r, i :: path⟩ → (plan' g = some x ↔ plan g = some x)
  here {g : Frame} : plan' g = some ⟨r, i :: path⟩ ↔ e.target = .ok (some g)
  small : e.flag .pageSize = false
  holds {g : Frame} : e.target = .ok (some g) → m.holds g = true
  link : path.length < 3 → m.entry ⟨t, i⟩ = .empty ∧
    ∃ g, e = Entry.compose true .user g ∧ e.target = .ok (some g) ∧ ∀ j, m.entry ⟨g, j⟩ = .empty

namespace Edit

variable {e : Entry} (h : Edit plan plan' kernel roots m r path t i e)
  (hFits : plan.Fits kernel roots m)

include h hFits

theorem entry_self : (m.setEntry ⟨t, i⟩ e).entry ⟨t, i⟩ = e := by
  rw [Memory.entry_setEntry (hFits.holds h.table), if_pos rfl]

theorem entry_of_ne {s : Slot} (hSlot : s ≠ ⟨t, i⟩) :
    (m.setEntry ⟨t, i⟩ e).entry s = m.entry s := by
  rw [Memory.entry_setEntry (hFits.holds h.table), if_neg hSlot]

omit hFits in
/-- The slot that changes is the one that leads to the place that changes. -/
theorem slot_ne {u r' : Frame} {j : TableIndex} {q : List TableIndex} (hu : plan u = some ⟨r', q⟩)
    (hPlace : (⟨r', j :: q⟩ : Place) ≠ ⟨r, i :: path⟩) : (⟨u, j⟩ : Slot) ≠ ⟨t, i⟩ := by
  intro hEq
  obtain ⟨rfl, rfl⟩ := slot_inj hEq
  rw [h.table] at hu
  obtain ⟨rfl, rfl⟩ : r = r' ∧ path = q := by simpa using hu
  exact hPlace rfl

theorem place_ne {u r' : Frame} {j : TableIndex} {q : List TableIndex} (hu : plan u = some ⟨r', q⟩)
    (hSlot : (⟨u, j⟩ : Slot) ≠ ⟨t, i⟩) : (⟨r', j :: q⟩ : Place) ≠ ⟨r, i :: path⟩ := by
  intro hEq
  obtain ⟨rfl, rfl, rfl⟩ : r' = r ∧ j = i ∧ q = path := by simpa using hEq
  rw [hFits.place_inj hu h.table] at hSlot
  exact hSlot rfl

omit hFits in
theorem table_place : plan' t = some ⟨r, path⟩ := by
  refine (h.elsewhere ?_).2 h.table
  simp

/-- A table that is new at the place that changes has no entries. -/
theorem entry_new {g : Frame} (hg : plan' g = some ⟨r, i :: path⟩) (hLength : path.length < 3)
    (j : TableIndex) : (m.setEntry ⟨t, i⟩ e).entry ⟨g, j⟩ = .empty := by
  obtain ⟨-, g', -, hTarget, hEntries⟩ := h.link hLength
  rw [h.here.1 hg] at hTarget
  obtain rfl : g = g' := by simpa using hTarget
  rw [h.entry_of_ne hFits, hEntries j]
  intro hSlot
  obtain ⟨rfl, rfl⟩ := slot_inj hSlot
  rw [h.table_place] at hg
  simp at hg

theorem parent {f r' : Frame} {j : TableIndex} {q : List TableIndex}
    (hf : plan' f = some ⟨r', j :: q⟩) :
    ∃ u, plan' u = some ⟨r', q⟩ ∧ Branches kernel r' q j ∧
      ((m.setEntry ⟨t, i⟩ e).entry ⟨u, j⟩).target = .ok (some f) := by
  by_cases hPlace : (⟨r', j :: q⟩ : Place) = ⟨r, i :: path⟩
  · obtain ⟨rfl, rfl, rfl⟩ : r' = r ∧ j = i ∧ q = path := by simpa using hPlace
    exact ⟨t, h.table_place, h.branches, by rw [h.entry_self hFits]; exact h.here.1 hf⟩
  · have hOld := (h.elsewhere hPlace).1 hf
    obtain ⟨u, hu, hBranch, hTarget⟩ := hFits.parent hOld
    refine ⟨u, (h.elsewhere ?_).2 hu, hBranch, ?_⟩
    · -- Below the place that changes there was nothing: the entry that leads there was empty.
      intro hEq
      obtain ⟨rfl, rfl⟩ : r' = r ∧ q = i :: path := by simpa using hEq
      have hLength := hFits.length_le hOld
      simp only [List.length_cons] at hLength
      have hEmpty := (h.link (by omega)).1
      exact hFits.notMem_of_empty h.table (by rw [hEmpty, Entry.target_empty]) u hu
    · rwa [h.entry_of_ne hFits (h.slot_ne hu hPlace)]

theorem fits_link {u r' : Frame} {q : List TableIndex} (hu : plan' u = some ⟨r', q⟩)
    (hLength : q.length < 3) (j : TableIndex) (hBranch : Branches kernel r' q j) :
    (m.setEntry ⟨t, i⟩ e).entry ⟨u, j⟩ = .empty ∨ ∃ f, plan' f = some ⟨r', j :: q⟩ ∧
      (m.setEntry ⟨t, i⟩ e).entry ⟨u, j⟩ = Entry.compose true .user f := by
  by_cases hPlace : (⟨r', q⟩ : Place) = ⟨r, i :: path⟩
  · obtain ⟨rfl, rfl⟩ : r' = r ∧ q = i :: path := by simpa using hPlace
    rw [List.length_cons] at hLength
    exact Or.inl (h.entry_new hFits hu (by omega) j)
  · have hOld := (h.elsewhere hPlace).1 hu
    by_cases hSlot : (⟨u, j⟩ : Slot) = ⟨t, i⟩
    · obtain ⟨rfl, rfl⟩ := slot_inj hSlot
      rw [h.table] at hOld
      obtain ⟨rfl, rfl⟩ : r = r' ∧ path = q := by simpa using hOld
      obtain ⟨-, g, hEq, hTarget, -⟩ := h.link hLength
      exact Or.inr ⟨g, h.here.2 hTarget, by rw [h.entry_self hFits, hEq]⟩
    · rw [h.entry_of_ne hFits hSlot]
      rcases hFits.link hOld hLength j hBranch with hEmpty | ⟨f, hf, hEq⟩
      · exact Or.inl hEmpty
      · exact Or.inr ⟨f, (h.elsewhere (h.place_ne hFits hOld hSlot)).2 hf, hEq⟩

theorem fits_leaf {u r' : Frame} {q : List TableIndex} (hu : plan' u = some ⟨r', q⟩)
    (hLength : q.length = 3) (j : TableIndex) :
    ((m.setEntry ⟨t, i⟩ e).entry ⟨u, j⟩).flag .pageSize = false ∧
      ∀ f, ((m.setEntry ⟨t, i⟩ e).entry ⟨u, j⟩).target = .ok (some f) →
        plan' f = some ⟨r', j :: q⟩ := by
  by_cases hPlace : (⟨r', q⟩ : Place) = ⟨r, i :: path⟩
  · obtain ⟨rfl, rfl⟩ : r' = r ∧ q = i :: path := by simpa using hPlace
    rw [List.length_cons] at hLength
    rw [h.entry_new hFits hu (by omega) j]
    simp
  · have hOld := (h.elsewhere hPlace).1 hu
    by_cases hSlot : (⟨u, j⟩ : Slot) = ⟨t, i⟩
    · obtain ⟨rfl, rfl⟩ := slot_inj hSlot
      rw [h.table] at hOld
      obtain ⟨rfl, rfl⟩ : r = r' ∧ path = q := by simpa using hOld
      rw [h.entry_self hFits]
      exact ⟨h.small, fun f hf => h.here.2 hf⟩
    · rw [h.entry_of_ne hFits hSlot]
      obtain ⟨hFlag, hPage⟩ := hFits.leaf hOld hLength j
      exact ⟨hFlag, fun f hf => (h.elsewhere (h.place_ne hFits hOld hSlot)).2 (hPage f hf)⟩

/-- After an edit memory is built as the new plan says. -/
theorem fits : plan'.Fits kernel roots (m.setEntry ⟨t, i⟩ e) where
  frames_le := by
    rw [Memory.frames_setEntry]
    exact hFits.frames_le
  holds {f x} hf := by
    rw [Memory.holds_setEntry]
    by_cases hPlace : x = ⟨r, i :: path⟩
    · subst hPlace
      exact h.holds (h.here.1 hf)
    · exact hFits.holds ((h.elsewhere hPlace).1 hf)
  kernel_place := (h.elsewhere (by simp)).2 hFits.kernel_place
  kernel_notMem := hFits.kernel_notMem
  roots_nodup := hFits.roots_nodup
  root_place hr := (h.elsewhere (by simp)).2 (hFits.root_place hr)
  eq_root hf := hFits.eq_root ((h.elsewhere (by simp)).1 hf)
  length_le {f r' q} hf := by
    by_cases hPlace : (⟨r', q⟩ : Place) = ⟨r, i :: path⟩
    · obtain ⟨-, rfl⟩ : r' = r ∧ q = i :: path := by simpa using hPlace
      exact h.length_lt
    · exact hFits.length_le ((h.elsewhere hPlace).1 hf)
  parent := h.parent hFits
  link := h.fits_link hFits
  leaf := h.fits_leaf hFits
  lower j hj := by
    rw [h.entry_of_ne hFits (hFits.ne_lower h.table h.branches hj)]
    exact hFits.lower j hj
  upper {r'} hr j hj := by
    have hKernel : (⟨kernel, j⟩ : Slot) ≠ ⟨t, i⟩ := by
      intro hEq
      obtain ⟨rfl, -⟩ := slot_inj hEq
      have hRoot : r = kernel := by
        have hPlace := h.table
        rw [hFits.kernel_place] at hPlace
        exact (Place.mk.inj (Option.some.inj hPlace)).1.symm
      rw [h.kernel_only hRoot] at hr
      cases hr
    rw [h.entry_of_ne hFits (hFits.ne_upper h.table h.branches hr hj), h.entry_of_ne hFits hKernel]
    exact hFits.upper hr j hj

end Edit

/-! ## Hanging and cutting off -/

def put (plan : Plan) (f : Frame) (x : Place) : Plan := fun g => if g = f then some x else plan g

def cut (plan : Plan) (f : Frame) : Plan := fun g => if g = f then none else plan g

@[simp] theorem put_self (plan : Plan) (f : Frame) (x : Place) : plan.put f x f = some x := if_pos rfl

theorem put_of_ne {g : Frame} (hNe : g ≠ f) (x : Place) : plan.put f x g = plan g := if_neg hNe

theorem put_eq_some (hNew : plan f = none) {x y : Place} {g : Frame} :
    plan.put f x g = some y ↔ g = f ∧ x = y ∨ plan g = some y := by
  by_cases hg : g = f
  · subst hg
    simp [put, hNew]
  · simp [put, hg]

theorem isSome_put {x : Place} {g : Frame} :
    (plan.put f x g).isSome = true ↔ g = f ∨ (plan g).isSome = true := by
  by_cases hg : g = f <;> simp [put, hg]

theorem cut_eq_some {y : Place} {g : Frame} :
    plan.cut f g = some y ↔ g ≠ f ∧ plan g = some y := by
  by_cases hg : g = f <;> simp [cut, hg]

theorem isSome_cut {g : Frame} :
    (plan.cut f g).isSome = true ↔ g ≠ f ∧ (plan g).isSome = true := by
  by_cases hg : g = f <;> simp [cut, hg]

/-- A frame is hung where the tree had nothing yet. -/
theorem Fits.fill (h : plan.Fits kernel roots m) (ht : plan t = some ⟨r, path⟩)
    (hLength : path.length < 4) (hBranch : Branches kernel r path i)
    (hKernel : r = kernel → roots = []) (hNew : plan f = none) (hHolds : m.holds f = true)
    (hOld : (m.entry ⟨t, i⟩).target = .ok none) {e : Entry} (hTarget : e.target = .ok (some f))
    (hLink : path.length < 3 → m.entry ⟨t, i⟩ = .empty ∧ e = Entry.compose true .user f ∧
      ∀ j, m.entry ⟨f, j⟩ = .empty) :
    (plan.put f ⟨r, i :: path⟩).Fits kernel roots (m.setEntry ⟨t, i⟩ e) := by
  have hNone := h.notMem_of_empty ht hOld
  refine Edit.fits ⟨ht, hLength, hBranch, hKernel, ?_, ?_, ?_, ?_, ?_⟩ h
  · intro g x hx
    rw [put_eq_some hNew]
    exact ⟨fun hg => hg.resolve_left fun hEq => hx hEq.2.symm, Or.inr⟩
  · intro g
    rw [put_eq_some hNew, hTarget]
    constructor
    · rintro (⟨rfl, -⟩ | hg)
      · rfl
      · exact absurd hg (hNone g)
    · intro hEq
      obtain rfl : f = g := by simpa using hEq
      exact Or.inl ⟨rfl, rfl⟩
  · exact (Entry.target_eq_some.1 hTarget).2.1
  · intro g hg
    rw [hTarget] at hg
    obtain rfl : f = g := by simpa using hg
    exact hHolds
  · intro hShort
    obtain ⟨hEmpty, hEq, hEntries⟩ := hLink hShort
    exact ⟨hEmpty, f, hEq, hTarget, hEntries⟩

/-- A fresh table is linked. -/
theorem Fits.hang (h : plan.Fits kernel roots m) (ht : plan t = some ⟨r, path⟩)
    (hLength : path.length < 3) (hBranch : Branches kernel r path i)
    (hKernel : r = kernel → roots = []) (hNew : plan f = none) (hHolds : m.holds f = true)
    (hEmpty : m.entry ⟨t, i⟩ = .empty) :
    (plan.put f ⟨r, i :: path⟩).Fits kernel roots (m.hang ⟨t, i⟩ f) := by
  have hOld : ∀ {u x}, plan u = some x → ∀ j,
      (m.setTable f .zeroed).entry ⟨u, j⟩ = m.entry ⟨u, j⟩ := by
    intro u x hu j
    rw [Memory.entry_setTable hHolds, if_neg (ne_of_new hNew hu)]
  have hCleared : plan.Fits kernel roots (m.setTable f .zeroed) :=
    h.of_entries (Memory.frames_setTable ..) fun hu _ => hOld hu
  have hNumber := Memory.number_lt_of_holds h.frames_le hHolds
  have hStill : (m.setTable f .zeroed).entry ⟨t, i⟩ = .empty := by rw [hOld ht, hEmpty]
  refine hCleared.fill ht (by omega) hBranch hKernel hNew (by simpa using hHolds) ?_
    (Entry.target_compose true .user rfl (by decide) hNumber) ?_
  · rw [hStill, Entry.target_empty]
  · intro _
    refine ⟨hStill, rfl, fun j => ?_⟩
    rw [Memory.entry_setTable hHolds, if_pos rfl, PageTable.get_zeroed]

theorem branches_of_length (hLength : path.length = 3) : Branches kernel r path i := by
  rintro rfl
  cases hLength

/-- A leaf entry changes its flags, and what it points at stays. -/
theorem Fits.editLeaf (h : plan.Fits kernel roots m) (ht : plan t = some ⟨r, path⟩)
    (hLength : path.length = 3) (hKernel : r = kernel → roots = []) {e : Entry}
    (hSmall : e.flag .pageSize = false) (hTarget : e.target = (m.entry ⟨t, i⟩).target) :
    plan.Fits kernel roots (m.setEntry ⟨t, i⟩ e) := by
  have hHere : ∀ {g}, plan g = some ⟨r, i :: path⟩ ↔ e.target = .ok (some g) := by
    intro g
    rw [hTarget]
    exact ⟨h.target_of_place ht, (h.leaf ht hLength i).2 g⟩
  refine Edit.fits ⟨ht, by omega, branches_of_length hLength, hKernel, fun _ => Iff.rfl, hHere,
    hSmall, fun hg => h.holds (hHere.2 hg), ?_⟩ h
  omega

/-- A leaf entry stops pointing at its page. -/
theorem Fits.cutLeaf (h : plan.Fits kernel roots m) (ht : plan t = some ⟨r, path⟩)
    (hLength : path.length = 3) (hKernel : r = kernel → roots = [])
    (hOld : (m.entry ⟨t, i⟩).target = .ok (some f)) {e : Entry}
    (hSmall : e.flag .pageSize = false) (hTarget : e.target = .ok none) :
    (plan.cut f).Fits kernel roots (m.setEntry ⟨t, i⟩ e) := by
  have hPlace : plan f = some ⟨r, i :: path⟩ := (h.leaf ht hLength i).2 f hOld
  refine Edit.fits ⟨ht, by omega, branches_of_length hLength, hKernel, ?_, ?_, hSmall, ?_, ?_⟩ h
  · intro g x hx
    rw [cut_eq_some]
    refine ⟨And.right, fun hg => ⟨?_, hg⟩⟩
    rintro rfl
    rw [hPlace] at hg
    exact hx (Option.some.inj hg).symm
  · intro g
    rw [cut_eq_some, hTarget]
    refine ⟨fun ⟨hNe, hg⟩ => absurd (h.place_inj hg hPlace) hNe, fun hEq => ?_⟩
    simp at hEq
  · intro g hg
    rw [hTarget] at hg
    simp at hg
  · omega

/-! ## Roots that come and go -/

/-- The plan of a tree that is just its root. -/
theorem put_none_eq_some {x : Place} {g : Frame} :
    put (fun _ => none) f ⟨f, []⟩ g = some x ↔ g = f ∧ x = ⟨f, []⟩ := by
  rw [put_eq_some rfl, eq_comm]
  simp [eq_comm]

theorem fits_kernel (hFrames : m.frames ≤ 2 ^ 40) (hHolds : m.holds kernel = true)
    (hEmpty : ∀ i, m.entry ⟨kernel, i⟩ = .empty) :
    (put (fun _ => none) kernel ⟨kernel, []⟩).Fits kernel [] m where
  frames_le := hFrames
  holds hg := by
    obtain ⟨rfl, -⟩ := put_none_eq_some.1 hg
    exact hHolds
  kernel_place := put_self ..
  kernel_notMem := List.not_mem_nil
  roots_nodup := List.nodup_nil
  root_place hr := absurd hr List.not_mem_nil
  eq_root hg := by
    obtain ⟨rfl, hx⟩ := put_none_eq_some.1 hg
    exact ⟨(Place.mk.inj hx).1.symm, Or.inl (Place.mk.inj hx).1⟩
  length_le hg := by
    obtain ⟨-, hx⟩ := put_none_eq_some.1 hg
    rw [(Place.mk.inj hx).2]
    exact Nat.zero_le 4
  parent hg := by
    obtain ⟨-, hx⟩ := put_none_eq_some.1 hg
    cases (Place.mk.inj hx).2
  link hg _ i _ := by
    obtain ⟨rfl, -⟩ := put_none_eq_some.1 hg
    exact Or.inl (hEmpty i)
  leaf hg _ i := by
    obtain ⟨rfl, -⟩ := put_none_eq_some.1 hg
    rw [hEmpty i]
    simp
  lower i _ := hEmpty i
  upper hr := absurd hr List.not_mem_nil

/-- A copy of the kernel's root table becomes a root. -/
theorem Fits.plant (h : plan.Fits kernel roots m) (hNew : plan f = none) (hHolds : m.holds f = true)
    (hCopy : ∀ i, m.entry ⟨f, i⟩ = m.entry ⟨kernel, i⟩) :
    (plan.put f ⟨f, []⟩).Fits kernel (f :: roots) m := by
  have hOld : ∀ {g x}, plan g = some x → plan.put f ⟨f, []⟩ g = some x :=
    fun hg => (put_eq_some hNew).2 (Or.inr hg)
  have hPut : ∀ {g r path}, plan.put f ⟨f, []⟩ g = some ⟨r, path⟩ →
      (g = f ∧ r = f ∧ path = []) ∨ plan g = some ⟨r, path⟩ := by
    intro g r path hg
    refine ((put_eq_some hNew).1 hg).imp_left fun ⟨hEq, hx⟩ => ⟨hEq, ?_⟩
    simpa [eq_comm] using hx
  have hNe : kernel ≠ f := ne_of_new hNew h.kernel_place
  have hNotMem : f ∉ roots := fun hMem => ne_of_new hNew (h.root_place hMem) rfl
  exact {
    frames_le := h.frames_le
    holds := by
      rintro g ⟨r, path⟩ hg
      rcases hPut hg with ⟨rfl, -, -⟩ | hg
      · exact hHolds
      · exact h.holds hg
    kernel_place := hOld h.kernel_place
    kernel_notMem := by
      rw [List.mem_cons, not_or]
      exact ⟨hNe, h.kernel_notMem⟩
    roots_nodup := List.nodup_cons.2 ⟨hNotMem, h.roots_nodup⟩
    root_place := by
      intro g hg
      rcases List.mem_cons.1 hg with rfl | hg
      · exact put_self ..
      · exact hOld (h.root_place hg)
    eq_root := by
      intro g r hg
      rcases hPut hg with ⟨rfl, rfl, -⟩ | hg
      · exact ⟨rfl, Or.inr List.mem_cons_self⟩
      · obtain ⟨rfl, hRoot⟩ := h.eq_root hg
        exact ⟨rfl, hRoot.imp_right (List.mem_cons_of_mem f)⟩
    length_le := by
      intro g r path hg
      rcases hPut hg with ⟨-, -, rfl⟩ | hg
      · exact Nat.zero_le 4
      · exact h.length_le hg
    parent := by
      intro g r i path hg
      rcases hPut hg with ⟨-, -, hNil⟩ | hg
      · cases hNil
      · obtain ⟨t, ht, hRest⟩ := h.parent hg
        exact ⟨t, hOld ht, hRest⟩
    link := by
      intro g r path hg hLength i hBranch
      rcases hPut hg with ⟨rfl, rfl, rfl⟩ | hg
      · -- The lower half of the kernel's root table, and so of its copy, is empty.
        have hLower : i.val < kernelRootStart := by
          by_contra hLe
          exact hNe ((hBranch rfl).2 (by omega)).symm
        rw [hCopy i]
        exact Or.inl (h.lower i hLower)
      · rcases h.link hg hLength i hBranch with hEmpty | ⟨u, hu, hEq⟩
        · exact Or.inl hEmpty
        · exact Or.inr ⟨u, hOld hu, hEq⟩
    leaf := by
      intro g r path hg hLength i
      rcases hPut hg with ⟨-, -, rfl⟩ | hg
      · cases hLength
      · obtain ⟨hSmall, hPage⟩ := h.leaf hg hLength i
        exact ⟨hSmall, fun u hu => hOld (hPage u hu)⟩
    lower := h.lower
    upper := by
      intro g hg i hi
      rcases List.mem_cons.1 hg with rfl | hg
      · exact hCopy i
      · exact h.upper hg i hi }

def uproot (plan : Plan) (r : Frame) : Plan := fun g => (plan g).filter (·.root ≠ r)

theorem uproot_eq_some {x : Place} {g : Frame} :
    plan.uproot r g = some x ↔ plan g = some x ∧ x.root ≠ r := by
  simp [uproot, Option.filter_eq_some_iff]

/-- The tree of a root goes, and all others stay as they are. -/
theorem Fits.uproot (h : plan.Fits kernel roots m) (hNe : r ≠ kernel) :
    (plan.uproot r).Fits kernel (roots.erase r) m := by
  have hMem : ∀ {g}, g ∈ roots.erase r → g ≠ r ∧ g ∈ roots := by
    intro g hg
    exact h.roots_nodup.mem_erase_iff.1 hg
  exact {
    frames_le := h.frames_le
    holds := fun hg => h.holds (uproot_eq_some.1 hg).1
    kernel_place := uproot_eq_some.2 ⟨h.kernel_place, hNe.symm⟩
    kernel_notMem := fun hg => h.kernel_notMem (hMem hg).2
    roots_nodup := h.roots_nodup.erase r
    root_place := fun hg => uproot_eq_some.2 ⟨h.root_place (hMem hg).2, (hMem hg).1⟩
    eq_root := by
      intro g r' hg
      obtain ⟨hg, hOther⟩ := uproot_eq_some.1 hg
      obtain ⟨rfl, hRoot⟩ := h.eq_root hg
      exact ⟨rfl, hRoot.imp_right fun hIn => h.roots_nodup.mem_erase_iff.2 ⟨hOther, hIn⟩⟩
    length_le := fun hg => h.length_le (uproot_eq_some.1 hg).1
    parent := by
      intro g r' i path hg
      obtain ⟨hg, hOther⟩ := uproot_eq_some.1 hg
      obtain ⟨t, ht, hRest⟩ := h.parent hg
      exact ⟨t, uproot_eq_some.2 ⟨ht, hOther⟩, hRest⟩
    link := by
      intro g r' path hg hLength i hBranch
      obtain ⟨hg, hOther⟩ := uproot_eq_some.1 hg
      rcases h.link hg hLength i hBranch with hEmpty | ⟨u, hu, hEq⟩
      · exact Or.inl hEmpty
      · exact Or.inr ⟨u, uproot_eq_some.2 ⟨hu, hOther⟩, hEq⟩
    leaf := by
      intro g r' path hg hLength i
      obtain ⟨hg, hOther⟩ := uproot_eq_some.1 hg
      obtain ⟨hSmall, hPage⟩ := h.leaf hg hLength i
      exact ⟨hSmall, fun u hu => uproot_eq_some.2 ⟨hPage u hu, hOther⟩⟩
    lower := h.lower
    upper := fun hg => h.upper (hMem hg).2 }

end PagedKernel.Plan
