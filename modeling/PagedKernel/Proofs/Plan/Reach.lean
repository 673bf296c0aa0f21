import PagedKernel.Proofs.Plan.Edits

/-!
# What the trees reach

Following present entries from a root along a path of indices leads to a frame. In a memory that is
built as planned this is the frame that the plan has there, as long as the path starts in the half of
the root table that belongs to the root. In the other half every root has what the kernel has.

* `Memory.Leads`: present entries lead along a path.
* `Plan.Fits.small`, `Plan.Fits.exists_target`: no entry of a tree is a huge page.
* `Plan.Fits.leads_iff`: paths lead where the plan says.
* `Plan.Fits.leads_upper`: what the upper halves have in common.
* `Plan.Fits.leads_inj`: no frame of an address space is reached in two ways.
-/

namespace PagedKernel

/-- Present entries lead from a root along a path, the last index first, to a frame. -/
inductive Memory.Leads (m : Memory) (root : Frame) : List TableIndex → Frame → Prop
  | root : Leads m root [] root
  | entry {path : List TableIndex} {t f : Frame} {i : TableIndex} (above : Leads m root path t)
      (hLength : path.length < 4) (hTarget : (m.entry ⟨t, i⟩).target = .ok (some f)) :
      Leads m root (i :: path) f

theorem Memory.Leads.unique {m : Memory} {root f g : Frame} {path : List TableIndex}
    (hf : m.Leads root path f) (hg : m.Leads root path g) : f = g := by
  induction hf generalizing g with
  | root =>
    cases hg
    rfl
  | entry _ _ hTarget ih =>
    cases hg with
    | entry hAbove _ hTarget' =>
      rw [← ih hAbove, hTarget] at hTarget'
      simpa using hTarget'

theorem Memory.Leads.above {m : Memory} {root f : Frame} {path path' : List TableIndex}
    (h : m.Leads root path f) (hSuffix : path' <:+ path) : ∃ t, m.Leads root path' t := by
  induction h with
  | root =>
    rw [List.suffix_nil.1 hSuffix]
    exact ⟨root, .root⟩
  | entry hAbove hLength hTarget ih =>
    rcases List.suffix_cons_iff.1 hSuffix with rfl | hSuffix
    · exact ⟨_, .entry hAbove hLength hTarget⟩
    · exact ih hSuffix

theorem Memory.Leads.target {m : Memory} {root t f : Frame} {path : List TableIndex} {i : TableIndex}
    (h : m.Leads root (i :: path) f) (ht : m.Leads root path t) :
    (m.entry ⟨t, i⟩).target = .ok (some f) := by
  cases h with
  | entry hAbove _ hTarget =>
    rwa [← hAbove.unique ht]

/-- The path starts in the half of the root table that belongs to the tree of `r` itself. -/
def OwnPath (kernel r : Frame) (path : List TableIndex) : Prop :=
  ∀ i ∈ path.getLast?, r = kernel ↔ kernelRootStart ≤ i.val

theorem ownPath_cons {kernel r : Frame} {path : List TableIndex} {i : TableIndex} :
    OwnPath kernel r (i :: path) ↔ Branches kernel r path i ∧ OwnPath kernel r path := by
  cases path with
  | nil => simp [OwnPath, Branches]
  | cons j path => simp [OwnPath, Branches, List.getLast?_cons_cons]

namespace Plan.Fits

variable {plan : Plan} {kernel r r' t f : Frame} {roots : List Frame} {m : Memory}
  {path path' : List TableIndex} {i : TableIndex}

theorem ownPath_iff (h : plan.Fits kernel roots m) (hr : r ∈ roots) :
    OwnPath kernel r path ↔ InUserHalf path := by
  simp [OwnPath, InUserHalf, h.ne_kernel hr]

theorem ownPath_kernel : OwnPath kernel kernel path ↔ InKernelHalf path := by
  simp [OwnPath, InKernelHalf]

theorem ownPath (h : plan.Fits kernel roots m) (hPlace : plan f = some ⟨r, path⟩) :
    OwnPath kernel r path := by
  induction path generalizing f with
  | nil => simp [OwnPath]
  | cons i path ih =>
    obtain ⟨t, ht, hBranch, -⟩ := h.parent hPlace
    exact ownPath_cons.2 ⟨hBranch, ih ht⟩

theorem root_of_place (h : plan.Fits kernel roots m) (hPlace : plan f = some ⟨r, path⟩) :
    plan r = some ⟨r, []⟩ ∧ (r = kernel ∨ r ∈ roots) := by
  induction path generalizing f with
  | nil =>
    obtain ⟨rfl, hRoot⟩ := h.eq_root hPlace
    exact ⟨hPlace, hRoot⟩
  | cons i path ih =>
    obtain ⟨t, ht, -, -⟩ := h.parent hPlace
    exact ih ht

theorem place_of_root (h : plan.Fits kernel roots m) (hr : r = kernel ∨ r ∈ roots) :
    plan r = some ⟨r, []⟩ := by
  rcases hr with rfl | hr
  · exact h.kernel_place
  · exact h.root_place hr

theorem place_of_target (h : plan.Fits kernel roots m) (ht : plan t = some ⟨r, path⟩)
    (hLength : path.length < 4) (hBranch : Branches kernel r path i)
    (hTarget : (m.entry ⟨t, i⟩).target = .ok (some f)) : plan f = some ⟨r, i :: path⟩ := by
  by_cases hLeaf : path.length = 3
  · exact (h.leaf ht hLeaf i).2 f hTarget
  · rcases h.link_target ht (by omega) hBranch with hEmpty | ⟨g, hg, hTarget'⟩
    · rw [hEmpty, Entry.target_empty] at hTarget
      simp at hTarget
    · rw [hTarget] at hTarget'
      obtain rfl : f = g := by simpa using hTarget'
      exact hg

theorem small (h : plan.Fits kernel roots m) (ht : plan t = some ⟨r, path⟩)
    (hLength : path.length < 4) (hBranch : Branches kernel r path i) :
    (m.entry ⟨t, i⟩).flag .pageSize = false := by
  by_cases hLeaf : path.length = 3
  · exact (h.leaf ht hLeaf i).1
  · rcases h.link ht (by omega) i hBranch with hEmpty | ⟨g, -, hEq⟩
    · rw [hEmpty, Entry.flag_empty]
    · rw [hEq, Entry.flag_compose true rfl (by decide)]
      rfl

theorem exists_target (h : plan.Fits kernel roots m) (ht : plan t = some ⟨r, path⟩)
    (hLength : path.length < 4) (hBranch : Branches kernel r path i) :
    ∃ o, (m.entry ⟨t, i⟩).target = .ok o ∧ ∀ f, o = some f → plan f = some ⟨r, i :: path⟩ := by
  refine ⟨_, Entry.target_of_not_huge (h.small ht hLength hBranch), fun f hf => ?_⟩
  refine h.place_of_target ht hLength hBranch ?_
  rw [Entry.target_of_not_huge (h.small ht hLength hBranch), hf]

/-- Paths lead where the plan says. -/
theorem leads_iff (h : plan.Fits kernel roots m) (hr : r = kernel ∨ r ∈ roots) :
    m.Leads r path f ∧ OwnPath kernel r path ↔ plan f = some ⟨r, path⟩ := by
  constructor
  · rintro ⟨hLeads, hOwn⟩
    induction hLeads with
    | root => exact h.place_of_root hr
    | entry _ hLength hTarget ih =>
      obtain ⟨hBranch, hOwn⟩ := ownPath_cons.1 hOwn
      exact h.place_of_target (ih hOwn) hLength hBranch hTarget
  · intro hPlace
    refine ⟨?_, h.ownPath hPlace⟩
    induction path generalizing f with
    | nil =>
      rw [(h.eq_root hPlace).1]
      exact .root
    | cons i path ih =>
      obtain ⟨t, ht, -, hTarget⟩ := h.parent hPlace
      have hLength := h.length_le hPlace
      rw [List.length_cons] at hLength
      exact .entry (ih ht) (by omega) hTarget

/-- An entry of a table is empty, or it belongs to a tree: that of the table itself, or the kernel's,
which every root repeats. -/
theorem entry_cases (h : plan.Fits kernel roots m) (ht : plan t = some ⟨r, path⟩) (i : TableIndex) :
    m.entry ⟨t, i⟩ = .empty ∨
      ∃ u r', plan u = some ⟨r', path⟩ ∧ Branches kernel r' path i ∧
        m.entry ⟨t, i⟩ = m.entry ⟨u, i⟩ := by
  by_cases hBranch : Branches kernel r path i
  · exact Or.inr ⟨t, r, ht, hBranch, rfl⟩
  · obtain ⟨rfl, hHalf⟩ : path = [] ∧ ¬ (r = kernel ↔ kernelRootStart ≤ i.val) := by
      simpa [Branches] using hBranch
    obtain ⟨rfl, hRoot⟩ := h.eq_root ht
    by_cases hUpper : kernelRootStart ≤ i.val
    · have hr : t ∈ roots := hRoot.resolve_left fun hEq => hHalf (iff_of_true hEq hUpper)
      exact Or.inr ⟨kernel, kernel, h.kernel_place, fun _ => iff_of_true rfl hUpper,
        h.upper hr i hUpper⟩
    · have hEq : t = kernel := by
        by_contra hNe
        exact hHalf (iff_of_false hNe hUpper)
      rw [hEq]
      exact Or.inl (h.lower i (Nat.lt_of_not_le hUpper))

theorem small_of_place (h : plan.Fits kernel roots m) (ht : plan t = some ⟨r, path⟩)
    (hLength : path.length < 4) (i : TableIndex) : (m.entry ⟨t, i⟩).flag .pageSize = false := by
  rcases h.entry_cases ht i with hEmpty | ⟨u, r', hu, hBranch, hEq⟩
  · rw [hEmpty, Entry.flag_empty]
  · rw [hEq]
    exact h.small hu hLength hBranch

/-- Whatever an entry points at hangs one step further down. -/
theorem exists_place_of_target (h : plan.Fits kernel roots m) (ht : plan t = some ⟨r, path⟩)
    (hLength : path.length < 4) (hTarget : (m.entry ⟨t, i⟩).target = .ok (some f)) :
    ∃ r', plan f = some ⟨r', i :: path⟩ := by
  rcases h.entry_cases ht i with hEmpty | ⟨u, r', hu, hBranch, hEq⟩
  · rw [hEmpty, Entry.target_empty] at hTarget
    cases hTarget
  · rw [hEq] at hTarget
    exact ⟨r', h.place_of_target hu hLength hBranch hTarget⟩

/-- The upper half of every root leads where that of the kernel does. -/
theorem leads_upper (h : plan.Fits kernel roots m) (hr : r ∈ roots) (hUpper : InKernelHalf path)
    (hPath : path ≠ []) (hLeads : m.Leads r path f) : plan f = some ⟨kernel, path⟩ := by
  refine (h.leads_iff (Or.inl rfl)).1 ⟨?_, ownPath_kernel.2 hUpper⟩
  induction hLeads with
  | root => exact absurd rfl hPath
  | @entry path t f i above hLength hTarget ih =>
    -- Only the first entry is in the root itself, where it is the same as the kernel's.
    cases path with
    | nil =>
      cases above
      have hIndex : kernelRootStart ≤ i.val := hUpper i rfl
      rw [h.upper hr i hIndex] at hTarget
      exact .entry .root hLength hTarget
    | cons j path =>
      have hAbove : InKernelHalf (j :: path) := by
        intro l hl
        exact hUpper l (by rwa [List.getLast?_cons_cons])
      exact .entry (ih hAbove (List.cons_ne_nil j path)) hLength hTarget

/-- The lower half of the kernel's root leads nowhere. -/
theorem inKernelHalf_of_leads (h : plan.Fits kernel roots m) (hLeads : m.Leads kernel path f) :
    InKernelHalf path := by
  induction hLeads with
  | root => simp [InKernelHalf]
  | @entry path t f i above hLength hTarget ih =>
    cases path with
    | nil =>
      cases above
      intro j hj
      obtain rfl : i = j := Option.some.inj hj
      by_contra hLower
      rw [h.lower i (by omega), Entry.target_empty] at hTarget
      simp at hTarget
    | cons j path =>
      intro l hl
      rw [List.getLast?_cons_cons] at hl
      exact ih l hl

/-- Whatever is reached from a root hangs in its own tree, or in the kernel's. -/
theorem place_of_leads (h : plan.Fits kernel roots m) (hr : r = kernel ∨ r ∈ roots)
    (hLeads : m.Leads r path f) : plan f = some ⟨r, path⟩ ∨ plan f = some ⟨kernel, path⟩ := by
  by_cases hUpper : InKernelHalf path ∧ path ≠ []
  · rcases hr with rfl | hr
    · exact Or.inl ((h.leads_iff (Or.inl rfl)).1 ⟨hLeads, ownPath_kernel.2 hUpper.1⟩)
    · exact Or.inr (h.leads_upper hr hUpper.1 hUpper.2 hLeads)
  · refine Or.inl ((h.leads_iff hr).1 ⟨hLeads, ?_⟩)
    intro i hi
    have hPath : path ≠ [] := by
      rintro rfl
      cases hi
    have hLower : i.val < kernelRootStart := by
      by_contra hLe
      refine hUpper ⟨fun j hj => ?_, hPath⟩
      obtain rfl : i = j := Option.some.inj (hi.symm.trans hj)
      omega
    refine ⟨?_, fun hLe => absurd hLe (by omega)⟩
    rintro rfl
    exact absurd (h.inKernelHalf_of_leads hLeads i hi) (by omega)

/-- So the plan has a place for it, with the path that leads there. -/
theorem exists_place_of_leads (h : plan.Fits kernel roots m) (hr : r = kernel ∨ r ∈ roots)
    (hLeads : m.Leads r path f) : ∃ r', plan f = some ⟨r', path⟩ := by
  rcases h.place_of_leads hr hLeads with hPlace | hPlace
  · exact ⟨_, hPlace⟩
  · exact ⟨_, hPlace⟩

/-- A frame of an address space is reached in one way: no other path, of this space, of another one or
of the kernel, leads to it. -/
theorem leads_inj (h : plan.Fits kernel roots m) (hr : r ∈ roots) (hUser : InUserHalf path)
    (hLeads : m.Leads r path f) (hr' : r' = kernel ∨ r' ∈ roots) (hLeads' : m.Leads r' path' f) :
    r' = r ∧ path' = path := by
  have hPlace : plan f = some ⟨r, path⟩ :=
    (h.leads_iff (Or.inr hr)).1 ⟨hLeads, (h.ownPath_iff hr).2 hUser⟩
  rcases h.place_of_leads hr' hLeads' with hPlace' | hPlace'
  · rw [hPlace] at hPlace'
    simpa [eq_comm] using hPlace'
  · rw [hPlace] at hPlace'
    obtain ⟨rfl, -⟩ : r = kernel ∧ path = path' := by simpa using hPlace'
    exact absurd hr h.kernel_notMem

end Plan.Fits

end PagedKernel
