import PagedKernel.Proofs.Plan.Described

/-!
# Rewriting leaves

The entries of the leaf tables can be rewritten all at once. As long as each of them points at a frame
of the caller or at a page of the trees, and no two at one frame, memory is built as planned again:
tables hang where they hung, and pages hang where the leaves point. The caller gets the frames that no
leaf points at any more.

* `Plan.AtDepth`: the frames that hang at a distance from the roots.
* `Plan.Data`: the frames with bytes of the caller.
* `Plan.Rewritten`: the leaves have been rewritten in this way.
* `Plan.Releafed`: the plan before and after. `Plan.Rewritten.exists_releafed` says that there is one.
* `Plan.Describes.rewritten`: it describes the machine.
-/

namespace PagedKernel.Plan

variable {plan plan' : Plan} {kernel r t u f : Frame} {roots held held' : List Frame} {m m' : Memory}
  {i j : TableIndex} {path : List TableIndex} {x : Place}

def AtDepth (plan : Plan) (n : Nat) (f : Frame) : Prop :=
  ∃ r path, plan f = some ⟨r, path⟩ ∧ path.length = n

theorem not_atDepth (hPlace : plan f = some x) {n : Nat} (hLength : x.path.length ≠ n) :
    ¬ plan.AtDepth n f := by
  rintro ⟨r, path, hf, rfl⟩
  rw [hPlace] at hf
  obtain rfl := Option.some.inj hf
  exact hLength rfl

theorem length_of_atDepth {n : Nat} (h : plan.AtDepth n f) (hPlace : plan f = some x) :
    x.path.length = n := by
  by_contra hLength
  exact not_atDepth hPlace hLength h

/-- The frame has bytes of the caller: the caller holds it, or it is a page. -/
def Data (plan : Plan) (held : List Frame) (f : Frame) : Prop := f ∈ held ∨ plan.AtDepth 4 f

theorem Data.length_eq (h : plan.Data held f) (hHeld : ∀ g ∈ held, plan g = none)
    (hPlace : plan f = some x) : x.path.length = 4 := by
  rcases h with h | h
  · rw [hHeld f h] at hPlace
    cases hPlace
  · exact length_of_atDepth h hPlace

theorem Data.ne_none (h : plan.Data held f) (hHeld : f ∉ held) : plan f ≠ none := by
  obtain ⟨r, path, hPlace, -⟩ := h.resolve_left hHeld
  rw [hPlace]
  exact Option.some_ne_none _

/-- Of all that hangs in the trees the leaf tables alone have been written. Their entries point at
frames of the caller and at pages of the trees, and no two of them at one frame. -/
structure Rewritten (plan : Plan) (held : List Frame) (m m' : Memory) : Prop where
  agree : m.AgreeOn (fun f => ¬ plan.AtDepth 3 f) m'
  small {t : Frame} : plan.AtDepth 3 t → ∀ i, (m'.entry ⟨t, i⟩).flag .pageSize = false
  page {t f : Frame} {i : TableIndex} : plan.AtDepth 3 t →
    (m'.entry ⟨t, i⟩).target = .ok (some f) → f ∈ held ∨ plan.AtDepth 4 f
  once {t u f : Frame} {i j : TableIndex} : plan.AtDepth 3 t → plan.AtDepth 3 u →
    (m'.entry ⟨t, i⟩).target = .ok (some f) → (m'.entry ⟨u, j⟩).target = .ok (some f) →
    (⟨t, i⟩ : Slot) = ⟨u, j⟩

/-- The tables hang where they hung, and the pages where the leaves of the memory point. -/
structure Releafed (plan plan' : Plan) (m' : Memory) : Prop where
  table {f : Frame} {x : Place} : x.path.length ≠ 4 → (plan' f = some x ↔ plan f = some x)
  page {f r : Frame} {i : TableIndex} {path : List TableIndex} : path.length = 3 →
    (plan' f = some ⟨r, i :: path⟩ ↔
      ∃ t, plan t = some ⟨r, path⟩ ∧ (m'.entry ⟨t, i⟩).target = .ok (some f))

def Points (plan : Plan) (m : Memory) (f : Frame) (x : Place) : Prop :=
  ∃ r i path t, x = ⟨r, i :: path⟩ ∧ path.length = 3 ∧ plan t = some ⟨r, path⟩ ∧
    (m.entry ⟨t, i⟩).target = .ok (some f)

theorem length_of_points (h : plan.Points m f x) : x.path.length = 4 := by
  obtain ⟨r, i, path, t, rfl, hLength, -, -⟩ := h
  rw [List.length_cons, hLength]

namespace Rewritten

variable (h : plan.Rewritten held m m')

include h

theorem points_inj {y : Place} (hx : plan.Points m' f x) (hy : plan.Points m' f y) : x = y := by
  obtain ⟨r, i, path, t, rfl, hLength, ht, hTarget⟩ := hx
  obtain ⟨r', j, path', u, rfl, hLength', hu, hTarget'⟩ := hy
  obtain ⟨rfl, rfl⟩ := slot_inj
    (h.once ⟨r, path, ht, hLength⟩ ⟨r', path', hu, hLength'⟩ hTarget hTarget')
  rw [ht] at hu
  obtain ⟨rfl, rfl⟩ : r = r' ∧ path = path' := by simpa using hu
  rfl

/-- What a leaf points at is no table. -/
theorem length_of_place (hNew : ∀ g ∈ held, plan g = none) (hx : plan.Points m' f x) {y : Place}
    (hy : plan f = some y) : y.path.length = 4 := by
  obtain ⟨r, i, path, t, -, hLength, ht, hTarget⟩ := hx
  rcases h.page ⟨r, path, ht, hLength⟩ hTarget with hHeld | hPage
  · rw [hNew f hHeld] at hy
    cases hy
  · exact length_of_atDepth hPage hy

theorem exists_releafed (hNew : ∀ g ∈ held, plan g = none) : ∃ plan', Releafed plan plan' m' := by
  classical
  refine ⟨fun f => if hPoints : ∃ x, plan.Points m' f x then some hPoints.choose
    else (plan f).filter (·.path.length ≠ 4), ?_, ?_⟩
  · intro f x hLength
    by_cases hPoints : ∃ x, plan.Points m' f x
    · have hChosen := hPoints.choose_spec
      rw [dif_pos hPoints]
      refine iff_of_false ?_ fun hf => hLength (h.length_of_place hNew hChosen hf)
      intro hEq
      rw [Option.some.inj hEq] at hChosen
      exact hLength (length_of_points hChosen)
    · rw [dif_neg hPoints, Option.filter_eq_some_iff]
      simp [hLength]
  · intro f r i path hLength
    have hHere : (∃ t, plan t = some ⟨r, path⟩ ∧ (m'.entry ⟨t, i⟩).target = .ok (some f)) ↔
        plan.Points m' f ⟨r, i :: path⟩ := by
      constructor
      · rintro ⟨t, ht, hTarget⟩
        exact ⟨r, i, path, t, rfl, hLength, ht, hTarget⟩
      · rintro ⟨r', j, path', t, hEq, -, ht, hTarget⟩
        obtain ⟨rfl, rfl, rfl⟩ : r = r' ∧ i = j ∧ path = path' := by simpa using hEq
        exact ⟨t, ht, hTarget⟩
    rw [hHere]
    by_cases hPoints : ∃ x, plan.Points m' f x
    · rw [dif_pos hPoints, Option.some.injEq]
      refine ⟨fun hEq => hEq ▸ hPoints.choose_spec, fun hx => ?_⟩
      exact h.points_inj hPoints.choose_spec hx
    · rw [dif_neg hPoints, Option.filter_eq_some_iff]
      refine iff_of_false ?_ fun hx => hPoints ⟨_, hx⟩
      simp [hLength]

theorem entry_eq (hPlace : plan t = some x) (hLength : x.path.length ≠ 3) (i : TableIndex) :
    m'.entry ⟨t, i⟩ = m.entry ⟨t, i⟩ :=
  h.agree.entry (not_atDepth hPlace hLength)

end Rewritten

namespace Releafed

variable (h : Releafed plan plan' m') (hWritten : plan.Rewritten held m m')

include h

omit hWritten in
theorem exists_points (hPlace : plan' f = some x) (hLength : x.path.length = 4) :
    plan.Points m' f x := by
  obtain ⟨r, path⟩ := x
  obtain ⟨i, path, rfl⟩ := List.exists_cons_of_length_eq_add_one hLength
  have hThree : path.length = 3 := by simpa using hLength
  obtain ⟨t, ht, hTarget⟩ := (h.page hThree).1 hPlace
  exact ⟨r, i, path, t, rfl, hThree, ht, hTarget⟩

include hWritten

theorem page_cases (hPlace : plan' f = some x) (hLength : x.path.length = 4) :
    f ∈ held ∨ plan.AtDepth 4 f := by
  obtain ⟨r, i, path, t, -, hThree, ht, hTarget⟩ := h.exists_points hPlace hLength
  exact hWritten.page ⟨r, path, ht, hThree⟩ hTarget

/-- Memory is built as the new plan says. -/
theorem fits (hFits : plan.Fits kernel roots m) (hHeld : ∀ g ∈ held, m.holds g = true) :
    plan'.Fits kernel roots m' where
  frames_le := hWritten.agree.frames_eq ▸ hFits.frames_le
  holds {f x} hf := by
    rw [hWritten.agree.holds]
    by_cases hLength : x.path.length = 4
    · rcases h.page_cases hWritten hf hLength with hCaller | ⟨r, path, hPage, -⟩
      · exact hHeld f hCaller
      · exact hFits.holds hPage
    · exact hFits.holds ((h.table hLength).1 hf)
  kernel_place := (h.table (by simp)).2 hFits.kernel_place
  kernel_notMem := hFits.kernel_notMem
  roots_nodup := hFits.roots_nodup
  root_place hr := (h.table (by simp)).2 (hFits.root_place hr)
  eq_root hf := hFits.eq_root ((h.table (by simp)).1 hf)
  length_le {f r path} hf := by
    by_cases hLength : path.length = 4
    · omega
    · exact hFits.length_le ((h.table hLength).1 hf)
  parent {f r i path} hf := by
    by_cases hLength : path.length = 3
    · obtain ⟨t, ht, hTarget⟩ := (h.page hLength).1 hf
      exact ⟨t, (h.table (by simp [hLength])).2 ht, branches_of_length hLength, hTarget⟩
    · obtain ⟨t, ht, hBranch, hTarget⟩ := hFits.parent ((h.table (by simpa using hLength)).1 hf)
      have hShort := hFits.length_le ((h.table (by simpa using hLength)).1 hf)
      rw [List.length_cons] at hShort
      refine ⟨t, (h.table ?_).2 ht, hBranch, ?_⟩
      · show path.length ≠ 4
        omega
      · rwa [hWritten.entry_eq ht hLength]
  link {t r path} ht hLength i hBranch := by
    have hOld := (h.table (show path.length ≠ 4 by omega)).1 ht
    rw [hWritten.entry_eq hOld (show path.length ≠ 3 by omega)]
    rcases hFits.link hOld hLength i hBranch with hEmpty | ⟨f, hf, hEq⟩
    · exact Or.inl hEmpty
    · refine Or.inr ⟨f, (h.table ?_).2 hf, hEq⟩
      show path.length + 1 ≠ 4
      omega
  leaf {t r path} ht hLength i := by
    have hOld := (h.table (show path.length ≠ 4 by omega)).1 ht
    exact ⟨hWritten.small ⟨r, path, hOld, hLength⟩ i, fun f hf => (h.page hLength).2 ⟨t, hOld, hf⟩⟩
  lower i hi := by
    rw [hWritten.entry_eq hFits.kernel_place (by simp)]
    exact hFits.lower i hi
  upper hr i hi := by
    rw [hWritten.entry_eq hFits.kernel_place (by simp), hWritten.entry_eq (hFits.root_place hr) (by simp)]
    exact hFits.upper hr i hi

/-- The caller has what it had and what was mapped, less what is mapped now. -/
theorem accounts {a : FrameAllocator} (hAccounts : plan.Accounts held m a) (hNodup : held'.Nodup)
    (hMem : ∀ f, f ∈ held' ↔ (f ∈ held ∨ plan.AtDepth 4 f) ∧ ¬ plan'.AtDepth 4 f) :
    plan'.Accounts held' m' a where
  sound := hAccounts.sound.congr rfl rfl hWritten.agree.frames_eq
  held_nodup := hNodup
  mem_inUse {f} := by
    rw [hAccounts.mem_inUse, hMem, Option.isSome_iff_exists, Option.isSome_iff_exists]
    constructor
    · intro hOld
      by_cases hPage : plan'.AtDepth 4 f
      · obtain ⟨r, path, hPlace, -⟩ := hPage
        exact Or.inr ⟨_, hPlace⟩
      · rcases hOld with hHeld | ⟨x, hPlace⟩
        · exact Or.inl ⟨Or.inl hHeld, hPage⟩
        · by_cases hLength : x.path.length = 4
          · exact Or.inl ⟨Or.inr ⟨x.root, x.path, hPlace, hLength⟩, hPage⟩
          · exact Or.inr ⟨x, (h.table hLength).2 hPlace⟩
    · have hPage : plan.AtDepth 4 f → ∃ x, plan f = some x := fun ⟨r, path, hPlace, _⟩ => ⟨_, hPlace⟩
      rintro (⟨hOld, -⟩ | ⟨x, hPlace⟩)
      · exact hOld.imp_right hPage
      · by_cases hLength : x.path.length = 4
        · exact (h.page_cases hWritten hPlace hLength).imp_right hPage
        · exact Or.inr ⟨x, (h.table hLength).1 hPlace⟩
  held_new {f} hf := by
    obtain ⟨hOld, hNotPage⟩ := (hMem f).1 hf
    rw [Option.eq_none_iff_forall_ne_some]
    intro x hPlace
    by_cases hLength : x.path.length = 4
    · exact hNotPage ⟨x.root, x.path, hPlace, hLength⟩
    · have hTable := (h.table hLength).1 hPlace
      rcases hOld with hHeld | hPage
      · rw [hAccounts.held_new hHeld] at hTable
        cases hTable
      · exact hLength (length_of_atDepth hPage hTable)

end Releafed

/-- A machine whose leaves were rewritten has a plan. -/
theorem Describes.rewritten {s s' : Machine} (h : plan.Describes kernel roots held s)
    (hWritten : plan.Rewritten held s.memory s'.memory) (hFrames : s'.frames = s.frames) :
    ∃ plan' : Plan, Releafed plan plan' s'.memory ∧ plan'.Fits kernel roots s'.memory ∧
      ∀ held' : List Frame, held'.Nodup →
        (∀ f, f ∈ held' ↔ (f ∈ held ∨ plan.AtDepth 4 f) ∧ ¬ plan'.AtDepth 4 f) →
        plan'.Describes kernel roots held' s' := by
  obtain ⟨plan', hPlan⟩ := hWritten.exists_releafed fun _ hg => h.accounts.held_new hg
  have hFits := hPlan.fits hWritten h.fits fun _ hg => h.accounts.holds_of_held hg
  refine ⟨plan', hPlan, hFits, fun held' hNodup hMem => ⟨hFits, ?_⟩⟩
  rw [hFrames]
  exact hPlan.accounts hWritten h.accounts hNodup hMem

end PagedKernel.Plan
