import PagedKernel.Proofs.Plan.Edits

/-!
# The plan after a walk made tables

A walk that makes all missing tables hangs one frame after another, each below the one before, along
the path of its address. This is one step of `Plan.Fits.hang` for each frame.

* `Plan.grow`: the plan that comes out. `Plan.grow_eq_some` and `Plan.isSome_grow` say where the
  frames went.
* `Plan.Fits.grow`: memory is built as that plan says.
* `Memory.AgreeOn.grow`: what the new frames held before does not matter.
-/

namespace PagedKernel

namespace Memory

variable {m m' : Memory} {a : VirtualAddress} {level below : Level} {table f : Frame}
  {fs : List Frame}

theorem grow_cons (hNext : level.next? = some below) (m : Memory) :
    m.grow a level table (f :: fs) = (m.hang ⟨table, level.indexOf a⟩ f).grow a below f fs := by
  rw [grow, hNext]

@[simp] theorem frames_grow (m : Memory) : (m.grow a level table fs).frames = m.frames := by
  induction fs generalizing m level table with
  | nil => rfl
  | cons f fs ih =>
    cases hNext : level.next? with
    | none => rw [grow, hNext]
    | some below => rw [grow_cons hNext, ih, frames_hang]

theorem agreeOn_hang (slot : Slot) (hSlot : m.holds slot.table = true) (hHolds : m.holds f = true) :
    AgreeOn (fun g => g ≠ slot.table ∧ g ≠ f) m (m.hang slot f) := by
  have hTable := agreeOn_setTable hHolds .zeroed
  have hEntry := agreeOn_setEntry (m := m.setTable f .zeroed) (s := slot) (by simpa using hSlot)
    (Entry.compose true .user f)
  exact (hTable.mono fun g hg => hg.2).trans (hEntry.mono fun g hg => hg.1)

/-- The growth writes the table where it begins, and the new frames. -/
theorem agreeOn_grow (hTable : m.holds table = true) (hHolds : ∀ g ∈ fs, m.holds g = true) :
    AgreeOn (fun g => g ≠ table ∧ g ∉ fs) m (m.grow a level table fs) := by
  induction fs generalizing m level table with
  | nil => exact AgreeOn.refl _ m
  | cons f fs ih =>
    cases hNext : level.next? with
    | none =>
      rw [grow, hNext]
      exact AgreeOn.refl _ m
    | some below =>
      have hHang := agreeOn_hang ⟨table, level.indexOf a⟩ hTable (hHolds f List.mem_cons_self)
      have hRest : AgreeOn _ _ ((m.hang ⟨table, level.indexOf a⟩ f).grow a below f fs) :=
        ih (by simpa using hHolds f List.mem_cons_self) fun g hg => by
          simpa using hHolds g (List.mem_cons_of_mem f hg)
      rw [grow_cons hNext]
      refine (hHang.mono fun g hg => ⟨hg.1, fun hEq => hg.2 ?_⟩).trans
        (hRest.mono fun g hg => ⟨fun hEq => hg.2 ?_, fun hMem => hg.2 (List.mem_cons_of_mem f hMem)⟩)
      · exact hEq ▸ List.mem_cons_self
      · exact hEq ▸ List.mem_cons_self

theorem entry_grow_last (hNext : level.next? = some below) (hTable : m.holds table = true)
    (hHolds : ∀ g ∈ f :: fs, m.holds g = true) (hNodup : (table :: f :: fs).Nodup)
    (hLength : fs.length = below.height) (j : TableIndex) :
    (m.grow a level table (f :: fs)).entry ⟨fs.getLastD f, j⟩ = .empty := by
  induction fs generalizing m level below table f with
  | nil =>
    have hNe : (⟨f, j⟩ : Slot) ≠ ⟨table, level.indexOf a⟩ := by
      rintro hEq
      simp_all [Plan.slot_inj hEq]
    rw [grow_cons hNext, grow, List.getLastD_nil,
      entry_hang ⟨table, level.indexOf a⟩ hTable (hHolds f List.mem_cons_self), if_neg hNe, if_pos rfl]
  | cons g gs ih =>
    rw [List.length_cons] at hLength
    have hPos : 0 < below.height := by omega
    obtain ⟨next, hBelow⟩ := Level.exists_next? (Level.ne_pt_of_height hPos)
    have hHeight := Level.height_of_next? hBelow
    rw [grow_cons hNext, List.getLastD_cons]
    refine ih hBelow ?_ (fun u hu => ?_) (List.nodup_cons.1 hNodup).2 (by omega)
    · simpa using hHolds f List.mem_cons_self
    · simpa using hHolds u (List.mem_cons_of_mem f hu)

/-- What the new frames held before does not matter. -/
theorem AgreeOn.grow (h : AgreeOn (· ∉ fs) m m') (hTable : m.holds table = true)
    (hHolds : ∀ g ∈ fs, m.holds g = true) (hLength : fs.length ≤ level.height) :
    m'.grow a level table fs = m.grow a level table fs := by
  induction fs generalizing m m' level table with
  | nil => exact (h.mono fun g _ => List.not_mem_nil).eq
  | cons f fs ih =>
    rw [List.length_cons] at hLength
    have hPos : 0 < level.height := by omega
    obtain ⟨below, hNext⟩ := Level.exists_next? (Level.ne_pt_of_height hPos)
    have hHeight := Level.height_of_next? hNext
    have hFirst := hHolds f List.mem_cons_self
    rw [grow_cons hNext, grow_cons hNext]
    refine ih ?_ (by simpa using hFirst) (fun g hg => ?_) (by omega)
    · refine AgreeOn.setEntry (AgreeOn.setTable (h.mono fun g hg => ?_) hFirst .zeroed)
        (by simpa using hTable) _
      rw [List.mem_cons, not_or]
      exact ⟨hg.2, hg.1⟩
    · simpa using hHolds g (List.mem_cons_of_mem f hg)

end Memory

namespace Plan

/-- The plan after the tables that `a` lacks below a level were hung, in the frames `fs`. -/
def grow (r : Frame) (a : VirtualAddress) : Level → List Frame → Plan → Plan
  | _, [], plan => plan
  | level, f :: fs, plan =>
    match level.next? with
    | some below => grow r a below fs (plan.put f ⟨r, a.pathTo below⟩)
    | none => plan

variable {plan : Plan} {kernel r table f : Frame} {roots fs : List Frame} {m : Memory}
  {a : VirtualAddress} {level below : Level}

theorem grow_cons (hNext : level.next? = some below) :
    plan.grow r a level (f :: fs) = (plan.put f ⟨r, a.pathTo below⟩).grow r a below fs := by
  rw [grow, hNext]

theorem put_new {x : Place} (hFs : (f :: fs).Nodup) (hNew : ∀ g ∈ f :: fs, plan g = none) :
    ∀ g ∈ fs, plan.put f x g = none := by
  intro g hg
  have hNe : g ≠ f := by
    rintro rfl
    exact (List.nodup_cons.1 hFs).1 hg
  rw [put_of_ne hNe]
  exact hNew g (List.mem_cons_of_mem f hg)

/-- Every frame of the new plan was there before, or is new and hangs on the way of `a`. -/
theorem grow_eq_some (hFs : fs.Nodup) (hNew : ∀ g ∈ fs, plan g = none) {g : Frame} {x : Place}
    (hg : plan.grow r a level fs g = some x) :
    plan g = some x ∨ g ∈ fs ∧ ∃ l : Level, level.depth < l.depth ∧ x = ⟨r, a.pathTo l⟩ := by
  induction fs generalizing plan level with
  | nil => exact Or.inl hg
  | cons f fs ih =>
    cases hNext : level.next? with
    | none =>
      rw [grow, hNext] at hg
      exact Or.inl hg
    | some below =>
      have hDepth := Level.depth_of_next? hNext
      rw [grow_cons hNext] at hg
      rcases ih (List.nodup_cons.1 hFs).2 (put_new hFs hNew) hg with hPut | ⟨hMem, l, hl, hx⟩
      · rcases (put_eq_some (hNew f List.mem_cons_self)).1 hPut with ⟨rfl, hx⟩ | hOld
        · exact Or.inr ⟨List.mem_cons_self, below, by omega, hx.symm⟩
        · exact Or.inl hOld
      · exact Or.inr ⟨List.mem_cons_of_mem f hMem, l, by omega, hx⟩

theorem grow_of_eq_some (hFs : fs.Nodup) (hNew : ∀ g ∈ fs, plan g = none) {g : Frame} {x : Place}
    (hg : plan g = some x) : plan.grow r a level fs g = some x := by
  induction fs generalizing plan level with
  | nil => exact hg
  | cons f fs ih =>
    cases hNext : level.next? with
    | none => rwa [grow, hNext]
    | some below =>
      rw [grow_cons hNext]
      refine ih (List.nodup_cons.1 hFs).2 (put_new hFs hNew) ?_
      exact (put_eq_some (hNew f List.mem_cons_self)).2 (Or.inr hg)

theorem isSome_grow (hLength : fs.length ≤ level.height) {g : Frame} :
    (plan.grow r a level fs g).isSome = true ↔ g ∈ fs ∨ (plan g).isSome = true := by
  induction fs generalizing plan level with
  | nil => simp [grow]
  | cons f fs ih =>
    rw [List.length_cons] at hLength
    have hPos : 0 < level.height := by omega
    obtain ⟨below, hNext⟩ := Level.exists_next? (Level.ne_pt_of_height hPos)
    have hHeight := Level.height_of_next? hNext
    rw [grow_cons hNext, ih (by omega), isSome_put, List.mem_cons]
    tauto

/-- The last frame is the leaf table. -/
theorem grow_leaf (hFs : fs.Nodup) (hNew : ∀ g ∈ fs, plan g = none)
    (hTable : plan table = some ⟨r, a.pathTo level⟩) (hLength : fs.length = level.height) :
    plan.grow r a level fs (fs.getLastD table) = some ⟨r, a.pathTo .pt⟩ := by
  induction fs generalizing plan level table with
  | nil =>
    obtain rfl := Level.height_eq_zero.1 hLength.symm
    exact hTable
  | cons f fs ih =>
    rw [List.length_cons] at hLength
    have hPos : 0 < level.height := by omega
    obtain ⟨below, hNext⟩ := Level.exists_next? (Level.ne_pt_of_height hPos)
    have hHeight := Level.height_of_next? hNext
    rw [grow_cons hNext, List.getLastD_cons]
    exact ih (List.nodup_cons.1 hFs).2 (put_new hFs hNew) (put_self ..) (by omega)

/-- Memory is built as the plan says after all missing tables were made. -/
theorem Fits.grow (h : plan.Fits kernel roots m) (hHalf : OwnHalf kernel r a)
    (hKernel : r = kernel → roots = []) (hTable : plan table = some ⟨r, a.pathTo level⟩)
    (hEmpty : level ≠ .pt → m.entry ⟨table, level.indexOf a⟩ = .empty) (hFs : fs.Nodup)
    (hNew : ∀ g ∈ fs, plan g = none) (hHolds : ∀ g ∈ fs, m.holds g = true) :
    (plan.grow r a level fs).Fits kernel roots (m.grow a level table fs) := by
  induction fs generalizing plan m level table with
  | nil => exact h
  | cons f fs ih =>
    cases hNext : level.next? with
    | none =>
      rw [Plan.grow, Memory.grow, hNext]
      exact h
    | some below =>
      have hLevel := Level.ne_pt_of_next? hNext
      have hFirst := hHolds f List.mem_cons_self
      have hNone := hNew f List.mem_cons_self
      have hLength := a.length_pathTo_lt_of_next? hNext
      have hHang := h.hang hTable hLength (hHalf.branches level) hKernel hNone hFirst (hEmpty hLevel)
      rw [← VirtualAddress.pathTo_of_next? hNext] at hHang
      rw [grow_cons hNext, Memory.grow_cons hNext]
      refine ih hHang (put_self ..) (fun _ => ?_) (List.nodup_cons.1 hFs).2 (put_new hFs hNew)
        fun g hg => by simpa using hHolds g (List.mem_cons_of_mem f hg)
      have hSlot : (⟨f, below.indexOf a⟩ : Slot) ≠ ⟨table, level.indexOf a⟩ :=
        fun hEq => ne_of_new hNone hTable (slot_inj hEq).1.symm
      rw [Memory.entry_hang ⟨table, level.indexOf a⟩ (h.holds hTable) hFirst, if_neg hSlot,
        if_pos rfl]

end Plan

end PagedKernel
