import PagedKernel.Proofs.Plan.Edits

/-!
# Who has the frames

Every frame is free or in use, and a frame in use hangs in a tree or is held by the caller: never
both, and never neither. The trees and the caller trade frames with the allocator, and with each
other when a page is mapped or unmapped.

* `FrameAllocator.Sound`: no frame is listed twice.
* `Plan.Accounts`: the frames in use are those of the plan and those that the caller holds.
* `Accounts.serve`, `Accounts.release`: the trees trade with the allocator.
* `Accounts.take`, `Accounts.give`: the caller does.
* `Accounts.giveUp`, `Accounts.takeBack`: the caller trades with the trees.
-/

namespace PagedKernel

namespace FrameAllocator

/-- The frames of the allocator lie in memory, and none is listed twice. -/
structure Sound (a : FrameAllocator) (m : Memory) : Prop where
  free_holds {f : Frame} : f ∈ a.free → m.holds f = true
  inUse_holds {f : Frame} : f ∈ a.inUse → m.holds f = true
  free_nodup : a.free.Nodup
  inUse_nodup : a.inUse.Nodup
  free_new {f : Frame} : f ∈ a.free → f ∉ a.inUse

variable {a a' : FrameAllocator} {m m' : Memory} {f : Frame} {fs : List Frame} {n : Nat}

theorem mem_inUse_serve : f ∈ (a.serve n).inUse ↔ f ∈ a.free.take n ∨ f ∈ a.inUse := by
  simp [serve]

theorem mem_inUse_releaseAll (h : a.Sound m) :
    f ∈ (a.releaseAll fs).inUse ↔ f ∈ a.inUse ∧ f ∉ fs :=
  h.inUse_nodup.mem_sdiff_iff

theorem Sound.congr (h : a.Sound m) (hFree : a'.free = a.free) (hUse : a'.inUse = a.inUse)
    (hFrames : m'.frames = m.frames) : a'.Sound m' := by
  have hHolds : ∀ {g}, m.holds g = true → m'.holds g = true := by
    intro g hg
    rwa [Memory.holds, hFrames]
  refine ⟨fun hf => hHolds (h.free_holds (hFree ▸ hf)), fun hf => hHolds (h.inUse_holds (hUse ▸ hf)),
    hFree ▸ h.free_nodup, hUse ▸ h.inUse_nodup, fun hf => ?_⟩
  rw [hUse]
  exact h.free_new (hFree ▸ hf)

theorem Sound.serve (h : a.Sound m) (n : Nat) : (a.serve n).Sound m := by
  have hSplit := List.nodup_append'.1 (List.take_append_drop n a.free ▸ h.free_nodup)
  refine ⟨fun hf => h.free_holds (List.mem_of_mem_drop hf), fun hf => ?_,
    h.free_nodup.sublist (List.drop_sublist n a.free), ?_, fun hf hUse => ?_⟩
  · rcases mem_inUse_serve.1 hf with hNew | hOld
    · exact h.free_holds (List.mem_of_mem_take hNew)
    · exact h.inUse_holds hOld
  · refine List.nodup_append'.2 ⟨List.nodup_reverse.2 hSplit.1, h.inUse_nodup, fun g hg => ?_⟩
    exact h.free_new (List.mem_of_mem_take (List.mem_reverse.1 hg))
  · rcases mem_inUse_serve.1 hUse with hNew | hOld
    · exact hSplit.2.2 hNew hf
    · exact h.free_new (List.mem_of_mem_drop hf) hOld

theorem Sound.releaseAll (h : a.Sound m) (hFs : fs.Nodup) (hUse : ∀ f ∈ fs, f ∈ a.inUse) :
    (a.releaseAll fs).Sound m := by
  have hFree : ∀ {g}, g ∈ (a.releaseAll fs).free ↔ g ∈ fs ∨ g ∈ a.free := by
    simp [FrameAllocator.releaseAll]
  refine ⟨fun hf => ?_, fun hf => h.inUse_holds ((mem_inUse_releaseAll h).1 hf).1, ?_,
    h.inUse_nodup.diff, fun hf hStill => ?_⟩
  · rcases hFree.1 hf with hBack | hOld
    · exact h.inUse_holds (hUse _ hBack)
    · exact h.free_holds hOld
  · refine List.nodup_append'.2 ⟨List.nodup_reverse.2 hFs, h.free_nodup, fun g hg hOld => ?_⟩
    exact h.free_new hOld (hUse g (List.mem_reverse.1 hg))
  · obtain ⟨hIn, hNot⟩ := (mem_inUse_releaseAll h).1 hStill
    exact h.free_new ((hFree.1 hf).resolve_left hNot) hIn

end FrameAllocator

namespace Plan

/-- The frames in use are those that hang in the trees and those that the caller holds. -/
structure Accounts (plan : Plan) (held : List Frame) (m : Memory) (a : FrameAllocator) : Prop where
  sound : a.Sound m
  mem_inUse {f : Frame} : f ∈ a.inUse ↔ f ∈ held ∨ (plan f).isSome = true
  held_nodup : held.Nodup
  held_new {f : Frame} : f ∈ held → plan f = none

namespace Accounts

variable {plan : Plan} {held fs : List Frame} {m m' : Memory} {a a' : FrameAllocator} {f r : Frame}
  {x : Place}

theorem new_of_free (h : plan.Accounts held m a) (hf : f ∈ a.free) : plan f = none := by
  rw [← Option.not_isSome_iff_eq_none]
  intro hSome
  exact h.sound.free_new hf (h.mem_inUse.2 (Or.inr hSome))

theorem notMem_free (h : plan.Accounts held m a) (hf : plan f = some x) : f ∉ a.free := by
  intro hFree
  rw [h.new_of_free hFree] at hf
  cases hf

theorem notHeld_of_free (h : plan.Accounts held m a) (hf : f ∈ a.free) : f ∉ held :=
  fun hHeld => h.sound.free_new hf (h.mem_inUse.2 (Or.inl hHeld))

theorem holds_of_held (h : plan.Accounts held m a) (hf : f ∈ held) : m.holds f = true :=
  h.sound.inUse_holds (h.mem_inUse.2 (Or.inl hf))

theorem congr (h : plan.Accounts held m a) (hFree : a'.free = a.free) (hUse : a'.inUse = a.inUse)
    (hFrames : m'.frames = m.frames) : plan.Accounts held m' a' := by
  refine ⟨h.sound.congr hFree hUse hFrames, ?_, h.held_nodup, h.held_new⟩
  rw [hUse]
  exact h.mem_inUse

theorem perm (h : plan.Accounts held m a) {held' : List Frame} (hPerm : held.Perm held') :
    plan.Accounts held' m a := by
  refine ⟨h.sound, fun {g} => ?_, hPerm.nodup_iff.1 h.held_nodup, fun hg => h.held_new (hPerm.mem_iff.2 hg)⟩
  rw [h.mem_inUse, hPerm.mem_iff]

/-- Frames come from the allocator into the trees. -/
theorem serve (h : plan.Accounts held m a) (plan' : Plan) (n : Nat)
    (hSome : ∀ g, (plan' g).isSome = true ↔ g ∈ a.free.take n ∨ (plan g).isSome = true) :
    plan'.Accounts held m (a.serve n) := by
  refine ⟨h.sound.serve n, ?_, h.held_nodup, ?_⟩
  · intro g
    rw [FrameAllocator.mem_inUse_serve, h.mem_inUse, hSome]
    tauto
  · intro g hg
    rw [← Option.not_isSome_iff_eq_none, hSome, h.held_new hg]
    rintro (hFree | hSome)
    · exact h.notHeld_of_free (List.mem_of_mem_take hFree) hg
    · cases hSome

/-- Frames go from the trees back to the allocator. -/
theorem release (h : plan.Accounts held m a) {plan' : Plan} (hFs : fs.Nodup)
    (hPlanned : ∀ g ∈ fs, (plan g).isSome = true)
    (hSome : ∀ g, (plan' g).isSome = true ↔ (plan g).isSome = true ∧ g ∉ fs) :
    plan'.Accounts held m (a.releaseAll fs) := by
  refine ⟨h.sound.releaseAll hFs fun g hg => h.mem_inUse.2 (Or.inr (hPlanned g hg)), ?_,
    h.held_nodup, ?_⟩
  · intro g
    have hHeld : g ∈ held → g ∉ fs := by
      intro hg hMem
      have hPlan := hPlanned g hMem
      rw [h.held_new hg] at hPlan
      cases hPlan
    rw [FrameAllocator.mem_inUse_releaseAll h.sound, h.mem_inUse, hSome]
    tauto
  · intro g hg
    rw [← Option.not_isSome_iff_eq_none, hSome, h.held_new hg]
    simp

theorem take (h : plan.Accounts held m a) {rest : List Frame} (hFree : a.free = f :: rest) :
    plan.Accounts (f :: held) m (a.serve 1) := by
  have hMem : f ∈ a.free := hFree ▸ List.mem_cons_self
  refine ⟨h.sound.serve 1, ?_, List.nodup_cons.2 ⟨h.notHeld_of_free hMem, h.held_nodup⟩, ?_⟩
  · intro g
    rw [FrameAllocator.mem_inUse_serve, hFree, h.mem_inUse, List.mem_cons]
    simp [or_assoc]
  · intro g hg
    rcases List.mem_cons.1 hg with rfl | hg
    · exact h.new_of_free hMem
    · exact h.held_new hg

theorem give (h : plan.Accounts held m a) (hHeld : f ∈ held) :
    plan.Accounts (held.erase f) m (a.releaseAll [f]) := by
  have hUse : ∀ g ∈ [f], g ∈ a.inUse := by
    intro g hg
    obtain rfl := List.mem_singleton.1 hg
    exact h.mem_inUse.2 (Or.inl hHeld)
  refine ⟨h.sound.releaseAll (List.nodup_singleton f) hUse, ?_, h.held_nodup.erase f,
    fun hg => h.held_new (List.mem_of_mem_erase hg)⟩
  intro g
  have hPlan : (plan g).isSome = true → g ≠ f := by
    rintro hSome rfl
    rw [h.held_new hHeld] at hSome
    cases hSome
  rw [FrameAllocator.mem_inUse_releaseAll h.sound, h.mem_inUse, h.held_nodup.mem_erase_iff,
    List.mem_singleton]
  tauto

/-- A frame that the caller holds is hung in a tree. -/
theorem giveUp (h : plan.Accounts held m a) (hHeld : f ∈ held) (x : Place) :
    (plan.put f x).Accounts (held.erase f) m a := by
  refine ⟨h.sound, ?_, h.held_nodup.erase f, ?_⟩
  · intro g
    rw [h.mem_inUse, h.held_nodup.mem_erase_iff, isSome_put]
    by_cases hg : g = f
    · subst hg
      simp [hHeld]
    · simp [hg]
  · intro g hg
    obtain ⟨hNe, hg⟩ := h.held_nodup.mem_erase_iff.1 hg
    rw [put_of_ne hNe]
    exact h.held_new hg

theorem takeBack (h : plan.Accounts held m a) (hPlace : plan f = some x) :
    (plan.cut f).Accounts (f :: held) m a := by
  have hNew : f ∉ held := by
    intro hHeld
    rw [h.held_new hHeld] at hPlace
    cases hPlace
  refine ⟨h.sound, ?_, List.nodup_cons.2 ⟨hNew, h.held_nodup⟩, ?_⟩
  · intro g
    rw [h.mem_inUse, isSome_cut, List.mem_cons]
    by_cases hg : g = f
    · subst hg
      simp [hPlace]
    · simp [hg]
  · intro g hg
    rcases List.mem_cons.1 hg with rfl | hg
    · exact if_pos rfl
    · have hNe : g ≠ f := fun hEq => hNew (hEq ▸ hg)
      rw [Plan.cut, if_neg hNe]
      exact h.held_new hg

end Accounts

end Plan

end PagedKernel
