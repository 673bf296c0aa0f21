import PagedKernel.Proofs.Plan.Leaves
import PagedKernel.Proofs.Run.Steps

/-!
# What every run keeps

A plan tracks every system that a run leads to. The trees of the spaces come and go, that of the kernel
stays, and no entry that paging comes across is a huge page.

* `Plan.SameTree`: two plans have the same tree below a root.
* `Plan.Tracks.step_data`, `Plan.Tracks.step`: one request keeps a plan, and no frame with bytes of the
  caller becomes a table.
* `Run.tracks`: a run does.
-/

namespace PagedKernel

namespace Plan

variable {plan plan' : Plan} {kernel r f : Frame} {path : List TableIndex}

def SameTree (kernel : Frame) (plan plan' : Plan) : Prop :=
  ∀ f path, plan' f = some ⟨kernel, path⟩ ↔ plan f = some ⟨kernel, path⟩

theorem SameTree.refl (kernel : Frame) (plan : Plan) : SameTree kernel plan plan :=
  fun _ _ => Iff.rfl

theorem sameTree_put (hNew : plan f = none) (hNe : r ≠ kernel) :
    SameTree kernel plan (plan.put f ⟨r, path⟩) := by
  intro g q
  rw [put_eq_some hNew]
  refine ⟨fun hg => hg.resolve_left ?_, Or.inr⟩
  rintro ⟨-, hPlace⟩
  exact hNe (Place.mk.inj hPlace).1

theorem sameTree_cut (hPlace : plan f = some ⟨r, path⟩) (hNe : r ≠ kernel) :
    SameTree kernel plan (plan.cut f) := by
  intro g q
  rw [cut_eq_some, and_iff_right_iff_imp]
  rintro hg rfl
  rw [hPlace] at hg
  exact hNe (Place.mk.inj (Option.some.inj hg)).1

theorem sameTree_uproot (hNe : r ≠ kernel) : SameTree kernel plan (plan.uproot r) := by
  intro g q
  rw [uproot_eq_some, and_iff_left hNe.symm]

theorem Describes.sameTree_mapped {root : Frame} {roots held : List Frame} {m : Machine}
    (h : plan.Describes kernel roots held m) (hNe : r ≠ root) (hHeld : f ∈ held)
    (page : VirtualAddress) (l : Level) :
    SameTree root plan (Describes.mappedPlan plan m r page f l) := by
  intro g q
  have hFs := h.take_nodup l.height
  have hNew := h.take_new l.height
  by_cases hg : g = f
  · subst hg
    rw [Describes.mappedPlan, put_self, h.accounts.held_new hHeld]
    simp [hNe]
  · rw [Describes.mappedPlan, put_of_ne hg]
    refine ⟨fun hPlace => ?_, grow_of_eq_some hFs hNew⟩
    rcases grow_eq_some hFs hNew hPlace with hOld | ⟨-, level, -, hx⟩
    · exact hOld
    · exact absurd (Place.mk.inj hx).1.symm hNe

variable {σ : System}

/-- A request keeps a plan, and the kernel's tree in it. What had bytes of the caller is a page, if it
hangs anywhere. -/
theorem Tracks.step_data (h : plan.Tracks σ) {request : Request} (hAllowed : σ.Allowed request) :
    (σ.perform request).1 ≠ .broken .hugePage ∧ (σ.perform request).2.kernel = σ.kernel ∧
      ∃ plan' : Plan, plan'.Tracks (σ.perform request).2 ∧ SameTree σ.kernel.root plan plan' ∧
        ∀ {f x}, plan.Data σ.held f → plan' f = some x → x.path.length = 4 := by
  have hNe : ∀ {s}, s ∈ σ.live → s.root ≠ σ.kernel.root :=
    fun hs => h.describes.fits.ne_kernel (Tracks.root_mem hs)
  have hHeld : ∀ g ∈ σ.held, plan g = none := fun _ => h.describes.accounts.held_new
  cases h.effect hAllowed with
  | quiet hReply hSame =>
    exact ⟨hReply, hSame.kernel_eq, plan, hSame.tracks, SameTree.refl _ _, fun hData => hData.length_eq hHeld⟩
  | @created r m hMade hNew hAfter =>
    have hNeNew := hAfter.describes.fits.ne_kernel List.mem_cons_self
    rw [hMade]
    refine ⟨by simp, rfl, _, hAfter, sameTree_put hNew hNeNew, fun {f x} hData hPlace => ?_⟩
    rcases (put_eq_some hNew).1 hPlace with ⟨rfl, -⟩ | hOld
    · refine absurd hNew (hData.ne_none fun hMem => ?_)
      have hRoot := hAfter.describes.accounts.held_new hMem
      rw [put_self] at hRoot
      cases hRoot
    · exact hData.length_eq hHeld hOld
  | @mapped s page p m l writable hs hMem hDone hAfter =>
    rw [hDone]
    refine ⟨by simp, rfl, _, hAfter, h.describes.sameTree_mapped (hNe hs) hMem _ _, fun {f x} hData hPlace => ?_⟩
    by_cases hf : f = p.frame
    · rw [Describes.mappedPlan, hf, put_self] at hPlace
      rw [← Option.some.inj hPlace]
      simp [VirtualAddress.path, Level.depth]
    · rw [Describes.mappedPlan, put_of_ne hf] at hPlace
      rcases grow_eq_some (h.describes.take_nodup _) (h.describes.take_new _) hPlace with
        hOld | ⟨hTaken, -⟩
      · exact hData.length_eq hHeld hOld
      · refine absurd (h.describes.take_new _ f hTaken) (hData.ne_none ?_)
        exact h.describes.accounts.notHeld_of_free (List.mem_of_mem_take hTaken)
  | unmapped hs _ hReply _ hPlace hAfter hReplaced =>
    exact ⟨by simp [hReply], hReplaced.kernel_eq, _, hAfter, sameTree_cut hPlace (hNe hs),
      fun hData hf => hData.length_eq hHeld (cut_eq_some.1 hf).2⟩
  | marked _ _ _ hReply _ hAfter hReplaced =>
    exact ⟨by simp [hReply], hReplaced.kernel_eq, plan, hAfter, SameTree.refl _ _,
      fun hData => hData.length_eq hHeld⟩
  | destroyed hs hDone _ hAfter =>
    rw [hDone]
    exact ⟨by simp, rfl, _, hAfter, sameTree_uproot (hNe hs),
      fun hData hf => hData.length_eq hHeld (uproot_eq_some.1 hf).1⟩

theorem Tracks.step (h : plan.Tracks σ) {request : Request} (hAllowed : σ.Allowed request) :
    (σ.perform request).1 ≠ .broken .hugePage ∧ (σ.perform request).2.kernel = σ.kernel ∧
      ∃ plan' : Plan, plan'.Tracks (σ.perform request).2 ∧ SameTree σ.kernel.root plan plan' := by
  obtain ⟨hReply, hKernel, plan', hTracks, hSame, -⟩ := h.step_data hAllowed
  exact ⟨hReply, hKernel, plan', hTracks, hSame⟩

end Plan

variable {plan : Plan} {start σ : System} {events : List Event}

/-- A plan tracks every system that a run leads to, and keeps the kernel's tree. -/
theorem Run.tracks (hRun : Run start events σ) (hStart : plan.Tracks start) :
    σ.kernel = start.kernel ∧
      ∃ plan' : Plan, plan'.Tracks σ ∧ Plan.SameTree start.kernel.root plan plan' := by
  induction hRun with
  | start => exact ⟨rfl, plan, hStart, Plan.SameTree.refl _ _⟩
  | next _ request hAllowed ih =>
    obtain ⟨hKernel, plan', hTracks, hSame⟩ := ih
    obtain ⟨-, hKernel', plan'', hTracks', hSame'⟩ := hTracks.step hAllowed
    refine ⟨hKernel'.trans hKernel, plan'', hTracks', fun f path => ?_⟩
    rw [← hKernel] at hSame ⊢
    exact (hSame' f path).trans (hSame f path)

theorem System.tracks_booted {frames : Nat} {k : KernelSpace} {m : Machine}
    (hFrames : frames ≤ 2 ^ 40) (hBoot : Machine.boot frames = .ok (k, m)) :
    ∃ plan : Plan, plan.Tracks (.booted k m) := by
  obtain ⟨plan, hPlan⟩ := Machine.boot_describes hFrames hBoot
  exact ⟨plan, hPlan, nofun⟩

end PagedKernel
