import PagedKernel.Proofs.Plan.Reach
import PagedKernel.Proofs.Run.Visible

/-!
# Sites with a finished kernel

The pages of a finished kernel are mapped to any frames, and a plan says that each leaf has a frame of its
own. No work reads the leaf tables of the kernel, so they are kept out of account: the plan fits a twin of
the machine, in which they are empty.

* `Site.Shaded`: the frames in which the twin may differ.
* `Site.Planned.visible`: no work reads them.
* `Site.Tracked`: a plan and a trunk fit such a twin.
* `Site.Tracked.step`, `Site.Run.tracked`: so it is at every site that the discipline leads to.
* `Site.Tracked.charted`: the tables of all trees make a chart.
-/

namespace PagedKernel

open Machine

variable {plan plan' trunk : Plan} {reserved : List Frame} {c c' : Site} {m : Machine} {work : Work}
  {r t f : Frame} {path : List TableIndex} {deeds : List Deed}

/-- The frame has bytes of the caller, or it is a leaf table of the kernel. -/
def Site.Shaded (plan : Plan) (c : Site) (f : Frame) : Prop :=
  plan.Data c.system.held f ∨ plan.LeafTable c.system.kernel.root f

theorem Site.not_shaded_of_new (hNew : plan f = none) (hHeld : f ∉ c.system.held) : ¬ c.Shaded plan f := by
  rintro (hData | ⟨path, hf, -⟩)
  · exact hData.ne_none hHeld hNew
  · rw [hNew] at hf
    cases hf

theorem Site.Keeps.shaded (h : Keeps plan plan' c c') (hUse : f ∈ c'.machine.frames.inUse)
    (hf : c.Shaded plan f) : c'.Shaded plan' f :=
  hf.imp (h.data f hUse) (h.leafTable f)

namespace Site.Planned

variable (h : c.Planned plan trunk reserved)

include h

theorem fits_of_place {x : Place} (ht : plan t = some x) :
    plan.Fits c.system.kernel.root (c.system.live.map (·.root)) c.machine.memory := by
  cases hFinished : c.finished with
  | true => exact h.fits hFinished
  | false =>
    rw [(h.nothing hFinished).1] at ht
    cases ht

theorem inUse_of_place {x : Place} (ht : plan t = some x) : t ∈ c.machine.frames.inUse :=
  h.beside.accounts.mem_inUse.2 (Or.inr (by rw [ht]; rfl))

theorem not_data_of_place (ht : plan t = some ⟨r, path⟩) (hShort : path.length < 4) :
    ¬ plan.Data c.system.held t := by
  intro hData
  have hLength := hData.length_eq (fun _ hg => h.beside.accounts.held_new (List.mem_append_left _ hg)) ht
  exact absurd hLength (Nat.ne_of_lt hShort)

theorem not_shaded_of_place (ht : plan t = some ⟨r, path⟩) (hShort : path.length < 4)
    (hTable : r = c.system.kernel.root → path.length ≠ 3) : ¬ c.Shaded plan t := by
  rintro (hData | ⟨path', ht', hLength⟩)
  · exact h.not_data_of_place ht hShort hData
  · rw [ht] at ht'
    obtain ⟨rfl, rfl⟩ := Place.mk.inj (Option.some.inj ht')
    exact hTable rfl hLength

theorem not_shaded_of_free (hFree : f ∈ c.machine.frames.free) : ¬ c.Shaded plan f := by
  refine not_shaded_of_new (h.beside.accounts.new_of_free hFree) fun hHeld => ?_
  exact h.beside.accounts.notHeld_of_free hFree (List.mem_append_left _ hHeld)

theorem charted_spaces : c.machine.Charted
    (fun level t => ∃ r ∈ c.system.live.map (·.root), ∃ path, plan t = some ⟨r, path⟩ ∧
      path.length = level.depth) (·.val < kernelRootStart) (c.Shaded plan) where
  frames_le := h.beside.frames_le
  sound := h.beside.accounts.sound
  inUse := by
    rintro level t ⟨r, -, path, ht, -⟩
    exact h.inUse_of_place ht
  seen := by
    rintro level t ⟨r, hr, path, ht, hLength⟩
    refine h.not_shaded_of_place ht (hLength ▸ level.depth_lt) fun hKernel => ?_
    exact absurd hKernel ((h.fits_of_place ht).ne_kernel hr)
  free_seen := h.not_shaded_of_free
  link := by
    rintro level below t ⟨r, hr, path, ht, hLength⟩ hNext i hOwn
    have hFits := h.fits_of_place ht
    have hDepth := Level.depth_of_next? hNext
    have hBound := below.depth_lt
    have hBranch : Branches c.system.kernel.root r path i := by
      rintro rfl
      have hTop : level = .pml4 := Level.depth_inj hLength.symm
      exact iff_of_false (hFits.ne_kernel hr) (Nat.not_le.2 (hOwn hTop))
    refine (hFits.link_target ht (by omega) hBranch).imp_right ?_
    rintro ⟨f, hf, hTarget⟩
    exact ⟨f, ⟨r, hr, i :: path, hf, by rw [List.length_cons, hLength, hDepth]⟩, hTarget⟩

/-- No work reads the leaf tables of the kernel. -/
theorem visible : c.Visible (c.Shaded plan) := by
  refine ⟨⟨_, h.beside.charted (fun f hf => ?_) fun f hf => h.not_shaded_of_free hf, fun b hb => ?_⟩,
    ⟨_, h.charted_spaces, fun s hs => ?_⟩, fun hDone => ?_⟩
  · exact not_shaded_of_new (h.beside.new_of_reserved hf) (h.beside.notHeld_of_reserved hf)
  · exact ⟨_, _, h.builder hb, rfl⟩
  · have hRoot := Plan.Tracks.root_mem hs
    cases hFinished : c.finished with
    | true => exact ⟨s.root, hRoot, [], (h.fits hFinished).root_place hRoot, rfl⟩
    | false =>
      rw [(h.nothing hFinished).2] at hs
      cases hs
  · have hPlace := (h.fits hDone).kernel_place
    exact ⟨(h.fits hDone).holds hPlace, h.inUse_of_place hPlace,
      h.not_shaded_of_place hPlace (Nat.zero_lt_succ 3) fun _ => nofun⟩

/-- What the tables of all trees point at hangs below them. -/
theorem link_target {n : Nat} (ht : plan.AtDepth n t ∨ trunk.AtDepth n t) (hShort : n < 3) (i : TableIndex) :
    c.machine.memory.entry ⟨t, i⟩ = .empty ∨
      ∃ f, (plan.AtDepth (n + 1) f ∨ trunk.AtDepth (n + 1) f) ∧
        (c.machine.memory.entry ⟨t, i⟩).target = .ok (some f) := by
  rcases ht with ⟨r, path, ht, rfl⟩ | ⟨r, path, ht, rfl⟩
  · have hFits := h.fits_of_place ht
    rcases hFits.entry_cases ht i with hEmpty | ⟨u, r', hu, hBranch, hEq⟩
    · exact Or.inl hEmpty
    · rw [hEq]
      refine (hFits.link_target hu hShort hBranch).imp_right ?_
      rintro ⟨f, hf, hTarget⟩
      exact ⟨f, Or.inl ⟨r', i :: path, hf, rfl⟩, hTarget⟩
  · refine (h.beside.link_target ht hShort i).imp_right ?_
    rintro ⟨f, hf, hTarget⟩
    exact ⟨f, Or.inr ⟨r, i :: path, hf, rfl⟩, hTarget⟩

theorem shows_of_table {n : Nat} (ht : plan.AtDepth n t ∨ trunk.AtDepth n t) (hShort : n < 4) :
    t ∈ c.machine.frames.inUse ∧ ¬ plan.Data c.system.held t ∧ (n < 3 → ¬ c.Shaded plan t) := by
  rcases ht with ⟨r, path, ht, rfl⟩ | ⟨r, path, ht, rfl⟩
  · exact ⟨h.inUse_of_place ht, h.not_data_of_place ht hShort,
      fun hInner => h.not_shaded_of_place ht hShort fun _ => Nat.ne_of_lt hInner⟩
  · have hNot := not_shaded_of_new (h.beside.new_of_trunk ht)
      (h.beside.notHeld_of_reserved (h.beside.reserved_of_trunk ht))
    exact ⟨h.beside.inUse_of_trunk ht, fun hData => hNot (Or.inl hData), fun _ => hNot⟩

end Site.Planned

/-- A plan and a trunk fit a twin of the machine, with other leaf tables of the kernel. -/
def Site.Tracked (plan trunk : Plan) (reserved : List Frame) (c : Site) : Prop :=
  ∃ masked, (c.withMachine masked).Planned plan trunk reserved ∧ masked.Twins (c.Shaded plan) c.machine

namespace Site.Tracked

variable (h : c.Tracked plan trunk reserved)

include h

theorem visible : c.Visible (c.Shaded plan) := by
  obtain ⟨masked, hPlanned, hTwins⟩ := h
  exact hPlanned.visible.twin hTwins

theorem new_of_free (hFree : f ∈ c.machine.frames.free) : f ∉ c.machine.frames.inUse := by
  obtain ⟨chart, hChart, -⟩ := h.visible.builders
  exact hChart.sound.free_new hFree

/-- A work keeps a plan and a trunk, and no frame with bytes of the caller becomes a table. -/
theorem step (hAllowed : c.Allowed work) :
    ∃ plan' trunk' : Plan, ∃ reserved', (c.perform work).2.Tracked plan' trunk' reserved' ∧
      ∀ f ∈ (c.perform work).2.machine.frames.inUse, plan.Data c.system.held f →
        plan'.Data (c.perform work).2.system.held f := by
  obtain ⟨masked, hPlanned, hTwins⟩ := h
  have hVisible := hPlanned.visible
  have hMasked : (c.withMachine masked).Allowed work := (hVisible.allowed_iff hTwins).1 hAllowed
  obtain ⟨m, hSame, hTwins'⟩ := hVisible.perform_twin hTwins hMasked
  have hAfter : (c.perform work).2 = (((c.withMachine masked).perform work).2.withMachine m) :=
    congrArg Prod.snd hSame
  rw [hAfter]
  have hUse : m.frames.inUse = ((c.withMachine masked).perform work).2.machine.frames.inUse := by
    rw [hTwins'.frames_eq]
  by_cases hFinish : ∃ b, work = .finish b
  · obtain ⟨b, rfl⟩ := hFinish
    obtain ⟨memory, plan', trunk', reserved', hAgree, hPlanned', hKeeps⟩ := hPlanned.finish hMasked
    refine ⟨plan', trunk', reserved', ⟨_, hPlanned', hTwins'.frames_eq, hTwins'.mmu_eq, hTwins'.log_eq, ?_⟩,
      fun f hf => hKeeps.data f (hUse ▸ hf)⟩
    refine (hAgree.symm.mono ?_).trans (hTwins'.agree.mono ?_)
    · rintro f ⟨-, hNot⟩ hTable
      exact hNot (Or.inr hTable)
    · rintro f ⟨hf, hNot⟩
      refine ⟨hf, fun hHidden => hNot ?_⟩
      exact hHidden.elim (hKeeps.shaded hf) fun hHeld => Or.inl (Or.inl hHeld)
  · obtain ⟨plan', trunk', reserved', hPlanned', hKeeps⟩ :=
      hPlanned.step hMasked fun b hb => hFinish ⟨b, hb⟩
    refine ⟨plan', trunk', reserved', ⟨_, hPlanned', hTwins'.mono fun f hf hHidden => ?_⟩,
      fun f hf => hKeeps.data f (hUse ▸ hf)⟩
    exact hHidden.elim (hKeeps.shaded hf) fun hHeld => Or.inl (Or.inl hHeld)

theorem charted : c.machine.Charted
    (fun level t => plan.AtDepth level.depth t ∨ trunk.AtDepth level.depth t) (fun _ => True)
    (plan.Data c.system.held) := by
  obtain ⟨masked, hPlanned, hTwins⟩ := h
  have hSound : masked.frames.Sound masked.memory := hPlanned.beside.accounts.sound
  have hTable : ∀ {level : Level} {t}, plan.AtDepth level.depth t ∨ trunk.AtDepth level.depth t → _ :=
    fun {level _} ht => hPlanned.shows_of_table ht level.depth_lt
  refine ⟨?_, ?_, fun ht => ?_, fun ht => (hTable ht).2.1, fun {f} hFree hData => ?_, ?_⟩
  · exact hTwins.agree.frames_eq ▸ hPlanned.beside.frames_le
  · exact hSound.congr (by rw [hTwins.frames_eq]) (by rw [hTwins.frames_eq]) hTwins.agree.frames_eq
  · rw [hTwins.frames_eq]
    exact (hTable ht).1
  · rw [hTwins.frames_eq] at hFree
    exact hPlanned.not_shaded_of_free hFree (Or.inl hData)
  · rintro level below t ht hNext i -
    have hDepth := Level.depth_of_next? hNext
    have hBound := below.depth_lt
    have hInner : level.depth < 3 := by omega
    obtain ⟨hUse, -, hSeen⟩ := hTable ht
    rw [@Twins.entry _ _ _ ⟨t, i⟩ hTwins hUse (hSeen hInner), hDepth]
    exact hPlanned.link_target ht hInner i

end Site.Tracked

/-- A plan and a trunk fit every site that the discipline leads to. -/
theorem Site.Run.tracked {start : Machine} (hRun : Site.Run (.bare start) deeds c) (hStart : start.Idle) :
    ∃ plan trunk : Plan, ∃ reserved, c.Tracked plan trunk reserved := by
  induction hRun with
  | start => exact ⟨_, _, _, start, planned_bare hStart, .refl _ _⟩
  | next before work hAllowed ih =>
    obtain ⟨plan, trunk, reserved, hTracked⟩ := ih
    obtain ⟨plan', trunk', reserved', hTracked', -⟩ := hTracked.step hAllowed
    exact ⟨plan', trunk', reserved', hTracked'⟩

end PagedKernel
