import PagedKernel.Proofs.Plan.Reach
import PagedKernel.Proofs.Run.Invariant
import PagedKernel.Proofs.Run.Progress

/-!
# Nothing leaks

Destroying a space gives back what is reached through its user half, each frame once, and nothing
else. So once all spaces are destroyed and the caller has given back what it holds, the frames in use
are those that booting has taken.

* `AddressSpace.TornDown`: what destroying a space comes to.
* `Plan.Tracks.tornDown`: destroying a live space comes to that.
* `Plan.Tracks.inUse_perm`: a system without spaces and holdings has the frames in use that it had when
  it was booted.
* `Run.destroys_all`, `Run.frees_all`: every run can be continued to such a system.
* `Run.leaks_nothing`: all of this after every run.
-/

namespace PagedKernel

/-- The space was destroyed, and the frames `freed` were given back in this order. -/
structure AddressSpace.TornDown (s : AddressSpace) (σ : System) (m : Machine) (freed : List Frame) :
    Prop where
  destroy_eq : s.destroy σ.machine = .ok () m
  /-- They are the root, the tables below its user half and the pages that these map, each once. -/
  nodup : freed.Nodup
  mem_freed (f : Frame) :
    f ∈ freed ↔ ∃ path, InUserHalf path ∧ σ.machine.memory.Leads s.root path f
  free_eq : m.frames.free = freed.reverse ++ σ.machine.frames.free
  mem_inUse (f : Frame) : f ∈ m.frames.inUse ↔ f ∈ σ.machine.frames.inUse ∧ f ∉ freed
  was_inUse : ∀ f ∈ freed, f ∈ σ.machine.frames.inUse
  log_eq : m.log = .spaceDestroyed s.root freed.length :: σ.machine.log
  /-- None of them is reached from another space or from the kernel, or held by the caller. -/
  others {f r : Frame} {path : List TableIndex} : f ∈ freed →
    (r = σ.kernel.root ∨ ∃ s' ∈ σ.live, s' ≠ s ∧ s'.root = r) → ¬ σ.machine.memory.Leads r path f
  not_held : ∀ f ∈ freed, f ∉ σ.held
  memory_eq : m.memory = σ.machine.memory

namespace Plan.Tracks

variable {plan plan' : Plan} {σ σ' : System} {s : AddressSpace}

/-- Destroying a live space gives back all that is its own. -/
theorem tornDown (h : plan.Tracks σ) (hs : s ∈ σ.live) :
    ∃ m, s.TornDown σ m (σ.machine.memory.spaceFrames s.root) := by
  have hRoot := root_mem hs
  have hFits := h.describes.fits
  obtain ⟨hNodup, hPlanned⟩ := hFits.lists_space hRoot
  have hMem : ∀ f, f ∈ σ.machine.memory.spaceFrames s.root ↔
      ∃ path, InUserHalf path ∧ σ.machine.memory.Leads s.root path f := by
    intro f
    rw [hPlanned]
    simp only [List.append_nil, ← hFits.leads_iff (Or.inr hRoot), hFits.ownPath_iff hRoot, and_comm]
  obtain ⟨m, hDestroy, hMemory, hFrames, -, hLog⟩ :=
    h.describes.destroy_eq hRoot (h.isKernel_of_live hs)
  refine ⟨m, hDestroy, hNodup, hMem, ?_, fun f => ?_, h.describes.inUse_spaceFrames hRoot, hLog, ?_,
    fun f hf hHeld => ?_, hMemory⟩
  · rw [hFrames]
    rfl
  · rw [hFrames, FrameAllocator.mem_inUse_releaseAll h.describes.accounts.sound]
  · -- A frame that is reached from elsewhere, too, would have two places.
    intro f r path hf hr hLeads
    obtain ⟨q, hUser, hOwn⟩ := (hMem f).1 hf
    have hKnown : r = σ.kernel.root ∨ r ∈ σ.live.map (·.root) := by
      refine hr.imp_right ?_
      rintro ⟨s', hs', -, rfl⟩
      exact root_mem hs'
    obtain ⟨rfl, -⟩ := hFits.leads_inj hRoot hUser hOwn hKnown hLeads
    rcases hr with hKernel | ⟨s', hs', hNe, hEq⟩
    · exact hFits.ne_kernel hRoot hKernel
    · exact hNe (h.eq_of_root hs' hs hEq)
  · obtain ⟨q, hPlace⟩ := (hPlanned f).1 hf
    rw [h.describes.accounts.held_new hHeld] at hPlace
    cases hPlace

theorem mem_inUse (h : plan.Tracks σ) (hLive : σ.live = []) (hHeld : σ.held = []) {f : Frame} :
    f ∈ σ.machine.frames.inUse ↔ ∃ path, plan f = some ⟨σ.kernel.root, path⟩ := by
  rw [h.describes.accounts.mem_inUse, hHeld, Option.isSome_iff_exists]
  constructor
  · rintro (hMem | ⟨⟨r, path⟩, hPlace⟩)
    · cases hMem
    · have hRoot := (h.describes.fits.root_of_place hPlace).2
      rw [hLive] at hRoot
      obtain rfl := hRoot.resolve_right List.not_mem_nil
      exact ⟨path, hPlace⟩
  · rintro ⟨path, hPlace⟩
    exact Or.inr ⟨_, hPlace⟩

theorem inUse_perm (h : plan.Tracks σ) (h' : plan'.Tracks σ') (hKernel : σ'.kernel = σ.kernel)
    (hSame : SameTree σ.kernel.root plan plan') (hLive : σ.live = []) (hHeld : σ.held = [])
    (hLive' : σ'.live = []) (hHeld' : σ'.held = []) :
    σ'.machine.frames.inUse.Perm σ.machine.frames.inUse := by
  rw [List.perm_ext_iff_of_nodup h'.describes.accounts.sound.inUse_nodup
    h.describes.accounts.sound.inUse_nodup]
  intro f
  rw [h'.mem_inUse hLive' hHeld', h.mem_inUse hLive hHeld, hKernel]
  exact exists_congr fun path => hSame f path

end Plan.Tracks

variable {plan : Plan} {start σ : System} {events : List Event}

theorem Run.destroys_all (hRun : Run start events σ) (hStart : plan.Tracks start) :
    ∃ σ', Run start ((σ.live.map fun s => ⟨.destroy s, .done⟩).reverse ++ events) σ' ∧
      σ'.live = [] ∧ σ'.held = σ.held := by
  generalize hLive : σ.live = live
  induction live generalizing σ events with
  | nil => exact ⟨σ, hRun, hLive, rfl⟩
  | cons s rest ih =>
    have hs : s ∈ σ.live := hLive ▸ List.mem_cons_self
    obtain ⟨-, plan', hTracks, -⟩ := hRun.tracks hStart
    obtain ⟨m, hDone, -, -⟩ := hTracks.destroy_live hs
    have hNext := hRun.next (.destroy s) (Or.inl hs)
    rw [hDone] at hNext
    obtain ⟨σ', hRest, hNone, hHeld⟩ := ih hNext (by
      show σ.live.erase s = rest
      rw [hLive, List.erase_cons_head])
    refine ⟨σ', ?_, hNone, hHeld⟩
    rwa [List.map_cons, List.reverse_cons, List.append_assoc, List.singleton_append]

theorem Run.frees_all (hRun : Run start events σ) (hStart : plan.Tracks start) :
    ∃ σ', Run start ((σ.held.map fun f => ⟨.free f, .done⟩).reverse ++ events) σ' ∧
      σ'.held = [] ∧ σ'.live = σ.live := by
  generalize hHeld : σ.held = held
  induction held generalizing σ events with
  | nil => exact ⟨σ, hRun, hHeld, rfl⟩
  | cons f rest ih =>
    have hf : f ∈ σ.held := hHeld ▸ List.mem_cons_self
    obtain ⟨-, plan', hTracks, -⟩ := hRun.tracks hStart
    obtain ⟨m, hDone, -⟩ := hTracks.free_held hf
    have hNext := hRun.next (.free f) hf
    rw [hDone] at hNext
    obtain ⟨σ', hRest, hNone, hLive⟩ := ih hNext (by
      show σ.held.erase f = rest
      rw [hHeld, List.erase_cons_head])
    refine ⟨σ', ?_, hNone, hLive⟩
    rwa [List.map_cons, List.reverse_cons, List.append_assoc, List.singleton_append]

/-- The requests that end a run: all live spaces are destroyed, and all frames that the caller holds
are given back. Latest first, each of them served. -/
def System.closing (σ : System) : List Event :=
  (σ.held.map fun f => ⟨.free f, .done⟩).reverse ++ (σ.live.map fun s => ⟨.destroy s, .done⟩).reverse

variable {frames : Nat} {k : KernelSpace} {m : Machine}

/-- After every run from booting on, destroying a live space gives back exactly what is its own. When
all spaces are destroyed and the caller holds nothing, in whatever order it has come to this, the frames
in use are those of the machine that has just booted; and every run can be brought to this end. -/
theorem Run.leaks_nothing (hFrames : frames ≤ 2 ^ 40) (hBoot : Machine.boot frames = .ok (k, m))
    (hRun : Run (.booted k m) events σ) :
    (∀ s ∈ σ.live, ∃ m' freed, s.TornDown σ m' freed) ∧
      (σ.live = [] → σ.held = [] → σ.machine.frames.inUse.Perm m.frames.inUse) ∧
      ∃ σ', Run (.booted k m) (σ.closing ++ events) σ' ∧ σ'.live = [] ∧ σ'.held = [] ∧
        σ'.machine.frames.inUse.Perm m.frames.inUse := by
  obtain ⟨plan, hStart⟩ := System.tracks_booted hFrames hBoot
  have hClean : ∀ {events σ}, Run (.booted k m) events σ → σ.live = [] → σ.held = [] →
      σ.machine.frames.inUse.Perm m.frames.inUse := by
    intro events σ hRun hLive hHeld
    obtain ⟨hKernel, plan', hTracks, hSame⟩ := hRun.tracks hStart
    exact hStart.inUse_perm hTracks hKernel hSame rfl rfl hLive hHeld
  refine ⟨fun s hs => ?_, hClean hRun, ?_⟩
  · obtain ⟨-, plan', hTracks, -⟩ := hRun.tracks hStart
    obtain ⟨m', hDown⟩ := hTracks.tornDown hs
    exact ⟨m', _, hDown⟩
  · obtain ⟨σ₁, hDestroyed, hLive, hHeld⟩ := hRun.destroys_all hStart
    obtain ⟨σ₂, hFreed, hNone, hSame⟩ := hDestroyed.frees_all hStart
    rw [hHeld, ← List.append_assoc] at hFreed
    exact ⟨σ₂, hFreed, hSame.trans hLive, hNone, hClean hFreed (hSame.trans hLive) hNone⟩

/-- On a machine of sixteen frames, with a page mapped at 4 MiB. -/
theorem Run.leaks_nothing_sixteen : ∃ k m events σ, Machine.boot 16 = .ok (k, m) ∧
    Run (.booted k m) events σ ∧
    (∃ s ∈ σ.live, ∃ p, s.translate σ.machine.memory ⟨0x400000⟩ = .ok (some p)) ∧
    (∀ s ∈ σ.live, ∃ m' freed, s.TornDown σ m' freed) ∧
      (σ.live = [] → σ.held = [] → σ.machine.frames.inUse.Perm m.frames.inUse) ∧
      ∃ σ', Run (.booted k m) (σ.closing ++ events) σ' ∧ σ'.live = [] ∧ σ'.held = [] ∧
        σ'.machine.frames.inUse.Perm m.frames.inUse := by
  obtain ⟨k, m, f, s, kernelAlias, σ, hBoot, hRun, hs, hPage⟩ := @Run.exists_mapped 16 (by decide)
    (by decide) ⟨0x400000⟩ (by decide) (by decide) true
  exact ⟨k, m, _, σ, hBoot, hRun, ⟨s, hs, _, hPage⟩, Run.leaks_nothing (by decide) hBoot hRun⟩

end PagedKernel
