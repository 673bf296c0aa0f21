import PagedKernel.Proofs.Plan.Construction
import PagedKernel.Proofs.Run.Building

/-!
# Sites

A site is a system with kernels under construction beside the trees of its spaces. At first the system has
no kernel: the caller takes, writes and gives back frames, begins kernels and maps pages of them, to any
frames. Then one of the kernels is finished, and the caller can also ask for all that has to do with
spaces.

* `Work`, `Product`, `Site`, `Site.perform`: what is done, what comes of it, and the site then.
* `Site.Allowed`, `Site.Run`: the discipline, and the sites that it leads to.
* `System.perform_holding`: a request does not touch what the caller holds besides.
* `Site.Planned`: a plan and a trunk fit the site.
* `Site.Planned.step`: a work keeps this so, unless it finishes a kernel, and no frame with bytes of the
  caller becomes a table.
* `Site.Planned.finish`: when a kernel is finished there is a plan of its tables, once its leaf tables are
  emptied.
-/

namespace PagedKernel

/-- The request can be made when there is no kernel yet. -/
def Request.Early : Request → Prop
  | .alloc | .free _ | .limit _ | .unlimit | .write _ _ => True
  | _ => False

/-- The request does not look into the pages of a space. -/
def Request.Paging : Request → Prop
  | .copyTo _ _ _ | .copyFrom _ _ _ => False
  | _ => True

inductive Work where
  | ask (request : Request)
  | newKernel
  | mapKernel (b : KernelBuilder) (page : VirtualAddress) (frame : Frame) (writable : Bool)
  /-- Finish a kernel: the system has it from then on. -/
  | finish (b : KernelBuilder)

inductive Product where
  | answered (reply : Reply)
  | begun (outcome : Except SpaceError KernelBuilder)
  | mapped (outcome : Except MapError Unit)
  | finished (k : KernelSpace)
  | broken (v : Violation)

/-- Nothing of the machine is in use. Its memory may hold anything. -/
structure Machine.Idle (m : Machine) : Prop where
  frames_le : m.memory.frames ≤ 2 ^ 40
  sound : m.frames.Sound m.memory
  inUse_eq : m.frames.inUse = []

/-- A system with kernels under construction. -/
structure Site where
  system : System
  finished : Bool
  builders : List KernelBuilder

structure Deed where
  work : Work
  product : Product

namespace Site

def machine (c : Site) : Machine := c.system.machine

def withMachine (c : Site) (m : Machine) : Site := { c with system := c.system.withMachine m }

/-- A site without a kernel, where nothing was begun. -/
def bare (m : Machine) : Site where
  system := .booted ⟨m.mmu.active⟩ m
  finished := false
  builders := []

def conclude {α : Type} (c : Site) (x : MachineM α) (after : α → Site → Product × Site) : Product × Site :=
  match x c.machine with
  | .ok a m => after a (c.withMachine m)
  | .error v m => (.broken v, c.withMachine m)

def perform (c : Site) : Work → Product × Site
  | .ask request =>
    (.answered (c.system.perform request).1, { c with system := (c.system.perform request).2 })
  | .newKernel => c.conclude KernelBuilder.create fun
    | .ok b, c => (.begun (.ok b), { c with builders := b :: c.builders })
    | .error e, c => (.begun (.error e), c)
  | .mapKernel b page frame writable => c.conclude (b.map page frame writable) fun o c => (.mapped o, c)
  | .finish b => c.conclude b.finish fun k c => (.finished k,
    { system := { c.system with kernel := k }, finished := true, builders := c.builders.filter (· ≠ b) })

/-- The discipline of the caller. -/
def Allowed (c : Site) : Work → Prop
  | .ask request => request.Paging ∧ c.system.Allowed request ∧ (c.finished = true ∨ request.Early)
  | .newKernel => True
  | .mapKernel b _ _ _ => b ∈ c.builders
  | .finish b => b ∈ c.builders ∧ c.finished = false

/-- Disciplined works lead from one site to another. The deeds are listed latest first. -/
inductive Run (start : Site) : List Deed → Site → Prop
  | start : Run start [] start
  | next {deeds : List Deed} {c : Site} (before : Run start deeds c) (work : Work)
      (hAllowed : c.Allowed work) :
      Run start (⟨work, (c.perform work).1⟩ :: deeds) (c.perform work).2

end Site

/-! ## What the caller holds besides -/

def System.holding (σ : System) (more : List Frame) : System := { σ with held := σ.held ++ more }

namespace System

variable {σ : System} {more : List Frame} {request : Request}

theorem allowed_holding (h : σ.Allowed request) : (σ.holding more).Allowed request := by
  cases request with
  | free f => exact List.mem_append_left more h
  | map s page kernelAlias writable => exact ⟨h.1, fun p hp => List.mem_append_left more (h.2 p hp)⟩
  | write p bytes =>
    intro i hi q hq
    exact (h i hi q hq).imp_left (List.mem_append_left more)
  | alloc | limit _ | unlimit | create => trivial
  | unmap _ _ | markDirty _ _ _ | markAccessed _ _ _ | destroy _ | copyTo _ _ _ | copyFrom _ _ _ => exact h
  | activate s => exact h

theorem conclude_holding {α : Type} {x : MachineM α} {after after' : α → System → Reply × System}
    (hAfter : ∀ a m, after' a ((σ.withMachine m).holding more) =
      ((after a (σ.withMachine m)).1, (after a (σ.withMachine m)).2.holding more)) :
    (σ.holding more).conclude x after' = ((σ.conclude x after).1, (σ.conclude x after).2.holding more) := by
  cases hRun : x σ.machine with
  | ok a m =>
    rw [conclude_ok hRun, @conclude_ok _ (σ.holding more) _ _ _ _ hRun]
    exact hAfter a m
  | error v m =>
    rw [conclude_error hRun, @conclude_error _ (σ.holding more) _ _ _ _ hRun]
    rfl

theorem perform_holding (h : σ.Allowed request) :
    (σ.holding more).perform request =
      ((σ.perform request).1, (σ.perform request).2.holding more) := by
  cases request with
  | limit n => rfl
  | unlimit => rfl
  | alloc =>
    simp only [perform]
    refine conclude_holding fun o m => ?_
    simp only [holding, withMachine, List.append_assoc]
  | free f =>
    simp only [perform]
    refine conclude_holding fun _ m => ?_
    simp only [holding, withMachine, List.erase_append_left more h]
  | create =>
    simp only [perform]
    exact conclude_holding fun o m => by cases o <;> rfl
  | map s page kernelAlias writable =>
    simp only [perform]
    refine conclude_holding fun o m => ?_
    cases o with
    | error e => rfl
    | ok _ =>
      simp only [giveUp]
      cases hAlias : Memory.behind kernelAlias with
      | ok p => simp only [holding, withMachine, List.erase_append_left more (h.2 p hAlias)]
      | error v => rfl
  | unmap s page =>
    simp only [perform]
    refine conclude_holding fun _ m => ?_
    simp only [holding, withMachine, List.append_assoc]
    rfl
  | markDirty s a on | markAccessed s a on | activate s | destroy s | copyTo s dst bytes
  | copyFrom s src buffer | write p bytes =>
    simp only [perform]
    exact conclude_holding fun _ _ => rfl

end System

/-! ## What every site keeps -/

/-- The plan describes the trees of the spaces, and the trunk the kernels under construction. As long as
there is no kernel there are no trees. -/
structure Site.Planned (plan trunk : Plan) (reserved : List Frame) (c : Site) : Prop where
  beside : trunk.Beside plan c.system.held reserved c.machine
  fits : c.finished = true → plan.Fits c.system.kernel.root (c.system.live.map (·.root)) c.machine.memory
  kernelRoot : ∀ s ∈ c.system.live, s.kernelRoot = c.system.kernel.root
  nothing : c.finished = false → (∀ f, plan f = none) ∧ c.system.live = []
  builder {b : KernelBuilder} : b ∈ c.builders → trunk b.root = some ⟨b.root, []⟩

/-- From `c` to `c'`, what has bytes of the caller has them still, if it is in use, and the kernel has its
leaf tables still. -/
structure Site.Keeps (plan plan' : Plan) (c c' : Site) : Prop where
  data : ∀ f ∈ c'.machine.frames.inUse, plan.Data c.system.held f → plan'.Data c'.system.held f
  leafTable : ∀ f, plan.LeafTable c.system.kernel.root f → plan'.LeafTable c'.system.kernel.root f

variable {plan plan' trunk trunk' : Plan} {held held' reserved reserved' : List Frame}
  {m m' : Machine} {c c' : Site} {request : Request} {work : Work}

/-- Early requests write nothing but what the caller may write. -/
theorem System.agreeOn_early {σ : System} {keep : Frame → Prop} (hKeep : ∀ f, keep f → ¬ σ.MayWrite f)
    (hAllowed : σ.Allowed request) (hEarly : request.Early) :
    σ.machine.memory.AgreeOn keep (σ.perform request).2.machine.memory := by
  cases request with
  | limit n => exact .refl _ _
  | unlimit => exact .refl _ _
  | alloc => exact System.agreeOn_conclude (.onFrames _) fun _ _ => rfl
  | free f => exact System.agreeOn_conclude (.onFrames _) fun _ _ => rfl
  | write p bytes =>
    obtain ⟨memory, hAgree, -, hAfter⟩ := σ.write_cases keep fun i hi q hq hMem =>
      hKeep _ hMem (hAllowed i hi q hq)
    rw [hAfter]
    exact hAgree
  | create | map _ _ _ _ | unmap _ _ | markDirty _ _ _ | markAccessed _ _ _ | activate _ | destroy _
  | copyTo _ _ _ | copyFrom _ _ _ => exact hEarly.elim

/-- Early requests leave the trunk as it is. -/
theorem Plan.Beside.perform_early {σ : System} (h : trunk.Beside plan σ.held reserved σ.machine)
    (hNotMapped : ∀ f ∈ reserved, ¬ σ.MayWrite f) (hAllowed : σ.Allowed request) (hEarly : request.Early) :
    trunk.Beside plan (σ.perform request).2.held reserved (σ.perform request).2.machine := by
  have hSame : ∀ {frames : FrameAllocator}, frames.free = σ.machine.frames.free →
      frames.inUse = σ.machine.frames.inUse →
      trunk.Beside plan σ.held reserved { σ.machine with frames } := fun hFree hUse =>
    h.of_memory_eq rfl (h.accounts.congr hFree hUse rfl)
  cases request with
  | limit n => exact hSame rfl rfl
  | unlimit => exact hSame rfl rfl
  | alloc =>
    by_cases hSupply : σ.machine.frames.supply = 0
    · have hAlloc := MachineM.takeFrame?_of_alloc (FrameAllocator.alloc_of_supply_eq_zero hSupply)
      rw [System.perform, System.conclude_ok hAlloc]
      exact hSame rfl rfl
    · obtain ⟨f, rest, hFree⟩ := FrameAllocator.exists_free_of_supply (Nat.pos_of_ne_zero hSupply)
      have hNew := h.accounts.sound.free_new (hFree ▸ List.mem_cons_self)
      have hAlloc := MachineM.takeFrame?_of_alloc
        (FrameAllocator.alloc_of_supply_pos hFree hNew (Nat.pos_of_ne_zero hSupply))
      rw [System.perform, System.conclude_ok hAlloc]
      exact h.of_memory_eq rfl (h.accounts.take hFree)
  | free f =>
    have hMem : f ∈ σ.held := hAllowed
    have hUse := h.accounts.mem_inUse.2 (Or.inl (List.mem_append_left reserved hMem))
    have hGiven := h.accounts.give (List.mem_append_left reserved hMem)
    rw [List.erase_append_left reserved hMem] at hGiven
    rw [System.perform, System.conclude_ok (MachineM.giveFrame_of_mem hUse)]
    exact h.of_memory_eq rfl hGiven
  | write p bytes =>
    obtain ⟨memory, hAgree, -, hAfter⟩ := σ.write_cases (· ∈ reserved) fun i hi q hq hMem =>
      hNotMapped _ hMem (hAllowed i hi q hq)
    rw [hAfter]
    exact h.of_agreeOn hAgree (fun _ hf => hf) (h.accounts.congr rfl rfl hAgree.frames_eq)
  | create | map _ _ _ _ | unmap _ _ | markDirty _ _ _ | markAccessed _ _ _ | activate _ | destroy _
  | copyTo _ _ _ | copyFrom _ _ _ => exact hEarly.elim

theorem Plan.Beside.data_step (h : trunk.Beside plan held reserved m)
    (h' : trunk'.Beside plan' held' reserved m')
    (hPage : ∀ {f x}, plan.Data held f → plan' f = some x → x.path.length = 4) :
    ∀ f ∈ m'.frames.inUse, plan.Data held f → plan'.Data held' f := by
  intro f hUse hData
  rcases h'.accounts.mem_inUse.1 hUse with hMem | hSome
  · rcases List.mem_append.1 hMem with hHeld | hReserved
    · exact Or.inl hHeld
    · refine absurd (h.accounts.held_new (List.mem_append_right held hReserved)) (hData.ne_none ?_)
      exact h.notHeld_of_reserved hReserved
  · obtain ⟨⟨r, path⟩, hPlace⟩ := Option.isSome_iff_exists.1 hSome
    exact Or.inr ⟨r, path, hPlace, hPage hData hPlace⟩

theorem Site.Keeps.refl (plan : Plan) (hHeld : c'.system.held = c.system.held)
    (hKernel : c'.system.kernel = c.system.kernel) : Keeps plan plan c c' := by
  refine ⟨fun f _ hData => ?_, fun f hTable => ?_⟩
  · rwa [hHeld]
  · rwa [hKernel]

namespace Site.Planned

section

variable (h : c.Planned plan trunk reserved)

include h

theorem tracks (hFinished : c.finished = true) : plan.Tracks (c.system.holding reserved) :=
  ⟨⟨h.fits hFinished, h.beside.accounts⟩, h.kernelRoot⟩

theorem not_mayWrite {f : Frame} (hf : f ∈ reserved) : ¬ c.system.MayWrite f := by
  rintro (hHeld | ⟨s, hs, a, ha, hAt⟩)
  · exact h.beside.notHeld_of_reserved hf hHeld
  · cases hFinished : c.finished with
    | false =>
      rw [(h.nothing hFinished).2] at hs
      cases hs
    | true =>
      have hPlace := (h.tracks hFinished).place_of_frameAt hs ha hAt
      rw [h.beside.new_of_reserved hf] at hPlace
      cases hPlace

theorem outgrown {written : Place → Option Entry}
    (hGrown : trunk'.Outgrows trunk plan c.system.held reserved' c.machine m written)
    {builders : List KernelBuilder}
    (hBuilders : ∀ b ∈ builders, b ∈ c.builders ∨ trunk' b.root = some ⟨b.root, []⟩) :
    Planned plan trunk' reserved' { c.withMachine m with builders := builders } where
  beside := hGrown.beside
  fits hFinished := (h.fits hFinished).of_entries hGrown.agree.frames_eq fun ht _ _ =>
    hGrown.agree.entry (by rw [ht]; rfl)
  kernelRoot := h.kernelRoot
  nothing := h.nothing
  builder hb := (hBuilders _ hb).elim (fun hOld => hGrown.of_eq_some (h.builder hOld)) id

theorem ask_finished (hFinished : c.finished = true) (hAllowed : c.system.Allowed request) :
    ∃ plan', Planned plan' trunk reserved { c with system := (c.system.perform request).2 } ∧
      Keeps plan plan' c { c with system := (c.system.perform request).2 } := by
  have hTracks := h.tracks hFinished
  have hHolding : (c.system.holding reserved).Allowed request := System.allowed_holding hAllowed
  have hReserved : ∀ {f}, f ∈ reserved → f ∈ (c.system.holding reserved).held :=
    List.mem_append_right c.system.held
  obtain ⟨-, hKernel, plan', hTracks', hSame, hData⟩ := hTracks.step_data hHolding
  -- The frames of the trunk are none that the request writes.
  have hAside : plan.Aside c.system.kernel.root c.machine (· ∈ reserved) := by
    refine ⟨fun hf => h.beside.notFree_of_reserved hf, fun hf hPlace => ?_⟩
    rw [h.beside.new_of_reserved hf] at hPlace
    cases hPlace
  have hAgree := hTracks.agreeOn_perform hHolding hAside <| by
    rintro p bytes rfl i hi q hq hMem
    exact h.not_mayWrite hMem (hAllowed i hi q hq)
  rw [System.perform_holding hAllowed] at hTracks' hAgree hKernel
  have hBeside := h.beside.of_agreeOn hAgree (fun _ hf => hf) hTracks'.describes.accounts
  refine ⟨plan', ⟨hBeside, fun _ => hTracks'.describes.fits, hTracks'.kernelRoot, fun hNot => ?_, h.builder⟩,
    h.beside.data_step hBeside fun hf => hData (hf.imp_left (List.mem_append_left reserved)), ?_⟩
  · rw [hFinished] at hNot
    cases hNot
  · rintro f ⟨path, hf, hLength⟩
    refine ⟨path, ?_, hLength⟩
    have hRoot : (c.system.perform request).2.kernel.root = c.system.kernel.root := congrArg (·.root) hKernel
    show plan' f = some ⟨(c.system.perform request).2.kernel.root, path⟩
    rw [hRoot]
    exact (hSame f path).2 hf

theorem ask_early (hFinished : c.finished = false) (hAllowed : c.system.Allowed request)
    (hEarly : request.Early) :
    Planned plan trunk reserved { c with system := (c.system.perform request).2 } ∧
      Keeps plan plan c { c with system := (c.system.perform request).2 } := by
  obtain ⟨hNone, hLive⟩ := h.nothing hFinished
  have hLive' : (c.system.perform request).2.live = [] := by
    refine System.no_live_perform hLive ?_
    rintro rfl
    exact hEarly
  have hBeside := h.beside.perform_early (fun _ => h.not_mayWrite) hAllowed hEarly
  refine ⟨⟨hBeside, fun hDone => ?_, fun s hs => ?_, fun _ => ⟨hNone, hLive'⟩, h.builder⟩,
    h.beside.data_step hBeside fun {f x} _ hPlace => ?_, ?_⟩
  · rw [hFinished] at hDone
    cases hDone
  · rw [hLive'] at hs
    cases hs
  · rw [hNone] at hPlace
    cases hPlace
  · rintro f ⟨path, hf, -⟩
    rw [hNone] at hf
    cases hf

/-- A work keeps a plan and a trunk, unless it finishes a kernel. -/
theorem step (hAllowed : c.Allowed work) (hOpen : ∀ b, work ≠ .finish b) :
    ∃ plan' trunk' : Plan, ∃ reserved', (c.perform work).2.Planned plan' trunk' reserved' ∧
      Keeps plan plan' c (c.perform work).2 := by
  cases work with
  | ask request =>
    obtain ⟨-, hRequest, hReady⟩ := hAllowed
    cases hFinished : c.finished with
    | true =>
      obtain ⟨plan', hPlanned⟩ := h.ask_finished hFinished hRequest
      exact ⟨plan', trunk, reserved, hPlanned⟩
    | false =>
      have hEarly := hReady.resolve_left (by simp [hFinished])
      exact ⟨plan, trunk, reserved, h.ask_early hFinished hRequest hEarly⟩
  | newKernel =>
    obtain ⟨o, m', hCreate, trunk', reserved', hGrown, hRoot⟩ := h.beside.begin_outgrows
    rw [perform, conclude, hCreate]
    cases o with
    | error e => exact ⟨plan, trunk', reserved', h.outgrown hGrown fun _ => Or.inl, .refl plan rfl rfl⟩
    | ok b =>
      refine ⟨plan, trunk', reserved', h.outgrown hGrown fun b' hb => ?_, .refl plan rfl rfl⟩
      rcases List.mem_cons.1 hb with rfl | hOld
      · exact Or.inr (hRoot b' rfl)
      · exact Or.inl hOld
  | mapKernel b page frame writable =>
    rcases h.beside.build_cases (h.builder hAllowed) page frame writable with
      ⟨m', hMap, -, -, -, trunk', reserved', hGrown, -⟩ | ⟨level, m', hMap, -, -, hGrown⟩ |
      ⟨v, m', hMap, -, trunk', reserved', hGrown⟩
    all_goals
      rw [perform, conclude, hMap]
      exact ⟨plan, _, _, h.outgrown hGrown fun _ => Or.inl, .refl plan rfl rfl⟩
  | finish b => exact absurd rfl (hOpen b)

/-- When a kernel is finished its tree goes from the trunk to the plan, and its leaf tables are emptied. -/
theorem finish {b : KernelBuilder} (hAllowed : c.Allowed (.finish b)) :
    ∃ memory, ∃ plan' trunk' : Plan, ∃ reserved',
      c.machine.memory.AgreeOn (fun f => ¬ plan'.LeafTable b.root f) memory ∧
      ((c.perform (.finish b)).2.withMachine { (c.perform (.finish b)).2.machine with memory }).Planned
        plan' trunk' reserved' ∧
      Keeps plan plan' c (c.perform (.finish b)).2 := by
  obtain ⟨hMem, hNot⟩ := hAllowed
  obtain ⟨hNone, hLive⟩ := h.nothing hNot
  obtain ⟨memory, reserved', hAgree, hFits, hBeside⟩ := h.beside.finish hNone (h.builder hMem)
  have hTable : ∀ f, trunk.LeafTable b.root f → (trunk.only b.root).LeafTable b.root f := by
    rintro f ⟨path, hf, hLength⟩
    exact ⟨path, Plan.only_eq_some.2 ⟨hf, rfl⟩, hLength⟩
  refine ⟨memory, trunk.only b.root, trunk.uproot b.root, reserved',
    hAgree.mono fun f hNotIn hIn => hNotIn (hTable f hIn),
    ⟨hBeside.of_memory_eq rfl hBeside.accounts, fun _ => ?_, fun s hs => ?_, nofun, fun {b'} hb => ?_⟩,
    fun f _ hData => hData.imp_right ?_, ?_⟩
  · show Plan.Fits _ b.root (c.system.live.map (·.root)) memory
    rw [hLive]
    exact hFits
  · have hMem : s ∈ c.system.live := hs
    rw [hLive] at hMem
    cases hMem
  · obtain ⟨hOld, hNe⟩ := List.mem_filter.1 hb
    refine Plan.uproot_eq_some.2 ⟨h.builder hOld, fun (hRoot : b'.root = b.root) => ?_⟩
    obtain rfl : b' = b := by
      cases b'
      cases b
      exact congrArg KernelBuilder.mk hRoot
    exact of_decide_eq_true hNe rfl
  · rintro ⟨r, path, hf, -⟩
    rw [hNone] at hf
    cases hf
  · rintro f ⟨path, hf, -⟩
    rw [hNone] at hf
    cases hf

end

end Site.Planned

theorem Site.planned_bare (h : m.Idle) : (bare m).Planned (fun _ => none) (fun _ => none) [] := by
  refine ⟨⟨h.frames_le, ⟨h.sound, fun {f} => ?_, List.nodup_nil, nofun⟩, by simp, nofun, nofun, nofun, nofun,
    nofun⟩, nofun, nofun, fun _ => ⟨fun _ => rfl, rfl⟩, nofun⟩
  show f ∈ m.frames.inUse ↔ f ∈ [] ++ [] ∨ none.isSome = true
  rw [h.inUse_eq]
  simp

end PagedKernel
