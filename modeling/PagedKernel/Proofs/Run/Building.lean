import PagedKernel.Proofs.Run.Spared

/-!
# Building the kernel's tree

Before there are address spaces a caller builds the kernel's: it makes the root table, takes frames and
maps pages of the kernel half to them, in any order and also in place of pages that it mapped before,
and finishes. After each step it does its books, as after a traversal.

* `System.Building`, `System.Built`: the systems with a kernel that is being built, and that is finished.
* `Plan.KernelOnly`: no leaf of the kernel's tree lets a user program in.
* `Plan.Describes.build_cases`: the ways for the builder to map a page.
* `System.Building.tracks`, `System.Built.tracks`: a plan tracks these systems, and has this property.
* `System.Built.of_boot`: booting builds a kernel.
-/

namespace PagedKernel

/-- The systems with a kernel under construction. There is no address space yet, and the caller maps
frames that it holds. -/
inductive System.Building : System → Prop
  | created {frames : Nat} (hFrames : frames ≤ 2 ^ 40) {active : Frame} {b : KernelBuilder} {m : Machine}
      (hCreate : KernelBuilder.create (Machine.ofFrames frames active) = .ok (.ok b) m) :
      Building (.booted ⟨b.root⟩ m)
  | request {σ : System} (before : Building σ) (request : Request) (hEarly : request ≠ .create)
      (hAllowed : σ.Allowed request) : Building (σ.perform request).2
  | map {σ : System} (before : Building σ) (page : VirtualAddress) (frame : Frame) (writable : Bool)
      (hHeld : frame ∈ σ.held) {held : List Frame}
      (hBooks : σ.Rebooked
        { σ.after (KernelBuilder.map ⟨σ.kernel.root⟩ page frame writable) with held := held }) :
      Building { σ.after (KernelBuilder.map ⟨σ.kernel.root⟩ page frame writable) with held := held }

/-- The systems with a kernel that is finished. The processor may translate with any tables by then. -/
inductive System.Built : System → Prop
  | finish {σ : System} (before : Building σ) {k : KernelSpace} {m : Machine}
      (hFinish : KernelBuilder.finish ⟨σ.kernel.root⟩ σ.machine = .ok k m) (mmu : Mmu) :
      Built { σ with machine := { m with mmu := mmu }, kernel := k }

/-- No present leaf of the kernel's tree lets a user program in. -/
def Plan.KernelOnly (plan : Plan) (kernel : Frame) (m : Memory) : Prop :=
  ∀ {t : Frame} {path : List TableIndex}, plan t = some ⟨kernel, path⟩ → path.length = 3 →
    ∀ i, (m.entry ⟨t, i⟩).present = true → (m.entry ⟨t, i⟩).user = false

namespace Plan

variable {plan plan' : Plan} {kernel r r' t u f : Frame} {roots held : List Frame} {m : Machine}
  {m' : Memory} {a : VirtualAddress} {l : Level} {path : List TableIndex}

theorem Releafed.kernelOnly (h : Releafed plan plan' m') (hOnly : plan.KernelOnly kernel m') :
    plan'.KernelOnly kernel m' := by
  intro t path ht hLength
  exact hOnly ((h.table (show path.length ≠ 4 by omega)).1 ht) hLength

variable {σ σ₁ σ' : System} {plan₁ : Plan} {frame : Frame} {page : VirtualAddress} {writable : Bool}

theorem Tracks.rebooked (h : plan.Tracks σ) (h₁ : plan₁.Tracks σ₁) (hHeld : σ₁.held = σ.held)
    (hPages : ∀ f, plan₁.AtDepth 4 f ↔ plan.AtDepth 4 f) (hBooks : σ.Rebooked σ') : σ₁.Rebooked σ' := by
  refine ⟨hBooks.nodup, fun f => ?_⟩
  have hMaps : σ₁.Maps f ↔ σ.Maps f := by
    rw [System.Maps, System.Maps, h.describes.fits.atDepth_iff, h₁.describes.fits.atDepth_iff, hPages]
  rw [hBooks.mem_iff, hHeld, hMaps]

theorem Tracks.booked (h : plan.Tracks σ) {held : List Frame}
    (hBooks : σ.Rebooked { σ with held := held }) :
    ∃ plan' : Plan, Releafed plan plan' σ.machine.memory ∧ plan'.Tracks { σ with held := held } := by
  have hWritten := h.rewritten_of_samePage
    (.refl plan TableIndex.all (fun _ e e' => e.SamePage e') σ.machine.memory) fun _ _ _ h => h
  exact h.rewritten hWritten hBooks

theorem Tracks.grown (h : plan.Tracks σ) (hLive : σ.live = [])
    (hHalf : OwnHalf σ.kernel.root σ.kernel.root a) (ht : plan t = some ⟨σ.kernel.root, a.pathTo l⟩)
    (hBare : Bare σ.machine a l t) {m : Machine} (hMemory : m.memory = (σ.machine.grow a l t).memory)
    (hFrames : m.frames = σ.machine.frames.serve l.height) :
    (plan.grow σ.kernel.root a l (σ.machine.frames.free.take l.height)).Tracks (σ.withMachine m) := by
  have hGrown := h.describes.grow hHalf (fun _ => by rw [hLive]; rfl) ht hBare
  refine ⟨⟨?_, ?_⟩, h.kernelRoot⟩
  · show Fits _ _ _ m.memory
    rw [hMemory]
    exact hGrown.fits
  · show Accounts _ _ m.memory m.frames
    rw [hMemory, hFrames]
    exact hGrown.accounts

theorem Describes.atDepth_grow (h : plan.Describes kernel roots held m) :
    (plan.grow r a l (m.frames.free.take l.height)).AtDepth 4 f ↔ plan.AtDepth 4 f := by
  constructor
  · rintro ⟨r', path, hf, hLength⟩
    rcases grow_eq_some (h.take_nodup _) (h.take_new _) hf with hOld | ⟨-, l', -, hPlace⟩
    · exact ⟨r', path, hOld, hLength⟩
    · have hShort := a.length_pathTo_lt l'
      rw [← (Place.mk.inj hPlace).2, hLength] at hShort
      exact absurd hShort (Nat.lt_irrefl 4)
  · rintro ⟨r', path, hf, hLength⟩
    exact ⟨r', path, grow_of_eq_some (h.take_nodup _) (h.take_new _) hf, hLength⟩

theorem Describes.rewritten_setEntry (h : plan.Describes kernel roots held m)
    (ht : plan t = some ⟨r, path⟩) (hLength : path.length = 3) (hHeld : f ∈ held) (i : TableIndex)
    {e : Entry} (hTarget : e.target = .ok (some f)) :
    plan.Rewritten held m.memory (m.memory.setEntry ⟨t, i⟩ e) := by
  have hEntry : ∀ slot, (m.memory.setEntry ⟨t, i⟩ e).entry slot =
      if slot = ⟨t, i⟩ then e else m.memory.entry slot :=
    Memory.entry_setEntry (s := ⟨t, i⟩) (h.fits.holds ht) e
  have hOld : ∀ {u g j}, plan.AtDepth 3 u → (m.memory.entry ⟨u, j⟩).target = .ok (some g) →
      ∃ r' q, plan u = some ⟨r', q⟩ ∧ q.length = 3 ∧ plan g = some ⟨r', j :: q⟩ := by
    rintro u g j ⟨r', q, hu, hq⟩ hg
    exact ⟨r', q, hu, hq, (h.fits.leaf hu hq j).2 g hg⟩
  -- The caller's frame was mapped nowhere.
  have hFresh : ∀ {u j}, plan.AtDepth 3 u → (m.memory.entry ⟨u, j⟩).target ≠ .ok (some f) := by
    intro u j hu hf
    obtain ⟨r', q, -, -, hPlace⟩ := hOld hu hf
    rw [h.accounts.held_new hHeld] at hPlace
    cases hPlace
  refine ⟨(Memory.agreeOn_setEntry (s := ⟨t, i⟩) (h.fits.holds ht) e).mono ?_, ?_, ?_, ?_⟩
  · rintro g hg rfl
    exact hg ⟨r, path, ht, hLength⟩
  · rintro u ⟨r', q, hu, hq⟩ j
    rw [hEntry]
    split
    · exact (Entry.target_eq_some.1 hTarget).2.1
    · exact (h.fits.leaf hu hq j).1
  · intro u g j hu hg
    rw [hEntry] at hg
    split at hg
    · rw [hTarget] at hg
      obtain rfl : f = g := by simpa using hg
      exact Or.inl hHeld
    · obtain ⟨r', q, -, hq, hPlace⟩ := hOld hu hg
      exact Or.inr ⟨r', _, hPlace, by rw [List.length_cons, hq]⟩
  · intro u v g j j' hu hv hg hg'
    rw [hEntry] at hg hg'
    split at hg <;> split at hg'
    next hSlot hSlot' => rw [hSlot, hSlot']
    next =>
      rw [hTarget] at hg
      obtain rfl : f = g := by simpa using hg
      exact absurd hg' (hFresh hv)
    next =>
      rw [hTarget] at hg'
      obtain rfl : f = g := by simpa using hg'
      exact absurd hg (hFresh hu)
    next =>
      obtain ⟨r', q, hPlu, -, hPlace⟩ := hOld hu hg
      obtain ⟨r'', q', hPlv, -, hPlace'⟩ := hOld hv hg'
      rw [hPlace] at hPlace'
      obtain ⟨rfl, rfl, rfl⟩ : r' = r'' ∧ j = j' ∧ q = q' := by simpa using hPlace'
      rw [h.fits.place_inj hPlu hPlv]

/-- The builder has mapped a page: the walk has stopped at `t`, made the tables below and written the
leaf entry. -/
structure Built (plan : Plan) (s s' : Machine) (kernel : Frame) (page : VirtualAddress) (frame : Frame)
    (writable : Bool) (l : Level) (t : Frame) : Prop where
  inKernel : page.isKernel = true
  place : plan t = some ⟨kernel, page.pathTo l⟩
  bare : Bare s page l t
  supply : l.height ≤ s.frames.supply
  frames_eq : s'.frames = s.frames.serve l.height
  memory_eq : s'.memory = (s.grow page l t).memory.setEntry
    ⟨s.leafTable l t, Level.pt.indexOf page⟩ (Entry.compose writable .global frame)

/-- The ways for the builder to map a page to a frame that the caller holds. -/
theorem Describes.build_cases (h : plan.Describes kernel roots held m) (hHeld : frame ∈ held)
    (page : VirtualAddress) (writable : Bool) :
    (∃ v, KernelBuilder.map ⟨kernel⟩ page frame writable m = .error v m) ∨
      (∃ level m', KernelBuilder.map ⟨kernel⟩ page frame writable m =
        .ok (.error (.outOfMemory level)) m' ∧ Undone m m' level page) ∨
      ∃ m' l t, KernelBuilder.map ⟨kernel⟩ page frame writable m = .ok (.ok ()) m' ∧
        Built plan m m' kernel page frame writable l t := by
  by_cases hArguments : page.isAligned = true ∧ page.isKernel = true
  · obtain ⟨hAligned, hKernel⟩ := hArguments
    have hHalf : OwnHalf kernel kernel page :=
      iff_of_true rfl (VirtualAddress.le_indexOf_pml4 hKernel)
    obtain ⟨l, t, hDescends, ht, hBare⟩ := h.bare hHalf h.fits.kernel_place
    by_cases hSupply : l.height ≤ m.frames.supply
    · have hNumber := Memory.number_lt_of_holds h.fits.frames_le (h.accounts.holds_of_held hHeld)
      obtain ⟨m', hMap, hFrames, hMemory⟩ := @KernelBuilder.map_made _ _ ⟨kernel⟩ _ writable _ _ hAligned
        hKernel hDescends hBare hSupply hNumber
      exact Or.inr (Or.inr ⟨m', l, t, hMap, hKernel, ht, hBare, hSupply, hFrames, hMemory⟩)
    · obtain ⟨level, m', hMap, hUndone⟩ := @KernelBuilder.map_undone _ frame ⟨kernel⟩ _ writable _ _
        hAligned hKernel hDescends hBare (Nat.lt_of_not_le hSupply)
      exact Or.inr (Or.inl ⟨level, m', hMap, hUndone⟩)
  · exact Or.inl (@KernelBuilder.map_refused m frame ⟨kernel⟩ _ writable hArguments)

theorem Tracks.built (h : plan.Tracks σ) (hLive : σ.live = []) (hHeld : frame ∈ σ.held)
    (hBuilt : Built plan σ.machine m σ.kernel.root page frame writable l t)
    {books : List Frame} (hBooks : σ.Rebooked { σ.withMachine m with held := books }) :
    ∃ plan' : Plan, plan'.Tracks { σ.withMachine m with held := books } ∧
      plan' frame = some ⟨σ.kernel.root, page.path⟩ ∧
      (plan.KernelOnly σ.kernel.root σ.machine.memory → plan'.KernelOnly σ.kernel.root m.memory) := by
  obtain ⟨hKernel, ht, hBare, hSupply, hFrames, hMemory⟩ := hBuilt
  have hHalf : OwnHalf σ.kernel.root σ.kernel.root page :=
    iff_of_true rfl (VirtualAddress.le_indexOf_pml4 hKernel)
  -- First the tables are made, then the entry is written.
  have hGrown := h.grown hLive hHalf ht hBare (m := { m with memory := (σ.machine.grow page l t).memory })
    rfl hFrames
  have hLeaf := h.describes.grow_leafTable ht hSupply
  have hNumber := Memory.number_lt_of_holds h.describes.fits.frames_le
    (h.describes.accounts.holds_of_held hHeld)
  have hTarget := Entry.target_compose writable .global rfl (by decide) hNumber
  have hWritten : (plan.grow σ.kernel.root page l (σ.machine.frames.free.take l.height)).Rewritten σ.held
      (σ.machine.grow page l t).memory m.memory := by
    rw [hMemory]
    exact hGrown.describes.rewritten_setEntry hLeaf rfl hHeld (Level.pt.indexOf page) hTarget
  have hSame := h.rebooked hGrown rfl (fun _ => h.describes.atDepth_grow) hBooks
  obtain ⟨plan', hPlan, hTracks⟩ := hGrown.rewritten hWritten hSame
  have hHolds : (σ.machine.grow page l t).memory.holds (σ.machine.leafTable l t) = true :=
    hGrown.describes.fits.holds hLeaf
  have hEntry : ∀ slot, m.memory.entry slot =
      if slot = ⟨σ.machine.leafTable l t, Level.pt.indexOf page⟩ then Entry.compose writable .global frame
      else (σ.machine.grow page l t).memory.entry slot := by
    rw [hMemory]
    exact Memory.entry_setEntry (s := ⟨σ.machine.leafTable l t, Level.pt.indexOf page⟩) hHolds _
  refine ⟨plan', hTracks, (hPlan.page rfl).2 ⟨_, hLeaf, ?_⟩,
    fun hOnly => hPlan.kernelOnly fun {u path} hu hLength i => ?_⟩
  · rw [hEntry, if_pos rfl, hTarget]
  rw [hEntry]
  split
  · intro _
    rw [Entry.user, Entry.flag_compose writable rfl (by decide)]
    rfl
  · rcases hBare.entry_leaf_grow ht (fun _ => h.describes.accounts.new_of_free) hSupply
        hGrown.describes.fits.place_inj hu hLength i with ⟨hOld, hSameEntry⟩ | ⟨-, hEmpty⟩
    · rw [hSameEntry]
      exact hOnly hOld hLength i
    · rw [hEmpty, Entry.present_empty]
      exact nofun

/-- Mapping a page of the kernel keeps a plan, however it ends. -/
theorem Tracks.build (h : plan.Tracks σ) (hLive : σ.live = []) (hHeld : frame ∈ σ.held)
    {books : List Frame} (hBooks : σ.Rebooked
      { σ.after (KernelBuilder.map ⟨σ.kernel.root⟩ page frame writable) with held := books }) :
    ∃ plan' : Plan,
      plan'.Tracks
        { σ.after (KernelBuilder.map ⟨σ.kernel.root⟩ page frame writable) with held := books } ∧
      (plan.KernelOnly σ.kernel.root σ.machine.memory → plan'.KernelOnly σ.kernel.root
        (σ.after (KernelBuilder.map ⟨σ.kernel.root⟩ page frame writable)).machine.memory) := by
  rw [System.after] at hBooks ⊢
  rcases h.describes.build_cases hHeld page writable with
    ⟨v, hMap⟩ | ⟨level, m, hMap, hUndone⟩ | ⟨m, l, t, hMap, hBuilt⟩
  · rw [System.conclude_error hMap] at hBooks ⊢
    obtain ⟨plan', hPlan, hTracks⟩ := h.booked hBooks
    exact ⟨plan', hTracks, fun hOnly => hPlan.kernelOnly hOnly⟩
  · rw [System.conclude_ok hMap] at hBooks ⊢
    have h₁ : plan.Tracks (σ.withMachine m) := ⟨h.describes.undone hUndone, h.kernelRoot⟩
    obtain ⟨plan', hPlan, hTracks⟩ := h₁.booked (h.rebooked h₁ rfl (fun _ => Iff.rfl) hBooks)
    refine ⟨plan', hTracks, fun hOnly => hPlan.kernelOnly fun {u path} hu hLength i => ?_⟩
    have hEntry : m.memory.entry ⟨u, i⟩ = σ.machine.memory.entry ⟨u, i⟩ :=
      hUndone.agree.entry fun hMem => h.describes.accounts.notMem_free hu (List.mem_of_mem_take hMem)
    show (m.memory.entry ⟨u, i⟩).present = true → (m.memory.entry ⟨u, i⟩).user = false
    rw [hEntry]
    exact hOnly hu hLength i
  · rw [System.conclude_ok hMap] at hBooks ⊢
    obtain ⟨plan', hTracks, -, hOnly⟩ := h.built hLive hHeld hBuilt hBooks
    exact ⟨plan', hTracks, hOnly⟩

/-- A request changes no leaf of the kernel's. -/
theorem Tracks.kernelOnly_perform (h : plan.Tracks σ) {request : Request}
    (hAllowed : σ.Allowed request) (hSame : SameTree σ.kernel.root plan plan')
    (hOnly : plan.KernelOnly σ.kernel.root σ.machine.memory) :
    plan'.KernelOnly σ.kernel.root (σ.perform request).2.machine.memory := by
  intro t path ht hLength i
  have hPlace := (hSame t path).1 ht
  have hAgree := h.agreeOn_kernelTables hAllowed
  rw [hAgree.entry (s := ⟨t, i⟩) ⟨path, hPlace, by omega⟩]
  exact hOnly hPlace hLength i

end Plan

namespace System

variable {σ : System}

theorem kernel_perform (request : Request) : (σ.perform request).2.kernel = σ.kernel := by
  have hConclude : ∀ {α : Type} (x : MachineM α) (after : α → System → Reply × System),
      (∀ o m, (after o (σ.withMachine m)).2.kernel = σ.kernel) → (σ.conclude x after).2.kernel = σ.kernel :=
    fun _ _ hAfter => conclude_of (P := (·.kernel = σ.kernel)) (fun _ => rfl) hAfter
  cases request with
  | limit _ | unlimit => rfl
  | create => exact hConclude _ _ fun o _ => by cases o <;> rfl
  | map s page kernelAlias writable =>
    refine hConclude _ _ fun o m => ?_
    cases o with
    | error e => rfl
    | ok _ => exact kernel_giveUp kernelAlias
  | alloc | free _ | unmap _ _ | markDirty _ _ _ | markAccessed _ _ _ | activate _ | destroy _ | copyTo _ _ _
  | copyFrom _ _ _ | write _ _ => exact hConclude _ _ fun _ _ => rfl

/-- Where there is no space, there is none after any request but one. -/
theorem no_live_perform (hLive : σ.live = []) {request : Request} (hEarly : request ≠ .create) :
    (σ.perform request).2.live = [] := by
  have hConclude : ∀ {α : Type} (x : MachineM α) (after : α → System → Reply × System),
      (∀ o m, (after o (σ.withMachine m)).2.live = []) → (σ.conclude x after).2.live = [] :=
    fun _ _ hAfter => conclude_of (P := (·.live = [])) (fun _ => hLive) hAfter
  cases request with
  | create => exact absurd rfl hEarly
  | limit _ | unlimit => exact hLive
  | map s page kernelAlias writable =>
    refine hConclude _ _ fun o m => ?_
    cases o with
    | error e => exact hLive
    | ok _ => exact (live_giveUp kernelAlias).trans hLive
  | destroy s =>
    refine hConclude _ _ fun _ m => ?_
    show σ.live.erase s = []
    rw [hLive, List.erase_nil]
  | alloc | free _ | unmap _ _ | markDirty _ _ _ | markAccessed _ _ _ | activate _ | copyTo _ _ _
  | copyFrom _ _ _ | write _ _ => exact hConclude _ _ fun _ _ => hLive

theorem tracks_created {frames : Nat} (hFrames : frames ≤ 2 ^ 40) {active : Frame} {b : KernelBuilder}
    {m : Machine} (hCreate : KernelBuilder.create (Machine.ofFrames frames active) = .ok (.ok b) m) :
    (Plan.put (fun _ => none) b.root ⟨b.root, []⟩).Tracks (.booted ⟨b.root⟩ m) := by
  have hSound := FrameAllocator.sound_ofFrames hFrames
  by_cases hSupply : (Machine.ofFrames frames active).frames.supply = 0
  · rw [KernelBuilder.create_refused hSupply] at hCreate
    cases hCreate
  · obtain ⟨f, rest, hFree⟩ := FrameAllocator.exists_free_of_supply (Nat.pos_of_ne_zero hSupply)
    have hMem : f ∈ (Machine.ofFrames frames active).frames.free := hFree ▸ List.mem_cons_self
    obtain ⟨m', hMade, hServed, hMemory⟩ := KernelBuilder.create_made hFree (hSound.free_new hMem)
      (Nat.pos_of_ne_zero hSupply) (hSound.free_holds hMem)
    rw [hMade] at hCreate
    cases hCreate
    exact ⟨Machine.describes_root hSound rfl hFrames hFree hMemory hServed, nofun⟩

namespace Building

/-- A plan tracks every system with a kernel under construction, and there is no space in it. -/
theorem tracks (h : Building σ) : σ.live = [] ∧
    ∃ plan : Plan, plan.Tracks σ ∧ plan.KernelOnly σ.kernel.root σ.machine.memory := by
  induction h with
  | created hFrames hCreate =>
    refine ⟨rfl, _, tracks_created hFrames hCreate, fun {t path} ht hLength => ?_⟩
    obtain ⟨-, hPlace⟩ := Plan.put_none_eq_some.1 ht
    rw [(Place.mk.inj hPlace).2] at hLength
    cases hLength
  | request before request hEarly hAllowed ih =>
    obtain ⟨hLive, plan, hTracks, hOnly⟩ := ih
    obtain ⟨-, hKernel, plan', hTracks', hSame⟩ := hTracks.step hAllowed
    refine ⟨no_live_perform hLive hEarly, plan', hTracks', ?_⟩
    rw [hKernel]
    exact hTracks.kernelOnly_perform hAllowed hSame hOnly
  | @map σ before page frame writable hHeld held hBooks ih =>
    obtain ⟨hLive, plan, hTracks, hOnly⟩ := ih
    obtain ⟨plan', hTracks', hOnly'⟩ := hTracks.build hLive hHeld hBooks
    refine ⟨(σ.live_after _).trans hLive, plan', hTracks', ?_⟩
    show plan'.KernelOnly (σ.after _).kernel.root _
    rw [kernel_after]
    exact hOnly' hOnly

end Building

/-- A plan tracks every system with a finished kernel. -/
theorem Built.tracks (h : Built σ) : σ.live = [] ∧
    ∃ plan : Plan, plan.Tracks σ ∧ plan.KernelOnly σ.kernel.root σ.machine.memory := by
  cases h with
  | finish before hFinish mmu =>
    cases hFinish
    obtain ⟨hLive, plan, hTracks, hOnly⟩ := before.tracks
    exact ⟨hLive, plan, ⟨⟨hTracks.describes.fits, hTracks.describes.accounts⟩, hTracks.kernelRoot⟩, hOnly⟩

theorem takeFrame?_of_takeFrame {m m' : Machine} {f : Frame} (h : MachineM.takeFrame m = .ok f m') :
    MachineM.takeFrame? m = .ok (some f) m' := by
  rw [MachineM.takeFrame] at h
  obtain ⟨o, m₁, hTake, hGiven⟩ := Stateful.ok_of_bind h
  cases o with
  | none => cases hGiven
  | some g =>
    cases hGiven
    exact hTake

namespace Building

theorem first {plan : Plan} {m : Machine} {frame : Frame} {page : VirtualAddress} {writable : Bool}
    (hBuilding : Building σ) (h : plan.Tracks σ) (hNothing : ∀ f, ¬ plan.AtDepth 4 f)
    (hHeld : σ.held = [frame])
    (hMap : KernelBuilder.map ⟨σ.kernel.root⟩ page frame writable σ.machine = .ok (.ok ()) m) :
    Building { σ.withMachine m with held := [] } := by
  have hMem : frame ∈ σ.held := hHeld ▸ List.mem_singleton_self frame
  have hAfter : σ.after (KernelBuilder.map ⟨σ.kernel.root⟩ page frame writable) = σ.withMachine m := by
    rw [after, conclude_ok hMap]
  have hMaps : (σ.withMachine m).Maps frame := by
    obtain ⟨books, hBooks⟩ := h.exists_rebooked (σ.withMachine m)
    rcases h.describes.build_cases hMem page writable with
      ⟨v, hFail⟩ | ⟨level, m', hFail, -⟩ | ⟨m', l, t, hDone, hBuilt⟩
    · rw [hMap] at hFail
      cases hFail
    · rw [hMap] at hFail
      cases hFail
    · rw [hMap] at hDone
      cases hDone
      obtain ⟨plan', hTracks, hPlace, -⟩ := h.built hBuilding.tracks.1 hMem hBuilt hBooks
      exact hTracks.describes.fits.atDepth_iff.2 ⟨_, _, hPlace, rfl⟩
  have hBooks : σ.Rebooked { σ.withMachine m with held := [] } := by
    refine ⟨List.nodup_nil, fun f => iff_of_false List.not_mem_nil ?_⟩
    rintro ⟨hOld | hOld, hNot⟩
    · rw [hHeld, List.mem_singleton] at hOld
      exact hNot (hOld ▸ hMaps)
    · exact hNothing f (h.describes.fits.atDepth_iff.1 hOld)
  rw [← hAfter] at hBooks ⊢
  exact hBuilding.map page frame writable hMem hBooks

end Building

/-- Booting builds a kernel, with one page. -/
theorem Built.of_boot {frames : Nat} {k : KernelSpace} {m : Machine} (hFrames : frames ≤ 2 ^ 40)
    (hBoot : Machine.boot frames = .ok (k, m)) : Built (.booted k m) := by
  rw [Machine.boot] at hBoot
  split at hBoot
  next k' m' hKernel =>
    cases hBoot
    rw [bootKernel] at hKernel
    obtain ⟨o, m₁, hCreate, hBuild⟩ := Stateful.ok_of_bind hKernel
    cases o with
    | error e => cases hBuild
    | ok b =>
      obtain ⟨image, m₂, hTake, hRest⟩ := Stateful.ok_of_bind hBuild
      obtain ⟨o, m₃, hMap, hFinish⟩ := Stateful.ok_of_bind hRest
      cases o with
      | error e => cases hFinish
      | ok _ =>
        obtain ⟨k', m₄, hDone, hTell⟩ := Stateful.ok_of_bind hFinish
        cases hTell
        have hCreated := tracks_created hFrames hCreate
        have hTaken := (Building.created hFrames hCreate).request .alloc (by simp) trivial
        obtain ⟨f, -, hQuiet⟩ := hCreated.perform_alloc
        have hAlloc : (System.booted ⟨b.root⟩ m₁).perform .alloc =
            (.given (some image), { System.booted ⟨b.root⟩ m₂ with held := [image] }) := by
          rw [perform, conclude_ok (takeFrame?_of_takeFrame hTake)]
          rfl
        rw [hAlloc] at hTaken hQuiet
        have hFirst := hTaken.first hQuiet.tracks ?_ rfl hMap
        · cases hDone
          exact .finish hFirst rfl _
        · rintro f ⟨r, path, hPlace, hLength⟩
          rw [(Place.mk.inj (Plan.put_none_eq_some.1 hPlace).2).2] at hLength
          cases hLength
  next => cases hBoot

end System

end PagedKernel
