import PagedKernel.Proofs.Run.Shaded

/-!
# What free frames hold

Frames go from the allocator to the caller, into the trees and back, and what they held stays in them.
It does not matter: two machines that differ in the bytes of free frames alone go the same way. They hand
out the same frames, fail in the same way and invalidate the same pages, and they answer all questions
about address spaces alike. Every frame that becomes a table is overwritten before it is read.

* `Site.Root`, `AddressSpace.Answers`: the trees, and what two machines say about one.
* `Site.Tracked.answers`: twins say the same.
* `Site.Run.twin`: runs from twins.
* `Site.Run.exists_finished`, `Site.Run.exists_created`: two frames are enough for a kernel, and one more for
  a space.
* `Site.Run.ignores_freeFrames`: runs from machines that differ in the bytes of free frames.
-/

namespace PagedKernel

open Stateful Machine

/-- The frame is the root table of a space that the caller knows, or of a kernel under construction. -/
def Site.Root (c : Site) (r : Frame) : Prop :=
  (c.finished = true ∧ ∃ s, c.system.Knows s ∧ s.root = r) ∨ ∃ b ∈ c.builders, b.root = r

/-- Both machines answer every question about the space alike, and show the same leaves to every visitor
that only looks. -/
structure AddressSpace.Answers (s : AddressSpace) (m m' : Machine) : Prop where
  translate (a : VirtualAddress) : s.translate m'.memory a = s.translate m.memory a
  aliasOf (a : VirtualAddress) : s.aliasOf m'.memory a = s.aliasOf m.memory a
  resolve (a : VirtualAddress) (access : Access) :
    s.resolve m'.memory a access = s.resolve m.memory a access
  dirtyAt (a : VirtualAddress) : s.dirtyAt m'.memory a = s.dirtyAt m.memory a
  accessedAt (a : VirtualAddress) : s.accessedAt m'.memory a = s.accessedAt m.memory a
  visitLeaves {κ β : Type} {visitor : Visitor κ β} (hReads : visitor.Reads) (k : κ) :
    Coincide (fun _ n n' => n = m ∧ n' = m') (fun n n' => n = m ∧ n' = m')
      (s.visitLeaves visitor k m) (s.visitLeaves visitor k m')
  visitUserLeaves {κ β : Type} {visitor : Visitor κ β} (hReads : visitor.Reads) (k : κ) :
    Coincide (fun _ n n' => n = m ∧ n' = m') (fun n n' => n = m ∧ n' = m')
      (s.visitUserLeaves visitor k m) (s.visitUserLeaves visitor k m')

variable {plan trunk : Plan} {reserved : List Frame} {c d : Site} {start m : Machine}
  {before deeds : List Deed} {s : AddressSpace} {r : Frame}

namespace Site.Tracked

variable (h : c.Tracked plan trunk reserved)

include h

theorem chart_root (hRoot : c.Root r) : plan.AtDepth 0 r ∨ trunk.AtDepth 0 r := by
  obtain ⟨masked, hPlanned, -⟩ := h
  rcases hRoot with ⟨hFinished, s, hs, rfl⟩ | ⟨b, hb, rfl⟩
  · exact Or.inl ⟨_, _, (hPlanned.fits hFinished).place_of_root (Plan.Tracks.knows_root hs), rfl⟩
  · exact Or.inr ⟨_, _, hPlanned.builder hb, rfl⟩

theorem answers (hTwins : c.machine.Twins (plan.Data c.system.held) m) (hRoot : c.Root s.root) :
    s.Answers c.machine m := by
  have hChart := h.charted
  have hTop := h.chart_root hRoot
  have hLeaf := fun a => @Twins.leaf?_eq _ _ _ _ _ a _ hTwins hChart hTop trivial
  have hTables := hTwins.sameTables hChart fun _ => trivial
  exact ⟨fun a => AddressSpace.translate_congr (hLeaf a), fun a => AddressSpace.aliasOf_congr (hLeaf a),
    fun a => AddressSpace.resolve_congr (hLeaf a), fun a => AddressSpace.dirtyAt_congr (hLeaf a),
    fun a => AddressSpace.accessedAt_congr (hLeaf a),
    fun hReads k => Leaves.run_coincide hReads hTables hTop TableIndex.all k,
    fun hReads k => Leaves.run_coincide hReads hTables hTop TableIndex.userHalf k⟩

end Site.Tracked

/-- From twins the same deeds lead to twins. -/
theorem Site.Run.twin (hRun : Site.Run c deeds d) (h : c.Tracked plan trunk reserved)
    (hTwins : c.machine.Twins (plan.Data c.system.held) m) :
    ∃ m' plan' trunk' reserved', Site.Run (c.withMachine m) deeds (d.withMachine m') ∧
      d.Tracked plan' trunk' reserved' ∧ d.machine.Twins (plan'.Data d.system.held) m' := by
  induction hRun with
  | start => exact ⟨m, plan, trunk, reserved, .start, h, hTwins⟩
  | @next deeds d before work hAllowed ih =>
    obtain ⟨n, plan₁, trunk₁, reserved₁, hSame, h₁, hTwins₁⟩ := ih
    have hVisible := h₁.visible.anti fun _ => Or.inl
    obtain ⟨n', hPerform, hTwins₂⟩ := hVisible.perform_twin hTwins₁ hAllowed
    obtain ⟨plan₂, trunk₂, reserved₂, h₂, hData⟩ := h₁.step hAllowed
    have hNext := hSame.next work ((hVisible.allowed_iff hTwins₁).2 hAllowed)
    rw [hPerform] at hNext
    refine ⟨n', plan₂, trunk₂, reserved₂, hNext, h₂, hTwins₂.mono fun f hUse hf => ?_⟩
    exact hf.elim (hData f hUse) Or.inl

/-! ## Runs on small machines -/

theorem Machine.idle_ofFrames {frames : Nat} (h : frames ≤ 2 ^ 40) (active : Frame) :
    (Machine.ofFrames frames active).Idle :=
  ⟨h, FrameAllocator.sound_ofFrames h, rfl⟩

/-- A machine can be spoiled as long as a frame is free. -/
theorem Machine.exists_spoiled (hSound : m.frames.Sound m.memory) (hSupply : 0 < m.frames.supply) :
    ∃ memory, memory ≠ m.memory ∧ m.memory.AgreeOn (· ∉ m.frames.free) memory := by
  obtain ⟨f, rest, hFree⟩ := FrameAllocator.exists_free_of_supply hSupply
  have hMem : f ∈ m.frames.free := hFree ▸ List.mem_cons_self
  have hHolds : m.memory.holds f.base.frame = true := by
    rw [Frame.frame_base]
    exact hSound.free_holds hMem
  obtain ⟨b, hOther⟩ : ∃ b : UInt8, b ≠ m.memory.byte f.base.val.toNat := by
    by_cases hZero : m.memory.byte f.base.val.toNat = 0
    · exact ⟨1, hZero ▸ by decide⟩
    · exact ⟨0, Ne.symm hZero⟩
  refine ⟨m.memory.setByte f.base.val.toNat b, fun hSame => hOther ?_,
    (Memory.agreeOn_setByte hHolds b).mono ?_⟩
  · have hByte := Memory.byte_setByte m.memory (Memory.lt_of_holds hHolds) b f.base.val.toNat
    rw [hSame, if_pos rfl] at hByte
    exact hByte.symm
  · rintro g hg rfl
    rw [Frame.frame_base] at hg
    exact hg hMem

theorem Site.Run.exists_begun {frames : Nat} (hEnough : 2 ≤ frames) (hFrames : frames ≤ 2 ^ 40) :
    ∃ b m, KernelBuilder.create (Machine.ofFrames frames default) = .ok (.ok b) m ∧
      m.frames.supply = frames - 2 ∧
      Site.Run (.bare (Machine.ofFrames frames default)) [⟨.newKernel, .begun (.ok b)⟩]
        ⟨.booted ⟨default⟩ m, false, [b]⟩ := by
  have hSound := FrameAllocator.sound_ofFrames hFrames
  have hSupply := Machine.supply_ofFrames frames
  obtain ⟨f, rest, hFree⟩ := @FrameAllocator.exists_free_of_supply (.ofFrames frames) (by omega)
  have hMem : f ∈ (FrameAllocator.ofFrames frames).free := hFree ▸ List.mem_cons_self
  obtain ⟨m, hCreate, hServed, -⟩ := @KernelBuilder.create_made (.ofFrames frames default) f rest hFree
    (hSound.free_new hMem) (show 0 < (FrameAllocator.ofFrames frames).supply by omega)
    (hSound.free_holds hMem)
  have hBegun : (bare (.ofFrames frames default)).perform .newKernel =
      (.begun (.ok ⟨f⟩), ⟨.booted ⟨default⟩ m, false, [⟨f⟩]⟩) := by
    have hMachine : (bare (.ofFrames frames default)).machine = .ofFrames frames default := rfl
    rw [perform, conclude, hMachine, hCreate]
    rfl
  have hRun := (@Site.Run.start (.bare (.ofFrames frames default))).next .newKernel trivial
  rw [hBegun] at hRun
  refine ⟨_, m, hCreate, ?_, hRun⟩
  rw [hServed, FrameAllocator.supply_serve]
  show (FrameAllocator.ofFrames frames).supply - 1 = _
  omega

theorem Site.Run.exists_finished {frames : Nat} (hEnough : 2 ≤ frames) (hFrames : frames ≤ 2 ^ 40) :
    ∃ deeds c, ∃ plan : Plan, Site.Run (.bare (Machine.ofFrames frames default)) deeds c ∧
      c.finished = true ∧ plan.Tracks c.system ∧ c.system.live = [] ∧
      c.machine.frames.supply = frames - 2 := by
  obtain ⟨b, m, hCreate, hSupply, hRun⟩ := Site.Run.exists_begun hEnough hFrames
  have hQuiet := @Plan.Tracks.quiet_of_memory_eq _ _ { m with log := .kernelFinished b.root :: m.log }
    (System.tracks_created hFrames hCreate) rfl rfl rfl
  exact ⟨_, _, _, hRun.next (.finish b) ⟨List.mem_singleton_self _, rfl⟩, rfl, hQuiet.tracks, rfl, hSupply⟩

theorem Site.Run.exists_created {c₀ : Site} (hRun : Site.Run c₀ deeds c) (hFinished : c.finished = true)
    (hTracks : plan.Tracks c.system) (hSupply : 0 < c.machine.frames.supply) :
    ∃ s d, ∃ plan' : Plan, Site.Run c₀ (⟨.ask .create, .answered (.made s)⟩ :: deeds) d ∧
      d.finished = true ∧ plan'.Tracks d.system ∧ d.system.live = s :: c.system.live ∧
      d.machine.frames.supply = c.machine.frames.supply - 1 := by
  obtain ⟨r, m, hMade, -, hServed, hTracks', -⟩ := hTracks.create_served hSupply
  have hNext := hRun.next (.ask .create) ⟨trivial, trivial, Or.inl hFinished⟩
  rw [perform, hMade] at hNext
  refine ⟨_, _, _, hNext, hFinished, hTracks', rfl, ?_⟩
  show m.frames.supply = _
  rw [hServed, FrameAllocator.supply_serve]
  rfl

/-! ## Any machine -/

/-- **It does not matter what free frames hold.** From every site that the discipline leads to, and from
the same site with other bytes in the free frames, the same works come to the same things: the two
allocators, all that was invalidated and the log stay the same, and so do the answers about all trees.
Every part of a run is a run, so this is so after each work. -/
theorem Site.Run.ignores_freeFrames (hStart : start.Idle) (hBefore : Site.Run (.bare start) before c)
    (hFrames : m.frames = c.machine.frames) (hMmu : m.mmu = c.machine.mmu) (hLog : m.log = c.machine.log)
    (hAgree : c.machine.memory.AgreeOn (· ∉ c.machine.frames.free) m.memory)
    (hRun : Site.Run c deeds d) :
    ∃ m', Site.Run (c.withMachine m) deeds (d.withMachine m') ∧ m'.frames = d.machine.frames ∧
      m'.mmu = d.machine.mmu ∧ m'.log = d.machine.log ∧
      ∀ s : AddressSpace, d.Root s.root → s.Answers d.machine m' := by
  obtain ⟨plan, trunk, reserved, h⟩ := hBefore.tracked hStart
  have hTwins : c.machine.Twins (plan.Data c.system.held) m :=
    ⟨hFrames, hMmu, hLog, hAgree.mono fun f hf hFree => h.new_of_free hFree hf.1⟩
  obtain ⟨m', plan', trunk', reserved', hSame, h', hTwins'⟩ := hRun.twin h hTwins
  exact ⟨m', hSame, hTwins'.frames_eq, hTwins'.mmu_eq, hTwins'.log_eq, fun s => h'.answers hTwins'⟩

/-- Two spaces are created, the second one also on a machine that was spoiled. -/
theorem Site.Run.ignores_freeFrames_sixteen : ∃ before c memory s t d,
    Site.Run (.bare (Machine.ofFrames 16 default)) before c ∧ c.system.live = [s] ∧
    memory ≠ c.machine.memory ∧ c.machine.memory.AgreeOn (· ∉ c.machine.frames.free) memory ∧
    Site.Run c [⟨.ask .create, .answered (.made t)⟩] d ∧ d.system.live = [t, s] ∧
    ∃ m', Site.Run (c.withMachine { c.machine with memory })
        [⟨.ask .create, .answered (.made t)⟩] (d.withMachine m') ∧
      t.Answers d.machine m' := by
  obtain ⟨deeds, c₀, plan₀, hRun₀, hFinished₀, hTracks₀, hLive₀, hSupply₀⟩ :=
    @Site.Run.exists_finished 16 (by decide) (by decide)
  obtain ⟨s, c, plan, hBefore, hFinished, hTracks, hLive, hSupply⟩ :=
    hRun₀.exists_created hFinished₀ hTracks₀ (by omega)
  obtain ⟨t, d, plan', hRun, hFinished', -, hLive', -⟩ :=
    (@Site.Run.start c).exists_created hFinished hTracks (by omega)
  obtain ⟨memory, hNe, hAgree⟩ := @Machine.exists_spoiled c.machine hTracks.describes.accounts.sound
    (by omega)
  obtain ⟨m', hSame, -, -, -, hAnswers⟩ := @Site.Run.ignores_freeFrames _ _ _ { c.machine with memory } _ _
    (Machine.idle_ofFrames (by decide) default) hBefore rfl rfl rfl hAgree hRun
  rw [hLive₀] at hLive
  rw [hLive] at hLive'
  refine ⟨_, c, memory, s, t, d, hBefore, hLive, hNe, hAgree, hRun, hLive', m', hSame, hAnswers t ?_⟩
  exact Or.inl ⟨hFinished', t, Or.inl (hLive' ▸ List.mem_cons_self), rfl⟩

end PagedKernel
