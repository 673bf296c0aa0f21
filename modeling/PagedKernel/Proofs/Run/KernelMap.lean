import PagedKernel.Proofs.Run.FreeFrames

/-!
# The kernel's tree is a map

A kernel under construction is a finite map: a page has the frame that it was mapped to last, however many
pages share tables with it, and whatever was refused in between. When the kernel is finished this is what
the addresses of the kernel half are translated to. The other half has nothing, in the kernel and in every
space that is created from it.

* `Deed.mapping?`, `lastMapped`: the map, read off what was done.
* `KernelSpace.Maps`: the tree of a kernel is a map.
* `Site.Recorded`: the leaf tables of a trunk have what was mapped last.
* `Site.Recorded.outgrow`: one step of a construction.
* `Site.Run.recorded`: so it is as long as no kernel is finished.
* `Site.Tracked.nothing_created`: a space is created with an empty user half.
* `Site.Run.builds_map`: all of it, for every construction.
-/

namespace PagedKernel

open Plan

/-- What the deed maps the page of `a` to in the tree of `b`, and whether it can be written. -/
def Deed.mapping? (b : KernelBuilder) (a : VirtualAddress) : Deed → Option (Frame × Bool)
  | ⟨.mapKernel b' page frame writable, .mapped (.ok _)⟩ =>
    if b' = b ∧ page.page = a.page then some (frame, writable) else none
  | _ => none

/-- What the page of `a` was mapped to last in the tree of `b`. The deeds are listed latest first. -/
def lastMapped (b : KernelBuilder) (deeds : List Deed) (a : VirtualAddress) : Option (Frame × Bool) :=
  deeds.findSome? (Deed.mapping? b a)

/-- The leaf entry of a kernel page, or of a page that has nothing. -/
def Entry.recorded : Option (Frame × Bool) → Entry
  | some (frame, writable) => .compose writable .global frame
  | none => .empty

/-- The tree of the kernel is a map of its pages, with nothing in the user half. -/
structure KernelSpace.Maps (k : KernelSpace) (m : Memory) (mapped : VirtualAddress → Option (Frame × Bool)) :
    Prop where
  translate (a : VirtualAddress) : a.isKernel = true →
    k.view.translate m a = .ok ((mapped a).map fun x => x.1.join a.offset)
  leaf (a : VirtualAddress) {frame : Frame} {writable : Bool} : a.isKernel = true →
    mapped a = some (frame, writable) → ∃ e, m.leaf? k.root a = .ok (some e) ∧
      e.bits = frame.base.val ||| (if writable then 0x103 else 0x101) ∧ e.user = false
  lower (i : TableIndex) : i.val < 256 → (m.entry ⟨k.root, i⟩).bits = 0

/-- The allocator has what it had, and all frames that are not free hold what they held. -/
structure Machine.Spares (m m' : Machine) : Prop where
  free_eq : m'.frames.free = m.frames.free
  inUse_eq : m'.frames.inUse = m.frames.inUse
  agree : m.memory.AgreeOn (· ∉ m.frames.free) m'.memory

/-- The leaf tables of the trunk have what was mapped last. -/
structure Site.Recorded (trunk : Plan) (m : Memory) (deeds : List Deed) : Prop where
  entry {b : KernelBuilder} {a : VirtualAddress} {t : Frame} : a.isKernel = true →
    trunk t = some ⟨b.root, a.pathTo .pt⟩ →
      m.entry ⟨t, Level.pt.indexOf a⟩ = .recorded (lastMapped b deeds a)
  table {b : KernelBuilder} {a : VirtualAddress} {frame : Frame} {writable : Bool} : a.isKernel = true →
    lastMapped b deeds a = some (frame, writable) →
      frame.number.toNat < 2 ^ 40 ∧ ∃ t, trunk t = some ⟨b.root, a.pathTo .pt⟩

theorem Entry.target_recorded {o : Option (Frame × Bool)} (h : ∀ x ∈ o, x.1.number.toNat < 2 ^ 40) :
    (Entry.recorded o).target = .ok (o.map (·.1)) := by
  cases o with
  | none => exact Entry.target_empty
  | some x => exact Entry.target_compose x.2 .global rfl (by decide) (h x rfl)

variable {plan trunk trunk' : Plan} {held reserved : List Frame} {m m' : Machine} {deeds later : List Deed}
  {c c' d : Site} {b : KernelBuilder} {work : Work}

theorem lastMapped_of_none {deed : Deed} (h : ∀ b a, deed.mapping? b a = none) (b : KernelBuilder)
    (a : VirtualAddress) : lastMapped b (deed :: deeds) a = lastMapped b deeds a := by
  rw [lastMapped, List.findSome?_cons, h]
  rfl

theorem lastMapped_mapKernel (b b' : KernelBuilder) (page a : VirtualAddress) (frame : Frame)
    (writable : Bool) :
    lastMapped b' (⟨.mapKernel b page frame writable, .mapped (.ok ())⟩ :: deeds) a =
      if b = b' ∧ page.page = a.page then some (frame, writable) else lastMapped b' deeds a := by
  rw [lastMapped, List.findSome?_cons, Deed.mapping?]
  by_cases hHere : b = b' ∧ page.page = a.page
  · rw [if_pos hHere, if_pos hHere]
  · rw [if_neg hHere, if_neg hHere]
    rfl

namespace Site

namespace Recorded

/-- One step of a construction. A leaf table that is new belongs to pages that were not mapped before. -/
theorem outgrow {written : Place → Option Entry} {deeds' : List Deed}
    (h : Recorded trunk m.memory deeds) (hGrown : trunk'.Outgrows trunk plan held reserved m m' written)
    (hEntry : ∀ b (a : VirtualAddress), a.isKernel = true → Entry.recorded (lastMapped b deeds' a) =
      (written ⟨b.root, a.path⟩).getD (.recorded (lastMapped b deeds a)))
    (hTable : ∀ b (a : VirtualAddress), a.isKernel = true → ∀ x, lastMapped b deeds' a = some x →
      lastMapped b deeds a = some x ∨
        x.1.number.toNat < 2 ^ 40 ∧ ∃ t, trunk' t = some ⟨b.root, a.pathTo .pt⟩) :
    Recorded trunk' m'.memory deeds' where
  entry {b a t} ha ht := by
    have hLeaf := hGrown.leaf ht rfl (Level.pt.indexOf a)
    rw [hLeaf, hEntry b a ha]
    refine congrArg (Option.getD (written ⟨b.root, a.path⟩)) ?_
    cases hOld : trunk t with
    | some x =>
      have hSame := hGrown.of_eq_some hOld
      rw [ht] at hSame
      rw [← Option.some.inj hSame] at hOld
      exact h.entry ha hOld
    | none =>
      have hNone : lastMapped b deeds a = none := by
        by_contra hSome
        obtain ⟨x, hx⟩ := Option.ne_none_iff_exists'.1 hSome
        obtain ⟨-, u, hu⟩ := h.table ha hx
        rw [← hGrown.beside.place_inj (hGrown.of_eq_some hu) ht, hu] at hOld
        cases hOld
      rw [hNone]
      rfl
  table {b a frame writable} ha hMapped := by
    rcases hTable b a ha _ hMapped with hOld | hNew
    · obtain ⟨hNumber, t, ht⟩ := h.table ha hOld
      exact ⟨hNumber, t, hGrown.of_eq_some ht⟩
    · exact hNew

theorem pass {deed : Deed} (h : Recorded trunk m.memory deeds) (hDeed : ∀ b a, deed.mapping? b a = none)
    (hGrown : trunk'.Outgrows trunk plan held reserved m m' noLeaf) :
    Recorded trunk' m'.memory (deed :: deeds) := by
  refine h.outgrow hGrown (fun b a _ => ?_) fun b a _ x hx => Or.inl ?_
  · rw [lastMapped_of_none hDeed]
    rfl
  · rwa [lastMapped_of_none hDeed] at hx

theorem mapKernel {page : VirtualAddress} {frame : Frame} {writable : Bool}
    (h : Recorded trunk m.memory deeds) (hPage : page.isKernel = true)
    (hNumber : frame.number.toNat < 2 ^ 40)
    (hGrown : trunk'.Outgrows trunk plan held reserved m m' (pageLeaf b page frame writable))
    {t : Frame} (ht : trunk' t = some ⟨b.root, page.pathTo .pt⟩) :
    Recorded trunk' m'.memory (⟨.mapKernel b page frame writable, .mapped (.ok ())⟩ :: deeds) := by
  have hSame : ∀ (b' : KernelBuilder) (a : VirtualAddress), a.isKernel = true →
      ((⟨b'.root, a.path⟩ : Place) = ⟨b.root, page.path⟩ ↔ b = b' ∧ page.page = a.page) := by
    intro b' a ha
    rw [Place.mk.injEq, VirtualAddress.path_eq_iff_of_isKernel ha hPage, ← KernelBuilder.mk.injEq, eq_comm,
      @eq_comm _ a.page]
  refine h.outgrow hGrown (fun b' a ha => ?_) fun b' a ha x hx => ?_
  · rw [lastMapped_mapKernel, pageLeaf]
    simp only [hSame b' a ha]
    split <;> rfl
  · rw [lastMapped_mapKernel] at hx
    split at hx
    next hHere =>
      obtain rfl := Option.some.inj hx
      have hPath := (Place.mk.inj ((hSame b' a ha).2 hHere))
      refine Or.inr ⟨hNumber, t, ?_⟩
      rw [hPath.1, (List.cons.inj hPath.2).2]
      exact ht
    next => exact Or.inl hx

theorem maps (h : Recorded trunk m.memory deeds) (hBeside : trunk.Beside plan held reserved m)
    (hRoot : trunk b.root = some ⟨b.root, []⟩) :
    KernelSpace.Maps ⟨b.root⟩ m.memory (lastMapped b deeds) where
  translate a ha := by
    rcases hBeside.leaf?_cases hRoot a with ⟨t, ht, hLeaf⟩ | ⟨hNone, hLeaf⟩
    · rw [h.entry ha ht] at hLeaf
      have hTarget := Entry.target_recorded fun x (hx : lastMapped b deeds a = some x) => (h.table ha hx).1
      rw [AddressSpace.translate]
      show Except.bind (m.memory.leaf? b.root a) _ = _
      rw [hLeaf]
      show Except.bind (Entry.recorded _).target _ = _
      rw [hTarget]
      cases lastMapped b deeds a <;> rfl
    · have hNothing : lastMapped b deeds a = none := by
        by_contra hSome
        obtain ⟨x, hx⟩ := Option.ne_none_iff_exists'.1 hSome
        obtain ⟨-, t, ht⟩ := h.table ha hx
        exact hNone t ht
      rw [hNothing]
      exact AddressSpace.translate_of_none hLeaf
  leaf a frame writable ha hMapped := by
    obtain ⟨hNumber, t, ht⟩ := h.table ha hMapped
    rcases hBeside.leaf?_cases hRoot a with ⟨u, hu, hLeaf⟩ | ⟨hNone, -⟩
    · rw [h.entry ha hu, hMapped] at hLeaf
      refine ⟨_, hLeaf, Entry.bits_compose_kernel hNumber writable, ?_⟩
      exact Entry.flag_compose writable rfl (by decide) frame
    · exact absurd ht (hNone t)
  lower i hi := by
    rw [hBeside.lower hRoot i (by rwa [kernelRootStart_eq])]
    rfl

end Recorded

/-! ## Constructions -/

/-- What was done keeps a plan and a trunk, and the leaf tables have what was mapped last. -/
theorem Planned.step_recorded (h : c.Planned plan trunk reserved)
    (hRecorded : Recorded trunk c.machine.memory deeds) (hAllowed : c.Allowed work)
    (hOpen : (c.perform work).2.finished = false) :
    ∃ trunk' : Plan, ∃ reserved', (c.perform work).2.Planned plan trunk' reserved' ∧
      Recorded trunk' (c.perform work).2.machine.memory (⟨work, (c.perform work).1⟩ :: deeds) := by
  cases work with
  | ask request =>
    obtain ⟨-, hRequest, hReady⟩ := hAllowed
    have hFinished : c.finished = false := hOpen
    have hEarly := hReady.resolve_left (by simp [hFinished])
    obtain ⟨hPlanned, -⟩ := h.ask_early hFinished hRequest hEarly
    have hAgree := System.agreeOn_early (fun f (hf : f ∈ reserved) => h.not_mayWrite hf) hRequest hEarly
    refine ⟨trunk, reserved, hPlanned, hRecorded.pass (fun _ _ => rfl) ⟨hPlanned.beside, fun hf => hf,
      hAgree.mono fun f hSome => ?_, fun ht _ i => ?_⟩⟩
    · rw [(h.nothing hFinished).1] at hSome
      cases hSome
    · rw [ht]
      exact hAgree.entry (h.beside.reserved_of_trunk ht)
  | newKernel =>
    obtain ⟨o, m', hCreate, trunk', reserved', hGrown, hRoot⟩ := h.beside.begin_outgrows
    rw [perform, conclude, hCreate]
    refine ⟨trunk', reserved', ?_⟩
    cases o with
    | error e => exact ⟨h.outgrown hGrown fun _ => Or.inl, hRecorded.pass (fun _ _ => rfl) hGrown⟩
    | ok b =>
      refine ⟨h.outgrown hGrown fun b' hb => ?_, hRecorded.pass (fun _ _ => rfl) hGrown⟩
      rcases List.mem_cons.1 hb with rfl | hOld
      · exact Or.inr (hRoot b' rfl)
      · exact Or.inl hOld
  | mapKernel b page frame writable =>
    rcases h.beside.build_cases (h.builder hAllowed) page frame writable with
      ⟨m', hMap, hPage, hNumber, -, trunk', reserved', hGrown, t, ht⟩ | ⟨level, m', hMap, -, -, hGrown⟩ |
      ⟨v, m', hMap, -, trunk', reserved', hGrown⟩
    · rw [perform, conclude, hMap]
      exact ⟨trunk', reserved', h.outgrown hGrown fun _ => Or.inl,
        hRecorded.mapKernel hPage hNumber hGrown ht⟩
    · rw [perform, conclude, hMap]
      exact ⟨trunk, reserved, h.outgrown hGrown fun _ => Or.inl, hRecorded.pass (fun _ _ => rfl) hGrown⟩
    · rw [perform, conclude, hMap]
      exact ⟨trunk', reserved', h.outgrown hGrown fun _ => Or.inl, hRecorded.pass (fun _ _ => rfl) hGrown⟩
  | finish b => cases hOpen

theorem open_of_perform (hOpen : (c.perform work).2.finished = false) : c.finished = false := by
  cases work with
  | ask request => exact hOpen
  | newKernel =>
    rw [perform, conclude] at hOpen
    cases hCreate : KernelBuilder.create c.machine with
    | error v m => rwa [hCreate] at hOpen
    | ok o m =>
      rw [hCreate] at hOpen
      cases o <;> exact hOpen
  | mapKernel b page frame writable =>
    rw [perform, conclude] at hOpen
    cases hMap : b.map page frame writable c.machine with
    | error v m => rwa [hMap] at hOpen
    | ok o m => rwa [hMap] at hOpen
  | finish b => cases hOpen

/-- As long as no kernel is finished, the leaf tables have what was mapped last. -/
theorem Run.recorded {start : Machine} (hStart : start.Idle) (hRun : Run (.bare start) deeds c)
    (hOpen : c.finished = false) :
    ∃ plan trunk : Plan, ∃ reserved, c.Planned plan trunk reserved ∧
      Recorded trunk c.machine.memory deeds := by
  induction hRun with
  | start => exact ⟨_, _, _, planned_bare hStart, nofun, nofun⟩
  | next before work hAllowed ih =>
    obtain ⟨plan, trunk, reserved, hPlanned, hRecorded⟩ := ih (open_of_perform hOpen)
    exact ⟨plan, hPlanned.step_recorded hRecorded hAllowed hOpen⟩

/-! ## Spaces created from the kernel -/

theorem Run.append {start : Site} (hRun : Run start deeds c) (hLater : Run c later d) :
    Run start (later ++ deeds) d := by
  induction hLater with
  | start => exact hRun
  | next before work hAllowed ih => exact ih.next work hAllowed

theorem finished_perform (hFinished : c.finished = true) (hAllowed : c.Allowed work) :
    (c.perform work).2.finished = true ∧ (c.perform work).2.system.kernel = c.system.kernel := by
  cases work with
  | ask request => exact ⟨hFinished, System.kernel_perform request⟩
  | newKernel =>
    rw [perform, conclude]
    cases KernelBuilder.create c.machine with
    | error v m => exact ⟨hFinished, rfl⟩
    | ok o m => cases o <;> exact ⟨hFinished, rfl⟩
  | mapKernel b page frame writable =>
    rw [perform, conclude]
    cases b.map page frame writable c.machine <;> exact ⟨hFinished, rfl⟩
  | finish b =>
    rw [hAllowed.2] at hFinished
    cases hFinished

theorem Run.finished_eq (hRun : Run c later d) (hFinished : c.finished = true) :
    d.finished = true ∧ d.system.kernel = c.system.kernel := by
  induction hRun with
  | start => exact ⟨hFinished, rfl⟩
  | next before work hAllowed ih =>
    have hNext := finished_perform ih.1 hAllowed
    exact ⟨hNext.1, hNext.2.trans ih.2⟩

namespace Tracked

variable (h : c.Tracked plan trunk reserved)

include h

theorem kernelRoot (hFinished : c.finished = true) :
    c.machine.memory.holds c.system.kernel.root = true ∧ ∀ i : TableIndex, i.val < kernelRootStart →
      c.machine.memory.entry ⟨c.system.kernel.root, i⟩ = .empty := by
  obtain ⟨masked, hPlanned, hTwins⟩ := h
  have hFits := hPlanned.fits hFinished
  have hPlace : plan c.system.kernel.root = some ⟨c.system.kernel.root, []⟩ := hFits.kernel_place
  have hUse : c.system.kernel.root ∈ masked.frames.inUse := hPlanned.inUse_of_place hPlace
  have hSeen : ¬ c.Shaded plan c.system.kernel.root :=
    hPlanned.not_shaded_of_place hPlace (Nat.zero_lt_succ 3) fun _ => nofun
  refine ⟨?_, fun i hi => ?_⟩
  · rw [hTwins.holds_eq]
    exact hFits.holds hPlace
  · rw [@Machine.Twins.entry _ _ _ ⟨c.system.kernel.root, i⟩ hTwins hUse hSeen]
    exact hFits.lower i hi

/-- A space that is created belongs to the kernel, and has nothing in the user half. -/
theorem nothing_created {s : AddressSpace} (hFinished : c.finished = true)
    (hMade : c.perform (.ask .create) = (.answered (.made s), c')) :
    s.kernelRoot = c.system.kernel.root ∧
      ∀ a : VirtualAddress, a.isUser = true → s.translate c'.machine.memory a = .ok none := by
  have hSound : c.machine.frames.Sound c.machine.memory := h.charted.sound
  obtain ⟨hKernel, hLower⟩ := h.kernelRoot hFinished
  by_cases hSupply : c.machine.frames.supply = 0
  · obtain ⟨m', hCreate, -⟩ := @AddressSpace.create_refused c.system.kernel _ hSupply
    rw [perform, System.perform, System.conclude_ok hCreate] at hMade
    cases hMade
  · obtain ⟨f, rest, hFree⟩ := FrameAllocator.exists_free_of_supply (Nat.pos_of_ne_zero hSupply)
    have hMem : f ∈ c.machine.frames.free := hFree ▸ List.mem_cons_self
    have hHolds := hSound.free_holds hMem
    obtain ⟨m', hCreate, -, hMemory⟩ := AddressSpace.create_made hFree (hSound.free_new hMem)
      (Nat.pos_of_ne_zero hSupply) hHolds hKernel
    rw [perform, System.perform, System.conclude_ok hCreate] at hMade
    cases hMade
    refine ⟨rfl, fun a ha => AddressSpace.translate_of_none ?_⟩
    show m'.memory.leaf? f a = .ok none
    rw [hMemory, Memory.leaf?, Memory.lookup, Memory.lookupFrom_missing rfl (by simpa using hHolds)]
    · rfl
    · rw [Memory.entry_setTable hHolds, if_pos rfl, Memory.get_table, hLower _ (a.indexOf_pml4_lt ha),
        Entry.target_empty]

end Tracked

/-! ## All of it -/

/-- **The kernel's tree is the map of what was mapped last.** A machine whose memory may hold anything has
gone through any disciplined construction of a kernel, with any requests for frames and any refusals in
between. Mapping a page of it succeeds, or the frames do not last and nothing has changed. When it is
finished, every address of the kernel half has the frame that its page was mapped to last, if there is one,
and every space that is created then or later has nothing in the user half. -/
theorem Run.builds_map {start : Machine} (hStart : start.Idle) (hRun : Run (.bare start) deeds c)
    (hOpen : c.finished = false) (hb : b ∈ c.builders) :
    (∀ (page : VirtualAddress) (frame : Frame) (writable : Bool), page.isAligned = true →
      page.isKernel = true → frame.number.toNat < 2 ^ 40 →
      ∃ o c', c.perform (.mapKernel b page frame writable) = (.mapped o, c') ∧
        ∀ e, o = .error e → c.machine.Spares c'.machine) ∧
    ∃ c', c.perform (.finish b) = (.finished ⟨b.root⟩, c') ∧
      KernelSpace.Maps ⟨b.root⟩ c'.machine.memory (lastMapped b deeds) ∧
      ∀ later d s d', Run c' later d → d.perform (.ask .create) = (.answered (.made s), d') →
        s.kernelRoot = b.root ∧
          ∀ a : VirtualAddress, a.isUser = true → s.translate d'.machine.memory a = .ok none := by
  obtain ⟨plan, trunk, reserved, hPlanned, hRecorded⟩ := hRun.recorded hStart hOpen
  refine ⟨fun page frame writable hAligned hKernel hNumber => ?_, _, rfl, ?_, ?_⟩
  · rcases hPlanned.beside.build_cases (hPlanned.builder hb) page frame writable with
      ⟨m', hMap, -⟩ | ⟨level, m', hMap, -, hUndone, -⟩ | ⟨v, m', -, hNot, -⟩
    · rw [perform, conclude, hMap]
      exact ⟨_, _, rfl, fun _ hError => by cases hError⟩
    · rw [perform, conclude, hMap]
      refine ⟨_, _, rfl, fun _ _ => ⟨hUndone.free_eq, hUndone.inUse_eq, hUndone.agree.mono ?_⟩⟩
      exact fun f hf hMem => hf (List.mem_of_mem_take hMem)
    · exact absurd ⟨hAligned, hKernel, hNumber⟩ hNot
  · exact hRecorded.maps hPlanned.beside (hPlanned.builder hb)
  · intro later d s d' hLater hMade
    have hWhole := (hRun.next (.finish b) ⟨hb, hOpen⟩).append hLater
    obtain ⟨plan', trunk', reserved', hTracked⟩ := hWhole.tracked hStart
    obtain ⟨hFinished, hSame⟩ := hLater.finished_eq rfl
    obtain ⟨hRoot, hNothing⟩ := hTracked.nothing_created hFinished hMade
    exact ⟨hRoot.trans (congrArg (·.root) hSame), hNothing⟩

theorem Run.exists_built {start : Machine} (hStart : start.Idle) (hRun : Run (.bare start) deeds c)
    (hOpen : c.finished = false) (hb : b ∈ c.builders) {page : VirtualAddress} {frame : Frame}
    (hPage : page.isAligned = true ∧ page.isKernel = true ∧ frame.number.toNat < 2 ^ 40)
    (hSupply : 3 ≤ c.machine.frames.supply) (writable : Bool) :
    ∃ c', Run (.bare start) (⟨.mapKernel b page frame writable, .mapped (.ok ())⟩ :: deeds) c' ∧
      c'.finished = false ∧ c'.builders = c.builders ∧
      c.machine.frames.supply ≤ c'.machine.frames.supply + 3 := by
  obtain ⟨plan, trunk, reserved, hPlanned, -⟩ := hRun.recorded hStart hOpen
  have hNext := hRun.next (.mapKernel b page frame writable) hb
  rcases hPlanned.beside.build_cases (hPlanned.builder hb) page frame writable with
    ⟨m', hMap, -, -, hLeft, -⟩ | ⟨level, m', -, hShort, -⟩ | ⟨v, m', -, hNot, -⟩
  · rw [perform, conclude, hMap] at hNext
    exact ⟨_, hNext, hOpen, rfl, hLeft⟩
  · omega
  · exact absurd hPage hNot

/-- On a machine of sixteen frames a kernel page is mapped twice, to frames that do not exist. It is the
second one that its addresses are translated to. -/
theorem Run.builds_map_sixteen : ∃ deeds c b c',
    Run (.bare (Machine.ofFrames 16 default)) deeds c ∧ c.finished = false ∧ b ∈ c.builders ∧
    c.perform (.finish b) = (.finished ⟨b.root⟩, c') ∧
    (KernelSpace.view ⟨b.root⟩).translate c'.machine.memory ⟨0xffff800000001234⟩ =
      .ok (some ⟨0x5678234⟩) := by
  have hStart := Machine.idle_ofFrames (show 16 ≤ 2 ^ 40 by decide) default
  have hPage : ∀ n < 2 ^ 40, (⟨0xffff800000001000⟩ : VirtualAddress).isAligned = true ∧
      (⟨0xffff800000001000⟩ : VirtualAddress).isKernel = true ∧
      (Frame.ofNumber (UInt64.ofNat n)).number.toNat < 2 ^ 40 := by
    intro n hn
    refine ⟨by decide, by decide, ?_⟩
    rwa [Frame.toNat_number_ofNumber (by omega)]
  obtain ⟨b, m, -, hSupply, hRun₀⟩ := @Run.exists_begun 16 (by decide) (by decide)
  obtain ⟨c₁, hRun₁, hOpen₁, hSame₁, hSupply₁⟩ := hRun₀.exists_built hStart rfl (List.mem_singleton_self b)
    (hPage 0x1234 (by decide)) (show 3 ≤ m.frames.supply by omega) true
  have hLeft : m.frames.supply ≤ c₁.machine.frames.supply + 3 := hSupply₁
  have hb₁ : b ∈ c₁.builders := hSame₁ ▸ List.mem_singleton_self b
  obtain ⟨c₂, hRun₂, hOpen₂, hSame₂, -⟩ := hRun₁.exists_built hStart hOpen₁ hb₁ (hPage 0x5678 (by decide))
    (by omega) false
  have hb₂ : b ∈ c₂.builders := hSame₂ ▸ hb₁
  obtain ⟨-, c', hFinish, hMaps, -⟩ := Run.builds_map hStart hRun₂ hOpen₂ hb₂
  refine ⟨_, c₂, b, c', hRun₂, hOpen₂, hb₂, hFinish, ?_⟩
  rw [hMaps.translate _ (by decide), lastMapped_mapKernel, if_pos ⟨rfl, by decide⟩]
  rfl

end Site

end PagedKernel
