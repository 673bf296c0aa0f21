import PagedKernel.Proofs.AddressSpace.Copying
import PagedKernel.Proofs.AddressSpace.Creation
import PagedKernel.Proofs.AddressSpace.Leaf
import PagedKernel.Proofs.AddressSpace.Teardown
import PagedKernel.Proofs.Machine.Boot
import PagedKernel.Proofs.Run.Basic

/-!
# What a request does

A plan tracks a system when it describes the machine with the live spaces and the books of the caller.
Most requests are quiet: the plan still tracks the system, and every user address of every space has
what it had. There is one lemma for each request, with all the ways for it to end.

* `Plan.Tracks`: the plan tracks the system.
* `System.Quiet`: nothing that the trees say has changed.
* `System.Replaced`: one leaf has.
* `Plan.Tracks.perform_map` and its like: the requests one by one.
* `System.Effect`, `Plan.Tracks.effect`: all of them together.
-/

namespace PagedKernel

structure Plan.Tracks (plan : Plan) (σ : System) : Prop where
  describes : plan.Describes σ.kernel.root (σ.live.map (·.root)) σ.held σ.machine
  kernelRoot : ∀ s ∈ σ.live, s.kernelRoot = σ.kernel.root

/-- The trees of the system, and what its spaces have at user addresses, are what they were. -/
structure System.Quiet (plan : Plan) (σ σ' : System) : Prop where
  tracks : plan.Tracks σ'
  live_eq : σ'.live = σ.live
  kernel_eq : σ'.kernel = σ.kernel
  leaf_eq : ∀ s ∈ σ.live, ∀ a : VirtualAddress, a.isUser = true →
    σ'.machine.memory.leaf? s.root a = σ.machine.memory.leaf? s.root a

/-- One leaf was replaced: its page has the new entry, and all else is what it was. -/
structure System.Replaced (σ σ' : System) (s : AddressSpace) (a : VirtualAddress) (e : Entry) :
    Prop where
  live_eq : σ'.live = σ.live
  kernel_eq : σ'.kernel = σ.kernel
  leaf_eq : Plan.Replaced (σ.live.map (·.root)) σ.machine σ'.machine s.root a e

namespace System

variable {α : Type} {σ : System} {x : MachineM α} {after : α → System → Reply × System} {m : Machine}

theorem conclude_ok {a : α} (h : x σ.machine = .ok a m) :
    σ.conclude x after = after a (σ.withMachine m) := by
  rw [conclude, h]

theorem conclude_error {v : Violation} (h : x σ.machine = .error v m) :
    σ.conclude x after = (.broken v, σ.withMachine m) := by
  rw [conclude, h]

theorem conclude_of {P : System → Prop} (hMachine : ∀ m, P (σ.withMachine m))
    (hAfter : ∀ a m, P (after a (σ.withMachine m)).2) : P (σ.conclude x after).2 := by
  rw [conclude]
  split
  · exact hAfter _ _
  · exact hMachine _

@[simp] theorem machine_giveUp (σ : System) (kernelAlias : VirtualAddress) :
    (σ.giveUp kernelAlias).machine = σ.machine := by
  rw [giveUp]
  split <;> rfl

@[simp] theorem kernel_giveUp (kernelAlias : VirtualAddress) : (σ.giveUp kernelAlias).kernel = σ.kernel := by
  rw [giveUp]
  split <;> rfl

@[simp] theorem live_giveUp (kernelAlias : VirtualAddress) : (σ.giveUp kernelAlias).live = σ.live := by
  rw [giveUp]
  split <;> rfl

/-- When mapping is done, the page was mapped. -/
theorem exists_of_map_done {σ' : System} {s : AddressSpace} {page kernelAlias : VirtualAddress}
    {writable : Bool} (h : σ.perform (.map s page kernelAlias writable) = (.done, σ')) :
    ∃ m, s.map page kernelAlias writable σ.machine = .ok (.ok ()) m ∧
      σ' = (σ.withMachine m).giveUp kernelAlias := by
  cases hRun : s.map page kernelAlias writable σ.machine with
  | error v m =>
    rw [perform, conclude_error hRun] at h
    cases (Prod.mk.inj h).1
  | ok reply m =>
    rw [perform, conclude_ok hRun] at h
    cases reply with
    | error e => cases (Prod.mk.inj h).1
    | ok => exact ⟨m, rfl, (Prod.mk.inj h).2.symm⟩

theorem allowed_map {s : AddressSpace} {page kernelAlias : VirtualAddress} {p : PhysicalAddress}
    (hs : σ.Knows s) (hBehind : Memory.behind kernelAlias = .ok p) (hHeld : p.frame ∈ σ.held)
    (writable : Bool) : σ.Allowed (.map s page kernelAlias writable) := by
  refine ⟨hs, fun q hq => ?_⟩
  obtain rfl : p = q := Except.ok.inj (hBehind.symm.trans hq)
  exact hHeld

theorem frameAt_of_translate {s : AddressSpace} {a : VirtualAddress} {f : Frame}
    (h : s.translate σ.machine.memory a = .ok (some (f.join a.offset))) : σ.frameAt s a = [f] := by
  rw [frameAt, h]
  show [(f.join a.offset).frame] = [f]
  rw [Frame.frame_join]

/-- A write changes the frames that its addresses lie in, and nothing but memory. -/
theorem write_cases (σ : System) (keep : Frame → Prop) {p : PhysicalAddress} {bytes : List UInt8}
    (hKeep : ∀ i < bytes.length, ∀ q, p.add i = .ok q → ¬ keep q.frame) :
    ∃ memory, σ.machine.memory.AgreeOn keep memory ∧
      (σ.perform (.write p bytes)).1 ≠ .broken .hugePage ∧
      (σ.perform (.write p bytes)).2 = σ.withMachine { σ.machine with memory := memory } := by
  obtain ⟨memory, hWrite, hAgree⟩ := Memory.writeFrom_cases (m := σ.machine.memory) keep p 0 bytes <| by
    intro j hj q hq
    rw [Nat.zero_add] at hq
    exact hKeep j hj q hq
  refine ⟨memory, hAgree, ?_⟩
  rw [perform, conclude, MachineM.onMemory]
  rcases hWrite with hOk | ⟨v, hv, hError⟩
  · simp only [Memory.write, hOk]
    simp
  · simp only [Memory.write, hError]
    simpa using hv

end System

namespace Plan.Tracks

variable {plan : Plan} {σ σ' : System} {s s' : AddressSpace} {m : Machine}

theorem root_mem (hs : s ∈ σ.live) : s.root ∈ σ.live.map (·.root) := List.mem_map_of_mem hs

theorem isKernel_of_live (h : plan.Tracks σ) (hs : s ∈ σ.live) : s.isKernel = false := by
  have hNe := h.describes.fits.ne_kernel (root_mem hs)
  simpa [AddressSpace.isKernel, h.kernelRoot s hs] using hNe

/-- Live spaces are told apart by their roots. -/
theorem eq_of_root (h : plan.Tracks σ) (hs : s ∈ σ.live) (hs' : s' ∈ σ.live)
    (hRoot : s.root = s'.root) : s = s' :=
  AddressSpace.ext hRoot ((h.kernelRoot s hs).trans (h.kernelRoot s' hs').symm)

theorem knows_root (hs : σ.Knows s) : s.root = σ.kernel.root ∨ s.root ∈ σ.live.map (·.root) := by
  rcases hs with hs | rfl
  · exact Or.inr (root_mem hs)
  · exact Or.inl rfl

theorem isKernel_view (k : KernelSpace) : k.view.isKernel = true := by
  simp [AddressSpace.isKernel, KernelSpace.view]

theorem live_of_knows (hs : σ.Knows s) (hKernel : s.isKernel = false) : s ∈ σ.live := by
  rcases hs with hs | rfl
  · exact hs
  · rw [isKernel_view] at hKernel
    cases hKernel

/-- A change that no table sees is quiet. -/
theorem quiet (h : plan.Tracks σ) (h' : plan.Tracks σ') (hLive : σ'.live = σ.live)
    (hKernel : σ'.kernel = σ.kernel)
    (hEntry : ∀ {t r path}, plan t = some ⟨r, path⟩ → path.length < 4 →
      ∀ i, σ'.machine.memory.entry ⟨t, i⟩ = σ.machine.memory.entry ⟨t, i⟩) : σ.Quiet plan σ' where
  tracks := h'
  live_eq := hLive
  kernel_eq := hKernel
  leaf_eq s hs a ha := by
    have hFits' := h'.describes.fits
    rw [hLive, hKernel] at hFits'
    have hRoot := h.describes.fits.root_place (root_mem hs)
    refine h.describes.fits.leaf?_congr hFits' (h.describes.fits.ownHalf (root_mem hs) ha) hRoot hRoot
      (fun _ => Iff.rfl) fun t ht => hEntry ht ?_ _
    simp [Level.depth]

theorem quiet_withMachine (h : plan.Tracks σ) (keep : Frame → Prop)
    (hAgree : σ.machine.memory.AgreeOn keep m.memory)
    (hKeep : ∀ {t r path}, plan t = some ⟨r, path⟩ → path.length < 4 → keep t)
    (hFree : m.frames.free = σ.machine.frames.free) (hUse : m.frames.inUse = σ.machine.frames.inUse) :
    σ.Quiet plan (σ.withMachine m) :=
  h.quiet ⟨h.describes.of_agreeOn hAgree hKeep hFree hUse, h.kernelRoot⟩ rfl rfl
    fun ht hLength _ => hAgree.entry (hKeep ht hLength)

theorem quiet_of_memory_eq (h : plan.Tracks σ) (hMemory : m.memory = σ.machine.memory)
    (hFree : m.frames.free = σ.machine.frames.free) (hUse : m.frames.inUse = σ.machine.frames.inUse) :
    σ.Quiet plan (σ.withMachine m) :=
  h.quiet_withMachine (fun _ => True) (hMemory ▸ Memory.AgreeOn.refl _ _) (fun _ _ => trivial)
    hFree hUse

theorem quiet_self (h : plan.Tracks σ) : σ.Quiet plan (σ.withMachine σ.machine) :=
  h.quiet_of_memory_eq rfl rfl rfl

/-! ## Requests that are quiet -/

theorem alloc_served (h : plan.Tracks σ) (hSupply : 0 < σ.machine.frames.supply) :
    ∃ f m, σ.perform .alloc = (.given (some f), { σ.withMachine m with held := f :: σ.held }) ∧
      m.memory = σ.machine.memory ∧ m.frames = σ.machine.frames.serve 1 ∧
      σ.Quiet plan { σ.withMachine m with held := f :: σ.held } := by
  obtain ⟨f, rest, hFree⟩ := FrameAllocator.exists_free_of_supply hSupply
  have hNew := h.describes.accounts.sound.free_new (hFree ▸ List.mem_cons_self)
  have hAlloc := MachineM.takeFrame?_of_alloc
    (FrameAllocator.alloc_of_supply_pos hFree hNew hSupply)
  rw [System.perform, System.conclude_ok hAlloc]
  refine ⟨f, _, rfl, rfl, rfl, h.quiet ⟨?_, h.kernelRoot⟩ rfl rfl fun _ _ _ => rfl⟩
  exact h.describes.take hFree rfl rfl

theorem perform_alloc (h : plan.Tracks σ) :
    ∃ f, (σ.perform .alloc).1 = .given f ∧ σ.Quiet plan (σ.perform .alloc).2 := by
  by_cases hSupply : σ.machine.frames.supply = 0
  · have hAlloc := MachineM.takeFrame?_of_alloc (FrameAllocator.alloc_of_supply_eq_zero hSupply)
    rw [System.perform, System.conclude_ok hAlloc]
    exact ⟨none, rfl, h.quiet_of_memory_eq rfl rfl rfl⟩
  · obtain ⟨f, m, hServed, -, -, hSame⟩ := h.alloc_served (Nat.pos_of_ne_zero hSupply)
    rw [hServed]
    exact ⟨some f, rfl, hSame⟩

theorem free_held (h : plan.Tracks σ) {f : Frame} (hHeld : f ∈ σ.held) :
    ∃ m, σ.perform (.free f) = (.done, { σ.withMachine m with held := σ.held.erase f }) ∧
      σ.Quiet plan { σ.withMachine m with held := σ.held.erase f } := by
  have hUse := h.describes.accounts.mem_inUse.2 (Or.inl hHeld)
  rw [System.perform, System.conclude_ok (MachineM.giveFrame_of_mem hUse)]
  refine ⟨_, rfl, h.quiet ⟨⟨h.describes.fits, ?_⟩, h.kernelRoot⟩ rfl rfl fun _ _ _ => rfl⟩
  exact h.describes.accounts.give hHeld

theorem perform_activate (h : plan.Tracks σ) (s : Option AddressSpace) :
    (σ.perform (.activate s)).1 = .done ∧ σ.Quiet plan (σ.perform (.activate s)).2 := by
  cases s with
  | none => exact ⟨rfl, h.quiet_of_memory_eq rfl rfl rfl⟩
  | some s => exact ⟨rfl, h.quiet_of_memory_eq rfl rfl rfl⟩

theorem perform_copyTo (h : plan.Tracks σ) (hs : σ.Knows s) (dst : VirtualAddress)
    (bytes : List UInt8) :
    ∃ o, (σ.perform (.copyTo s dst bytes)).1 = .copied o ∧
      σ.Quiet plan (σ.perform (.copyTo s dst bytes)).2 := by
  obtain ⟨o, m, hCopy, hFrames, hAgree⟩ := h.describes.copyTo_eq (knows_root hs) dst bytes
  rw [System.perform, System.conclude_ok hCopy]
  exact ⟨o, rfl, h.quiet_withMachine _ hAgree Plan.Describes.notPage_of_table (by rw [hFrames])
    (by rw [hFrames])⟩

theorem perform_copyFrom (h : plan.Tracks σ) (hs : σ.Knows s) (src : VirtualAddress)
    (buffer : List UInt8) :
    ∃ o : List UInt8 × Except UserFault Unit, (σ.perform (.copyFrom s src buffer)).1 = .filled o.1 o.2 ∧
      σ.Quiet plan (σ.perform (.copyFrom s src buffer)).2 := by
  obtain ⟨o, hCopy⟩ := h.describes.copyFrom_eq (knows_root hs) src buffer
  rw [System.perform, System.conclude_ok hCopy]
  exact ⟨o, rfl, h.quiet_self⟩

theorem place_of_frameAt (h : plan.Tracks σ) {f : Frame} (hs : s ∈ σ.live) {a : VirtualAddress}
    (ha : a.isUser = true) (hAt : f ∈ σ.frameAt s a) : plan f = some ⟨s.root, a.path⟩ := by
  rcases h.describes.fits.translate_cases (root_mem hs) ha with ⟨hNone, -⟩ | ⟨g, hg, hSome⟩
  · rw [System.frameAt, hNone] at hAt
    cases hAt
  · rw [System.frameAt_of_translate hSome] at hAt
    rwa [List.mem_singleton.1 hAt]

/-- What the caller may write is no table. -/
theorem not_table_of_mayWrite (h : plan.Tracks σ) {f r : Frame} {path : List TableIndex}
    (hWrite : σ.MayWrite f) (hPlace : plan f = some ⟨r, path⟩) : ¬ path.length < 4 := by
  rcases hWrite with hHeld | ⟨s, hs, a, ha, hAt⟩
  · rw [h.describes.accounts.held_new hHeld] at hPlace
    cases hPlace
  · rw [h.place_of_frameAt hs ha hAt] at hPlace
    obtain ⟨-, rfl⟩ : s.root = r ∧ a.path = path := by simpa using hPlace
    simp [VirtualAddress.path, Level.depth]

theorem perform_write (h : plan.Tracks σ) {p : PhysicalAddress} {bytes : List UInt8}
    (hAllowed : σ.Allowed (.write p bytes)) :
    (σ.perform (.write p bytes)).1 ≠ .broken .hugePage ∧
      σ.Quiet plan (σ.perform (.write p bytes)).2 := by
  obtain ⟨memory, hAgree, hReply, hAfter⟩ := σ.write_cases
    (fun f => ∃ r path, plan f = some ⟨r, path⟩ ∧ path.length < 4) fun j hj q hq => by
      rintro ⟨r, path, hPlace, hLength⟩
      exact h.not_table_of_mayWrite (hAllowed j hj q hq) hPlace hLength
  rw [hAfter]
  exact ⟨hReply, h.quiet_withMachine _ hAgree (fun ht hLength => ⟨_, _, ht, hLength⟩) rfl rfl⟩

/-! ## Requests that change the trees -/

/-- A space is created: it has nothing, and all others have what they had. -/
theorem create_served (h : plan.Tracks σ) (hSupply : 0 < σ.machine.frames.supply) :
    ∃ r m, σ.perform .create = (.made ⟨r, σ.kernel.root⟩,
        { σ.withMachine m with live := ⟨r, σ.kernel.root⟩ :: σ.live }) ∧ plan r = none ∧
      m.frames = σ.machine.frames.serve 1 ∧
      (plan.put r ⟨r, []⟩).Tracks { σ.withMachine m with live := ⟨r, σ.kernel.root⟩ :: σ.live } ∧
      (∀ b : VirtualAddress, b.isUser = true → m.memory.leaf? r b = .ok none) ∧
      ∀ s ∈ σ.live, ∀ b : VirtualAddress, b.isUser = true →
        m.memory.leaf? s.root b = σ.machine.memory.leaf? s.root b := by
  obtain ⟨r, rest, hFree⟩ := FrameAllocator.exists_free_of_supply hSupply
  have hMem : r ∈ σ.machine.frames.free := hFree ▸ List.mem_cons_self
  have hSound := h.describes.accounts.sound
  obtain ⟨m, hCreate, hFrames, hMemory⟩ := AddressSpace.create_made (k := σ.kernel) hFree
    (hSound.free_new hMem) hSupply (hSound.free_holds hMem)
    (h.describes.fits.holds h.describes.fits.kernel_place)
  rw [System.perform, System.conclude_ok hCreate]
  refine ⟨r, m, rfl, h.describes.accounts.new_of_free hMem, hFrames, ⟨?_, ?_⟩, ?_, ?_⟩
  · exact h.describes.created hFree hFrames hMemory
  · intro s hs
    rcases List.mem_cons.1 hs with rfl | hs
    · rfl
    · exact h.kernelRoot s hs
  · intro b hb
    exact h.describes.leaf?_created hFree hFrames hMemory hb
  · intro s hs b hb
    exact h.describes.leaf?_created_of_mem hFree hFrames hMemory (root_mem hs) hb

theorem perform_create (h : plan.Tracks σ) :
    (∃ e, (σ.perform .create).1 = .notMade e ∧ σ.Quiet plan (σ.perform .create).2) ∨
      ∃ r m, σ.perform .create = (.made ⟨r, σ.kernel.root⟩,
          { σ.withMachine m with live := ⟨r, σ.kernel.root⟩ :: σ.live }) ∧ plan r = none ∧
        (plan.put r ⟨r, []⟩).Tracks
          { σ.withMachine m with live := ⟨r, σ.kernel.root⟩ :: σ.live } ∧
        (∀ b : VirtualAddress, b.isUser = true → m.memory.leaf? r b = .ok none) ∧
        ∀ s ∈ σ.live, ∀ b : VirtualAddress, b.isUser = true →
          m.memory.leaf? s.root b = σ.machine.memory.leaf? s.root b := by
  by_cases hSupply : σ.machine.frames.supply = 0
  · obtain ⟨m, hCreate, hMemory, hFrames⟩ := AddressSpace.create_refused (k := σ.kernel) hSupply
    rw [System.perform, System.conclude_ok hCreate]
    exact Or.inl ⟨_, rfl, h.quiet_of_memory_eq hMemory (by rw [hFrames]; rfl) (by rw [hFrames]; rfl)⟩
  · obtain ⟨r, m, hMade, hNew, -, hRest⟩ := h.create_served (Nat.pos_of_ne_zero hSupply)
    exact Or.inr ⟨r, m, hMade, hNew, hRest⟩

theorem mem_map_erase (h : plan.Tracks σ) (hs : s ∈ σ.live) {g : Frame} :
    g ∈ (σ.live.erase s).map (·.root) ↔ g ∈ (σ.live.map (·.root)).erase s.root := by
  have hRoots := h.describes.fits.roots_nodup
  rw [hRoots.mem_erase_iff, List.mem_map, List.mem_map]
  constructor
  · rintro ⟨s', hs', rfl⟩
    obtain ⟨hNe, hLive⟩ := hRoots.of_map.mem_erase_iff.1 hs'
    exact ⟨fun hEq => hNe (h.eq_of_root hLive hs hEq), s', hLive, rfl⟩
  · rintro ⟨hNe, s', hLive, rfl⟩
    refine ⟨s', hRoots.of_map.mem_erase_iff.2 ⟨?_, hLive⟩, rfl⟩
    rintro rfl
    exact hNe rfl

/-- A live space is destroyed: memory stays as it is, and its tree goes from the plan. -/
theorem destroy_live (h : plan.Tracks σ) (hs : s ∈ σ.live) :
    ∃ m, σ.perform (.destroy s) = (.done, { σ.withMachine m with live := σ.live.erase s }) ∧
      m.memory = σ.machine.memory ∧
      (plan.uproot s.root).Tracks { σ.withMachine m with live := σ.live.erase s } := by
  obtain ⟨m, hDestroy, hMemory, hFrames, -, -⟩ :=
    h.describes.destroy_eq (root_mem hs) (h.isKernel_of_live hs)
  rw [System.perform, System.conclude_ok hDestroy]
  refine ⟨m, rfl, hMemory, ?_, fun s' hs' => h.kernelRoot s' (List.mem_of_mem_erase hs')⟩
  have hAfter := h.describes.destroyed (root_mem hs) hMemory hFrames
  refine ⟨hAfter.fits.congr_roots (h.mem_map_erase hs) ?_, hAfter.accounts⟩
  exact h.describes.fits.roots_nodup.sublist (List.erase_sublist.map _)

theorem perform_destroy (h : plan.Tracks σ) (hs : σ.Knows s) :
    (∃ v, (σ.perform (.destroy s)).1 = .broken v ∧ v ≠ .hugePage ∧
        σ.Quiet plan (σ.perform (.destroy s)).2) ∨
      s ∈ σ.live ∧ ∃ m, σ.perform (.destroy s) =
          (.done, { σ.withMachine m with live := σ.live.erase s }) ∧
        m.memory = σ.machine.memory ∧
        (plan.uproot s.root).Tracks { σ.withMachine m with live := σ.live.erase s } := by
  rcases hs with hs | rfl
  · exact Or.inr ⟨hs, h.destroy_live hs⟩
  · have hRefused : σ.kernel.view.destroy σ.machine = .error .kernelSpaceDestroyed σ.machine := by
      rw [AddressSpace.destroy, isKernel_view]
      rfl
    rw [System.perform, System.conclude_error hRefused]
    refine Or.inl ⟨_, rfl, ?_, h.quiet_self⟩
    decide

theorem conclude_setLeafFlag (h : plan.Tracks σ) (hs : σ.Knows s) {f : Entry.Field}
    (hf : f = .dirty ∨ f = .accessed) (a : VirtualAddress) (on : Bool) {out : Reply × System}
    (hOut : σ.conclude (s.setLeafFlag f a on) (fun _ σ => (.done, σ)) = out) :
    out.1 ≠ .broken .hugePage ∧ σ.Quiet plan out.2 ∧
        (s ∈ σ.live → a.isUser = true → σ.machine.memory.leaf? s.root a = .ok none) ∨
      s ∈ σ.live ∧ a.isUser = true ∧ out.1 = .done ∧
        ∃ e, σ.machine.memory.leaf? s.root a = .ok (some e) ∧ plan.Tracks out.2 ∧
          σ.Replaced out.2 s a (e.putFlag f on) := by
  subst hOut
  by_cases hArguments : a.isUser = true ∧ s.isKernel = false
  · obtain ⟨hUser, hKernel⟩ := hArguments
    have hLive := live_of_knows hs hKernel
    rcases h.describes.setLeafFlag_cases (root_mem hLive) hUser hKernel hf on with
      ⟨hLeaf, hMark⟩ | ⟨e, m, hLeaf, hMark, hAfter, hReplaced⟩
    · rw [System.conclude_ok hMark]
      exact Or.inl ⟨nofun, h.quiet_self, fun _ _ => hLeaf⟩
    · rw [System.conclude_ok hMark]
      exact Or.inr ⟨hLive, hUser, rfl, e, hLeaf, ⟨hAfter, h.kernelRoot⟩, rfl, rfl, hReplaced⟩
  · obtain ⟨v, hv, hRefused⟩ := AddressSpace.setLeafFlag_refused hArguments f on σ.machine
    rw [System.conclude_error hRefused]
    refine Or.inl ⟨fun hEq => hv (by cases hEq; rfl), h.quiet_self, fun hLive hUser => ?_⟩
    exact absurd ⟨hUser, h.isKernel_of_live hLive⟩ hArguments

/-- A page is unmapped, if it is mapped, and its frame goes to the caller. -/
theorem perform_unmap (h : plan.Tracks σ) (hs : σ.Knows s) (page : VirtualAddress) :
    (σ.perform (.unmap s page)).1 ≠ .broken .hugePage ∧ σ.Quiet plan (σ.perform (.unmap s page)).2 ∧
        (s ∈ σ.live → page.isAligned = true → page.isUser = true →
          ∀ e, σ.machine.memory.leaf? s.root page = .ok (some e) → e.present = false) ∨
      s ∈ σ.live ∧ page.isAligned = true ∧ page.isUser = true ∧
        (σ.perform (.unmap s page)).1 = .done ∧
        ∃ e f, σ.machine.memory.leaf? s.root page = .ok (some e) ∧
          plan f = some ⟨s.root, page.path⟩ ∧ (plan.cut f).Tracks (σ.perform (.unmap s page)).2 ∧
          σ.Replaced (σ.perform (.unmap s page)).2 s page (e.putFlag .present false) := by
  by_cases hArguments : page.isAligned = true ∧ page.isUser = true ∧ s.isKernel = false
  · obtain ⟨hAligned, hUser, hKernel⟩ := hArguments
    have hLive := live_of_knows hs hKernel
    rcases h.describes.unmap_cases (root_mem hLive) hAligned hUser hKernel with
      ⟨hNone, hUnmap, hAbsent⟩ | ⟨e, f, m, hLeaf, hPlace, hSome, hUnmap, hAfter, hReplaced⟩
    · have hBack : σ.frameAt s page = [] := by rw [System.frameAt, hNone]
      rw [System.perform, hBack, System.conclude_ok hUnmap]
      exact Or.inl ⟨nofun, h.quiet_self, fun _ _ _ => hAbsent⟩
    · have hBack := System.frameAt_of_translate hSome
      rw [System.perform, hBack, System.conclude_ok hUnmap]
      exact Or.inr ⟨hLive, hAligned, hUser, rfl, e, f, hLeaf, hPlace, ⟨hAfter, h.kernelRoot⟩, rfl, rfl,
        hReplaced⟩
  · obtain ⟨v, hv, hRefused⟩ := AddressSpace.unmap_refused (m := σ.machine) hArguments
    rw [System.perform, System.conclude_error hRefused]
    refine Or.inl ⟨fun hEq => hv (by cases hEq; rfl), h.quiet_self, fun hLive hAligned hUser => ?_⟩
    exact absurd ⟨hAligned, hUser, h.isKernel_of_live hLive⟩ hArguments

/-- A page is mapped, or nothing is. -/
theorem perform_map (h : plan.Tracks σ) {page kernelAlias : VirtualAddress} {writable : Bool}
    (hAllowed : σ.Allowed (.map s page kernelAlias writable)) :
    (σ.perform (.map s page kernelAlias writable)).1 ≠ .broken .hugePage ∧
        (σ.perform (.map s page kernelAlias writable)).1 ≠ .done ∧
        σ.Quiet plan (σ.perform (.map s page kernelAlias writable)).2 ∨
      s ∈ σ.live ∧ ∃ p m l, s.Mappable page kernelAlias p ∧
        σ.perform (.map s page kernelAlias writable) =
          (.done, { σ.withMachine m with held := σ.held.erase p.frame }) ∧
        (Plan.Describes.mappedPlan plan σ.machine s.root page p.frame l).Tracks
          { σ.withMachine m with held := σ.held.erase p.frame } ∧
        Plan.Describes.Mapped (σ.live.map (·.root)) σ.machine m s.root page
          (Entry.compose writable .user p.frame) := by
  obtain ⟨hs, hHeld⟩ := hAllowed
  rcases s.mappable_or_refused page kernelAlias writable σ.machine with ⟨p, hMap⟩ | ⟨v, hv, hRefused⟩
  · have hLive := live_of_knows hs hMap.changeable
    rcases h.describes.map_cases (root_mem hLive) hMap (hHeld p hMap.alias_eq)
        writable with
      hPresent | ⟨e, m, level, hRun, hUndone⟩ | ⟨m, l, hRun, hAfter, hMapped⟩
    · rw [System.perform, System.conclude_error hPresent]
      exact Or.inl ⟨nofun, nofun, h.quiet_self⟩
    · rw [System.perform, System.conclude_ok hRun]
      refine Or.inl ⟨nofun, nofun, h.quiet_withMachine _ hUndone.agree (fun ht _ hMem => ?_)
        hUndone.free_eq hUndone.inUse_eq⟩
      exact h.describes.accounts.notMem_free ht (List.mem_of_mem_take hMem)
    · rw [System.perform, System.conclude_ok hRun]
      refine Or.inr ⟨hLive, p, m, l, hMap, ?_, ⟨hAfter, h.kernelRoot⟩, hMapped⟩
      simp only [System.giveUp, hMap.alias_eq]
      rfl
  · rw [System.perform, System.conclude_error hRefused]
    exact Or.inl ⟨fun hEq => hv (by cases hEq; rfl), nofun, h.quiet_self⟩

end Plan.Tracks

/-- The ways for a request to end, as far as the trees are concerned. -/
inductive System.Effect (plan : Plan) (σ : System) (out : Reply × System) : Prop
  | quiet (hReply : out.1 ≠ .broken .hugePage) (hSame : σ.Quiet plan out.2)
  | created {r : Frame} {m : Machine}
      (hMade : out = (.made ⟨r, σ.kernel.root⟩,
        { σ.withMachine m with live := ⟨r, σ.kernel.root⟩ :: σ.live }))
      (hNew : plan r = none)
      (hAfter : (plan.put r ⟨r, []⟩).Tracks { σ.withMachine m with live := ⟨r, σ.kernel.root⟩ :: σ.live })
      (hNothing : ∀ b : VirtualAddress, b.isUser = true → m.memory.leaf? r b = .ok none)
      (hOld : ∀ s ∈ σ.live, ∀ b : VirtualAddress, b.isUser = true →
        m.memory.leaf? s.root b = σ.machine.memory.leaf? s.root b)
  | mapped {s : AddressSpace} {page : VirtualAddress} {p : PhysicalAddress} {m : Machine} {l : Level}
      {writable : Bool} (hs : s ∈ σ.live) (hHeld : p.frame ∈ σ.held)
      (hDone : out = (.done, { σ.withMachine m with held := σ.held.erase p.frame }))
      (hAfter : (Plan.Describes.mappedPlan plan σ.machine s.root page p.frame l).Tracks
        { σ.withMachine m with held := σ.held.erase p.frame })
      (hMapped : Plan.Describes.Mapped (σ.live.map (·.root)) σ.machine m s.root page
        (Entry.compose writable .user p.frame))
  | unmapped {s : AddressSpace} {page : VirtualAddress} {e : Entry} {f : Frame} (hs : s ∈ σ.live)
      (hUser : page.isUser = true) (hReply : out.1 = .done)
      (hLeaf : σ.machine.memory.leaf? s.root page = .ok (some e))
      (hPlace : plan f = some ⟨s.root, page.path⟩) (hAfter : (plan.cut f).Tracks out.2)
      (hReplaced : σ.Replaced out.2 s page (e.putFlag .present false))
  | marked {s : AddressSpace} {a : VirtualAddress} {e : Entry} {f : Entry.Field} {on : Bool}
      (hs : s ∈ σ.live) (hUser : a.isUser = true) (hFlag : f = .dirty ∨ f = .accessed)
      (hReply : out.1 = .done) (hLeaf : σ.machine.memory.leaf? s.root a = .ok (some e))
      (hAfter : plan.Tracks out.2) (hReplaced : σ.Replaced out.2 s a (e.putFlag f on))
  | destroyed {s : AddressSpace} {m : Machine} (hs : s ∈ σ.live)
      (hDone : out = (.done, { σ.withMachine m with live := σ.live.erase s }))
      (hMemory : m.memory = σ.machine.memory)
      (hAfter : (plan.uproot s.root).Tracks { σ.withMachine m with live := σ.live.erase s })

namespace Plan.Tracks

variable {plan : Plan} {σ : System} {request : Request}

theorem effect_of_mark (h : plan.Tracks σ) {s : AddressSpace} (hs : σ.Knows s) {f : Entry.Field}
    (hf : f = .dirty ∨ f = .accessed) (a : VirtualAddress) (on : Bool) {out : Reply × System}
    (hOut : σ.conclude (s.setLeafFlag f a on) (fun _ σ => (.done, σ)) = out) : σ.Effect plan out := by
  rcases h.conclude_setLeafFlag hs hf a on hOut with
    ⟨hReply, hSame, -⟩ | ⟨hLive, hUser, hReply, e, hLeaf, hAfter, hReplaced⟩
  · exact .quiet hReply hSame
  · exact .marked hLive hUser hf hReply hLeaf hAfter hReplaced

theorem effect (h : plan.Tracks σ) (hAllowed : σ.Allowed request) :
    σ.Effect plan (σ.perform request) := by
  cases request with
  | alloc =>
    obtain ⟨f, hReply, hSame⟩ := h.perform_alloc
    exact .quiet (by rw [hReply]; nofun) hSame
  | free f =>
    obtain ⟨m, hDone, hSame⟩ := h.free_held hAllowed
    rw [hDone]
    exact .quiet nofun hSame
  | limit n => exact .quiet nofun (h.quiet_of_memory_eq rfl rfl rfl)
  | unlimit => exact .quiet nofun (h.quiet_of_memory_eq rfl rfl rfl)
  | create =>
    rcases h.perform_create with ⟨e, hReply, hSame⟩ | ⟨r, m, hMade, hNew, hAfter, hNothing, hOld⟩
    · exact .quiet (by rw [hReply]; nofun) hSame
    · exact .created hMade hNew hAfter hNothing hOld
  | map s page kernelAlias writable =>
    rcases h.perform_map hAllowed with
      ⟨hReply, -, hSame⟩ | ⟨hs, p, m, l, hMap, hDone, hAfter, hMapped⟩
    · exact .quiet hReply hSame
    · exact .mapped hs (hAllowed.2 p hMap.alias_eq) hDone hAfter hMapped
  | unmap s page =>
    rcases h.perform_unmap hAllowed page with
      ⟨hReply, hSame, -⟩ | ⟨hs, -, hUser, hReply, e, f, hLeaf, hPlace, hAfter, hReplaced⟩
    · exact .quiet hReply hSame
    · exact .unmapped hs hUser hReply hLeaf hPlace hAfter hReplaced
  | markDirty s a on => exact h.effect_of_mark hAllowed (Or.inl rfl) a on rfl
  | markAccessed s a on => exact h.effect_of_mark hAllowed (Or.inr rfl) a on rfl
  | activate s =>
    obtain ⟨hReply, hSame⟩ := h.perform_activate s
    exact .quiet (by rw [hReply]; nofun) hSame
  | destroy s =>
    rcases h.perform_destroy hAllowed with ⟨v, hReply, hv, hSame⟩ | ⟨hs, m, hDone, hMemory, hAfter⟩
    · exact .quiet (by rw [hReply]; exact fun hEq => hv (by cases hEq; rfl)) hSame
    · exact .destroyed hs hDone hMemory hAfter
  | copyTo s dst bytes =>
    obtain ⟨o, hReply, hSame⟩ := h.perform_copyTo hAllowed dst bytes
    exact .quiet (by rw [hReply]; nofun) hSame
  | copyFrom s src buffer =>
    obtain ⟨o, hReply, hSame⟩ := h.perform_copyFrom hAllowed src buffer
    exact .quiet (by rw [hReply]; nofun) hSame
  | write p bytes =>
    obtain ⟨hReply, hSame⟩ := h.perform_write hAllowed
    exact .quiet hReply hSame

end Plan.Tracks

end PagedKernel
