import PagedKernel.Proofs.Run.Progress
import PagedKernel.Proofs.Run.UserPages
import PagedKernel.Proofs.Syscall.Simulation
import PagedKernel.Simulation.Host

/-!
# System calls are confined

A system call that a process makes changes no byte of memory but, if it is a read, the bytes that the
buffer in its registers leads to and that the process may write. The invariant of the call is that the
machine is the same but for such bytes. They lie in pages of the process, so no table has changed, and
the next address of the buffer leads where it led when the call began.

* `Machine.SameBut`: two machines that differ in certain bytes of memory only. `Machine.SameBut.setByte`:
  storing one of these bytes makes no other difference.
* `Registers.MayFill`: the bytes that a read call may change.
* `System.Protected`: the frames that a call of a process must leave alone.
* `Plan.Tracks.writeByte_keeps`: a byte is stored where the call began with it.
* `Run.confines_calls`: a call changes nothing else.
-/

namespace PagedKernel

open Stateful

structure Machine.SameBut (m : Machine) (changed : Nat → Prop) (m' : Machine) : Prop where
  frames_eq : m'.frames = m.frames
  mmu_eq : m'.mmu = m.mmu
  log_eq : m'.log = m.log
  size_eq : m'.memory.frames = m.memory.frames
  byte_eq : ∀ j, ¬ changed j → m'.memory.byte j = m.memory.byte j

namespace Machine.SameBut

variable {m m' : Machine} {changed changed' : Nat → Prop}

theorem refl (m : Machine) (changed : Nat → Prop) : m.SameBut changed m :=
  ⟨rfl, rfl, rfl, rfl, fun _ _ => rfl⟩

theorem mono (h : m.SameBut changed m') (hLe : ∀ j, changed j → changed' j) : m.SameBut changed' m' where
  frames_eq := h.frames_eq
  mmu_eq := h.mmu_eq
  log_eq := h.log_eq
  size_eq := h.size_eq
  byte_eq j hj := h.byte_eq j (mt (hLe j) hj)

theorem setByte (h : m.SameBut changed m') {p : PhysicalAddress} (hHolds : m'.memory.holds p.frame = true)
    (hp : changed p.val.toNat) (b : UInt8) :
    m.SameBut changed { m' with memory := m'.memory.setByte p.val.toNat b } where
  frames_eq := h.frames_eq
  mmu_eq := h.mmu_eq
  log_eq := h.log_eq
  size_eq := (Memory.frames_setByte ..).trans h.size_eq
  byte_eq j hj := by
    have hNe : j ≠ p.val.toNat := by
      rintro rfl
      exact hj hp
    rw [Memory.byte_setByte _ (Memory.lt_of_holds hHolds), if_neg hNe]
    exact h.byte_eq j hj

end Machine.SameBut

/-- The call is a read, an address of its buffer leads to the byte at `j`, and the process may write
there. -/
def Registers.MayFill (r : Registers) (s : AddressSpace) (m : Memory) (j : Nat) : Prop :=
  ∃ a p, r.Offers a ∧ s.resolve m a .write = .ok (some p) ∧ p.val.toNat = j

/-- The frames that are none of the business of a process with the space `s`. -/
inductive System.Protected (σ : System) (s : AddressSpace) : Frame → Prop
  | table {s' : AddressSpace} {f : Frame} (hs' : σ.Knows s')
      (hTable : σ.machine.memory.IsTable s'.root f) : Protected σ s f
  | kernelPage {s' : AddressSpace} {f : Frame} {path : List TableIndex} (hs' : σ.Knows s')
      (hUpper : InKernelHalf path) (hLeads : σ.machine.memory.Leads s'.root path f) : Protected σ s f
  | readOnly {a : VirtualAddress} {p : PhysicalAddress} (hUser : a.isUser = true)
      (hMapped : s.translate σ.machine.memory a = .ok (some p))
      (hRefused : s.resolve σ.machine.memory a .write = .ok none) : Protected σ s p.frame
  | foreign {s' : AddressSpace} {f : Frame} {path : List TableIndex} (hs' : s' ∈ σ.live)
      (hOther : s' ≠ s) (hLower : InUserHalf path)
      (hLeads : σ.machine.memory.Leads s'.root path f) : Protected σ s f
  /-- What nothing maps, as the free frames and those that the caller of the run holds. -/
  | unmapped {f : Frame} (hNone : ∀ s', σ.Knows s' → ∀ a p,
      s'.translate σ.machine.memory a = .ok (some p) → p.frame ≠ f) : Protected σ s f

namespace Plan.Tracks

variable {plan : Plan} {σ : System} {s s' : AddressSpace} {r : Registers} {m : Machine} {j : Nat}

theorem place_of_mayFill (h : plan.Tracks σ) (hs : σ.Knows s)
    (hFill : r.MayFill s σ.machine.memory j) :
    ∃ a p, s.resolve σ.machine.memory a .write = .ok (some p) ∧ p.frame.number.toNat = j / 4096 ∧
      s ∈ σ.live ∧ plan p.frame = some ⟨s.root, a.path⟩ := by
  obtain ⟨a, p, -, hResolve, rfl⟩ := hFill
  exact ⟨a, p, hResolve, p.toNat_number_frame, h.place_of_resolve hs hResolve⟩

theorem agreeOn_of_sameBut (h : plan.Tracks σ) (hs : σ.Knows s)
    (hSame : σ.machine.SameBut (r.MayFill s σ.machine.memory) m) :
    σ.machine.memory.AgreeOn (Describes.NotPage plan) m.memory := by
  refine ⟨hSame.size_eq, fun j hj => hSame.byte_eq j ?_⟩
  intro hFill
  obtain ⟨a, p, -, hNumber, -, hPlace⟩ := h.place_of_mayFill hs hFill
  have hLength := hj p.frame hNumber _ _ hPlace
  simp [VirtualAddress.path, Level.depth] at hLength

theorem leaf?_of_sameBut (h : plan.Tracks σ) (hs : σ.Knows s)
    (hSame : σ.machine.SameBut (r.MayFill s σ.machine.memory) m) (hs' : σ.Knows s')
    (a : VirtualAddress) : m.memory.leaf? s'.root a = σ.machine.memory.leaf? s'.root a := by
  refine Memory.leaf?_congr (h.agreeOn_of_sameBut hs hSame) ?_
  intro level t hLeads
  have hLength := a.length_pathTo_lt level
  obtain ⟨r', hPlace⟩ := h.describes.fits.exists_place_of_leads (knows_root hs') hLeads
  exact Describes.notPage_of_table hPlace hLength

theorem readByte_keeps (h : plan.Tracks σ) (hs : σ.Knows s) (V : Violation → Prop)
    (a : VirtualAddress) :
    Keeps V (σ.machine.SameBut (r.MayFill s σ.machine.memory)) (s.userMemory.readByte a) := by
  refine .of_ok fun m hSame => ?_
  rw [AddressSpace.readByte_apply, AddressSpace.resolve_congr (h.leaf?_of_sameBut hs hSame hs a)]
  rcases h.describes.fits.resolve_cases (knows_root hs) a .read with hNone | ⟨f, hPlace, hSome⟩
  · rw [hNone]
    exact ⟨_, m, rfl, hSame⟩
  · have hHolds : m.memory.holds (f.join a.offset).frame = true := by
      rw [Frame.frame_join, (h.agreeOn_of_sameBut hs hSame).holds]
      exact h.describes.fits.holds hPlace
    rw [hSome]
    simp only [hHolds, ↓reduceIte]
    exact ⟨_, m, rfl, hSame⟩

theorem writeByte_keeps (h : plan.Tracks σ) (hs : σ.Knows s) (V : Violation → Prop)
    {a : VirtualAddress} (hOffers : r.Offers a) (b : UInt8) :
    Keeps V (σ.machine.SameBut (r.MayFill s σ.machine.memory)) (s.userMemory.writeByte a b) := by
  refine .of_ok fun m hSame => ?_
  rw [AddressSpace.writeByte_apply, AddressSpace.resolve_congr (h.leaf?_of_sameBut hs hSame hs a)]
  rcases h.describes.fits.resolve_cases (knows_root hs) a .write with hNone | ⟨f, hPlace, hSome⟩
  · rw [hNone]
    exact ⟨_, m, rfl, hSame⟩
  · have hHolds : m.memory.holds (f.join a.offset).frame = true := by
      rw [Frame.frame_join, (h.agreeOn_of_sameBut hs hSame).holds]
      exact h.describes.fits.holds hPlace
    rw [hSome]
    simp only [hHolds, ↓reduceIte]
    exact ⟨_, _, rfl, hSame.setByte hHolds ⟨a, _, hOffers, hSome, rfl⟩ b⟩

/-- A frame that is protected has no byte that may be filled. -/
theorem not_mayFill_of_protected (h : plan.Tracks σ) (hs : σ.Knows s) {f : Frame}
    (hProtected : σ.Protected s f) (hj : j / 4096 = f.number.toNat) :
    ¬ r.MayFill s σ.machine.memory j := by
  intro hFill
  have hFits := h.describes.fits
  obtain ⟨a, p, hResolve, hNumber, hLive, hPlace⟩ := h.place_of_mayFill hs hFill
  obtain ⟨hUser, e, -, -, hMapped⟩ := AddressSpace.resolve_eq_some.1 hResolve
  have hFrame : p.frame = f := Frame.eq_of_toNat_number (hNumber.trans hj)
  rw [hFrame] at hPlace
  have hPath : a.path.length = 4 := rfl
  cases hProtected with
  | table hs' hTable =>
    obtain ⟨path, hLength, hLeads⟩ := hTable
    obtain ⟨r', hOther⟩ := hFits.exists_place_of_leads (knows_root hs') hLeads
    rw [hPlace] at hOther
    obtain ⟨-, rfl⟩ := Place.mk.inj (Option.some.inj hOther)
    omega
  | @kernelPage s' _ path hs' hUpper hLeads =>
    have hOwn : InUserHalf a.path := fun i hi => by
      obtain rfl : Level.pml4.indexOf a = i := Option.some.inj hi
      exact a.indexOf_pml4_lt hUser
    obtain ⟨-, rfl⟩ := hFits.leads_inj (root_mem hLive) hOwn
      ((hFits.leads_iff (Or.inr (root_mem hLive))).2 hPlace).1 (knows_root hs') hLeads
    exact absurd (hUpper (Level.pml4.indexOf a) rfl) (by have := a.indexOf_pml4_lt hUser; omega)
  | readOnly hUser' hMapped' hRefused =>
    rcases hFits.translate_cases (root_mem hLive) hUser' with ⟨hNone, -⟩ | ⟨g, hPlace', hSome⟩
    · rw [hNone] at hMapped'
      cases hMapped'
    · rw [hSome] at hMapped'
      cases hMapped'
      rw [Frame.frame_join, hPlace'] at hPlace
      obtain ⟨-, hPath'⟩ := Place.mk.inj (Option.some.inj hPlace)
      obtain ⟨q, hAllowed⟩ := AddressSpace.exists_resolve_of_path_eq hUser' hPath'.symm hResolve
      rw [hAllowed] at hRefused
      cases hRefused
  | @foreign s' _ path hs' hOther hLower hLeads =>
    have hPlace' := (hFits.leads_iff (Or.inr (root_mem hs'))).1
      ⟨hLeads, (hFits.ownPath_iff (root_mem hs')).2 hLower⟩
    rw [hPlace] at hPlace'
    obtain ⟨hRoot, -⟩ := Place.mk.inj (Option.some.inj hPlace')
    exact hOther (h.eq_of_root hs' hLive hRoot.symm)
  | unmapped hNone => exact hNone s hs a p hMapped hFrame

/-- A call comes to an end, and the machine is the same but for bytes that it may fill. -/
theorem handle_sameBut (h : plan.Tracks σ) (hs : σ.Knows s) {η F : Type} (host : Host η F) (r : Registers)
    (x : η) (files : DescriptorTable F) (log : List CallNotice) :
    ∃ out c, CallM.handle s.userMemory host r ⟨σ.machine, x, files, log⟩ = .ok out c ∧
      σ.machine.SameBut (r.MayFill s σ.machine.memory) c.memory := by
  have hCall := CallM.handle_simulates (V := fun _ => False) host.alike_self
    (fun a => h.readByte_keeps hs _ a) r (fun a ha b => h.writeByte_keeps hs _ ha b)
  obtain ⟨out, c, c', hOk, -, hRelated⟩ := hCall.exists_ok
    (s := ⟨σ.machine, x, files, log⟩) (t := ⟨σ.machine, x, files, log⟩) ⟨⟨rfl, .refl _ _⟩, rfl, rfl⟩
  exact ⟨out, c, hOk, hRelated.memory.2⟩

end Plan.Tracks

/-- After every run from booting on, a system call of a process comes to an end, whatever its registers,
its open files and the host. It has changed no byte but, for a read, those that its buffer leads to
and that the process may write. So all frames that are none of its business have what they had, and so
have all addresses of all spaces. -/
theorem Run.confines_calls {frames : Nat} {k : KernelSpace} {m : Machine} {events : List Event}
    {σ : System} (hFrames : frames ≤ 2 ^ 40) (hBoot : Machine.boot frames = .ok (k, m))
    (hRun : Run (.booted k m) events σ) {s : AddressSpace} (hs : σ.Knows s) {η F : Type}
    (host : Host η F) (r : Registers) (x : η) (files : DescriptorTable F) (log : List CallNotice) :
    ∃ out c, CallM.handle s.userMemory host r ⟨σ.machine, x, files, log⟩ = .ok out c ∧
      σ.machine.SameBut (r.MayFill s σ.machine.memory) c.memory ∧
      (∀ f, σ.Protected s f → ∀ j, j / 4096 = f.number.toNat →
        c.memory.memory.byte j = σ.machine.memory.byte j) ∧
      ∀ s', σ.Knows s' → ∀ a,
        s'.translate c.memory.memory a = s'.translate σ.machine.memory a ∧
          ∀ access, s'.resolve c.memory.memory a access = s'.resolve σ.machine.memory a access := by
  obtain ⟨plan, hStart⟩ := System.tracks_booted hFrames hBoot
  obtain ⟨-, plan', hTracks, -⟩ := hRun.tracks hStart
  obtain ⟨out, c, hOk, hSame⟩ := hTracks.handle_sameBut hs host r x files log
  refine ⟨out, c, hOk, hSame, ?_, ?_⟩
  · intro f hProtected j hj
    exact hSame.byte_eq j (hTracks.not_mayFill_of_protected hs hProtected hj)
  · intro s' hs' a
    have hLeaf := hTracks.leaf?_of_sameBut hs hSame hs' a
    exact ⟨AddressSpace.translate_congr hLeaf, AddressSpace.resolve_congr hLeaf⟩

/-- On a machine of sixteen frames, with a page mapped at 4 MiB into which five bytes are read from the
console. -/
theorem Run.confines_calls_sixteen : ∃ k m events σ s, Machine.boot 16 = .ok (k, m) ∧
    Run (.booted k m) events σ ∧ σ.Knows s ∧
    (∃ p, s.translate σ.machine.memory ⟨0x400000⟩ = .ok (some p)) ∧
    ∃ out c, CallM.handle s.userMemory SimulatedHost.services
        (.ofCall (Call.number .read) 0 0x400000 5)
        ⟨σ.machine, ⟨#[], [104, 101, 108, 108, 111], none, 0, 0, []⟩, .ofSize 8, []⟩ = .ok out c ∧
      σ.machine.SameBut ((Registers.ofCall (Call.number .read) 0 0x400000 5).MayFill s
        σ.machine.memory) c.memory ∧
      (∀ f, σ.Protected s f → ∀ j, j / 4096 = f.number.toNat →
        c.memory.memory.byte j = σ.machine.memory.byte j) ∧
      ∀ s', σ.Knows s' → ∀ a,
        s'.translate c.memory.memory a = s'.translate σ.machine.memory a ∧
          ∀ access, s'.resolve c.memory.memory a access = s'.resolve σ.machine.memory a access := by
  obtain ⟨k, m, f, s, kernelAlias, σ, hBoot, hRun, hs, hPage⟩ := @Run.exists_mapped 16 (by decide)
    (by decide) ⟨0x400000⟩ (by decide) (by decide) true
  exact ⟨k, m, _, σ, s, hBoot, hRun, Or.inl hs, ⟨_, hPage⟩,
    Run.confines_calls (by decide) hBoot hRun (Or.inl hs) _ _ _ _ _⟩

end PagedKernel
