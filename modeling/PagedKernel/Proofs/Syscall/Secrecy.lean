import PagedKernel.Proofs.Run.Progress
import PagedKernel.Proofs.Run.UserPages
import PagedKernel.Proofs.Syscall.Recorded
import PagedKernel.Simulation.Host

/-!
# System calls keep secrets

What a process can learn by system calls is what it could read itself. Take two machines with the same
bytes in the frames that the process sees: the tables that its user addresses are translated with, and
the pages that it may read. Whatever else they hold, a sequence of calls has the same answers on both,
and asks the same of the host.

The relation that is carried from byte to byte is that the frames in question still agree, and that the
tables are those of the beginning. The second half holds because no table is a page that the process
may write.

* `AddressSpace.UserPage`: the pages that a process sees, besides the tables of `AddressSpace.UserTable`.
* `CallM.handleAll`: one call after another.
* `CallM.handleAll_of_agreeOn`: what a process cannot see makes no difference.
-/

namespace PagedKernel

open Stateful

/-! ## What a process sees -/

namespace AddressSpace

def UserPage (s : AddressSpace) (m : Memory) (f : Frame) : Prop :=
  ∃ a p, s.resolve m a .read = .ok (some p) ∧ p.frame = f

/-- The machines agree on `shared`, and their tables are those that `m₀` has. -/
structure SameView (s : AddressSpace) (m₀ : Memory) (shared : Frame → Prop) (m m' : Machine) : Prop where
  tables : m₀.AgreeOn (s.UserTable m₀) m.memory
  agree : m.memory.AgreeOn shared m'.memory

theorem SameView.resolve_left {s : AddressSpace} {m₀ : Memory} {shared : Frame → Prop}
    {m m' : Machine} (h : s.SameView m₀ shared m m') (a : VirtualAddress) (access : Access) :
    s.resolve m.memory a access = s.resolve m₀ a access :=
  resolve_of_tables h.tables a access

section Bytes

variable {s : AddressSpace} {m₀ : Memory} {shared : Frame → Prop} {V : Violation → Prop}
  (hTables : ∀ f, s.UserTable m₀ f → shared f)

include hTables

theorem SameView.resolve_right {m m' : Machine} (h : s.SameView m₀ shared m m') (a : VirtualAddress)
    (access : Access) : s.resolve m'.memory a access = s.resolve m₀ a access :=
  resolve_of_tables (h.tables.trans (h.agree.mono hTables)) a access

theorem readByte_simulates (hV : ∀ v, V v) (hPages : ∀ f, s.UserPage m₀ f → shared f)
    (a : VirtualAddress) :
    Simulates V (s.SameView m₀ shared) (s.userMemory.readByte a) (s.userMemory.readByte a) := by
  intro m m' h
  rw [readByte_apply, readByte_apply, h.resolve_left, h.resolve_right hTables]
  cases hResolve : s.resolve m₀ a .read with
  | error v => exact .error (hV v) h
  | ok o =>
    cases o with
    | none => exact .ok _ h
    | some p =>
      have hByte : m'.memory.byte p.val.toNat = m.memory.byte p.val.toNat :=
        h.agree.byte (hPages p.frame ⟨a, p, hResolve, rfl⟩) p.toNat_number_frame.symm
      simp only [h.agree.holds p.frame, hByte]
      split
      · exact .ok _ h
      · exact .error (hV _) h

theorem writeByte_simulates (hV : ∀ v, V v)
    (hApart : ∀ a p, s.resolve m₀ a .write = .ok (some p) → ¬ s.UserTable m₀ p.frame)
    (a : VirtualAddress) (b : UInt8) :
    Simulates V (s.SameView m₀ shared) (s.userMemory.writeByte a b)
      (s.userMemory.writeByte a b) := by
  intro m m' h
  rw [writeByte_apply, writeByte_apply, h.resolve_left, h.resolve_right hTables]
  cases hResolve : s.resolve m₀ a .write with
  | error v => exact .error (hV v) h
  | ok o =>
    cases o with
    | none => exact .ok _ h
    | some p =>
      simp only [h.agree.holds p.frame]
      split
      next hHolds =>
        refine .ok _ ⟨h.tables.trans ?_, h.agree.setByte hHolds b⟩
        refine (Memory.agreeOn_setByte hHolds b).mono fun f hf => ?_
        rintro rfl
        exact hApart a p hResolve hf
      next => exact .error (hV _) h

end Bytes

end AddressSpace

/-! ## What a process does -/

namespace CallM

/-- One call after another, each with its answer. One that breaks a precondition is answered by the
violation, and the next goes on from what is left. -/
def handleAll {σ η F : Type} (u : UserMemory σ) (host : Host η F) :
    List Registers → CallState σ η F → List (Checked (Fate × Registers)) × CallState σ η F
  | [], c => ([], c)
  | r :: calls, c =>
    match handle u host r c with
    | .ok out c => ((.ok out :: (handleAll u host calls c).1), (handleAll u host calls c).2)
    | .error v c => ((.error v :: (handleAll u host calls c).1), (handleAll u host calls c).2)

theorem handleAll_simulates {σ τ η η' F : Type} {V : Violation → Prop} {R : σ → τ → Prop}
    {S : η → η' → Prop} {host : Host η F} {host' : Host η' F} {u : UserMemory σ} {u' : UserMemory τ}
    (hHosts : Host.Alike S host host')
    (hRead : ∀ a, Simulates V R (u.readByte a) (u'.readByte a))
    (hWrite : ∀ a b, Simulates V R (u.writeByte a b) (u'.writeByte a b)) (calls : List Registers)
    {c : CallState σ η F} {c' : CallState τ η' F} (hR : CallState.Related R S c c') :
    (handleAll u host calls c).1 = (handleAll u' host' calls c').1 ∧
      CallState.Related R S (handleAll u host calls c).2 (handleAll u' host' calls c').2 := by
  induction calls generalizing c c' with
  | nil => exact ⟨rfl, hR⟩
  | cons r calls ih =>
    have hEnd := handle_simulates hHosts hRead r (fun a _ b => hWrite a b) c c' hR
    rw [handleAll, handleAll]
    generalize handle u host r c = p, handle u' host' r c' = q at hEnd
    cases hEnd with
    | ok out hState =>
      obtain ⟨hRest, hFinal⟩ := ih hState
      exact ⟨congrArg _ hRest, hFinal⟩
    | error _ hState =>
      obtain ⟨hRest, hFinal⟩ := ih hState
      exact ⟨congrArg _ hRest, hFinal⟩

/-- Two machines agree on the frames that a process sees, and on any others; nothing else is known of
them. Then any sequence of calls has the same answers on both, leaves the same files open, asks the
same of hosts that answer alike, and leaves memories that agree on the same frames; and it has not
changed how user addresses are translated. -/
theorem handleAll_of_agreeOn {η η' F : Type} {S : η → η' → Prop} {host : Host η F}
    {host' : Host η' F} (hHosts : Host.Alike S host host') (s : AddressSpace)
    (shared : Frame → Prop) (c : CallState Machine η F) (c' : CallState Machine η' F)
    (hTables : ∀ f, s.UserTable c.memory.memory f → shared f)
    (hPages : ∀ f, s.UserPage c.memory.memory f → shared f)
    (hApart : ∀ a p, s.resolve c.memory.memory a .write = .ok (some p) →
      ¬ s.UserTable c.memory.memory p.frame)
    (hAgree : c.memory.memory.AgreeOn shared c'.memory.memory) (hHost : S c.host c'.host)
    (hFiles : c.files = c'.files) (calls : List Registers) :
    ∃ answers asked d d',
      handleAll s.userMemory host.recorded calls c.recorded = (answers, d) ∧
      handleAll s.userMemory host'.recorded calls c'.recorded = (answers, d') ∧
      d.host.2 = asked ∧ d'.host.2 = asked ∧ S d.host.1 d'.host.1 ∧ d.files = d'.files ∧
      d.memory.memory.AgreeOn shared d'.memory.memory ∧
      ∀ a access, s.resolve d.memory.memory a access = s.resolve c.memory.memory a access := by
  have hStart : CallState.Related (s.SameView c.memory.memory shared)
      (fun x y => S x.1 y.1 ∧ x.2 = y.2) c.recorded c'.recorded :=
    ⟨⟨Memory.AgreeOn.refl _ _, hAgree⟩, ⟨hHost, rfl⟩, hFiles⟩
  obtain ⟨hAnswers, hEnd⟩ := handleAll_simulates (V := fun _ => True) hHosts.recorded
    (AddressSpace.readByte_simulates hTables (fun _ => trivial) hPages)
    (AddressSpace.writeByte_simulates hTables (fun _ => trivial) hApart) calls hStart
  refine ⟨_, _, _, _, rfl, ?_, rfl, hEnd.host.2.symm, hEnd.host.1, hEnd.files_eq, hEnd.memory.agree,
    fun a access => hEnd.memory.resolve_left a access⟩
  rw [hAnswers]

end CallM

theorem Plan.Tracks.kernelRoot_unseen {plan : Plan} {σ : System} {s : AddressSpace} {f : Frame}
    (h : plan.Tracks σ) (hs : s ∈ σ.live)
    (hf : s.UserTable σ.machine.memory f ∨ s.UserPage σ.machine.memory f) : f ≠ σ.kernel.root := by
  rintro rfl
  have hRoot := h.describes.fits.kernel_place
  have hNe := h.describes.fits.ne_kernel (root_mem hs)
  rcases hf with hTable | ⟨a, p, hp, hFrame⟩
  · obtain ⟨path, -, hPlace⟩ := h.place_of_userTable hs hTable
    rw [hRoot] at hPlace
    exact hNe (Place.mk.inj (Option.some.inj hPlace)).1.symm
  · have hPlace := (h.place_of_resolve (Or.inl hs) hp).2
    rw [hFrame, hRoot] at hPlace
    exact hNe (Place.mk.inj (Option.some.inj hPlace)).1.symm

/-- On a machine of sixteen frames, with a page mapped at 4 MiB that is written to the console and then
filled from there, and on another one where a byte of the kernel's root table is different. -/
theorem CallM.handleAll_of_agreeOn_sixteen : ∃ k m events σ s m', Machine.boot 16 = .ok (k, m) ∧
    Run (.booted k m) events σ ∧ s ∈ σ.live ∧
    (∃ p, s.translate σ.machine.memory ⟨0x400000⟩ = .ok (some p)) ∧
    (∃ j, m'.memory.byte j ≠ σ.machine.memory.byte j) ∧
    ∃ answers asked d d',
      handleAll s.userMemory SimulatedHost.services.recorded
        [.ofCall (Call.number .write) 1 0x400000 5, .ofCall (Call.number .read) 0 0x400000 5]
        (CallState.recorded
          ⟨σ.machine, ⟨#[], [104, 101, 108, 108, 111], none, 0, 0, []⟩, .ofSize 8, []⟩) =
        (answers, d) ∧
      handleAll s.userMemory SimulatedHost.services.recorded
        [.ofCall (Call.number .write) 1 0x400000 5, .ofCall (Call.number .read) 0 0x400000 5]
        (CallState.recorded ⟨m', ⟨#[], [104, 101, 108, 108, 111], none, 0, 0, []⟩, .ofSize 8, []⟩) =
        (answers, d') ∧
      d.host.2 = asked ∧ d'.host.2 = asked ∧ d.host.1 = d'.host.1 ∧ d.files = d'.files ∧
      d.memory.memory.AgreeOn
        (fun f => s.UserTable σ.machine.memory f ∨ s.UserPage σ.machine.memory f) d'.memory.memory ∧
      ∀ a access, s.resolve d.memory.memory a access = s.resolve σ.machine.memory a access := by
  obtain ⟨k, m, f, s, kernelAlias, σ, hBoot, hRun, hs, hPage⟩ := @Run.exists_mapped 16 (by decide)
    (by decide) ⟨0x400000⟩ (by decide) (by decide) true
  obtain ⟨plan, hStart⟩ := System.tracks_booted (by decide) hBoot
  obtain ⟨-, plan', hTracks, -⟩ := hRun.tracks hStart
  have hFits := hTracks.describes.fits
  have hHolds : σ.machine.memory.holds σ.kernel.root.base.frame = true := by
    rw [Frame.frame_base]
    exact hFits.holds hFits.kernel_place
  obtain ⟨other, hOther⟩ : ∃ b, b ≠ σ.machine.memory.byte σ.kernel.root.base.val.toNat := by
    by_cases hZero : σ.machine.memory.byte σ.kernel.root.base.val.toNat = 0
    · exact ⟨1, by rw [hZero]; decide⟩
    · exact ⟨0, Ne.symm hZero⟩
  obtain ⟨m', hMemory⟩ : ∃ m' : Machine,
      m'.memory = σ.machine.memory.setByte σ.kernel.root.base.val.toNat other :=
    ⟨{ σ.machine with memory := _ }, rfl⟩
  have hAgree : σ.machine.memory.AgreeOn
      (fun f => s.UserTable σ.machine.memory f ∨ s.UserPage σ.machine.memory f) m'.memory := by
    rw [hMemory]
    refine (Memory.agreeOn_setByte hHolds other).mono fun f hf => ?_
    rw [Frame.frame_base]
    exact hTracks.kernelRoot_unseen hs hf
  refine ⟨k, m, _, σ, s, m', hBoot, hRun, hs, ⟨_, hPage⟩, ⟨σ.kernel.root.base.val.toNat, ?_⟩, ?_⟩
  · rw [hMemory, Memory.byte_setByte _ (Memory.lt_of_holds hHolds), if_pos rfl]
    exact hOther
  · exact CallM.handleAll_of_agreeOn SimulatedHost.services.alike_self s _ ⟨σ.machine, _, _, _⟩
      ⟨m', _, _, _⟩ (fun f hf => Or.inl hf) (fun f hf => Or.inr hf)
      (fun a p hp => hTracks.not_userTable_of_resolve (Or.inl hs) hp) hAgree rfl rfl _

end PagedKernel
