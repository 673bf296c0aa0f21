import PagedKernel.Proofs.Probe.Execution

/-!
# Where recovery resumes

A probe whose access fails comes to the handler with its own label in `rax`, and it resumes there. Whatever
else the registers of a fault may be, recovery leads to a place close behind an entry or nowhere, and it leads
there only once.

* `ProbeEntries.accessFault`: the registers with which the code of a probe comes to its access.
* `ProbeEntries.faultsWith_of_accessFault`: the handler is entered with them.
* `ProbeEntries.resumes_inside`: recovery as a whole.
-/

namespace PagedKernel

namespace ProbeEntries

variable {e : ProbeEntries} {here rax : UInt64} {c : FaultContext} {code : List Instruction}

/-! ## The code of the probes -/

/-- The code that lies from `here` on is entered at its start, with `rax`; these are the registers that it has
at its access. -/
def accessFault : List Instruction → UInt64 → UInt64 → Option FaultContext
  | [], _, _ => none
  | .loadLabel d :: code, here, _ => accessFault code (here + 7) (here + 7 + d)
  | .loadByte :: _, here, rax => some ⟨here, rax⟩
  | .storeByte :: _, here, rax => some ⟨here, rax⟩
  | .clearResult :: code, here, _ => accessFault code (here + 2) 0
  | .leave :: _, _, _ => none

/-- Where the access of the code fails, the handler is entered with the registers `c`. -/
def FaultsWith (e : ProbeEntries) (code : List Instruction) (here rax : UInt64) (c : FaultContext) : Prop :=
  ∀ (a : VirtualAddress) (b : UInt8) (m : LiveMemory), (.loadByte ∈ code → m.byte? a = none) →
    (.storeByte ∈ code → m.setByte? a b = none) → ∃ rest next, e.run code here ⟨here, rax, a, b⟩ m =
      (e.handleFault ⟨c.rip, c.rax, a, b⟩ >>= e.run rest next) m

theorem faultsWith_of_accessFault (h : accessFault code here rax = some c) : e.FaultsWith code here rax c := by
  intro a b m hLoad hStore
  induction code generalizing here rax with
  | nil => cases h
  | cons i code ih =>
    have hLoadLater : .loadByte ∈ code → m.byte? a = none := fun hMem => hLoad (List.mem_cons_of_mem i hMem)
    have hStoreLater : .storeByte ∈ code → m.setByte? a b = none :=
      fun hMem => hStore (List.mem_cons_of_mem i hMem)
    cases i with
    | loadLabel d =>
      rw [run_loadLabel]
      exact ih h hLoadLater hStoreLater
    | loadByte =>
      cases h
      exact ⟨code, here + 4, run_loadByte_none (hLoad List.mem_cons_self)⟩
    | storeByte =>
      cases h
      exact ⟨code, here + 3, run_storeByte_none (hStore List.mem_cons_self)⟩
    | clearResult =>
      rw [run_clearResult]
      exact ih h hLoadLater hStoreLater
    | leave => cases h

def probes (e : ProbeEntries) : List (List Instruction × UInt64) :=
  [(readerCode, e.reader), (writerCode, e.writer)]

/-- A fault at the access of a running probe is recovered from. -/
theorem exists_accessFault (hReader : e.reader.toNat < 2 ^ 64 - 32) (hWriter : e.writer.toNat < 2 ^ 64 - 32)
    {probe : List Instruction × UInt64} (hProbe : probe ∈ e.probes) (rax : UInt64) :
    ∃ c, accessFault probe.1 probe.2 rax = some c ∧ e.Recovers true true c := by
  rcases List.mem_pair.1 hProbe with rfl | rfl
  · have hFits : e.reader.toNat + 11 < 2 ^ 64 := by omega
    have hInside := FaultContext.isInside_of_near (x := 7) (y := 4) hFits (by decide) (by decide) rfl
    exact ⟨_, rfl, rfl, rfl, e.reader, List.mem_cons_self, hInside⟩
  · have hFits : e.writer.toNat + 12 < 2 ^ 64 := by omega
    have hInside := FaultContext.isInside_of_near (x := 7) (y := 5) hFits (by decide) (by decide) rfl
    exact ⟨_, rfl, rfl, rfl, e.writer, List.mem_cons_of_mem _ List.mem_cons_self, hInside⟩

/-- Recovery never underflows. A fault that is recovered from is one of the kernel while a probe runs, and it
resumes where `rax` says, behind the fault and close behind the entry of a probe, with every bit of `rax` set;
these registers are not recovered from again. Any other registers are left alone. The registers of a running
probe whose access fails are always recovered from. -/
theorem resumes_inside (hReader : e.reader.toNat < 2 ^ 64 - 32) (hWriter : e.writer.toNat < 2 ^ 64 - 32) :
    (∀ kernelMode active c, ∃ recovered c', e.recoverFault kernelMode active c = .ok recovered c' ∧
      (recovered = true → kernelMode = true ∧ active = true ∧ c'.rip = c.rax ∧ c.rip < c'.rip ∧
        (∃ entry ∈ [e.reader, e.writer], entry ≤ c.rip ∧ c'.rip.toNat ≤ entry.toNat + 16) ∧
        c'.rax = 0xffffffffffffffff ∧
        ∀ kernelMode' active', e.recoverFault kernelMode' active' c' = .ok false c') ∧
      (recovered = false → c' = c)) ∧
    ∀ probe ∈ e.probes, ∀ rax, ∃ c, accessFault probe.1 probe.2 rax = some c ∧
      e.FaultsWith probe.1 probe.2 rax c ∧
      e.recoverFault true true c = .ok true ⟨c.rax, 0xffffffffffffffff⟩ := by
  refine ⟨fun kernelMode active c => ?_, fun probe hProbe rax => ?_⟩
  · by_cases hRecovers : e.Recovers kernelMode active c
    · obtain ⟨hKernel, hActive, entry, hEntry, hBehind, hLabel, hNear⟩ := id hRecovers
      have hAgain : ∀ kernelMode' active', ¬ e.Recovers kernelMode' active' ⟨c.rax, 0xffffffffffffffff⟩ := by
        rintro kernelMode' active' ⟨-, -, entry', hEntry', hInside⟩
        rcases List.mem_pair.1 hEntry' with rfl | rfl
        · exact FaultContext.not_isInside_of_failed hReader hInside
        · exact FaultContext.not_isInside_of_failed hWriter hInside
      refine ⟨true, _, by rw [recoverFault_apply, if_pos hRecovers], fun _ => ⟨hKernel, hActive, rfl, hLabel,
        ⟨entry, hEntry, hBehind, hNear⟩, rfl, fun kernelMode' active' => ?_⟩, nofun⟩
      rw [recoverFault_apply, if_neg (hAgain kernelMode' active')]
    · exact ⟨false, c, by rw [recoverFault_apply, if_neg hRecovers], nofun, fun _ => rfl⟩
  · obtain ⟨c, hFault, hRecovers⟩ := exists_accessFault hReader hWriter hProbe rax
    exact ⟨c, hFault, faultsWith_of_accessFault hFault, by rw [recoverFault_apply, if_pos hRecovers]⟩

/-- The reader at two megabytes: a fault at its access resumes at the return, and not once more from there. -/
theorem resumes_inside_two_megabytes : ∃ e : ProbeEntries, e.reader.toNat < 2 ^ 64 - 32 ∧
    e.writer.toNat < 2 ^ 64 - 32 ∧ accessFault readerCode e.reader 0 = some ⟨0x200007, 0x20000b⟩ ∧
    e.recoverFault true true ⟨0x200007, 0x20000b⟩ = .ok true ⟨0x20000b, 0xffffffffffffffff⟩ ∧
    e.recoverFault true true ⟨0x20000b, 0xffffffffffffffff⟩ = .ok false ⟨0x20000b, 0xffffffffffffffff⟩ := by
  obtain ⟨hRuns, hProbes⟩ := resumes_inside (e := ⟨0x200000, 0x200010⟩) (by decide) (by decide)
  obtain ⟨c, hFault, -, hRecovered⟩ := hProbes (readerCode, 0x200000) List.mem_cons_self 0
  cases hFault
  obtain ⟨recovered, c', hRun, hTrue, -⟩ := hRuns true true ⟨0x200007, 0x20000b⟩
  cases hRecovered.symm.trans hRun
  obtain ⟨-, -, -, -, -, -, hAgain⟩ := hTrue rfl
  exact ⟨⟨0x200000, 0x200010⟩, by decide, by decide, rfl, hRecovered, hAgain true true⟩

end ProbeEntries

end PagedKernel
