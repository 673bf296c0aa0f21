import PagedKernel.Proofs.Run.Progress
import PagedKernel.Proofs.Syscall.Pieces
import PagedKernel.Proofs.UserMemory.PageView
import PagedKernel.Simulation.Host

/-!
# What a write transfers

A write call looks at its whole buffer before it sends anything. If a byte of the buffer is out of
reach the process ends, and the host has not seen a single byte of it. Otherwise no fault can come
later, and what the host takes is the beginning of the buffer, as much of it as the call reports.

* `CallM.write_outside`, `CallM.write_unnamed`, `CallM.write_unreadable`, `CallM.write_console`,
  `CallM.write_file`: the ways for a write to end.
* `CallM.handle_write_exits`: a write that ends the process has produced no output.
* `CallM.handle_write_transfers`: a write that goes on has transferred what it reports.
-/

namespace PagedKernel

open Stateful

namespace CallM

/-- The descriptor takes output: it is one of the console's, or a file is open under it. -/
def TakesOutput {F : Type} (files : DescriptorTable F) (fd : Int) : Prop :=
  (fd = stdout ∨ fd = stderr) ∨ files.isOpen fd = true

variable {σ η F : Type} (host : Host η F) {u : UserMemory σ} {view : UserView} {fd : Int}
  {buffer : VirtualAddress} {length : UInt64} {bytes : List UInt8} {c : RecordedState σ η F}

/-! ## The ways for a write to end -/

theorem write_zero : write u host.recorded fd buffer 0 c = .ok (.result 0) c := by
  rw [write, if_pos rfl]
  rfl

section Buffer

variable (hLength : length ≠ 0)

include hLength

theorem write_outside (hSpace : inUserSpace buffer length = false) :
    ∃ c', write u host.recorded fd buffer length c = .ok (.leave (.exit (-1))) c' ∧ c.Ended c' := by
  rw [write, if_neg hLength, if_neg (by simp [hSpace])]
  exact leave_ended _ c

variable (hSpace : inUserSpace buffer length = true)

include hSpace

theorem write_unnamed (hNamed : ¬ TakesOutput c.files fd) :
    write u host.recorded fd buffer length c = .ok (.result (-1)) c := by
  have hAsk : askFiles (·.isOpen fd) c = .ok (c.files.isOpen fd) c := rfl
  rw [TakesOutput] at hNamed
  rw [write, if_neg hLength, if_pos hSpace]
  show (askFiles _ >>= _ : CallM σ _ F _) c = _
  rw [bind_ok hAsk, if_neg hNamed]
  rfl

variable (hNamed : TakesOutput c.files fd) (hReads : u.Reads c.memory view) (hUniform : view.Uniform)

include hNamed hReads hUniform

theorem write_sampled : ∃ o : Except UserFault Unit,
    (o = .ok () ↔ ∀ i < length.toNat, view.Readable buffer i) ∧
    write u host.recorded fd buffer length c =
      (match o with
        | .error e => do
          note (.writeFault e)
          return .leave (← terminate host.recorded (-1))
        | .ok () => do
          let send := if fd = stdout ∨ fd = stderr then sendConsole host.recorded
            else sendFile host.recorded fd
          match ← sendPieces u send buffer 0 length.toNat with
          | .ok count => return .result count
          | .error e =>
            note (.writeFault e)
            return .leave (← terminate host.recorded (-1)) :
        CallM σ (η × List (HostCall F)) F Outcome) c := by
  obtain ⟨o, hSample, hIff⟩ := UserMemory.samplePages_iff hReads hUniform hLength hSpace
  refine ⟨o, hIff, ?_⟩
  have hAsk : askFiles (·.isOpen fd) c = .ok (c.files.isOpen fd) c := rfl
  have hLook : (onMemory (samplePages u buffer length) : CallM σ (η × List (HostCall F)) F _) c =
      .ok o c := by
    simp only [onMemory, hSample]
  rw [TakesOutput] at hNamed
  rw [write, if_neg hLength, if_pos hSpace]
  show (askFiles _ >>= _ : CallM σ _ F _) c = _
  rw [bind_ok hAsk, if_pos hNamed]
  show (onMemory _ >>= _ : CallM σ _ F _) c = _
  refine (bind_ok hLook).trans ?_
  cases o <;> rfl

theorem write_unreadable (hFault : ¬ ∀ i < length.toNat, view.Readable buffer i) :
    ∃ c', write u host.recorded fd buffer length c = .ok (.leave (.exit (-1))) c' ∧ c.Ended c' := by
  obtain ⟨o, hIff, hWrite⟩ := write_sampled host hLength hSpace hNamed hReads hUniform
  rw [hWrite]
  cases o with
  | ok _ => exact absurd (hIff.1 rfl) hFault
  | error e => exact leave_ended _ c

theorem write_sent (hBytes : bytes.length = length.toNat) (hSpells : view.Spells buffer bytes) {n : Nat}
    {c' : RecordedState σ η F}
    (hSend : sendPieces u (if fd = stdout ∨ fd = stderr then sendConsole host.recorded
      else sendFile host.recorded fd) buffer 0 length.toNat c = .ok (.ok n) c') :
    write u host.recorded fd buffer length c = .ok (.result n) c' := by
  obtain ⟨o, hIff, hWrite⟩ := write_sampled host hLength hSpace hNamed hReads hUniform
  obtain rfl : o = .ok () := hIff.2 fun i hi => hSpells.readable (by omega)
  rw [hWrite]
  show (sendPieces _ _ _ _ _ >>= _ : CallM σ _ F _) c = _
  rw [bind_ok hSend]
  rfl

end Buffer

theorem write_console (hLength : length ≠ 0) (hSpace : inUserSpace buffer length = true)
    (hConsole : fd = stdout ∨ fd = stderr) (hReads : u.Reads c.memory view) (hUniform : view.Uniform)
    (hBytes : bytes.length = length.toNat) (hSpells : view.Spells buffer bytes) :
    ∃ c', write u host.recorded fd buffer length c = .ok (.result bytes.length) c' ∧
      c'.memory = c.memory ∧ c'.files = c.files ∧
      c'.asked = ((pieces bytes).map HostCall.writeConsole).reverse ++ c.asked := by
  have hBound := le_of_inUserSpace hSpace
  obtain ⟨c', hSend, hMemory, hFiles, hAsked⟩ := sendPieces_console host 0
    length.toNat hReads hSpells (by omega) (by omega)
  refine ⟨c', write_sent host hLength hSpace (Or.inl hConsole) hReads hUniform hBytes hSpells ?_, hMemory,
    hFiles, hAsked⟩
  rwa [if_pos hConsole]

theorem write_file (hLength : length ≠ 0) (hSpace : inUserSpace buffer length = true) {f : F}
    (hFile : c.files.get? fd = some f) (hReads : u.Reads c.memory view) (hUniform : view.Uniform)
    (hBytes : bytes.length = length.toNat) (hSpells : view.Spells buffer bytes) :
    ∃ offers f' c',
      write u host.recorded fd buffer length c = .ok (.result ↑(offers.map Offer.taken).sum) c' ∧
      host.Delivers f c.host.1 (pieces bytes) offers f' c'.host.1 ∧ c'.memory = c.memory ∧
      c'.files = c.files.put fd (some f') ∧ c'.asked = (offers.map Offer.call).reverse ++ c.asked := by
  have hBound := le_of_inUserSpace hSpace
  have hOpen : c.files.isOpen fd = true := by rw [DescriptorTable.isOpen, hFile]; rfl
  -- The descriptors of the console name no file.
  have hNotConsole : ¬ (fd = stdout ∨ fd = stderr) := by
    have hFirst : Int.ofNat firstFileDescriptor = 3 := rfl
    have hOut : stdout = 1 := rfl
    have hErr : stderr = 2 := rfl
    have hLe := DescriptorTable.le_of_get? hFile
    omega
  obtain ⟨offers, f', c', hSend, hDelivers, hRest⟩ := sendPieces_file host 0
    length.toNat hReads hSpells (by omega) (by omega) hFile
  rw [Nat.zero_add] at hSend
  refine ⟨offers, f', c', write_sent host hLength hSpace (Or.inr hOpen) hReads hUniform hBytes hSpells ?_,
    hDelivers, hRest⟩
  rwa [if_neg hNotConsole]

/-! ## Write calls -/

theorem inUserSpace_iff : inUserSpace buffer length = true ↔
    buffer.val ≠ 0 ∧ buffer.val.toNat + length.toNat ≤ userSpaceEnd.toNat := by
  simp [inUserSpace, VirtualAddress.isNull]

theorem handle_of_write {u : UserMemory σ} {host : Host η F} {r : Registers}
    (hNumber : r.number = Call.number .write) {c c' : CallState σ η F} {o : Outcome}
    (hWrite : write u host (Registers.intOf r.rdi) ⟨r.rsi⟩ r.rdx
      { c with log := .called .write r.rdi r.rsi r.rdx :: c.log } = .ok o c') :
    handle u host r c = .ok (o.fate, o.registers r) c' :=
  have hCall : Call.ofNumber r.number = .ok .write := by rw [hNumber, Call.ofNumber_number]
  handle_of_serve hCall hWrite

/-- The call has bytes to write that it may not have: they are no buffer of user space, or one of them
is out of reach of the process while the descriptor takes output. The sum is one of numbers, so a buffer
that runs past the last word lies beyond user space. -/
def WriteFaults (s : AddressSpace) (m : Memory) (files : DescriptorTable F) (r : Registers) : Prop :=
  r.rdx ≠ 0 ∧
    (r.rsi = 0 ∨ userSpaceEnd.toNat < r.rsi.toNat + r.rdx.toNat ∨
      TakesOutput files (Registers.intOf r.rdi) ∧ ∃ i < r.rdx.toNat, ¬ ∃ a p,
        VirtualAddress.add? ⟨r.rsi⟩ i = some a ∧ s.resolve m a .read = .ok (some p))

theorem writeFaults_iff {s : AddressSpace} {m : Memory} {files : DescriptorTable F} {r : Registers}
    (hLength : r.rdx ≠ 0) (hSpace : inUserSpace ⟨r.rsi⟩ r.rdx = true) : WriteFaults s m files r ↔
      TakesOutput files (Registers.intOf r.rdi) ∧
        ¬ ∀ i < r.rdx.toNat, (s.view m).Readable ⟨r.rsi⟩ i := by
  obtain ⟨hNull, hEnd⟩ := inUserSpace_iff.1 hSpace
  simp only [WriteFaults, AddressSpace.view_readable, hLength, ne_eq, not_false_eq_true, true_and,
    not_forall, exists_prop]
  constructor
  · rintro (hZero | hBeyond | hFault)
    · exact absurd hZero hNull
    · exact absurd hEnd (by simpa using hBeyond)
    · exact hFault
  · exact fun hFault => Or.inr (Or.inr hFault)

section Handle

variable {m : Machine} {s : AddressSpace} (hMemory : s.InMemory m.memory) (host : Host η F)
  {r : Registers} (hNumber : r.number = Call.number .write) (x : η) (files : DescriptorTable F)
  (log : List CallNotice)

include hMemory hNumber

/-- A write call ends in one of two ways: it faults, or it goes on. -/
theorem handle_write_cases : ∃ (o : Outcome) (c : RecordedState Machine η F),
    handle s.userMemory host.recorded r ⟨m, (x, []), files, log⟩ = .ok (o.fate, o.registers r) c ∧
      c.memory = m ∧
      (o = .leave (.exit (-1)) ∧ WriteFaults s m.memory files r ∧ c.files.files = [] ∧
          c.asked = (files.files.map HostCall.closeHandle).reverse ∨
        (∃ v, o = .result v) ∧ ¬ WriteFaults s m.memory files r ∧
          (r.rdx = 0 → o = .result 0 ∧ c.asked = []) ∧
          (r.rdx ≠ 0 → ¬ TakesOutput files (Registers.intOf r.rdi) →
            o = .result (-1) ∧ c.asked = [])) := by
  have hReads := hMemory.reads
  have hUniform := s.view_uniform m.memory
  obtain ⟨c₀, hC₀⟩ : ∃ c₀ : RecordedState Machine η F,
    c₀ = ⟨m, (x, []), files, .called .write r.rdi r.rsi r.rdx :: log⟩ := ⟨_, rfl⟩
  have hMemory₀ : c₀.memory = m := by rw [hC₀]
  have hFiles₀ : c₀.files = files := by rw [hC₀]
  have hAsked₀ : c₀.asked = [] := by rw [hC₀]; rfl
  have hReads₀ : s.userMemory.Reads c₀.memory (s.view m.memory) := by rwa [hMemory₀]
  have hHandle : ∀ {o c}, write s.userMemory host.recorded (Registers.intOf r.rdi) ⟨r.rsi⟩ r.rdx c₀ =
      .ok o c → handle s.userMemory host.recorded r ⟨m, (x, []), files, log⟩ =
        .ok (o.fate, o.registers r) c := by
    intro o c hWrite
    rw [hC₀] at hWrite
    exact handle_of_write (c := ⟨m, (x, []), files, log⟩) hNumber hWrite
  have hExit : ∀ {c}, c₀.Ended c → c.memory = m ∧ c.files.files = [] ∧
      c.asked = (files.files.map HostCall.closeHandle).reverse := by
    intro c hEnded
    refine ⟨hEnded.memory_eq.trans hMemory₀, hEnded.files_eq, ?_⟩
    rw [hEnded.asked_eq, hFiles₀, hAsked₀, List.append_nil]
  by_cases hLength : r.rdx = 0
  · have hWrite := @write_zero Machine η F host s.userMemory (Registers.intOf r.rdi) ⟨r.rsi⟩ c₀
    rw [← hLength] at hWrite
    exact ⟨_, c₀, hHandle hWrite, hMemory₀, Or.inr ⟨⟨0, rfl⟩, fun hFaults => hFaults.1 hLength,
      fun _ => ⟨rfl, hAsked₀⟩, fun hNe => absurd hLength hNe⟩⟩
  by_cases hSpace : inUserSpace ⟨r.rsi⟩ r.rdx = true
  · by_cases hNamed : TakesOutput files (Registers.intOf r.rdi)
    · have hNamed₀ : TakesOutput c₀.files (Registers.intOf r.rdi) := by rwa [hFiles₀]
      by_cases hReadable : ∀ i < r.rdx.toNat, (s.view m.memory).Readable ⟨r.rsi⟩ i
      · -- Nothing stands in the way of the transfer.
        have hFine : ¬ WriteFaults s m.memory files r := by
          rw [writeFaults_iff hLength hSpace]
          exact fun hFault => hFault.2 hReadable
        obtain ⟨bytes, hBytes, hSpells⟩ := UserView.exists_spells hReadable
        obtain ⟨n, c, hWrite, hSame⟩ : ∃ n c, write s.userMemory host.recorded
            (Registers.intOf r.rdi) ⟨r.rsi⟩ r.rdx c₀ = .ok (.result n) c ∧ c.memory = c₀.memory := by
          by_cases hConsole : Registers.intOf r.rdi = stdout ∨ Registers.intOf r.rdi = stderr
          · obtain ⟨c, hWrite, hSame, -⟩ := write_console host hLength hSpace hConsole
              hReads₀ hUniform hBytes hSpells
            exact ⟨_, c, hWrite, hSame⟩
          · obtain ⟨f, hFile⟩ := Option.isSome_iff_exists.1 (hNamed₀.resolve_left hConsole)
            obtain ⟨offers, f', c, hWrite, -, hSame, -⟩ := write_file host hLength hSpace
              hFile hReads₀ hUniform hBytes hSpells
            exact ⟨_, c, hWrite, hSame⟩
        exact ⟨_, c, hHandle hWrite, hSame.trans hMemory₀, Or.inr ⟨⟨n, rfl⟩, hFine,
          fun hZero => absurd hZero hLength, fun _ hNot => absurd hNamed hNot⟩⟩
      · obtain ⟨c, hWrite, hEnded⟩ := write_unreadable host hLength hSpace hNamed₀ hReads₀
          hUniform hReadable
        obtain ⟨hSame, hRest⟩ := hExit hEnded
        exact ⟨_, c, hHandle hWrite, hSame, Or.inl ⟨rfl,
          (writeFaults_iff hLength hSpace).2 ⟨hNamed, hReadable⟩, hRest⟩⟩
    · have hWrite := write_unnamed host (u := s.userMemory) (c := c₀) hLength hSpace
        (by rwa [hFiles₀])
      refine ⟨_, c₀, hHandle hWrite, hMemory₀, Or.inr ⟨⟨-1, rfl⟩, ?_,
        fun hZero => absurd hZero hLength, fun _ _ => ⟨rfl, hAsked₀⟩⟩⟩
      rw [writeFaults_iff hLength hSpace]
      exact fun hFault => hNamed hFault.1
  · obtain ⟨c, hWrite, hEnded⟩ : ∃ c, write s.userMemory host.recorded (Registers.intOf r.rdi)
        ⟨r.rsi⟩ r.rdx c₀ = .ok (.leave (.exit (-1))) c ∧ c₀.Ended c :=
      write_outside host hLength (by simpa using hSpace)
    obtain ⟨hSame, hRest⟩ := hExit hEnded
    refine ⟨_, c, hHandle hWrite, hSame, Or.inl ⟨rfl, ⟨hLength, ?_⟩, hRest⟩⟩
    rw [inUserSpace_iff, not_and_or, not_not, Nat.not_le] at hSpace
    exact hSpace.imp_right Or.inl

end Handle

/-- A write call ends the process just when it faults. Then the host was asked for nothing but to close
the files of the process, so there was no output, and the registers are what they were. A call without
bytes goes on with zero, and one whose descriptor takes no output with minus one; neither asks the
host. -/
theorem handle_write_exits {s : AddressSpace} {m : Machine} (hMemory : s.InMemory m.memory) {η F : Type}
    (host : Host η F) {r : Registers} (hNumber : r.number = Call.number .write) (x : η)
    (files : DescriptorTable F) (log : List CallNotice) :
    ∃ out c, handle s.userMemory host.recorded r ⟨m, (x, []), files, log⟩ = .ok out c ∧ c.memory = m ∧
      (out.1 = .exit (-1) ↔ WriteFaults s m.memory files r) ∧
      (WriteFaults s m.memory files r → out.2 = r ∧ c.files.files = [] ∧
        c.asked = (files.files.map HostCall.closeHandle).reverse) ∧
      (¬ WriteFaults s m.memory files r → out.1 = .resume) ∧
      (r.rdx = 0 → out = (.resume, r.withResult 0) ∧ c.asked = []) ∧
      (r.rdx ≠ 0 → inUserSpace ⟨r.rsi⟩ r.rdx = true → ¬ TakesOutput files (Registers.intOf r.rdi) →
        out = (.resume, r.withResult (-1)) ∧ c.asked = []) := by
  obtain ⟨o, c, hHandle, hSame, hCases⟩ := handle_write_cases hMemory host hNumber x files log
  refine ⟨_, c, hHandle, hSame, ?_⟩
  rcases hCases with ⟨rfl, hFaults, hEnd⟩ | ⟨⟨v, rfl⟩, hFine, hZero, hUnnamed⟩
  · refine ⟨iff_of_true rfl hFaults, fun _ => ⟨rfl, hEnd⟩, fun hFine => absurd hFaults hFine,
      fun hZero => absurd hZero hFaults.1, fun hLength hSpace hNot => ?_⟩
    exact absurd ((writeFaults_iff hLength hSpace).1 hFaults).1 hNot
  · refine ⟨iff_of_false nofun hFine, fun hFaults => absurd hFaults hFine, fun _ => rfl,
      fun hNil => ?_, fun hLength _ hNot => ?_⟩
    · obtain ⟨hOut, hAsked⟩ := hZero hNil
      rw [hOut]
      exact ⟨rfl, hAsked⟩
    · obtain ⟨hOut, hAsked⟩ := hUnnamed hLength hNot
      rw [hOut]
      exact ⟨rfl, hAsked⟩

/-- On a machine of sixteen frames, with a fresh space: nothing is mapped at 4 MiB, so a write of three
hundred bytes from there ends the process. -/
theorem handle_write_exits_sixteen : ∃ (k : KernelSpace) (m : Machine) (events : List Event)
    (σ : System) (s : AddressSpace), Machine.boot 16 = .ok (k, m) ∧
    Run (.booted k m) events σ ∧ s.InMemory σ.machine.memory ∧
    (Registers.ofCall (Call.number .write) 1 0x400000 300).number = Call.number .write ∧
    ∃ out c, handle s.userMemory SimulatedHost.services.recorded
        (Registers.ofCall (Call.number .write) 1 0x400000 300)
        ⟨σ.machine, (⟨#[], [], none, 0, 0, []⟩, []), .ofSize 8, []⟩ = .ok out c ∧ c.memory = σ.machine ∧
      out = (.exit (-1), Registers.ofCall (Call.number .write) 1 0x400000 300) ∧ c.asked = [] := by
  obtain ⟨k, m, f, s, σ, plan, hBoot, hRun, hTracks, hs, -, -, -, -, hNothing⟩ :=
    @Run.exists_space 16 (by decide) (by decide)
  have hMemory : s.InMemory σ.machine.memory := hTracks.inMemory (Or.inl hs)
  obtain ⟨⟨fate, r⟩, c, hHandle, hSame, hExit, hFaulted, -⟩ := handle_write_exits hMemory
    SimulatedHost.services (r := .ofCall (Call.number .write) 1 0x400000 300) rfl
    ⟨#[], [], none, 0, 0, []⟩ (.ofSize 8) []
  have hFaults : WriteFaults s σ.machine.memory (.ofSize 8 : DescriptorTable FileHandle)
      (Registers.ofCall (Call.number .write) 1 0x400000 300) := by
    refine ⟨by decide, Or.inr (Or.inr ⟨Or.inl (Or.inl rfl), 0, by decide, ?_⟩)⟩
    rintro ⟨a, p, -, hResolve⟩
    obtain ⟨hUser, e, hLeaf, -⟩ := AddressSpace.resolve_eq_some.1 hResolve
    rw [hNothing a hUser] at hLeaf
    cases hLeaf
  obtain rfl : fate = .exit (-1) := hExit.2 hFaults
  obtain ⟨rfl, -, hAsked⟩ := hFaulted hFaults
  exact ⟨k, m, _, σ, s, hBoot, hRun, hMemory, rfl, _, c, hHandle, hSame, rfl, hAsked⟩

/-- A write call with a buffer that the process can read goes on. On the console it has sent the buffer,
piece by piece. A file is offered the pieces until one is not taken whole; the call reports the number
of bytes that were taken, and these are the first ones of the buffer. Nothing has changed but the
result, and the file in its place in the table. -/
theorem handle_write_transfers {s : AddressSpace} {m : Machine} (hMemory : s.InMemory m.memory)
    {η F : Type} (host : Host η F) {r : Registers} (hNumber : r.number = Call.number .write) (x : η)
    (files : DescriptorTable F) (log : List CallNotice) {bytes : List UInt8}
    (hBytes : bytes.length = r.rdx.toNat) (hNil : bytes ≠ []) (hNull : r.rsi ≠ 0)
    (hSpells : (s.view m.memory).Spells ⟨r.rsi⟩ bytes) :
    (Registers.intOf r.rdi = stdout ∨ Registers.intOf r.rdi = stderr →
      ∃ (v : Int64) (c : RecordedState Machine η F),
        handle s.userMemory host.recorded r ⟨m, (x, []), files, log⟩ =
          .ok (.resume, r.withResult v) c ∧
        v.toInt = bytes.length ∧ c.memory = m ∧ c.files = files ∧
        c.asked.reverse = (pieces bytes).map HostCall.writeConsole ∧ (pieces bytes).flatten = bytes) ∧
    ∀ f, files.get? (Registers.intOf r.rdi) = some f →
      ∃ (v : Int64) (c : RecordedState Machine η F) (offers : List (Offer F)) (f' : F),
        handle s.userMemory host.recorded r ⟨m, (x, []), files, log⟩ =
          .ok (.resume, r.withResult v) c ∧
        v.toInt = (offers.map Offer.taken).sum ∧ c.memory = m ∧
        c.files = files.put (Registers.intOf r.rdi) (some f') ∧
        host.Delivers f x (pieces bytes) offers f' c.host.1 ∧
        c.asked.reverse = offers.map Offer.call ∧
        (offers.map fun o => o.piece.take o.taken).flatten =
          bytes.take (offers.map Offer.taken).sum ∧
        (offers.map Offer.taken).sum ≤ bytes.length := by
  have hPos := List.length_pos_iff.2 hNil
  have hLength : r.rdx ≠ 0 := by
    intro hZero
    rw [hBytes, hZero] at hPos
    exact absurd hPos (Nat.lt_irrefl 0)
  have hSpace : inUserSpace ⟨r.rsi⟩ r.rdx = true := by
    refine inUserSpace_iff.2 ⟨hNull, ?_⟩
    obtain ⟨a, b, hAdd, hUser, -⟩ := hSpells.readable (i := bytes.length - 1) (by omega)
    have hLast := VirtualAddress.toNat_lt_of_isUser hUser
    have hEnd : userSpaceEnd.toNat = 2 ^ 47 := rfl
    rw [VirtualAddress.add?_eq_some] at hAdd
    simp only at hAdd ⊢
    omega
  have hBound := le_of_inUserSpace hSpace
  have hWord : ∀ n ≤ bytes.length, (Int64.ofInt (n : Int)).toInt = n := by
    intro n hn
    refine Int64.toInt_ofInt_of_le ?_ ?_ <;> omega
  constructor
  · intro hConsole
    obtain ⟨c, hWrite, hSame, hFiles, hAsked⟩ := write_console host
      (c := ⟨m, (x, []), files, .called .write r.rdi r.rsi r.rdx :: log⟩) hLength hSpace hConsole
      hMemory.reads (s.view_uniform m.memory) hBytes hSpells
    refine ⟨_, c, handle_of_write (c := ⟨m, (x, []), files, log⟩) hNumber hWrite,
      hWord _ (Nat.le_refl _), hSame, hFiles, ?_, flatten_pieces bytes⟩
    rw [hAsked]
    exact (congrArg List.reverse (List.append_nil _)).trans (List.reverse_reverse _)
  · intro f hFile
    obtain ⟨offers, f', c, hWrite, hDelivers, hSame, hFiles, hAsked⟩ := write_file host
      (c := ⟨m, (x, []), files, .called .write r.rdi r.rsi r.rdx :: log⟩) hLength hSpace hFile
      hMemory.reads (s.view_uniform m.memory) hBytes hSpells
    have hTaken := hDelivers.flatten_taken
    have hLe := hDelivers.sum_taken_le
    rw [flatten_pieces] at hTaken hLe
    refine ⟨_, c, offers, f', handle_of_write (c := ⟨m, (x, []), files, log⟩) hNumber hWrite,
      hWord _ hLe, hSame, hFiles, hDelivers, ?_, hTaken, hLe⟩
    rw [hAsked]
    exact (congrArg List.reverse (List.append_nil _)).trans (List.reverse_reverse _)

/-- On a machine of sixteen frames, with a page mapped at 4 MiB from which three hundred bytes are
written: once to the console, and once to a file that has room for two hundred and sixty. -/
theorem handle_write_transfers_sixteen : ∃ (k : KernelSpace) (m : Machine) (events : List Event)
    (σ : System) (s : AddressSpace) (bytes : List UInt8), Machine.boot 16 = .ok (k, m) ∧
    Run (.booted k m) events σ ∧ s.InMemory σ.machine.memory ∧ bytes.length = 300 ∧
    (s.view σ.machine.memory).Spells ⟨0x400005⟩ bytes ∧
    (∃ (v : Int64) (c : RecordedState Machine SimulatedHost FileHandle),
      handle s.userMemory SimulatedHost.services.recorded
          (Registers.ofCall (Call.number .write) 1 0x400005 300)
          ⟨σ.machine, (⟨#[⟨[97], [], some 260, none, none, 0⟩], [], none, 0, 1, []⟩, []),
            ⟨[some ⟨0, 0, 0⟩, none]⟩, []⟩ =
        .ok (.resume, (Registers.ofCall (Call.number .write) 1 0x400005 300).withResult v) c ∧
      v.toInt = 300 ∧ c.memory = σ.machine ∧ (pieces bytes).flatten = bytes ∧
      c.asked.reverse = (pieces bytes).map HostCall.writeConsole) ∧
    ∃ (v : Int64) (c : RecordedState Machine SimulatedHost FileHandle)
      (offers : List (Offer FileHandle)) (f' : FileHandle),
      handle s.userMemory SimulatedHost.services.recorded
          (Registers.ofCall (Call.number .write) 3 0x400005 300)
          ⟨σ.machine, (⟨#[⟨[97], [], some 260, none, none, 0⟩], [], none, 0, 1, []⟩, []),
            ⟨[some ⟨0, 0, 0⟩, none]⟩, []⟩ =
        .ok (.resume, (Registers.ofCall (Call.number .write) 3 0x400005 300).withResult v) c ∧
      v.toInt = (offers.map Offer.taken).sum ∧ c.memory = σ.machine ∧
      SimulatedHost.services.Delivers ⟨0, 0, 0⟩
        ⟨#[⟨[97], [], some 260, none, none, 0⟩], [], none, 0, 1, []⟩ (pieces bytes) offers f' c.host.1 ∧
      c.asked.reverse = offers.map Offer.call ∧
      (offers.map fun o => o.piece.take o.taken).flatten =
        bytes.take (offers.map Offer.taken).sum := by
  obtain ⟨k, m, f, s, kernelAlias, σ, hBoot, hRun, hs, hPage⟩ := @Run.exists_readable 16 (by decide)
    (by decide) ⟨0x400000⟩ (by decide) (by decide) true
  obtain ⟨plan, hStart⟩ := System.tracks_booted (by decide) hBoot
  obtain ⟨-, plan', hTracks, -⟩ := hRun.tracks hStart
  have hMemory : s.InMemory σ.machine.memory := hTracks.inMemory (Or.inl hs)
  obtain ⟨bytes, hBytes, hSpells⟩ :
      ∃ bytes, bytes.length = 300 ∧ (s.view σ.machine.memory).Spells ⟨0x400005⟩ bytes := by
    refine UserView.exists_spells fun i hi => AddressSpace.view_readable.2 ?_
    have hStart : (0x400005 : UInt64).toNat = 0x400005 := rfl
    have hFirst : (0x400000 : UInt64).toNat = 0x400000 := rfl
    obtain ⟨a, -, hAdd⟩ := @VirtualAddress.exists_add ⟨0x400005⟩ i (by simp only [hStart]; omega)
    have hNat := VirtualAddress.add?_eq_some.1 hAdd
    simp only [hStart] at hNat
    have hSame : VirtualAddress.page ⟨0x400000⟩ = a.page :=
      VirtualAddress.page_eq_iff.2 (by simp only [hFirst]; omega)
    obtain ⟨p, hResolve⟩ := hPage a (VirtualAddress.isUser_of_toNat_lt (by omega)) hSame
    exact ⟨a, p, hAdd, hResolve⟩
  have hNil : bytes ≠ [] := by
    rintro rfl
    cases hBytes
  have hConsole := handle_write_transfers hMemory SimulatedHost.services
    (r := .ofCall (Call.number .write) 1 0x400005 300) rfl
    ⟨#[⟨[97], [], some 260, none, none, 0⟩], [], none, 0, 1, []⟩ ⟨[some ⟨0, 0, 0⟩, none]⟩ [] hBytes hNil
    (by decide) hSpells
  have hFile := handle_write_transfers hMemory SimulatedHost.services
    (r := .ofCall (Call.number .write) 3 0x400005 300) rfl
    ⟨#[⟨[97], [], some 260, none, none, 0⟩], [], none, 0, 1, []⟩ ⟨[some ⟨0, 0, 0⟩, none]⟩ [] hBytes hNil
    (by decide) hSpells
  obtain ⟨v, c, hHandle, hValue, hSame, -, hAsked, hFlatten⟩ := hConsole.1 (Or.inl rfl)
  obtain ⟨v', c', offers, f', hHandle', hValue', hSame', -, hDelivers, hAsked', hTaken, -⟩ :=
    hFile.2 ⟨0, 0, 0⟩ rfl
  rw [hBytes] at hValue
  exact ⟨k, m, _, σ, s, bytes, hBoot, hRun, hMemory, hBytes, hSpells,
    ⟨v, c, hHandle, hValue, hSame, hFlatten, hAsked⟩, v', c', offers, f', hHandle', hValue', hSame',
    hDelivers, hAsked', hTaken⟩

end CallM

end PagedKernel
