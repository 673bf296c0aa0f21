import PagedKernel.Proofs.Syscall.Receipts
import PagedKernel.Proofs.Syscall.Writing

/-!
# What a read delivers

A read call stores what its source supplies, from the first byte of the buffer on, and nothing else
changes. It goes on with the number of bytes as long as the process may write all of them; at the first
one that it may not write the process ends, with the bytes before that one stored.

* `CallM.read_outside`, `CallM.read_unnamed`, `CallM.read_settled`: the ways for a read to end.
* `CallM.handle_read_delivers`: what a read call delivers.
-/

namespace PagedKernel

open Stateful

namespace CallM

/-! ## The ways for a read to end -/

section Read

variable {σ η F : Type} (host : Host η F) {fd : Int} {buffer : VirtualAddress} {length : UInt64}
  (hLength : length ≠ 0)

include hLength

theorem read_outside (u : UserMemory σ) (c : RecordedState σ η F)
    (hSpace : inUserSpace buffer length = false) :
    ∃ c', read u host.recorded fd buffer length c = .ok (.leave (.exit (-1))) c' ∧ c.Ended c' := by
  rw [read, if_neg hLength, if_neg (by simp [hSpace])]
  exact leave_ended _ c

variable (hSpace : inUserSpace buffer length = true)

include hSpace

theorem read_unnamed (u : UserMemory σ) {c : RecordedState σ η F} (hNone : c.files.source? fd = none) :
    read u host.recorded fd buffer length c = .ok (.result (-1)) c := by
  have hAsk : askFiles (·.isOpen fd) c = .ok (c.files.isOpen fd) c := rfl
  have hNot : ¬ (fd = stdin ∨ c.files.isOpen fd = true) := by
    rw [DescriptorTable.source?] at hNone
    split at hNone
    next => cases hNone
    next hStdin =>
      rw [DescriptorTable.isOpen, Option.map_eq_none_iff.1 hNone]
      simp [hStdin]
  rw [read, if_neg hLength, if_pos hSpace]
  show (askFiles _ >>= _ : CallM σ _ F _) c = _
  rw [bind_ok hAsk, if_neg hNot]
  rfl

section Source

variable (u : UserMemory σ) {c : RecordedState σ η F} {source : Source F}
  (hSource : c.files.source? fd = some source)

include hSource

theorem read_of_source : read u host.recorded fd buffer length c =
    (do
      match ← receivePieces u
        (if fd = stdin then receiveConsole host.recorded else receiveFile host.recorded fd) buffer
        (List.replicate pieceSize 0) 0 length.toNat with
      | .ok count => return .result count
      | .error e =>
        note (.readFault e)
        return .leave (← terminate host.recorded (-1)) :
      CallM σ (η × List (HostCall F)) F Outcome) c := by
  have hAsk : askFiles (·.isOpen fd) c = .ok (c.files.isOpen fd) c := rfl
  have hGoes : fd = stdin ∨ c.files.isOpen fd = true := by
    cases source with
    | console => exact Or.inl (DescriptorTable.source?_eq_console.1 hSource)
    | file f =>
      rw [DescriptorTable.isOpen, (DescriptorTable.source?_eq_file.1 hSource).2]
      exact Or.inr rfl
  rw [read, if_neg hLength, if_pos hSpace]
  show (askFiles _ >>= _ : CallM σ _ F _) c = _
  rw [bind_ok hAsk]
  exact congrFun (if_pos hGoes) c

theorem read_received {n : Nat} {c' : RecordedState σ η F}
    (hReceive : receivePieces u
      (if fd = stdin then receiveConsole host.recorded else receiveFile host.recorded fd) buffer
      (List.replicate pieceSize 0) 0 length.toNat c = .ok (.ok n) c') :
    read u host.recorded fd buffer length c = .ok (.result n) c' := by
  rw [read_of_source host hLength hSpace u hSource, bind_ok hReceive]
  rfl

theorem read_blocked {e : UserFault} {c₁ : RecordedState σ η F}
    (hReceive : receivePieces u
      (if fd = stdin then receiveConsole host.recorded else receiveFile host.recorded fd) buffer
      (List.replicate pieceSize 0) 0 length.toNat c = .ok (.error e) c₁) :
    ∃ c', read u host.recorded fd buffer length c = .ok (.leave (.exit (-1))) c' ∧ c₁.Ended c' := by
  rw [read_of_source host hLength hSpace u hSource, bind_ok hReceive]
  exact leave_ended _ c₁

end Source

/-- A read from a source stores what it supplies. It goes on with the number of bytes, or the process
ends at one that it may not write. -/
theorem read_settled {s : AddressSpace} {c : RecordedState Machine η F} {source : Source F}
    (hSource : c.files.source? fd = some source) (hBacks : s.Backs c.memory.memory buffer length.toNat) :
    ∃ receipts source' h c₁,
      host.Supplies (s.Fillable c.memory.memory buffer) length.toNat 0 (List.replicate pieceSize 0) source
        c.host.1 receipts source' h ∧
      c₁.files = c.files.keep fd source' ∧ c₁.asked = (receipts.map Receipt.call).reverse ++ c.asked ∧
      ((c.memory.Settled s buffer [] (receipts.flatMap Receipt.supplied) (.ok ()) c₁.memory ∧
          c₁.host.1 = h ∧ read s.userMemory host.recorded fd buffer length c =
            .ok (.result (receipts.flatMap Receipt.supplied).length) c₁) ∨
        ∃ e c', c.memory.Settled s buffer [] (receipts.flatMap Receipt.supplied) (.error e) c₁.memory ∧
          read s.userMemory host.recorded fd buffer length c = .ok (.leave (.exit (-1))) c' ∧
          c₁.Ended c') := by
  obtain ⟨receipts, source', o, c₁, hReceive, hSupplies, hSettled, hAsked, hFiles, -⟩ :=
    receivePieces_settled host hBacks (le_of_inUserSpace hSpace) hSource (.refl c.memory s buffer)
      (@List.length_replicate _ pieceSize 0) length.toNat (Nat.zero_add _)
  rw [List.length_nil, Nat.zero_add] at hReceive
  refine ⟨receipts, source', _, c₁, hSupplies, hFiles, hAsked, ?_⟩
  cases o with
  | ok _ =>
    exact Or.inl ⟨hSettled, rfl, read_received host hLength hSpace s.userMemory hSource hReceive⟩
  | error e =>
    obtain ⟨c', hRead, hEnded⟩ := read_blocked host hLength hSpace s.userMemory hSource hReceive
    exact Or.inr ⟨e, c', hSettled, hRead, hEnded⟩

end Read

/-! ## Read calls -/

theorem handle_of_read {σ η F : Type} {u : UserMemory σ} {host : Host η F} {r : Registers}
    (hNumber : r.number = Call.number .read) {c c' : CallState σ η F} {o : Outcome}
    (hRead : read u host (Registers.intOf r.rdi) ⟨r.rsi⟩ r.rdx
      { c with log := .called .read r.rdi r.rsi r.rdx :: c.log } = .ok o c') :
    handle u host r c = .ok (o.fate, o.registers r) c' :=
  have hCall : Call.ofNumber r.number = .ok .read := by rw [hNumber, Call.ofNumber_number]
  handle_of_serve hCall hRead

/-- What a read call delivers. A buffer that does not lie in user space ends the process, and a
descriptor that cannot be read from gives minus one; in both cases the source is asked for nothing, and
memory is what it was.

Otherwise the source is asked for one piece after another. If the process may write every byte that is
supplied, the call goes on with their number; they are at the front of the buffer, and nothing else has
changed. If it may not, those before the first such byte are at the front of the buffer, nothing else
has changed, and the process has ended. -/
theorem handle_read_delivers {s : AddressSpace} {m : Machine} {η F : Type} (host : Host η F)
    {r : Registers} (hNumber : r.number = Call.number .read) (hLength : r.rdx ≠ 0) (x : η)
    (files : DescriptorTable F) (log : List CallNotice) :
    (r.rsi = 0 ∨ userSpaceEnd.toNat < r.rsi.toNat + r.rdx.toNat →
      ∃ c, handle s.userMemory host.recorded r ⟨m, (x, []), files, log⟩ = .ok (.exit (-1), r) c ∧
        c.memory = m ∧ c.files.files = [] ∧ c.asked.reverse = files.files.map HostCall.closeHandle) ∧
    (r.rsi ≠ 0 → r.rsi.toNat + r.rdx.toNat ≤ userSpaceEnd.toNat →
      files.source? (Registers.intOf r.rdi) = none →
      ∃ c, handle s.userMemory host.recorded r ⟨m, (x, []), files, log⟩ =
          .ok (.resume, r.withResult (-1)) c ∧
        c.memory = m ∧ c.files = files ∧ c.asked = []) ∧
    (r.rsi ≠ 0 → r.rsi.toNat + r.rdx.toNat ≤ userSpaceEnd.toNat →
      s.Backs m.memory ⟨r.rsi⟩ r.rdx.toNat →
      ∀ source, files.source? (Registers.intOf r.rdi) = some source →
      ∃ receipts source' h supplied c,
        host.Supplies (s.Fillable m.memory ⟨r.rsi⟩) r.rdx.toNat 0 (List.replicate pieceSize 0) source x
          receipts source' h ∧
        (∀ i y, receipts[i]? = some y → y.piece.length = min (r.rdx.toNat - i * pieceSize) pieceSize) ∧
        supplied = receipts.flatMap Receipt.supplied ∧ supplied.length ≤ r.rdx.toNat ∧
        ((∀ i < supplied.length, s.Fillable m.memory ⟨r.rsi⟩ i) →
          (∃ v : Int64, v.toInt = supplied.length ∧
            handle s.userMemory host.recorded r ⟨m, (x, []), files, log⟩ =
              .ok (.resume, r.withResult v) c) ∧
          m.Filled s ⟨r.rsi⟩ supplied c.memory ∧ (s.view c.memory.memory).Spells ⟨r.rsi⟩ supplied ∧
          c.files = files.keep (Registers.intOf r.rdi) source' ∧ c.host.1 = h ∧
          c.asked.reverse = receipts.map Receipt.call) ∧
        ∀ k < supplied.length, ¬ s.Fillable m.memory ⟨r.rsi⟩ k →
          (∀ i < k, s.Fillable m.memory ⟨r.rsi⟩ i) →
          handle s.userMemory host.recorded r ⟨m, (x, []), files, log⟩ = .ok (.exit (-1), r) c ∧
          m.Filled s ⟨r.rsi⟩ (supplied.take k) c.memory ∧
          (s.view c.memory.memory).Spells ⟨r.rsi⟩ (supplied.take k) ∧ c.files.files = [] ∧
          c.asked.reverse = receipts.map Receipt.call ++
            (files.keep (Registers.intOf r.rdi) source').files.map HostCall.closeHandle) := by
  have hHandle : ∀ {o c}, read s.userMemory host.recorded (Registers.intOf r.rdi) ⟨r.rsi⟩ r.rdx
      ⟨m, (x, []), files, .called .read r.rdi r.rsi r.rdx :: log⟩ = .ok o c →
      handle s.userMemory host.recorded r ⟨m, (x, []), files, log⟩ = .ok (o.fate, o.registers r) c :=
    handle_of_read (c := ⟨m, (x, []), files, log⟩) hNumber
  have hInside : r.rsi ≠ 0 → r.rsi.toNat + r.rdx.toNat ≤ userSpaceEnd.toNat →
      inUserSpace ⟨r.rsi⟩ r.rdx = true := fun hNull hEnd => inUserSpace_iff.2 ⟨hNull, hEnd⟩
  refine ⟨fun hBad => ?_, fun hNull hEnd hNone => ?_, fun hNull hEnd hBacks source hSource => ?_⟩
  · have hSpace : ¬ inUserSpace ⟨r.rsi⟩ r.rdx = true := by
      rw [inUserSpace_iff, not_and_or, not_not, Nat.not_le]
      exact hBad
    obtain ⟨c, hRead, hEnded⟩ := read_outside host hLength s.userMemory
      ⟨m, (x, []), files, .called .read r.rdi r.rsi r.rdx :: log⟩ (by simpa using hSpace)
    exact ⟨c, hHandle hRead, hEnded.memory_eq, hEnded.files_eq, hEnded.reverse_asked rfl⟩
  · exact ⟨_, hHandle (read_unnamed host hLength (hInside hNull hEnd) s.userMemory hNone), rfl, rfl, rfl⟩
  · have hSpace := hInside hNull hEnd
    have hBound := le_of_inUserSpace hSpace
    obtain ⟨receipts, source', h, c₁, hSupplies, hFiles, hAsked, hCases⟩ := read_settled host hLength hSpace
      (c := ⟨m, (x, []), files, .called .read r.rdi r.rsi r.rdx :: log⟩) hSource hBacks
    replace hAsked : c₁.asked = (receipts.map Receipt.call).reverse := hAsked.trans (List.append_nil _)
    have hLe := hSupplies.length_supplied_le
    rw [Nat.zero_add] at hLe
    have hPieces : ∀ i y, receipts[i]? = some y →
        y.piece.length = min (r.rdx.toNat - i * pieceSize) pieceSize := by
      intro i y hy
      have hPiece := hSupplies.length_piece (List.length_replicate ..) hy
      rwa [Nat.zero_add] at hPiece
    obtain ⟨supplied, hSupplied⟩ : ∃ supplied, supplied = receipts.flatMap Receipt.supplied := ⟨_, rfl⟩
    rw [← hSupplied] at hLe hCases
    rcases hCases with ⟨hSettled, hHost, hRead⟩ | ⟨e, c, hSettled, hRead, hEnded⟩
    · obtain ⟨hAll, hFilled⟩ := hSettled.of_ok
      simp only [List.length_nil, Nat.zero_add] at hAll
      have hWord : (Int64.ofInt (supplied.length : Int)).toInt = supplied.length :=
        Int64.toInt_ofInt_of_le (by omega) (by omega)
      refine ⟨receipts, source', h, supplied, c₁, hSupplies, hPieces, hSupplied, hLe, fun _ =>
        ⟨⟨_, hWord, hHandle hRead⟩, hFilled, hFilled.spells hBacks hLe, hFiles, hHost, ?_⟩,
        fun k hk hNot _ => absurd (hAll k hk) hNot⟩
      rw [hAsked, List.reverse_reverse]
    · obtain ⟨k, hLt, hBlocked, hBefore, hFilled⟩ := hSettled.of_error
      simp only [List.length_nil, Nat.zero_add] at hBlocked hBefore
      refine ⟨receipts, source', h, supplied, c, hSupplies, hPieces, hSupplied, hLe,
        fun hAll => absurd (hAll k hLt) hBlocked, fun k' hk' hNot hAll => ?_⟩
      -- There is only one first byte out of reach.
      obtain rfl : k' = k := by
        rcases Nat.lt_trichotomy k' k with hBelow | hSame | hAbove
        · exact absurd (hBefore k' hBelow) hNot
        · exact hSame
        · exact absurd (hAll k hAbove) hBlocked
      rw [← hEnded.memory_eq] at hFilled
      refine ⟨hHandle hRead, hFilled, hFilled.spells hBacks ?_, hEnded.files_eq, ?_⟩
      · rw [List.length_take]
        omega
      · rw [hEnded.asked_eq, hAsked, hFiles, List.reverse_append, List.reverse_reverse,
          List.reverse_reverse]

/-- On a machine of sixteen frames, with a page mapped at 4 MiB into which eight bytes are read from the
console. It supplies five of them. -/
theorem handle_read_delivers_sixteen : ∃ (k : KernelSpace) (m : Machine) (events : List Event)
    (σ : System) (s : AddressSpace), Machine.boot 16 = .ok (k, m) ∧ Run (.booted k m) events σ ∧
    (Registers.ofCall (Call.number .read) 0 0x400000 8).number = Call.number .read ∧
    (Registers.ofCall (Call.number .read) 0 0x400000 8).rdx ≠ 0 ∧
    s.Backs σ.machine.memory ⟨0x400000⟩ 8 ∧
    ∃ (v : Int64) (c : RecordedState Machine SimulatedHost FileHandle), v.toInt = 5 ∧
      handle s.userMemory SimulatedHost.services.recorded
          (Registers.ofCall (Call.number .read) 0 0x400000 8)
          ⟨σ.machine, (⟨#[], [104, 101, 108, 108, 111], none, 0, 0, []⟩, []), .ofSize 8, []⟩ =
        .ok (.resume, (Registers.ofCall (Call.number .read) 0 0x400000 8).withResult v) c ∧
      σ.machine.Filled s ⟨0x400000⟩ [104, 101, 108, 108, 111] c.memory ∧
      (s.view c.memory.memory).Spells ⟨0x400000⟩ [104, 101, 108, 108, 111] := by
  obtain ⟨k, m, f, s, kernelAlias, σ, hBoot, hRun, hs, hReach⟩ := @Run.exists_reachable 16 (by decide)
    (by decide) ⟨0x400000⟩ (by decide) (by decide) true
  obtain ⟨plan, hStart⟩ := System.tracks_booted (by decide) hBoot
  obtain ⟨-, plan', hTracks, -⟩ := hRun.tracks hStart
  have hBacks : s.Backs σ.machine.memory ⟨0x400000⟩ 8 := hTracks.backs (Or.inl hs) _ _
  have hFillable : ∀ i < 8, s.Fillable σ.machine.memory ⟨0x400000⟩ i := by
    intro i hi
    have hFirst : (0x400000 : UInt64).toNat = 0x400000 := rfl
    obtain ⟨a, -, hAdd⟩ := @VirtualAddress.exists_add ⟨0x400000⟩ i (by simp only [hFirst]; omega)
    have hNat := VirtualAddress.add?_eq_some.1 hAdd
    simp only [hFirst] at hNat
    obtain ⟨p, hResolve⟩ := hReach .write (fun _ => rfl) a (VirtualAddress.isUser_of_toNat_lt (by omega))
      (VirtualAddress.page_eq_iff.2 (by simp only [hFirst]; omega))
    exact ⟨_, a, p, hAdd, hResolve, rfl⟩
  obtain ⟨receipts, source', h, supplied, c, hSupplies, -, hSupplied, hLe, hResume, -⟩ :=
    (handle_read_delivers SimulatedHost.services (r := .ofCall (Call.number .read) 0 0x400000 8) rfl
      (by decide) ⟨#[], [104, 101, 108, 108, 111], none, 0, 0, []⟩ (.ofSize 8) []).2.2
      (by decide) (by decide) hBacks .console rfl
  -- The console has one piece to fill, and five bytes for it.
  obtain rfl : supplied = [104, 101, 108, 108, 111] := by
    rw [hSupplied]
    generalize hLength : (Registers.ofCall (Call.number .read) 0 0x400000 8).rdx.toNat = length at hSupplies
    obtain rfl : 8 = length := hLength
    cases hSupplies with
    | short _ hPiece hFill =>
      subst hPiece
      cases hFill
      rfl
    | blocked _ hPiece hFill =>
      subst hPiece
      cases hFill
      rfl
    | whole _ hPiece hFill hWhole =>
      subst hPiece
      cases hFill
      exact absurd hWhole (by decide)
  obtain ⟨⟨v, hValue, hHandle⟩, hFilled, hSpells, -⟩ :=
    hResume fun i hi => hFillable i (Nat.lt_of_lt_of_le hi hLe)
  exact ⟨k, m, _, σ, s, hBoot, hRun, rfl, by decide, hBacks, v, c, hValue, hHandle, hFilled, hSpells⟩

end CallM

end PagedKernel
