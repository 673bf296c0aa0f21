import PagedKernel.Proofs.Syscall.Bounds

/-!
# What a process is answered

Every number has an answer. The machine is turned off for one of them only, and a process ends with a status
of its own choice for one only; a number without a call ends it, and what is not supported is refused. The
registers of the process change in one place, where the result is put when it goes on.

* `Registers.Classified`: what the answer to a number may be. `Registers.AnsweredBy.classified`: it is so.
* `CallM.powerOff_not_mem_asked`: only one call turns the machine off.
* `CallM.handle_halt`, `CallM.handle_exit`, `CallM.handle_unknown`, `CallM.handle_unsupported`: the calls that
  are answered whatever the state.
* `CallM.handle_close`: the call that closes a file.
* `CallM.handle_classifies`: all of it, for every number.
-/

namespace PagedKernel

open Stateful

/-! ## Numbers -/

namespace Call

theorem eq_number {w : UInt64} {call : Call} (h : ofNumber w = .ok call) : w = call.number := by
  rw [ofNumber] at h
  split at h
  next c hAt =>
    cases h
    obtain ⟨hLt, rfl⟩ := List.getElem?_eq_some_iff.1 hAt
    have hDistinct : all.Nodup := by decide
    rw [number, hDistinct.idxOf_getElem, UInt64.ofNat_toNat]
  next => cases h

theorem ofNumber_of_le {w : UInt64} (h : 14 ≤ w.toNat) : ofNumber w = .error ⟨w⟩ := by
  have hNone : all[w.toNat]? = none := List.getElem?_eq_none h
  rw [ofNumber, hNone]

theorem number_eq_iff {w : UInt64} {call : Call} (h : ofNumber w = .ok call) (other : Call) :
    w = other.number ↔ call = other := by
  rw [eq_number h]
  constructor
  · intro hSame
    exact Except.ok.inj ((ofNumber_number call).symm.trans (hSame ▸ ofNumber_number other))
  · exact congrArg number

def unsupported : List Call := [.fork, .exec, .wait, .create, .remove, .fileSize, .seek, .tell]

example : unsupported.map number = [2, 3, 4, 5, 6, 8, 11, 12] := by decide

end Call

/-- The low half of a register as a signed number. -/
theorem Registers.intOf_eq_bmod (w : UInt64) : intOf w = Int.bmod w.toNat (2 ^ 32) := by
  rw [intOf, Int32.toInt, BitVec.toInt_eq_toNat_bmod]
  show Int.bmod (w.toUInt32.toNat : Int) (2 ^ 32) = _
  rw [UInt64.toNat_toUInt32, Int.natCast_emod]
  exact Int.emod_bmod _ _

/-! ## Answers -/

/-- What may be told to a process that asked with the registers `r`: the registers are the same but for the
result, and this is there only if the process goes on. The machine is turned off for one number and no other,
and another one alone gives a status that is not -1. The result of a transfer is at most what was asked for,
or -1. -/
structure Registers.Classified (r : Registers) (k : Fate) (r' : Registers) : Prop where
  same_but_rax : r' = { r with rax := r'.rax }
  same_of_ne_resume : k ≠ .resume → r' = r
  powerOff_iff : k = .powerOff ↔ r.number = 0
  number_of_exit (status : Int) : k = .exit status → status ≠ -1 → r.number = 1
  count_of_transfer : k = .resume → r.number = 9 ∨ r.number = 10 →
    r'.result.toInt = -1 ∨ 0 ≤ r'.result.toInt ∧ r'.result.toInt ≤ r.rdx.toNat

namespace Call.ComesTo

variable {slots : Nat} {a d : UInt64} {call : Call} {o : Outcome} (h : call.ComesTo slots a d o)

include h

theorem powerOff_iff : o.fate = .powerOff ↔ call = .halt := by
  cases h with
  | halted => exact ⟨fun _ => rfl, fun _ => rfl⟩
  | exited | opened | closed => exact ⟨nofun, nofun⟩
  | refused hHalt => exact ⟨nofun, fun hCall => absurd hCall hHalt⟩
  | ended hCall =>
    refine ⟨nofun, ?_⟩
    rintro rfl
    rcases hCall with hCall | hCall | hCall <;> cases hCall
  | moved hCall =>
    refine ⟨nofun, ?_⟩
    rintro rfl
    rcases hCall with hCall | hCall <;> cases hCall

theorem eq_exit {status : Int} (hExit : o.fate = .exit status) (hStatus : status ≠ -1) : call = .exit := by
  cases h with
  | exited => rfl
  | ended =>
    cases hExit
    exact absurd rfl hStatus
  | halted | refused | moved | opened | closed => cases hExit

/-- A transfer that the process goes on from has moved at most all that was asked for, or was refused. -/
theorem count_of_transfer (hCall : call = .read ∨ call = .write) (hResume : o.fate = .resume) :
    o = .result (-1) ∨ ∃ count : Nat, o = .result count ∧ count ≤ d.toNat ∧ count ≤ 2 ^ 47 := by
  cases h with
  | refused => exact Or.inl rfl
  | moved _ hCount hSpace => exact Or.inr ⟨_, rfl, hCount, hSpace⟩
  | halted | exited | ended => cases hResume
  | opened | closed => rcases hCall with hCall | hCall <;> cases hCall

end Call.ComesTo

theorem Registers.result_withResult {r : Registers} {v : Int} (hLow : -2 ^ 63 ≤ v) (hHigh : v < 2 ^ 63) :
    (r.withResult (Int64.ofInt v)).result.toInt = v := by
  rw [withResult, result, Int64.toInt64_toUInt64, Int64.toInt_ofInt_of_le hLow hHigh]

theorem Registers.AnsweredBy.classified {slots : Nat} {r r' : Registers} {k : Fate}
    (h : r.AnsweredBy slots (k, r')) : r.Classified k r' := by
  cases h with
  | unknown hCall =>
    have hNone : ∀ call, r.number ≠ Call.number call := by
      intro call hNumber
      rw [hNumber, Call.ofNumber_number] at hCall
      cases hCall
    refine ⟨rfl, fun _ => rfl, ⟨nofun, fun hHalt => absurd hHalt (hNone .halt)⟩,
      fun status hExit hStatus => ?_, nofun⟩
    cases hExit
    exact absurd rfl hStatus
  | @known call o hCall hEnds =>
    have hNumber := Call.number_eq_iff hCall
    refine ⟨?_, fun hStay => ?_, hEnds.powerOff_iff.trans (hNumber .halt).symm,
      fun status hExit hStatus => (hNumber .exit).2 (hEnds.eq_exit hExit hStatus),
      fun hResume hTransfer => ?_⟩
    · cases o <;> rfl
    · cases o with
      | result v => exact absurd rfl hStay
      | leave => rfl
    · have hMoves := hTransfer.imp (hNumber .read).1 (hNumber .write).1
      rcases hEnds.count_of_transfer hMoves hResume with rfl | ⟨count, rfl, hCount, hSpace⟩
      · exact Or.inl (result_withResult (by omega) (by omega))
      · refine Or.inr ?_
        rw [Outcome.registers, result_withResult (by omega) (by omega)]
        omega

namespace CallM

variable {σ η F : Type} {u : UserMemory σ} {host : Host η F} {r : Registers}

/-! ## Turning the machine off -/

theorem handle_powerOff (hNumber : r.number ≠ 0) (off : η → η) :
    handle u { host with powerOff := off } r = handle u host r := by
  rw [handle, handle]
  cases hCall : Call.ofNumber r.number with
  | error e => rfl
  | ok call =>
    have hServe : serve u { host with powerOff := off } call = serve u host call := by
      cases call with
      | halt => exact absurd (Call.eq_number hCall) hNumber
      | _ => rfl
    simp only [hServe]

theorem alike_recorded_of_powerOff (host : Host η F) :
    Host.Alike (fun x y => x = y ∧ .powerOff ∉ x.2) { host.recorded with powerOff := id }
      { host.recorded with powerOff := id } where
  powerOff hS := hS
  openFile _ := by
    rintro x _ ⟨rfl, hNone⟩
    exact ⟨rfl, rfl, List.not_mem_cons_of_ne_of_not_mem nofun hNone⟩
  writeConsole _ := by
    rintro x _ ⟨rfl, hNone⟩
    exact ⟨rfl, List.not_mem_cons_of_ne_of_not_mem nofun hNone⟩
  readConsole _ := by
    rintro x _ ⟨rfl, hNone⟩
    exact ⟨rfl, rfl, List.not_mem_cons_of_ne_of_not_mem nofun hNone⟩
  writeHandle _ _ := by
    rintro x _ ⟨rfl, hNone⟩
    exact ⟨rfl, rfl, List.not_mem_cons_of_ne_of_not_mem nofun hNone⟩
  readHandle _ _ := by
    rintro x _ ⟨rfl, hNone⟩
    exact ⟨rfl, rfl, List.not_mem_cons_of_ne_of_not_mem nofun hNone⟩
  closeHandle _ := by
    rintro x _ ⟨rfl, hNone⟩
    exact ⟨rfl, List.not_mem_cons_of_ne_of_not_mem nofun hNone⟩

/-- Only one call turns the machine off, however the others end. -/
theorem powerOff_not_mem_asked (hNumber : r.number ≠ 0) {c : RecordedState σ η F}
    (hNone : .powerOff ∉ c.asked) : .powerOff ∉ (final (handle u host.recorded r) c).asked := by
  rw [← handle_powerOff hNumber id]
  have hEnd := handle_simulates (V := fun _ => True) (R := Eq) (alike_recorded_of_powerOff host)
    (fun a => .refl (u.readByte a)) r (fun a _ b => .refl (u.writeByte a b)) c c ⟨rfl, ⟨rfl, hNone⟩, rfl⟩
  rw [final]
  generalize handle u _ r c = p at hEnd
  cases hEnd with
  | ok _ hState => exact hState.host.2
  | error _ hState => exact hState.host.2

/-! ## Single calls -/

theorem handle_halt (hNumber : r.number = 0) (c : RecordedState σ η F) :
    ∃ log, handle u host.recorded r c =
      .ok (.powerOff, r) ⟨c.memory, (host.powerOff c.host.1, .powerOff :: c.asked), c.files, log⟩ := by
  have hCall : Call.ofNumber r.number = .ok .halt := hNumber ▸ rfl
  exact ⟨_, handle_of_serve hCall rfl⟩

theorem handle_exit (hNumber : r.number = 1) (c : RecordedState σ η F) :
    ∃ c', handle u host.recorded r c = .ok (.exit (Registers.intOf r.rdi), r) c' ∧ c.Ended c' := by
  have hCall : Call.ofNumber r.number = .ok .exit := hNumber ▸ rfl
  obtain ⟨c', hEnd, hEnded⟩ := @terminate_ended σ η F host (Registers.intOf r.rdi)
    { c with log := .called .exit r.rdi r.rsi r.rdx :: c.log }
  refine ⟨c', handle_of_serve hCall (o := .leave _) ?_,
    hEnded.memory_eq, hEnded.files_eq, hEnded.asked_eq⟩
  exact bind_ok hEnd

theorem handle_unknown (hNumber : 14 ≤ r.number.toNat) (c : RecordedState σ η F) :
    ∃ c', handle u host.recorded r c = .ok (.exit (-1), r) c' ∧ c.Ended c' := by
  obtain ⟨c', hEnd, hEnded⟩ := @terminate_ended σ η F host (-1)
    { c with log := .unknown ⟨r.number⟩ :: c.log }
  refine ⟨c', ?_, hEnded.memory_eq, hEnded.files_eq, hEnded.asked_eq⟩
  rw [handle, Call.ofNumber_of_le hNumber]
  exact bind_ok hEnd

theorem handle_unsupported {call : Call} (hCall : call ∈ Call.unsupported) (hNumber : r.number = call.number)
    (c : CallState σ η F) :
    ∃ log, handle u host r c = .ok (.resume, r.withResult (-1)) { c with log := log } := by
  have hKnown : Call.ofNumber r.number = .ok call := hNumber ▸ Call.ofNumber_number call
  refine ⟨.unsupported call :: .called call r.rdi r.rsi r.rdx :: c.log,
    handle_of_serve hKnown (o := .result (-1)) ?_⟩
  simp only [Call.unsupported, List.mem_cons, List.not_mem_nil, or_false] at hCall
  rcases hCall with rfl | rfl | rfl | rfl | rfl | rfl | rfl | rfl <;> rfl

section Close

variable (hNumber : r.number = 13) (c : RecordedState σ η F)

include hNumber

theorem handle_close {f : F} (hGet : c.files.get? (Registers.intOf r.rdi) = some f) :
    ∃ files log, files.get? (Registers.intOf r.rdi) = none ∧
      (∀ fd ≠ Registers.intOf r.rdi, files.get? fd = c.files.get? fd) ∧
      handle u host.recorded r c = .ok (.resume, r.withResult 0)
        ⟨c.memory, (host.closeHandle f c.host.1, .closeHandle f :: c.asked), files, log⟩ := by
  have hCall : Call.ofNumber r.number = .ok .close := hNumber ▸ rfl
  obtain ⟨k, hSlot, -⟩ := DescriptorTable.slot?_of_get? hGet
  have hOthers := DescriptorTable.get?_put_of_slot hSlot none
  refine ⟨c.files.put (Registers.intOf r.rdi) none, .called .close r.rdi r.rsi r.rdx :: c.log,
    (hOthers _).trans (if_pos rfl), fun fd hNe => (hOthers fd).trans (if_neg hNe),
    handle_of_serve hCall (o := .result 0) ?_⟩
  show close host.recorded _ _ = _
  rw [close, bind_ok (onFiles_apply _ _)]
  simp only [DescriptorTable.remove, hGet]
  rfl

theorem handle_close_none (hGet : c.files.get? (Registers.intOf r.rdi) = none) :
    ∃ log, handle u host.recorded r c = .ok (.resume, r.withResult (-1)) { c with log := log } := by
  have hCall : Call.ofNumber r.number = .ok .close := hNumber ▸ rfl
  refine ⟨.called .close r.rdi r.rsi r.rdx :: c.log, handle_of_serve hCall (o := .result (-1)) ?_⟩
  show close host.recorded _ _ = _
  rw [close, bind_ok (onFiles_apply _ _)]
  simp only [DescriptorTable.remove, hGet]
  rfl

end Close

/-! ## All numbers -/

theorem handle_recorded (u : UserMemory σ) (host : Host η F) (r : Registers) (c : CallState σ η F) :
    EndAlike (fun _ => True) (CallState.Related Eq fun x y => x.1 = y)
      (handle u host.recorded r c.recorded) (handle u host r c) :=
  handle_simulates host.alike_recorded (fun a => .refl (u.readByte a)) r
    (fun a _ b => .refl (u.writeByte a b)) _ _ ⟨rfl, rfl, rfl⟩

theorem handle_of_recorded {k : Fate} {r' : Registers} {c : CallState σ η F} {c' : RecordedState σ η F}
    (h : handle u host.recorded r c.recorded = .ok (k, r') c') :
    ∃ log, handle u host r c = .ok (k, r') ⟨c'.memory, c'.host.1, c'.files, log⟩ := by
  have hEnd := handle_recorded u host r c
  rw [h] at hEnd
  generalize handle u host r c = p at hEnd
  cases hEnd with
  | @ok _ _ c'' hState =>
    obtain ⟨memory, host', files, log⟩ := c''
    obtain ⟨rfl, rfl, rfl⟩ := hState
    exact ⟨log, rfl⟩

theorem handle_classified {k : Fate} {r' : Registers} {c c' : CallState σ η F}
    (h : handle u host r c = .ok (k, r') c') : r.Classified k r' := by
  have hEnd := handle_recorded u host r c
  have hAnswer := @meets_answer σ η F c.files.slots.length host u r c.recorded ⟨nofun, rfl⟩
  rw [h] at hEnd
  generalize handle u host.recorded r c.recorded = p at hEnd hAnswer
  cases hEnd with
  | ok => exact hAnswer.1.classified

/-- Every number is classified, whatever the registers, the memory, the host and the open files are. An answer
changes no register but the one of the result, and that only if the process goes on; number 0 alone turns the
machine off, once; number 1 ends the process with the low half of its argument as a signed number, and no other
number ends it with a status that is not -1; every number from 14 on ends it with -1; the unsupported numbers
answer -1 and change nothing; a close answers 0 and closes just that file if the descriptor names one, and
answers -1 and changes nothing if it does not; and a transfer answers -1 or at most the bytes asked for. If the
memory always answers, so does the call. -/
theorem handle_classifies (u : UserMemory σ) (host : Host η F) (r : Registers) (c : CallState σ η F) :
    (∀ k r' c', handle u host r c = .ok (k, r') c' → r.Classified k r') ∧
    (∀ k r' c', handle u host.recorded r c.recorded = .ok (k, r') c' →
      ∃ log, handle u host r c = .ok (k, r') ⟨c'.memory, c'.host.1, c'.files, log⟩) ∧
    (r.number = 0 → ∃ log, handle u host.recorded r c.recorded =
      .ok (.powerOff, r) ⟨c.memory, (host.powerOff c.host, [.powerOff]), c.files, log⟩) ∧
    (r.number ≠ 0 → .powerOff ∉ (final (handle u host.recorded r) c.recorded).asked) ∧
    (r.number = 1 → ∃ c', handle u host.recorded r c.recorded =
      .ok (.exit (Int.bmod r.rdi.toNat (2 ^ 32)), r) c' ∧ c.recorded.Ended c') ∧
    (14 ≤ r.number.toNat → ∃ c', handle u host.recorded r c.recorded = .ok (.exit (-1), r) c' ∧
      c.recorded.Ended c') ∧
    (∀ call ∈ Call.unsupported, r.number = call.number → ∃ log,
      handle u host.recorded r c.recorded =
        .ok (.resume, r.withResult (-1)) { c.recorded with log := log }) ∧
    (r.number = 13 → ∀ fd, fd = Int.bmod r.rdi.toNat (2 ^ 32) →
      (∀ f, c.files.get? fd = some f → firstFileDescriptor ≤ fd ∧
        fd < firstFileDescriptor + c.files.slots.length ∧
        ∃ files log, files.get? fd = none ∧ (∀ fd' ≠ fd, files.get? fd' = c.files.get? fd') ∧
          handle u host.recorded r c.recorded = .ok (.resume, r.withResult 0)
            ⟨c.memory, (host.closeHandle f c.host, [.closeHandle f]), files, log⟩) ∧
      (c.files.get? fd = none → ∃ log, handle u host.recorded r c.recorded =
        .ok (.resume, r.withResult (-1)) { c.recorded with log := log })) ∧
    ((∀ a m, ∃ o m', u.readByte a m = .ok o m') → (∀ a b m, ∃ o m', u.writeByte a b m = .ok o m') →
      ∃ k r' c', handle u host r c = .ok (k, r') c') := by
  refine ⟨fun k r' c' => handle_classified, fun k r' c' => handle_of_recorded,
    fun hNumber => handle_halt hNumber c.recorded, fun hNumber => powerOff_not_mem_asked hNumber nofun,
    fun hNumber => Registers.intOf_eq_bmod r.rdi ▸ handle_exit hNumber c.recorded,
    fun hNumber => handle_unknown hNumber c.recorded,
    fun call hCall hNumber => handle_unsupported hCall hNumber c.recorded, ?_, fun hRead hWrite => ?_⟩
  · intro hNumber fd hFd
    rw [← Registers.intOf_eq_bmod] at hFd
    subst hFd
    refine ⟨fun f hGet => ?_, fun hGet => handle_close_none hNumber c.recorded hGet⟩
    obtain ⟨k, hSlot, -⟩ := DescriptorTable.slot?_of_get? hGet
    obtain ⟨hLt, hSame⟩ := DescriptorTable.slot?_eq_some.1 hSlot
    refine ⟨?_, ?_, handle_close hNumber c.recorded hGet⟩ <;>
      rw [hSame, DescriptorTable.descriptor, Int.ofNat_eq_natCast] <;> omega
  · have hCall := handle_simulates (V := fun _ => False) host.alike_self
      (fun a => .of_answers (hRead a)) r (fun a _ b => .of_answers (hWrite a b))
    obtain ⟨⟨k, r'⟩, c', -, hHandle, -⟩ := hCall.exists_ok (s := c) (t := c) ⟨rfl, rfl, rfl⟩
    exact ⟨k, r', c', hHandle⟩

/-- A process with one file, which has descriptor 3, and with no memory: it turns the machine off; it exits with
the low half of a register; it asks for a number without a call and for an unsupported one; it closes its file,
with a register whose high half is not zero, and closes a descriptor without a file; and it reads nothing. -/
theorem handle_classifies_numbers : ∃ (u : UserMemory Unit) (host : Host Unit Unit)
    (c : CallState Unit Unit Unit),
    c.files.get? 3 = some () ∧ c.files.get? 4 = none ∧
    (∃ log, handle u host.recorded (.ofCall 0 0 0 0) c.recorded =
      .ok (.powerOff, .ofCall 0 0 0 0) ⟨(), ((), [.powerOff]), c.files, log⟩) ∧
    (∃ c', handle u host.recorded (.ofCall 1 0x1ffffffd6 0 0) c.recorded =
        .ok (.exit (-42), .ofCall 1 0x1ffffffd6 0 0) c' ∧
      .powerOff ∉ (final (handle u host.recorded (.ofCall 1 0x1ffffffd6 0 0)) c.recorded).asked) ∧
    (∃ c', handle u host.recorded (.ofCall 0xffffffffffffffff 0 0 0) c.recorded =
      .ok (.exit (-1), .ofCall 0xffffffffffffffff 0 0 0) c') ∧
    (∃ log, handle u host.recorded (.ofCall 2 0 0 0) c.recorded =
      .ok (.resume, .ofCall 0xffffffffffffffff 0 0 0) { c.recorded with log := log }) ∧
    (∃ files log, files.get? 3 = none ∧ handle u host.recorded (.ofCall 13 0x100000003 0 0) c.recorded =
      .ok (.resume, .ofCall 0 0x100000003 0 0) ⟨(), ((), [.closeHandle ()]), files, log⟩) ∧
    (∃ log, handle u host.recorded (.ofCall 13 4 0 0) c.recorded =
      .ok (.resume, .ofCall 0xffffffffffffffff 4 0 0) { c.recorded with log := log }) ∧
    ∃ k r' c', handle u host (.ofCall 9 0 0 0) c = .ok (k, r') c' ∧
      (Registers.ofCall 9 0 0 0).Classified k r' := by
  let u : UserMemory Unit := ⟨fun a => return .error ⟨a⟩, fun a _ => return .error ⟨a⟩⟩
  let host : Host Unit Unit :=
    { powerOff := id
      openFile := fun _ h => (none, h)
      writeConsole := fun _ h => h
      readConsole := fun _ h => (([], 0), h)
      writeHandle := fun f _ h => ((f, 0), h)
      readHandle := fun f _ h => ((f, [], 0), h)
      closeHandle := fun _ h => h }
  let c : CallState Unit Unit Unit := ⟨(), (), ⟨[some (), none]⟩, []⟩
  obtain ⟨-, -, hHalt, -⟩ := handle_classifies u host (.ofCall 0 0 0 0) c
  obtain ⟨-, -, -, hPower, hExit, -⟩ := handle_classifies u host (.ofCall 1 0x1ffffffd6 0 0) c
  obtain ⟨-, -, -, -, -, hUnknown, -⟩ := handle_classifies u host (.ofCall 0xffffffffffffffff 0 0 0) c
  obtain ⟨-, -, -, -, -, -, hUnsupported, -⟩ := handle_classifies u host (.ofCall 2 0 0 0) c
  obtain ⟨-, -, -, -, -, -, -, hOpen, -⟩ := handle_classifies u host (.ofCall 13 0x100000003 0 0) c
  obtain ⟨-, -, -, -, -, -, -, hShut, -⟩ := handle_classifies u host (.ofCall 13 4 0 0) c
  obtain ⟨hRange, -, -, -, -, -, -, -, hTotal⟩ := handle_classifies u host (.ofCall 9 0 0 0) c
  have hStatus : Int.bmod (Registers.ofCall 1 0x1ffffffd6 0 0).rdi.toNat (2 ^ 32) = -42 := by decide +kernel
  rw [hStatus] at hExit
  obtain ⟨c₁, hExit, -⟩ := hExit rfl
  obtain ⟨c₂, hUnknown, -⟩ := hUnknown (by decide)
  obtain ⟨-, -, files, log, hGone, -, hClose⟩ := (hOpen rfl 3 (by decide +kernel)).1 () rfl
  obtain ⟨k, r', c₃, hRead⟩ := hTotal (fun _ _ => ⟨_, _, rfl⟩) fun _ _ _ => ⟨_, _, rfl⟩
  exact ⟨u, host, c, rfl, rfl, hHalt rfl, ⟨c₁, hExit, hPower (by decide)⟩, ⟨c₂, hUnknown⟩,
    hUnsupported .fork (by decide) rfl, ⟨files, log, hGone, hClose⟩, (hShut rfl 4 (by decide +kernel)).2 rfl,
    k, r', c₃, hRead, hRange _ _ _ hRead⟩

end CallM

end PagedKernel
