import Mathlib.Algebra.Group.Int.Defs
import PagedKernel.Proofs.Syscall.Recorded

/-!
# The bounds of a call

Whatever a process asks for, what a call asks of the host is of a size that the kernel chooses: a piece
is whole or is what is left over at the end of the buffer, and a path has at most `pathLimit` bytes. The
table of open files keeps its slots, and a result fits the register that it is stored in.

The bounds hold as an invariant of the call, and a result comes with its own. They do not depend on
what the host answers.

* `IsPiece`: the pieces of a buffer.
* `HostCall.InBounds`, `CallState.Within`: what a call may ask for, and the invariant.
* `Call.ComesTo`: how a call can end. `Outcome.InRange`: the results of a call.
* `Registers.AnsweredBy`: how a process is answered.
* `CallM.meetsOutcome_serve`, `CallM.meets_answer`: every call stays within its bounds and ends so.
-/

namespace PagedKernel

open Stateful

variable {σ η F α : Type} {length slots : Nat}

/-- The piece is whole, or it is what is left over at the end of `length` bytes. -/
def IsPiece (length : Nat) (piece : List UInt8) : Prop :=
  piece.length = pieceSize ∨ 0 < piece.length ∧ piece.length = length % pieceSize

/-- After whole pieces comes a whole piece, or what is left over. -/
theorem isPiece_of_left {done left : Nat} {piece : List UInt8} (hWhole : pieceSize ∣ done)
    (hSum : done + left = length) (hLeft : left ≠ 0) (hLength : piece.length = min left pieceSize) :
    IsPiece length piece := by
  by_cases hShort : left < pieceSize
  · obtain ⟨k, rfl⟩ := hWhole
    refine Or.inr ⟨by omega, ?_⟩
    rw [← hSum, Nat.mul_add_mod, Nat.mod_eq_of_lt hShort]
    omega
  · exact Or.inl (by omega)

/-- What is asked for is of a size that the kernel chooses, in a call with a buffer of `length`
bytes. -/
def HostCall.InBounds (length : Nat) : HostCall F → Prop
  | .openFile name => name ≠ [] ∧ name.length ≤ pathLimit
  | .writeConsole piece | .readConsole piece | .writeHandle _ piece | .readHandle _ piece =>
    IsPiece length piece
  | .powerOff | .closeHandle _ => True

/-- All that the host was asked for is in bounds, and the table of open files has its slots. -/
structure CallState.Within (length slots : Nat) (c : RecordedState σ η F) : Prop where
  asked : ∀ call ∈ c.asked, call.InBounds length
  slots_eq : c.files.slots.length = slots

/-- How a call can end that has the first argument `a` and the third argument `d`. -/
inductive Call.ComesTo (slots : Nat) (a d : UInt64) : Call → Outcome → Prop
  | halted : ComesTo slots a d .halt (.leave .powerOff)
  | exited : ComesTo slots a d .exit (.leave (.exit (Registers.intOf a)))
  | ended {call : Call} (hCall : call = .openFile ∨ call = .read ∨ call = .write) :
      ComesTo slots a d call (.leave (.exit (-1)))
  | refused {call : Call} (hHalt : call ≠ .halt) (hExit : call ≠ .exit) : ComesTo slots a d call (.result (-1))
  | moved {call : Call} {count : Nat} (hCall : call = .read ∨ call = .write) (hCount : count ≤ d.toNat)
      (hSpace : count ≤ 2 ^ 47) : ComesTo slots a d call (.result count)
  | opened {fd : Int} (hFirst : firstFileDescriptor ≤ fd) (hLast : fd < firstFileDescriptor + slots) :
      ComesTo slots a d .openFile (.result fd)
  | closed : ComesTo slots a d .close (.result 0)

theorem Call.ComesTo.nothing {call : Call} {a d : UInt64} (hCall : call = .read ∨ call = .write) :
    call.ComesTo slots a d (.result 0) := by
  have hNone : call.ComesTo slots a d (.result (0 : Nat)) := .moved hCall (Nat.zero_le _) (Nat.zero_le _)
  exact hNone

/-- How the process is answered: a number without a call ends it, and any other is answered as the call
ends. -/
inductive Registers.AnsweredBy (slots : Nat) (r : Registers) : Fate × Registers → Prop
  | unknown {e : UnknownCall} (hCall : Call.ofNumber r.number = .error e) : AnsweredBy slots r (.exit (-1), r)
  | known {call : Call} {o : Outcome} (hCall : Call.ofNumber r.number = .ok call)
      (hEnds : call.ComesTo slots r.rdi r.rdx o) : AnsweredBy slots r (o.fate, o.registers r)

namespace UserMemory

variable {u : UserMemory σ} {P : σ → Prop}

theorem meets_copyFromAt (src : VirtualAddress) (i : Nat) (buffer : List UInt8) :
    Meets (fun _ => True) (u.copyFromAt src i buffer)
      (fun out _ => out.1.length = buffer.length) (fun _ => True) := by
  induction buffer generalizing i with
  | nil => exact Meets.pure fun _ _ => rfl
  | cons old rest ih =>
    rw [copyFromAt]
    refine Meets.bind (Q := fun _ _ => True) (fun s _ => ?_) fun got => ?_
    · cases u.readAt src i s <;> trivial
    · cases got with
      | error e => exact Meets.pure fun _ _ => rfl
      | ok b => exact (ih (i + 1)).bind fun out => Meets.pure fun _ h => congrArg Nat.succ h

/-- A string leaves room for its end. -/
theorem meets_readStringAt (src : VirtualAddress) (limit i : Nat) (buffer : List UInt8) :
    Meets (fun _ => True) (u.readStringAt src limit i buffer)
      (fun out _ => ∀ name, out.2 = .ok name → name.length < buffer.length) (fun _ => True) := by
  induction buffer generalizing i with
  | nil => exact Meets.pure fun _ _ name hName => by cases hName
  | cons old rest ih =>
    rw [readStringAt]
    refine Meets.bind (Q := fun _ _ => True) (fun s _ => ?_) fun got => ?_
    · cases u.readAt src i s <;> trivial
    · cases got with
      | error e => exact Meets.pure fun _ _ name hName => by cases hName
      | ok b =>
        by_cases hEnd : b = 0
        · simp only [hEnd, ↓reduceIte]
          refine Meets.pure fun _ _ name hName => ?_
          cases hName
          exact Nat.succ_pos _
        · simp only [hEnd, ↓reduceIte]
          refine (ih (i + 1)).bind ?_
          rintro ⟨filled, outcome⟩
          refine Meets.pure fun _ h name hName => ?_
          cases outcome with
          | error e => cases hName
          | ok rest =>
            cases hName
            exact Nat.succ_lt_succ (h rest rfl)

end UserMemory

namespace CallM

variable {host : Host η F} {u : UserMemory σ}

/-! ## Steps -/

abbrev KeepsBounds (length slots : Nat) (x : CallM σ (η × List (HostCall F)) F α) : Prop :=
  Keeps (fun _ => True) (CallState.Within length slots) x

/-- What is known of the value on user memory is known of it in a call. -/
theorem meets_onMemory {f : Stateful σ α} {Q : α → Prop}
    (h : Meets (fun _ => True) f (fun a _ => Q a) (fun _ => True)) :
    Meets (CallState.Within (η := η) (F := F) length slots) (onMemory f)
      (fun a c => Q a ∧ c.Within length slots) (CallState.Within length slots) := by
  intro c hWithin
  have hEnd := h c.memory trivial
  rw [onMemory]
  cases hf : f c.memory with
  | ok a memory =>
    rw [hf] at hEnd
    exact ⟨hEnd, hWithin.asked, hWithin.slots_eq⟩
  | error v memory => exact ⟨hWithin.asked, hWithin.slots_eq⟩

theorem keepsBounds_onMemory (f : Stateful σ α) :
    KeepsBounds (η := η) (F := F) length slots (onMemory f) := by
  rintro x _ ⟨rfl, hWithin⟩
  simp only [onMemory]
  cases f x.memory with
  | ok a memory => exact .ok a ⟨rfl, hWithin.asked, hWithin.slots_eq⟩
  | error v memory => exact .error trivial ⟨rfl, hWithin.asked, hWithin.slots_eq⟩

theorem keepsBounds_onHost {f : η × List (HostCall F) → α × η × List (HostCall F)} (call : HostCall F)
    (hCall : call.InBounds length) (hAsked : ∀ x, (f x).2.2 = call :: x.2) :
    KeepsBounds (σ := σ) length slots (onHost f) := by
  rintro x _ ⟨rfl, hWithin⟩
  refine .ok _ ⟨rfl, ?_, hWithin.slots_eq⟩
  show ∀ c ∈ (f x.host).2.2, c.InBounds length
  rw [hAsked]
  exact List.forall_mem_cons.2 ⟨hCall, hWithin.asked⟩

theorem keepsBounds_onFiles {f : DescriptorTable F → α × DescriptorTable F}
    (hSlots : ∀ t, (f t).2.slots.length = t.slots.length) :
    KeepsBounds (σ := σ) (η := η) length slots (onFiles f) := by
  rintro x _ ⟨rfl, hWithin⟩
  exact .ok _ ⟨rfl, hWithin.asked, (hSlots _).trans hWithin.slots_eq⟩

theorem keepsBounds_askFiles (f : DescriptorTable F → α) :
    KeepsBounds (σ := σ) (η := η) length slots (askFiles f) := by
  rintro x _ ⟨rfl, hWithin⟩
  exact .ok _ ⟨rfl, hWithin⟩

theorem keepsBounds_note (n : CallNotice) : KeepsBounds (σ := σ) (η := η) (F := F) length slots (note n) := by
  rintro x _ ⟨rfl, hWithin⟩
  exact .ok _ ⟨rfl, hWithin.asked, hWithin.slots_eq⟩

theorem keepsBounds_closeHandle (f : F) : KeepsBounds (σ := σ) length slots
    (onHost fun h => ((), host.recorded.closeHandle f h)) :=
  keepsBounds_onHost (.closeHandle f) trivial fun _ => rfl

abbrev MeetsEnd (length slots : Nat) (x : CallM σ (η × List (HostCall F)) F Fate) (fate : Fate) : Prop :=
  Meets (CallState.Within length slots) x (fun k c => k = fate ∧ c.Within length slots)
    (CallState.Within length slots)

theorem meetsEnd_terminate (status : Int) :
    MeetsEnd (σ := σ) length slots (terminate host.recorded status) (.exit status) := by
  have hClose : ∀ files : List F, KeepsBounds (σ := σ) length slots
      (files.forM fun f => onHost fun h => ((), host.recorded.closeHandle f h)) := by
    intro files
    induction files with
    | nil => exact Simulates.pure _
    | cons f files ih => exact (keepsBounds_closeHandle f).bind fun _ => ih
  refine Meets.after (fun files => ?_) (keepsBounds_onFiles fun t => t.length_drain)
  refine Meets.after (fun _ => ?_) (hClose files)
  exact Meets.after (fun _ => Meets.pure fun _ hWithin => ⟨rfl, hWithin⟩) (keepsBounds_note _)

theorem meetsEnd_halt : MeetsEnd (σ := σ) length slots (halt host.recorded) .powerOff := by
  refine Meets.after (fun _ => ?_) (keepsBounds_note _)
  refine Meets.after (fun _ => ?_) (keepsBounds_onHost .powerOff trivial fun _ => rfl)
  exact Meets.pure fun _ hWithin => ⟨rfl, hWithin⟩

/-- A piece goes to a file or comes from there, and the file goes back to its place. -/
theorem keepsBounds_use {fd : Int} {none : α}
    {use : F → η × List (HostCall F) → (F × α) × η × List (HostCall F)} (call : F → HostCall F)
    (hCall : ∀ f, (call f).InBounds length) (hAsked : ∀ f x, (use f x).2.2 = call f :: x.2) :
    KeepsBounds (σ := σ) length slots (do
      match ← askFiles (·.get? fd) with
      | .none => return none
      | some f =>
        let (f, a) ← onHost (use f)
        onFiles fun t => ((), t.put fd (some f))
        return a) := by
  refine (keepsBounds_askFiles _).bind fun found => ?_
  cases found with
  | none => exact Simulates.pure _
  | some f =>
    refine (keepsBounds_onHost _ (hCall f) (hAsked f)).bind fun out => ?_
    exact (keepsBounds_onFiles fun t => t.length_put _ _).bind fun _ => Simulates.pure _

section Pieces

variable {piece : List UInt8} (hPiece : IsPiece length piece)

include hPiece

theorem keepsBounds_sendConsole :
    KeepsBounds (σ := σ) length slots (sendConsole host.recorded piece) :=
  (keepsBounds_onHost (.writeConsole piece) hPiece fun _ => rfl).bind fun _ => Simulates.pure _

theorem keepsBounds_sendFile (fd : Int) :
    KeepsBounds (σ := σ) length slots (sendFile host.recorded fd piece) :=
  keepsBounds_use (fun f => .writeHandle f piece) (fun _ => hPiece) fun _ _ => rfl

theorem keepsBounds_receiveConsole :
    KeepsBounds (σ := σ) length slots (receiveConsole host.recorded piece) :=
  keepsBounds_onHost (.readConsole piece) hPiece fun _ => rfl

theorem keepsBounds_receiveFile (fd : Int) :
    KeepsBounds (σ := σ) length slots (receiveFile host.recorded fd piece) :=
  keepsBounds_use (fun f => .readHandle f piece) (fun _ => hPiece) fun _ _ => rfl

end Pieces

/-! ## Transfers -/

abbrev MeetsTransfer (length slots : Nat) (x : CallM σ (η × List (HostCall F)) F Transfer) : Prop :=
  Meets (CallState.Within length slots) x
    (fun t c => (∀ count, t = .ok count → count ≤ length) ∧ c.Within length slots)
    (CallState.Within length slots)

theorem meetsTransfer_ok {count : Nat} (h : count ≤ length) :
    MeetsTransfer (σ := σ) (η := η) (F := F) length slots (return .ok count) :=
  Meets.pure fun _ hWithin => ⟨by rintro _ ⟨rfl⟩; exact h, hWithin⟩

theorem meetsTransfer_error (e : UserFault) :
    MeetsTransfer (σ := σ) (η := η) (F := F) length slots (return .error e) :=
  Meets.pure fun _ hWithin => ⟨nofun, hWithin⟩

theorem meetsTransfer_sendPieces {send : List UInt8 → CallM σ (η × List (HostCall F)) F Nat}
    (hSend : ∀ piece, IsPiece length piece → KeepsBounds length slots (send piece))
    (buffer : VirtualAddress) (done left : Nat) (hWhole : pieceSize ∣ done)
    (hSum : done + left = length) :
    MeetsTransfer length slots (sendPieces u send buffer done left) := by
  induction left using Nat.strongRecOn generalizing done with
  | ind left ih =>
    rw [sendPieces]
    by_cases hDone : left = 0
    · rw [dif_pos hDone]
      exact meetsTransfer_ok (by omega)
    · rw [dif_neg hDone]
      refine Meets.after (fun src => ?_) (Keeps.lift (fun _ => trivial) _)
      refine (meets_onMemory (UserMemory.meets_copyFromAt src 0 _)).bind ?_
      rintro ⟨piece, outcome⟩
      cases outcome with
      | error e => exact (meetsTransfer_error e).of_imp fun _ h => h.2
      | ok _ =>
        intro c hCopied
        have hPiece : IsPiece length piece :=
          isPiece_of_left hWhole hSum hDone (hCopied.1.trans List.length_replicate)
        refine Meets.after (fun count => ?_) (hSend piece hPiece) c hCopied.2
        have hSize : 0 < pieceSize := by decide
        by_cases hShort : min count (min left pieceSize) < min left pieceSize
        · simp only [hShort, ↓reduceIte]
          exact meetsTransfer_ok (by omega)
        · simp only [hShort, ↓reduceIte]
          by_cases hLast : left ≤ pieceSize
          · -- Nothing is left, so the transfer is at its end.
            rw [Nat.min_eq_left hLast, Nat.sub_self, sendPieces, dif_pos rfl]
            exact meetsTransfer_ok (by omega)
          · rw [Nat.min_eq_right (by omega)]
            exact ih _ (by omega) _ ((Nat.dvd_add_right hWhole).2 (Nat.dvd_refl _)) (by omega)

theorem meetsTransfer_receivePieces
    {receive : List UInt8 → CallM σ (η × List (HostCall F)) F (List UInt8 × Nat)}
    (hReceive : ∀ piece, IsPiece length piece → KeepsBounds length slots (receive piece))
    (buffer : VirtualAddress) (chunk : List UInt8) (hChunk : chunk.length = pieceSize) (done left : Nat)
    (hWhole : pieceSize ∣ done) (hSum : done + left = length) :
    MeetsTransfer length slots (receivePieces u receive buffer chunk done left) := by
  induction left using Nat.strongRecOn generalizing chunk done with
  | ind left ih =>
    rw [receivePieces]
    by_cases hDone : left = 0
    · rw [dif_pos hDone]
      exact meetsTransfer_ok (by omega)
    · rw [dif_neg hDone]
      have hPiece : IsPiece length (chunk.take (min left pieceSize)) :=
        isPiece_of_left hWhole hSum hDone (by rw [List.length_take, hChunk]; omega)
      refine Meets.after ?_ (hReceive _ hPiece)
      rintro ⟨stored, count⟩
      refine Meets.after (fun dst => ?_) (Keeps.lift (fun _ => trivial) _)
      refine Meets.after (fun outcome => ?_) (keepsBounds_onMemory _)
      cases outcome with
      | error e => exact meetsTransfer_error e
      | ok _ =>
        have hSize : 0 < pieceSize := by decide
        by_cases hShort : min count (min left pieceSize) < min left pieceSize
        · simp only [hShort, ↓reduceIte]
          exact meetsTransfer_ok (by omega)
        · simp only [hShort, ↓reduceIte]
          by_cases hLast : left ≤ pieceSize
          · -- Nothing is left, so the transfer is at its end.
            rw [Nat.min_eq_left hLast, Nat.sub_self, receivePieces, dif_pos rfl]
            exact meetsTransfer_ok (by omega)
          · rw [Nat.min_eq_right (by omega)]
            exact ih _ (by omega) _ ((length_overlay _ _).trans hChunk) _
              ((Nat.dvd_add_right hWhole).2 (Nat.dvd_refl _)) (by omega)

/-! ## Calls -/

/-- The body of a call keeps the bounds, and this is known of how it ends. -/
abbrev MeetsOutcome (length slots : Nat) (x : CallM σ (η × List (HostCall F)) F Outcome)
    (Q : Outcome → Prop) : Prop :=
  Meets (CallState.Within length slots) x (fun o c => Q o ∧ c.Within length slots)
    (CallState.Within length slots)

section Endings

variable {Q : Outcome → Prop}

theorem meetsOutcome_result {v : Int} (h : Q (.result v)) :
    MeetsOutcome (σ := σ) (η := η) (F := F) length slots (return .result v) Q :=
  Meets.pure fun _ hWithin => ⟨h, hWithin⟩

/-- The call ends as the process or the machine does. -/
theorem MeetsEnd.outcome {x : CallM σ (η × List (HostCall F)) F Fate} {k : Fate}
    (hEnd : MeetsEnd length slots x k) (h : Q (.leave k)) :
    MeetsOutcome length slots (do return .leave (← x)) Q := by
  refine Meets.bind hEnd fun k' => Meets.pure fun c hEnd => ?_
  obtain ⟨rfl, hWithin⟩ := hEnd
  exact ⟨h, hWithin⟩

theorem meetsOutcome_leave (n : CallNotice) (h : Q (.leave (.exit (-1)))) :
    MeetsOutcome (σ := σ) length slots
      (do note n; return Outcome.leave (← terminate host.recorded (-1))) Q :=
  Meets.after (fun _ => (meetsEnd_terminate (-1)).outcome h) (keepsBounds_note n)

end Endings
theorem meetsOutcome_write (a : UInt64) (fd : Int) (buffer : VirtualAddress) (length : UInt64) :
    MeetsOutcome (σ := σ) length.toNat slots (write u host.recorded fd buffer length)
      (Call.ComesTo slots a length .write) := by
  rw [write]
  by_cases hZero : length = 0
  · rw [if_pos hZero]
    exact meetsOutcome_result (.nothing (Or.inr rfl))
  rw [if_neg hZero]
  by_cases hSpace : inUserSpace buffer length = true
  · rw [if_pos hSpace]
    have hBound := le_of_inUserSpace hSpace
    refine Meets.after (fun isOpen => ?_) (keepsBounds_askFiles _)
    by_cases hGoes : (fd = stdout ∨ fd = stderr) ∨ isOpen = true
    · simp only [hGoes, ↓reduceIte]
      refine Meets.after (fun sampled => ?_) (keepsBounds_onMemory _)
      cases sampled with
      | error e => exact meetsOutcome_leave _ (.ended (Or.inr (Or.inr rfl)))
      | ok _ =>
        have hSend : ∀ piece, IsPiece length.toNat piece → KeepsBounds (σ := σ) length.toNat slots
            ((if fd = stdout ∨ fd = stderr then sendConsole host.recorded
              else sendFile host.recorded fd) piece) := by
          intro piece hPiece
          split
          · exact keepsBounds_sendConsole hPiece
          · exact keepsBounds_sendFile hPiece fd
        refine (meetsTransfer_sendPieces hSend buffer 0 length.toNat (Nat.dvd_zero _) (Nat.zero_add _)).bind ?_
        intro sent c hSent
        cases sent with
        | ok count =>
          have hCount := hSent.1 count rfl
          exact meetsOutcome_result (.moved (Or.inr rfl) hCount (by omega)) c hSent.2
        | error e => exact meetsOutcome_leave _ (.ended (Or.inr (Or.inr rfl))) c hSent.2
    · simp only [hGoes, ↓reduceIte]
      exact meetsOutcome_result (.refused (by decide) (by decide))
  · rw [if_neg hSpace]
    exact meetsOutcome_leave _ (.ended (Or.inr (Or.inr rfl)))

theorem meetsOutcome_read (a : UInt64) (fd : Int) (buffer : VirtualAddress) (length : UInt64) :
    MeetsOutcome (σ := σ) length.toNat slots (read u host.recorded fd buffer length)
      (Call.ComesTo slots a length .read) := by
  rw [read]
  by_cases hZero : length = 0
  · rw [if_pos hZero]
    exact meetsOutcome_result (.nothing (Or.inl rfl))
  rw [if_neg hZero]
  by_cases hSpace : inUserSpace buffer length = true
  · rw [if_pos hSpace]
    have hBound := le_of_inUserSpace hSpace
    refine Meets.after (fun isOpen => ?_) (keepsBounds_askFiles _)
    by_cases hGoes : fd = stdin ∨ isOpen = true
    · simp only [hGoes, ↓reduceIte]
      have hReceive : ∀ piece, IsPiece length.toNat piece → KeepsBounds (σ := σ) length.toNat slots
          ((if fd = stdin then receiveConsole host.recorded else receiveFile host.recorded fd)
            piece) := by
        intro piece hPiece
        split
        · exact keepsBounds_receiveConsole hPiece
        · exact keepsBounds_receiveFile hPiece fd
      refine (meetsTransfer_receivePieces hReceive buffer _ List.length_replicate 0 length.toNat
        (Nat.dvd_zero _) (Nat.zero_add _)).bind ?_
      intro received c hReceived
      cases received with
      | ok count =>
        have hCount := hReceived.1 count rfl
        exact meetsOutcome_result (.moved (Or.inl rfl) hCount (by omega)) c hReceived.2
      | error e => exact meetsOutcome_leave _ (.ended (Or.inr (Or.inl rfl))) c hReceived.2
    · simp only [hGoes, ↓reduceIte]
      exact meetsOutcome_result (.refused (by decide) (by decide))
  · rw [if_neg hSpace]
    exact meetsOutcome_leave _ (.ended (Or.inr (Or.inl rfl)))

/-- A file that was opened gets a descriptor of the table, or is closed again. -/
theorem meetsOutcome_installed (a d : UInt64) (f : F) : MeetsOutcome (σ := σ) length slots
    (do
      let installed ← onFiles fun t =>
        match t.install f with
        | .ok (fd, t) => (Except.ok fd, t)
        | .error f => (Except.error f, t)
      match installed with
      | .ok fd => return .result fd
      | .error f =>
        note .tableFull
        onHost fun h => ((), host.recorded.closeHandle f h)
        return .result (-1))
    (Call.ComesTo slots a d .openFile) := by
  refine Meets.bind (Q := fun installed c =>
    (∀ fd, installed = .ok fd → Call.ComesTo slots a d .openFile (.result fd)) ∧ c.Within length slots) ?_ ?_
  · intro c hWithin
    rw [onFiles_apply]
    cases hInstall : c.files.install f with
    | ok out =>
      obtain ⟨fd, table⟩ := out
      obtain ⟨hSlots, hLow, hHigh⟩ := DescriptorTable.bounds_install hInstall
      refine ⟨?_, hWithin.asked, hSlots.trans hWithin.slots_eq⟩
      rintro _ ⟨rfl⟩
      rw [hWithin.slots_eq] at hHigh
      simp only [Int.ofNat_eq_natCast] at hLow hHigh
      exact .opened (by omega) (by omega)
    | error g => exact ⟨nofun, hWithin.asked, hWithin.slots_eq⟩
  · rintro (g | fd)
    · refine Meets.of_imp ?_ fun _ h => h.2
      refine Meets.after (fun _ => ?_) (keepsBounds_note _)
      refine Meets.after (fun _ => ?_) (keepsBounds_closeHandle g)
      exact meetsOutcome_result (.refused (by decide) (by decide))
    · exact Meets.pure fun _ h => ⟨h.1 fd rfl, h.2⟩

theorem meetsOutcome_openFile (a d : UInt64) (path : VirtualAddress) :
    MeetsOutcome (σ := σ) length slots (openFile u host.recorded path)
      (Call.ComesTo slots a d .openFile) := by
  rw [openFile]
  by_cases hNull : path.isNull = true
  · rw [if_pos hNull]
    exact meetsOutcome_result (.refused (by decide) (by decide))
  · rw [if_neg hNull]
    refine (meets_onMemory (UserMemory.meets_readStringAt path _ 0 _)).bind ?_
    rintro ⟨buffer, outcome⟩ c ⟨hName, hWithin⟩
    cases outcome with
    | error e =>
      cases e with
      | fault e => exact meetsOutcome_leave _ (.ended (Or.inl rfl)) c hWithin
      | tooLong limit => exact meetsOutcome_result (.refused (by decide) (by decide)) c hWithin
    | ok name =>
      cases name with
      | nil => exact meetsOutcome_result (.refused (by decide) (by decide)) c hWithin
      | cons b name =>
        have hLength := hName (b :: name) rfl
        rw [List.length_replicate] at hLength
        have hCall : (HostCall.openFile (b :: name) : HostCall F).InBounds length :=
          ⟨List.cons_ne_nil _ _, Nat.le_of_lt_succ hLength⟩
        refine Meets.after (fun opened => ?_) (keepsBounds_onHost _ hCall fun _ => rfl) c hWithin
        cases opened with
        | none => exact meetsOutcome_result (.refused (by decide) (by decide))
        | some f => exact meetsOutcome_installed a d f

theorem meetsOutcome_close (a d : UInt64) (fd : Int) :
    MeetsOutcome (σ := σ) length slots (close host.recorded fd) (Call.ComesTo slots a d .close) := by
  refine Meets.after (fun removed => ?_) (keepsBounds_onFiles fun t => t.length_remove fd)
  cases removed with
  | none => exact meetsOutcome_result (.refused (by decide) (by decide))
  | some f =>
    refine Meets.after (fun _ => ?_) (keepsBounds_closeHandle f)
    exact meetsOutcome_result .closed

/-- A call stays within its bounds, and this is how it ends. -/
theorem meetsOutcome_serve (call : Call) (a b d : UInt64) :
    MeetsOutcome (σ := σ) d.toNat slots (serve u host.recorded call a b d) (call.ComesTo slots a d) := by
  cases call with
  | halt => exact meetsEnd_halt.outcome .halted
  | exit => exact (meetsEnd_terminate _).outcome .exited
  | openFile => exact meetsOutcome_openFile a d ⟨a⟩
  | read => exact meetsOutcome_read a _ ⟨b⟩ d
  | write => exact meetsOutcome_write a _ ⟨b⟩ d
  | close => exact meetsOutcome_close a d _
  | fork | exec | wait | create | remove | fileSize | seek | tell =>
    exact Meets.after (fun _ => meetsOutcome_result (.refused (by decide) (by decide))) (keepsBounds_note _)

theorem meets_answer (r : Registers) :
    Meets (CallState.Within (σ := σ) r.rdx.toNat slots) (handle u host.recorded r)
      (fun out c => r.AnsweredBy slots out ∧ c.Within r.rdx.toNat slots)
      (CallState.Within r.rdx.toNat slots) := by
  rw [handle]
  cases hCall : Call.ofNumber r.number with
  | error e =>
    refine Meets.after (fun _ => ?_) (keepsBounds_note _)
    refine (meetsEnd_terminate (-1)).bind fun k => ?_
    exact Meets.pure fun _ h => ⟨h.1 ▸ .unknown hCall, h.2⟩
  | ok call =>
    refine .lift_bind rfl (.lift_bind rfl (.lift_bind rfl ?_))
    refine Meets.after (fun _ => ?_) (keepsBounds_note _)
    refine (meetsOutcome_serve call r.rdi r.rsi r.rdx).bind fun o => ?_
    cases o with
    | result v => exact Meets.pure fun _ h => ⟨.known hCall h.1, h.2⟩
    | leave k => exact Meets.pure fun _ h => ⟨.known hCall h.1, h.2⟩

end CallM

end PagedKernel
