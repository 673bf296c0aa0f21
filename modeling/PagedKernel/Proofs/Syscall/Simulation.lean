import PagedKernel.Proofs.Memory.DirectMap
import PagedKernel.Proofs.UserMemory.Simulation
import PagedKernel.Syscall.Handler

/-!
# System calls over two memories

A call sees the memory of the process only through single bytes, and the host only through its answers.
So the same call goes together with itself over two memories and two hosts as soon as the bytes do and
the hosts answer alike. A byte is written only by a read call, inside of the buffer that the registers
give, so nothing need be known of writes to other addresses.

No violation is let through here: addresses are added only inside a buffer that lies in user space.

* `Host.Alike`: two hosts that answer alike.
* `CallState.Related`: what is carried from step to step.
* `Registers.Offers`: the addresses that a read call may fill.
* `CallM.handle_simulates`: the calls go together.
-/

namespace PagedKernel

open Stateful

theorem le_of_inUserSpace {buffer : VirtualAddress} {length : UInt64}
    (h : inUserSpace buffer length = true) : buffer.val.toNat + length.toNat ≤ 2 ^ 47 := by
  have hEnd : userSpaceEnd.toNat = 2 ^ 47 := rfl
  simp only [inUserSpace, Bool.and_eq_true, decide_eq_true_eq] at h
  omega

/-! ## Hosts and states -/

/-- From states that `S` relates, two hosts give the same answers and come to related states. -/
structure Host.Alike {η η' F : Type} (S : η → η' → Prop) (host : Host η F) (host' : Host η' F) :
    Prop where
  powerOff {h h'} : S h h' → S (host.powerOff h) (host'.powerOff h')
  openFile (name : List UInt8) {h h'} : S h h' →
    (host.openFile name h).1 = (host'.openFile name h').1 ∧
      S (host.openFile name h).2 (host'.openFile name h').2
  writeConsole (bytes : List UInt8) {h h'} : S h h' →
    S (host.writeConsole bytes h) (host'.writeConsole bytes h')
  readConsole (buffer : List UInt8) {h h'} : S h h' →
    (host.readConsole buffer h).1 = (host'.readConsole buffer h').1 ∧
      S (host.readConsole buffer h).2 (host'.readConsole buffer h').2
  writeHandle (f : F) (bytes : List UInt8) {h h'} : S h h' →
    (host.writeHandle f bytes h).1 = (host'.writeHandle f bytes h').1 ∧
      S (host.writeHandle f bytes h).2 (host'.writeHandle f bytes h').2
  readHandle (f : F) (buffer : List UInt8) {h h'} : S h h' →
    (host.readHandle f buffer h).1 = (host'.readHandle f buffer h').1 ∧
      S (host.readHandle f buffer h).2 (host'.readHandle f buffer h').2
  closeHandle (f : F) {h h'} : S h h' → S (host.closeHandle f h) (host'.closeHandle f h')

theorem Host.alike_self {η F : Type} (host : Host η F) : Host.Alike Eq host host := by
  constructor <;> intros <;> subst_vars <;> simp

/-- Two states of system calls: the memories are related, and so are the hosts; the open files are the
same. What was reported does not count. -/
structure CallState.Related {σ τ η η' F : Type} (R : σ → τ → Prop) (S : η → η' → Prop)
    (c : CallState σ η F) (c' : CallState τ η' F) : Prop where
  memory : R c.memory c'.memory
  host : S c.host c'.host
  files_eq : c.files = c'.files

/-- The registers ask to read into a buffer that `a` lies in. -/
def Registers.Offers (r : Registers) (a : VirtualAddress) : Prop :=
  Call.ofNumber r.number = .ok .read ∧
    ∃ i < r.rdx.toNat, VirtualAddress.add? ⟨r.rsi⟩ i = some a

/-! ## Sampling -/

section Sampling

variable {σ τ : Type} {V : Violation → Prop} {R : σ → τ → Prop} {u : UserMemory σ}
  {u' : UserMemory τ} (hRead : ∀ a, Simulates V R (u.readByte a) (u'.readByte a))

include hRead

theorem sampleFrom_simulates (last : VirtualAddress) (pages : Nat) (a : VirtualAddress)
    (hBound : a.page.base.val.toNat + 4096 * pages < 2 ^ 64) :
    Simulates V R (sampleFrom u last pages a) (sampleFrom u' last pages a) := by
  induction pages generalizing a with
  | zero =>
    rw [sampleFrom, sampleFrom]
    exact (hRead last).bind fun _ => .pure _
  | succ pages ih =>
    rw [sampleFrom, sampleFrom]
    refine (hRead a).bind ?_
    intro got
    cases got with
    | error e => exact .pure _
    | ok b =>
      have hSize : pageSize.toNat = 4096 := rfl
      have hStep : a.page.base.val.toNat + pageSize.toNat < 2 ^ 64 := by omega
      obtain ⟨next, hAdd, hNext⟩ := VirtualAddress.exists_add hStep
      refine .lift_bind hAdd (ih next ?_)
      -- The address is the first of a page, so it is the base of that page.
      rw [VirtualAddress.toNat_base_page, VirtualAddress.toNat_of_add? hNext, hSize]
      have := a.toNat_base_page
      omega

omit hRead in
theorem toNat_pagesBetween {a b : VirtualAddress} (hLe : a.val.toNat ≤ b.val.toNat) :
    ((b.page.base.val - a.page.base.val) / pageSize).toNat =
      b.val.toNat / 4096 - a.val.toNat / 4096 := by
  have hA := a.toNat_base_page
  have hB := b.toNat_base_page
  have hBase : a.page.base.val ≤ b.page.base.val := by
    rw [UInt64.le_iff_toNat_le]
    omega
  have hSize : pageSize.toNat = 4096 := rfl
  rw [UInt64.toNat_div, UInt64.toNat_sub_of_le _ _ hBase, hSize]
  omega

theorem samplePages_simulates {buffer : VirtualAddress} {length : UInt64} (hLength : length ≠ 0)
    (hSpace : inUserSpace buffer length = true) :
    Simulates V R (samplePages u buffer length) (samplePages u' buffer length) := by
  have hEnd := le_of_inUserSpace hSpace
  have hPos : length.toNat ≠ 0 := fun hZero => hLength (UInt64.toNat_inj.1 hZero)
  have hLast : buffer.val.toNat + (length.toNat - 1) < 2 ^ 64 := by omega
  obtain ⟨last, hAdd, hLast⟩ := VirtualAddress.exists_add hLast
  rw [samplePages, samplePages]
  refine .lift_bind hAdd (sampleFrom_simulates hRead last _ buffer ?_)
  have hNat := VirtualAddress.toNat_of_add? hLast
  have hFirst := buffer.toNat_base_page
  rw [toNat_pagesBetween (by omega)]
  omega

end Sampling

namespace CallM

variable {σ τ η η' F α : Type} {V : Violation → Prop} {R : σ → τ → Prop} {S : η → η' → Prop}

/-! ## Steps -/

theorem onMemory_simulates {f : Stateful σ α} {g : Stateful τ α} (h : Simulates V R f g) :
    Simulates V (CallState.Related (F := F) R S) (onMemory f) (onMemory g) := by
  intro c c' hR
  have hEnd := h c.memory c'.memory hR.memory
  rw [onMemory, onMemory]
  generalize f c.memory = p, g c'.memory = q at hEnd
  cases hEnd with
  | ok a hState => exact .ok a ⟨hState, hR.host, hR.files_eq⟩
  | error hViolation hState => exact .error hViolation ⟨hState, hR.host, hR.files_eq⟩

theorem onHost_simulates {f : η → α × η} {g : η' → α × η'}
    (h : ∀ {x y}, S x y → (f x).1 = (g y).1 ∧ S (f x).2 (g y).2) :
    Simulates V (CallState.Related (F := F) R S) (onHost f) (onHost g) := by
  intro c c' hR
  obtain ⟨hValue, hHost⟩ := h hR.host
  show EndAlike V _ (.ok (f c.host).1 _) (.ok (g c'.host).1 _)
  rw [hValue]
  exact .ok _ ⟨hR.memory, hHost, hR.files_eq⟩

theorem tellHost_simulates {f : η → η} {g : η' → η'} (h : ∀ {x y}, S x y → S (f x) (g y)) :
    Simulates V (CallState.Related (F := F) R S) (onHost fun x => ((), f x))
      (onHost fun y => ((), g y)) :=
  onHost_simulates fun hS => ⟨rfl, h hS⟩

theorem onFiles_simulates (f : DescriptorTable F → α × DescriptorTable F) :
    Simulates V (CallState.Related R S) (onFiles f) (onFiles f) := by
  intro c c' hR
  obtain ⟨memory, host, files, log⟩ := c
  obtain rfl : files = c'.files := hR.files_eq
  exact .ok _ ⟨hR.memory, hR.host, rfl⟩

theorem askFiles_simulates (f : DescriptorTable F → α) :
    Simulates V (CallState.Related R S) (askFiles f) (askFiles f) := by
  intro c c' hR
  show EndAlike V _ (.ok (f c.files) c) (.ok (f c'.files) c')
  rw [hR.files_eq]
  exact .ok _ hR

theorem note_simulates (n : CallNotice) :
    Simulates V (CallState.Related (F := F) R S) (note n) (note n) := by
  intro c c' hR
  exact .ok () ⟨hR.memory, hR.host, hR.files_eq⟩

/-! ## Calls -/

section Calls

variable {host : Host η F} {host' : Host η' F} (hHosts : Host.Alike S host host')

include hHosts

theorem terminate_simulates (status : Int) :
    Simulates V (CallState.Related R S) (terminate host status) (terminate host' status) := by
  rw [terminate, terminate]
  refine (onFiles_simulates _).bind ?_
  intro files
  have hClose : Simulates (σ := CallState σ η F) (τ := CallState τ η' F) V (CallState.Related R S)
      (files.forM fun f => onHost fun h => ((), host.closeHandle f h))
      (files.forM fun f => onHost fun h => ((), host'.closeHandle f h)) := by
    induction files with
    | nil => exact .pure _
    | cons f files ih =>
      show Simulates V _ (onHost _ >>= fun _ => files.forM _) (onHost _ >>= fun _ => files.forM _)
      exact (tellHost_simulates (hHosts.closeHandle f)).bind fun _ => ih
  exact hClose.bind fun _ => (note_simulates _).bind fun _ => .pure _

theorem leave_simulates (n : CallNotice) :
    Simulates V (CallState.Related R S)
      (do note n; return Outcome.leave (← terminate host (-1)))
      (do note n; return Outcome.leave (← terminate host' (-1))) :=
  (note_simulates n).bind fun _ => (terminate_simulates hHosts (-1)).bind fun _ => .pure _

theorem halt_simulates :
    Simulates V (CallState.Related (F := F) R S) (halt host) (halt host') := by
  rw [halt, halt]
  refine (note_simulates _).bind fun _ => ?_
  exact (tellHost_simulates hHosts.powerOff).bind fun _ => .pure _

theorem close_simulates (fd : Int) :
    Simulates V (CallState.Related R S) (close host fd) (close host' fd) := by
  rw [close, close]
  refine (onFiles_simulates _).bind ?_
  intro removed
  cases removed with
  | none => exact .pure _
  | some f =>
    exact (tellHost_simulates (hHosts.closeHandle f)).bind fun _ => .pure _

theorem sendConsole_simulates (piece : List UInt8) :
    Simulates V (CallState.Related (F := F) R S) (sendConsole host piece) (sendConsole host' piece) :=
  (tellHost_simulates (hHosts.writeConsole piece)).bind fun _ => .pure _

theorem sendFile_simulates (fd : Int) (piece : List UInt8) :
    Simulates V (CallState.Related R S) (sendFile host fd piece) (sendFile host' fd piece) := by
  rw [sendFile, sendFile]
  refine (askFiles_simulates _).bind ?_
  intro found
  cases found with
  | none => exact .pure _
  | some f =>
    refine (onHost_simulates (hHosts.writeHandle f piece)).bind ?_
    intro written
    exact (onFiles_simulates _).bind fun _ => .pure _

theorem receiveConsole_simulates (piece : List UInt8) :
    Simulates V (CallState.Related (F := F) R S) (receiveConsole host piece)
      (receiveConsole host' piece) :=
  onHost_simulates (hHosts.readConsole piece)

theorem receiveFile_simulates (fd : Int) (piece : List UInt8) :
    Simulates V (CallState.Related R S) (receiveFile host fd piece) (receiveFile host' fd piece) := by
  rw [receiveFile, receiveFile]
  refine (askFiles_simulates _).bind ?_
  intro found
  cases found with
  | none => exact .pure _
  | some f =>
    refine (onHost_simulates (hHosts.readHandle f piece)).bind ?_
    intro filled
    exact (onFiles_simulates _).bind fun _ => .pure _

variable {u : UserMemory σ} {u' : UserMemory τ}
  (hRead : ∀ a, Simulates V R (u.readByte a) (u'.readByte a))

include hRead

theorem openFile_simulates (path : VirtualAddress) :
    Simulates V (CallState.Related R S) (openFile u host path) (openFile u' host' path) := by
  rw [openFile, openFile]
  by_cases hNull : path.isNull = true
  · rw [if_pos hNull, if_pos hNull]
    exact .pure _
  · rw [if_neg hNull, if_neg hNull]
    refine (onMemory_simulates (UserMemory.readString_simulates hRead path _)).bind ?_
    rintro ⟨buffer, outcome⟩
    match outcome with
    | .error (.tooLong limit) => exact .pure _
    | .error (.fault e) => exact leave_simulates hHosts _
    | .ok [] => exact .pure _
    | .ok (b :: name) =>
      refine (onHost_simulates (hHosts.openFile (b :: name))).bind ?_
      intro opened
      cases opened with
      | none => exact .pure _
      | some f =>
        refine (onFiles_simulates _).bind ?_
        intro installed
        cases installed with
        | ok fd => exact .pure _
        | error f =>
          refine (note_simulates _).bind fun _ => ?_
          exact (tellHost_simulates (hHosts.closeHandle f)).bind fun _ => .pure _

omit hHosts in
theorem sendPieces_simulates {send : List UInt8 → CallM σ η F Nat}
    {send' : List UInt8 → CallM τ η' F Nat}
    (hSend : ∀ piece, Simulates V (CallState.Related R S) (send piece) (send' piece))
    (buffer : VirtualAddress) (done left : Nat) (hBound : buffer.val.toNat + done + left ≤ 2 ^ 47) :
    Simulates V (CallState.Related R S) (sendPieces u send buffer done left)
      (sendPieces u' send' buffer done left) := by
  induction left using Nat.strongRecOn generalizing done with
  | ind left ih =>
    rw [sendPieces, sendPieces]
    by_cases hDone : left = 0
    · rw [dif_pos hDone, dif_pos hDone]
      exact .pure _
    · rw [dif_neg hDone, dif_neg hDone]
      have hStart : buffer.val.toNat + done < 2 ^ 64 := by omega
      obtain ⟨src, hAdd, -⟩ := VirtualAddress.exists_add hStart
      refine .lift_bind hAdd ?_
      refine (onMemory_simulates (UserMemory.copyFrom_simulates hRead src _)).bind ?_
      rintro ⟨piece, outcome⟩
      cases outcome with
      | error e => exact .pure _
      | ok _ =>
        refine (hSend piece).bind ?_
        intro count
        by_cases hShort : min count (min left pieceSize) < min left pieceSize
        · simp only [hShort, ↓reduceIte]
          exact .pure _
        · simp only [hShort, ↓reduceIte]
          have hPiece : 0 < pieceSize := by decide
          exact ih _ (by omega) _ (by omega)

theorem write_simulates (fd : Int) (buffer : VirtualAddress) (length : UInt64) :
    Simulates V (CallState.Related R S) (write u host fd buffer length)
      (write u' host' fd buffer length) := by
  rw [write, write]
  by_cases hZero : length = 0
  · rw [if_pos hZero, if_pos hZero]
    exact .pure _
  rw [if_neg hZero, if_neg hZero]
  by_cases hSpace : inUserSpace buffer length = true
  · rw [if_pos hSpace, if_pos hSpace]
    refine (askFiles_simulates _).bind ?_
    intro isOpen
    by_cases hGoes : (fd = stdout ∨ fd = stderr) ∨ isOpen = true
    · simp only [hGoes, ↓reduceIte]
      refine (onMemory_simulates (samplePages_simulates hRead hZero hSpace)).bind ?_
      intro sampled
      cases sampled with
      | error e => exact leave_simulates hHosts _
      | ok _ =>
        have hSend : ∀ piece, Simulates V (CallState.Related R S)
            ((if fd = stdout ∨ fd = stderr then sendConsole host else sendFile host fd) piece)
            ((if fd = stdout ∨ fd = stderr then sendConsole host' else sendFile host' fd) piece) := by
          intro piece
          split
          · exact sendConsole_simulates hHosts piece
          · exact sendFile_simulates hHosts fd piece
        have hEnd := le_of_inUserSpace hSpace
        refine (sendPieces_simulates hRead hSend buffer 0 length.toNat (by omega)).bind ?_
        intro sent
        cases sent with
        | ok count => exact .pure _
        | error e => exact leave_simulates hHosts _
    · simp only [hGoes, ↓reduceIte]
      exact .pure _
  · rw [if_neg hSpace, if_neg hSpace]
    exact leave_simulates hHosts _

end Calls

/-- A buffer is filled through writes to the bytes of it that are left. -/
theorem receivePieces_simulates {u : UserMemory σ} {u' : UserMemory τ}
    {receive : List UInt8 → CallM σ η F (List UInt8 × Nat)}
    {receive' : List UInt8 → CallM τ η' F (List UInt8 × Nat)}
    (hReceive : ∀ piece, Simulates V (CallState.Related R S) (receive piece) (receive' piece))
    (buffer : VirtualAddress) (chunk : List UInt8) (done left : Nat)
    (hBound : buffer.val.toNat + done + left ≤ 2 ^ 47)
    (hWrite : ∀ i < done + left, ∀ a, buffer.add? i = some a → ∀ b,
      Simulates V R (u.writeByte a b) (u'.writeByte a b)) :
    Simulates V (CallState.Related R S) (receivePieces u receive buffer chunk done left)
      (receivePieces u' receive' buffer chunk done left) := by
  induction left using Nat.strongRecOn generalizing chunk done with
  | ind left ih =>
    rw [receivePieces, receivePieces]
    by_cases hDone : left = 0
    · rw [dif_pos hDone, dif_pos hDone]
      exact .pure _
    · rw [dif_neg hDone, dif_neg hDone]
      have hStart : buffer.val.toNat + done < 2 ^ 64 := by omega
      obtain ⟨dst, hAdd, hDst⟩ := VirtualAddress.exists_add hStart
      refine (hReceive _).bind ?_
      rintro ⟨stored, count⟩
      refine .lift_bind hAdd ?_
      refine (onMemory_simulates (UserMemory.copyTo_simulates dst _ ?_)).bind ?_
      · intro i hi a ha
        have hLength : i < left := by
          rw [List.length_take] at hi
          omega
        exact hWrite (done + i) (by omega) a (VirtualAddress.add?_add? hDst ha)
      · intro outcome
        cases outcome with
        | error e => exact .pure _
        | ok _ =>
          by_cases hShort : min count (min left pieceSize) < min left pieceSize
          · simp only [hShort, ↓reduceIte]
            exact .pure _
          · simp only [hShort, ↓reduceIte]
            have hPiece : 0 < pieceSize := by decide
            exact ih _ (by omega) _ _ (by omega) fun i hi => hWrite i (by omega)

variable {host : Host η F} {host' : Host η' F} {u : UserMemory σ} {u' : UserMemory τ}

theorem read_simulates (hHosts : Host.Alike S host host') (fd : Int) (buffer : VirtualAddress)
    (length : UInt64) (hWrite : ∀ i < length.toNat, ∀ a, buffer.add? i = some a → ∀ b,
      Simulates V R (u.writeByte a b) (u'.writeByte a b)) :
    Simulates V (CallState.Related R S) (read u host fd buffer length)
      (read u' host' fd buffer length) := by
  rw [read, read]
  by_cases hZero : length = 0
  · rw [if_pos hZero, if_pos hZero]
    exact .pure _
  rw [if_neg hZero, if_neg hZero]
  by_cases hSpace : inUserSpace buffer length = true
  · rw [if_pos hSpace, if_pos hSpace]
    refine (askFiles_simulates _).bind ?_
    intro isOpen
    by_cases hGoes : fd = stdin ∨ isOpen = true
    · simp only [hGoes, ↓reduceIte]
      have hReceive : ∀ piece, Simulates V (CallState.Related R S)
          ((if fd = stdin then receiveConsole host else receiveFile host fd) piece)
          ((if fd = stdin then receiveConsole host' else receiveFile host' fd) piece) := by
        intro piece
        split
        · exact receiveConsole_simulates hHosts piece
        · exact receiveFile_simulates hHosts fd piece
      have hEnd := le_of_inUserSpace hSpace
      refine (receivePieces_simulates hReceive buffer _ 0 length.toNat (by omega) ?_).bind ?_
      · rwa [Nat.zero_add]
      · intro received
        cases received with
        | ok count => exact .pure _
        | error e => exact leave_simulates hHosts _
    · simp only [hGoes, ↓reduceIte]
      exact .pure _
  · rw [if_neg hSpace, if_neg hSpace]
    exact leave_simulates hHosts _

theorem serve_simulates (hHosts : Host.Alike S host host')
    (hRead : ∀ a, Simulates V R (u.readByte a) (u'.readByte a)) (c : Call) (a b d : UInt64)
    (hWrite : c = .read → ∀ i < d.toNat, ∀ x, VirtualAddress.add? ⟨b⟩ i = some x → ∀ y,
      Simulates V R (u.writeByte x y) (u'.writeByte x y)) :
    Simulates V (CallState.Related R S) (serve u host c a b d) (serve u' host' c a b d) := by
  cases c with
  | halt => exact (halt_simulates hHosts).bind fun _ => .pure _
  | exit => exact (terminate_simulates hHosts _).bind fun _ => .pure _
  | openFile => exact openFile_simulates hHosts hRead ⟨a⟩
  | read => exact read_simulates hHosts _ ⟨b⟩ d (hWrite rfl)
  | write => exact write_simulates hHosts hRead _ ⟨b⟩ d
  | close => exact close_simulates hHosts _
  | fork | exec | wait | create | remove | fileSize | seek | tell =>
    exact (note_simulates _).bind fun _ => .pure _

/-- A call goes together with itself over two memories and two hosts. -/
theorem handle_simulates (hHosts : Host.Alike S host host')
    (hRead : ∀ a, Simulates V R (u.readByte a) (u'.readByte a)) (r : Registers)
    (hWrite : ∀ a, r.Offers a → ∀ b, Simulates V R (u.writeByte a b) (u'.writeByte a b)) :
    Simulates V (CallState.Related R S) (handle u host r) (handle u' host' r) := by
  rw [handle, handle]
  cases hCall : Call.ofNumber r.number with
  | error e =>
    refine (note_simulates _).bind fun _ => ?_
    exact (terminate_simulates hHosts (-1)).bind fun _ => .pure _
  | ok c =>
    refine .lift_bind rfl (.lift_bind rfl (.lift_bind rfl ?_))
    refine (note_simulates _).bind fun _ => ?_
    refine (serve_simulates hHosts hRead c r.rdi r.rsi r.rdx ?_).bind ?_
    · rintro rfl i hi a ha b
      exact hWrite a ⟨hCall, i, hi, ha⟩ b
    · intro outcome
      cases outcome with
      | result v => exact .pure _
      | leave k => exact .pure _

end CallM

end PagedKernel
