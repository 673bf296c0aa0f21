import PagedKernel.Proofs.Stateful.Triple
import PagedKernel.Proofs.Syscall.DescriptorTable
import PagedKernel.Proofs.Syscall.Simulation

/-!
# Open files are conserved

A file comes into the table of a process when the host opens it, and it leaves the table when the host
closes it. No call loses a file or closes one twice: what has come is in the table or has gone, however
the calls end. A call that ends the process closes all that is left, lowest descriptor first.

Files are told apart by an identity, which reading and writing do not change. The host keeps a trail of
the files that it opens and closes; `CallRun.exists_trailed` says that this makes no difference.

* `Host.trailed`: a host that keeps the trail.
* `FileStep`: what one call can do to the files.
* `CallM.handle_callStep`: every call does one of these.
* `CallRun.conserves_files`: so no sequence of calls loses a file.
-/

namespace PagedKernel

open Stateful

variable {σ η F ι α : Type}

/-! ## The trail of the files -/

/-- The files that a host has opened and those that it has closed, in order. -/
structure FileTrail (F : Type) where
  opened : List F
  closed : List F

def Host.trailed (host : Host η F) : Host (η × FileTrail F) F where
  powerOff x := (host.powerOff x.1, x.2)
  openFile name x :=
    let (f, h) := host.openFile name x.1
    (f, h, { x.2 with opened := x.2.opened ++ f.toList })
  writeConsole bytes x := (host.writeConsole bytes x.1, x.2)
  readConsole buffer x :=
    let (a, h) := host.readConsole buffer x.1
    (a, h, x.2)
  writeHandle f bytes x :=
    let (a, h) := host.writeHandle f bytes x.1
    (a, h, x.2)
  readHandle f buffer x :=
    let (a, h) := host.readHandle f buffer x.1
    (a, h, x.2)
  closeHandle f x := (host.closeHandle f x.1, { x.2 with closed := x.2.closed ++ [f] })

/-- A host gives the same answers when it keeps the trail. -/
theorem Host.alike_trailed (host : Host η F) : Host.Alike (fun x y => x = y.1) host host.trailed where
  powerOff := fun hS => congrArg _ hS
  openFile name := fun hS => by rw [hS]; exact ⟨rfl, rfl⟩
  writeConsole bytes := fun hS => congrArg _ hS
  readConsole buffer := fun hS => by rw [hS]; exact ⟨rfl, rfl⟩
  writeHandle f bytes := fun hS => by rw [hS]; exact ⟨rfl, rfl⟩
  readHandle f buffer := fun hS => by rw [hS]; exact ⟨rfl, rfl⟩
  closeHandle f := fun hS => congrArg _ hS

/-- Reading and writing a file does not change its identity. -/
structure Host.KeepsIdentity (host : Host η F) (identity : F → ι) : Prop where
  writeHandle (f : F) (bytes : List UInt8) (h : η) :
    identity (host.writeHandle f bytes h).1.1 = identity f
  readHandle (f : F) (buffer : List UInt8) (h : η) :
    identity (host.readHandle f buffer h).1.1 = identity f

abbrev TrailState (σ η F : Type) := CallState σ (η × FileTrail F) F

def TrailState.trail (c : TrailState σ η F) : FileTrail F := c.host.2

/-! ## What a call does to the files -/

/-- The same files are open under the same descriptors, and none has come or gone. -/
structure SameFiles (identity : F → ι) (c c' : TrailState σ η F) : Prop where
  files_eq : c'.files.map identity = c.files.map identity
  trail_eq : c'.trail = c.trail

/-- The files of the table have gone back to the host, in order. -/
structure Drained (identity : F → ι) (c c' : TrailState σ η F) : Prop where
  files_eq : c'.files.files = []
  opened_eq : c'.trail.opened = c.trail.opened
  closed_eq : c'.trail.closed.map identity = (c.trail.closed ++ c.files.files).map identity

/-- The ways for a call to end, as far as files are concerned. -/
inductive FileStep (identity : F → ι) (c c' : TrailState σ η F) : Fate → Prop
  | kept {k : Fate} (hStay : ∀ status, k ≠ .exit status) (hSame : SameFiles identity c c') :
      FileStep identity c c' k
  | taken (f : F) (hFiles : (c'.files.files.map identity).Perm (identity f :: c.files.files.map identity))
      (hOpened : c'.trail.opened = c.trail.opened ++ [f]) (hClosed : c'.trail.closed = c.trail.closed) :
      FileStep identity c c' .resume
  /-- A file was opened, and closed for want of a descriptor. -/
  | refused (f : F) (hFiles : c'.files.map identity = c.files.map identity)
      (hOpened : c'.trail.opened = c.trail.opened ++ [f])
      (hClosed : c'.trail.closed = c.trail.closed ++ [f]) : FileStep identity c c' .resume
  | closed (f : F) (hFiles : (c.files.files.map identity).Perm (identity f :: c'.files.files.map identity))
      (hOpened : c'.trail.opened = c.trail.opened)
      (hClosed : c'.trail.closed = c.trail.closed ++ [f]) : FileStep identity c c' .resume
  | drained (status : Int) (hDrained : Drained identity c c') : FileStep identity c c' (.exit status)

inductive TransferStep (identity : F → ι) (c c' : TrailState σ η F) : Outcome → Prop
  | kept (v : Int) (hSame : SameFiles identity c c') : TransferStep identity c c' (.result v)
  | ended (status : Int) (hDrained : Drained identity c c') :
      TransferStep identity c c' (.leave (.exit status))

def Outcome.fate : Outcome → Fate
  | .result _ => .resume
  | .leave k => k

/-- What one call can do to the files: a transfer that goes on does nothing to them. -/
structure CallStep (identity : F → ι) (c c' : TrailState σ η F) (call : Call) (k : Fate) : Prop where
  fileStep : FileStep identity c c' k
  transfer : call = .read ∨ call = .write → k = .resume → SameFiles identity c c'

theorem SameFiles.fileStep {identity : F → ι} {c c' : TrailState σ η F} (h : SameFiles identity c c') :
    FileStep identity c c' .resume :=
  .kept (fun _ hEnd => by cases hEnd) h

theorem TransferStep.callStep {identity : F → ι} {c c' : TrailState σ η F} {o : Outcome}
    (h : TransferStep identity c c' o) (call : Call) : CallStep identity c c' call o.fate := by
  cases h with
  | kept v hSame => exact ⟨hSame.fileStep, fun _ _ => hSame⟩
  | ended status hDrained => exact ⟨.drained status hDrained, nofun⟩

theorem FileStep.drained_of_exit {identity : F → ι} {c c' : TrailState σ η F} {status : Int}
    (h : FileStep identity c c' (.exit status)) : Drained identity c c' := by
  cases h with
  | kept hStay _ => exact absurd rfl (hStay status)
  | drained _ hDrained => exact hDrained

theorem SameFiles.refl (identity : F → ι) (c : TrailState σ η F) : SameFiles identity c c := ⟨rfl, rfl⟩

theorem SameFiles.files_perm {identity : F → ι} {c c' : TrailState σ η F}
    (h : SameFiles identity c c') : c'.files.files.map identity = c.files.files.map identity := by
  rw [← DescriptorTable.files_map, ← DescriptorTable.files_map, h.files_eq]

/-- What is in the table and what has gone is what was there and what has come. -/
def Conserves (identity : F → ι) (files : DescriptorTable F) (c : TrailState σ η F) : Prop :=
  ((c.files.files ++ c.trail.closed).map identity).Perm ((files.files ++ c.trail.opened).map identity)

theorem Conserves.same {identity : F → ι} {files : DescriptorTable F} {c c' : TrailState σ η F}
    (h : Conserves identity files c) (hSame : SameFiles identity c c') : Conserves identity files c' := by
  rw [Conserves, List.map_append, hSame.files_perm, hSame.trail_eq, ← List.map_append]
  exact h

/-- Whatever a call does to the files, none is lost. -/
theorem FileStep.conserves {identity : F → ι} {files : DescriptorTable F} {c c' : TrailState σ η F}
    {k : Fate} (hStep : FileStep identity c c' k) (h : Conserves identity files c) :
    Conserves identity files c' := by
  rw [Conserves, List.map_append, List.map_append] at h
  cases hStep with
  | kept _ hSame =>
    refine Conserves.same ?_ hSame
    rwa [Conserves, List.map_append, List.map_append]
  | taken f hFiles hOpened hClosed =>
    rw [Conserves, hOpened, hClosed, ← List.append_assoc, List.map_append, List.map_append,
      List.map_append]
    have hMore := (hFiles.append_right (c.trail.closed.map identity)).trans (h.cons (identity f))
    exact hMore.trans (List.perm_append_singleton _ _).symm
  | refused f hFiles hOpened hClosed =>
    have hSame : c'.files.files.map identity = c.files.files.map identity := by
      rw [← DescriptorTable.files_map, ← DescriptorTable.files_map, hFiles]
    rw [Conserves, hOpened, hClosed, List.map_append, hSame, List.map_append, List.map_append,
      List.map_append, ← List.append_assoc, ← List.append_assoc]
    exact h.append_right _
  | closed f hFiles hOpened hClosed =>
    rw [Conserves, hOpened, hClosed, ← List.append_assoc, List.map_append, List.map_append,
      List.map_append]
    refine (List.perm_append_singleton _ _).trans (List.Perm.trans ?_ h)
    exact (hFiles.append_right _).symm
  | drained _ hDrained =>
    rw [Conserves, hDrained.files_eq, hDrained.opened_eq, List.nil_append, hDrained.closed_eq,
      List.map_append, List.map_append]
    exact List.perm_append_comm.trans h

namespace CallM

variable {host : Host η F} {identity : F → ι} {u : UserMemory σ} {c : TrailState σ η F}

/-! ## Steps that leave the files alone -/

theorem onHost_apply {η : Type} (f : η → α × η) (x : CallState σ η F) :
    onHost f x = .ok (f x.host).1 { x with host := (f x.host).2 } := rfl

theorem onFiles_apply {η : Type} (f : DescriptorTable F → α × DescriptorTable F) (x : CallState σ η F) :
    onFiles f x = .ok (f x.files).1 { x with files := (f x.files).2 } := rfl

abbrev KeepsFiles (identity : F → ι) (c : TrailState σ η F) (x : CallM σ (η × FileTrail F) F α) : Prop :=
  Keeps (fun _ => True) (SameFiles identity c) x

theorem keepsFiles_onMemory (f : Stateful σ α) : KeepsFiles identity c (onMemory f) := by
  rintro x _ ⟨rfl, hSame⟩
  simp only [onMemory]
  cases f x.memory with
  | ok a memory => exact .ok a ⟨rfl, hSame.files_eq, hSame.trail_eq⟩
  | error v memory => exact .error trivial ⟨rfl, hSame.files_eq, hSame.trail_eq⟩

theorem keepsFiles_onHost {f : η × FileTrail F → α × η × FileTrail F} (h : ∀ x, (f x).2.2 = x.2) :
    KeepsFiles identity c (onHost f) := by
  rintro x _ ⟨rfl, hSame⟩
  exact .ok _ ⟨rfl, hSame.files_eq, (h x.host).trans hSame.trail_eq⟩

theorem keepsFiles_askFiles (f : DescriptorTable F → α) : KeepsFiles identity c (askFiles f) := by
  rintro x _ ⟨rfl, hSame⟩
  exact .ok _ ⟨rfl, hSame⟩

theorem keepsFiles_note (n : CallNotice) : KeepsFiles identity c (note n) := by
  rintro x _ ⟨rfl, hSame⟩
  exact .ok _ ⟨rfl, hSame.files_eq, hSame.trail_eq⟩

theorem keepsFiles_use {fd : Int} {none : CallM σ (η × FileTrail F) F α}
    {use : F → η × FileTrail F → (F × α) × η × FileTrail F} (hNone : KeepsFiles identity c none)
    (hTrail : ∀ f x, (use f x).2.2 = x.2) (hUse : ∀ f x, identity (use f x).1.1 = identity f) :
    KeepsFiles identity c (do
      match ← askFiles (·.get? fd) with
      | .none => none
      | some f =>
        let (f, a) ← onHost (use f)
        onFiles fun t => ((), t.put fd (some f))
        return a) := by
  rintro x _ ⟨rfl, hSame⟩
  show EndAlike _ _ ((match x.files.get? fd with | .none => none | some f => _ :
    CallM σ (η × FileTrail F) F α) x) ((match x.files.get? fd with | .none => none | some f => _ :
    CallM σ (η × FileTrail F) F α) x)
  cases hGet : x.files.get? fd with
  | none => exact hNone x x ⟨rfl, hSame⟩
  | some f =>
    refine .ok _ ⟨rfl, ?_, (hTrail f x.host).trans hSame.trail_eq⟩
    exact (DescriptorTable.map_put identity hGet (hUse f x.host)).trans hSame.files_eq

variable (hIdentity : host.KeepsIdentity identity)

theorem keepsFiles_sendConsole (piece : List UInt8) :
    KeepsFiles identity c (sendConsole host.trailed piece) :=
  (keepsFiles_onHost fun _ => rfl).bind fun _ => .pure _

theorem keepsFiles_receiveConsole (piece : List UInt8) :
    KeepsFiles identity c (receiveConsole host.trailed piece) :=
  keepsFiles_onHost fun _ => rfl

include hIdentity

theorem keepsFiles_sendFile (fd : Int) (piece : List UInt8) :
    KeepsFiles identity c (sendFile host.trailed fd piece) := by
  rw [sendFile]
  have hTrail : ∀ f x, (host.trailed.writeHandle f piece x).2.2 = x.2 := fun _ _ => rfl
  exact keepsFiles_use (Simulates.pure _) hTrail fun f x => hIdentity.writeHandle f piece x.1

theorem keepsFiles_receiveFile (fd : Int) (piece : List UInt8) :
    KeepsFiles identity c (receiveFile host.trailed fd piece) := by
  rw [receiveFile]
  have hTrail : ∀ f x, (host.trailed.readHandle f piece x).2.2 = x.2 := fun _ _ => rfl
  exact keepsFiles_use (Simulates.pure _) hTrail fun f x => hIdentity.readHandle f piece x.1

omit hIdentity

theorem keepsFiles_sendPieces {send : List UInt8 → CallM σ (η × FileTrail F) F Nat}
    (hSend : ∀ piece, KeepsFiles identity c (send piece)) (buffer : VirtualAddress) (done left : Nat) :
    KeepsFiles identity c (sendPieces u send buffer done left) := by
  induction left using Nat.strongRecOn generalizing done with
  | ind left ih =>
    rw [sendPieces]
    by_cases hDone : left = 0
    · rw [dif_pos hDone]
      exact Simulates.pure _
    · rw [dif_neg hDone]
      refine (Keeps.lift (fun _ => trivial) _).bind fun src => ?_
      refine (keepsFiles_onMemory _).bind ?_
      rintro ⟨piece, outcome⟩
      cases outcome with
      | error e => exact Simulates.pure _
      | ok _ =>
        refine (hSend piece).bind fun count => ?_
        by_cases hShort : min count (min left pieceSize) < min left pieceSize
        · simp only [hShort, ↓reduceIte]
          exact Simulates.pure _
        · simp only [hShort, ↓reduceIte]
          have hPiece : 0 < pieceSize := by decide
          exact ih _ (by omega) _

theorem keepsFiles_receivePieces {receive : List UInt8 → CallM σ (η × FileTrail F) F (List UInt8 × Nat)}
    (hReceive : ∀ piece, KeepsFiles identity c (receive piece)) (buffer : VirtualAddress)
    (chunk : List UInt8) (done left : Nat) :
    KeepsFiles identity c (receivePieces u receive buffer chunk done left) := by
  induction left using Nat.strongRecOn generalizing chunk done with
  | ind left ih =>
    rw [receivePieces]
    by_cases hDone : left = 0
    · rw [dif_pos hDone]
      exact Simulates.pure _
    · rw [dif_neg hDone]
      refine (hReceive _).bind ?_
      rintro ⟨stored, count⟩
      refine (Keeps.lift (fun _ => trivial) _).bind fun dst => ?_
      refine (keepsFiles_onMemory _).bind fun outcome => ?_
      cases outcome with
      | error e => exact Simulates.pure _
      | ok _ =>
        by_cases hShort : min count (min left pieceSize) < min left pieceSize
        · simp only [hShort, ↓reduceIte]
          exact Simulates.pure _
        · simp only [hShort, ↓reduceIte]
          have hPiece : 0 < pieceSize := by decide
          exact ih _ (by omega) _ _

/-! ## Calls -/

theorem forM_closeHandle (files : List F) (x : TrailState σ η F) :
    ∃ h, (files.forM fun f => onHost fun h => ((), host.trailed.closeHandle f h) :
        CallM σ (η × FileTrail F) F Unit) x =
      .ok () { x with host := (h, { x.trail with closed := x.trail.closed ++ files }) } := by
  induction files generalizing x with
  | nil =>
    refine ⟨x.host.1, ?_⟩
    rw [List.append_nil]
    rfl
  | cons f files ih =>
    obtain ⟨h, hRest⟩ := ih { x with host := host.trailed.closeHandle f x.host }
    refine ⟨h, ?_⟩
    show (onHost _ >>= fun _ => files.forM _) x = _
    rw [bind_ok (onHost_apply _ x), hRest]
    simp only [TrailState.trail, Host.trailed, List.append_assoc, List.singleton_append]

theorem meets_terminate (status : Int) :
    Meets (SameFiles identity c) (terminate host.trailed status)
      (fun k c' => k = .exit status ∧ Drained identity c c') (SameFiles identity c) := by
  refine Meets.of_ok fun x hSame => ?_
  obtain ⟨h, hClose⟩ := @forM_closeHandle σ η F host x.files.drain.1 { x with files := x.files.drain.2 }
  rw [terminate, bind_ok (onFiles_apply _ x), bind_ok hClose]
  refine ⟨.exit status, _, rfl, rfl, DescriptorTable.files_drain _, ?_, ?_⟩
  · show x.trail.opened = _
    rw [hSame.trail_eq]
  · show (x.trail.closed ++ x.files.files).map identity = _
    rw [List.map_append, List.map_append, hSame.files_perm, hSame.trail_eq]

theorem meets_leave (n : CallNotice) :
    Meets (SameFiles identity c)
      (do note n; return Outcome.leave (← terminate host.trailed (-1)))
      (fun o c' => TransferStep identity c c' o) (SameFiles identity c) := by
  refine Meets.after (fun _ => ?_) (keepsFiles_note n)
  refine (meets_terminate (-1)).bind fun k => Meets.pure ?_
  rintro c' ⟨rfl, hDrained⟩
  exact .ended _ hDrained

theorem meets_result (v : Int) :
    Meets (SameFiles identity c) (return .result v : CallM σ (η × FileTrail F) F Outcome)
      (fun o c' => TransferStep identity c c' o) (SameFiles identity c) :=
  Meets.pure fun _ hSame => .kept v hSame

include hIdentity

theorem meets_write (fd : Int) (buffer : VirtualAddress) (length : UInt64) :
    Meets (SameFiles identity c) (write u host.trailed fd buffer length)
      (fun o c' => TransferStep identity c c' o) (SameFiles identity c) := by
  rw [write]
  by_cases hZero : length = 0
  · rw [if_pos hZero]
    exact meets_result 0
  rw [if_neg hZero]
  by_cases hSpace : inUserSpace buffer length = true
  · rw [if_pos hSpace]
    refine Meets.after (fun isOpen => ?_) (keepsFiles_askFiles _)
    by_cases hGoes : (fd = stdout ∨ fd = stderr) ∨ isOpen = true
    · simp only [hGoes, ↓reduceIte]
      refine Meets.after (fun sampled => ?_) (keepsFiles_onMemory _)
      cases sampled with
      | error e => exact meets_leave _
      | ok _ =>
        have hSend : ∀ piece, KeepsFiles (σ := σ) identity c
            ((if fd = stdout ∨ fd = stderr then sendConsole host.trailed
              else sendFile host.trailed fd) piece) := by
          intro piece
          split
          · exact keepsFiles_sendConsole piece
          · exact keepsFiles_sendFile hIdentity fd piece
        refine Meets.after (fun sent => ?_) (keepsFiles_sendPieces hSend buffer 0 length.toNat)
        cases sent with
        | ok count => exact meets_result _
        | error e => exact meets_leave _
    · simp only [hGoes, ↓reduceIte]
      exact meets_result _
  · rw [if_neg hSpace]
    exact meets_leave _

theorem meets_read (fd : Int) (buffer : VirtualAddress) (length : UInt64) :
    Meets (SameFiles identity c) (read u host.trailed fd buffer length)
      (fun o c' => TransferStep identity c c' o) (SameFiles identity c) := by
  rw [read]
  by_cases hZero : length = 0
  · rw [if_pos hZero]
    exact meets_result 0
  rw [if_neg hZero]
  by_cases hSpace : inUserSpace buffer length = true
  · rw [if_pos hSpace]
    refine Meets.after (fun isOpen => ?_) (keepsFiles_askFiles _)
    by_cases hGoes : fd = stdin ∨ isOpen = true
    · simp only [hGoes, ↓reduceIte]
      have hReceive : ∀ piece, KeepsFiles (σ := σ) identity c
          ((if fd = stdin then receiveConsole host.trailed else receiveFile host.trailed fd) piece) := by
        intro piece
        split
        · exact keepsFiles_receiveConsole piece
        · exact keepsFiles_receiveFile hIdentity fd piece
      refine Meets.after (fun received => ?_)
        (keepsFiles_receivePieces hReceive buffer _ 0 length.toNat)
      cases received with
      | ok count => exact meets_result _
      | error e => exact meets_leave _
    · simp only [hGoes, ↓reduceIte]
      exact meets_result _
  · rw [if_neg hSpace]
    exact meets_leave _

omit hIdentity

theorem meets_opened (name : List UInt8) :
    Meets (SameFiles identity c)
      (do
        match ← onHost (host.trailed.openFile name) with
        | none => return .result (-1)
        | some f =>
          let installed ← onFiles fun t =>
            match t.install f with
            | .ok (fd, t) => (Except.ok fd, t)
            | .error f => (Except.error f, t)
          match installed with
          | .ok fd => return .result fd
          | .error f =>
            note .tableFull
            onHost fun h => ((), host.trailed.closeHandle f h)
            return .result (-1) : CallM σ (η × FileTrail F) F Outcome)
      (fun o c' => FileStep identity c c' o.fate) (SameFiles identity c) := by
  refine Meets.of_ok fun x hSame => ?_
  obtain ⟨memory, ⟨h, trail⟩, files, log⟩ := x
  have hFiles : files.map identity = c.files.map identity := hSame.files_eq
  have hTrail : trail = c.trail := hSame.trail_eq
  subst hTrail
  rw [bind_ok (onHost_apply _ _)]
  show ∃ o c', (match (host.openFile name h).1 with | none => _ | some f => _ :
    CallM σ (η × FileTrail F) F Outcome) _ = .ok o c' ∧ _
  cases hOpen : (host.openFile name h).1 with
  | none =>
    refine ⟨_, _, rfl, SameFiles.fileStep ⟨hFiles, ?_⟩⟩
    simp only [TrailState.trail, Host.trailed, hOpen, Option.toList_none, List.append_nil]
  | some f =>
    simp only
    cases hInstall : files.install f with
    | ok out =>
      obtain ⟨fd, table⟩ := out
      rw [bind_ok (onFiles_apply _ _)]
      simp only [hInstall]
      refine ⟨_, _, rfl, .taken f ?_ ?_ ?_⟩
      · have hPerm := (DescriptorTable.perm_install hInstall).map identity
        rwa [List.map_cons, ← DescriptorTable.files_map, ← DescriptorTable.files_map, hFiles,
          DescriptorTable.files_map, DescriptorTable.files_map] at hPerm
      · simp only [TrailState.trail, Host.trailed, hOpen, Option.toList_some]
      · rfl
    | error g =>
      obtain rfl := DescriptorTable.eq_of_install hInstall
      rw [bind_ok (onFiles_apply _ _)]
      simp only [hInstall]
      refine ⟨_, _, rfl, .refused g hFiles ?_ ?_⟩
      · simp only [TrailState.trail, Host.trailed, hOpen, Option.toList_some]
      · rfl

theorem meets_openFile (path : VirtualAddress) :
    Meets (SameFiles identity c) (openFile u host.trailed path)
      (fun o c' => FileStep identity c c' o.fate) (SameFiles identity c) := by
  have hRefused : Meets (SameFiles identity c)
      (return .result (-1) : CallM σ (η × FileTrail F) F Outcome)
      (fun o c' => FileStep identity c c' o.fate) (SameFiles identity c) :=
    Meets.pure fun _ hSame => hSame.fileStep
  rw [openFile]
  by_cases hNull : path.isNull = true
  · rw [if_pos hNull]
    exact hRefused
  · rw [if_neg hNull]
    refine Meets.after ?_ (keepsFiles_onMemory _)
    rintro ⟨buffer, outcome⟩
    cases outcome with
    | error e =>
      cases e with
      | fault e => exact (meets_leave _).imp fun _ _ hStep => (hStep.callStep .openFile).fileStep
      | tooLong limit => exact hRefused
    | ok name =>
      cases name with
      | nil => exact hRefused
      | cons b name => exact meets_opened (b :: name)

theorem meets_close (fd : Int) :
    Meets (SameFiles identity c) (close host.trailed fd)
      (fun o c' => FileStep identity c c' o.fate) (SameFiles identity c) := by
  refine Meets.of_ok fun x hSame => ?_
  rw [close, bind_ok (onFiles_apply _ x)]
  cases hRemove : x.files.remove fd with
  | mk removed table =>
    cases removed with
    | none =>
      obtain rfl := DescriptorTable.eq_of_remove hRemove
      exact ⟨_, _, rfl, SameFiles.fileStep ⟨hSame.files_eq, hSame.trail_eq⟩⟩
    | some f =>
      refine ⟨_, _, rfl, .closed f ?_ ?_ ?_⟩
      · have hPerm := (DescriptorTable.perm_remove hRemove).map identity
        rwa [hSame.files_perm, List.map_cons] at hPerm
      · show x.trail.opened = _
        rw [hSame.trail_eq]
      · show x.trail.closed ++ [f] = _
        rw [hSame.trail_eq]

theorem meets_halt :
    Meets (SameFiles identity c) (halt host.trailed : CallM σ (η × FileTrail F) F Fate)
      (fun k c' => k = .powerOff ∧ SameFiles identity c c') (SameFiles identity c) := by
  refine Meets.after (fun _ => ?_) (keepsFiles_note _)
  exact Meets.after (fun _ => Meets.pure fun _ hSame => ⟨rfl, hSame⟩) (keepsFiles_onHost fun _ => rfl)

variable (hIdentity : host.KeepsIdentity identity)

include hIdentity

theorem meets_serve (call : Call) (a b d : UInt64) :
    Meets (SameFiles identity c) (serve u host.trailed call a b d)
      (fun o c' => CallStep identity c c' call o.fate) (SameFiles identity c) := by
  cases call with
  | halt =>
    refine meets_halt.bind fun k => Meets.pure ?_
    rintro c' ⟨rfl, hSame⟩
    exact ⟨.kept nofun hSame, nofun⟩
  | exit =>
    refine (meets_terminate _).bind fun k => Meets.pure ?_
    rintro c' ⟨rfl, hDrained⟩
    exact ⟨.drained _ hDrained, nofun⟩
  | openFile => exact (meets_openFile ⟨a⟩).imp fun _ _ hStep => ⟨hStep, nofun⟩
  | read => exact (meets_read hIdentity _ ⟨b⟩ d).imp fun _ _ hStep => hStep.callStep _
  | write => exact (meets_write hIdentity _ ⟨b⟩ d).imp fun _ _ hStep => hStep.callStep _
  | close => exact (meets_close _).imp fun _ _ hStep => ⟨hStep, nofun⟩
  | fork | exec | wait | create | remove | fileSize | seek | tell =>
    refine Meets.after (fun _ => Meets.pure fun _ hSame => ?_) (keepsFiles_note _)
    exact ⟨hSame.fileStep, nofun⟩

/-- Every call does to the files what its number lets it do. -/
theorem handle_callStep (r : Registers) :
    Meets (SameFiles identity c) (handle u host.trailed r)
      (fun out c' => FileStep identity c c' out.1 ∧
        ∀ call, Call.ofNumber r.number = .ok call → CallStep identity c c' call out.1)
      (SameFiles identity c) := by
  rw [handle]
  cases hCall : Call.ofNumber r.number with
  | error e =>
    refine Meets.after (fun _ => ?_) (keepsFiles_note _)
    refine (meets_terminate (-1)).bind fun k => Meets.pure ?_
    rintro c' ⟨rfl, hDrained⟩
    refine ⟨.drained _ hDrained, fun call hServed => ?_⟩
    cases hServed
  | ok call =>
    refine Meets.after (fun a => ?_) (Keeps.lift (fun _ => trivial) _)
    refine Meets.after (fun b => ?_) (Keeps.lift (fun _ => trivial) _)
    refine Meets.after (fun d => ?_) (Keeps.lift (fun _ => trivial) _)
    refine Meets.after (fun _ => ?_) (keepsFiles_note _)
    refine (meets_serve hIdentity call a b d).bind fun o => ?_
    cases o with
    | result v =>
      refine Meets.pure fun c' hStep => ⟨hStep.fileStep, ?_⟩
      rintro _ ⟨rfl⟩
      exact hStep
    | leave k =>
      refine Meets.pure fun c' hStep => ⟨hStep.fileStep, ?_⟩
      rintro _ ⟨rfl⟩
      exact hStep

end CallM

/-! ## Sequences of calls -/

def Stateful.final (x : Stateful σ α) (s : σ) : σ :=
  match x s with
  | .ok _ s' => s'
  | .error _ s' => s'

/-- What calls lead to, each with user memory of its own in whatever state it is in by then. -/
inductive CallRun (host : Host η F) (start : CallState σ η F) : CallState σ η F → Prop
  | start : CallRun host start start
  | call {c : CallState σ η F} (before : CallRun host start c) (u : UserMemory σ) (memory : σ)
      (r : Registers) : CallRun host start (final (CallM.handle u host r) { c with memory })

def CallState.trailed (c : CallState σ η F) : TrailState σ η F :=
  ⟨c.memory, (c.host, ⟨[], []⟩), c.files, c.log⟩

abbrev CallState.TrailedBy (c : CallState σ η F) (d : TrailState σ η F) : Prop :=
  CallState.Related Eq (fun x y => x = y.1) c d

/-- Keeping the trail makes no difference to a call. -/
theorem CallM.handle_trailed (host : Host η F) {c : CallState σ η F} {d : TrailState σ η F}
    (h : c.TrailedBy d) (u : UserMemory σ) (memory : σ) (r : Registers) :
    EndAlike (fun _ => True) CallState.TrailedBy (handle u host r { c with memory })
      (handle u host.trailed r { d with memory }) :=
  handle_simulates host.alike_trailed (fun a => .refl (u.readByte a)) r
    (fun a _ b => .refl (u.writeByte a b)) _ _ ⟨rfl, h.host, h.files_eq⟩

/-- Nor does it to a sequence of calls. -/
theorem CallRun.exists_trailed {host : Host η F} {start c : CallState σ η F}
    (hRun : CallRun host start c) : ∃ d, CallRun host.trailed start.trailed d ∧ c.TrailedBy d := by
  induction hRun with
  | start => exact ⟨_, .start, rfl, rfl, rfl⟩
  | @call c _ u memory r ih =>
    obtain ⟨d, hBefore, hSame⟩ := ih
    refine ⟨_, hBefore.call u memory r, ?_⟩
    have hEnd := CallM.handle_trailed host hSame u memory r
    rw [final, final]
    generalize CallM.handle u host r { c with memory } = p,
      CallM.handle u host.trailed r { d with memory } = q at hEnd ⊢
    cases hEnd with
    | ok _ hState => exact hState
    | error _ hState => exact hState

/-- No sequence of calls with a trail loses a file. -/
theorem CallRun.conserves {host : Host η F} {identity : F → ι} (hIdentity : host.KeepsIdentity identity)
    {start : CallState σ η F} {d : TrailState σ η F} (hRun : CallRun host.trailed start.trailed d) :
    Conserves identity start.files d := by
  induction hRun with
  | start => exact List.Perm.refl _
  | @call d _ u memory r ih =>
    have hEnd := CallM.handle_callStep hIdentity (u := u) (c := d) r { d with memory } ⟨rfl, rfl⟩
    rw [final]
    generalize CallM.handle u host.trailed r { d with memory } = p at hEnd ⊢
    cases p with
    | ok out d' => exact hEnd.1.conserves ih
    | error v d' => exact ih.same hEnd

/-- Every sequence of calls is one with a trail. At every point of it the files that were in the table and those
that have come are those in the table and those that have gone, and the next call ends alike with the trail. If
it ends the process it leaves the table empty and has closed what was in it, lowest descriptor first; a transfer
that goes on leaves the same descriptors open. -/
theorem CallRun.conserves_files {host : Host η F} {identity : F → ι}
    (hIdentity : host.KeepsIdentity identity) (start : CallState σ η F) :
    (∀ c, CallRun host start c → ∃ d, CallRun host.trailed start.trailed d ∧ c.TrailedBy d) ∧
    ∀ (c : CallState σ η F) (d : TrailState σ η F), CallRun host.trailed start.trailed d → c.TrailedBy d →
      ((c.files.files ++ d.trail.closed).map identity).Perm
        ((start.files.files ++ d.trail.opened).map identity) ∧
      (((start.files.files ++ d.trail.opened).map identity).Nodup →
        ((c.files.files ++ d.trail.closed).map identity).Nodup) ∧
      ∀ (u : UserMemory σ) (memory : σ) (r : Registers),
        EndAlike (fun _ => True) CallState.TrailedBy (CallM.handle u host r { c with memory })
          (CallM.handle u host.trailed r { d with memory }) ∧
        ∀ (k : Fate) (r' : Registers) (c' : CallState σ η F) (d' : TrailState σ η F),
          CallM.handle u host.trailed r { d with memory } = .ok (k, r') d' → c'.TrailedBy d' →
            (∀ status, k = .exit status → c'.files.files = [] ∧ d'.trail.opened = d.trail.opened ∧
              c.files.descriptors.Pairwise (· < ·) ∧ d'.trail.closed.map identity =
                (d.trail.closed ++ c.files.descriptors.filterMap c.files.get?).map identity) ∧
            (Call.ofNumber r.number = .ok .read ∨ Call.ofNumber r.number = .ok .write → k = .resume →
              ∀ fd, c'.files.isOpen fd = c.files.isOpen fd) := by
  refine ⟨fun c hRun => hRun.exists_trailed, fun c d hRun hSame => ?_⟩
  have hConserves : Conserves identity start.files d := hRun.conserves hIdentity
  rw [Conserves, ← hSame.files_eq] at hConserves
  refine ⟨hConserves, hConserves.nodup_iff.2, fun u memory r =>
    ⟨CallM.handle_trailed host hSame u memory r, fun k r' c' d' hHandle hSame' => ?_⟩⟩
  have hEnd := CallM.handle_callStep hIdentity (u := u) (c := d) r { d with memory } ⟨rfl, rfl⟩
  rw [hHandle] at hEnd
  obtain ⟨hStep, hCall⟩ := hEnd
  rw [hSame.files_eq, hSame'.files_eq]
  refine ⟨?_, fun hTransfer hResume fd => ?_⟩
  · rintro status rfl
    have hDrained := hStep.drained_of_exit
    refine ⟨hDrained.files_eq, hDrained.opened_eq, d.files.pairwise_descriptors, ?_⟩
    rw [← DescriptorTable.files_eq, hDrained.closed_eq]
  · have hStays : SameFiles identity d d' := by
      rcases hTransfer with hRead | hWrite
      · exact (hCall _ hRead).transfer (Or.inl rfl) hResume
      · exact (hCall _ hWrite).transfer (Or.inr rfl) hResume
    rw [← DescriptorTable.isOpen_map identity, hStays.files_eq, DescriptorTable.isOpen_map]

/-- Two files are opened on a host that numbers them, and a call that does not exist ends the process:
the files are closed, lowest descriptor first. -/
theorem CallRun.conserves_files_numbered : ∃ (u : UserMemory Unit) (host : Host Nat Nat)
    (start c c' : CallState Unit Nat Nat) (d d' : TrailState Unit Nat Nat) (r : Registers),
    host.KeepsIdentity id ∧ start.files = .ofSize 5 ∧ CallRun host start c ∧
      CallRun host.trailed start.trailed d ∧ c.TrailedBy d ∧ c.files.descriptors = [3, 4] ∧
      CallM.handle u host r c = .ok (.exit (-1), r) c' ∧
      CallM.handle u host.trailed r d = .ok (.exit (-1), r) d' ∧
      ((c.files.files ++ d.trail.closed).map id).Perm ((start.files.files ++ d.trail.opened).map id) ∧
      c'.files.files = [] ∧ d'.trail.closed.map id = [0, 1] := by
  let u : UserMemory Unit :=
    { readByte := fun a => return .ok (if a.val = 0x1000 then 97 else 0)
      writeByte := fun _ _ => return .ok () }
  let host : Host Nat Nat :=
    { powerOff := id
      openFile := fun _ n => (some n, n + 1)
      writeConsole := fun _ n => n
      readConsole := fun _ n => (([], 0), n)
      writeHandle := fun f _ n => ((f, 0), n)
      readHandle := fun f _ n => ((f, [], 0), n)
      closeHandle := fun _ n => n }
  let start : CallState Unit Nat Nat := ⟨(), 0, .ofSize 5, []⟩
  let call : Registers := .ofCall (Call.number .openFile) 0x1000 0 0
  have hIdentity : host.KeepsIdentity id := ⟨fun _ _ _ => rfl, fun _ _ _ => rfl⟩
  let c := final (CallM.handle u host call) (final (CallM.handle u host call) start)
  let d := final (CallM.handle u host.trailed call) (final (CallM.handle u host.trailed call) start.trailed)
  have hRun : CallRun host start c := (CallRun.start.call u () call).call u () call
  have hTrail : CallRun host.trailed start.trailed d := (CallRun.start.call u () call).call u () call
  have hSame : c.TrailedBy d := ⟨rfl, rfl, rfl⟩
  obtain ⟨d', hExit⟩ : ∃ d', CallM.handle u host.trailed (.ofCall 99 0 0 0) d =
      .ok (.exit (-1), .ofCall 99 0 0 0) d' := ⟨_, rfl⟩
  obtain ⟨-, hConserved⟩ := CallRun.conserves_files hIdentity start
  obtain ⟨hPerm, -, hCalls⟩ := hConserved c d hTrail hSame
  obtain ⟨hAlike, hEnds⟩ := hCalls u () (.ofCall 99 0 0 0)
  rw [hExit] at hAlike
  obtain ⟨c', hOwn, hSame'⟩ := hAlike.exists_ok
  obtain ⟨hEmpty, -, -, hClosed⟩ := (hEnds _ _ c' d' hExit hSame').1 (-1) rfl
  exact ⟨u, host, start, c, c', d, d', _, hIdentity, rfl, hRun, hTrail, hSame, by decide, hOwn, hExit, hPerm,
    hEmpty, hClosed.trans (by decide)⟩

end PagedKernel
