import PagedKernel.Syscall.Registers
import PagedKernel.Syscall.Transfer

/-!
# System calls

`handle` decodes the registers of a process, carries out the call and stores its result.

    call     success            failure
    halt     powers off
    exit     ends the process
    open     descriptor         -1; a path out of reach ends the process with -1
    read     bytes read         -1 without such a descriptor; a bad buffer ends the process with -1
    write    bytes written      -1 without such a descriptor; a bad buffer ends the process with -1
    close    0                  -1

A number without a call ends the process with -1. The other calls are not supported and return -1.
-/

namespace PagedKernel

namespace CallM

variable {σ η F : Type} (u : UserMemory σ) (host : Host η F)

/-- Close every open file, lowest descriptor first, and end the process. -/
def terminate (status : Int) : CallM σ η F Fate := do
  let files ← onFiles DescriptorTable.drain
  files.forM fun f => onHost fun h => ((), host.closeHandle f h)
  note (.exited status)
  return .exit status

def halt : CallM σ η F Fate := do
  note .poweringOff
  onHost fun h => ((), host.powerOff h)
  return .powerOff

/-- Open the file whose path is at an address. -/
def openFile (path : VirtualAddress) : CallM σ η F Outcome := do
  if path.isNull then return .result (-1)
  -- The buffer has room for the longest path and its terminator.
  let (_, outcome) ← onMemory (u.readString path (List.replicate (pathLimit + 1) 0))
  match outcome with
  | .error (.tooLong _) | .ok [] => return .result (-1)
  | .error (.fault e) =>
    note (.pathFault e)
    return .leave (← terminate host (-1))
  | .ok name =>
    match ← onHost (host.openFile name) with
    | none => return .result (-1)
    | some f =>
      let installed ← onFiles fun t =>
        match t.install f with
        | .ok (fd, t) => (Except.ok fd, t)
        | .error f => (Except.error f, t)
      match installed with
      | .ok fd => return .result fd
      | .error f =>
        note .tableFull
        onHost fun h => ((), host.closeHandle f h)
        return .result (-1)

def sendConsole (piece : List UInt8) : CallM σ η F Nat := do
  onHost fun h => ((), host.writeConsole piece h)
  return piece.length

def sendFile (fd : Int) (piece : List UInt8) : CallM σ η F Nat := do
  match ← askFiles (·.get? fd) with
  | none => return 0
  | some f =>
    let (f, count) ← onHost (host.writeHandle f piece)
    onFiles fun t => ((), t.put fd (some f))
    return count

def receiveConsole (piece : List UInt8) : CallM σ η F (List UInt8 × Nat) :=
  onHost (host.readConsole piece)

def receiveFile (fd : Int) (piece : List UInt8) : CallM σ η F (List UInt8 × Nat) := do
  match ← askFiles (·.get? fd) with
  | none => return ([], 0)
  | some f =>
    let (f, stored, count) ← onHost (host.readHandle f piece)
    onFiles fun t => ((), t.put fd (some f))
    return (stored, count)

/-- Write a user buffer to a descriptor. Nothing is written unless every page of the buffer is
readable. -/
def write (fd : Int) (buffer : VirtualAddress) (length : UInt64) : CallM σ η F Outcome := do
  if length = 0 then return .result 0
  unless inUserSpace buffer length do
    note (.badBuffer buffer length)
    return .leave (← terminate host (-1))
  let console := fd = stdout ∨ fd = stderr
  unless console ∨ (← askFiles (·.isOpen fd)) do return .result (-1)
  match ← onMemory (samplePages u buffer length) with
  | .error e =>
    note (.writeFault e)
    return .leave (← terminate host (-1))
  | .ok () =>
    let send := if console then sendConsole host else sendFile host fd
    match ← sendPieces u send buffer 0 length.toNat with
    | .ok count => return .result count
    | .error e =>
      note (.writeFault e)
      return .leave (← terminate host (-1))

def read (fd : Int) (buffer : VirtualAddress) (length : UInt64) : CallM σ η F Outcome := do
  if length = 0 then return .result 0
  unless inUserSpace buffer length do
    note (.badBuffer buffer length)
    return .leave (← terminate host (-1))
  let console := fd = stdin
  unless console ∨ (← askFiles (·.isOpen fd)) do return .result (-1)
  let receive := if console then receiveConsole host else receiveFile host fd
  match ← receivePieces u receive buffer (List.replicate pieceSize 0) 0 length.toNat with
  | .ok count => return .result count
  | .error e =>
    note (.readFault e)
    return .leave (← terminate host (-1))

def close (fd : Int) : CallM σ η F Outcome := do
  match ← onFiles (·.remove fd) with
  | none => return .result (-1)
  | some f =>
    onHost fun h => ((), host.closeHandle f h)
    return .result 0

def serve (c : Call) (a b d : UInt64) : CallM σ η F Outcome := do
  match c with
  | .halt => return .leave (← halt host)
  | .exit => return .leave (← terminate host (Registers.intOf a))
  | .openFile => openFile u host ⟨a⟩
  | .read => read u host (Registers.intOf a) ⟨b⟩ d
  | .write => write u host (Registers.intOf a) ⟨b⟩ d
  | .close => close host (Registers.intOf a)
  | .fork | .exec | .wait | .create | .remove | .fileSize | .seek | .tell =>
    note (.unsupported c)
    return .result (-1)

/-- Carry out the call that the registers ask for. The answer tells what happens to the process and holds
its registers, which have changed only if it goes on. -/
def handle (r : Registers) : CallM σ η F (Fate × Registers) := do
  match Call.ofNumber r.number with
  | .error e =>
    note (.unknown e)
    return (← terminate host (-1), r)
  | .ok c =>
    let a ← r.arg 0
    let b ← r.arg 1
    let d ← r.arg 2
    note (.called c a b d)
    match ← serve u host c a b d with
    | .result v => return (.resume, r.withResult (Int64.ofInt v))
    | .leave k => return (k, r)

end CallM

end PagedKernel
