import PagedKernel.Syscall.Environment

/-!
# Moving buffers between user memory and the host

A buffer is moved in pieces of at most `pieceSize` bytes. A transfer ends when the buffer is done,
when the host takes or gives less than a piece, or at a byte out of reach.

* `inUserSpace`: the buffers that a call accepts.
* `samplePages`: one byte of every page of a buffer is read, so that no output precedes a fault.
* `sendPieces`: user memory to the host.
* `receivePieces`: the host to user memory.
-/

namespace PagedKernel

def pieceSize : Nat := 256

/-- Whether a buffer lies in user space. The null address is no buffer. -/
def inUserSpace (buffer : VirtualAddress) (length : UInt64) : Bool :=
  !buffer.isNull && buffer.val.toNat + length.toNat ≤ userSpaceEnd.toNat

/-- Read one byte of each page from that of `a` to that of `last`, which lies `pages` pages further
on: first `a`, then the first byte of each page between, at the end `last`. -/
def sampleFrom {σ : Type} (u : UserMemory σ) (last : VirtualAddress) :
    Nat → VirtualAddress → Stateful σ (Except UserFault Unit)
  | 0, _ => do return (← u.readByte last).map fun _ => ()
  | pages + 1, a => do
    match ← u.readByte a with
    | .error e => return .error e
    | .ok _ => sampleFrom u last pages (← a.page.base.add pageSize.toNat)

def samplePages {σ : Type} (u : UserMemory σ) (buffer : VirtualAddress) (length : UInt64) :
    Stateful σ (Except UserFault Unit) := do
  let last ← buffer.add (length.toNat - 1)
  let pages := (last.page.base.val - buffer.page.base.val) / pageSize
  sampleFrom u last pages.toNat buffer

namespace CallM

variable {σ η F : Type}

/-- How a transfer ends: with the bytes moved, or at a byte out of reach. -/
abbrev Transfer := Except UserFault Nat

/-- Send the last `left` bytes of a buffer, of which `done` bytes are behind. `send` takes a piece
and tells how much of it was taken. -/
def sendPieces (u : UserMemory σ) (send : List UInt8 → CallM σ η F Nat) (buffer : VirtualAddress)
    (done left : Nat) : CallM σ η F Transfer := do
  if _h : left = 0 then return .ok done
  else
    let n := min left pieceSize
    let src ← buffer.add done
    let (piece, outcome) ← onMemory (u.copyFrom src (List.replicate n 0))
    match outcome with
    | .error e => return .error e
    | .ok () =>
      let sent := min (← send piece) n
      if sent < n then return .ok (done + sent)
      else sendPieces u send buffer (done + n) (left - n)
termination_by left
decreasing_by
  simp only [pieceSize]
  omega

/-- Fill the last `left` bytes of a buffer, of which `done` bytes are behind. `receive` fills a
piece and tells how much of it was filled. What a piece is not filled with stays from the one
before. -/
def receivePieces (u : UserMemory σ) (receive : List UInt8 → CallM σ η F (List UInt8 × Nat))
    (buffer : VirtualAddress) (chunk : List UInt8) (done left : Nat) : CallM σ η F Transfer := do
  if _h : left = 0 then return .ok done
  else
    let n := min left pieceSize
    let (stored, count) ← receive (chunk.take n)
    let chunk := overlay (stored.take n) chunk
    let got := min count n
    let dst ← buffer.add done
    match ← onMemory (u.copyTo dst (chunk.take got)) with
    | .error e => return .error e
    | .ok () =>
      if got < n then return .ok (done + got)
      else receivePieces u receive buffer chunk (done + n) (left - n)
termination_by left
decreasing_by
  simp only [pieceSize]
  omega

end CallM

end PagedKernel
