import PagedKernel.Violation

/-!
# User memory

The kernel touches the memory of a process one byte at a time, and every byte may turn out to be out
of reach. `UserMemory` is any way to do that; strings and buffers are built on it.

* `UserMemory.copyFrom`, `UserMemory.copyTo`: a buffer is filled from user memory, or stored there,
  up to the first byte out of reach.
* `UserMemory.readString`: a string that ends in a zero byte is read into a buffer.
-/

namespace PagedKernel

/-- A user address that the process may not access in the way asked for. -/
structure UserFault where
  address : VirtualAddress
deriving DecidableEq

namespace UserFault

instance : ToString UserFault := ⟨fun e => s!"invalid user memory access at {e.address}"⟩

def inspect (e : UserFault) : String := s!"UserFault({e.address.inspect})"

end UserFault

inductive StringError where
  | fault (e : UserFault)
  /-- The buffer of `limit` bytes is full before the string ends. -/
  | tooLong (limit : Nat)
deriving DecidableEq

namespace StringError

instance : ToString StringError where
  toString
    | fault e => toString e
    | tooLong limit => s!"string does not fit into {limit} bytes"

def inspect : StringError → String
  | fault e => s!"Fault({e.inspect})"
  | tooLong limit => s!"TooLong({limit})"

def kind : StringError → String
  | fault _ => "Fault"
  | tooLong _ => "TooLong"

end StringError

/-- A way to access the memory of a process byte by byte, over a state `σ`. -/
structure UserMemory (σ : Type) where
  readByte : VirtualAddress → Stateful σ (Except UserFault UInt8)
  writeByte : VirtualAddress → UInt8 → Stateful σ (Except UserFault Unit)

namespace UserMemory

/-- The address `i` bytes after `base`, as long as it stays in user space. A fault names `base`. -/
def userAddress (base : VirtualAddress) (i : Nat) : Except UserFault VirtualAddress :=
  match base.add? i with
  | some a => if a.isUser then .ok a else .error ⟨base⟩
  | none => .error ⟨base⟩

variable {σ : Type} (u : UserMemory σ)

def readAt (base : VirtualAddress) (i : Nat) : Stateful σ (Except UserFault UInt8) :=
  match userAddress base i with
  | .ok a => u.readByte a
  | .error e => return .error e

def writeAt (base : VirtualAddress) (i : Nat) (b : UInt8) : Stateful σ (Except UserFault Unit) :=
  match userAddress base i with
  | .ok a => u.writeByte a b
  | .error e => return .error e

def copyFromAt (src : VirtualAddress) (i : Nat) :
    List UInt8 → Stateful σ (List UInt8 × Except UserFault Unit)
  | [] => return ([], .ok ())
  | old :: rest => do
    match ← u.readAt src i with
    | .error e => return (old :: rest, .error e)
    | .ok b =>
      let (filled, outcome) ← copyFromAt src (i + 1) rest
      return (b :: filled, outcome)

/-- Fill a buffer with the bytes from `src` on. The answer holds the buffer, which keeps its old
bytes from the first fault on. -/
def copyFrom (src : VirtualAddress) (buffer : List UInt8) :
    Stateful σ (List UInt8 × Except UserFault Unit) :=
  u.copyFromAt src 0 buffer

def copyToAt (dst : VirtualAddress) (i : Nat) : List UInt8 → Stateful σ (Except UserFault Unit)
  | [] => return .ok ()
  | b :: rest => do
    match ← u.writeAt dst i b with
    | .error e => return .error e
    | .ok () => copyToAt dst (i + 1) rest

/-- Store bytes in order, from `dst` on, up to the first fault. -/
def copyTo (dst : VirtualAddress) (bytes : List UInt8) : Stateful σ (Except UserFault Unit) :=
  u.copyToAt dst 0 bytes

def readStringAt (src : VirtualAddress) (limit i : Nat) :
    List UInt8 → Stateful σ (List UInt8 × Except StringError (List UInt8))
  | [] => return ([], .error (.tooLong limit))
  | old :: rest => do
    match ← u.readAt src i with
    | .error e => return (old :: rest, .error (.fault e))
    | .ok b =>
      if b = 0 then return (old :: rest, .ok [])
      let (buffer, outcome) ← readStringAt src limit (i + 1) rest
      return (b :: buffer, outcome.map (b :: ·))

/-- Read the string at `src`, which ends before a zero byte, into a buffer. The answer holds the
buffer and the string; the buffer keeps its old bytes after the string, and the zero byte is not
stored. -/
def readString (src : VirtualAddress) (buffer : List UInt8) :
    Stateful σ (List UInt8 × Except StringError (List UInt8)) :=
  u.readStringAt src buffer.length 0 buffer

end UserMemory

end PagedKernel
