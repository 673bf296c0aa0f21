import PagedKernel.Machine.Notice
import PagedKernel.Syscall.Call
import PagedKernel.UserMemory.Basic

/-!
# Notices of the system-call layer

What the system-call layer reports while it works, as data; `CallNotice.text` is how a notice reads
in a log.
-/

namespace PagedKernel

/-- A report of the system-call layer. -/
inductive CallNotice where
  | unknown (e : UnknownCall)
  | called (c : Call) (a b d : UInt64)
  | unsupported (c : Call)
  | poweringOff
  | exited (status : Int)
  | pathFault (e : UserFault)
  | tableFull
  | writeFault (e : UserFault)
  | readFault (e : UserFault)
  | badBuffer (buffer : VirtualAddress) (length : UInt64)
deriving DecidableEq

namespace CallNotice

def severity : CallNotice → Severity
  | unknown _ | pathFault _ | tableFull | writeFault _ | readFault _ | badBuffer .. => .warn
  | called .. => .trace
  | unsupported _ => .debug
  | poweringOff | exited _ => .info

def message : CallNotice → String
  | unknown e => s!"{e}, terminating the caller"
  | called c a b d => s!"syscall {c}({Hex.lower a}, {Hex.lower b}, {Hex.lower d})"
  | unsupported c => s!"syscall {c} is not supported"
  | poweringOff => "Power-off requested"
  | exited status => s!"Process exit({status})"
  | pathFault e => s!"open: {e}"
  | tableFull => "open: descriptor table full"
  | writeFault e => s!"write: {e}"
  | readFault e => s!"read: {e}"
  | badBuffer buffer length => s!"buffer {buffer}+{Hex.lower length} is outside user space"

def text (n : CallNotice) : String := s!"{n.severity} {n.message}"

end CallNotice

end PagedKernel
