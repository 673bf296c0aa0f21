/-!
# System calls by number

The fourteen system calls are numbered from zero. Six of them are supported.

* `Call.ofNumber`: the call of a number, or the error that there is none.
* `Call.number`: the number of a call. `ofNumber_number` says that it names the call.
-/

namespace PagedKernel

inductive Call where
  | halt
  | exit
  | fork
  | exec
  | wait
  | create
  | remove
  | openFile
  | fileSize
  | read
  | write
  | seek
  | tell
  | close
deriving DecidableEq, Repr

/-- A number that names no system call. -/
structure UnknownCall where
  number : UInt64
deriving DecidableEq

namespace UnknownCall

instance : ToString UnknownCall := ⟨fun e => s!"unknown system call number {e.number}"⟩

def inspect (e : UnknownCall) : String := s!"UnknownSyscall({e.number})"

end UnknownCall

namespace Call

def all : List Call :=
  [halt, exit, fork, exec, wait, create, remove, openFile, fileSize, read, write, seek, tell, close]

def number (c : Call) : UInt64 := UInt64.ofNat (all.idxOf c)

def ofNumber (w : UInt64) : Except UnknownCall Call :=
  match all[w.toNat]? with
  | some c => .ok c
  | none => .error ⟨w⟩

theorem ofNumber_number (c : Call) : ofNumber c.number = .ok c := by
  cases c <;> rfl

instance : ToString Call where
  toString
    | halt => "halt"
    | exit => "exit"
    | fork => "fork"
    | exec => "exec"
    | wait => "wait"
    | create => "create"
    | remove => "remove"
    | openFile => "open"
    | fileSize => "filesize"
    | read => "read"
    | write => "write"
    | seek => "seek"
    | tell => "tell"
    | close => "close"

def inspect : Call → String
  | halt => "Halt"
  | exit => "Exit"
  | fork => "Fork"
  | exec => "Exec"
  | wait => "Wait"
  | create => "Create"
  | remove => "Remove"
  | openFile => "Open"
  | fileSize => "Filesize"
  | read => "Read"
  | write => "Write"
  | seek => "Seek"
  | tell => "Tell"
  | close => "Close"

end Call

end PagedKernel
