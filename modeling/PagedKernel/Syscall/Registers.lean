import PagedKernel.Violation

/-!
# The registers of a system call

A process asks for a system call with its number in `rax` and up to six arguments; the result comes
back in `rax`.

    rax      number in, result out
    rdi, rsi, rdx, r10, r8, r9      arguments, in order
-/

namespace PagedKernel

/-- The registers of a process at the moment it asked for a system call. -/
structure Registers where
  /-- The number of the call, then its result. -/
  rax : UInt64 := 0
  rdi : UInt64 := 0
  rsi : UInt64 := 0
  rdx : UInt64 := 0
  r10 : UInt64 := 0
  r8 : UInt64 := 0
  r9 : UInt64 := 0
  rip : UInt64 := 0
  rflags : UInt64 := 0
  rsp : UInt64 := 0
deriving DecidableEq

namespace Registers

def ofCall (number a b c : UInt64) : Registers := { rax := number, rdi := a, rsi := b, rdx := c }

def number (r : Registers) : UInt64 := r.rax

def arg (r : Registers) : Nat → Checked UInt64
  | 0 => .ok r.rdi
  | 1 => .ok r.rsi
  | 2 => .ok r.rdx
  | 3 => .ok r.r10
  | 4 => .ok r.r8
  | 5 => .ok r.r9
  | _ => .error .noSuchArgument

def withResult (r : Registers) (v : Int64) : Registers := { r with rax := v.toUInt64 }

def result (r : Registers) : Int64 := r.rax.toInt64

def toList (r : Registers) : List UInt64 :=
  [r.rax, r.rdi, r.rsi, r.rdx, r.r10, r.r8, r.r9, r.rip, r.rflags, r.rsp]

/-- The registers given in order; missing ones are zero. -/
def ofList (ws : List UInt64) : Registers where
  rax := ws.getD 0 0
  rdi := ws.getD 1 0
  rsi := ws.getD 2 0
  rdx := ws.getD 3 0
  r10 := ws.getD 4 0
  r8 := ws.getD 5 0
  r9 := ws.getD 6 0
  rip := ws.getD 7 0
  rflags := ws.getD 8 0
  rsp := ws.getD 9 0

theorem ofList_toList (r : Registers) : ofList r.toList = r := rfl

/-- The signed 32-bit integer in the low half of a register. Descriptors and statuses are passed so;
the high half does not count. -/
def intOf (w : UInt64) : Int := w.toUInt32.toInt32.toInt

end Registers

end PagedKernel
