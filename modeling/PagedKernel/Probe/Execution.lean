import PagedKernel.Probe.LiveMemory
import PagedKernel.Probe.Recovery

/-!
# The probes as the processor runs them

The two probes, with the place of each instruction after the entry:

    reader                          writer
     0  load the label into rax      0  load the label into rax
     7  read a byte into rax         7  write a byte
    11  return                      10  clear rax
                                    12  return

The label is the address of `return`. An access that faults enters the page-fault handler, which
asks `ProbeEntries.recover` where to go on. A probe that fails thus returns with every bit of `rax`
set.

* `Instruction`, `readerCode`, `writerCode`: the code.
* `ProbeEntries.run`: the processor and the handler together.
-/

namespace PagedKernel

/-- What the probes are made of. -/
inductive Instruction where
  /-- Load into `rax` the address at a distance behind this instruction. -/
  | loadLabel (distance : UInt64)
  | loadByte
  | storeByte
  | clearResult
  | leave
deriving DecidableEq

def Instruction.size : Instruction → UInt64
  | loadLabel _ => 7
  | loadByte => 4
  | storeByte => 3
  | clearResult => 2
  | leave => 1

def readerCode : List Instruction := [.loadLabel 4, .loadByte, .leave]

def writerCode : List Instruction := [.loadLabel 5, .storeByte, .clearResult, .leave]

structure ProbeRegisters where
  rip : UInt64
  /-- The label, then the result. -/
  rax : UInt64
  address : VirtualAddress
  byte : UInt8

namespace ProbeEntries

variable (e : ProbeEntries)

/-- Enter the page-fault handler, and resume as it says. A fault that it does not recover from is
fatal. -/
def handleFault (r : ProbeRegisters) : Stateful LiveMemory ProbeRegisters := do
  match ← e.recover true (← get).probing ⟨r.rip, r.rax⟩ with
  | some c => return { r with rip := c.rip, rax := c.rax }
  | none => throw (.fatalFault r.address)

/-- Run the instructions that lie from `here` on until the return, whose answer is `rax`.
Instructions that `rip` does not point at are passed over: the code has no jumps back. -/
def run : List Instruction → UInt64 → ProbeRegisters → Stateful LiveMemory UInt64
  | [], _, r => throw (.fatalFault ⟨r.rip⟩)
  | i :: code, here, r => do
    let next := here + i.size
    if r.rip ≠ here then
      run code next r
    else
      match i with
      | .loadLabel distance => run code next { r with rip := next, rax := next + distance }
      | .loadByte =>
        match (← get).byte? r.address with
        | some b => run code next { r with rip := next, rax := b.toUInt64 }
        | none => run code next (← e.handleFault r)
      | .storeByte =>
        match (← get).setByte? r.address r.byte with
        | some m =>
          set m
          run code next { r with rip := next }
        | none => run code next (← e.handleFault r)
      | .clearResult => run code next { r with rip := next, rax := 0 }
      | .leave => return r.rax

end ProbeEntries

end PagedKernel
