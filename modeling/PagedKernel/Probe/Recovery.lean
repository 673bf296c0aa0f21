import PagedKernel.Violation

/-!
# Recovery from faults in user memory

Two short routines of the kernel, the probes, touch user memory without asking first whether they
may. Each loads into `rax` the address at which it goes on after a fault. The page-fault handler
asks `ProbeEntries.recover` whether a fault was raised inside a probe and, if so, where to resume.

* `ProbeEntries.covers`: the test on the registers of a fault.
* `ProbeEntries.recover`: the registers to resume with.
-/

namespace PagedKernel

/-- Where the code of the two probes starts. -/
structure ProbeEntries where
  reader : UInt64
  writer : UInt64
deriving DecidableEq

structure FaultContext where
  rip : UInt64
  /-- The result register, in which a probe holds the address to go on at. -/
  rax : UInt64
deriving DecidableEq

namespace ProbeEntries

/-- No probe goes on further than this from its entry. -/
def reach : UInt64 := 16

/-- Whether the fault lies between `entry` and the address to go on at, which is close to `entry`.
-/
def covers (entry : UInt64) (c : FaultContext) : Checked Bool :=
  if entry ≤ c.rip ∧ c.rip < c.rax then
    return (← distance c.rax entry) ≤ reach
  else
    return false

/-- The registers to resume with after a fault in the kernel while a probe runs, if the fault was
raised inside one: execution goes on where the probe wants, and its result says that it failed. -/
def recover (e : ProbeEntries) (kernelMode active : Bool) (c : FaultContext) :
    Checked (Option FaultContext) := do
  if kernelMode && active then
    if ← covers e.reader c then
      return some ⟨c.rax, 0xffffffffffffffff⟩
    else if ← covers e.writer c then
      return some ⟨c.rax, 0xffffffffffffffff⟩
    else
      return none
  else
    return none

end ProbeEntries

end PagedKernel
