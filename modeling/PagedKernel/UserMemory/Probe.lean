import PagedKernel.Probe.Execution
import PagedKernel.UserMemory.Basic

/-!
# User memory through the probes

A byte is touched by running a probe on it. Only user addresses are tried; a fault is recovered, and
the result of the probe tells that it happened. A flag is set while a probe runs, since probes do
not nest.
-/

namespace PagedKernel

namespace ProbeEntries

/-- Run a probe, with the flag set. -/
def probed {α : Type} (f : Stateful LiveMemory α) : Stateful LiveMemory α := do
  let probing := (← get).probing
  modify fun m => { m with probing := true }
  if probing then throw .nestedProbe
  let a ← f
  modify fun m => { m with probing := false }
  return a

/-- The user memory that the processor sees, with the probes at `e`. -/
def userMemory (e : ProbeEntries) : UserMemory LiveMemory where
  readByte a := do
    if a.isUser then
      let result ← probed (e.run readerCode e.reader ⟨e.reader, 0, a, 0⟩)
      return if result < 256 then .ok result.toUInt8 else .error ⟨a⟩
    else
      return .error ⟨a⟩
  writeByte a b := do
    if a.isUser then
      let result ← probed (e.run writerCode e.writer ⟨e.writer, 0, a, b⟩)
      return if result = 0 then .ok () else .error ⟨a⟩
    else
      return .error ⟨a⟩

end ProbeEntries

end PagedKernel
