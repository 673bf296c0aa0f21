import PagedKernel.Table.Level

/-!
# Notices of the paging layer

What the paging layer reports while it works, as data; `Notice.text` is how a notice reads in a log.
-/

namespace PagedKernel

inductive Severity where
  | trace
  | debug
  | info
  | warn
deriving DecidableEq, Repr

instance : ToString Severity where
  toString
    | .trace => "TRACE"
    | .debug => "DEBUG"
    | .info => "INFO"
    | .warn => "WARN"

/-- A report of the paging layer. -/
inductive Notice where
  | tableRefused (level : Level) (page : VirtualAddress)
  | rootRefused
  | spaceCreated (root : Frame)
  | mapped (page : VirtualAddress) (frame : Frame) (writable : Bool)
  | unmapped (page : VirtualAddress)
  | spaceDestroyed (root : Frame) (released : Nat)
  | kernelFinished (root : Frame)
  | kernelInstalled (root : Frame)
deriving DecidableEq

namespace Notice

def severity : Notice → Severity
  | tableRefused .. | rootRefused => .warn
  | mapped .. | unmapped .. => .trace
  | spaceCreated .. | spaceDestroyed .. | kernelFinished .. => .debug
  | kernelInstalled .. => .info

def message : Notice → String
  | tableRefused level page => s!"Out of frames for a {level} table while mapping {page}"
  | rootRefused => "Out of frames for a new PML4"
  | spaceCreated root => s!"Created address space {root}"
  | mapped page frame writable => s!"Mapped {page} -> {frame} (writable: {writable})"
  | unmapped page => s!"Unmapped {page}"
  | spaceDestroyed root released => s!"Destroyed address space {root}, released {released} frames"
  | kernelFinished root => s!"Kernel PML4 finished at {root}"
  | kernelInstalled root => s!"Kernel address space installed at {root}"

def text (n : Notice) : String := s!"{n.severity} {n.message}"

end Notice

end PagedKernel
