import PagedKernel.Syscall.Host

/-!
# A host in memory

`SimulatedHost` keeps files and console input in memory and writes down everything it is asked for.
Files and console can be told to do less than asked, or to claim more than they did.

* `SimulatedHost.services`: the host as the system calls see it.
-/

namespace PagedKernel

def atMost (limit : Option Nat) (n : Nat) : Nat :=
  match limit with
  | some k => min k n
  | none => n

/-- A file, with its limits. -/
structure SimulatedFile where
  name : List UInt8
  data : List UInt8
  /-- How many more bytes can be written in all. -/
  growth : Option Nat
  writeLimit : Option Nat
  readLimit : Option Nat
  /-- How many bytes are claimed beyond those moved. -/
  excess : Nat

structure FileHandle where
  id : Nat
  file : Nat
  position : Nat

/-- Something that the host was asked for. -/
inductive HostEvent where
  | powerOff
  | openFile (path : List UInt8) (id : Option Nat)
  | writeConsole (bytes : List UInt8)
  | readConsole (length count : Nat)
  | writeHandle (id : Nat) (bytes : List UInt8) (count : Nat)
  | readHandle (id length count : Nat)
  | closeHandle (id : Nat)

structure SimulatedHost where
  files : Array SimulatedFile
  input : List UInt8
  inputLimit : Option Nat
  /-- How many bytes of input are claimed beyond those given. -/
  inputExcess : Nat
  handles : Nat
  events : List HostEvent

namespace SimulatedHost

def takeEvents (h : SimulatedHost) : List HostEvent × SimulatedHost :=
  (h.events.reverse, { h with events := [] })

def record (h : SimulatedHost) (e : HostEvent) : SimulatedHost := { h with events := e :: h.events }

def newHandle (h : SimulatedHost) (file : Nat) : FileHandle × SimulatedHost :=
  (⟨h.handles, file, 0⟩, { h with handles := h.handles + 1 })

def openFile (path : List UInt8) (h : SimulatedHost) : Option FileHandle × SimulatedHost :=
  match h.files.findIdx? (·.name == path) with
  | some file =>
    let (f, h) := h.newHandle file
    (some f, h.record (.openFile path (some f.id)))
  | none => (none, h.record (.openFile path none))

def readConsole (buffer : List UInt8) (h : SimulatedHost) : (List UInt8 × Nat) × SimulatedHost :=
  let n := atMost h.inputLimit (min buffer.length h.input.length)
  let count := n + h.inputExcess
  ((h.input.take n, count),
    { h with input := h.input.drop n }.record (.readConsole buffer.length count))

def writeHandle (f : FileHandle) (bytes : List UInt8) (h : SimulatedHost) :
    (FileHandle × Nat) × SimulatedHost :=
  match h.files[f.file]? with
  | none => ((f, 0), h)
  | some file =>
    let n := atMost file.writeLimit (atMost file.growth bytes.length)
    let data := file.data.take f.position ++ bytes.take n ++ file.data.drop (f.position + n)
    let count := n + file.excess
    let files := h.files.set! f.file { file with data, growth := file.growth.map (· - n) }
    (({ f with position := f.position + n }, count),
      { h with files }.record (.writeHandle f.id bytes count))

def readHandle (f : FileHandle) (buffer : List UInt8) (h : SimulatedHost) :
    (FileHandle × List UInt8 × Nat) × SimulatedHost :=
  match h.files[f.file]? with
  | none => ((f, [], 0), h)
  | some file =>
    let rest := file.data.drop f.position
    let n := atMost file.readLimit (min buffer.length rest.length)
    let count := n + file.excess
    (({ f with position := f.position + n }, rest.take n, count),
      h.record (.readHandle f.id buffer.length count))

/-- The host as the system calls see it. -/
def services : Host SimulatedHost FileHandle where
  powerOff h := h.record .powerOff
  openFile := openFile
  writeConsole bytes h := h.record (.writeConsole bytes)
  readConsole := readConsole
  writeHandle := writeHandle
  readHandle := readHandle
  closeHandle f h := h.record (.closeHandle f.id)

end SimulatedHost

end PagedKernel
