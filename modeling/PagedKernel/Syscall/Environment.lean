import PagedKernel.Syscall.DescriptorTable
import PagedKernel.Syscall.Host
import PagedKernel.Syscall.Notice

/-!
# What a system call works on

A call works on the memory of the process, on the host and on the open files of the process, each of
which it changes through a few steps of its own.
-/

namespace PagedKernel

/-- The state that system calls work on: user memory over `σ`, a host over `η`, files of type `F`.
-/
structure CallState (σ η F : Type) where
  memory : σ
  host : η
  files : DescriptorTable F
  log : List CallNotice

abbrev CallM (σ η F α : Type) := Stateful (CallState σ η F) α

/-- What happens to the process after a call. -/
inductive Fate where
  | resume
  /-- It has ended with this status, and its files are closed. -/
  | exit (status : Int)
  | powerOff
deriving DecidableEq

/-- How the body of a call ends. -/
inductive Outcome where
  | result (v : Int)
  | leave (c : Fate)
deriving DecidableEq

namespace CallM

variable {σ η F α : Type}

@[inline] def onMemory (f : Stateful σ α) : CallM σ η F α := fun s =>
  let ⟨memory, host, files, log⟩ := s
  match f memory with
  | .ok a memory => .ok a ⟨memory, host, files, log⟩
  | .error v memory => .error v ⟨memory, host, files, log⟩

@[inline] def onHost (f : η → α × η) : CallM σ η F α := fun s =>
  let ⟨memory, host, files, log⟩ := s
  let (a, host) := f host
  .ok a ⟨memory, host, files, log⟩

@[inline] def onFiles (f : DescriptorTable F → α × DescriptorTable F) : CallM σ η F α := fun s =>
  let ⟨memory, host, files, log⟩ := s
  let (a, files) := f files
  .ok a ⟨memory, host, files, log⟩

@[inline] def askFiles (f : DescriptorTable F → α) : CallM σ η F α := query fun s => .ok (f s.files)

def note (n : CallNotice) : CallM σ η F Unit := modify fun s => { s with log := n :: s.log }

end CallM

end PagedKernel
