import PagedKernel.AddressSpace.Mapping
import PagedKernel.AddressSpace.Release
import PagedKernel.Machine.Boot
import PagedKernel.UserMemory.PageWalk

/-!
# Runs

A caller works with a machine that has booted: it takes frames and gives them back, creates address
spaces, changes and destroys them, and writes memory. A run is what comes of any number of requests,
in any order, in any number of spaces, each with its answer; a request that breaks a precondition is
answered by the violation, and the run goes on from what is left.

The caller keeps to a discipline, which `System.Allowed` spells out: it maps, frees and overwrites
only what it may. For this it keeps books of the frames that it holds: those that it was given and has
neither given back nor mapped, and those that it has unmapped.

What is said about runs is about machines of at most `2 ^ 40` frames. An entry has forty bits to name a
frame, so no more memory than that can be mapped; it is all that a physical address of 52 bits reaches.

* `Request`, `Reply`: what is asked and what comes back.
* `System`, `System.perform`: the machine with the caller's books, and what a request does to both.
* `System.Allowed`: the discipline.
* `Run`: the systems that disciplined requests lead to.
-/

namespace PagedKernel

open MachineM

inductive Request where
  | alloc
  | free (f : Frame)
  | limit (n : Nat)
  | unlimit
  | create
  | map (s : AddressSpace) (page kernelAlias : VirtualAddress) (writable : Bool)
  | unmap (s : AddressSpace) (page : VirtualAddress)
  | markDirty (s : AddressSpace) (a : VirtualAddress) (on : Bool)
  | markAccessed (s : AddressSpace) (a : VirtualAddress) (on : Bool)
  | activate (s : Option AddressSpace)
  | destroy (s : AddressSpace)
  | copyTo (s : AddressSpace) (dst : VirtualAddress) (bytes : List UInt8)
  | copyFrom (s : AddressSpace) (src : VirtualAddress) (buffer : List UInt8)
  | write (p : PhysicalAddress) (bytes : List UInt8)

inductive Reply where
  | done
  | given (f : Option Frame)
  | made (s : AddressSpace)
  | notMade (e : SpaceError)
  | notMapped (e : MapError)
  | copied (outcome : Except UserFault Unit)
  | filled (buffer : List UInt8) (outcome : Except UserFault Unit)
  | broken (v : Violation)

structure Event where
  request : Request
  reply : Reply

/-- A machine that has booted, and the books of its caller. -/
structure System where
  machine : Machine
  kernel : KernelSpace
  /-- The spaces that were created and not destroyed, latest first. -/
  live : List AddressSpace
  held : List Frame

namespace System

def booted (k : KernelSpace) (m : Machine) : System where
  machine := m
  kernel := k
  live := []
  held := []

def withMachine (σ : System) (m : Machine) : System := { σ with machine := m }

def conclude {α : Type} (σ : System) (x : MachineM α) (after : α → System → Reply × System) :
    Reply × System :=
  match x σ.machine with
  | .ok a m => after a (σ.withMachine m)
  | .error v m => (.broken v, σ.withMachine m)

def frameAt (σ : System) (s : AddressSpace) (page : VirtualAddress) : List Frame :=
  match s.translate σ.machine.memory page with
  | .ok (some p) => [p.frame]
  | _ => []

/-- The books after a page was mapped to the frame behind an alias. -/
def giveUp (σ : System) (kernelAlias : VirtualAddress) : System :=
  match Memory.behind kernelAlias with
  | .ok p => { σ with held := σ.held.erase p.frame }
  | .error _ => σ

/-- The reply to a request, and the system then. -/
def perform (σ : System) : Request → Reply × System
  | .alloc => σ.conclude takeFrame? fun f σ => (.given f, { σ with held := f.toList ++ σ.held })
  | .free f => σ.conclude (giveFrame f) fun _ σ => (.done, { σ with held := σ.held.erase f })
  | .limit n =>
    (.done, σ.withMachine { σ.machine with frames := σ.machine.frames.limitTo n })
  | .unlimit => (.done, σ.withMachine { σ.machine with frames := σ.machine.frames.unlimited })
  | .create => σ.conclude (AddressSpace.create σ.kernel) fun
    | .ok s, σ => (.made s, { σ with live := s :: σ.live })
    | .error e, σ => (.notMade e, σ)
  | .map s page kernelAlias writable => σ.conclude (s.map page kernelAlias writable) fun
    | .ok (), σ => (.done, σ.giveUp kernelAlias)
    | .error e, σ => (.notMapped e, σ)
  | .unmap s page =>
    let back := σ.frameAt s page
    σ.conclude (s.unmap page) fun _ σ => (.done, { σ with held := back ++ σ.held })
  | .markDirty s a on => σ.conclude (s.markDirty a on) fun _ σ => (.done, σ)
  | .markAccessed s a on => σ.conclude (s.markAccessed a on) fun _ σ => (.done, σ)
  | .activate s => σ.conclude (AddressSpace.activate? s σ.kernel) fun _ σ => (.done, σ)
  | .destroy s => σ.conclude s.destroy fun _ σ => (.done, { σ with live := σ.live.erase s })
  | .copyTo s dst bytes => σ.conclude (s.userMemory.copyTo dst bytes) fun o σ => (.copied o, σ)
  | .copyFrom s src buffer =>
    σ.conclude (s.userMemory.copyFrom src buffer) fun o σ => (.filled o.1 o.2, σ)
  | .write p bytes => σ.conclude (onMemory (Memory.write p bytes)) fun _ σ => (.done, σ)

/-- The caller knows the space: it is live, or the kernel's own. -/
def Knows (σ : System) (s : AddressSpace) : Prop := s ∈ σ.live ∨ s = σ.kernel.view

/-- The caller may write the frame: it holds it, or has mapped it as a user page. -/
def MayWrite (σ : System) (f : Frame) : Prop :=
  f ∈ σ.held ∨ ∃ s ∈ σ.live, ∃ a, a.isUser = true ∧ f ∈ σ.frameAt s a

/-- The discipline of the caller. -/
def Allowed (σ : System) : Request → Prop
  | .alloc | .limit _ | .unlimit | .create => True
  | .free f => f ∈ σ.held
  | .map s _ kernelAlias _ => σ.Knows s ∧ ∀ p, Memory.behind kernelAlias = .ok p → p.frame ∈ σ.held
  | .unmap s _ | .markDirty s _ _ | .markAccessed s _ _ | .destroy s | .copyTo s _ _
  | .copyFrom s _ _ => σ.Knows s
  | .activate s => ∀ s', s = some s' → σ.Knows s'
  | .write p bytes => ∀ i < bytes.length, ∀ q, p.add i = .ok q → σ.MayWrite q.frame

end System

/-- Disciplined requests lead from one system to another. The events are listed latest first. -/
inductive Run (start : System) : List Event → System → Prop
  | start : Run start [] start
  | next {events : List Event} {σ : System} (before : Run start events σ) (request : Request)
      (hAllowed : σ.Allowed request) :
      Run start (⟨request, (σ.perform request).1⟩ :: events) (σ.perform request).2

end PagedKernel
