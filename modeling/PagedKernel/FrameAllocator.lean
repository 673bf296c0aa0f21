import PagedKernel.Violation

/-!
# The frame allocator

The allocator hands out frames and takes them back. Frame zero is never handed out. Frames that come
back are handed out again first, and among those never used the lowest number comes first.

Allocations can be made to fail, to see how callers cope: `limitTo n` lets `n` more requests
through and refuses all later ones until `unlimited`.
-/

namespace PagedKernel

/-- What the allocator has to give and what it has given. -/
structure FrameAllocator where
  free : List Frame
  inUse : List Frame
  /-- The requests that will still be served, if there is a limit. -/
  budget : Option Nat

namespace FrameAllocator

/-- The allocator of a memory of `frames` frames: all but the first are free. -/
def ofFrames (frames : Nat) : FrameAllocator where
  free := (List.range' 1 (frames - 1)).map fun n => Frame.ofNumber (UInt64.ofNat n)
  inUse := []
  budget := none

def limitTo (n : Nat) (a : FrameAllocator) : FrameAllocator := { a with budget := some n }

def unlimited (a : FrameAllocator) : FrameAllocator := { a with budget := none }

/-- Hand out the next free frame, whatever the limit. -/
def pop (a : FrameAllocator) : Option Frame × FrameAllocator :=
  match a.free with
  | [] => (none, a)
  | f :: rest => (some f, { a with free := rest, inUse := a.inUse.insert f })

/-- Serve a request. A limit is charged before it is known whether a frame is left. -/
def alloc (a : FrameAllocator) : Option Frame × FrameAllocator :=
  match a.budget with
  | none => a.pop
  | some 0 => (none, a)
  | some (n + 1) => { a with budget := some n }.pop

def release (f : Frame) : Stateful FrameAllocator Unit := fun a =>
  if f ∈ a.inUse then .ok () { a with free := f :: a.free, inUse := a.inUse.erase f }
  else .error (.notAllocated f) a

end FrameAllocator

end PagedKernel
