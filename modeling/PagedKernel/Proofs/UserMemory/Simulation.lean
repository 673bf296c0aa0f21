import PagedKernel.Proofs.Stateful.Simulation
import PagedKernel.UserMemory.Basic

/-!
# Two ways to access the memory of a process

Buffers and strings are moved byte by byte. So if two user memories go together on every byte, they do
on everything that is built from bytes. A copy to user memory needs this only of the bytes that it
stores.

* `readAt_simulates`, `copyFrom_simulates`, `readString_simulates`: what reads.
* `copyTo_simulates`: what writes.
* `Operation`, `serveAll`: all that user memory is asked for, in any order.
* `serveAll_simulates`: a sequence of operations.
-/

namespace PagedKernel.UserMemory

open Stateful

variable {σ τ : Type} {V : Violation → Prop} {R : σ → τ → Prop} {u : UserMemory σ}
  {u' : UserMemory τ}

theorem add?_of_userAddress {base a : VirtualAddress} {i : Nat} (h : userAddress base i = .ok a) :
    base.add? i = some a := by
  rw [userAddress] at h
  split at h
  next b hAdd =>
    split at h
    · cases h
      exact hAdd
    · cases h
  next => cases h

section Reading

variable (hRead : ∀ a, Simulates V R (u.readByte a) (u'.readByte a))

include hRead

theorem readAt_simulates (base : VirtualAddress) (i : Nat) :
    Simulates V R (u.readAt base i) (u'.readAt base i) := by
  rw [readAt, readAt]
  cases userAddress base i with
  | ok a => exact hRead a
  | error e => exact .pure _

theorem copyFromAt_simulates (src : VirtualAddress) (i : Nat) (buffer : List UInt8) :
    Simulates V R (u.copyFromAt src i buffer) (u'.copyFromAt src i buffer) := by
  induction buffer generalizing i with
  | nil => exact .pure _
  | cons old rest ih =>
    rw [copyFromAt, copyFromAt]
    refine (readAt_simulates hRead src i).bind ?_
    intro got
    cases got with
    | error e => exact .pure _
    | ok b => exact (ih (i + 1)).bind fun _ => .pure _

theorem copyFrom_simulates (src : VirtualAddress) (buffer : List UInt8) :
    Simulates V R (u.copyFrom src buffer) (u'.copyFrom src buffer) :=
  copyFromAt_simulates hRead src 0 buffer

theorem readStringAt_simulates (src : VirtualAddress) (limit i : Nat) (buffer : List UInt8) :
    Simulates V R (u.readStringAt src limit i buffer) (u'.readStringAt src limit i buffer) := by
  induction buffer generalizing i with
  | nil => exact .pure _
  | cons old rest ih =>
    rw [readStringAt, readStringAt]
    refine (readAt_simulates hRead src i).bind ?_
    intro got
    cases got with
    | error e => exact .pure _
    | ok b =>
      by_cases hEnd : b = 0
      · simp only [hEnd, ↓reduceIte]
        exact .pure _
      · simp only [hEnd, ↓reduceIte]
        exact (ih (i + 1)).bind fun _ => .pure _

theorem readString_simulates (src : VirtualAddress) (buffer : List UInt8) :
    Simulates V R (u.readString src buffer) (u'.readString src buffer) :=
  readStringAt_simulates hRead src buffer.length 0 buffer

end Reading

theorem copyToAt_simulates (dst : VirtualAddress) (i : Nat) (bytes : List UInt8)
    (hWrite : ∀ j < bytes.length, ∀ a, dst.add? (i + j) = some a → ∀ b,
      Simulates V R (u.writeByte a b) (u'.writeByte a b)) :
    Simulates V R (u.copyToAt dst i bytes) (u'.copyToAt dst i bytes) := by
  induction bytes generalizing i with
  | nil => exact .pure _
  | cons b rest ih =>
    have hFirst : Simulates V R (u.writeAt dst i b) (u'.writeAt dst i b) := by
      rw [writeAt, writeAt]
      cases hAddress : userAddress dst i with
      | error e => exact .pure _
      | ok a => exact hWrite 0 (by simp) a (add?_of_userAddress hAddress) b
    have hRest := ih (i + 1) fun j hj a ha =>
      hWrite (j + 1) (by simpa using hj) a (by rwa [Nat.add_right_comm] at ha)
    rw [copyToAt, copyToAt]
    refine hFirst.bind ?_
    intro stored
    cases stored with
    | error e => exact .pure _
    | ok _ => exact hRest

theorem copyTo_simulates (dst : VirtualAddress) (bytes : List UInt8)
    (hWrite : ∀ i < bytes.length, ∀ a, dst.add? i = some a → ∀ b,
      Simulates V R (u.writeByte a b) (u'.writeByte a b)) :
    Simulates V R (u.copyTo dst bytes) (u'.copyTo dst bytes) := by
  refine copyToAt_simulates dst 0 bytes ?_
  intro i hi a ha
  exact hWrite i hi a (by rwa [Nat.zero_add] at ha)

/-! ## Operations -/

inductive Operation where
  | readByte (a : VirtualAddress)
  | writeByte (a : VirtualAddress) (b : UInt8)
  | copyFrom (src : VirtualAddress) (buffer : List UInt8)
  | copyTo (dst : VirtualAddress) (bytes : List UInt8)
  | readString (src : VirtualAddress) (buffer : List UInt8)

inductive Answer where
  | byte (outcome : Except UserFault UInt8)
  | stored (outcome : Except UserFault Unit)
  | filled (buffer : List UInt8) (outcome : Except UserFault Unit)
  | string (buffer : List UInt8) (outcome : Except StringError (List UInt8))

def serve (u : UserMemory σ) : Operation → Stateful σ Answer
  | .readByte a => do return .byte (← u.readByte a)
  | .writeByte a b => do return .stored (← u.writeByte a b)
  | .copyFrom src buffer => do
    let (buffer, outcome) ← u.copyFrom src buffer
    return .filled buffer outcome
  | .copyTo dst bytes => do return .stored (← u.copyTo dst bytes)
  | .readString src buffer => do
    let (buffer, outcome) ← u.readString src buffer
    return .string buffer outcome

def serveAll (u : UserMemory σ) : List Operation → Stateful σ (List Answer)
  | [] => return []
  | o :: rest => do
    let answer ← u.serve o
    let answers ← serveAll u rest
    return answer :: answers

section Serving

variable (hRead : ∀ a, Simulates V R (u.readByte a) (u'.readByte a))
  (hWrite : ∀ a b, Simulates V R (u.writeByte a b) (u'.writeByte a b))

include hRead hWrite

theorem serve_simulates (o : Operation) : Simulates V R (u.serve o) (u'.serve o) := by
  cases o with
  | readByte a => exact (hRead a).bind fun _ => .pure _
  | writeByte a b => exact (hWrite a b).bind fun _ => .pure _
  | copyFrom src buffer => exact (copyFrom_simulates hRead src buffer).bind fun _ => .pure _
  | copyTo dst bytes =>
    exact (copyTo_simulates dst bytes fun _ _ a _ b => hWrite a b).bind fun _ => .pure _
  | readString src buffer => exact (readString_simulates hRead src buffer).bind fun _ => .pure _

theorem serveAll_simulates (operations : List Operation) :
    Simulates V R (u.serveAll operations) (u'.serveAll operations) := by
  induction operations with
  | nil => exact .pure _
  | cons o rest ih =>
    rw [serveAll, serveAll]
    exact (serve_simulates hRead hWrite o).bind fun _ => ih.bind fun _ => .pure _

end Serving

end PagedKernel.UserMemory
