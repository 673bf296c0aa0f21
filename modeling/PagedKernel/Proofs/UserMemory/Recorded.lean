import PagedKernel.Proofs.UserMemory.Simulation

/-!
# Which addresses are read

User memory can write down which addresses it was asked for, and it gives the same answers when it does.
So the addresses that are read are a list that can be talked about.

* `UserMemory.recorded`: user memory with a list of the addresses that were read.
* `UserMemory.addresses`: the addresses of the bytes from one on, as far as they are user addresses.
* `UserMemory.readAt_recorded`: what reading one of these bytes writes down.
-/

namespace PagedKernel.UserMemory

variable {σ : Type}

/-- User memory with a list of the addresses that it was asked to read, latest first. -/
def recorded (u : UserMemory σ) : UserMemory (σ × List VirtualAddress) where
  readByte a := fun (m, trace) =>
    match u.readByte a m with
    | .ok o m => .ok o (m, a :: trace)
    | .error v m => .error v (m, a :: trace)
  writeByte a b := fun (m, trace) =>
    match u.writeByte a b m with
    | .ok o m => .ok o (m, trace)
    | .error v m => .error v (m, trace)

/-- The addresses of the first `n` bytes from `src` on, in order. A byte without a user address has none. -/
def addresses (src : VirtualAddress) (n : Nat) : List VirtualAddress :=
  (List.range n).filterMap fun i => (userAddress src i).toOption

theorem addresses_succ (src : VirtualAddress) (n : Nat) :
    addresses src (n + 1) = addresses src n ++ (userAddress src n).toOption.toList := by
  rw [addresses, List.range_succ, List.filterMap_append, List.filterMap_cons]
  cases userAddress src n <;> rfl

variable {u : UserMemory σ} {src : VirtualAddress} {n : Nat} {m m' : σ} {o : Except UserFault UInt8}

theorem readAt_recorded (h : u.readAt src n m = .ok o m') (trace : List VirtualAddress) :
    u.recorded.readAt src n (m, (addresses src n).reverse ++ trace) =
      .ok o (m', (addresses src (n + 1)).reverse ++ trace) := by
  rw [addresses_succ, List.reverse_append]
  rw [readAt] at h ⊢
  cases hAddress : userAddress src n with
  | error e =>
    rw [hAddress] at h
    cases h
    rfl
  | ok a =>
    rw [hAddress] at h
    have hByte : u.readByte a m = .ok o m' := h
    simp only [recorded, hByte]
    rfl

end PagedKernel.UserMemory
