import PagedKernel.UserMemory.Basic

/-!
# User memory that fails after a while

Reads succeed a given number of times and are out of reach from then on. Writes are passed on.
-/

namespace PagedKernel

/-- User memory beside a number of reads that it has left. -/
def UserMemory.failing {σ : Type} (u : UserMemory σ) : UserMemory (σ × Nat) where
  readByte a := fun (s, left) =>
    match left with
    | 0 => .ok (.error ⟨a⟩) (s, 0)
    | left + 1 =>
      match u.readByte a s with
      | .ok r s => .ok r (s, left)
      | .error v s => .error v (s, left)
  writeByte a b := fun (s, left) =>
    match u.writeByte a b s with
    | .ok r s => .ok r (s, left)
    | .error v s => .error v (s, left)

end PagedKernel
