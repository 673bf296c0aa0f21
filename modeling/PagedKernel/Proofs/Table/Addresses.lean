import PagedKernel.Proofs.Plan.Maps

/-!
# The address of a path

A traversal adds up the bits of the indices on its way, and reports the canonical address of the sum.
This address has the path that the traversal took, and lies in the half that the path starts in.

* `tableBits`, `VirtualAddress.ofPath`: the sum, and the address.
* `pathNumber`, `toNat_tableBits`: the indices are the digits of a number to the base 512.
* `VirtualAddress.path_ofPath`: the address has the path.
* `VirtualAddress.isKernel_ofPath`, `VirtualAddress.isUser_ofPath`: its half.
-/

namespace PagedKernel

namespace Level

def atDepth : Nat → Level
  | 0 => .pml4
  | 1 => .pdpt
  | 2 => .pd
  | _ => .pt

@[simp] theorem atDepth_depth (level : Level) : atDepth level.depth = level := by
  cases level <;> rfl

theorem toNat_bitsOf (level : Level) (i : TableIndex) :
    (level.bitsOf i).toNat = i.val * 2 ^ level.shift := by
  have hIndex := i.isLt
  simp only [bitsOf, UInt64.toNat_mul, UInt64.toNat_ofNat', toNat_span, Nat.one_shiftLeft]
  cases level <;> simp only [shift] <;> omega

end Level

/-- The address bits that the indices of a path stand for, the last index first. -/
def tableBits : List TableIndex → UInt64
  | [] => 0
  | i :: path => tableBits path + (Level.atDepth path.length).bitsOf i

theorem tableBits_cons {level : Level} {path : List TableIndex} (h : path.length = level.depth)
    (i : TableIndex) : tableBits (i :: path) = tableBits path + level.bitsOf i := by
  rw [tableBits, h, Level.atDepth_depth]

/-- The number whose digits to the base 512 are the indices of a path, the lowest one first. -/
def pathNumber : List TableIndex → Nat
  | [] => 0
  | i :: path => pathNumber path * 512 + i.val

theorem toNat_tableBits {path : List TableIndex} (h : path.length = 4) :
    (tableBits path).toNat = pathNumber path * 4096 := by
  match path, h with
  | [l, k, j, i], _ =>
    have hI := i.isLt
    have hJ := j.isLt
    have hK := k.isLt
    have hL := l.isLt
    simp only [tableBits, pathNumber, List.length_cons, List.length_nil, Level.atDepth,
      UInt64.toNat_add, Level.toNat_bitsOf, Level.shift, UInt64.reduceToNat]
    omega

namespace VirtualAddress

/-- The canonical address that the indices of a path lead to. -/
def ofPath (path : List TableIndex) : VirtualAddress := signExtend (tableBits path)

theorem isCanonical_signExtend (w : UInt64) : (signExtend w).isCanonical = true := by
  have hExtend := toNat_signExtend w
  rw [isCanonical_iff, VirtualAddress.ext_iff, ← UInt64.toNat_inj, toNat_signExtend]
  split at hExtend <;> split <;> omega

theorem isCanonical_ofPath (path : List TableIndex) : (ofPath path).isCanonical = true :=
  isCanonical_signExtend _

theorem path_ofPath {path : List TableIndex} (h : path.length = 4) : (ofPath path).path = path := by
  match path, h with
  | [l, k, j, i], _ =>
    have hI := i.isLt
    have hJ := j.isLt
    have hK := k.isLt
    have hL := l.isLt
    have hBits : (tableBits [l, k, j, i]).toNat = pathNumber [l, k, j, i] * 4096 := toNat_tableBits rfl
    simp only [pathNumber] at hBits
    have hLow := toNat_signExtend (tableBits [l, k, j, i])
    rw [hBits] at hLow
    simp only [VirtualAddress.path, pathTo, ofPath, List.cons.injEq, and_true, Fin.ext_iff,
      Level.val_indexOf, Level.shift]
    split at hLow <;> omega

theorem isKernel_of_isCanonical {a : VirtualAddress} (h : a.isCanonical = true)
    (hUpper : kernelRootStart ≤ (Level.pml4.indexOf a).val) : a.isKernel = true := by
  have hExtend := toNat_signExtend a.val
  rw [isCanonical_iff.1 h] at hExtend
  rw [kernelRootStart_eq, Level.val_indexOf, Level.shift] at hUpper
  rw [isKernel, decide_eq_true_eq, UInt64.le_iff_toNat_le]
  simp only [kernelSpaceStart, UInt64.reduceToNat]
  split at hExtend <;> omega

theorem isUser_eq_false {a : VirtualAddress} (h : a.isKernel = true) : a.isUser = false := by
  have hUpper := le_indexOf_pml4 h
  by_contra hUser
  have hLower := indexOf_pml4_lt (a := a) (by simpa using hUser)
  omega

section Half

variable {path : List TableIndex} (h : path.length = 4)

include h

theorem getLast?_eq_indexOf : path.getLast? = some (Level.pml4.indexOf (ofPath path)) := by
  conv_lhs => rw [← path_ofPath h]
  rfl

theorem isKernel_ofPath : (ofPath path).isKernel = true ↔ InKernelHalf path := by
  rw [InKernelHalf, getLast?_eq_indexOf h]
  simp only [Option.mem_def, Option.some.injEq, forall_eq']
  exact ⟨le_indexOf_pml4, isKernel_of_isCanonical (isCanonical_ofPath path)⟩

theorem isUser_ofPath : (ofPath path).isUser = true ↔ InUserHalf path := by
  rw [InUserHalf, getLast?_eq_indexOf h]
  simp only [Option.mem_def, Option.some.injEq, forall_eq']
  exact ⟨indexOf_pml4_lt, isUser_of_isCanonical (isCanonical_ofPath path)⟩

end Half

end VirtualAddress

end PagedKernel
