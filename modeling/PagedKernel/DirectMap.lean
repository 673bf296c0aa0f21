import PagedKernel.Violation

/-!
# The direct map

The kernel sees all physical memory at a fixed distance: the byte at physical address `a` has the
alias `directMapBase + a`.

* `PhysicalAddress.alias`: the alias of a physical address.
* `VirtualAddress.physical?`: the address behind an alias; `physical?_of_alias` says that it undoes
  `alias`.
* `DirectMap.physical`, `DirectMap.place`: the same on the hardware's direct map, with the alignment
  that an object needs.
-/

namespace PagedKernel

/-- Where the kernel sees the byte at `a`. -/
def PhysicalAddress.alias (a : PhysicalAddress) : Checked VirtualAddress :=
  VirtualAddress.add ⟨directMapBase⟩ a.val.toNat

def VirtualAddress.physical? (a : VirtualAddress) : Option PhysicalAddress :=
  if directMapBase ≤ a.val then some ⟨a.val - directMapBase⟩ else none

theorem physical?_of_alias {a : PhysicalAddress} {v : VirtualAddress} (h : a.alias = .ok v) :
    v.physical? = some a := by
  unfold PhysicalAddress.alias VirtualAddress.add demand at h
  split at h
  · next hb =>
    cases h
    have hv : v.val.toNat = directMapBase.toNat + a.val.toNat := VirtualAddress.toNat_of_add? hb
    have hLe : directMapBase ≤ v.val := by
      rw [UInt64.le_iff_toNat_le]
      omega
    unfold VirtualAddress.physical?
    rw [if_pos hLe, Option.some.injEq]
    apply PhysicalAddress.ext
    apply UInt64.toNat_inj.1
    rw [UInt64.toNat_sub_of_le _ _ hLe]
    omega
  · cases h

namespace DirectMap

/-- The physical address behind an alias of the hardware's direct map. -/
def physical (a : VirtualAddress) : Checked PhysicalAddress :=
  demand a.physical? (.outsideDirectMap a)

/-- Where the kernel finds an object at `a` whose alignment is `align`. -/
def place (a : PhysicalAddress) (align : UInt64) : Checked VirtualAddress := do
  let v ← a.alias
  unless v.val % align = 0 do throw (.misaligned a)
  return v

end DirectMap

end PagedKernel
