import PagedKernel.Proofs.Table.Addresses

/-!
# The order of addresses

The number of a path is that of the page the path leads to, and the numbers of the upper half are shifted
past the hole when their addresses are extended. So addresses are in the order of the numbers, and where
two paths part, the higher index leads to the higher address.

* `pathNumber_lt_of_suffix`: the order of numbers.
* `VirtualAddress.toNat_ofPath`, `VirtualAddress.ofPath_lt_ofPath`: the address, and the order.
* `VirtualAddress.ofPath_path`: the canonical addresses of pages are those of paths.
-/

namespace PagedKernel

variable {path p q : List TableIndex} {i j : TableIndex}

theorem pathNumber_append (p q : List TableIndex) :
    pathNumber (p ++ q) = pathNumber q * 512 ^ p.length + pathNumber p := by
  induction p with
  | nil => simp [pathNumber]
  | cons i p ih =>
    rw [List.cons_append, pathNumber, pathNumber, ih, List.length_cons, pow_succ, Nat.add_mul,
      Nat.mul_assoc, Nat.add_assoc]

theorem pathNumber_lt (path : List TableIndex) : pathNumber path < 512 ^ path.length := by
  induction path with
  | nil => exact Nat.one_pos
  | cons i path ih =>
    have hIndex := i.isLt
    rw [pathNumber, List.length_cons, pow_succ]
    omega

theorem pathNumber_lt_of_suffix (hp : i :: path <:+ p) (hq : j :: path <:+ q)
    (hLength : p.length = q.length) (h : i < j) : pathNumber p < pathNumber q := by
  obtain ⟨low, rfl⟩ := hp
  obtain ⟨low', rfl⟩ := hq
  have hLow : low.length = low'.length := by simpa using hLength
  have hBound := pathNumber_lt low
  have hDigit : i.val < j.val := h
  have hStep : (pathNumber path * 512 + i.val + 1) * 512 ^ low.length ≤
      (pathNumber path * 512 + j.val) * 512 ^ low.length :=
    Nat.mul_le_mul_right _ (by omega)
  rw [pathNumber_append, pathNumber_append, pathNumber, pathNumber, ← hLow]
  rw [Nat.succ_mul] at hStep
  omega

namespace VirtualAddress

variable {a : VirtualAddress}

/-- The page of a path has the number of the path, or is shifted past the hole. -/
theorem toNat_ofPath (h : path.length = 4) : (ofPath path).val.toNat =
    pathNumber path * 4096 + if pathNumber path < 2 ^ 35 then 0 else 0xffff000000000000 := by
  have hBound := pathNumber_lt path
  rw [h] at hBound
  rw [ofPath, toNat_signExtend, toNat_tableBits h]
  split <;> split <;> omega

theorem isAligned_ofPath (h : path.length = 4) : (ofPath path).isAligned = true := by
  have hNat := toNat_ofPath h
  rw [isAligned, beq_iff_eq, ← UInt64.toNat_inj]
  simp only [UInt64.toNat_mod, UInt64.reduceToNat]
  split at hNat <;> omega

/-- The addresses of paths are in the order of their numbers. -/
theorem ofPath_lt_ofPath (hp : p.length = 4) (hq : q.length = 4) (h : pathNumber p < pathNumber q) :
    (ofPath p).val < (ofPath q).val := by
  rw [UInt64.lt_iff_toNat_lt, toNat_ofPath hp, toNat_ofPath hq]
  split <;> split <;> omega

theorem pathNumber_path (a : VirtualAddress) : pathNumber a.path = a.val.toNat % 2 ^ 48 / 4096 := by
  simp only [path, pathTo, pathNumber, Level.val_indexOf, Level.shift]
  omega

/-- The path of an address leads to the page that holds the canonical address with the same low bits. -/
theorem base_page_signExtend (a : VirtualAddress) : (signExtend a.val).page.base = ofPath a.path := by
  rw [VirtualAddress.ext_iff, ← UInt64.toNat_inj, toNat_base_page, toNat_signExtend,
    toNat_ofPath rfl, pathNumber_path]
  split <;> split <;> omega

theorem ofPath_path (hCanonical : a.isCanonical = true) (hAligned : a.isAligned = true) :
    ofPath a.path = a := by
  have hZero := isAligned_iff.1 hAligned
  rw [← base_page_signExtend, isCanonical_iff.1 hCanonical, VirtualAddress.ext_iff, ← UInt64.toNat_inj,
    toNat_base_page]
  omega

end VirtualAddress

end PagedKernel
