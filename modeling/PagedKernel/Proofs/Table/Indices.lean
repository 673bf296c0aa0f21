import PagedKernel.Proofs.Address.Pages
import PagedKernel.Proofs.Memory.DirectMap
import PagedKernel.Proofs.Table.Order

/-!
# Addresses and their indices

An address is split into the four indices of its walk and the offset in its page. Laid side by side and
sign-extended, these parts give the canonical address with the same low bits; so they are what there is to
know of a canonical address, and its place in the order of addresses is theirs in the lexicographic order.

* `joinedBits`, `toNat_joinedBits`: indices and an offset side by side, and their number.
* `VirtualAddress.bit_signExtend`: sign extension bit by bit.
* `pathNumber_reverse_lt_iff`: the order of indices is that of the numbers whose digits they are.
* `VirtualAddress.splits_into_indices`: splitting and joining undo each other and respect the order.
-/

namespace PagedKernel

/-! ## Bits side by side -/

theorem toNat_or_of_lt {w v : UInt64} (n : Nat) (hw : w.toNat % 2 ^ n = 0) (hv : v.toNat < 2 ^ n) :
    (w ||| v).toNat = w.toNat + v.toNat := by
  have hHigh : w.toNat = 2 ^ n * (w.toNat / 2 ^ n) := (Nat.mul_div_cancel' (Nat.dvd_of_mod_eq_zero hw)).symm
  rw [UInt64.toNat_or, hHigh, Nat.two_pow_add_eq_or_of_lt hv]

/-- The bits that indices, root first, and an offset stand for, side by side. -/
def joinedBits (indices : List TableIndex) (o : PageOffset) : UInt64 :=
  (indices.zip Level.all).foldl (fun bits p => bits ||| p.2.bitsOf p.1) 0 ||| o.val

theorem toNat_joinedBits (i j k l : TableIndex) (o : PageOffset) :
    (joinedBits [i, j, k, l] o).toNat = pathNumber [l, k, j, i] * 4096 + o.val.toNat := by
  have hO : o.val.toNat < 2 ^ 12 := UInt64.lt_iff_toNat_lt.1 o.lt
  have hI := i.isLt
  have hJ := j.isLt
  have hK := k.isLt
  have hL := l.isLt
  have hPml4 := Level.toNat_bitsOf .pml4 i
  have hPdpt := Level.toNat_bitsOf .pdpt j
  have hPd := Level.toNat_bitsOf .pd k
  have hPt := Level.toNat_bitsOf .pt l
  simp only [Level.shift] at hPml4 hPdpt hPd hPt
  have hTwo := toNat_or_of_lt (w := Level.pml4.bitsOf i) (v := Level.pdpt.bitsOf j) 39 (by omega) (by omega)
  have hThree := toNat_or_of_lt (w := Level.pml4.bitsOf i ||| Level.pdpt.bitsOf j) (v := Level.pd.bitsOf k) 30
    (by omega) (by omega)
  have hFour := toNat_or_of_lt (w := Level.pml4.bitsOf i ||| Level.pdpt.bitsOf j ||| Level.pd.bitsOf k)
    (v := Level.pt.bitsOf l) 21 (by omega) (by omega)
  rw [joinedBits, Level.all]
  simp only [List.zip_cons_cons, List.zip_nil_left, List.foldl_cons, List.foldl_nil, UInt64.zero_or]
  rw [toNat_or_of_lt 12 (by omega) hO]
  simp only [pathNumber]
  omega

/-! ## The order of indices -/

/-- Indices are in the lexicographic order, root first, as the numbers are whose digits they are. -/
theorem pathNumber_reverse_lt_iff {p q : List TableIndex} (h : p.length = q.length) :
    pathNumber p.reverse < pathNumber q.reverse ↔ p < q := by
  induction p generalizing q with
  | nil =>
    obtain rfl : q = [] := List.length_eq_zero_iff.1 h.symm
    simp
  | cons i p ih =>
    match q, h with
    | j :: q, h =>
      have hLength : p.length = q.length := Nat.succ.inj h
      have hP := pathNumber_lt p.reverse
      have hQ := pathNumber_lt q.reverse
      rw [List.length_reverse] at hP hQ
      rw [← hLength] at hQ
      have hLex := mul_add_lt_iff (m := i.val) (n := j.val) hP hQ
      rw [ih hLength, Fin.val_inj, ← Fin.lt_def] at hLex
      rw [List.cons_lt_cons_iff, ← hLex, List.reverse_cons, List.reverse_cons, pathNumber_append,
        pathNumber_append, List.length_reverse, List.length_reverse, ← hLength]
      simp only [pathNumber, Nat.zero_mul, Nat.zero_add]

namespace VirtualAddress

variable {a b : VirtualAddress}

theorem ofPath_lt_iff {p q : List TableIndex} (hp : p.length = 4) (hq : q.length = 4) :
    (ofPath p).val < (ofPath q).val ↔ pathNumber p < pathNumber q := by
  rw [UInt64.lt_iff_toNat_lt, toNat_ofPath hp, toNat_ofPath hq]
  split <;> split <;> omega

theorem ofPath_inj {p q : List TableIndex} (hp : p.length = 4) (hq : q.length = 4) :
    ofPath p = ofPath q ↔ p = q := by
  refine ⟨fun h => ?_, congrArg ofPath⟩
  rw [← path_ofPath hp, h, path_ofPath hq]

theorem pathNumber_inj {p q : List TableIndex} (hp : p.length = 4) (hq : q.length = 4) :
    pathNumber p = pathNumber q ↔ p = q := by
  rw [← ofPath_inj hp hq, VirtualAddress.ext_iff, ← UInt64.toNat_inj, toNat_ofPath hp, toNat_ofPath hq]
  split <;> split <;> omega

theorem base_page_of_isCanonical (h : a.isCanonical = true) : a.page.base = ofPath a.path := by
  rw [← base_page_signExtend, isCanonical_iff.1 h]

/-- The indices, root first, are the path, which has the last index first. -/
theorem reverse_indices (a : VirtualAddress) : a.indices.reverse = a.path := rfl

/-- Canonical addresses are in the order of their indices, and with the same indices in that of their
offsets. -/
theorem lt_iff_indices (ha : a.isCanonical = true) (hb : b.isCanonical = true) :
    a.val < b.val ↔ toLex (a.indices, a.offset.val) < toLex (b.indices, b.offset.val) := by
  have hLt : a.page.base.val < b.page.base.val ↔ a.indices < b.indices := by
    rw [base_page_of_isCanonical ha, base_page_of_isCanonical hb, ofPath_lt_iff rfl rfl, ← reverse_indices,
      ← reverse_indices]
    exact pathNumber_reverse_lt_iff (p := a.indices) (q := b.indices) rfl
  have hEq : a.page.base.val = b.page.base.val ↔ a.indices = b.indices := by
    rw [← VirtualAddress.ext_iff, base_page_of_isCanonical ha, base_page_of_isCanonical hb, ofPath_inj rfl rfl,
      ← reverse_indices, ← reverse_indices, List.reverse_inj]
  rw [lt_iff_toLex, Prod.Lex.toLex_lt_toLex, Prod.Lex.toLex_lt_toLex, ← hLt, ← hEq]
  rfl

/-! ## Sign extension -/

/-- Bit 47 is copied into all bits above it. -/
theorem bit_signExtend (w : UInt64) {i : Nat} (h : i < 64) :
    bit (signExtend w).val i = bit w (min i 47) := by
  have hSign : w.toNat.testBit 47 = true ↔ ¬ w.toNat % 2 ^ 48 < 2 ^ 47 := by
    rw [Nat.testBit_eq_decide_div_mod_eq, decide_eq_true_eq]
    omega
  have hVal : (signExtend w).val.toNat =
      2 ^ 48 * (if w.toNat.testBit 47 then 2 ^ 16 - 1 else 0) + w.toNat % 2 ^ 48 := by
    rw [toNat_signExtend]
    by_cases hHalf : w.toNat % 2 ^ 48 < 2 ^ 47
    · rw [if_pos hHalf, if_neg (mt hSign.1 (not_not_intro hHalf))]
      omega
    · rw [if_neg hHalf, if_pos (hSign.2 hHalf)]
      omega
  simp only [bit, BitVec.getLsbD, UInt64.toNat_toBitVec]
  rw [hVal, Nat.testBit_two_pow_mul_add _ (Nat.mod_lt _ (by decide))]
  by_cases hi : i < 48
  · rw [if_pos hi, Nat.testBit_mod_two_pow, decide_eq_true hi, Bool.true_and, Nat.min_eq_left (by omega)]
  · rw [if_neg hi, Nat.min_eq_right (by omega)]
    cases w.toNat.testBit 47 with
    | true =>
      rw [if_pos rfl, Nat.testBit_two_pow_sub_one]
      exact decide_eq_true (by omega)
    | false => exact Nat.zero_testBit _

theorem isCanonical_iff_bit :
    a.isCanonical = true ↔ ∀ i, 48 ≤ i → i < 64 → bit a.val i = bit a.val 47 := by
  rw [isCanonical_iff]
  constructor
  · intro h i hLow hHigh
    have hBit := bit_signExtend a.val hHigh
    rwa [h, Nat.min_eq_right (by omega)] at hBit
  · intro h
    refine VirtualAddress.ext (eq_of_bit_eq fun i hi => ?_)
    rw [bit_signExtend a.val hi]
    by_cases hLow : i < 48
    · rw [Nat.min_eq_left (by omega)]
    · rw [Nat.min_eq_right (by omega), h i (by omega) hi]

theorem signExtend_congr {w v : UInt64} (h : w.toNat % 2 ^ 48 = v.toNat % 2 ^ 48) :
    signExtend w = signExtend v := by
  rw [VirtualAddress.ext_iff, ← UInt64.toNat_inj, toNat_signExtend, toNat_signExtend, h]

/-! ## Splitting and joining -/

theorem signExtend_joinedBits (a : VirtualAddress) :
    signExtend (joinedBits a.indices a.offset) = signExtend a.val := by
  have hBits : (joinedBits a.indices a.offset).toNat = pathNumber a.path * 4096 + a.offset.val.toNat :=
    toNat_joinedBits ..
  apply signExtend_congr
  rw [hBits, pathNumber_path, toNat_offset]
  omega

section Joined

variable (i j k l : TableIndex) (o : PageOffset)

theorem indices_signExtend : (signExtend (joinedBits [i, j, k, l] o)).indices = [i, j, k, l] := by
  have hO : o.val.toNat < 4096 := UInt64.lt_iff_toNat_lt.1 o.lt
  have hBound : pathNumber [l, k, j, i] < 512 ^ 4 := pathNumber_lt [l, k, j, i]
  have hLow := toNat_signExtend (joinedBits [i, j, k, l] o)
  have hNumber : pathNumber (signExtend (joinedBits [i, j, k, l] o)).path = pathNumber [l, k, j, i] := by
    rw [toNat_joinedBits] at hLow
    rw [pathNumber_path]
    split at hLow <;> omega
  exact congrArg List.reverse ((pathNumber_inj rfl rfl).1 hNumber)

theorem offset_signExtend : (signExtend (joinedBits [i, j, k, l] o)).offset = o := by
  have hO : o.val.toNat < 4096 := UInt64.lt_iff_toNat_lt.1 o.lt
  have hLow := toNat_signExtend (joinedBits [i, j, k, l] o)
  rw [toNat_joinedBits] at hLow
  rw [PageOffset.ext_iff, ← UInt64.toNat_inj, toNat_offset]
  split at hLow <;> omega

end Joined

theorem isUser_iff (h : a.isCanonical = true) : a.isUser = true ↔ (Level.pml4.indexOf a).val < 256 :=
  ⟨indexOf_pml4_lt, isUser_of_isCanonical h⟩

theorem isKernel_iff (h : a.isCanonical = true) : a.isKernel = true ↔ 256 ≤ (Level.pml4.indexOf a).val :=
  ⟨le_indexOf_pml4, isKernel_of_isCanonical h⟩

/-- The indices and the offset of any address, side by side and sign-extended, are the canonical address with
its low bits, which is the address itself just when that is canonical. Four indices and an offset are found
again in the address that they lead to. Canonical addresses are in the lexicographic order of these parts. And
the first index tells the half of the address space. -/
theorem splits_into_indices :
    (∀ a : VirtualAddress, signExtend (joinedBits a.indices a.offset) = signExtend a.val ∧
      (∀ i < 64, bit (signExtend a.val).val i = bit a.val (min i 47)) ∧
      (signExtend a.val).isCanonical = true ∧
      (a.isCanonical = true ↔ ∀ i, 48 ≤ i → i < 64 → bit a.val i = bit a.val 47) ∧
      (signExtend a.val = a ↔ a.isCanonical = true) ∧
      signExtend (signExtend a.val).val = signExtend a.val) ∧
    (∀ (i j k l : TableIndex) (o : PageOffset),
      (signExtend (joinedBits [i, j, k, l] o)).indices = [i, j, k, l] ∧
      (signExtend (joinedBits [i, j, k, l] o)).offset = o) ∧
    (∀ a b : VirtualAddress, a.isCanonical = true → b.isCanonical = true →
      (a.val < b.val ↔ toLex (a.indices, a.offset.val) < toLex (b.indices, b.offset.val))) ∧
    ∀ a : VirtualAddress, (a.val < userSpaceEnd → (Level.pml4.indexOf a).val < 256) ∧
      (kernelSpaceStart ≤ a.val → 256 ≤ (Level.pml4.indexOf a).val) ∧
      (a.isCanonical = true → (a.val < userSpaceEnd ↔ (Level.pml4.indexOf a).val < 256) ∧
        (kernelSpaceStart ≤ a.val ↔ 256 ≤ (Level.pml4.indexOf a).val)) := by
  refine ⟨fun a => ⟨signExtend_joinedBits a, fun i hi => bit_signExtend a.val hi, isCanonical_signExtend a.val,
    isCanonical_iff_bit, isCanonical_iff.symm, isCanonical_iff.1 (isCanonical_signExtend a.val)⟩,
    fun i j k l o => ⟨indices_signExtend i j k l o, offset_signExtend i j k l o⟩,
    fun a b => lt_iff_indices, fun a => ?_⟩
  have hUser : a.isUser = true ↔ a.val < userSpaceEnd := decide_eq_true_iff
  have hKernel : a.isKernel = true ↔ kernelSpaceStart ≤ a.val := decide_eq_true_iff
  rw [← hUser, ← hKernel]
  exact ⟨indexOf_pml4_lt, le_indexOf_pml4, fun h => ⟨isUser_iff h, isKernel_iff h⟩⟩

/-- An address of a user program and one of the direct map are canonical, lie in different halves and compare as
their indices do. An address in the hole between the halves has bit 47 set and bit 60 clear; extended, it has
both. -/
theorem splits_into_indices_halves : ∃ a b hole : VirtualAddress, a.val = 0x7abcdef12345 ∧
    b.val = 0xffff888001234567 ∧ hole.val = 0x800000001000 ∧ a.isCanonical = true ∧ b.isCanonical = true ∧
    toLex (a.indices, a.offset.val) < toLex (b.indices, b.offset.val) ∧
    (a.val < userSpaceEnd ∧ (Level.pml4.indexOf a).val < 256) ∧
    (kernelSpaceStart ≤ b.val ∧ 256 ≤ (Level.pml4.indexOf b).val) ∧ bit b.val 60 = bit b.val 47 ∧
    bit hole.val 60 = false ∧ bit (signExtend hole.val).val 60 = true ∧ signExtend hole.val ≠ hole ∧
    signExtend (joinedBits hole.indices hole.offset) = signExtend hole.val := by
  obtain ⟨hAll, -, hOrder, hHalf⟩ := splits_into_indices
  have hUser : VirtualAddress.isCanonical ⟨0x7abcdef12345⟩ = true := by decide
  have hKernel : VirtualAddress.isCanonical ⟨0xffff888001234567⟩ = true := by decide
  obtain ⟨hLow, -, -⟩ := hHalf ⟨0x7abcdef12345⟩
  obtain ⟨-, -, hIff⟩ := hHalf ⟨0xffff888001234567⟩
  obtain ⟨-, -, -, hCopies, -⟩ := hAll ⟨0xffff888001234567⟩
  obtain ⟨hJoined, hBit, -, -, hSelf, -⟩ := hAll ⟨0x800000001000⟩
  exact ⟨⟨0x7abcdef12345⟩, ⟨0xffff888001234567⟩, ⟨0x800000001000⟩, rfl, rfl, rfl, hUser, hKernel,
    (hOrder _ _ hUser hKernel).1 (by decide), ⟨by decide, hLow (by decide)⟩,
    ⟨by decide, (hIff hKernel).2.1 (by decide)⟩, hCopies.1 hKernel 60 (by decide) (by decide), by decide,
    (hBit 60 (by decide)).trans (by decide), fun h => absurd (hSelf.1 h) (by decide), hJoined⟩

end VirtualAddress

end PagedKernel
