import PagedKernel.Memory.Basic
import PagedKernel.Proofs.Address.Pages
import PagedKernel.Proofs.Memory.Agreement
import PagedKernel.Proofs.Table.Paths

/-!
# The direct map is a bijection

The physical addresses up to a bound, and the addresses from `directMapBase` on, belong to each other in
pairs. The two ways to find the address behind an alias agree; they refuse what is no alias, and above the
bound there is none.

* `addWord?_eq_some`, `addWord?_eq_none`: the address some bytes on, and when there is none.
* `DirectMap.Pairs`, `DirectMap.pairs_iff`: a physical address with its alias.
* `DirectMap.exists_alias`, `DirectMap.exists_behind`: there is one for either.
* `DirectMap.alias_refused`, `DirectMap.physical_refused`: all others are refused.
* `DirectMap.Pairs.add`: addresses some bytes on belong to each other, too.
* `DirectMap.Pairs.number_lt`: an entry has room for the number of the frame.
-/

namespace PagedKernel

/-! ## Addresses some bytes on -/

theorem addWord?_eq_some {w v : UInt64} {n : Nat} : addWord? w n = some v ↔ v.toNat = w.toNat + n := by
  refine ⟨toNat_of_addWord?, fun h => ?_⟩
  have hSum : w.toNat + n < UInt64.size := by
    rw [← h]
    exact v.toNat_lt
  rw [addWord?, if_pos hSum, Option.some_inj]
  apply UInt64.toNat_inj.1
  rw [UInt64.toNat_add, UInt64.toNat_ofNat', h]
  have : w.toNat + n < 2 ^ 64 := hSum
  omega

theorem addWord?_eq_none {w : UInt64} {n : Nat} : addWord? w n = none ↔ 2 ^ 64 ≤ w.toNat + n := by
  rw [addWord?]
  split
  next hLt =>
    have : w.toNat + n < 2 ^ 64 := hLt
    simpa using this
  next hNot => exact iff_of_true rfl (Nat.not_lt.1 hNot)

theorem exists_addWord? {w : UInt64} {n : Nat} (h : w.toNat + n < 2 ^ 64) : ∃ v, addWord? w n = some v :=
  Option.ne_none_iff_exists'.1 fun hNone => Nat.not_le.2 h (addWord?_eq_none.1 hNone)

namespace VirtualAddress

variable {a b c : VirtualAddress}

theorem add?_eq_some {n : Nat} : a.add? n = some b ↔ b.val.toNat = a.val.toNat + n := by
  rw [add?, Option.map_eq_some_iff, ← addWord?_eq_some]
  exact ⟨fun ⟨_, hWord, hEq⟩ => hEq ▸ hWord, fun hWord => ⟨b.val, hWord, rfl⟩⟩

theorem add?_add? {n k : Nat} (hb : a.add? n = some b) (hc : b.add? k = some c) :
    a.add? (n + k) = some c := by
  rw [add?_eq_some] at *
  omega

theorem exists_add {n : Nat} (h : a.val.toNat + n < 2 ^ 64) :
    ∃ b, a.add n = .ok b ∧ a.add? n = some b := by
  obtain ⟨v, hWord⟩ := exists_addWord? h
  have hAdd : a.add? n = some ⟨v⟩ := by rw [add?, hWord, Option.map_some]
  exact ⟨_, by rw [add, hAdd, demand], hAdd⟩

theorem add_eq_ok {n : Nat} : a.add n = .ok b ↔ b.val.toNat = a.val.toNat + n := by
  rw [← add?_eq_some, add]
  cases a.add? n with
  | none => simp [demand]
  | some c => simp [demand]

theorem add_overflows {n : Nat} (h : 2 ^ 64 ≤ a.val.toNat + n) : a.add n = .error .addressOverflow := by
  rw [add, add?, addWord?_eq_none.2 h]
  rfl

end VirtualAddress

namespace PhysicalAddress

variable {a b : PhysicalAddress} {n : Nat}

theorem add_eq_ok : a.add n = .ok b ↔ b.val.toNat = a.val.toNat + n := by
  rw [add, add?, ← addWord?_eq_some]
  cases addWord? a.val n with
  | none => simp [demand]
  | some v => simp [demand, PhysicalAddress.ext_iff]

theorem add_overflows (h : 2 ^ 64 ≤ a.val.toNat + n) : a.add n = .error .addressOverflow := by
  rw [add, add?, addWord?_eq_none.2 h]
  rfl

theorem exists_add (h : a.val.toNat + n < 2 ^ 64) : ∃ b, a.add n = .ok b ∧ b.val.toNat = a.val.toNat + n := by
  obtain ⟨v, hWord⟩ := exists_addWord? h
  exact ⟨⟨v⟩, add_eq_ok.2 (addWord?_eq_some.1 hWord), addWord?_eq_some.1 hWord⟩

end PhysicalAddress

namespace DirectMap

/-- A physical address with its alias. The two name bytes at the same offset, and the alias is an address
that the tables of the kernel half translate. -/
structure Pairs (p : PhysicalAddress) (v : VirtualAddress) : Prop where
  alias_eq : p.alias = .ok v
  behind_eq : Memory.behind v = .ok p
  physical_eq : physical v = .ok p
  base_le : directMapBase ≤ v.val
  canonical : v.isCanonical = true
  kernel : v.isKernel = true
  offset_eq : v.offset = p.offset

variable {p q : PhysicalAddress} {v w : VirtualAddress}

theorem toNat_base : directMapBase.toNat = 0xffff888000000000 := rfl

/-- An alias lies `directMapBase` above what is behind it. -/
theorem pairs_iff : Pairs p v ↔ v.val.toNat = directMapBase.toNat + p.val.toNat := by
  refine ⟨fun h => VirtualAddress.add_eq_ok.1 h.alias_eq, fun h => ?_⟩
  have hAlias : p.alias = .ok v := VirtualAddress.add_eq_ok.2 h
  have hPhysical := physical?_of_alias hAlias
  have hBound := v.val.toNat_lt
  have hBase := toNat_base
  refine ⟨hAlias, ?_, ?_, ?_, ?_, ?_, ?_⟩
  · rw [Memory.behind, hPhysical, demand]
  · rw [physical, hPhysical, demand]
  · rw [UInt64.le_iff_toNat_le]
    omega
  · have hExtend := VirtualAddress.toNat_signExtend v.val
    rw [if_neg (by omega)] at hExtend
    rw [VirtualAddress.isCanonical_iff, VirtualAddress.ext_iff, ← UInt64.toNat_inj]
    omega
  · have hStart : kernelSpaceStart.toNat = 0xffff800000000000 := rfl
    rw [VirtualAddress.isKernel, decide_eq_true_eq, UInt64.le_iff_toNat_le]
    omega
  · rw [PageOffset.ext_iff, ← UInt64.toNat_inj, VirtualAddress.toNat_offset]
    show _ = (p.val % 4096).toNat
    rw [UInt64.toNat_mod]
    simp only [UInt64.reduceToNat]
    omega

/-- There is room for aliases up to this physical address. -/
theorem exists_alias (h : p.val.toNat ≤ 2 ^ 64 - 1 - directMapBase.toNat) : ∃ v, Pairs p v := by
  have hBase := toNat_base
  obtain ⟨v, hAlias, -⟩ :=
    @VirtualAddress.exists_add ⟨directMapBase⟩ p.val.toNat (by simp only [hBase] at h ⊢; omega)
  exact ⟨v, pairs_iff.2 (VirtualAddress.add_eq_ok.1 hAlias)⟩

theorem alias_refused (h : ¬ p.val.toNat ≤ 2 ^ 64 - 1 - directMapBase.toNat) :
    p.alias = .error .addressOverflow := by
  have hBase := toNat_base
  exact VirtualAddress.add_overflows (by simp only [hBase] at h ⊢; omega)

theorem exists_behind (h : directMapBase ≤ v.val) : ∃ p, Pairs p v := by
  have hLe := UInt64.le_iff_toNat_le.1 h
  refine ⟨⟨v.val - directMapBase⟩, pairs_iff.2 ?_⟩
  rw [UInt64.toNat_sub_of_le _ _ h]
  omega

theorem physical_refused (h : ¬ directMapBase ≤ v.val) :
    Memory.behind v = .error (.notKernelAlias v) ∧ physical v = .error (.outsideDirectMap v) := by
  have hNone : v.physical? = none := if_neg h
  rw [Memory.behind, physical, hNone]
  exact ⟨rfl, rfl⟩

/-- What is found behind an address has that address for its alias. -/
theorem pairs_of_behind (h : Memory.behind v = .ok p) : Pairs p v := by
  by_cases hLe : directMapBase ≤ v.val
  · obtain ⟨q, hq⟩ := exists_behind hLe
    rw [hq.behind_eq] at h
    cases h
    exact hq
  · rw [(physical_refused hLe).1] at h
    cases h

theorem pairs_of_alias (h : p.alias = .ok v) : Pairs p v := pairs_iff.2 (VirtualAddress.add_eq_ok.1 h)

namespace Pairs

theorem add (h : Pairs p v) {n : Nat} (hw : w.val.toNat = v.val.toNat + n)
    (hq : q.val.toNat = p.val.toNat + n) : Pairs q w := by
  have hSum := pairs_iff.1 h
  exact pairs_iff.2 (by omega)

/-- The direct map is too small for a frame whose number does not fit an entry. -/
theorem number_lt (h : Pairs p v) : p.frame.number.toNat < 2 ^ 40 := by
  have hSum := pairs_iff.1 h
  have hBound := v.val.toNat_lt
  have hBase := toNat_base
  rw [PhysicalAddress.toNat_number_frame]
  omega

theorem number_le (h : Pairs p v) : p.frame.number ≤ Entry.Field.frameNumber.range.max := by
  have hLt := h.number_lt
  have hMax : Entry.Field.frameNumber.range.max.toNat = 2 ^ 40 - 1 := by decide
  rw [UInt64.le_iff_toNat_le, hMax]
  omega

end Pairs

end DirectMap

end PagedKernel
