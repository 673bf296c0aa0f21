import Mathlib.Algebra.Group.Nat.Defs
import PagedKernel.Table.Entry

/-!
# What the composed entries say

An entry is read and edited field by field, and different fields share no bit. From this follows
what every entry that is ever composed says: a link points at its table and allows everything, a
leaf maps its frame with the permissions that were asked for, and none of them is a huge page.

* `Entry.flag_putFlag`: a flag after an edit.
* `Entry.target_eq_some`: when an entry points at a frame.
* `Entry.link_eq`, `Entry.userLeaf_eq`, `Entry.kernelLeaf_eq`: composing succeeds for frame numbers
  of forty bits; `Entry.target_compose`, `Entry.flag_compose` and `Entry.bits_compose_link` say what
  comes out.
-/

namespace PagedKernel

namespace Frame

theorem ofNumber_number (f : Frame) : ofNumber f.number = f := by
  have hAligned := congrArg UInt64.toNat f.aligned
  have hBound := f.base.val.toNat_lt
  simp only [UInt64.toNat_mod, UInt64.reduceToNat] at hAligned
  apply Frame.ext
  apply PhysicalAddress.ext
  apply UInt64.toNat_inj.1
  simp only [ofNumber, number, UInt64.toNat_mul, UInt64.toNat_div, UInt64.reduceToNat]
  omega

theorem toNat_number (f : Frame) : f.number.toNat * 4096 = f.base.val.toNat := by
  have hAligned := congrArg UInt64.toNat f.aligned
  simp only [UInt64.toNat_mod, UInt64.reduceToNat] at hAligned
  simp only [number, UInt64.toNat_div, UInt64.reduceToNat]
  omega

theorem toNat_number_ofNumber {n : Nat} (h : n < 2 ^ 52) :
    (ofNumber (UInt64.ofNat n)).number.toNat = n := by
  simp only [ofNumber, number, UInt64.toNat_div, UInt64.toNat_mul, UInt64.toNat_ofNat',
    UInt64.reduceToNat]
  omega

end Frame

namespace Entry

theorem Field.range_disjoint {f g : Field} (h : f ≠ g) : f.range.Disjoint g.range := by
  unfold WordField.Disjoint
  cases f <;> cases g <;> first | exact absurd rfl h | decide

theorem get_put (e : Entry) {f : Field} {v : UInt64} (h : v ≤ f.range.max) :
    (e.put f v).get f = v :=
  f.range.get_put e.bits h

theorem get_put_of_ne (e : Entry) {f g : Field} (h : f ≠ g) (v : UInt64) :
    (e.put f v).get g = e.get g :=
  WordField.get_put_of_disjoint (Field.range_disjoint h) e.bits v

theorem flag_put_of_ne (e : Entry) {f g : Field} (h : f ≠ g) (v : UInt64) :
    (e.put f v).flag g = e.flag g := by
  rw [flag, get_put_of_ne e h, ← flag]

@[simp] theorem get_empty (f : Field) : empty.get f = 0 := by
  simp [get, empty, WordField.get]

@[simp] theorem flag_empty (f : Field) : empty.flag f = false := by
  simp [flag]

theorem flag_putFlag (e : Entry) {f : Field} (h : f.isFlag = true) (on : Bool) (g : Field) :
    (e.putFlag f on).flag g = if g = f then on else e.flag g := by
  by_cases hg : g = f
  · subst hg
    have hMax : g.range.max = 1 := by
      have hWidth : g.range.width = 1 := by simpa [Field.isFlag] using h
      rw [WordField.max, hWidth]
      rfl
    rw [if_pos rfl, flag, putFlag, get_put _ (by rw [hMax]; cases on <;> decide)]
    cases on <;> rfl
  · rw [if_neg hg, putFlag, flag_put_of_ne e (Ne.symm hg)]

theorem get_putFlag_of_ne (e : Entry) {f g : Field} (h : f ≠ g) (on : Bool) :
    (e.putFlag f on).get g = e.get g :=
  get_put_of_ne e h _

/-! ## The frame of an entry -/

theorem target_eq_some {e : Entry} {f : Frame} :
    e.target = .ok (some f) ↔
      e.present = true ∧ e.flag .pageSize = false ∧ Frame.ofNumber (e.get .frameNumber) = f := by
  rw [target]
  split
  next hPresent =>
    split
    next hHuge => simp [hHuge]
    next hHuge => simp [hPresent, hHuge]
  next hPresent => simp [hPresent]

theorem target_eq_none {e : Entry} : e.target = .ok none ↔ e.present = false := by
  rw [target]
  split
  next hPresent => split <;> simp [hPresent]
  next hPresent => simp [hPresent]

theorem target_of_not_huge {e : Entry} (h : e.flag .pageSize = false) :
    e.target = .ok (if e.present then some (Frame.ofNumber (e.get .frameNumber)) else none) := by
  rw [target, h]
  split <;> rfl

@[simp] theorem present_empty : empty.present = false := flag_empty .present

@[simp] theorem target_empty : empty.target = .ok none := target_eq_none.2 present_empty

/-! ## The entries that are composed -/

/-- A present entry for the frame `f`, writable or not, with one more flag set. -/
def compose (writable : Bool) (third : Field) (f : Frame) : Entry :=
  (((empty.putFlag .present true).putFlag .writable writable).putFlag third true).put
    .frameNumber f.number

theorem set_frameNumber (e : Entry) {f : Frame} (h : f.number.toNat < 2 ^ 40) :
    e.set .frameNumber f.number = .ok (e.put .frameNumber f.number) := by
  have hMax : Field.frameNumber.range.max.toNat = 2 ^ 40 - 1 := by decide
  have hLe : f.number ≤ Field.frameNumber.range.max := by
    rw [UInt64.le_iff_toNat_le]
    omega
  rw [set, set?, if_pos hLe]
  rfl

theorem link_eq {f : Frame} (h : f.number.toNat < 2 ^ 40) : link f = .ok (compose true .user f) :=
  set_frameNumber _ h

theorem userLeaf_eq {f : Frame} (h : f.number.toNat < 2 ^ 40) (writable : Bool) :
    userLeaf f writable = .ok (compose writable .user f) :=
  set_frameNumber _ h

theorem kernelLeaf_eq {f : Frame} (h : f.number.toNat < 2 ^ 40) (writable : Bool) :
    kernelLeaf f writable = .ok (compose writable .global f) :=
  set_frameNumber _ h

theorem kernelLeaf_error {f : Frame} (h : ¬ f.number.toNat < 2 ^ 40) (writable : Bool) :
    kernelLeaf f writable = .error (.fieldOverflow Field.frameNumber.range.max) := by
  have hMax : Field.frameNumber.range.max.toNat = 2 ^ 40 - 1 := by decide
  have hGt : ¬ f.number ≤ Field.frameNumber.range.max := by
    rw [UInt64.le_iff_toNat_le]
    omega
  rw [kernelLeaf, set, set?, if_neg hGt]
  rfl

theorem flag_compose (writable : Bool) {third g : Field} (hThird : third.isFlag = true)
    (hg : g ≠ .frameNumber) (f : Frame) :
    (compose writable third f).flag g =
      if g = third then true else if g = .writable then writable else decide (g = .present) := by
  rw [compose, flag_put_of_ne _ (Ne.symm hg), flag_putFlag _ hThird, flag_putFlag _ rfl,
    flag_putFlag _ rfl, flag_empty]
  by_cases hPresent : g = .present <;> simp [hPresent]

theorem get_frameNumber_compose (writable : Bool) (third : Field) {f : Frame}
    (h : f.number.toNat < 2 ^ 40) : (compose writable third f).get .frameNumber = f.number := by
  have hMax : Field.frameNumber.range.max.toNat = 2 ^ 40 - 1 := by decide
  refine get_put _ ?_
  rw [UInt64.le_iff_toNat_le]
  omega

theorem target_compose (writable : Bool) (third : Field) (hThird : third.isFlag = true)
    (hSmall : third ≠ .pageSize) {f : Frame} (h : f.number.toNat < 2 ^ 40) :
    (compose writable third f).target = .ok (some f) := by
  refine target_eq_some.2 ⟨?_, ?_, ?_⟩
  · rw [present, flag_compose writable hThird (by decide)]
    simp
  · rw [flag_compose writable hThird (by decide), if_neg hSmall.symm]
    simp
  · rw [get_frameNumber_compose writable third h, Frame.ofNumber_number]

/-- A frame number is put above twelve bits of flags. -/
theorem put_frameNumber {f : Frame} (h : f.number.toNat < 2 ^ 40) (low : UInt64)
    (hLow : low.toNat < 2 ^ 12) :
    Field.frameNumber.range.put low f.number = f.base.val ||| low := by
  have hBase : f.base.val.toNat = f.number.toNat * 2 ^ 12 := f.toNat_number.symm
  apply eq_of_bit_eq
  intro i _
  rw [WordField.bit_put, bit_or]
  simp only [bit, BitVec.getLsbD, UInt64.toNat_toBitVec, hBase, Nat.testBit_mul_two_pow,
    Field.range, WordField.frameNumber]
  by_cases hi : 12 ≤ i
  · have hFlags : low.toNat.testBit i = false :=
      Nat.testBit_lt_two_pow (Nat.lt_of_lt_of_le hLow (Nat.pow_le_pow_right (by decide) hi))
    by_cases hHigh : i < 12 + 40
    · rw [if_pos ⟨hi, hHigh⟩, hFlags, Bool.or_false, decide_eq_true hi, Bool.true_and]
    · have hAbove : f.number.toNat.testBit (i - 12) = false :=
        Nat.testBit_lt_two_pow (Nat.lt_of_lt_of_le h (Nat.pow_le_pow_right (by decide) (by omega)))
      rw [if_neg (by omega), hFlags, hAbove, Bool.and_false, Bool.or_false]
  · rw [if_neg (by omega), decide_eq_false hi, Bool.false_and, Bool.false_or]

/-- A link has the address of its table and three flags, and nothing else. -/
theorem bits_compose_link {f : Frame} (h : f.number.toNat < 2 ^ 40) :
    (compose true .user f).bits = f.base.val ||| 7 :=
  put_frameNumber h 7 (by decide)

/-- The leaf of a user page has the address of its frame, the flags present and user, and writable if it was
asked for. -/
theorem bits_compose_user {f : Frame} (h : f.number.toNat < 2 ^ 40) (writable : Bool) :
    (compose writable .user f).bits = f.base.val ||| (if writable then 7 else 5) := by
  cases writable with
  | true => exact put_frameNumber h 7 (by decide)
  | false => exact put_frameNumber h 5 (by decide)

/-- The leaf of a kernel page has the address of its frame, the flags present and global, and writable if it
was asked for. -/
theorem bits_compose_kernel {f : Frame} (h : f.number.toNat < 2 ^ 40) (writable : Bool) :
    (compose writable .global f).bits = f.base.val ||| (if writable then 0x103 else 0x101) := by
  cases writable with
  | true => exact put_frameNumber h 0x103 (by decide)
  | false => exact put_frameNumber h 0x101 (by decide)

end Entry

end PagedKernel
