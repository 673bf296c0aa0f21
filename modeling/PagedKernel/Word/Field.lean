/-!
# Fields of a word

A field is a range of neighbouring bits of a 64-bit word.

* `WordField.flag`, `WordField.frameNumber`: the fields that several words have.
* `WordField.get`, `WordField.put`: reading a field and replacing it.
* `bit_get`, `bit_put`: both, bit by bit.
* `get_put`, `get_put_of_disjoint`: a field reads back what was put there, and a field that shares
  no bit with it reads what it read before.
-/

namespace PagedKernel

def bit (w : UInt64) (i : Nat) : Bool := w.toBitVec.getLsbD i

theorem eq_of_bit_eq {w v : UInt64} (h : ∀ i, i < 64 → bit w i = bit v i) : w = v :=
  UInt64.toBitVec_inj.1 (BitVec.eq_of_getLsbD_eq h)

theorem bit_of_ge (w : UInt64) {i : Nat} (h : 64 ≤ i) : bit w i = false :=
  BitVec.getLsbD_of_ge w.toBitVec i h

theorem bit_and (w v : UInt64) (i : Nat) : bit (w &&& v) i = (bit w i && bit v i) := by
  simp [bit]

theorem bit_or (w v : UInt64) (i : Nat) : bit (w ||| v) i = (bit w i || bit v i) := by
  simp [bit]

theorem bit_not (w : UInt64) {i : Nat} (h : i < 64) : bit (~~~w) i = !bit w i := by
  simp [bit, h]

theorem bit_shiftLeft (w : UInt64) {n i : Nat} (hn : n < 64) (hi : i < 64) :
    bit (w <<< UInt64.ofNat n) i = (decide (n ≤ i) && bit w (i - n)) := by
  rw [bit, UInt64.toBitVec_shiftLeft]
  simp only [bit, Nat.mod_eq_of_lt hn, BitVec.shiftLeft_eq', BitVec.getLsbD_shiftLeft,
    BitVec.toNat_umod, UInt64.toNat_toBitVec, UInt64.toNat_ofNat', BitVec.reduceToNat,
    Nat.mod_eq_of_lt (Nat.lt_trans hn (show 64 < 2 ^ 64 by decide)), hi]
  by_cases h : n ≤ i
  · have : ¬ i < n := by omega
    simp [h, this]
  · have : i < n := by omega
    simp [h, this]

theorem bit_shiftRight (w : UInt64) {n : Nat} (hn : n < 64) (i : Nat) :
    bit (w >>> UInt64.ofNat n) i = bit w (n + i) := by
  rw [bit, UInt64.toBitVec_shiftRight]
  simp only [bit, Nat.mod_eq_of_lt hn, BitVec.ushiftRight_eq', BitVec.getLsbD_ushiftRight,
    BitVec.toNat_umod, UInt64.toNat_toBitVec, UInt64.toNat_ofNat', BitVec.reduceToNat,
    Nat.mod_eq_of_lt (Nat.lt_trans hn (show 64 < 2 ^ 64 by decide))]

/-- A range of bits of a 64-bit word. -/
structure WordField where
  shift : Nat
  width : Nat
  width_pos : 0 < width := by decide
  width_lt : width < 64 := by decide
  fits : shift + width ≤ 64 := by decide

namespace WordField

/-- The field of a single bit, whose number takes six bits itself. -/
def flag (i : BitVec 6) : WordField := { shift := i.toNat, width := 1, fits := i.isLt }

def frameNumber : WordField := { shift := 12, width := 40 }

def max (f : WordField) : UInt64 := (1 <<< UInt64.ofNat f.width) - 1

def get (f : WordField) (w : UInt64) : UInt64 := (w >>> UInt64.ofNat f.shift) &&& f.max

/-- The word `w` with the field replaced by the low bits of `v`. -/
def put (f : WordField) (w v : UInt64) : UInt64 :=
  (w &&& ~~~(f.max <<< UInt64.ofNat f.shift)) ||| ((v &&& f.max) <<< UInt64.ofNat f.shift)

def Disjoint (f g : WordField) : Prop := f.shift + f.width ≤ g.shift ∨ g.shift + g.width ≤ f.shift

theorem toNat_one_shiftLeft {n : Nat} (h : n < 64) :
    ((1 : UInt64) <<< UInt64.ofNat n).toNat = 1 <<< n := by
  have hLt : 2 ^ n < 2 ^ 64 := Nat.pow_lt_pow_right (by decide) h
  have hWord : n < 2 ^ 64 := Nat.lt_trans h (by decide)
  rw [UInt64.toNat_shiftLeft, UInt64.toNat_ofNat', Nat.mod_eq_of_lt hWord, Nat.mod_eq_of_lt h,
    UInt64.toNat_one, Nat.one_shiftLeft, Nat.mod_eq_of_lt hLt]

theorem toNat_max (f : WordField) : f.max.toNat = 1 <<< f.width - 1 := by
  have hShift := toNat_one_shiftLeft f.width_lt
  have hPos : 0 < 1 <<< f.width := by
    rw [Nat.one_shiftLeft]
    exact Nat.two_pow_pos _
  have hLe : 1 ≤ (1 : UInt64) <<< UInt64.ofNat f.width := by
    rw [UInt64.le_iff_toNat_le, hShift]
    exact hPos
  rw [max, UInt64.toNat_sub_of_le _ _ hLe, hShift, UInt64.toNat_one]

theorem bit_max (f : WordField) (i : Nat) : bit f.max i = decide (i < f.width) := by
  rw [bit, BitVec.getLsbD, UInt64.toNat_toBitVec, toNat_max, Nat.one_shiftLeft,
    Nat.testBit_two_pow_sub_one]

theorem bit_get (f : WordField) (w : UInt64) (i : Nat) :
    bit (f.get w) i = (decide (i < f.width) && bit w (f.shift + i)) := by
  have hFits := f.fits
  have hPos := f.width_pos
  rw [get, bit_and, bit_max, bit_shiftRight w (by omega), Bool.and_comm]

theorem bit_put (f : WordField) (w v : UInt64) (i : Nat) :
    bit (f.put w v) i =
      if f.shift ≤ i ∧ i < f.shift + f.width then bit v (i - f.shift) else bit w i := by
  have hFits := f.fits
  have hPos := f.width_pos
  by_cases hi : i < 64
  · have hIff : i < f.shift + f.width ↔ i - f.shift < f.width := by omega
    rw [put, bit_or, bit_and, bit_not _ hi, bit_shiftLeft _ (by omega) hi,
      bit_shiftLeft _ (by omega) hi, bit_and, bit_max]
    simp only [hIff]
    by_cases hLow : f.shift ≤ i <;> by_cases hHigh : i - f.shift < f.width <;> simp [hLow, hHigh]
  · rw [bit_of_ge _ (by omega), bit_of_ge w (by omega), if_neg (by omega)]

theorem get_put (f : WordField) (w : UInt64) {v : UInt64} (h : v ≤ f.max) :
    f.get (f.put w v) = v := by
  apply eq_of_bit_eq
  intro i _
  rw [bit_get, bit_put]
  by_cases hi : i < f.width
  · rw [if_pos ⟨by omega, by omega⟩, show f.shift + i - f.shift = i by omega]
    simp [hi]
  · have hv : v.toNat < 2 ^ i := by
      have hLe := UInt64.le_iff_toNat_le.1 h
      have hPow : 2 ^ f.width ≤ 2 ^ i := Nat.pow_le_pow_right (by decide) (by omega)
      have hPos : 0 < 2 ^ f.width := Nat.two_pow_pos _
      rw [toNat_max, Nat.one_shiftLeft] at hLe
      omega
    simp [hi, bit, BitVec.getLsbD, UInt64.toNat_toBitVec, Nat.testBit_lt_two_pow hv]

theorem get_put_of_disjoint {f g : WordField} (h : f.Disjoint g) (w v : UInt64) :
    g.get (f.put w v) = g.get w := by
  apply eq_of_bit_eq
  intro i _
  rw [bit_get, bit_get, bit_put]
  by_cases hi : i < g.width
  · unfold Disjoint at h
    rw [if_neg (by omega)]
  · simp [hi]

end WordField

end PagedKernel
