/-!
# The bytes of a word

A word is stored as eight bytes, lowest first.

* `byteOf`: one byte of a word.
* `ofBytes`: the word of eight bytes.
* `ofBytes_byteOf`, `byteOf_ofBytes`: each undoes the other.
-/

namespace PagedKernel

/-- Byte `k` of a word, counted from the lowest. -/
def byteOf (w : UInt64) (k : Nat) : UInt8 := (w >>> UInt64.ofNat (8 * k)).toUInt8

@[inline] def consByte (b : UInt8) (w : UInt64) : UInt64 := b.toUInt64 + 256 * w

/-- The word whose byte `k` is `f k`. -/
@[inline] def ofBytes (f : Nat → UInt8) : UInt64 :=
  consByte (f 0) (consByte (f 1) (consByte (f 2) (consByte (f 3) (consByte (f 4) (consByte (f 5)
    (consByte (f 6) (f 7).toUInt64))))))

def bytesOf (w : UInt64) : List UInt8 := (List.range 8).map (byteOf w)

theorem toNat_byteOf (w : UInt64) {k : Nat} (hk : k < 8) :
    (byteOf w k).toNat = w.toNat >>> (8 * k) % 256 := by
  have hLt : 8 * k % 2 ^ 64 % 64 = 8 * k := by omega
  simp only [byteOf, UInt64.toNat_toUInt8, UInt64.toNat_shiftRight, UInt64.toNat_ofNat', hLt]

theorem toNat_consByte (b : UInt8) {w : UInt64} (h : w.toNat < 0x100000000000000) :
    (consByte b w).toNat = b.toNat + 256 * w.toNat := by
  have hb := b.toNat_lt
  simp only [consByte, UInt64.toNat_add, UInt64.toNat_mul, UInt8.toNat_toUInt64,
    UInt64.reduceToNat]
  omega

theorem toNat_ofBytes (f : Nat → UInt8) :
    (ofBytes f).toNat = (f 0).toNat + 256 * ((f 1).toNat + 256 * ((f 2).toNat + 256 *
      ((f 3).toNat + 256 * ((f 4).toNat + 256 * ((f 5).toNat + 256 * ((f 6).toNat + 256 *
        (f 7).toNat)))))) := by
  have h1 := (f 1).toNat_lt
  have h2 := (f 2).toNat_lt
  have h3 := (f 3).toNat_lt
  have h4 := (f 4).toNat_lt
  have h5 := (f 5).toNat_lt
  have h6 := (f 6).toNat_lt
  have h7 := (f 7).toNat_lt
  have e7 : (f 7).toUInt64.toNat = (f 7).toNat := UInt8.toNat_toUInt64 _
  have e6 := toNat_consByte (f 6) (w := (f 7).toUInt64) (by omega)
  have e5 := toNat_consByte (f 5) (w := consByte (f 6) _) (by rw [e6]; omega)
  have e4 := toNat_consByte (f 4) (w := consByte (f 5) _) (by rw [e5, e6]; omega)
  have e3 := toNat_consByte (f 3) (w := consByte (f 4) _) (by rw [e4, e5, e6]; omega)
  have e2 := toNat_consByte (f 2) (w := consByte (f 3) _) (by rw [e3, e4, e5, e6]; omega)
  have e1 := toNat_consByte (f 1) (w := consByte (f 2) _) (by rw [e2, e3, e4, e5, e6]; omega)
  rw [ofBytes, toNat_consByte (f 0) (by rw [e1, e2, e3, e4, e5, e6]; omega), e1, e2, e3, e4, e5,
    e6, e7]

theorem byteOf_ofBytes (f : Nat → UInt8) {k : Nat} (hk : k < 8) : byteOf (ofBytes f) k = f k := by
  apply UInt8.toNat_inj.1
  have h0 := (f 0).toNat_lt
  have h1 := (f 1).toNat_lt
  have h2 := (f 2).toNat_lt
  have h3 := (f 3).toNat_lt
  have h4 := (f 4).toNat_lt
  have h5 := (f 5).toNat_lt
  have h6 := (f 6).toNat_lt
  have h7 := (f 7).toNat_lt
  rw [toNat_byteOf _ hk, toNat_ofBytes]
  match k, hk with
  | 0, _ | 1, _ | 2, _ | 3, _ | 4, _ | 5, _ | 6, _ | 7, _ => omega

theorem ofBytes_byteOf (w : UInt64) : ofBytes (byteOf w) = w := by
  apply UInt64.toNat_inj.1
  have hw := w.toNat_lt
  rw [toNat_ofBytes, toNat_byteOf w (by decide), toNat_byteOf w (by decide),
    toNat_byteOf w (by decide), toNat_byteOf w (by decide), toNat_byteOf w (by decide),
    toNat_byteOf w (by decide), toNat_byteOf w (by decide), toNat_byteOf w (by decide)]
  omega

theorem ofBytes_congr {f g : Nat → UInt8} (h : ∀ k, k < 8 → f k = g k) :
    ofBytes f = ofBytes g := by
  simp only [ofBytes, h 0 (by decide), h 1 (by decide), h 2 (by decide), h 3 (by decide),
    h 4 (by decide), h 5 (by decide), h 6 (by decide), h 7 (by decide)]

end PagedKernel
