import PagedKernel.Proofs.Machine.Steps
import PagedKernel.Proofs.Memory.DirectMap

/-!
# Byte strings in memory

A byte string is stored byte by byte, from one frame into the next. What is stored can be read back, and no
other byte changes. A string that runs past the end of memory is stored up to there.

* `Memory.limit`, `Memory.holds_iff`: where memory ends.
* `Memory.Patched`: bytes are in place from an address on, and all others are what they were.
  `Memory.Patched.eq`: this says all there is to say.
* `Memory.write_of_le`, `Memory.write_of_lt`, `Memory.write_of_past`: what a write comes to.
* `Memory.write_append`: parts of a string can be written one after the other.
* `Memory.Patched.read`: what was written is read.
* `DirectMap.Pairs.writeAlias_eq`, `DirectMap.Pairs.readAlias_eq`: the same through an alias.
-/

namespace PagedKernel

open Stateful

namespace Memory

variable {m m' m'' : Memory} {p q : PhysicalAddress} {i n : Nat} {b : UInt8} {bytes xs ys : List UInt8}

/-! ## The end of memory -/

/-- The first address past the end. Memory beyond `2 ^ 64` bytes would have no addresses. -/
def limit (m : Memory) : Nat := min (4096 * m.frames) (2 ^ 64)

theorem limit_congr (h : m'.frames = m.frames) : m'.limit = m.limit := by rw [limit, limit, h]

/-- Memory holds the frames of its bytes. -/
theorem holds_iff : m.holds p.frame = true ↔ p.val.toNat < m.limit := by
  have hBound := p.val.toNat_lt
  rw [holds, decide_eq_true_iff, PhysicalAddress.toNat_number_frame, limit]
  omega

theorem load_of_lt (h : p.val.toNat < m.limit) : m.load p = .ok (m.byte p.val.toNat) := by
  rw [load, if_pos (holds_iff.2 h)]

theorem store_of_lt (h : p.val.toNat < m.limit) (b : UInt8) :
    store p b m = .ok () (m.setByte p.val.toNat b) := by
  rw [store, if_pos (holds_iff.2 h)]

theorem store_of_le (h : m.limit ≤ p.val.toNat) (b : UInt8) : store p b m = .error (.beyondMemory p) m := by
  have hNot : ¬ m.holds p.frame = true := fun hHolds => Nat.not_le.2 (holds_iff.1 hHolds) h
  rw [store, if_neg hNot]

/-! ## Bytes in place -/

/-- The bytes are in place from address `i` on, and the other bytes are what they were. -/
structure Patched (m : Memory) (i : Nat) (bytes : List UInt8) (m' : Memory) : Prop where
  frames_eq : m'.frames = m.frames
  inside {k : Nat} {b : UInt8} : bytes[k]? = some b → m'.byte (i + k) = b
  outside {j : Nat} : j < i ∨ i + bytes.length ≤ j → m'.byte j = m.byte j

namespace Patched

theorem nil (m : Memory) (i : Nat) : m.Patched i [] m := ⟨rfl, nofun, fun _ => rfl⟩

theorem eq (h : m.Patched i bytes m') (h' : m.Patched i bytes m'') : m' = m'' := by
  refine ext_byte (h.frames_eq.trans h'.frames_eq.symm) fun j => ?_
  by_cases hIn : i ≤ j ∧ j < i + bytes.length
  · obtain ⟨k, rfl⟩ : ∃ k, j = i + k := ⟨j - i, by omega⟩
    have hByte : bytes[k]? = some bytes[k] := List.getElem?_eq_getElem (by omega)
    rw [h.inside hByte, h'.inside hByte]
  · rw [h.outside (by omega), h'.outside (by omega)]

theorem cons (hi : i < 4096 * m.frames) (h : (m.setByte i b).Patched (i + 1) bytes m') :
    m.Patched i (b :: bytes) m' where
  frames_eq := h.frames_eq.trans (frames_setByte m i b)
  inside {k c} hc := by
    cases k with
    | zero =>
      obtain rfl : b = c := by simpa using hc
      rw [Nat.add_zero, h.outside (Or.inl (Nat.lt_succ_self i)), byte_setByte m hi, if_pos rfl]
    | succ k =>
      have hLater := h.inside (k := k) (b := c) (by simpa using hc)
      rwa [Nat.add_assoc, Nat.add_comm 1 k] at hLater
  outside {j} hj := by
    rw [List.length_cons] at hj
    rw [h.outside (by omega), byte_setByte m hi, if_neg (by omega)]

end Patched

/-! ## Writing -/

theorem writeFrom_of_le (h : p.val.toNat + i + bytes.length ≤ m.limit) :
    ∃ m', writeFrom p i bytes m = .ok () m' ∧ m.Patched (p.val.toNat + i) bytes m' := by
  induction bytes generalizing m i with
  | nil => exact ⟨m, rfl, .nil m _⟩
  | cons b bytes ih =>
    rw [List.length_cons] at h
    have hLimit : m.limit ≤ 4096 * m.frames ∧ m.limit ≤ 2 ^ 64 := ⟨Nat.min_le_left .., Nat.min_le_right ..⟩
    obtain ⟨q, hAdd, hq⟩ := PhysicalAddress.exists_add (a := p) (n := i) (by omega)
    have hStore := store_of_lt (m := m) (p := q) (by omega) b
    have hSame := limit_congr (frames_setByte m q.val.toNat b)
    obtain ⟨m', hRest, hPatched⟩ := @ih (m.setByte q.val.toNat b) (i + 1) (by omega)
    refine ⟨m', ?_, ?_⟩
    · rw [writeFrom, bind_ok (lift_ok hAdd), bind_ok hStore]
      exact hRest
    · rw [hq] at hPatched
      exact .cons (by omega) hPatched

/-- The first byte past the end is not stored. -/
theorem writeFrom_past (h : m.limit ≤ p.val.toNat + i) (hSome : bytes ≠ []) :
    ∃ v, writeFrom p i bytes m = .error v m := by
  obtain ⟨b, rest, rfl⟩ := List.exists_cons_of_ne_nil hSome
  rw [writeFrom]
  by_cases hLt : p.val.toNat + i < 2 ^ 64
  · obtain ⟨q, hAdd, hq⟩ := PhysicalAddress.exists_add hLt
    exact ⟨_, by rw [bind_ok (lift_ok hAdd), bind_error (store_of_le (by omega) b)]⟩
  · exact ⟨_, bind_error (lift_error (PhysicalAddress.add_overflows (Nat.le_of_not_lt hLt)))⟩

theorem writeFrom_append (p : PhysicalAddress) (i : Nat) (xs ys : List UInt8) :
    writeFrom p i (xs ++ ys) = (do writeFrom p i xs; writeFrom p (i + xs.length) ys) := by
  induction xs generalizing i with
  | nil => rfl
  | cons b xs ih =>
    rw [List.cons_append, writeFrom, writeFrom, List.length_cons]
    simp only [ih, bind_assoc, Nat.add_right_comm i 1 xs.length, Nat.add_assoc]

theorem writeFrom_add (hq : q.val.toNat = p.val.toNat + n) (i : Nat) (bytes : List UInt8) :
    writeFrom q i bytes = writeFrom p (n + i) bytes := by
  induction bytes generalizing i with
  | nil => rfl
  | cons b bytes ih =>
    have hAdd : q.add i = p.add (n + i) := by
      by_cases hLt : p.val.toNat + (n + i) < 2 ^ 64
      · obtain ⟨r, hr, hNat⟩ := PhysicalAddress.exists_add hLt
        rw [hr, PhysicalAddress.add_eq_ok]
        omega
      · rw [PhysicalAddress.add_overflows (by omega), PhysicalAddress.add_overflows (by omega)]
    rw [writeFrom, writeFrom, hAdd, ih, Nat.add_assoc]

theorem write_of_le (h : p.val.toNat + bytes.length ≤ m.limit) :
    ∃ m', write p bytes m = .ok () m' ∧ m.Patched p.val.toNat bytes m' :=
  writeFrom_of_le (i := 0) h

/-- Of a longer one that part is stored for which there is room. -/
theorem write_of_lt (h : m.limit < p.val.toNat + bytes.length) (hSome : bytes ≠ []) :
    ∃ v m', write p bytes m = .error v m' ∧ m.Patched p.val.toNat (bytes.take (m.limit - p.val.toNat)) m' := by
  have hLength : (bytes.take (m.limit - p.val.toNat)).length = m.limit - p.val.toNat := by
    rw [List.length_take]
    omega
  have hLeft : bytes.drop (m.limit - p.val.toNat) ≠ [] := by
    have hPos : 0 < bytes.length := List.length_pos_iff.2 hSome
    rw [Ne, List.drop_eq_nil_iff]
    omega
  obtain ⟨m', hStored, hPatched⟩ : ∃ m', write p (bytes.take (m.limit - p.val.toNat)) m = .ok () m' ∧
      m.Patched p.val.toNat (bytes.take (m.limit - p.val.toNat)) m' := by
    rcases Nat.le_total m.limit p.val.toNat with hPast | hBefore
    · rw [Nat.sub_eq_zero_of_le hPast]
      exact ⟨m, rfl, .nil m _⟩
    · exact write_of_le (by omega)
  have hLimit := limit_congr hPatched.frames_eq
  obtain ⟨v, hRest⟩ := writeFrom_past (m := m') (p := p) (i := m.limit - p.val.toNat) (by omega) hLeft
  refine ⟨v, m', ?_, hPatched⟩
  rw [← List.take_append_drop (m.limit - p.val.toNat) bytes, write, writeFrom_append, ← write,
    bind_ok hStored, Nat.zero_add, hLength]
  exact hRest

theorem write_of_past (h : m.limit ≤ p.val.toNat) (hSome : bytes ≠ []) :
    write p bytes m = .error (.beyondMemory p) m := by
  obtain ⟨b, rest, rfl⟩ := List.exists_cons_of_ne_nil hSome
  have hAdd : p.add 0 = .ok p := PhysicalAddress.add_eq_ok.2 rfl
  rw [write, writeFrom, bind_ok (lift_ok hAdd), bind_error (store_of_le h b)]

/-- A string can be written in two parts. -/
theorem write_append (hq : q.val.toNat = p.val.toNat + xs.length) (ys : List UInt8) :
    write p (xs ++ ys) = (do write p xs; write q ys) := by
  simp only [write, writeFrom_append, writeFrom_add hq, Nat.add_zero, Nat.zero_add]

/-! ## Reading -/

theorem readFrom_of_le (h : p.val.toNat + i + n ≤ m.limit) :
    m.readFrom p i n = .ok ((List.range n).map fun k => m.byte (p.val.toNat + i + k)) := by
  induction n generalizing i with
  | zero => rfl
  | succ n ih =>
    have hLimit : m.limit ≤ 2 ^ 64 := Nat.min_le_right ..
    obtain ⟨q, hAdd, hq⟩ := PhysicalAddress.exists_add (a := p) (n := i) (by omega)
    rw [readFrom, hAdd]
    show (do let b ← m.load q; _) = _
    rw [load_of_lt (by omega)]
    show (do let rest ← m.readFrom p (i + 1) n; _) = _
    rw [ih (by omega), List.range_succ_eq_map, List.map_cons, List.map_map]
    refine congrArg Except.ok (congrArg₂ List.cons ?_ (List.map_congr_left fun k _ => ?_))
    · rw [hq, Nat.add_zero]
    · exact congrArg m.byte (by omega)

/-- The bytes that memory has are read. -/
theorem read_of_le (h : p.val.toNat + n ≤ m.limit) :
    m.read p n = .ok ((List.range n).map fun k => m.byte (p.val.toNat + k)) :=
  readFrom_of_le (i := 0) h

/-- What is in place is read. -/
theorem Patched.read (hPatched : m.Patched p.val.toNat bytes m')
    (h : p.val.toNat + bytes.length ≤ m.limit) : m'.read p bytes.length = .ok bytes := by
  rw [read_of_le ((limit_congr hPatched.frames_eq).symm ▸ h)]
  refine congrArg Except.ok (List.ext_getElem (by simp) fun k _ hk => ?_)
  rw [List.getElem_map, List.getElem_range]
  exact hPatched.inside (List.getElem?_eq_getElem hk)

end Memory

/-! ## Through an alias -/

namespace DirectMap.Pairs

variable {p : PhysicalAddress} {v : VirtualAddress}

theorem writeAlias_eq (h : Pairs p v) (bytes : List UInt8) : Memory.writeAlias v bytes = Memory.write p bytes := by
  funext m
  rw [Memory.writeAlias, bind_ok (lift_ok h.behind_eq)]

theorem readAlias_eq (h : Pairs p v) (m : Memory) (n : Nat) : m.readAlias v n = m.read p n := by
  rw [Memory.readAlias, h.behind_eq]
  rfl

end DirectMap.Pairs

end PagedKernel
