import PagedKernel.Proofs.Memory.ByteStrings

/-!
# Bytes and entries

A frame is seen as bytes and as a page table. Both views are of the same memory: an entry is the number that
its eight bytes make, lowest first, and to set it is to store those bytes.

* `littleEndian`: the number that bytes make. `littleEndian_bytesOf`: the bytes of a word make that word.
* `Memory.exists_place`: the address of an entry.
* `Memory.littleEndian_entry`, `Memory.patched_setEntry`, `Memory.write_entry`: an entry as bytes.
* `Memory.setTable_set`, `Memory.table_setEntry`: an entry of a table, set in the table or in memory.
* `Memory.object_eq`, `Memory.read_of_object`: where an object can be, and its bytes.
* `Memory.views_agree`: byte strings, entries and objects are views of one memory.
-/

namespace PagedKernel

/-! ## The number that bytes make -/

/-- The number that bytes make, lowest first. -/
def littleEndian : List UInt8 → Nat
  | [] => 0
  | b :: rest => b.toNat + 256 * littleEndian rest

theorem littleEndian_map_range (f : Nat → UInt8) :
    littleEndian ((List.range 8).map f) = (ofBytes f).toNat := by
  rw [toNat_ofBytes]
  rfl

theorem littleEndian_bytesOf (w : UInt64) : littleEndian (bytesOf w) = w.toNat := by
  rw [bytesOf, littleEndian_map_range, ofBytes_byteOf]

@[simp] theorem length_bytesOf (w : UInt64) : (bytesOf w).length = 8 := rfl

namespace PageTable

theorem ext_get {t t' : PageTable} (h : ∀ i, t'.get i = t.get i) : t' = t := by
  obtain ⟨entries⟩ := t
  obtain ⟨entries'⟩ := t'
  exact congrArg PageTable.mk (Vector.ext fun i hi => h ⟨i, hi⟩)

end PageTable

namespace Memory

variable {m m' : Memory} {s : Slot} {f : Frame} {a p : PhysicalAddress} {n : Nat}

/-! ## An entry as bytes -/

theorem exists_place (h : m.holds s.table = true) :
    ∃ q, s.table.base.add (8 * s.index.val) = .ok q ∧ q.val.toNat = s.address ∧
      q.val.toNat + 8 ≤ m.limit := by
  have hIndex := s.index.isLt
  have hNumber := s.table.toNat_number
  have hBound := s.table.base.val.toNat_lt
  have hLe := Slot.address_le h
  obtain ⟨q, hAdd, hq⟩ := PhysicalAddress.exists_add (a := s.table.base) (n := 8 * s.index.val) (by omega)
  refine ⟨q, hAdd, hq, ?_⟩
  rw [limit]
  rw [Slot.address] at hLe
  omega

theorem littleEndian_entry (m : Memory) (s : Slot) :
    littleEndian ((List.range 8).map fun k => m.byte (s.address + k)) = (m.entry s).bits.toNat :=
  littleEndian_map_range _

theorem patched_setEntry (h : m.holds s.table = true) (e : Entry) :
    m.Patched s.address (bytesOf e.bits) (m.setEntry s e) where
  frames_eq := frames_setEntry m s e
  inside {k b} hb := by
    obtain ⟨hk, rfl⟩ := List.getElem?_eq_some_iff.1 hb
    rw [length_bytesOf] at hk
    rw [byte_address_add _ s hk, entry_setEntry h, if_pos rfl]
    simp [bytesOf]
  outside hj := byte_setEntry h e (by simpa using hj)

/-- To store the bytes of an entry where it is, is to set it. -/
theorem write_entry (h : m.holds s.table = true) (hAddress : p.val.toNat = s.address)
    (hRoom : p.val.toNat + 8 ≤ m.limit) (e : Entry) :
    write p (bytesOf e.bits) m = .ok () (m.setEntry s e) := by
  have hEntry : m.Patched p.val.toNat (bytesOf e.bits) (m.setEntry s e) := by
    rw [hAddress]
    exact patched_setEntry h e
  obtain ⟨m', hWrite, hPatched⟩ : ∃ m', write p (bytesOf e.bits) m = .ok () m' ∧
      m.Patched p.val.toNat (bytesOf e.bits) m' := write_of_le hRoom
  rw [hWrite, hPatched.eq hEntry]

/-! ## An entry of a table -/

/-- Memories with the same entries in a frame, and the same bytes elsewhere, are the same. -/
theorem AgreeOn.eq_of_entries (h : AgreeOn (· ≠ f) m m') (hEntry : ∀ i, m'.entry ⟨f, i⟩ = m.entry ⟨f, i⟩) :
    m' = m := by
  refine ext_byte h.frames_eq fun j => ?_
  by_cases hIn : j / 4096 = f.number.toNat
  · obtain ⟨i, k, hk, rfl⟩ := Slot.exists_address hIn
    rw [byte_address_add _ _ hk, byte_address_add _ _ hk, hEntry]
  · refine h.byte_eq j fun g hg => ?_
    rintro rfl
    exact hIn hg.symm

theorem table_setEntry (h : m.holds f = true) (i : TableIndex) (e : Entry) :
    (m.setEntry ⟨f, i⟩ e).table f = (m.table f).set i e := by
  refine PageTable.ext_get fun j => ?_
  rw [get_table, entry_setEntry (s := ⟨f, i⟩) h, PageTable.get_set, get_table]
  simp only [Slot.mk.injEq, true_and]

theorem setTable_set (h : m.holds f = true) (i : TableIndex) (e : Entry) :
    m.setTable f ((m.table f).set i e) = m.setEntry ⟨f, i⟩ e := by
  have hAgree := (agreeOn_setEntry (s := ⟨f, i⟩) h e).symm.trans (agreeOn_setTable h ((m.table f).set i e))
  refine hAgree.eq_of_entries fun j => ?_
  rw [entry_setTable h, if_pos rfl, ← table_setEntry h, get_table]

/-! ## Objects -/

/-- An object must lie in a frame of memory, and not cross its end. -/
theorem object_eq (m : Memory) (a : PhysicalAddress) (n : Nat) :
    m.object a n =
      if a.frame.number.toNat < m.frames then
        if a.offset.val.toNat + n ≤ 4096 then .ok ((List.range n).map fun k => m.byte (a.val.toNat + k))
        else .error (.crossesFrame a)
      else .error (.beyondMemory a) := by
  have hHolds : m.holds a.frame = true ↔ a.frame.number.toNat < m.frames := decide_eq_true_iff
  rw [object, requireObject]
  simp only [← hHolds]
  split
  next hFrame =>
    split
    next => rfl
    next => rfl
  next hFrame => rfl

theorem object_refused_iff : (∃ v, m.object a n = .error v) ↔
    m.frames ≤ a.frame.number.toNat ∨ 4096 < a.offset.val.toNat + n := by
  rw [object_eq]
  split
  next hFrame =>
    split
    next hFits => exact iff_of_false nofun (by omega)
    next hFits => exact iff_of_true ⟨_, rfl⟩ (by omega)
  next hFrame => exact iff_of_true ⟨_, rfl⟩ (by omega)

theorem read_of_object {bytes : List UInt8} (h : m.object a n = .ok bytes) : m.read a n = .ok bytes := by
  have hOffset : a.offset.val.toNat = a.val.toNat % 4096 := UInt64.toNat_mod ..
  have hNumber := a.toNat_number_frame
  have hBound := a.val.toNat_lt
  rw [object_eq] at h
  split at h
  next hFrame =>
    split at h
    next hFits =>
      rw [← h]
      refine read_of_le ?_
      rw [limit]
      omega
    next => cases h
  next => cases h

/-- A string that memory has room for is in place after it is written, and it is read there; it may be written
in parts. Of a string that runs past the end that part is stored for which there is room, and none if it
starts there. An alias is as good as the address behind it. The entries of a table are made of the bytes of
its frame, lowest first, and to set one is to store its bytes. An object must lie within a frame of memory; its
bytes are those that are read there. -/
theorem views_agree (m : Memory) :
    (∀ p bytes, p.val.toNat + bytes.length ≤ m.limit →
      ∃ m', write p bytes m = .ok () m' ∧ m.Patched p.val.toNat bytes m' ∧
        m'.read p bytes.length = .ok bytes) ∧
    (∀ p q xs ys, q.val.toNat = p.val.toNat + xs.length →
      write p (xs ++ ys) m = (write p xs >>= fun _ => write q ys) m) ∧
    (∀ p bytes, m.limit < p.val.toNat + bytes.length → bytes ≠ [] →
      ∃ v m', write p bytes m = .error v m' ∧
        m.Patched p.val.toNat (bytes.take (m.limit - p.val.toNat)) m') ∧
    (∀ p bytes, m.limit ≤ p.val.toNat → bytes ≠ [] → write p bytes m = .error (.beyondMemory p) m) ∧
    (∀ v, directMapBase ≤ v.val → ∃ p, v.val.toNat = directMapBase.toNat + p.val.toNat ∧
      (∀ bytes, writeAlias v bytes m = write p bytes m) ∧ ∀ n, m.readAlias v n = m.read p n) ∧
    (∀ (f : Frame) (i : TableIndex), f.number.toNat < m.frames →
      ∃ q bytes, f.base.add (8 * i.val) = .ok q ∧ m.read q 8 = .ok bytes ∧
        littleEndian bytes = ((m.table f).get i).bits.toNat ∧
        ∀ e, m.setTable f ((m.table f).set i e) = m.setEntry ⟨f, i⟩ e ∧
          (m.setEntry ⟨f, i⟩ e).table f = (m.table f).set i e ∧
          write q (bytesOf e.bits) m = .ok () (m.setEntry ⟨f, i⟩ e) ∧
          m.Patched q.val.toNat (bytesOf e.bits) (m.setEntry ⟨f, i⟩ e) ∧
          littleEndian (bytesOf e.bits) = e.bits.toNat) ∧
    (∀ a n, (∃ v, m.object a n = .error v) ↔
      m.frames ≤ a.frame.number.toNat ∨ 4096 < a.offset.val.toNat + n) ∧
    (∀ a n bytes, m.object a n = .ok bytes → m.read a n = .ok bytes) := by
  refine ⟨fun p bytes hRoom => ?_, fun p q xs ys hq => ?_, fun p bytes => write_of_lt,
    fun p bytes => write_of_past, fun v hBase => ?_, fun f i hFrame => ?_, fun a n => object_refused_iff,
    fun a n bytes => read_of_object⟩
  · obtain ⟨m', hWrite, hPatched⟩ := write_of_le hRoom
    exact ⟨m', hWrite, hPatched, hPatched.read hRoom⟩
  · rw [write_append hq]
  · obtain ⟨p, hPairs⟩ := DirectMap.exists_behind hBase
    refine ⟨p, DirectMap.pairs_iff.1 hPairs, fun bytes => ?_, hPairs.readAlias_eq m⟩
    rw [hPairs.writeAlias_eq]
  · have hHolds : m.holds f = true := decide_eq_true hFrame
    obtain ⟨q, hAdd, hq, hRoom⟩ := exists_place (s := ⟨f, i⟩) hHolds
    refine ⟨q, _, hAdd, read_of_le hRoom, ?_, fun e => ?_⟩
    · rw [hq, littleEndian_entry, get_table]
    · refine ⟨setTable_set hHolds i e, table_setEntry hHolds i e,
        write_entry (s := ⟨f, i⟩) hHolds hq hRoom e, ?_, littleEndian_bytesOf e.bits⟩
      rw [hq]
      exact patched_setEntry (s := ⟨f, i⟩) hHolds e

/-- In a memory of two frames, four bytes go from one to the other; of three that begin two bytes before the end
only two are stored. The second entry of the second frame has its lowest byte at `4104`. -/
theorem views_agree_two : ∃ m' m'' v, 4094 + 4 ≤ (zeroed 2).limit ∧ (zeroed 2).limit < 8190 + 3 ∧
    write ⟨4094⟩ [1, 2, 3, 4] (zeroed 2) = .ok () m' ∧ m'.read ⟨4094⟩ 4 = .ok [1, 2, 3, 4] ∧
    write ⟨8190⟩ [5, 6, 7] (zeroed 2) = .error v m'' ∧ m''.byte 8191 = 6 ∧
    (Frame.ofNumber 1).number.toNat < (zeroed 2).frames ∧
    write ⟨4104⟩ (bytesOf 0x2103) (zeroed 2) =
      .ok () ((zeroed 2).setEntry ⟨.ofNumber 1, 1⟩ ⟨0x2103⟩) := by
  obtain ⟨hRoom, -, hPast, -, -, hEntry, -⟩ := views_agree (zeroed 2)
  obtain ⟨m', hWrite, -, hRead⟩ := hRoom ⟨4094⟩ [1, 2, 3, 4] (by decide)
  obtain ⟨v, m'', hRefused, hPatched⟩ := hPast ⟨8190⟩ [5, 6, 7] (by decide) nofun
  obtain ⟨q, bytes, hAdd, -, -, hSet⟩ := hEntry (.ofNumber 1) 1 (by decide)
  obtain ⟨-, -, hStored, -⟩ := hSet ⟨0x2103⟩
  obtain rfl : q = ⟨4104⟩ := (Except.ok.inj hAdd).symm
  exact ⟨m', m'', v, by decide, by decide, hWrite, hRead, hRefused, hPatched.inside (k := 1) rfl, by decide,
    hStored⟩

end Memory

end PagedKernel
