import PagedKernel.Memory.Table
import PagedKernel.Proofs.Table.Entries

/-!
# Memories that agree

Every step of paging touches one frame. `Memory.AgreeOn keep m m'` says that two memories hold the
same bytes in all frames that `keep` selects; each way to write memory agrees on all frames but one.

* `Memory.ext_byte`: memories with the same bytes are the same.
* `AgreeOn.entry`: memories that agree on a frame hold the same entries there.
* `agreeOn_setEntry`, `agreeOn_setTable`, `agreeOn_setByte`: what a write leaves alone.
* `setEntry_setEntry_self`: an entry that is put back leaves no trace.
-/

namespace PagedKernel

theorem Frame.eq_of_toNat_number {f g : Frame} (h : f.number.toNat = g.number.toNat) : f = g := by
  rw [← Frame.ofNumber_number f, ← Frame.ofNumber_number g, UInt64.toNat_inj.1 h]

theorem PhysicalAddress.toNat_number_frame (a : PhysicalAddress) :
    a.frame.number.toNat = a.val.toNat / 4096 := by
  have hBound := a.val.toNat_lt
  simp only [frame, Frame.containing, Frame.number, UInt64.toNat_div, UInt64.toNat_mul,
    UInt64.reduceToNat]
  omega

@[simp] theorem Frame.frame_base (f : Frame) : f.base.frame = f := by
  apply Frame.eq_of_toNat_number
  rw [PhysicalAddress.toNat_number_frame, ← Frame.toNat_number]
  omega

namespace Slot

theorem address_div (s : Slot) {k : Nat} (hk : k < 8) :
    (s.address + k) / 4096 = s.table.number.toNat := by
  have hIndex := s.index.isLt
  rw [address, ← Frame.toNat_number]
  omega

/-- Every byte of a frame belongs to one of its slots. -/
theorem exists_address {f : Frame} {j : Nat} (hj : j / 4096 = f.number.toNat) :
    ∃ (i : TableIndex) (k : Nat), k < 8 ∧ j = (⟨f, i⟩ : Slot).address + k := by
  refine ⟨⟨j % 4096 / 8, by omega⟩, j % 8, by omega, ?_⟩
  rw [address, ← Frame.toNat_number]
  simp only
  omega

end Slot

namespace Memory

theorem ext_byte {m m' : Memory} (hFrames : m'.frames = m.frames)
    (hByte : ∀ j, m'.byte j = m.byte j) : m' = m := by
  obtain ⟨bytes, frames, hSize⟩ := m
  obtain ⟨bytes', frames', hSize'⟩ := m'
  obtain rfl : frames' = frames := hFrames
  have hBytes : bytes' = bytes := by
    apply ByteArray.ext_getElem (hSize'.trans hSize.symm)
    intro i hi hi'
    have h := hByte i
    simpa only [byte, hi, hi', ↓reduceDIte] using h
  subst hBytes
  rfl

/-- The byte at `j` read off the entry that holds it. -/
theorem byte_address_add (m : Memory) (s : Slot) {k : Nat} (hk : k < 8) :
    m.byte (s.address + k) = byteOf (m.entry s).bits k := by
  rw [entry, word, byteOf_ofBytes _ hk]

/-- The two memories have the same size and the same bytes in the frames that `keep` selects. -/
structure AgreeOn (keep : Frame → Prop) (m m' : Memory) : Prop where
  frames_eq : m'.frames = m.frames
  byte_eq : ∀ j, (∀ f : Frame, f.number.toNat = j / 4096 → keep f) → m'.byte j = m.byte j

namespace AgreeOn

variable {keep keep' : Frame → Prop} {m m' m'' : Memory}

theorem refl (keep : Frame → Prop) (m : Memory) : AgreeOn keep m m := ⟨rfl, fun _ _ => rfl⟩

theorem mono (h : AgreeOn keep m m') (hKeep : ∀ f, keep' f → keep f) : AgreeOn keep' m m' :=
  ⟨h.frames_eq, fun j hj => h.byte_eq j fun f hf => hKeep f (hj f hf)⟩

theorem symm (h : AgreeOn keep m m') : AgreeOn keep m' m :=
  ⟨h.frames_eq.symm, fun j hj => (h.byte_eq j hj).symm⟩

theorem trans (h : AgreeOn keep m m') (h' : AgreeOn keep m' m'') : AgreeOn keep m m'' :=
  ⟨h'.frames_eq.trans h.frames_eq, fun j hj => (h'.byte_eq j hj).trans (h.byte_eq j hj)⟩

theorem byte (h : AgreeOn keep m m') {f : Frame} (hf : keep f) {j : Nat}
    (hj : j / 4096 = f.number.toNat) : m'.byte j = m.byte j := by
  refine h.byte_eq j fun g hg => ?_
  rwa [Frame.eq_of_toNat_number (hg.trans hj)]

theorem holds (h : AgreeOn keep m m') (f : Frame) : m'.holds f = m.holds f := by
  rw [Memory.holds, Memory.holds, h.frames_eq]

theorem entry (h : AgreeOn keep m m') {s : Slot} (hs : keep s.table) : m'.entry s = m.entry s := by
  have hWord : m'.word s.address = m.word s.address :=
    ofBytes_congr fun k hk => h.byte hs (s.address_div hk)
  rw [Memory.entry, Memory.entry, hWord]

theorem eq (h : AgreeOn (fun _ => True) m m') : m' = m :=
  ext_byte h.frames_eq fun j => h.byte_eq j fun _ _ => trivial

end AgreeOn

theorem agreeOn_setEntry {m : Memory} {s : Slot} (h : m.holds s.table = true) (e : Entry) :
    AgreeOn (· ≠ s.table) m (m.setEntry s e) := by
  refine ⟨frames_setEntry m s e, fun j hj => ?_⟩
  by_cases hIn : s.address ≤ j ∧ j < s.address + 8
  · obtain ⟨k, rfl⟩ : ∃ k, j = s.address + k := ⟨j - s.address, by omega⟩
    exact absurd rfl (hj s.table (s.address_div (by omega)).symm)
  · exact byte_setEntry h e (by omega)

theorem agreeOn_setEntries {m : Memory} {f : Frame} (h : m.holds f = true) (t : PageTable)
    (is : List TableIndex) : AgreeOn (· ≠ f) m (m.setEntries f t is) := by
  induction is generalizing m with
  | nil => exact AgreeOn.refl _ m
  | cons i is ih =>
    have hFirst := agreeOn_setEntry (s := ⟨f, i⟩) h (t.get i)
    exact hFirst.trans (ih (by simpa using h))

theorem agreeOn_setTable {m : Memory} {f : Frame} (h : m.holds f = true) (t : PageTable) :
    AgreeOn (· ≠ f) m (m.setTable f t) :=
  agreeOn_setEntries h t TableIndex.all

/-- Tables can be emptied, and all else left as it is. -/
theorem exists_emptied {m : Memory} (fs : List Frame) (hHolds : ∀ f ∈ fs, m.holds f = true) :
    ∃ m', AgreeOn (· ∉ fs) m m' ∧ ∀ f ∈ fs, ∀ i, m'.entry ⟨f, i⟩ = .empty := by
  induction fs with
  | nil => exact ⟨m, .refl _ m, nofun⟩
  | cons f fs ih =>
    obtain ⟨m', hAgree, hEmpty⟩ := ih fun g hg => hHolds g (List.mem_cons_of_mem f hg)
    have hHere : m'.holds f = true := by
      rw [hAgree.holds]
      exact hHolds f List.mem_cons_self
    refine ⟨m'.setTable f .zeroed, (hAgree.mono fun g hg hMem => hg (List.mem_cons_of_mem f hMem)).trans
      ((agreeOn_setTable hHere .zeroed).mono fun g hg => List.ne_of_not_mem_cons hg), fun g hg i => ?_⟩
    rw [entry_setTable hHere, PageTable.get_zeroed]
    split
    next => rfl
    next hNe => exact hEmpty g ((List.mem_cons.1 hg).resolve_left hNe) i

theorem lt_of_holds {m : Memory} {a : PhysicalAddress} (h : m.holds a.frame = true) :
    a.val.toNat < 4096 * m.frames := by
  have hHolds : a.frame.number.toNat < m.frames := by simpa [holds] using h
  rw [PhysicalAddress.toNat_number_frame] at hHolds
  omega

theorem agreeOn_setByte {m : Memory} {a : PhysicalAddress} (h : m.holds a.frame = true)
    (b : UInt8) : AgreeOn (· ≠ a.frame) m (m.setByte a.val.toNat b) := by
  refine ⟨frames_setByte m _ b, fun j hj => ?_⟩
  rw [byte_setByte m (lt_of_holds h), if_neg]
  rintro rfl
  exact hj a.frame a.toNat_number_frame rfl

theorem AgreeOn.setByte {keep : Frame → Prop} {m m' : Memory} {a : PhysicalAddress}
    (h : AgreeOn keep m m') (hHolds : m.holds a.frame = true) (b : UInt8) :
    AgreeOn keep (m.setByte a.val.toNat b) (m'.setByte a.val.toNat b) := by
  have hHolds' : m'.holds a.frame = true := by rw [h.holds]; exact hHolds
  refine ⟨by simp [h.frames_eq], fun j hj => ?_⟩
  rw [byte_setByte m (lt_of_holds hHolds), byte_setByte m' (lt_of_holds hHolds')]
  split
  · rfl
  · exact h.byte_eq j hj

theorem setEntry_self {m : Memory} {s : Slot} (h : m.holds s.table = true) :
    m.setEntry s (m.entry s) = m := by
  refine ext_byte (by simp) fun j => ?_
  by_cases hj : s.address ≤ j ∧ j < s.address + 8
  · obtain ⟨k, rfl⟩ : ∃ k, j = s.address + k := ⟨j - s.address, by omega⟩
    rw [byte_address_add _ s (by omega), byte_address_add m s (by omega), entry_setEntry h, if_pos rfl]
  · rw [byte_setEntry h _ (by omega)]

/-- An entry that is overwritten and put back leaves memory as it was. -/
theorem setEntry_setEntry_self {m : Memory} {s : Slot} (h : m.holds s.table = true) (e : Entry) :
    (m.setEntry s e).setEntry s (m.entry s) = m := by
  refine ext_byte (by simp) fun j => ?_
  have hSlot : ((m.setEntry s e).setEntry s (m.entry s)).entry s = m.entry s := by
    rw [entry_setEntry (by simpa using h), if_pos rfl]
  by_cases hj : s.address ≤ j ∧ j < s.address + 8
  · obtain ⟨k, rfl⟩ : ∃ k, j = s.address + k := ⟨j - s.address, by omega⟩
    rw [byte_address_add _ s (by omega), byte_address_add m s (by omega), hSlot]
  · rw [byte_setEntry (by simpa using h) _ (by omega), byte_setEntry h _ (by omega)]

theorem AgreeOn.setEntry {keep : Frame → Prop} {m m' : Memory} {s : Slot} (h : AgreeOn keep m m')
    (hHolds : m.holds s.table = true) (e : Entry) :
    AgreeOn keep (m.setEntry s e) (m'.setEntry s e) := by
  have hHolds' : m'.holds s.table = true := by rw [h.holds]; exact hHolds
  refine ⟨by simp [h.frames_eq], fun j hj => ?_⟩
  by_cases hIn : s.address ≤ j ∧ j < s.address + 8
  · obtain ⟨k, rfl⟩ : ∃ k, j = s.address + k := ⟨j - s.address, by omega⟩
    rw [byte_address_add _ s (by omega), byte_address_add _ s (by omega), entry_setEntry hHolds',
      entry_setEntry hHolds]
    simp
  · rw [byte_setEntry hHolds' _ (by omega), byte_setEntry hHolds _ (by omega)]
    exact h.byte_eq j hj

/-- What a frame holds after a table was written there does not depend on what it held before. -/
theorem AgreeOn.setTable {keep : Frame → Prop} {m m' : Memory} {f : Frame}
    (h : AgreeOn (fun g => keep g ∧ g ≠ f) m m') (hHolds : m.holds f = true) (t : PageTable) :
    AgreeOn keep (m.setTable f t) (m'.setTable f t) := by
  have hHolds' : m'.holds f = true := by rw [h.holds]; exact hHolds
  refine ⟨by simp [h.frames_eq], fun j hj => ?_⟩
  by_cases hIn : j / 4096 = f.number.toNat
  · obtain ⟨i, k, hk, rfl⟩ := Slot.exists_address hIn
    rw [byte_address_add _ _ hk, byte_address_add _ _ hk, entry_setTable hHolds',
      entry_setTable hHolds]
    simp
  · have hOther : ∀ g : Frame, g.number.toNat = j / 4096 → g ≠ f := by
      rintro g hg rfl
      exact hIn hg.symm
    rw [(agreeOn_setTable hHolds' t).byte_eq j hOther, (agreeOn_setTable hHolds t).byte_eq j hOther]
    exact h.byte_eq j fun g hg => ⟨hj g hg, hOther g hg⟩

end Memory

end PagedKernel
