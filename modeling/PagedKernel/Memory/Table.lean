import PagedKernel.Memory.Basic
import PagedKernel.Table.PageTable

/-!
# Page tables in memory

A frame of memory holds a page table: entry `i` is the word at `8 * i` in the frame.

* `Slot`: the place of one entry.
* `Memory.entry`, `Memory.setEntry`: the entry at a slot. `entry_setEntry` says what the entries of
  memory are after one was written.
* `Memory.table`, `Memory.setTable`: all entries of a frame at once.
-/

namespace PagedKernel

/-- The place of an entry: a frame that holds a table, and an index. -/
structure Slot where
  table : Frame
  index : TableIndex
deriving DecidableEq

namespace Slot

def address (s : Slot) : Nat := s.table.base.val.toNat + 8 * s.index.val

theorem address_disjoint {s t : Slot} (h : s ≠ t) :
    s.address + 8 ≤ t.address ∨ t.address + 8 ≤ s.address := by
  obtain ⟨⟨⟨a⟩, ha⟩, i, hi⟩ := s
  obtain ⟨⟨⟨b⟩, hb⟩, j, hj⟩ := t
  have hA := congrArg UInt64.toNat ha
  have hB := congrArg UInt64.toNat hb
  simp only [UInt64.toNat_mod, UInt64.reduceToNat] at hA hB
  simp only [address]
  by_cases hEq : a = b
  · subst hEq
    have : i ≠ j := by
      rintro rfl
      exact h rfl
    omega
  · have : a.toNat ≠ b.toNat := fun he => hEq (UInt64.toNat_inj.1 he)
    omega

theorem address_le {s : Slot} {m : Memory} (h : m.holds s.table = true) :
    s.address + 8 ≤ 4096 * m.frames := by
  have hHolds : s.table.number.toNat < m.frames := by simpa [Memory.holds] using h
  simp only [Frame.number, UInt64.toNat_div, UInt64.reduceToNat] at hHolds
  have hAligned := congrArg UInt64.toNat s.table.aligned
  simp only [UInt64.toNat_mod, UInt64.reduceToNat] at hAligned
  have hIndex := s.index.isLt
  simp only [address]
  omega

end Slot

namespace Memory

def entry (m : Memory) (s : Slot) : Entry := ⟨m.word s.address⟩

def setEntry (m : Memory) (s : Slot) (e : Entry) : Memory := m.setWord s.address e.bits

@[simp] theorem frames_setEntry (m : Memory) (s : Slot) (e : Entry) :
    (m.setEntry s e).frames = m.frames := by
  simp [setEntry]

theorem entry_setEntry {m : Memory} {s : Slot} (h : m.holds s.table = true) (e : Entry) (t : Slot) :
    (m.setEntry s e).entry t = if t = s then e else m.entry t := by
  by_cases ht : t = s
  · subst ht
    simp [entry, setEntry, word_setWord m (Slot.address_le h)]
  · have hDisjoint := Slot.address_disjoint ht
    simp [ht, entry, setEntry, word_setWord_of_disjoint m (Slot.address_le h) hDisjoint]

theorem byte_setEntry {m : Memory} {s : Slot} (h : m.holds s.table = true) (e : Entry) {j : Nat}
    (hj : j < s.address ∨ s.address + 8 ≤ j) : (m.setEntry s e).byte j = m.byte j := by
  rw [setEntry, byte_setWord m (Slot.address_le h), if_neg (by omega)]

def table (m : Memory) (f : Frame) : PageTable := ⟨Vector.ofFn fun i => m.entry ⟨f, i⟩⟩

@[simp] theorem get_table (m : Memory) (f : Frame) (i : TableIndex) :
    (m.table f).get i = m.entry ⟨f, i⟩ := by
  simp [table, PageTable.get]

/-- The memory with the entries of a frame at the given indices replaced by those of a table. -/
def setEntries (m : Memory) (f : Frame) (t : PageTable) : List TableIndex → Memory
  | [] => m
  | i :: is => (m.setEntry ⟨f, i⟩ (t.get i)).setEntries f t is

def setTable (m : Memory) (f : Frame) (t : PageTable) : Memory := m.setEntries f t TableIndex.all

@[simp] theorem frames_setEntries (m : Memory) (f : Frame) (t : PageTable)
    (is : List TableIndex) : (m.setEntries f t is).frames = m.frames := by
  induction is generalizing m with
  | nil => simp only [setEntries]
  | cons i is ih => simp only [setEntries, ih, frames_setEntry]

@[simp] theorem frames_setTable (m : Memory) (f : Frame) (t : PageTable) :
    (m.setTable f t).frames = m.frames :=
  frames_setEntries m f t TableIndex.all

@[simp] theorem holds_setEntry (m : Memory) (s : Slot) (e : Entry) (f : Frame) :
    (m.setEntry s e).holds f = m.holds f := by
  simp [holds]

@[simp] theorem holds_setTable (m : Memory) (f : Frame) (t : PageTable) (g : Frame) :
    (m.setTable f t).holds g = m.holds g := by
  simp [holds]

theorem entry_setEntries_of_ne {m : Memory} {f : Frame} (h : m.holds f = true) (t : PageTable)
    (is : List TableIndex) {s : Slot} (hs : s.table = f → s.index ∉ is) :
    (m.setEntries f t is).entry s = m.entry s := by
  induction is generalizing m with
  | nil => rfl
  | cons i is ih =>
    have hSlot : s ≠ ⟨f, i⟩ := by
      intro hEq
      exact hs (congrArg Slot.table hEq) (congrArg Slot.index hEq ▸ List.mem_cons_self)
    have hTail : s.table = f → s.index ∉ is := fun ht hi => hs ht (List.mem_cons_of_mem i hi)
    rw [setEntries, ih (by simpa using h) hTail, entry_setEntry (s := ⟨f, i⟩) h, if_neg hSlot]

theorem entry_setEntries {m : Memory} {f : Frame} (h : m.holds f = true) (t : PageTable)
    {is : List TableIndex} {i : TableIndex} (hi : i ∈ is) :
    (m.setEntries f t is).entry ⟨f, i⟩ = t.get i := by
  induction is generalizing m with
  | nil => cases hi
  | cons j is ih =>
    have hHolds : (m.setEntry ⟨f, j⟩ (t.get j)).holds f = true := by simpa using h
    rw [setEntries]
    by_cases hTail : i ∈ is
    · exact ih hHolds hTail
    · obtain rfl : i = j := by simpa [hTail] using hi
      rw [entry_setEntries_of_ne hHolds t is (fun _ => hTail), entry_setEntry (s := ⟨f, i⟩) h,
        if_pos rfl]

theorem entry_setTable {m : Memory} {f : Frame} (h : m.holds f = true) (t : PageTable) (s : Slot) :
    (m.setTable f t).entry s = if s.table = f then t.get s.index else m.entry s := by
  obtain ⟨g, i⟩ := s
  split
  next hTable =>
    obtain rfl : g = f := hTable
    exact entry_setEntries h t (TableIndex.mem_all i)
  next hTable => exact entry_setEntries_of_ne h t TableIndex.all (fun hEq => absurd hEq hTable)

/-- A frame that is read as a table must lie in memory. -/
def requireTable (m : Memory) (f : Frame) : Checked Unit := m.requireObject f.base 4096

end Memory

end PagedKernel
