import PagedKernel.Proofs.AddressSpace.Dependence
import PagedKernel.Proofs.AddressSpace.Leaf

/-!
# What the operations on pages write

Unmapping and marking a page change one bit of memory. Mapping a page writes one entry of a table that
exists, and the frames of the tables that it makes: each of these has a single entry, the link to the next
one or the leaf. Calls that are refused write nothing.

* `Memory.OnlyBit`, `Memory.onlyBit_putFlag`: one bit of one entry.
* `Memory.Hangs`: the new tables, one below the other.
* `Memory.fill`, `byte_fill`, `hangs_fill`: memory after the tables were made and the leaf was written.
* `Machine.MapWrites`, `Plan.Describes.mapWrites`: what mapping a page writes.
* `AddressSpace.LeafWrites`: what unmapping and marking a page write. `Plan.Describes.unmap_writes`,
  `Plan.Describes.setLeafFlag_writes`: so it is.
-/

namespace PagedKernel

namespace Memory

/-- Nothing but bit `n` of the entry at a slot may differ. -/
structure OnlyBit (m : Memory) (slot : Slot) (n : Nat) (m' : Memory) : Prop where
  frames_eq : m'.frames = m.frames
  bit_eq (i : Nat) : i ≠ n → bit (m'.entry slot).bits i = bit (m.entry slot).bits i
  byte_eq (j : Nat) : j < slot.address ∨ slot.address + 8 ≤ j → m'.byte j = m.byte j

/-- Below the entry for a page in a table the frames hang as tables, one below the other. Each of them has
a single entry, and the last one is the leaf. -/
def Hangs (m : Memory) (page : VirtualAddress) (leaf : UInt64) : Level → Frame → List Frame → Prop
  | level, table, [] => level = .pt ∧ (m.entry ⟨table, level.indexOf page⟩).bits = leaf
  | level, table, f :: fs => ∃ below, level.next? = some below ∧
      (m.entry ⟨table, level.indexOf page⟩).bits = f.base.val ||| 7 ∧
      (∀ i ≠ below.indexOf page, (m.entry ⟨f, i⟩).bits = 0) ∧ m.Hangs page leaf below f fs

/-- Memory after the tables in the frames `fs` were made, and the leaf was written. -/
def fill (m : Memory) (page : VirtualAddress) (level : Level) (table : Frame) (fs : List Frame)
    (e : Entry) : Memory :=
  (m.grow page level table fs).setEntry ⟨fs.getLastD table, Level.pt.indexOf page⟩ e

variable {m m' : Memory} {slot : Slot} {page : VirtualAddress} {level below : Level} {table f : Frame}
  {fs : List Frame} {e : Entry}

theorem onlyBit_putFlag (hHolds : m.holds slot.table = true) (f : Entry.Field) (hFlag : f.isFlag = true)
    (on : Bool) : m.OnlyBit slot f.range.shift (m.setEntry slot ((m.entry slot).putFlag f on)) where
  frames_eq := frames_setEntry ..
  bit_eq i hi := by
    have hWidth : f.range.width = 1 := by simpa [Entry.Field.isFlag] using hFlag
    rw [entry_setEntry hHolds, if_pos rfl, Entry.putFlag, Entry.put, WordField.bit_put, if_neg]
    omega
  byte_eq j hj := byte_setEntry hHolds _ (by omega)

theorem entry_congr (h : ∀ k < 8, m'.byte (slot.address + k) = m.byte (slot.address + k)) :
    m'.entry slot = m.entry slot := by
  have hWord : m'.word slot.address = m.word slot.address := ofBytes_congr h
  rw [entry, entry, hWord]

theorem fill_cons (hNext : level.next? = some below) :
    m.fill page level table (f :: fs) e =
      (m.hang ⟨table, level.indexOf page⟩ f).fill page below f fs e := by
  rw [fill, fill, grow_cons hNext, List.getLastD_cons]

section Filling

variable (hTable : m.holds table = true) (hHolds : ∀ g ∈ fs, m.holds g = true)
  (hLength : fs.length = level.height)

include hTable hHolds hLength

/-- Nothing is written but the new frames and one entry of the table where they hang. -/
theorem byte_fill {j : Nat} (hNew : ∀ g ∈ fs, g.number.toNat ≠ j / 4096)
    (hOld : j < (⟨table, level.indexOf page⟩ : Slot).address ∨
      (⟨table, level.indexOf page⟩ : Slot).address + 8 ≤ j) :
    (m.fill page level table fs e).byte j = m.byte j := by
  induction fs generalizing m level table with
  | nil =>
    obtain rfl := Level.height_eq_zero.1 hLength.symm
    exact byte_setEntry (s := ⟨table, Level.pt.indexOf page⟩) hTable e (by omega)
  | cons f fs ih =>
    rw [List.length_cons] at hLength
    have hPos : 0 < level.height := by omega
    obtain ⟨below, hNext⟩ := Level.exists_next? (Level.ne_pt_of_height hPos)
    have hHeight := Level.height_of_next? hNext
    have hFirst := hHolds f List.mem_cons_self
    have hElse : f.number.toNat ≠ j / 4096 := hNew f List.mem_cons_self
    have hSlot := @Slot.address_div ⟨f, below.indexOf page⟩
    rw [fill_cons hNext, ih (by simpa using hFirst)
      (fun g hg => by simpa using hHolds g (List.mem_cons_of_mem f hg)) (by omega)
      (fun g hg => hNew g (List.mem_cons_of_mem f hg)) ?_]
    · rw [hang, byte_setEntry (s := ⟨table, level.indexOf page⟩) (by simpa using hTable) _ (by omega)]
      exact (agreeOn_setTable hFirst .zeroed).byte_eq j fun g hg hEq => hElse (hEq ▸ hg)
    · by_contra hIn
      obtain ⟨k, rfl⟩ : ∃ k, j = (⟨f, below.indexOf page⟩ : Slot).address + k :=
        ⟨j - (⟨f, below.indexOf page⟩ : Slot).address, by omega⟩
      exact hElse (hSlot (by omega)).symm

/-- So the entries of all other tables are what they were. -/
theorem entry_fill (hNew : slot.table ∉ fs) (hOld : slot ≠ ⟨table, level.indexOf page⟩) :
    (m.fill page level table fs e).entry slot = m.entry slot := by
  refine entry_congr fun k hk => byte_fill hTable hHolds hLength (fun g hg hEq => hNew ?_) ?_
  · rw [slot.address_div hk] at hEq
    rwa [← Frame.eq_of_toNat_number hEq]
  · have hDisjoint := Slot.address_disjoint hOld
    omega

theorem hangs_fill (hFrames : m.frames ≤ 2 ^ 40) (hNodup : (table :: fs).Nodup) :
    (m.fill page level table fs e).Hangs page e.bits level table fs := by
  induction fs generalizing m level table with
  | nil =>
    obtain rfl := Level.height_eq_zero.1 hLength.symm
    refine ⟨rfl, ?_⟩
    rw [fill, grow, List.getLastD_nil, entry_setEntry (s := ⟨table, Level.pt.indexOf page⟩) hTable, if_pos rfl]
  | cons f fs ih =>
    rw [List.length_cons] at hLength
    have hPos : 0 < level.height := by omega
    obtain ⟨below, hNext⟩ := Level.exists_next? (Level.ne_pt_of_height hPos)
    have hHeight := Level.height_of_next? hNext
    have hFirst := hHolds f List.mem_cons_self
    obtain ⟨hTableNew, hRest⟩ := List.nodup_cons.1 hNodup
    have hNe : table ≠ f := List.ne_of_not_mem_cons hTableNew
    have hFirst' : (m.hang ⟨table, level.indexOf page⟩ f).holds f = true := by simpa using hFirst
    have hHolds' : ∀ g ∈ fs, (m.hang ⟨table, level.indexOf page⟩ f).holds g = true :=
      fun g hg => by simpa using hHolds g (List.mem_cons_of_mem f hg)
    have hEntry := entry_hang ⟨table, level.indexOf page⟩ hTable hFirst
    have hLeft : fs.length = below.height := by omega
    rw [fill_cons hNext]
    refine ⟨below, hNext, ?_, fun i hi => ?_, ih hFirst' hHolds' hLeft (by simpa using hFrames) hRest⟩
    · rw [entry_fill hFirst' hHolds' hLeft (List.not_mem_of_not_mem_cons hTableNew)
        fun hEq => hNe (Plan.slot_inj hEq).1, hEntry, if_pos rfl,
        Entry.bits_compose_link (number_lt_of_holds hFrames hFirst)]
    · rw [entry_fill hFirst' hHolds' hLeft (List.nodup_cons.1 hRest).1
        fun hEq => hi (Plan.slot_inj hEq).2, hEntry, if_neg fun hEq => hNe (Plan.slot_inj hEq).1.symm,
        if_pos rfl]
      rfl

end Filling

end Memory

/-- A page was mapped below a root, and `count` frames went to new tables. Nothing was written but these
frames and one entry of a table that was there: the leaf, or an entry that was empty and is a link. -/
structure Machine.MapWrites (m : Machine) (root : Frame) (page : VirtualAddress) (leaf : UInt64)
    (count : Nat) (m' : Machine) : Prop where
  enough : count ≤ m.frames.free.length
  free_eq : m'.frames.free = m.frames.free.drop count
  supply_eq : m'.frames.supply = m.frames.supply - count
  inUse_perm : m'.frames.inUse.Perm (m.frames.free.take count ++ m.frames.inUse)
  mmu_eq : m'.mmu = m.mmu
  frames_eq : m'.memory.frames = m.memory.frames
  written : ∃ level table, m.memory.Leads root (page.pathTo level) table ∧
    m'.memory.Hangs page leaf level table (m.frames.free.take count) ∧
    (0 < count → (m.memory.entry ⟨table, level.indexOf page⟩).bits = 0) ∧
    ∀ j, (∀ g ∈ m.frames.free.take count, g.number.toNat ≠ j / 4096) →
      (j < (⟨table, level.indexOf page⟩ : Slot).address ∨
        (⟨table, level.indexOf page⟩ : Slot).address + 8 ≤ j) →
      m'.memory.byte j = m.memory.byte j

/-- Nothing was written but bit `n` of the leaf entry of an address, if there is one. -/
structure AddressSpace.LeafWrites (s : AddressSpace) (a : VirtualAddress) (n : Nat) (m m' : Machine) :
    Prop where
  frames_eq : m'.frames = m.frames
  memory : m'.memory = m.memory ∨ ∃ slot, m.memory.lookup s.root a = .ok (.ok slot) ∧
    m.memory.OnlyBit slot n m'.memory

namespace Plan.Describes

variable {plan : Plan} {kernel t frame : Frame} {roots held : List Frame} {s : AddressSpace}
  {page a : VirtualAddress} {m : Machine} {l : Level}

theorem mapWrites (h : plan.Describes kernel roots held m) (hRoot : s.root ∈ roots)
    (ht : plan t = some ⟨s.root, page.pathTo l⟩) (hBare : Bare m page l t)
    (hSupply : l.height ≤ m.frames.supply) (hNumber : frame.number.toNat < 2 ^ 40) (writable : Bool) :
    m.MapWrites s.root page (frame.base.val ||| if writable then 7 else 5) l.height
      (m.mapped page frame writable l t) := by
  have hEnough := Nat.le_trans hSupply m.frames.supply_le_length
  have hLength : (m.frames.free.take l.height).length = l.height := by
    rw [List.length_take]
    omega
  have hNew : t ∉ m.frames.free.take l.height :=
    fun hMem => h.accounts.notMem_free ht (List.mem_of_mem_take hMem)
  have hTable := h.fits.holds ht
  have hHolds := h.take_holds l.height
  have hMemory : (m.mapped page frame writable l t).memory =
      m.memory.fill page l t (m.frames.free.take l.height) (Entry.compose writable .user frame) := rfl
  refine ⟨hEnough, rfl, FrameAllocator.supply_serve _ _, ?_, rfl, ?_, l, t,
    ((h.fits.leads_iff (Or.inr hRoot)).2 ht).1, ?_, fun hCount => ?_, fun j hj hOld => ?_⟩
  · exact (List.reverse_perm _).append_right _
  · rw [hMemory, Memory.fill, Memory.frames_setEntry, Memory.frames_grow]
  · rw [hMemory, ← Entry.bits_compose_user hNumber]
    exact Memory.hangs_fill hTable hHolds hLength h.fits.frames_le
      (List.nodup_cons.2 ⟨hNew, h.take_nodup l.height⟩)
  · rw [hBare.entry_eq (Level.ne_pt_of_height hCount)]
    rfl
  · rw [hMemory]
    exact Memory.byte_fill hTable hHolds hLength hj hOld

section

variable (h : plan.Describes kernel roots held m) (hRoot : s.root ∈ roots) (hUser : a.isUser = true)

include h hRoot hUser

theorem lookup_cases : (∃ t, plan t = some ⟨s.root, a.pathTo .pt⟩ ∧
      m.memory.lookup s.root a = .ok (.ok ⟨t, Level.pt.indexOf a⟩)) ∨
    ∃ e, m.memory.lookup s.root a = .ok (.error e) := by
  have hHalf := h.fits.ownHalf hRoot hUser
  have hPlace := h.fits.root_place hRoot
  by_cases hTable : ∃ t, plan t = some ⟨s.root, a.pathTo .pt⟩
  · obtain ⟨t, ht⟩ := hTable
    exact Or.inl ⟨t, ht, h.fits.lookup_eq hHalf hPlace ht⟩
  · obtain ⟨below, hMissing⟩ := h.fits.lookup_missing hHalf hPlace fun t ht => hTable ⟨t, ht⟩
    exact Or.inr ⟨_, hMissing⟩

variable (hKernel : s.isKernel = false)

include hKernel

/-- Marking a page writes its flag. -/
theorem setLeafFlag_writes {f : Entry.Field} (hFlag : f.isFlag = true) (on : Bool) :
    ∃ m', s.setLeafFlag f a on m = .ok () m' ∧ s.LeafWrites a f.range.shift m m' := by
  rcases h.lookup_cases hRoot hUser with ⟨t, ht, hLookup⟩ | ⟨e, hLookup⟩
  · obtain ⟨m', hRun, hFrames, hMemory⟩ := AddressSpace.setLeafFlag_found hUser hKernel hLookup f on
    refine ⟨m', hRun, hFrames, Or.inr ⟨_, hLookup, ?_⟩⟩
    rw [hMemory]
    exact Memory.onlyBit_putFlag (h.fits.holds ht) f hFlag on
  · exact ⟨m, AddressSpace.setLeafFlag_missing hUser hKernel hLookup, rfl, Or.inl rfl⟩

theorem unmap_writes (hAligned : a.isAligned = true) :
    ∃ m', s.unmap a m = .ok () m' ∧ s.LeafWrites a 0 m m' := by
  rcases h.lookup_cases hRoot hUser with ⟨t, ht, hLookup⟩ | ⟨e, hLookup⟩
  · cases hPresent : (m.memory.entry ⟨t, Level.pt.indexOf a⟩).present with
    | true =>
      obtain ⟨m', hRun, hFrames, hMemory⟩ := AddressSpace.unmap_present hUser hKernel hAligned hLookup hPresent
      refine ⟨m', hRun, hFrames, Or.inr ⟨_, hLookup, ?_⟩⟩
      rw [hMemory]
      exact Memory.onlyBit_putFlag (h.fits.holds ht) .present rfl false
    | false => exact ⟨m, AddressSpace.unmap_absent hUser hKernel hAligned hLookup hPresent, rfl, Or.inl rfl⟩
  · exact ⟨m, AddressSpace.unmap_missing hUser hKernel hAligned hLookup, rfl, Or.inl rfl⟩

/-- Unmapping a page once more does nothing. -/
theorem unmap_again (hAligned : a.isAligned = true) {m' : Machine} (hUnmap : s.unmap a m = .ok () m') :
    s.unmap a m' = .ok () m' := by
  rcases h.unmap_cases hRoot hAligned hUser hKernel with
    ⟨-, hSame, -⟩ | ⟨e, f, x, -, -, -, hRun, hAfter, hReplaced⟩
  · rw [hUnmap] at hSame
    cases hSame
    exact hUnmap
  · rw [hUnmap] at hRun
    cases hRun
    rcases hAfter.unmap_cases hRoot hAligned hUser hKernel with
      ⟨-, hSame, -⟩ | ⟨e', f', x', -, -, hSome, -⟩
    · exact hSame
    · obtain ⟨e'', g, hLeaf, hTarget, -⟩ := AddressSpace.translate_eq_some.1 hSome
      rw [hReplaced _ hRoot _ hUser, if_pos ⟨rfl, rfl⟩] at hLeaf
      cases hLeaf
      rw [Entry.target_putFlag_present] at hTarget
      cases hTarget

end

end Plan.Describes

end PagedKernel
