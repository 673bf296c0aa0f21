import Mathlib.Data.List.Perm.Basic
import PagedKernel.Syscall.DescriptorTable

/-!
# The files of a descriptor table

What the changes of a table do to the files in it, counted with their number and without regard to
their order.

* `DescriptorTable.map`: the table of what the files are labelled with.
* `DescriptorTable.perm_install`, `DescriptorTable.perm_remove`: one file more, one file less.
* `DescriptorTable.get?_put`, `DescriptorTable.put_put`: the file that was put last counts.
* `DescriptorTable.get?_put_of_slot`: the other descriptors keep their files.
* `DescriptorTable.length_put`, `DescriptorTable.bounds_install`: the table keeps its slots, and a file
  gets a descriptor of one of them.
* `DescriptorTable.least_of_install`, `DescriptorTable.full_of_install`: a file gets the lowest free
  descriptor, if there is one.
* `DescriptorTable.map_put`: a file that makes way for one of the same label.
* `DescriptorTable.files_eq`, `DescriptorTable.pairwise_descriptors`: the files come in the order of
  their descriptors, which ascend.
-/

namespace PagedKernel.DescriptorTable

variable {F ι : Type} {t t' : DescriptorTable F} {f g : F} {fd : Int} {k : Nat}

/-- A slot gets other contents: what it had goes, and what it gets comes. -/
theorem perm_filterMap_set {slots : List (Option F)} {old : Option F} (h : slots[k]? = some old)
    (new : Option F) :
    (old.toList ++ (slots.set k new).filterMap id).Perm (new.toList ++ slots.filterMap id) := by
  induction slots generalizing k with
  | nil => simp at h
  | cons slot rest ih =>
    cases k with
    | zero =>
      obtain rfl : slot = old := by simpa using h
      cases slot <;> cases new <;> simp [List.Perm.swap]
    | succ k =>
      have hRest := ih (k := k) (by simpa using h)
      cases slot with
      | none => simpa using hRest
      | some g =>
        simp only [List.set_cons_succ, List.filterMap_cons, id_eq]
        refine List.perm_middle.trans ((hRest.cons g).trans ?_)
        exact List.perm_middle.symm

/-! ## Slots and descriptors -/

theorem descriptor_lt {i j : Nat} : descriptor i < descriptor j ↔ i < j := by
  simp only [descriptor, Int.ofNat_eq_natCast]
  omega

theorem slot?_descriptor (t : DescriptorTable F) :
    t.slot? (descriptor k) = if k < t.slots.length then some k else none := by
  have hFirst : descriptor 0 ≤ descriptor k := by
    simp only [descriptor, Int.ofNat_eq_natCast]
    omega
  have hSlot : (descriptor k - descriptor 0).toNat = k := by
    simp only [descriptor, Int.ofNat_eq_natCast]
    omega
  simp only [slot?, hFirst, true_and, descriptor_lt, hSlot]

theorem get?_descriptor (t : DescriptorTable F) (k : Nat) :
    t.get? (descriptor k) = (t.slots[k]?).join := by
  rw [get?, slot?_descriptor]
  split
  next => rfl
  next hLe =>
    rw [List.getElem?_eq_none (Nat.le_of_not_lt hLe)]
    rfl

theorem slot?_of_get? (h : t.get? fd = some f) : ∃ k, t.slot? fd = some k ∧ t.slots[k]? = some (some f) := by
  rw [get?, Option.bind_eq_some_iff] at h
  obtain ⟨k, hSlot, hJoin⟩ := h
  exact ⟨k, hSlot, Option.join_eq_some_iff.1 hJoin⟩

theorem pairwise_descriptors (t : DescriptorTable F) : t.descriptors.Pairwise (· < ·) := by
  exact List.Pairwise.filter _ (List.pairwise_map.2 (List.pairwise_lt_range.imp descriptor_lt.2))

theorem files_eq (t : DescriptorTable F) : t.files = t.descriptors.filterMap t.get? := by
  have hOpen : (fun fd => if t.isOpen fd = true then t.get? fd else none) = t.get? := by
    funext fd
    rw [isOpen]
    cases t.get? fd <;> rfl
  have hGet : t.get? ∘ descriptor = fun k => (t.slots[k]?).join := funext t.get?_descriptor
  rw [descriptors, List.filterMap_filter, hOpen, List.filterMap_map, hGet, files]
  -- Slot by slot, the list is that of the files at its indices.
  have hSlots : (List.range t.slots.length).map (fun k => t.slots[k]?) = t.slots.map some := by
    apply List.ext_getElem?
    intro k
    by_cases hLt : k < t.slots.length
    · simp [hLt]
    · simp [Nat.le_of_not_lt hLt]
  have hJoin := congrArg (List.filterMap Option.join) hSlots
  rw [List.filterMap_map, List.filterMap_map] at hJoin
  exact hJoin.symm

/-! ## Changes -/

theorem perm_install (h : t.install f = .ok (fd, t')) : t'.files.Perm (f :: t.files) := by
  rw [install] at h
  split at h
  next k hFree =>
    cases h
    obtain ⟨hLt, hNone, -⟩ := List.findIdx?_eq_some_iff_getElem.1 hFree
    have hSlot : t.slots[k]? = some none := by
      rw [List.getElem?_eq_getElem hLt, Option.isNone_iff_eq_none.1 hNone]
    exact perm_filterMap_set hSlot (some f)
  next => cases h

/-- A file that finds no descriptor is the one that is handed back. -/
theorem eq_of_install (h : t.install f = .error g) : g = f := by
  rw [install] at h
  split at h <;> cases h
  rfl

theorem put_of_slot (h : t.slot? fd = some k) (o : Option F) : t.put fd o = ⟨t.slots.set k o⟩ := by
  rw [put, h]

theorem le_of_get? (h : t.get? fd = some f) : Int.ofNat firstFileDescriptor ≤ fd := by
  obtain ⟨k, hSlot, -⟩ := slot?_of_get? h
  rw [slot?] at hSlot
  split at hSlot
  next hRange => exact hRange.1
  next => cases hSlot

theorem put_self (h : t.get? fd = some f) : t.put fd (some f) = t := by
  obtain ⟨k, hSlot, hAt⟩ := slot?_of_get? h
  obtain ⟨hLt, hEq⟩ := List.getElem?_eq_some_iff.1 hAt
  rw [put_of_slot hSlot, ← hEq, List.set_getElem_self]

theorem get?_put (h : t.get? fd = some f) (g : F) : (t.put fd (some g)).get? fd = some g := by
  obtain ⟨k, hSlot, hAt⟩ := slot?_of_get? h
  obtain ⟨hLt, -⟩ := List.getElem?_eq_some_iff.1 hAt
  have hSame : (DescriptorTable.mk (t.slots.set k (some g))).slot? fd = some k := by
    rw [← hSlot, slot?, slot?, List.length_set]
  rw [put_of_slot hSlot, get?, hSame, Option.bind_some, List.getElem?_set_self hLt]
  rfl

theorem put_put (t : DescriptorTable F) (fd : Int) (o o' : Option F) :
    (t.put fd o).put fd o' = t.put fd o' := by
  cases hSlot : t.slot? fd with
  | none =>
    have hPut : ∀ o, t.put fd o = t := fun o => by rw [put, hSlot]
    rw [hPut, hPut]
  | some k =>
    have hSame : (DescriptorTable.mk (t.slots.set k o)).slot? fd = some k := by
      rw [← hSlot, slot?, slot?, List.length_set]
    rw [put_of_slot hSlot, put_of_slot hSame, put_of_slot hSlot, List.set_set]

theorem perm_remove (h : t.remove fd = (some f, t')) : t.files.Perm (f :: t'.files) := by
  rw [remove] at h
  split at h
  next g hGet =>
    obtain ⟨rfl, rfl⟩ : g = f ∧ t.put fd none = t' := by simpa using h
    obtain ⟨k, hSlot, hAt⟩ := slot?_of_get? hGet
    rw [put_of_slot hSlot]
    exact (perm_filterMap_set hAt none).symm
  next => cases h

theorem eq_of_remove (h : t.remove fd = (none, t')) : t' = t := by
  rw [remove] at h
  split at h <;> cases h
  rfl

theorem files_drain (t : DescriptorTable F) : t.drain.2.files = [] := by
  simp [drain, files]

/-! ## Slots are neither made nor lost -/

theorem length_put (t : DescriptorTable F) (fd : Int) (o : Option F) :
    (t.put fd o).slots.length = t.slots.length := by
  rw [put]
  split
  · exact List.length_set
  · rfl

theorem length_remove (t : DescriptorTable F) (fd : Int) :
    (t.remove fd).2.slots.length = t.slots.length := by
  rw [remove]
  split
  · exact length_put t fd none
  · rfl

theorem length_drain (t : DescriptorTable F) : t.drain.2.slots.length = t.slots.length :=
  List.length_map _

theorem bounds_install (h : t.install f = .ok (fd, t')) :
    t'.slots.length = t.slots.length ∧ Int.ofNat firstFileDescriptor ≤ fd ∧
      fd < Int.ofNat (firstFileDescriptor + t.slots.length) := by
  rw [install] at h
  split at h
  next k hFree =>
    cases h
    obtain ⟨hLt, -, -⟩ := List.findIdx?_eq_some_iff_getElem.1 hFree
    refine ⟨List.length_set, ?_, ?_⟩ <;> simp only [descriptor, Int.ofNat_eq_natCast] <;> omega
  next => cases h

/-! ## Single descriptors -/

theorem slot?_eq_some : t.slot? fd = some k ↔ k < t.slots.length ∧ fd = descriptor k := by
  constructor
  · intro h
    rw [slot?] at h
    split at h
    next hRange =>
      cases h
      simp only [descriptor, Int.ofNat_eq_natCast] at *
      omega
    next => cases h
  · rintro ⟨hLt, rfl⟩
    rw [slot?_descriptor, if_pos hLt]

theorem slot?_congr (h : t'.slots.length = t.slots.length) (fd : Int) :
    t'.slot? fd = t.slot? fd := by
  rw [slot?, slot?, h]

/-- The contents of one slot are changed, and the other descriptors keep their files. -/
theorem get?_put_of_slot (h : t.slot? fd = some k) (o : Option F) (fd' : Int) :
    (t.put fd o).get? fd' = if fd' = fd then o else t.get? fd' := by
  obtain ⟨hLt, rfl⟩ := slot?_eq_some.1 h
  have hSame : (DescriptorTable.mk (t.slots.set k o)).slot? fd' = t.slot? fd' :=
    slot?_congr List.length_set fd'
  rw [put_of_slot h, get?, hSame]
  by_cases hEq : fd' = descriptor k
  · rw [if_pos hEq, hEq, h, Option.bind_some, List.getElem?_set_self hLt, Option.join_some]
  · rw [if_neg hEq, get?]
    cases hSlot : t.slot? fd' with
    | none => rfl
    | some k' =>
      have hOther : k ≠ k' := by
        rintro rfl
        exact hEq (slot?_eq_some.1 hSlot).2
      rw [Option.bind_some, Option.bind_some, List.getElem?_set_ne hOther]

/-! ## Free descriptors -/

/-- The descriptor could name a file, and names none. -/
def Free (t : DescriptorTable F) (fd : Int) : Prop :=
  Int.ofNat firstFileDescriptor ≤ fd ∧ fd < Int.ofNat (firstFileDescriptor + t.slots.length) ∧
    t.get? fd = none

theorem free_iff : t.Free fd ↔ ∃ k, t.slots[k]? = some none ∧ fd = descriptor k := by
  constructor
  · rintro ⟨hFirst, hLast, hNone⟩
    obtain ⟨k, hLt, rfl⟩ : ∃ k, k < t.slots.length ∧ fd = descriptor k := by
      refine ⟨(fd - Int.ofNat firstFileDescriptor).toNat, ?_, ?_⟩ <;>
        simp only [descriptor, Int.ofNat_eq_natCast] at * <;> omega
    rw [get?_descriptor, List.getElem?_eq_getElem hLt] at hNone
    exact ⟨k, (List.getElem?_eq_getElem hLt).trans (congrArg some hNone), rfl⟩
  · rintro ⟨k, hNone, rfl⟩
    obtain ⟨hLt, -⟩ := List.getElem?_eq_some_iff.1 hNone
    refine ⟨?_, ?_, ?_⟩
    · simp only [descriptor, Int.ofNat_eq_natCast]
      omega
    · simp only [descriptor, Int.ofNat_eq_natCast]
      omega
    · rw [get?_descriptor, hNone]
      rfl

/-- A file gets the lowest free descriptor, and the others keep their files. -/
theorem least_of_install (h : t.install f = .ok (fd, t')) :
    t.Free fd ∧ (∀ fd', t.Free fd' → fd ≤ fd') ∧ t'.get? fd = some f ∧
      ∀ fd' ≠ fd, t'.get? fd' = t.get? fd' := by
  rw [install] at h
  split at h
  next k hFind =>
    cases h
    obtain ⟨hLt, hNone, hBefore⟩ := List.findIdx?_eq_some_iff_getElem.1 hFind
    refine ⟨free_iff.2 ⟨k, ?_, rfl⟩, fun fd' hFree => ?_, ?_, fun fd' hNe => ?_⟩
    · rw [List.getElem?_eq_getElem hLt, Option.isNone_iff_eq_none.1 hNone]
    · obtain ⟨j, hEmpty, rfl⟩ := free_iff.1 hFree
      obtain ⟨hLt', hEq⟩ := List.getElem?_eq_some_iff.1 hEmpty
      refine Int.not_lt.1 fun hBelow => hBefore j (descriptor_lt.1 hBelow) ?_
      rw [hEq]
      rfl
    · rw [get?_descriptor, List.getElem?_set_self hLt]
      rfl
    · have hSame : (DescriptorTable.mk (t.slots.set k (some f))).slot? fd' = t.slot? fd' := by
        rw [slot?, slot?, List.length_set]
      rw [get?, get?, hSame]
      cases hSlot : t.slot? fd' with
      | none => rfl
      | some k' =>
        have hOther : k ≠ k' := by
          rintro rfl
          exact hNe (slot?_eq_some.1 hSlot).2
        rw [Option.bind_some, Option.bind_some, List.getElem?_set_ne hOther]
  next => cases h

/-- A file finds no descriptor only in a full table. -/
theorem full_of_install (h : t.install f = .error g) (fd : Int) : ¬ t.Free fd := by
  rw [install] at h
  split at h
  next => cases h
  next hFind =>
    intro hFree
    obtain ⟨k, hEmpty, -⟩ := free_iff.1 hFree
    exact absurd (List.findIdx?_eq_none_iff.1 hFind none (List.mem_of_getElem? hEmpty)) nofun

/-! ## Labels -/

/-- The table of the labels that its files have. -/
def map (label : F → ι) (t : DescriptorTable F) : DescriptorTable ι := ⟨t.slots.map (Option.map label)⟩

variable (label : F → ι)

theorem files_map (t : DescriptorTable F) : (t.map label).files = t.files.map label := by
  simp only [files, map, List.filterMap_map, List.map_filterMap]
  rfl

theorem get?_map (t : DescriptorTable F) (fd : Int) : (t.map label).get? fd = (t.get? fd).map label := by
  have hSlot : (t.map label).slot? fd = t.slot? fd := by simp only [slot?, map, List.length_map]
  rw [get?, get?, hSlot, Option.map_bind]
  refine congrArg _ (funext fun k => ?_)
  simp only [map, List.getElem?_map, Function.comp_apply]
  rcases t.slots[k]? with _ | _ | f <;> rfl

theorem isOpen_map (t : DescriptorTable F) (fd : Int) : (t.map label).isOpen fd = t.isOpen fd := by
  rw [isOpen, isOpen, get?_map, Option.isSome_map]

/-- A file that makes way for one of the same label. -/
theorem map_put (hGet : t.get? fd = some f) (hLabel : label g = label f) :
    (t.put fd (some g)).map label = t.map label := by
  obtain ⟨k, hSlot, hAt⟩ := slot?_of_get? hGet
  have hMapped : (t.slots.map (Option.map label))[k]? = some (some (label f)) := by
    rw [List.getElem?_map, hAt]
    rfl
  obtain ⟨hLt, hEq⟩ := List.getElem?_eq_some_iff.1 hMapped
  rw [put_of_slot hSlot, map, map, List.map_set]
  show DescriptorTable.mk ((t.slots.map (Option.map label)).set k (some (label g))) = _
  rw [hLabel, ← hEq, List.set_getElem_self]

end PagedKernel.DescriptorTable
