import Mathlib.Data.Finmap
import Mathlib.Data.List.Sort
import PagedKernel.Proofs.Syscall.DescriptorTable

/-!
# Descriptor tables as finite maps

A table of open files is a finite map from descriptors to files, whose keys are those that the size of
the table lets a file have. A file goes to the least key that is absent; files are taken out in the
order of their keys. Whatever is asked of a table, in any order, it answers as the map does.

* `FileRequest`, `FileReply`: what is asked and what comes back.
* `FileMap`, `FileMap.perform`: the map, and what a request makes of it.
* `DescriptorTable.perform`: what the same request makes of a table.
* `DescriptorTable.Represents`, `DescriptorTable.Represents.perform`: a table represents a map, and one
  request keeps it so.
* `DescriptorTable.perm_perform`: no request makes or loses a file.
* `DescriptorTable.refines_fileMap`: so it is with any sequence of requests.
-/

namespace PagedKernel

variable {F σ : Type}

/-! ## Requests -/

inductive FileRequest (F : Type) where
  | install (f : F)
  | look (fd : Int)
  | replace (fd : Int) (f : F)
  | isOpen (fd : Int)
  | remove (fd : Int)
  | drain
  | takeFirst (n : Nat)

inductive FileReply (F : Type) where
  | installed (fd : Int)
  | refused (f : F)
  | seen (f : Option F)
  | told (yes : Bool)
  | handed (f : Option F)
  | drained (files : List F)
deriving DecidableEq

def FileReply.back : FileReply F → List F
  | .refused f => [f]
  | .handed f => f.toList
  | .drained files => files
  | .installed _ | .seen _ | .told _ => []

/-- The files that were given away with a request that has got this reply. A file that would replace one
that is not there stays where it is. -/
def FileRequest.given : FileRequest F → FileReply F → List F
  | .install f, _ => [f]
  | .replace _ f, .handed (some _) => [f]
  | _, _ => []

def serveRequests (perform : σ → FileRequest F → FileReply F × σ) (s : σ) :
    List (FileRequest F) → List (FileReply F) × σ
  | [] => ([], s)
  | q :: rest =>
    let (reply, s) := perform s q
    let (replies, s) := serveRequests perform s rest
    (reply :: replies, s)

theorem serveRequests_cons {perform : σ → FileRequest F → FileReply F × σ} {s s' : σ}
    {q : FileRequest F} {requests : List (FileRequest F)} {replies : List (FileReply F)}
    (h : serveRequests perform (perform s q).2 requests = (replies, s')) :
    serveRequests perform s (q :: requests) = ((perform s q).1 :: replies, s') := by
  rw [serveRequests]
  simp only [h]

/-! ## Maps -/

abbrev FileMap (F : Type) := Finmap fun _ : Int => F

namespace FileMap

variable (m : FileMap F)

/-- The keys that a file may have in a table with `size` descriptors, ascending. -/
def allKeys (size : Nat) : List Int :=
  (List.range' firstFileDescriptor (size - firstFileDescriptor)).map Int.ofNat

def leastAbsent? (size : Nat) : Option Int := (allKeys size).find? (· ∉ m)

def ascending (size : Nat) : List Int := (allKeys size).filter (· ∈ m)

def eraseAll (keys : List Int) : FileMap F := keys.foldl (fun m fd => m.erase fd) m

/-- What a request makes of a map with keys below `size`. -/
def perform (size : Nat) (m : FileMap F) : FileRequest F → FileReply F × FileMap F
  | .install f =>
    match m.leastAbsent? size with
    | some fd => (.installed fd, m.insert fd f)
    | none => (.refused f, m)
  | .look fd => (.seen (m.lookup fd), m)
  | .replace fd f => (.handed (m.lookup fd), if fd ∈ m then m.insert fd f else m)
  | .isOpen fd => (.told (fd ∈ m), m)
  | .remove fd => (.handed (m.lookup fd), m.erase fd)
  | .drain => (.drained ((m.ascending size).filterMap m.lookup), ∅)
  | .takeFirst n =>
    (.drained (((m.ascending size).take n).filterMap m.lookup), m.eraseAll ((m.ascending size).take n))

theorem mem_allKeys {size : Nat} {fd : Int} :
    fd ∈ allKeys size ↔ (firstFileDescriptor : Int) ≤ fd ∧ fd < size := by
  rw [allKeys, List.mem_map]
  constructor
  · rintro ⟨k, hk, rfl⟩
    rw [List.mem_range'_1] at hk
    rw [Int.ofNat_eq_natCast]
    omega
  · rintro ⟨hLow, hHigh⟩
    exact ⟨fd.toNat, List.mem_range'_1.2 (by omega), by rw [Int.ofNat_eq_natCast]; omega⟩

theorem pairwise_allKeys (size : Nat) : (allKeys size).Pairwise (· < ·) :=
  List.pairwise_map.2 ((List.pairwise_lt_range' ..).imp Int.ofNat_lt.2)

/-- The key that was found is absent, and lies below all others that are. -/
theorem leastAbsent?_eq_some {size : Nat} {fd : Int} (hKey : fd ∈ allKeys size) (hAbsent : fd ∉ m)
    (hLeast : ∀ fd' ∈ allKeys size, fd' ∉ m → fd ≤ fd') : m.leastAbsent? size = some fd := by
  obtain ⟨before, rest, hKeys⟩ := List.append_of_mem hKey
  have hAscend := pairwise_allKeys size
  rw [hKeys] at hAscend
  have hNone : before.find? (· ∉ m) = none := by
    refine List.find?_eq_none.2 fun fd' hBefore => ?_
    have hLt := (List.pairwise_append.1 hAscend).2.2 fd' hBefore fd List.mem_cons_self
    have hElse := hLeast fd' (hKeys ▸ List.mem_append_left _ hBefore)
    rw [decide_eq_true_iff]
    exact fun hNot => absurd (hElse hNot) (by omega)
  rw [leastAbsent?, hKeys, List.find?_append, hNone, Option.none_or]
  exact List.find?_cons_of_pos (decide_eq_true hAbsent)

theorem keys_eq_empty : m.keys = ∅ ↔ m = ∅ := by
  constructor
  · intro hKeys
    refine Finmap.ext_lookup fun fd => ?_
    rw [Finmap.lookup_empty, Finmap.lookup_eq_none, ← Finmap.mem_keys, hKeys]
    exact Finset.notMem_empty fd
  · rintro rfl
    exact Finmap.keys_empty

theorem lookup_eraseAll (keys : List Int) (fd : Int) :
    (m.eraseAll keys).lookup fd = if fd ∈ keys then none else m.lookup fd := by
  induction keys generalizing m with
  | nil => rfl
  | cons key keys ih =>
    show (eraseAll (m.erase key) keys).lookup fd = _
    rw [ih]
    by_cases hKey : fd = key
    · subst hKey
      simp [Finmap.lookup_erase]
    · simp [hKey, Finmap.lookup_erase_ne hKey]

end FileMap

namespace DescriptorTable

variable {t : DescriptorTable F} {m : FileMap F} {size : Nat}

def perform (t : DescriptorTable F) : FileRequest F → FileReply F × DescriptorTable F
  | .install f =>
    match t.install f with
    | .ok (fd, t) => (.installed fd, t)
    | .error f => (.refused f, t)
  | .look fd => (.seen (t.get? fd), t)
  | .replace fd f => (.handed (t.replace fd f).1, (t.replace fd f).2)
  | .isOpen fd => (.told (t.isOpen fd), t)
  | .remove fd => (.handed (t.remove fd).1, (t.remove fd).2)
  | .drain => (.drained t.drain.1, t.drain.2)
  | .takeFirst n => (.drained (t.takeFirst n).1, (t.takeFirst n).2)

/-! ## Descriptors in use -/

theorem mem_descriptors {fd : Int} : fd ∈ t.descriptors ↔ t.isOpen fd = true := by
  rw [descriptors, List.mem_filter, and_iff_right_iff_imp]
  intro hOpen
  obtain ⟨f, hGet⟩ := Option.isSome_iff_exists.1 hOpen
  obtain ⟨k, hSlot, -⟩ := slot?_of_get? hGet
  obtain ⟨hLt, rfl⟩ := slot?_eq_some.1 hSlot
  exact List.mem_map_of_mem (List.mem_range.2 hLt)

theorem descriptors_eq (t : DescriptorTable F) :
    t.descriptors = (t.slots.findIdxs (·.isSome)).map descriptor := by
  have hAscend : ((t.slots.findIdxs (·.isSome)).map descriptor).Pairwise (· < ·) :=
    List.pairwise_map.2 (List.pairwise_findIdxs.imp descriptor_lt.2)
  refine t.pairwise_descriptors.eq_of_mem_iff hAscend fun fd => ?_
  rw [mem_descriptors, List.mem_map]
  constructor
  · intro hOpen
    obtain ⟨f, hGet⟩ := Option.isSome_iff_exists.1 hOpen
    obtain ⟨k, hSlot, hAt⟩ := slot?_of_get? hGet
    obtain ⟨hLt, hEq⟩ := List.getElem?_eq_some_iff.1 hAt
    refine ⟨k, List.mem_findIdxs_iff_exists_getElem_pos.2 ⟨hLt, ?_⟩, (slot?_eq_some.1 hSlot).2.symm⟩
    rw [hEq]
    rfl
  · rintro ⟨k, hk, rfl⟩
    obtain ⟨hLt, hSome⟩ := List.mem_findIdxs_iff_exists_getElem_pos.1 hk
    rw [isOpen, get?_descriptor, List.getElem?_eq_getElem hLt]
    exact hSome

/-- The files that are taken are the first ones, and the slots of no others become empty. -/
theorem takeSlots_eq (n : Nat) (slots : List (Option F)) (start : Nat) :
    (takeSlots n slots).1 = (slots.filterMap id).take n ∧
      ∀ k, (takeSlots n slots).2[k]? =
        if start + k ∈ (slots.findIdxs (·.isSome) start).take n then some none else slots[k]? := by
  induction slots generalizing n start with
  | nil => simp [takeSlots]
  | cons slot rest ih =>
    cases n with
    | zero => simp [takeSlots]
    | succ n =>
      cases slot with
      | none =>
        obtain ⟨hTaken, hLeft⟩ := ih (n + 1) (start + 1)
        refine ⟨by simpa [takeSlots] using hTaken, fun k => ?_⟩
        cases k with
        | zero => simp [takeSlots]
        | succ k => simpa [takeSlots, Nat.add_assoc, Nat.add_comm 1 k] using hLeft k
      | some f =>
        obtain ⟨hTaken, hLeft⟩ := ih n (start + 1)
        refine ⟨by simpa [takeSlots] using hTaken, fun k => ?_⟩
        cases k with
        | zero => simp [takeSlots]
        | succ k => simpa [takeSlots, Nat.add_assoc, Nat.add_comm 1 k] using hLeft k

theorem length_takeSlots (n : Nat) (slots : List (Option F)) :
    (takeSlots n slots).2.length = slots.length := by
  induction slots generalizing n with
  | nil => rfl
  | cons slot rest ih => cases n <;> cases slot <;> simp [takeSlots, ih]

/-- The descriptors of the files that are taken become free, and no others. -/
theorem get?_takeFirst (t : DescriptorTable F) (n : Nat) (fd : Int) :
    (t.takeFirst n).2.get? fd = if fd ∈ t.descriptors.take n then none else t.get? fd := by
  have hSame : (t.takeFirst n).2.slot? fd = t.slot? fd := slot?_congr (length_takeSlots n t.slots) fd
  cases hSlot : t.slot? fd with
  | none =>
    rw [get?, get?, hSame, hSlot]
    exact (ite_self none).symm
  | some k =>
    obtain ⟨-, rfl⟩ := slot?_eq_some.1 hSlot
    have hMem : descriptor k ∈ t.descriptors.take n ↔ k ∈ (t.slots.findIdxs (·.isSome)).take n := by
      rw [descriptors_eq, ← List.map_take]
      exact List.mem_map_of_injective fun i j hEq => by
        rw [descriptor, descriptor, Int.ofNat_eq_natCast, Int.ofNat_eq_natCast] at hEq
        omega
    obtain ⟨-, hLeft⟩ := takeSlots_eq n t.slots 0
    rw [get?_descriptor, get?_descriptor, takeFirst, hLeft k, Nat.zero_add]
    simp only [hMem]
    split <;> rfl

theorem get?_drain (t : DescriptorTable F) (fd : Int) : t.drain.2.get? fd = none := by
  rw [get?, Option.bind_eq_none_iff]
  intro k _
  rw [drain, List.getElem?_map]
  cases t.slots[k]? <;> rfl

theorem files_take (t : DescriptorTable F) (n : Nat) :
    t.files.take n = (t.descriptors.take n).filterMap t.get? := by
  have hOpen : ∀ fd ∈ t.descriptors, (t.get? fd).isSome = true := fun _ => mem_descriptors.1
  rw [files_eq]
  generalize t.descriptors = fds at hOpen
  induction fds generalizing n with
  | nil => simp
  | cons fd fds ih =>
    obtain ⟨f, hGet⟩ := Option.isSome_iff_exists.1 (hOpen fd List.mem_cons_self)
    cases n with
    | zero => rfl
    | succ n =>
      have hRest := ih n fun fd' h => hOpen fd' (List.mem_cons_of_mem fd h)
      simp only [List.filterMap_cons, hGet, List.take_succ_cons, hRest]

/-! ## Tables and maps -/

/-- The table has the files of the map, and room for the keys below `size`. -/
structure Represents (t : DescriptorTable F) (size : Nat) (m : FileMap F) : Prop where
  length_eq : t.slots.length = size - firstFileDescriptor
  get?_eq (fd : Int) : t.get? fd = m.lookup fd

theorem represents_ofSize (size : Nat) : (ofSize size : DescriptorTable F).Represents size ∅ where
  length_eq := List.length_replicate
  get?_eq fd := by
    rw [Finmap.lookup_empty, get?, Option.bind_eq_none_iff]
    intro k _
    rw [ofSize, List.getElem?_replicate]
    split <;> rfl

theorem files_ofSize (size : Nat) : (ofSize size : DescriptorTable F).files = [] := by
  rw [files, ofSize, List.filterMap_replicate_of_none rfl]

section Represents

variable (h : t.Represents size m)

include h

theorem Represents.mem_iff {fd : Int} : fd ∈ m ↔ t.isOpen fd = true := by
  rw [← Finmap.lookup_isSome, ← h.get?_eq, isOpen]

theorem Represents.free_iff {fd : Int} : t.Free fd ↔ fd ∈ FileMap.allKeys size ∧ fd ∉ m := by
  have hLength := h.length_eq
  rw [Free, FileMap.mem_allKeys, h.get?_eq, Finmap.lookup_eq_none, Int.ofNat_eq_natCast,
    Int.ofNat_eq_natCast, ← and_assoc]
  refine and_congr_left fun _ => ?_
  constructor <;> rintro ⟨hLow, hHigh⟩ <;> omega

theorem Represents.exists_slot_iff {fd : Int} :
    (∃ k < t.slots.length, t.slot? fd = some k) ↔ (firstFileDescriptor : Int) ≤ fd ∧ fd < size := by
  have hLength := h.length_eq
  simp only [slot?_eq_some, descriptor, Int.ofNat_eq_natCast]
  constructor
  · rintro ⟨k, -, hLt, rfl⟩
    omega
  · rintro ⟨hLow, hHigh⟩
    exact ⟨(fd - firstFileDescriptor).toNat, by omega, by omega, by omega⟩

theorem Represents.bounds_of_mem {fd : Int} (hMem : fd ∈ m) :
    (firstFileDescriptor : Int) ≤ fd ∧ fd < size := by
  obtain ⟨f, hGet⟩ := Option.isSome_iff_exists.1 (h.mem_iff.1 hMem)
  obtain ⟨k, hSlot, -⟩ := slot?_of_get? hGet
  exact h.exists_slot_iff.1 ⟨k, (slot?_eq_some.1 hSlot).1, hSlot⟩

theorem Represents.descriptors_eq : t.descriptors = m.ascending size := by
  refine t.pairwise_descriptors.eq_of_mem_iff ((FileMap.pairwise_allKeys size).filter _) fun fd => ?_
  rw [mem_descriptors, FileMap.ascending, List.mem_filter, decide_eq_true_iff, ← h.mem_iff,
    iff_and_self, FileMap.mem_allKeys]
  exact h.bounds_of_mem

/-- A file gets the least key that is absent, if there is one. -/
theorem Represents.install (f : F) : (t.perform (.install f)).1 = (m.perform size (.install f)).1 ∧
    (t.perform (.install f)).2.Represents size (m.perform size (.install f)).2 := by
  rw [DescriptorTable.perform, FileMap.perform]
  cases hInstall : t.install f with
  | error g =>
    obtain rfl := eq_of_install hInstall
    have hFull : m.leastAbsent? size = none := by
      refine List.find?_eq_none.2 fun fd hKey => ?_
      rw [decide_eq_true_iff]
      exact fun hAbsent => full_of_install hInstall fd (h.free_iff.2 ⟨hKey, hAbsent⟩)
    rw [hFull]
    exact ⟨rfl, h⟩
  | ok out =>
    obtain ⟨fd, t'⟩ := out
    obtain ⟨hFree, hLeast, hGet, hOthers⟩ := least_of_install hInstall
    obtain ⟨hKey, hAbsent⟩ := h.free_iff.1 hFree
    have hMin : m.leastAbsent? size = some fd :=
      m.leastAbsent?_eq_some hKey hAbsent fun fd' hKey' hAbsent' =>
        hLeast fd' (h.free_iff.2 ⟨hKey', hAbsent'⟩)
    rw [hMin]
    refine ⟨rfl, (bounds_install hInstall).1.trans h.length_eq, fun fd' => ?_⟩
    by_cases hEq : fd' = fd
    · rw [hEq, hGet, Finmap.lookup_insert]
    · rw [hOthers fd' hEq, h.get?_eq, Finmap.lookup_insert_of_ne _ hEq]

theorem Represents.put {fd : Int} {old : F} (hOld : t.get? fd = some old) (o : Option F) (m' : FileMap F)
    (hHere : m'.lookup fd = o) (hElse : ∀ fd' ≠ fd, m'.lookup fd' = m.lookup fd') :
    (t.put fd o).Represents size m' where
  length_eq := (t.length_put fd o).trans h.length_eq
  get?_eq fd' := by
    obtain ⟨k, hSlot, -⟩ := slot?_of_get? hOld
    rw [get?_put_of_slot hSlot]
    split
    next hEq => rw [hEq, hHere]
    next hNe => rw [hElse fd' hNe, h.get?_eq]

/-- One request is answered as the map answers it, and the table represents the map that results. -/
theorem Represents.perform (q : FileRequest F) :
    (t.perform q).1 = (m.perform size q).1 ∧ (t.perform q).2.Represents size (m.perform size q).2 := by
  cases q with
  | install f => exact h.install f
  | look fd => exact ⟨congrArg _ (h.get?_eq fd), h⟩
  | isOpen fd =>
    refine ⟨congrArg FileReply.told ?_, h⟩
    rw [Bool.eq_iff_iff, decide_eq_true_iff, h.mem_iff]
  | replace fd f =>
    rw [DescriptorTable.perform, FileMap.perform, replace, ← h.get?_eq]
    cases hGet : t.get? fd with
    | none =>
      have hAbsent : fd ∉ m := Finmap.lookup_eq_none.1 ((h.get?_eq fd).symm.trans hGet)
      rw [if_neg hAbsent]
      exact ⟨rfl, h⟩
    | some old =>
      rw [if_pos (Finmap.mem_of_lookup_eq_some ((h.get?_eq fd).symm.trans hGet))]
      exact ⟨rfl, h.put hGet _ _ (Finmap.lookup_insert m) fun _ => Finmap.lookup_insert_of_ne m⟩
  | remove fd =>
    rw [DescriptorTable.perform, FileMap.perform, remove, ← h.get?_eq]
    cases hGet : t.get? fd with
    | none =>
      refine ⟨rfl, h.length_eq, fun fd' => ?_⟩
      rw [h.get?_eq]
      by_cases hEq : fd' = fd
      · rw [hEq, Finmap.lookup_erase, ← h.get?_eq, hGet]
      · rw [Finmap.lookup_erase_ne hEq]
    | some f => exact ⟨rfl, h.put hGet _ _ (Finmap.lookup_erase fd m) fun _ => Finmap.lookup_erase_ne⟩
  | drain =>
    refine ⟨congrArg FileReply.drained ?_, t.length_drain.trans h.length_eq, fun fd => ?_⟩
    · rw [drain, files_eq, h.descriptors_eq, funext h.get?_eq]
    · rw [DescriptorTable.perform, get?_drain, FileMap.perform, Finmap.lookup_empty]
  | takeFirst n =>
    refine ⟨congrArg FileReply.drained ?_, (length_takeSlots n t.slots).trans h.length_eq, fun fd => ?_⟩
    · rw [takeFirst, (takeSlots_eq n t.slots 0).1, ← files, files_take, h.descriptors_eq,
        funext h.get?_eq]
    · rw [DescriptorTable.perform, get?_takeFirst, FileMap.perform, FileMap.lookup_eraseAll,
        h.descriptors_eq, h.get?_eq]

theorem Represents.size_eq : t.size = m.keys.card := by
  have hKeys : m.keys = t.descriptors.toFinset := by
    ext fd
    rw [List.mem_toFinset, mem_descriptors, Finmap.mem_keys, h.mem_iff]
  calc t.size = t.descriptors.length := by
        rw [DescriptorTable.size, files, DescriptorTable.descriptors_eq, List.length_filterMap_eq_countP,
          List.length_map, List.length_findIdxs]
        rfl
    _ = m.keys.card := by
        rw [hKeys, List.toFinset_card_of_nodup (t.pairwise_descriptors.imp Int.ne_of_lt)]

end Represents

/-! ## No file is made or lost -/

theorem perm_takeSlots (n : Nat) (slots : List (Option F)) :
    ((takeSlots n slots).2.filterMap id ++ (takeSlots n slots).1).Perm (slots.filterMap id) := by
  induction slots generalizing n with
  | nil => exact List.Perm.refl _
  | cons slot rest ih =>
    cases n with
    | zero => simp [takeSlots]
    | succ n =>
      cases slot with
      | none => exact ih (n + 1)
      | some f => exact List.perm_middle.trans ((ih n).cons f)

/-- What is in the table and what comes back is what was in the table and what was given away. -/
theorem perm_perform (t : DescriptorTable F) (q : FileRequest F) :
    ((t.perform q).2.files ++ (t.perform q).1.back).Perm (t.files ++ q.given (t.perform q).1) := by
  cases q with
  | install f =>
    rw [perform]
    cases hInstall : t.install f with
    | error g =>
      obtain rfl := eq_of_install hInstall
      exact List.Perm.refl _
    | ok out =>
      rw [FileReply.back, List.append_nil]
      exact (perm_install hInstall).trans (List.perm_append_singleton f t.files).symm
  | look fd => exact List.Perm.refl _
  | isOpen fd => exact List.Perm.refl _
  | replace fd f =>
    rw [perform, replace]
    cases hGet : t.get? fd with
    | none => exact List.Perm.refl _
    | some old =>
      obtain ⟨k, hSlot, hAt⟩ := slot?_of_get? hGet
      have hPerm := perm_filterMap_set hAt (some f)
      rw [put_of_slot hSlot]
      exact List.perm_append_comm.trans (hPerm.trans List.perm_append_comm)
  | remove fd =>
    rw [perform, remove]
    cases hGet : t.get? fd with
    | none => exact List.Perm.refl _
    | some f =>
      obtain ⟨k, hSlot, hAt⟩ := slot?_of_get? hGet
      have hPerm := perm_filterMap_set hAt none
      rw [put_of_slot hSlot]
      exact List.perm_append_comm.trans (hPerm.trans List.perm_append_comm)
  | drain =>
    rw [perform, files_drain]
    exact List.perm_append_comm
  | takeFirst n =>
    rw [perform, takeFirst]
    refine List.Perm.trans ?_ (List.Perm.of_eq (List.append_nil t.files).symm)
    exact perm_takeSlots n t.slots

/-! ## Requests one after another -/

theorem bounds_of_installed {m : FileMap F} {q : FileRequest F} {fd : Int}
    (h : (m.perform size q).1 = .installed fd) : (firstFileDescriptor : Int) ≤ fd ∧ fd < size := by
  cases q with
  | install f =>
    rw [FileMap.perform] at h
    split at h
    next fd' hSome =>
      obtain rfl := FileReply.installed.inj h
      exact FileMap.mem_allKeys.1 (List.mem_of_find?_eq_some hSome)
    next => cases h
  | look | replace | isOpen | remove | drain | takeFirst => cases h

/-- A table that represents a map answers all requests as the map does. -/
theorem Represents.serveRequests (h : t.Represents size m) (requests : List (FileRequest F)) :
    ∃ replies t' m', PagedKernel.serveRequests DescriptorTable.perform t requests = (replies, t') ∧
      PagedKernel.serveRequests (FileMap.perform size) m requests = (replies, m') ∧
      t'.Represents size m' ∧
      (∀ fd, .installed fd ∈ replies → (firstFileDescriptor : Int) ≤ fd ∧ fd < size) ∧
      (t'.files ++ replies.flatMap FileReply.back).Perm
        (t.files ++ (requests.zipWith FileRequest.given replies).flatten) := by
  induction requests generalizing t m with
  | nil => exact ⟨[], t, m, rfl, rfl, h, nofun, List.Perm.refl _⟩
  | cons q requests ih =>
    obtain ⟨hReply, hNext⟩ := h.perform q
    obtain ⟨replies, t', m', hTable, hMap, hRest, hInstalled, hPerm⟩ := ih hNext
    refine ⟨(t.perform q).1 :: replies, t', m', serveRequests_cons hTable, ?_, hRest, ?_, ?_⟩
    · rw [hReply]
      exact serveRequests_cons hMap
    · intro fd hMem
      rcases List.mem_cons.1 hMem with hFirst | hLater
      · exact bounds_of_installed (hReply.symm.trans hFirst.symm)
      · exact hInstalled fd hLater
    · rw [List.flatMap_cons, List.zipWith_cons_cons, List.flatten_cons]
      refine (List.perm_append_comm_assoc _ _ _).trans ((hPerm.append_left _).trans ?_)
      refine (List.perm_append_comm_assoc _ _ _).trans ?_
      rw [← List.append_assoc, ← List.append_assoc]
      exact (t.perm_perform q).append_right _

/-- Whatever is asked of a new table, it answers as a map whose keys are those from the first descriptor of
a file on and below the size of the table. Then the same files are open under the same descriptors in
both, and they are counted alike. The descriptors that can name a file, or have been given to one, are
32-bit numbers, and each has its slot in the table. The files that are there or have come back are those
that were given away, each as often as it was. -/
theorem refines_fileMap {size : Nat} (hSize : size ≤ 2 ^ 31) (requests : List (FileRequest F)) :
    ∃ (replies : List (FileReply F)) (t : DescriptorTable F) (m : FileMap F),
      PagedKernel.serveRequests perform (ofSize size) requests = (replies, t) ∧
      PagedKernel.serveRequests (FileMap.perform size) ∅ requests = (replies, m) ∧
      (∀ fd, t.get? fd = m.lookup fd) ∧ (∀ fd, t.isOpen fd = decide (fd ∈ m)) ∧
      (∀ fd ∈ m, (firstFileDescriptor : Int) ≤ fd ∧ fd < size) ∧
      t.size = m.keys.card ∧ (t.isEmpty = true ↔ m = ∅) ∧
      (∀ fd, .installed fd ∈ replies → (firstFileDescriptor : Int) ≤ fd ∧ fd < size) ∧
      (∀ fd, (firstFileDescriptor : Int) ≤ fd ∧ fd < size →
        fd < 2 ^ 31 ∧ ∃ k < t.slots.length, t.slot? fd = some k) ∧
      (∀ fd k, t.slot? fd = some k → k < t.slots.length) ∧
      (t.files ++ replies.flatMap FileReply.back).Perm
        (requests.zipWith FileRequest.given replies).flatten := by
  obtain ⟨replies, t, m, hTable, hMap, h, hInstalled, hPerm⟩ :=
    (represents_ofSize size).serveRequests requests
  refine ⟨replies, t, m, hTable, hMap, h.get?_eq, fun fd => ?_, fun _ => h.bounds_of_mem, h.size_eq, ?_,
    hInstalled, fun fd hKey => ⟨?_, h.exists_slot_iff.2 hKey⟩, fun _ _ hSlot => (slot?_eq_some.1 hSlot).1, ?_⟩
  · rw [Bool.eq_iff_iff, decide_eq_true_iff, h.mem_iff]
  · rw [isEmpty, beq_iff_eq, h.size_eq, Finset.card_eq_zero, FileMap.keys_eq_empty]
  · exact lt_of_lt_of_le hKey.2 (by exact_mod_cast hSize)
  · rwa [files_ofSize, List.nil_append] at hPerm

/-- In a table with room for two files the third is handed back; a descriptor that becomes free is given
again, and one file is taken out of two. -/
theorem refines_fileMap_five : ∃ m : FileMap Nat, 5 ≤ 2 ^ 31 ∧
    PagedKernel.serveRequests perform (ofSize 5)
        [.install 7, .install 8, .install 9, .remove 3, .install 9, .look 2, .takeFirst 1] =
      ([.installed 3, .installed 4, .refused 9, .handed (some 7), .installed 3, .seen none, .drained [9]],
        ⟨[none, some 8]⟩) ∧
    PagedKernel.serveRequests (FileMap.perform 5) ∅
        [.install 7, .install 8, .install 9, .remove 3, .install 9, .look 2, .takeFirst 1] =
      ([.installed 3, .installed 4, .refused 9, .handed (some 7), .installed 3, .seen none, .drained [9]],
        m) ∧
    m.lookup 4 = some 8 ∧ m.keys.card = 1 := by
  obtain ⟨replies, t, m, hTable, hMap, hGet, -, -, hSize, -⟩ := @refines_fileMap Nat 5 (by decide)
    [.install 7, .install 8, .install 9, .remove 3, .install 9, .look 2, .takeFirst 1]
  obtain ⟨rfl, rfl⟩ := Prod.mk.inj hTable
  exact ⟨m, by decide, rfl, hMap, (hGet 4).symm, hSize.symm⟩

end DescriptorTable

end PagedKernel
