import PagedKernel.AddressSpace.Mapping
import PagedKernel.Proofs.AddressSpace.Mapping
import PagedKernel.Proofs.AddressSpace.Queries

/-!
# Changing a leaf

`AddressSpace.unmap` and `AddressSpace.setLeafFlag` look for the leaf entry of an address, and change
one of its flags. Where there is no leaf table they do nothing.

* `Entry.target_putFlag`: what an entry points at after a flag was changed.
* `Plan.Fits.leaf?_setEntry`: what the addresses of all spaces have when an entry was replaced.
* `Plan.Describes.unmap_cases`, `Plan.Describes.setLeafFlag_cases`: what the two do.
-/

namespace PagedKernel

open MachineM

namespace Entry

theorem target_putFlag (e : Entry) {f : Field} (hFlag : f.isFlag = true) (hPresent : f ≠ .present)
    (hSmall : f ≠ .pageSize) (on : Bool) : (e.putFlag f on).target = e.target := by
  have hNumber : f ≠ .frameNumber := by
    rintro rfl
    cases hFlag
  have hP : (e.putFlag f on).flag .present = e.flag .present := by
    rw [flag_putFlag e hFlag, if_neg hPresent.symm]
  have hS : (e.putFlag f on).flag .pageSize = e.flag .pageSize := by
    rw [flag_putFlag e hFlag, if_neg hSmall.symm]
  rw [target, present, hP, hS, get_putFlag_of_ne e hNumber]
  rfl

theorem target_putFlag_present (e : Entry) : (e.putFlag .present false).target = .ok none := by
  rw [target_eq_none, present, flag_putFlag e rfl, if_pos rfl]

end Entry

namespace AddressSpace

variable {s : AddressSpace} {a : VirtualAddress} {f : Entry.Field} {on : Bool} {m : Machine}
  {slot : Slot} {e : WalkError}

/-- What is no user page, or no page of a space that may be changed, is refused before anything is done. -/
theorem unmap_refused (h : ¬ (a.isAligned = true ∧ a.isUser = true ∧ s.isKernel = false)) :
    ∃ v, v ≠ .hugePage ∧ s.unmap a m = .error v m := by
  rw [unmap]
  by_cases hAligned : a.isAligned = true
  · obtain ⟨v, hv, hRefused⟩ := requireMutable_error (mt (fun hOk => ⟨hAligned, hOk⟩) h)
    simp only [hAligned, ↓reduceIte]
    rw [Stateful.bind_error (Stateful.lift_error hRefused)]
    exact ⟨v, hv, rfl⟩
  · simp only [hAligned]
    exact ⟨.unalignedUserPage a, nofun, rfl⟩

theorem setLeafFlag_refused (h : ¬ (a.isUser = true ∧ s.isKernel = false)) (f : Entry.Field)
    (on : Bool) (m : Machine) :
    ∃ v, v ≠ .hugePage ∧ s.setLeafFlag f a on m = .error v m := by
  obtain ⟨v, hv, hRefused⟩ := requireMutable_error h
  rw [setLeafFlag, Stateful.bind_error (Stateful.lift_error hRefused)]
  exact ⟨v, hv, rfl⟩

variable (hUser : a.isUser = true) (hKernel : s.isKernel = false)

include hUser hKernel

theorem unmap_missing (hAligned : a.isAligned = true)
    (hLookup : m.memory.lookup s.root a = .ok (.error e)) : s.unmap a m = .ok () m := by
  rw [unmap]
  simp only [hAligned, ↓reduceIte]
  rw [Stateful.bind_ok (Stateful.lift_ok (requireMutable_ok hUser hKernel)),
    Stateful.bind_ok (look_ok (f := (·.lookup s.root a)) hLookup)]
  rfl

theorem unmap_absent (hAligned : a.isAligned = true)
    (hLookup : m.memory.lookup s.root a = .ok (.ok slot))
    (hAbsent : (m.memory.entry slot).present = false) : s.unmap a m = .ok () m := by
  rw [unmap]
  simp only [hAligned, ↓reduceIte]
  rw [Stateful.bind_ok (Stateful.lift_ok (requireMutable_ok hUser hKernel)),
    Stateful.bind_ok (look_ok (f := (·.lookup s.root a)) hLookup)]
  simp only [Stateful.bind_ok (look_value fun m => m.entry slot), hAbsent]
  rfl

theorem unmap_present (hAligned : a.isAligned = true)
    (hLookup : m.memory.lookup s.root a = .ok (.ok slot))
    (hPresent : (m.memory.entry slot).present = true) :
    ∃ m', s.unmap a m = .ok () m' ∧ m'.frames = m.frames ∧
      m'.memory = m.memory.setEntry slot ((m.memory.entry slot).putFlag .present false) := by
  rw [unmap]
  simp only [hAligned, ↓reduceIte]
  rw [Stateful.bind_ok (Stateful.lift_ok (requireMutable_ok hUser hKernel)),
    Stateful.bind_ok (look_ok (f := (·.lookup s.root a)) hLookup)]
  simp only [Stateful.bind_ok (look_value fun m => m.entry slot), hPresent, ↓reduceIte]
  rw [Stateful.bind_ok (setEntry_apply _ _), forget, Stateful.bind_ok (tell_apply _)]
  exact ⟨_, rfl, rfl, rfl⟩

theorem setLeafFlag_missing (hLookup : m.memory.lookup s.root a = .ok (.error e)) :
    s.setLeafFlag f a on m = .ok () m := by
  rw [setLeafFlag, Stateful.bind_ok (Stateful.lift_ok (requireMutable_ok hUser hKernel)),
    Stateful.bind_ok (look_ok (f := (·.lookup s.root a)) hLookup)]
  rfl

theorem setLeafFlag_found (hLookup : m.memory.lookup s.root a = .ok (.ok slot)) (f : Entry.Field)
    (on : Bool) :
    ∃ m', s.setLeafFlag f a on m = .ok () m' ∧ m'.frames = m.frames ∧
      m'.memory = m.memory.setEntry slot ((m.memory.entry slot).putFlag f on) := by
  rw [setLeafFlag, Stateful.bind_ok (Stateful.lift_ok (requireMutable_ok hUser hKernel)),
    Stateful.bind_ok (look_ok (f := (·.lookup s.root a)) hLookup)]
  simp only [Stateful.bind_ok (look_value fun m => m.entry slot)]
  rw [Stateful.bind_ok (setEntry_apply _ _), forget, tell_apply]
  exact ⟨_, rfl, rfl, rfl⟩

end AddressSpace

/-! ## What the addresses have then -/

namespace Plan

variable {plan plan' : Plan} {kernel r t f : Frame} {roots held : List Frame} {m : Memory}
  {a b : VirtualAddress} {e : Entry}

/-- The entry of one address is replaced: its page has the new entry, in its space alone. -/
theorem Fits.leaf?_setEntry (h : plan.Fits kernel roots m)
    (ht : plan t = some ⟨r, a.pathTo .pt⟩)
    (h' : plan'.Fits kernel roots (m.setEntry ⟨t, Level.pt.indexOf a⟩ e))
    (hTables : ∀ {u r' path}, path.length = 3 → (plan' u = some ⟨r', path⟩ ↔ plan u = some ⟨r', path⟩))
    {r' : Frame} (hRoot : r' ∈ roots) (hb : b.isUser = true) :
    (m.setEntry ⟨t, Level.pt.indexOf a⟩ e).leaf? r' b =
      if r' = r ∧ b.path = a.path then .ok (some e) else m.leaf? r' b := by
  have hHalf := h.ownHalf hRoot hb
  have hEntry := Memory.entry_setEntry (s := ⟨t, Level.pt.indexOf a⟩) (h.holds ht) e
  split
  next hSame =>
    obtain ⟨rfl, hPath⟩ := hSame
    obtain ⟨hIndex, hRegion⟩ := List.cons.inj hPath
    rw [← hRegion] at ht
    rw [h'.leaf?_of_place hHalf (h'.root_place hRoot) ((hTables (by simp [Level.depth])).2 ht), hEntry,
      hIndex, if_pos rfl]
  next hElse =>
    refine h.leaf?_congr h' hHalf (h.root_place hRoot) (h'.root_place hRoot)
      (fun u => hTables (by simp [Level.depth])) (fun u hu => ?_)
    rw [hEntry, if_neg]
    intro hEq
    obtain ⟨rfl, hIndex⟩ := slot_inj hEq
    rw [ht] at hu
    obtain ⟨rfl, hRegion⟩ : r = r' ∧ a.pathTo .pt = b.pathTo .pt := by simpa using hu
    exact hElse ⟨rfl, by rw [VirtualAddress.path, hIndex, ← hRegion]; rfl⟩

theorem Describes.editLeaf {s s' : Machine} (h : plan.Describes kernel roots held s)
    (hRoot : r ∈ roots) (ht : plan t = some ⟨r, a.pathTo .pt⟩) (hFrames : s'.frames = s.frames)
    {i : TableIndex} (hMemory : s'.memory = s.memory.setEntry ⟨t, i⟩ e)
    (hSmall : e.flag .pageSize = false) (hTarget : e.target = (s.memory.entry ⟨t, i⟩).target) :
    plan.Describes kernel roots held s' := by
  have hKernel : r = kernel → roots = [] := fun hEq => absurd hEq (h.fits.ne_kernel hRoot)
  refine ⟨?_, h.accounts.congr (by rw [hFrames]) (by rw [hFrames]) ?_⟩
  · rw [hMemory]
    exact h.fits.editLeaf ht (by simp [Level.depth]) hKernel hSmall hTarget
  · rw [hMemory, Memory.frames_setEntry]

theorem Describes.cutLeaf {s s' : Machine} (h : plan.Describes kernel roots held s)
    (hRoot : r ∈ roots) (ht : plan t = some ⟨r, a.pathTo .pt⟩) (hFrames : s'.frames = s.frames)
    {i : TableIndex} (hMemory : s'.memory = s.memory.setEntry ⟨t, i⟩ e)
    (hSmall : e.flag .pageSize = false) (hOld : (s.memory.entry ⟨t, i⟩).target = .ok (some f))
    (hTarget : e.target = .ok none) : (plan.cut f).Describes kernel roots (f :: held) s' := by
  have hKernel : r = kernel → roots = [] := fun hEq => absurd hEq (h.fits.ne_kernel hRoot)
  have hPlace : plan f = some ⟨r, i :: a.pathTo .pt⟩ := (h.fits.leaf ht rfl i).2 f hOld
  refine ⟨?_, (h.accounts.takeBack hPlace).congr (by rw [hFrames]) (by rw [hFrames]) ?_⟩
  · rw [hMemory]
    exact h.fits.cutLeaf ht (by simp [Level.depth]) hKernel hOld hSmall hTarget
  · rw [hMemory, Memory.frames_setEntry]

theorem Describes.markLeaf {s s' : Machine} (h : plan.Describes kernel roots held s)
    (hRoot : r ∈ roots) (ht : plan t = some ⟨r, a.pathTo .pt⟩) (hFrames : s'.frames = s.frames)
    {i : TableIndex} {f : Entry.Field} (hf : f = .dirty ∨ f = .accessed) {on : Bool}
    (hMemory : s'.memory = s.memory.setEntry ⟨t, i⟩ ((s.memory.entry ⟨t, i⟩).putFlag f on)) :
    plan.Describes kernel roots held s' := by
  have hFlag : f.isFlag = true := by rcases hf with rfl | rfl <;> rfl
  have hPresent : f ≠ .present := by rcases hf with rfl | rfl <;> decide
  have hSize : f ≠ .pageSize := by rcases hf with rfl | rfl <;> decide
  have hSmall := (h.fits.leaf ht rfl i).1
  exact h.editLeaf hRoot ht hFrames hMemory
    (by rw [Entry.flag_putFlag _ hFlag, if_neg hSize.symm, hSmall])
    (Entry.target_putFlag _ hFlag hPresent hSize on)

/-- A page that is cut off is no leaf table. -/
theorem cut_leafTable {path q : List TableIndex} {u r' : Frame} (hPlace : plan f = some ⟨r, path⟩)
    (hPage : path.length = 4) (hq : q.length = 3) :
    plan.cut f u = some ⟨r', q⟩ ↔ plan u = some ⟨r', q⟩ := by
  rw [cut_eq_some, and_iff_right_iff_imp]
  rintro hu rfl
  rw [hPlace] at hu
  obtain ⟨-, rfl⟩ : r = r' ∧ path = q := by simpa using hu
  omega

variable {s : AddressSpace} {x x' : Machine}

/-- The leaf of one address was replaced: its page has the new entry, in its space alone, and every
other address of every space has what it had. -/
def Replaced (roots : List Frame) (x x' : Machine) (r : Frame) (a : VirtualAddress) (e : Entry) :
    Prop :=
  ∀ r' ∈ roots, ∀ b : VirtualAddress, b.isUser = true →
    x'.memory.leaf? r' b = if r' = r ∧ b.path = a.path then .ok (some e) else x.memory.leaf? r' b

/-- A flag of a leaf is overwritten, if there is a leaf. -/
theorem Describes.setLeafFlag_cases (h : plan.Describes kernel roots held x) (hRoot : s.root ∈ roots)
    (hUser : a.isUser = true) (hKernel : s.isKernel = false) {f : Entry.Field}
    (hf : f = .dirty ∨ f = .accessed) (on : Bool) :
    x.memory.leaf? s.root a = .ok none ∧ s.setLeafFlag f a on x = .ok () x ∨
      ∃ e x', x.memory.leaf? s.root a = .ok (some e) ∧ s.setLeafFlag f a on x = .ok () x' ∧
        plan.Describes kernel roots held x' ∧ Replaced roots x x' s.root a (e.putFlag f on) := by
  have hHalf := h.fits.ownHalf hRoot hUser
  have hPlace := h.fits.root_place hRoot
  rcases h.fits.leaf?_cases hHalf hPlace with ⟨t, ht, hLeaf⟩ | ⟨hNone, hLeaf⟩
  · obtain ⟨x', hMark, hFrames, hMemory⟩ := AddressSpace.setLeafFlag_found hUser hKernel
      (h.fits.lookup_eq hHalf hPlace ht) f on
    have hAfter := h.markLeaf hRoot ht hFrames hf hMemory
    refine Or.inr ⟨_, x', hLeaf, hMark, hAfter, fun r' hr' b hb => ?_⟩
    have hFits' := hAfter.fits
    rw [hMemory] at hFits' ⊢
    exact h.fits.leaf?_setEntry ht hFits' (fun _ => Iff.rfl) hr' hb
  · obtain ⟨below, hMissing⟩ := h.fits.lookup_missing hHalf hPlace hNone
    exact Or.inl ⟨hLeaf, AddressSpace.setLeafFlag_missing hUser hKernel hMissing⟩

/-- A page is unmapped, if it is mapped, and its frame goes to the caller. -/
theorem Describes.unmap_cases (h : plan.Describes kernel roots held x) (hRoot : s.root ∈ roots)
    (hAligned : a.isAligned = true) (hUser : a.isUser = true) (hKernel : s.isKernel = false) :
    s.translate x.memory a = .ok none ∧ s.unmap a x = .ok () x ∧
        (∀ e, x.memory.leaf? s.root a = .ok (some e) → e.present = false) ∨
      ∃ e f x', x.memory.leaf? s.root a = .ok (some e) ∧ plan f = some ⟨s.root, a.path⟩ ∧
        s.translate x.memory a = .ok (some (f.join a.offset)) ∧ s.unmap a x = .ok () x' ∧
        (plan.cut f).Describes kernel roots (f :: held) x' ∧
        Replaced roots x x' s.root a (e.putFlag .present false) := by
  have hHalf := h.fits.ownHalf hRoot hUser
  have hPlace := h.fits.root_place hRoot
  rcases h.fits.leaf?_cases hHalf hPlace with ⟨t, ht, hLeaf⟩ | ⟨hNone, hLeaf⟩
  · have hLookup := h.fits.lookup_eq hHalf hPlace ht
    obtain ⟨hSmall, hPage⟩ := h.fits.leaf ht rfl (Level.pt.indexOf a)
    have hTarget := Entry.target_of_not_huge hSmall
    have hTranslate := AddressSpace.translate_of_entry hLeaf hSmall
    cases hPresent : (x.memory.entry ⟨t, Level.pt.indexOf a⟩).present with
    | false =>
      rw [AddressSpace.mappedFrame, hPresent] at hTranslate
      refine Or.inl ⟨hTranslate, AddressSpace.unmap_absent hUser hKernel hAligned hLookup hPresent,
        fun e he => ?_⟩
      rw [hLeaf] at he
      rwa [← Option.some.inj (Except.ok.inj he)]
    | true =>
      rw [AddressSpace.mappedFrame, hPresent] at hTranslate
      rw [hPresent] at hTarget
      obtain ⟨x', hUnmap, hFrames, hMemory⟩ :=
        AddressSpace.unmap_present hUser hKernel hAligned hLookup hPresent
      have hAfter := h.cutLeaf hRoot ht hFrames hMemory
        (by rw [Entry.flag_putFlag _ rfl, if_neg nofun, hSmall]) hTarget
        (Entry.target_putFlag_present _)
      refine Or.inr ⟨_, _, x', hLeaf, hPage _ hTarget, hTranslate, hUnmap, hAfter, fun r' hr' b hb => ?_⟩
      have hFits' := hAfter.fits
      rw [hMemory] at hFits' ⊢
      exact h.fits.leaf?_setEntry ht hFits' (cut_leafTable (hPage _ hTarget) rfl) hr' hb
  · obtain ⟨below, hMissing⟩ := h.fits.lookup_missing hHalf hPlace hNone
    refine Or.inl ⟨AddressSpace.translate_of_none hLeaf,
      AddressSpace.unmap_missing hUser hKernel hAligned hMissing, fun e he => ?_⟩
    rw [hLeaf] at he
    cases he

end Plan

end PagedKernel
