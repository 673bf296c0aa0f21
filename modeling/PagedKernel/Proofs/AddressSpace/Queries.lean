import PagedKernel.AddressSpace.Query
import PagedKernel.Proofs.Address.Pages
import PagedKernel.Proofs.Plan.Reach

/-!
# What the questions answer

Every question about an address is answered from its leaf entry.

* `AddressSpace.translate_of_entry` and its like: the answers where there is a leaf entry.
* `AddressSpace.translate_of_none` and its like: the answers where there is none.
* `Plan.Fits.leaf?_page`: a leaf entry has the page that is planned there. So a translation ends in a
  page of the space, and a user program can access no other frames.
-/

namespace PagedKernel

namespace Frame

/-- The first byte of a page is translated to the first byte of the frame. -/
theorem join_offset (f : Frame) {a : VirtualAddress} (h : a.isAligned = true) :
    f.join a.offset = f.base := by
  have hVal : a.val % 4096 = 0 := by simpa [VirtualAddress.isAligned] using h
  have hOffset : a.offset.val.toNat = 0 := congrArg UInt64.toNat hVal
  rw [PhysicalAddress.ext_iff, ← UInt64.toNat_inj, toNat_join, hOffset, Nat.add_zero]

end Frame

namespace AddressSpace

variable {s : AddressSpace} {m : Memory} {a : VirtualAddress} {access : Access}

section NoEntry

variable (h : m.leaf? s.root a = .ok none)

include h

theorem translate_of_none : s.translate m a = .ok none := by
  rw [translate, h]
  rfl

theorem aliasOf_of_none (hUser : a.isUser = true) : s.aliasOf m a = .ok none := by
  rw [aliasOf, h, hUser]
  rfl

theorem resolve_of_none : s.resolve m a access = .ok none := by
  rw [resolve, h]
  cases a.isUser <;> rfl

theorem dirtyAt_of_none : s.dirtyAt m a = .ok false := by
  rw [dirtyAt, h]
  rfl

theorem accessedAt_of_none : s.accessedAt m a = .ok false := by
  rw [accessedAt, h]
  rfl

end NoEntry

def mappedFrame (e : Entry) : Option Frame :=
  if e.present then some (Frame.ofNumber (e.get .frameNumber)) else none

section AnEntry

variable {e : Entry} (h : m.leaf? s.root a = .ok (some e)) (hSmall : e.flag .pageSize = false)

include h

theorem dirtyAt_of_entry : s.dirtyAt m a = .ok e.dirty := by
  rw [dirtyAt, h]
  rfl

theorem accessedAt_of_entry : s.accessedAt m a = .ok e.accessed := by
  rw [accessedAt, h]
  rfl

include hSmall

theorem translate_of_entry :
    s.translate m a = .ok ((mappedFrame e).map fun f => f.join a.offset) := by
  have hTarget : e.target = .ok (mappedFrame e) := Entry.target_of_not_huge hSmall
  rw [translate, h]
  show Except.bind e.target _ = _
  rw [hTarget]
  cases mappedFrame e <;> rfl

theorem aliasOf_of_entry (hUser : a.isUser = true) {v : Frame → VirtualAddress}
    (hAlias : ∀ f, mappedFrame e = some f → (f.join a.offset).alias = .ok (v f)) :
    s.aliasOf m a = .ok ((mappedFrame e).map v) := by
  have hTarget : e.target = .ok (mappedFrame e) := Entry.target_of_not_huge hSmall
  rw [aliasOf, h, hUser]
  show Except.bind e.target _ = _
  rw [hTarget]
  cases hFrame : mappedFrame e with
  | none => rfl
  | some f =>
    show Except.bind (f.join a.offset).alias _ = _
    rw [hAlias f hFrame]
    rfl

theorem resolve_of_entry (hUser : a.isUser = true) :
    s.resolve m a access =
      .ok (if allows e access then (mappedFrame e).map fun f => f.join a.offset else none) := by
  have hTarget : e.target = .ok (mappedFrame e) := Entry.target_of_not_huge hSmall
  rw [resolve, h, hUser]
  cases hAllows : allows e access with
  | false =>
    show (if allows e access = true then _ else _) = _
    rw [hAllows]
    rfl
  | true =>
    show (if allows e access = true then Except.bind e.target _ else _) = _
    rw [hAllows, hTarget]
    cases mappedFrame e <;> rfl

end AnEntry

theorem resolve_of_not_user (h : a.isUser = false) : s.resolve m a access = .ok none := by
  rw [resolve, h]
  rfl

end AddressSpace

namespace Plan.Fits

variable {plan : Plan} {kernel : Frame} {roots : List Frame} {m : Memory} {s : AddressSpace}
  {a : VirtualAddress}

/-- The kernel's own tree has nothing in the lower half. -/
theorem leaf?_lower (h : plan.Fits kernel roots m)
    (hLower : (Level.pml4.indexOf a).val < kernelRootStart) : m.leaf? kernel a = .ok none := by
  have hEmpty := h.lower _ hLower
  have hNext : Level.pml4.next? = some .pdpt := rfl
  rw [Memory.leaf?, Memory.lookup, Memory.lookupFrom_missing hNext
    (h.holds h.kernel_place) (by rw [hEmpty, Entry.target_empty])]
  rfl

theorem leaf?_kernel (h : plan.Fits kernel roots m) (ha : a.isUser = true) :
    m.leaf? kernel a = .ok none :=
  h.leaf?_lower (a.indexOf_pml4_lt ha)

theorem leaf?_page (h : plan.Fits kernel roots m) {r : Frame} (hRoot : r ∈ roots)
    (ha : a.isUser = true) :
    m.leaf? r a = .ok none ∧ (∀ f, plan f ≠ some ⟨r, a.path⟩) ∨
      ∃ e, m.leaf? r a = .ok (some e) ∧ e.flag .pageSize = false ∧
        ∀ f, AddressSpace.mappedFrame e = some f ↔ plan f = some ⟨r, a.path⟩ := by
  rcases h.leaf?_cases (h.ownHalf hRoot ha) (h.root_place hRoot) with ⟨t, ht, hLeaf⟩ | ⟨hNone, hLeaf⟩
  · obtain ⟨hSmall, hPage⟩ := h.leaf ht rfl (Level.pt.indexOf a)
    have hTarget : (m.entry ⟨t, Level.pt.indexOf a⟩).target =
        .ok (AddressSpace.mappedFrame (m.entry ⟨t, Level.pt.indexOf a⟩)) :=
      Entry.target_of_not_huge hSmall
    refine Or.inr ⟨_, hLeaf, hSmall, fun f => ⟨fun hf => hPage f (by rw [hTarget, hf]), fun hf => ?_⟩⟩
    rw [h.target_of_place ht hf] at hTarget
    exact (Except.ok.inj hTarget).symm
  · refine Or.inl ⟨hLeaf, fun f hf => ?_⟩
    obtain ⟨t, ht, -, -⟩ := h.parent hf
    exact hNone t ht

/-- What is translated is a page that is planned in the space. -/
theorem translate_cases (h : plan.Fits kernel roots m) (hRoot : s.root ∈ roots)
    (ha : a.isUser = true) :
    s.translate m a = .ok none ∧ (∀ f, plan f ≠ some ⟨s.root, a.path⟩) ∨
      ∃ f, plan f = some ⟨s.root, a.path⟩ ∧ s.translate m a = .ok (some (f.join a.offset)) := by
  rcases h.leaf?_page hRoot ha with ⟨hLeaf, hNone⟩ | ⟨e, hLeaf, hSmall, hPage⟩
  · exact Or.inl ⟨AddressSpace.translate_of_none hLeaf, hNone⟩
  · rw [AddressSpace.translate_of_entry hLeaf hSmall]
    cases hFrame : AddressSpace.mappedFrame e with
    | none =>
      refine Or.inl ⟨rfl, fun f hf => ?_⟩
      rw [(hPage f).2 hf] at hFrame
      cases hFrame
    | some f => exact Or.inr ⟨f, (hPage f).1 hFrame, rfl⟩

/-- What a user program can access is a page that is planned in its own space. -/
theorem resolve_cases (h : plan.Fits kernel roots m) (hRoot : s.root = kernel ∨ s.root ∈ roots)
    (a : VirtualAddress) (access : Access) :
    s.resolve m a access = .ok none ∨ ∃ f, plan f = some ⟨s.root, a.path⟩ ∧
      s.resolve m a access = .ok (some (f.join a.offset)) := by
  by_cases hUser : a.isUser = true
  · rcases hRoot with hKernel | hRoot
    · exact Or.inl (AddressSpace.resolve_of_none (hKernel ▸ h.leaf?_kernel hUser))
    · rcases h.leaf?_page hRoot hUser with ⟨hLeaf, -⟩ | ⟨e, hLeaf, hSmall, hPage⟩
      · exact Or.inl (AddressSpace.resolve_of_none hLeaf)
      · rw [AddressSpace.resolve_of_entry hLeaf hSmall hUser]
        cases hFrame : AddressSpace.mappedFrame e with
        | none => exact Or.inl (by simp)
        | some f =>
          cases AddressSpace.allows e access with
          | false => exact Or.inl rfl
          | true => exact Or.inr ⟨f, (hPage f).1 hFrame, rfl⟩
  · exact Or.inl (AddressSpace.resolve_of_not_user (by simpa using hUser))

end Plan.Fits

end PagedKernel
