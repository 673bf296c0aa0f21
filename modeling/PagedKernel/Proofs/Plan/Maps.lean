import PagedKernel.Proofs.AddressSpace.Dependence
import PagedKernel.Proofs.Machine.Tlb

/-!
# What the trees map

A page has its leaf entry in a leaf table of the tree itself, or in one of the kernel's: the upper half
of every tree is the kernel's. So a page stays mapped as long as its leaf table keeps its place and the
present entry, whatever else becomes of memory.

* `Plan.Fits.leaf?_upper`: the upper half is the kernel's.
* `Plan.Fits.place_of_maps`: the leaf table of a page that is mapped.
* `Plan.Fits.maps_kept`: when a page stays mapped.
* `VirtualAddress.page_eq_of_path_eq`: the pages that processors know are told apart by their paths.
-/

namespace PagedKernel

namespace VirtualAddress

theorem isUser_of_isCanonical {a : VirtualAddress} (h : a.isCanonical = true)
    (hLower : (Level.pml4.indexOf a).val < kernelRootStart) : a.isUser = true := by
  have hExtend := toNat_signExtend a.val
  rw [isCanonical_iff.1 h] at hExtend
  rw [kernelRootStart_eq, Level.val_indexOf, Level.shift] at hLower
  refine isUser_of_toNat_lt ?_
  split at hExtend <;> omega

theorem isCanonical_of_isUser {a : VirtualAddress} (h : a.isUser = true) : a.isCanonical = true := by
  have hLt := toNat_lt_of_isUser h
  have hExtend := toNat_signExtend a.val
  rw [if_pos (by omega)] at hExtend
  rw [isCanonical_iff, VirtualAddress.ext_iff, ← UInt64.toNat_inj, hExtend]
  omega

/-- Among the addresses that processors know, no other page has the path of a user page. -/
theorem page_eq_of_path_eq {a b : VirtualAddress} (ha : a.isCanonical = true) (hb : b.isUser = true)
    (h : a.path = b.path) : a.page = b.page := by
  have hIndex : Level.pml4.indexOf a = Level.pml4.indexOf b := by
    simp only [path, pathTo, List.cons.injEq] at h
    exact h.2.2.2.1
  refine (path_eq_iff (isUser_of_isCanonical ha ?_) hb).1 h
  rw [hIndex]
  exact indexOf_pml4_lt hb

theorem eq_of_path_eq {a b : VirtualAddress} (ha : a.isUser = true) (hb : b.isUser = true)
    (hAligned : a.isAligned = true) (hAligned' : b.isAligned = true) (h : a.path = b.path) : a = b := by
  have hPage := page_eq_iff.1 ((path_eq_iff ha hb).1 h)
  rw [isAligned_iff] at hAligned hAligned'
  rw [VirtualAddress.ext_iff, ← UInt64.toNat_inj]
  omega

end VirtualAddress

namespace Plan.Fits

variable {plan plan' : Plan} {kernel r r₀ t : Frame} {roots roots' : List Frame} {m m' : Memory}
  {a : VirtualAddress} {p : Page} {e : Entry}

/-- The upper half of every tree is the kernel's. -/
theorem leaf?_upper (h : plan.Fits kernel roots m) (hr : r ∈ roots)
    (hUpper : kernelRootStart ≤ (Level.pml4.indexOf a).val) : m.leaf? r a = m.leaf? kernel a := by
  have hLookup : m.lookup r a = m.lookup kernel a := by
    rw [Memory.lookup, Memory.lookup, Memory.lookupFrom_inner rfl, Memory.lookupFrom_inner rfl,
      Memory.requireTable_of_holds (h.holds (h.root_place hr)),
      Memory.requireTable_of_holds (h.holds h.kernel_place), h.upper hr _ hUpper]
  rw [Memory.leaf?, Memory.leaf?, hLookup]

theorem leaf?_of_table (h : plan.Fits kernel roots m) (hr : r = kernel ∨ r ∈ roots)
    (hr₀ : r₀ = r ∨ r₀ = kernel) (ht : plan t = some ⟨r₀, a.pathTo .pt⟩) :
    m.leaf? r a = .ok (some (m.entry ⟨t, Level.pt.indexOf a⟩)) := by
  have hHalf : OwnHalf kernel r₀ a := h.ownPath ht _ rfl
  have hLeaf := h.leaf?_of_place hHalf (h.root_of_place ht).1 ht
  rcases hr₀ with rfl | rfl
  · exact hLeaf
  · rcases hr with rfl | hr
    · exact hLeaf
    · rw [h.leaf?_upper hr (hHalf.1 rfl), hLeaf]

theorem leafTable_of_lookup (h : plan.Fits kernel roots m) (hr : r ∈ roots) (ha : a.isUser = true)
    {slot : Slot} (hLookup : m.lookup r a = .ok (.ok slot)) :
    ∃ t, plan t = some ⟨r, a.pathTo .pt⟩ ∧ slot = ⟨t, Level.pt.indexOf a⟩ := by
  have hHalf := h.ownHalf hr ha
  by_cases hTable : ∃ t, plan t = some ⟨r, a.pathTo .pt⟩
  · obtain ⟨t, ht⟩ := hTable
    rw [h.lookup_eq hHalf (h.root_place hr) ht] at hLookup
    cases hLookup
    exact ⟨t, ht, rfl⟩
  · obtain ⟨below, hMissing⟩ := h.lookup_missing hHalf (h.root_place hr) fun t ht => hTable ⟨t, ht⟩
    rw [hMissing] at hLookup
    cases hLookup

/-- A page that is mapped has a leaf table, in the tree itself or in the kernel's. -/
theorem place_of_maps (h : plan.Fits kernel roots m) (hr : r = kernel ∨ r ∈ roots)
    (hMaps : m.Maps r p e) :
    ∃ t r₀, (r₀ = r ∨ r₀ = kernel) ∧ plan t = some ⟨r₀, p.base.pathTo .pt⟩ ∧
      m.entry ⟨t, Level.pt.indexOf p.base⟩ = e := by
  obtain ⟨slot, hSlot, -⟩ := Memory.lookup_of_leaf? hMaps.leaf_eq
  obtain ⟨hLeads, -⟩ := Memory.leads_of_lookupFrom .pml4 .root hSlot
  obtain ⟨r₀, hr₀, ht⟩ : ∃ r₀, (r₀ = r ∨ r₀ = kernel) ∧
      plan slot.table = some ⟨r₀, p.base.pathTo .pt⟩ := by
    rcases h.place_of_leads hr hLeads with ht | ht
    · exact ⟨r, Or.inl rfl, ht⟩
    · exact ⟨kernel, Or.inr rfl, ht⟩
  have hLeaf := h.leaf?_of_table hr hr₀ ht
  rw [hMaps.leaf_eq] at hLeaf
  exact ⟨slot.table, r₀, hr₀, ht, (Option.some.inj (Except.ok.inj hLeaf)).symm⟩

theorem maps_kept (h : plan.Fits kernel roots m) (h' : plan'.Fits kernel roots' m')
    (hr : r = kernel ∨ r ∈ roots) (hr' : r = kernel ∨ r ∈ roots') (hMaps : m.Maps r p e)
    (hKeep : ∀ t r₀, (r₀ = r ∨ r₀ = kernel) → plan t = some ⟨r₀, p.base.pathTo .pt⟩ →
      (m.entry ⟨t, Level.pt.indexOf p.base⟩).present = true →
      plan' t = some ⟨r₀, p.base.pathTo .pt⟩ ∧
        m'.entry ⟨t, Level.pt.indexOf p.base⟩ = m.entry ⟨t, Level.pt.indexOf p.base⟩) :
    m'.Maps r p e := by
  obtain ⟨t, r₀, hr₀, ht, rfl⟩ := h.place_of_maps hr hMaps
  obtain ⟨ht', hEntry⟩ := hKeep t r₀ hr₀ ht hMaps.present
  refine ⟨hMaps.canonical, ?_, hMaps.present⟩
  rw [h'.leaf?_of_table hr' hr₀ ht', hEntry]

end Plan.Fits

end PagedKernel
