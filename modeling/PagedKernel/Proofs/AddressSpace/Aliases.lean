import PagedKernel.Proofs.AddressSpace.Dependence
import PagedKernel.Proofs.AddressSpace.Mapping

/-!
# Where the kernel sees user pages

The kernel sees the byte behind a user address at the alias of what the address is translated to. So when a
page was mapped to an alias, the kernel sees the whole page from there on, whichever frame is behind the
alias: it need not be one that memory has, nor one that nobody else uses.

* `AddressSpace.aliasOf_eq`, `AddressSpace.Agrees`: the two questions go together.
* `AddressSpace.SeenAt`, `AddressSpace.seenAt_of_translate`: all bytes of a page.
* `Plan.Fits.leaf?_overwritten`: a walk comes to whatever entry is written for the address.
* `Plan.Describes.of_map_done`: where the walk had stopped when a page was mapped.
* `Plan.Describes.translate_of_map`: the page is translated to what is behind the alias.
-/

namespace PagedKernel

namespace AddressSpace

variable {s : AddressSpace} {m : Memory} {a page kernelAlias : VirtualAddress} {p : PhysicalAddress}
  {v : VirtualAddress}

theorem aliasOf_eq (hUser : a.isUser = true) : s.aliasOf m a =
    (do
      let some p ← s.translate m a | return none
      return some (← p.alias)) := by
  rw [aliasOf, translate, hUser]
  cases m.leaf? s.root a with
  | error v => rfl
  | ok o =>
    cases o with
    | none => rfl
    | some e =>
      simp only [bind, Except.bind]
      cases e.target with
      | error v => rfl
      | ok t => cases t <;> rfl

/-- An address is translated, and the kernel sees what is there at its alias, or it is not mapped. -/
def Agrees (s : AddressSpace) (m : Memory) (a : VirtualAddress) : Prop :=
  s.translate m a = .ok none ∧ s.aliasOf m a = .ok none ∨
    ∃ p v, DirectMap.Pairs p v ∧ s.translate m a = .ok (some p) ∧ s.aliasOf m a = .ok (some v)

theorem agrees_of_translate {o : Option PhysicalAddress} (hUser : a.isUser = true)
    (h : s.translate m a = .ok o) (hLow : ∀ p, o = some p → ∃ v, DirectMap.Pairs p v) :
    s.Agrees m a := by
  have hAlias := aliasOf_eq (s := s) (m := m) hUser
  rw [h] at hAlias
  cases o with
  | none => exact Or.inl ⟨h, hAlias⟩
  | some p =>
    obtain ⟨v, hPair⟩ := hLow p rfl
    simp only [bind, Except.bind, hPair.alias_eq] at hAlias
    exact Or.inr ⟨p, v, hPair, h, hAlias⟩

/-- The kernel sees the page from an alias on, each byte at its distance. -/
def SeenAt (s : AddressSpace) (m : Memory) (page kernelAlias : VirtualAddress) : Prop :=
  ∀ o < 4096, ∃ a v, page.add o = .ok a ∧ kernelAlias.add o = .ok v ∧
    s.aliasOf m a = .ok (some v)

theorem seenAt_of_translate (hMap : s.Mappable page kernelAlias p)
    (h : s.translate m page = .ok (some p)) : s.SeenAt m page kernelAlias := by
  intro o ho
  have hPair := DirectMap.pairs_of_behind hMap.alias_eq
  have hPage := VirtualAddress.isAligned_iff.1 hMap.aligned
  have hAliasPage := VirtualAddress.isAligned_iff.1 hMap.alias_aligned
  have hLt := VirtualAddress.toNat_lt_of_isUser hMap.user
  have hBound := kernelAlias.val.toNat_lt
  obtain ⟨a, ha, -⟩ := @VirtualAddress.exists_add page o (by omega)
  obtain ⟨v, hv, -⟩ := @VirtualAddress.exists_add kernelAlias o (by omega)
  have hNat := VirtualAddress.add_eq_ok.1 ha
  have hUser : a.isUser = true := VirtualAddress.isUser_of_toNat_lt (by omega)
  have hPath : a.path = page.path := by
    rw [VirtualAddress.path_eq_iff hUser hMap.user, VirtualAddress.page_eq_iff]
    omega
  -- The byte has the leaf entry of the first one, so only the offset is another.
  obtain ⟨e, f, hLeaf, hTarget, hJoin⟩ := translate_eq_some.1 h
  have hTranslate : s.translate m a = .ok (some (f.join a.offset)) :=
    translate_eq_some.2 ⟨e, f, (Memory.leaf?_of_path_eq hPath).trans hLeaf, hTarget, rfl⟩
  have hOther : DirectMap.Pairs (f.join a.offset) v := by
    refine hPair.add (VirtualAddress.add_eq_ok.1 hv) ?_
    rw [hJoin, Frame.join_offset f hMap.aligned, Frame.toNat_join, VirtualAddress.toNat_offset]
    omega
  refine ⟨a, v, ha, hv, ?_⟩
  rw [aliasOf_eq hUser, hTranslate]
  simp only [bind, Except.bind, hOther.alias_eq]
  rfl

/-- What is behind an aligned alias is the first byte of a frame. -/
theorem Mappable.base_eq (hMap : s.Mappable page kernelAlias p) : p.frame.base = p := by
  have hSum := DirectMap.pairs_iff.1 (DirectMap.pairs_of_behind hMap.alias_eq)
  have hAligned := VirtualAddress.isAligned_iff.1 hMap.alias_aligned
  have hBase := DirectMap.toNat_base
  rw [PhysicalAddress.ext_iff, ← UInt64.toNat_inj, ← Frame.toNat_number,
    PhysicalAddress.toNat_number_frame]
  omega

end AddressSpace

namespace Plan

variable {plan : Plan} {kernel r t : Frame} {roots held : List Frame} {s : AddressSpace}
  {page kernelAlias : VirtualAddress} {p : PhysicalAddress} {writable : Bool}

/-- Whatever entry is written for an address in its leaf table, a walk comes to it. -/
theorem Fits.leaf?_overwritten {m : Memory} (h : plan.Fits kernel roots m) (hRoot : r ∈ roots)
    (hUser : page.isUser = true) (ht : plan t = some ⟨r, page.pathTo .pt⟩) (e : Entry) :
    (m.setEntry ⟨t, Level.pt.indexOf page⟩ e).leaf? r page = .ok (some e) := by
  have hEntry := Memory.entry_setEntry (s := ⟨t, Level.pt.indexOf page⟩) (h.holds ht) e
  have hLookup : (m.setEntry ⟨t, Level.pt.indexOf page⟩ e).lookup r page = m.lookup r page := by
    refine Memory.lookup_congr (Memory.frames_setEntry ..) fun level u hLevel hLeads => ?_
    rw [hEntry, if_neg]
    intro hEq
    -- The tables above the leaf table have shorter paths.
    obtain ⟨r', hu⟩ := h.exists_place_of_leads (Or.inr hRoot) hLeads
    rw [(slot_inj hEq).1, ht] at hu
    have hDepth := congrArg List.length (Place.mk.inj (Option.some.inj hu)).2
    rw [VirtualAddress.length_pathTo, VirtualAddress.length_pathTo] at hDepth
    exact hLevel (Level.depth_inj hDepth).symm
  rw [Memory.leaf?, hLookup, h.lookup_eq (h.ownHalf hRoot hUser) (h.root_place hRoot) ht]
  show Except.ok (some _) = _
  rw [hEntry, if_pos rfl]

namespace Describes

variable {m m' : Machine}

theorem of_map_done (h : plan.Describes kernel roots held m) (hRoot : s.root ∈ roots)
    (hMap : s.Mappable page kernelAlias p)
    (hDone : s.map page kernelAlias writable m = .ok (.ok ()) m') :
    ∃ l t, plan t = some ⟨s.root, page.pathTo l⟩ ∧ Bare m page l t ∧ l.height ≤ m.frames.supply ∧
      m' = m.mapped page p.frame writable l t := by
  obtain ⟨l, t, hDescends, ht, hBare⟩ :=
    h.bare (h.fits.ownHalf hRoot hMap.user) (h.fits.root_place hRoot)
  rcases h.stop_cases hRoot hMap.user ht hBare with ⟨-, hAbsent⟩ | ⟨-, rfl, hPresent⟩
  · by_cases hSupply : l.height ≤ m.frames.supply
    · rw [map_mapped hMap hDescends hBare hSupply hAbsent writable] at hDone
      exact ⟨l, t, ht, hBare, hSupply, (EStateM.Result.ok.inj hDone).2.symm⟩
    · obtain ⟨level, x, -, hRun, -⟩ :=
        map_undone hMap hDescends hBare (Nat.lt_of_not_le hSupply) writable
      cases hDone.symm.trans hRun
  · have hRefused : s.map page kernelAlias writable m = .error (.alreadyMapped page) m :=
      map_present hMap hDescends (h.fits.holds ht) hPresent
    cases hDone.symm.trans hRefused

theorem leaf?_of_map (h : plan.Describes kernel roots held m) (hRoot : s.root ∈ roots)
    (hMap : s.Mappable page kernelAlias p)
    (hDone : s.map page kernelAlias writable m = .ok (.ok ()) m') :
    m'.memory.leaf? s.root page = .ok (some (Entry.compose writable .user p.frame)) := by
  obtain ⟨l, t, ht, hBare, hSupply, rfl⟩ := h.of_map_done hRoot hMap hDone
  have hGrown := h.grow (h.fits.ownHalf hRoot hMap.user)
    (fun hEq => absurd hEq (h.fits.ne_kernel hRoot)) ht hBare
  exact hGrown.fits.leaf?_overwritten hRoot hMap.user (h.grow_leafTable ht hSupply) _

/-- The page is translated to what is behind the alias. -/
theorem translate_of_map (h : plan.Describes kernel roots held m) (hRoot : s.root ∈ roots)
    (hMap : s.Mappable page kernelAlias p)
    (hDone : s.map page kernelAlias writable m = .ok (.ok ()) m') :
    s.translate m'.memory page = .ok (some p) := by
  have hNumber := (DirectMap.pairs_of_behind hMap.alias_eq).number_lt
  refine AddressSpace.translate_eq_some.2 ⟨_, p.frame, h.leaf?_of_map hRoot hMap hDone,
    Entry.target_compose writable .user rfl (by decide) hNumber, ?_⟩
  rw [Frame.join_offset _ hMap.aligned, hMap.base_eq]

end Describes

end Plan

end PagedKernel
