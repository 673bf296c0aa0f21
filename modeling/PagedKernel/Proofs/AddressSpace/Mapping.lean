import PagedKernel.AddressSpace.Mapping
import PagedKernel.Proofs.AddressSpace.Queries
import PagedKernel.Proofs.Memory.DirectMap
import PagedKernel.Proofs.Plan.Described

/-!
# Mapping a page

`AddressSpace.map` checks its arguments, walks, and writes the leaf. On a machine with a plan there
are four ways for it to end.

* `AddressSpace.map_refused`: the arguments are refused.
* `Plan.Describes.stop_cases`: where the walk stops, it is plain whether the page is mapped.
* `Plan.Describes.map_present`: the page is mapped already.
* `Plan.Describes.map_undone`: a table is missing and no frame is left for it.
* `Plan.Describes.map_mapped`: the page is mapped. `Plan.Describes.mapped` is the plan after that, and
  `leaf?_mapped` and `leaf?_mapped_of_ne` say what the addresses of all spaces have then.
* `Plan.Describes.map_cases`: these together.
-/

namespace PagedKernel

open MachineM

namespace AddressSpace

variable {s : AddressSpace} {page kernelAlias : VirtualAddress} {p : PhysicalAddress}
  {frame : Frame} {writable : Bool} {m : Machine} {slot : Slot}

/-- The arguments that `map` takes: aligned addresses of a user page and of an alias, and a space
that may be changed. -/
structure Mappable (s : AddressSpace) (page kernelAlias : VirtualAddress) (p : PhysicalAddress) :
    Prop where
  aligned : page.isAligned = true
  alias_aligned : kernelAlias.isAligned = true
  user : page.isUser = true
  changeable : s.isKernel = false
  alias_eq : Memory.behind kernelAlias = .ok p

def mapLeaf (page : VirtualAddress) (frame : Frame) (writable : Bool) :
    Except WalkError Slot → MachineM (Except MapError Unit)
  | .error e => return .error (.ofWalk e)
  | .ok slot => do
    if ← look fun m => .ok (m.entry slot).present then throw (.alreadyMapped page)
    setEntry slot (← Entry.userLeaf frame writable)
    note (.mapped page frame writable)
    return .ok ()

theorem requireMutable_ok (hUser : page.isUser = true) (hKernel : s.isKernel = false) :
    s.requireMutable page = .ok () := by
  simp [requireMutable, hUser, hKernel, pure, Except.pure]

theorem requireMutable_error (h : ¬ (page.isUser = true ∧ s.isKernel = false)) :
    ∃ v, v ≠ .hugePage ∧ s.requireMutable page = .error v := by
  by_cases hUser : page.isUser = true
  · have hKernel : s.isKernel = true := by simpa [hUser] using h
    exact ⟨.kernelSpaceImmutable, nofun, by simp [requireMutable, hUser, hKernel]; rfl⟩
  · exact ⟨.notUserAddress page, nofun, by simp [requireMutable, hUser]; rfl⟩

theorem of_requireMutable (h : s.requireMutable page = .ok ()) :
    page.isUser = true ∧ s.isKernel = false := by
  by_contra hNot
  obtain ⟨v, -, hRefused⟩ := requireMutable_error hNot
  rw [h] at hRefused
  cases hRefused

theorem Mappable.map_eq (h : s.Mappable page kernelAlias p) (m : Machine) :
    s.map page kernelAlias writable m =
      (lookupCreating s.root page >>= mapLeaf page p.frame writable) m := by
  rw [map]
  simp only [h.aligned, h.alias_aligned, ↓reduceIte]
  rw [Stateful.bind_ok (Stateful.lift_ok (requireMutable_ok h.user h.changeable)),
    Stateful.bind_ok (Stateful.lift_ok h.alias_eq)]
  rfl

theorem map_refused (h : ∀ p, ¬ s.Mappable page kernelAlias p) (writable : Bool) (m : Machine) :
    ∃ v, v ≠ .hugePage ∧ s.map page kernelAlias writable m = .error v m := by
  rw [map]
  by_cases hAligned : page.isAligned = true
  · by_cases hAlias : kernelAlias.isAligned = true
    · simp only [hAligned, hAlias, ↓reduceIte]
      by_cases hMutable : page.isUser = true ∧ s.isKernel = false
      · have hBelow : ¬ directMapBase ≤ kernelAlias.val := by
          intro hLe
          obtain ⟨p, hp⟩ := DirectMap.exists_behind hLe
          exact h p ⟨hAligned, hAlias, hMutable.1, hMutable.2, hp.behind_eq⟩
        rw [Stateful.bind_ok (Stateful.lift_ok (requireMutable_ok hMutable.1 hMutable.2)),
          Stateful.bind_error (Stateful.lift_error (DirectMap.physical_refused hBelow).1)]
        exact ⟨.notKernelAlias kernelAlias, nofun, rfl⟩
      · obtain ⟨v, hv, hRefused⟩ := requireMutable_error hMutable
        rw [Stateful.bind_error (Stateful.lift_error hRefused)]
        exact ⟨v, hv, rfl⟩
    · simp only [hAligned, hAlias, ↓reduceIte]
      exact ⟨.unalignedKernelPage kernelAlias, nofun, rfl⟩
  · simp only [hAligned]
    exact ⟨.unalignedUserPage page, nofun, rfl⟩

theorem mappable_or_refused (s : AddressSpace) (page kernelAlias : VirtualAddress) (writable : Bool)
    (m : Machine) : (∃ p, s.Mappable page kernelAlias p) ∨
      ∃ v, v ≠ .hugePage ∧ s.map page kernelAlias writable m = .error v m := by
  by_cases h : ∃ p, s.Mappable page kernelAlias p
  · exact Or.inl h
  · exact Or.inr (map_refused (fun p hp => h ⟨p, hp⟩) writable m)

theorem mapLeaf_error (e : WalkError) :
    mapLeaf page frame writable (.error e) m = .ok (.error (.ofWalk e)) m := rfl

theorem mapLeaf_present (h : (m.memory.entry slot).present = true) :
    mapLeaf page frame writable (.ok slot) m = .error (.alreadyMapped page) m := by
  rw [mapLeaf, Stateful.bind_ok (look_value fun m => (m.entry slot).present), if_pos h]
  rfl

theorem mapLeaf_absent (h : (m.memory.entry slot).present = false)
    (hNumber : frame.number.toNat < 2 ^ 40) :
    mapLeaf page frame writable (.ok slot) m = .ok (.ok ()) { m with
      memory := m.memory.setEntry slot (Entry.compose writable .user frame)
      log := .mapped page frame writable :: m.log } := by
  rw [mapLeaf, Stateful.bind_ok (look_value fun m => (m.entry slot).present), h]
  simp only [Bool.false_eq_true, ↓reduceIte]
  rw [Stateful.bind_ok (Stateful.lift_ok (Entry.userLeaf_eq hNumber writable)),
    Stateful.bind_ok (setEntry_apply _ _), Stateful.bind_ok (note_apply _)]
  rfl

end AddressSpace

/-- The machine after a page was mapped by a walk that had to make the tables below `t`. -/
def Machine.mapped (m : Machine) (page : VirtualAddress) (frame : Frame) (writable : Bool) (l : Level)
    (t : Frame) : Machine where
  memory := (m.memory.grow page l t (m.frames.free.take l.height)).setEntry
    ⟨m.leafTable l t, Level.pt.indexOf page⟩ (Entry.compose writable .user frame)
  frames := m.frames.serve l.height
  mmu := m.mmu
  log := .mapped page frame writable :: m.log

namespace Plan.Describes

variable {plan : Plan} {kernel : Frame} {roots held : List Frame} {s : AddressSpace}
  {page kernelAlias b : VirtualAddress} {p : PhysicalAddress} {frame r t : Frame} {writable : Bool}
  {m : Machine} {l : Level}

/-- Where a walk stops, it is plain whether the page is mapped. -/
theorem stop_cases (h : plan.Describes kernel roots held m) (hRoot : s.root ∈ roots)
    (hUser : page.isUser = true) (ht : plan t = some ⟨s.root, page.pathTo l⟩)
    (hBare : Bare m page l t) :
    (s.translate m.memory page = .ok none ∧
        (l = .pt → (m.memory.entry ⟨t, Level.pt.indexOf page⟩).present = false)) ∨
      (∃ q, s.translate m.memory page = .ok (some q)) ∧ l = .pt ∧
        (m.memory.entry ⟨t, Level.pt.indexOf page⟩).present = true := by
  rcases h.fits.translate_cases hRoot hUser with ⟨hNone, hNowhere⟩ | ⟨f, hf, hSome⟩
  · refine Or.inl ⟨hNone, ?_⟩
    rintro rfl
    by_contra hPresent
    obtain ⟨hSmall, hPage⟩ := h.fits.leaf ht rfl (Level.pt.indexOf page)
    refine hNowhere _ (hPage _ (Entry.target_eq_some.2 ⟨?_, hSmall, rfl⟩))
    simpa using hPresent
  · obtain ⟨u, hu, -, hTarget⟩ := h.fits.parent hf
    have hLevel : l = .pt := by
      by_contra hl
      exact h.fits.no_leaf_table hl ht (hBare.entry_eq hl) u hu
    subst hLevel
    rw [h.fits.place_inj hu ht] at hTarget
    exact Or.inr ⟨⟨_, hSome⟩, rfl, (Entry.target_eq_some.1 hTarget).1⟩

/-- The supply lasts: the page is mapped. -/
theorem map_mapped (hMap : s.Mappable page kernelAlias p)
    (hDescends : m.memory.Descends page .pml4 s.root l t) (hBare : Bare m page l t)
    (hSupply : l.height ≤ m.frames.supply)
    (hAbsent : l = .pt → (m.memory.entry ⟨t, Level.pt.indexOf page⟩).present = false)
    (writable : Bool) :
    s.map page kernelAlias writable m = .ok (.ok ()) (m.mapped page p.frame writable l t) := by
  have hLeaf : ((m.grow page l t).memory.entry
      ⟨m.leafTable l t, Level.pt.indexOf page⟩).present = false := by
    rw [Machine.grow, hBare.entry_leafTable hSupply]
    split
    next hl => exact hAbsent hl
    next => exact Entry.present_empty
  have hWalk : lookupCreating s.root page m =
      .ok (.ok ⟨m.leafTable l t, Level.pt.indexOf page⟩) (m.grow page l t) := by
    rw [lookupCreating, hDescends.lookupCreatingFrom_eq, lookupCreatingFrom_grown hBare hSupply]
    rfl
  rw [hMap.map_eq, Stateful.bind_ok hWalk,
    AddressSpace.mapLeaf_absent hLeaf (DirectMap.pairs_of_behind hMap.alias_eq).number_lt]
  rfl

/-- The supply does not last: nothing is left of the walk. -/
theorem map_undone (hMap : s.Mappable page kernelAlias p)
    (hDescends : m.memory.Descends page .pml4 s.root l t) (hBare : Bare m page l t)
    (hSupply : m.frames.supply < l.height) (writable : Bool) :
    ∃ level m', lookupCreating s.root page m = .ok (.error (.outOfMemory level)) m' ∧
      s.map page kernelAlias writable m = .ok (.error (.outOfMemory level)) m' ∧
      level.depth = l.depth + m.frames.supply + 1 ∧ Undone m m' level page := by
  obtain ⟨level, m', hRun, hDepth, hUndone⟩ := lookupCreatingFrom_undone hBare hSupply
  have hWalk : lookupCreating s.root page m = .ok (.error (.outOfMemory level)) m' := by
    rw [lookupCreating, hDescends.lookupCreatingFrom_eq, hRun]
  refine ⟨level, m', hWalk, ?_, hDepth, hUndone⟩
  rw [hMap.map_eq, Stateful.bind_ok hWalk, AddressSpace.mapLeaf_error]
  rfl

/-- The page is mapped already: nothing is done. -/
theorem map_present (hMap : s.Mappable page kernelAlias p)
    (hDescends : m.memory.Descends page .pml4 s.root .pt t) (hHolds : m.memory.holds t = true)
    (hPresent : (m.memory.entry ⟨t, Level.pt.indexOf page⟩).present = true) :
    s.map page kernelAlias writable m = .error (.alreadyMapped page) m := by
  rw [hMap.map_eq, lookupCreating,
    Stateful.bind_ok (hDescends.lookupCreatingFrom_eq.trans (lookupCreatingFrom_pt hHolds)),
    AddressSpace.mapLeaf_present hPresent]

theorem map_of_supply (h : plan.Describes kernel roots held m) (hRoot : s.root ∈ roots)
    (hMap : s.Mappable page kernelAlias p) (hNone : s.translate m.memory page = .ok none)
    (hSupply : 3 ≤ m.frames.supply) (writable : Bool) :
    ∃ m', s.map page kernelAlias writable m = .ok (.ok ()) m' := by
  obtain ⟨l, t, hDescends, ht, hBare⟩ :=
    h.bare (h.fits.ownHalf hRoot hMap.user) (h.fits.root_place hRoot)
  have hAbsent : l = .pt → (m.memory.entry ⟨t, Level.pt.indexOf page⟩).present = false := by
    rcases h.stop_cases hRoot hMap.user ht hBare with ⟨-, hAbsent⟩ | ⟨⟨q, hSome⟩, -⟩
    · exact hAbsent
    · rw [hNone] at hSome
      cases hSome
  have hHeight := l.height_le
  exact ⟨_, map_mapped hMap hDescends hBare (by omega) hAbsent writable⟩

theorem mapped (h : plan.Describes kernel roots held m) (hUser : page.isUser = true)
    (hRoot : r ∈ roots) (ht : plan t = some ⟨r, page.pathTo l⟩) (hBare : Bare m page l t)
    (hSupply : l.height ≤ m.frames.supply)
    (hAbsent : l = .pt → (m.memory.entry ⟨t, Level.pt.indexOf page⟩).present = false)
    (hHeld : frame ∈ held) (writable : Bool) :
    (mappedPlan plan m r page frame l).Describes kernel roots (held.erase frame)
      (m.mapped page frame writable l t) := by
  have hNumber := Memory.number_lt_of_holds h.fits.frames_le (h.accounts.holds_of_held hHeld)
  exact h.fillLeaf (h.fits.ownHalf hRoot hUser) (fun hEq => absurd hEq (h.fits.ne_kernel hRoot)) ht
    hBare hSupply hAbsent hHeld (Entry.target_compose writable .user rfl (by decide) hNumber) rfl rfl

section AfterMapping

variable (h : plan.Describes kernel roots held m) (hRoot : r ∈ roots) (hUser : page.isUser = true)
  (hHeld : frame ∈ held) (ht : plan t = some ⟨r, page.pathTo l⟩) (hBare : Bare m page l t)

include h hRoot hUser hHeld ht hBare

theorem mappedPlan_eq_some {u r' : Frame} :
    mappedPlan plan m r page frame l u = some ⟨r', b.pathTo .pt⟩ ↔
      plan.grow r page l (m.frames.free.take l.height) u = some ⟨r', b.pathTo .pt⟩ := by
  have hGrown := h.grow (h.fits.ownHalf hRoot hUser) (fun hEq => absurd hEq (h.fits.ne_kernel hRoot))
    ht hBare
  rw [mappedPlan, put_eq_some (hGrown.accounts.held_new hHeld)]
  constructor
  · rintro (⟨-, hPlace⟩ | hu)
    · have hLength := congrArg (fun x => x.path.length) hPlace
      simp [VirtualAddress.path, Level.depth] at hLength
    · exact hu
  · exact Or.inr

omit hHeld in
theorem entry_mapped (hSupply : l.height ≤ m.frames.supply) (slot : Slot) :
    (m.mapped page frame writable l t).memory.entry slot =
      if slot = ⟨m.leafTable l t, Level.pt.indexOf page⟩ then Entry.compose writable .user frame
      else (m.memory.grow page l t (m.frames.free.take l.height)).entry slot := by
  have hGrown := h.grow (h.fits.ownHalf hRoot hUser) (fun hEq => absurd hEq (h.fits.ne_kernel hRoot))
    ht hBare
  have hHolds := hGrown.fits.holds (h.grow_leafTable ht hSupply)
  exact Memory.entry_setEntry (s := ⟨m.leafTable l t, Level.pt.indexOf page⟩) hHolds _ slot

variable (hSupply : l.height ≤ m.frames.supply)
  (hAbsent : l = .pt → (m.memory.entry ⟨t, Level.pt.indexOf page⟩).present = false)

include hSupply hAbsent

/-- In the region of the page that was mapped every address has an entry: that of the page is the new
leaf, and the others are what they were, or empty. -/
theorem leaf?_mapped (hb : b.isUser = true) (hRegion : b.pathTo .pt = page.pathTo .pt)
    {old : Option Entry} (hOld : m.memory.leaf? r b = .ok old) :
    (m.mapped page frame writable l t).memory.leaf? r b =
      .ok (some (if b.path = page.path then Entry.compose writable .user frame
        else old.getD .empty)) := by
  have hAfter := h.mapped hUser hRoot ht hBare hSupply hAbsent hHeld writable
  have hHalf := h.fits.ownHalf hRoot hb
  have hPath : b.path = page.path ↔ Level.pt.indexOf b = Level.pt.indexOf page := by
    rw [VirtualAddress.path, VirtualAddress.path, hRegion, List.cons.injEq, and_iff_left rfl]
  have hTable : mappedPlan plan m r page frame l (m.leafTable l t) = some ⟨r, b.pathTo .pt⟩ := by
    rw [h.mappedPlan_eq_some hRoot hUser hHeld ht hBare, hRegion]
    exact h.grow_leafTable ht hSupply
  have hEntry : ∀ j, (m.mapped page frame writable l t).memory.entry ⟨m.leafTable l t, j⟩ =
      if j = Level.pt.indexOf page then Entry.compose writable .user frame
      else if l = .pt then m.memory.entry ⟨t, j⟩ else .empty := by
    intro j
    rw [h.entry_mapped hRoot hUser ht hBare hSupply, hBare.entry_leafTable hSupply]
    simp only [Slot.mk.injEq, true_and]
  rw [hAfter.fits.leaf?_of_place hHalf (hAfter.fits.root_place hRoot) hTable, hEntry]
  by_cases hIndex : Level.pt.indexOf b = Level.pt.indexOf page
  · rw [if_pos hIndex, if_pos (hPath.2 hIndex)]
  · rw [if_neg hIndex, if_neg (mt hPath.1 hIndex)]
    by_cases hl : l = .pt
    · subst hl
      rw [← hRegion] at ht
      rw [h.fits.leaf?_of_place hHalf (h.fits.root_place hRoot) ht] at hOld
      cases hOld
      rfl
    · have hNone := h.fits.no_leaf_table hl ht (hBare.entry_eq hl)
      rw [← hRegion] at hNone
      rw [h.fits.leaf?_of_none hHalf (h.fits.root_place hRoot) hNone] at hOld
      cases hOld
      rw [if_neg hl]
      rfl

/-- Elsewhere every address of every space has what it had. -/
theorem leaf?_mapped_of_ne {r' : Frame} (hRoot' : r' ∈ roots) (hb : b.isUser = true)
    (hElse : ¬ (r' = r ∧ b.pathTo .pt = page.pathTo .pt)) :
    (m.mapped page frame writable l t).memory.leaf? r' b = m.memory.leaf? r' b := by
  have hAfter := h.mapped hUser hRoot ht hBare hSupply hAbsent hHeld writable
  have hFs := h.take_nodup l.height
  have hNew := h.take_new l.height
  have hPlace : ∀ {level : Level}, (⟨r, page.pathTo level⟩ : Place) ≠ ⟨r', b.pathTo .pt⟩ := by
    intro level hEq
    obtain ⟨rfl, hPath⟩ : r = r' ∧ page.pathTo level = b.pathTo .pt := by simpa using hEq
    have hDepth := congrArg List.length hPath
    rw [VirtualAddress.length_pathTo, VirtualAddress.length_pathTo] at hDepth
    exact hElse ⟨rfl, by rw [← hPath, Level.depth_inj hDepth]⟩
  refine h.fits.leaf?_congr hAfter.fits (h.fits.ownHalf hRoot' hb) (h.fits.root_place hRoot')
    (hAfter.fits.root_place hRoot') (fun u => ?_) (fun u hu => ?_)
  · rw [h.mappedPlan_eq_some hRoot hUser hHeld ht hBare]
    refine ⟨fun hu => ?_, grow_of_eq_some hFs hNew⟩
    rcases grow_eq_some hFs hNew hu with hOld | ⟨-, level, -, hx⟩
    · exact hOld
    · exact absurd hx.symm hPlace
  · have hNotTable : u ≠ t := by
      rintro rfl
      rw [ht] at hu
      exact hPlace (Option.some.inj hu)
    have hNotLeaf : (⟨u, Level.pt.indexOf b⟩ : Slot) ≠ ⟨m.leafTable l t, Level.pt.indexOf page⟩ := by
      intro hEq
      have hLeaf := h.grow_leafTable ht hSupply
      rw [← (slot_inj hEq).1, grow_of_eq_some hFs hNew hu] at hLeaf
      exact hPlace (Option.some.inj hLeaf).symm
    -- The growth has written `t` and frames that were free, and `u` is none of them.
    have hNotNew : u ∉ m.frames.free.take l.height := fun hMem =>
      h.accounts.notMem_free hu (List.mem_of_mem_take hMem)
    have hAgree : m.memory.AgreeOn _ (m.memory.grow page l t (m.frames.free.take l.height)) :=
      Memory.agreeOn_grow (h.fits.holds ht) (h.take_holds l.height)
    rw [h.entry_mapped hRoot hUser ht hBare hSupply, if_neg hNotLeaf]
    exact hAgree.entry ⟨hNotTable, hNotNew⟩

end AfterMapping

/-- A page of the caller was mapped: the region around it has a leaf table, with the page in it, and
all else is what it was. -/
structure Mapped (roots : List Frame) (m m' : Machine) (r : Frame) (page : VirtualAddress)
    (e : Entry) : Prop where
  region : ∀ b : VirtualAddress, b.isUser = true → b.pathTo .pt = page.pathTo .pt →
    ∀ old, m.memory.leaf? r b = .ok old →
      m'.memory.leaf? r b = .ok (some (if b.path = page.path then e else old.getD .empty))
  elsewhere : ∀ r' ∈ roots, ∀ b : VirtualAddress, b.isUser = true →
    ¬ (r' = r ∧ b.pathTo .pt = page.pathTo .pt) → m'.memory.leaf? r' b = m.memory.leaf? r' b

theorem map_cases (h : plan.Describes kernel roots held m) (hRoot : s.root ∈ roots)
    (hMap : s.Mappable page kernelAlias p) (hHeld : p.frame ∈ held) (writable : Bool) :
    s.map page kernelAlias writable m = .error (.alreadyMapped page) m ∨
      (∃ e m' level, s.map page kernelAlias writable m = .ok (.error e) m' ∧
        Undone m m' level page) ∨
      ∃ m' l, s.map page kernelAlias writable m = .ok (.ok ()) m' ∧
        (mappedPlan plan m s.root page p.frame l).Describes kernel roots (held.erase p.frame) m' ∧
        Mapped roots m m' s.root page (Entry.compose writable .user p.frame) := by
  obtain ⟨l, t, hDescends, ht, hBare⟩ :=
    h.bare (h.fits.ownHalf hRoot hMap.user) (h.fits.root_place hRoot)
  by_cases hPresent : l = .pt ∧ (m.memory.entry ⟨t, Level.pt.indexOf page⟩).present = true
  · obtain ⟨rfl, hPresent⟩ := hPresent
    exact Or.inl (map_present hMap hDescends (h.fits.holds ht) hPresent)
  · have hAbsent : l = .pt → (m.memory.entry ⟨t, Level.pt.indexOf page⟩).present = false := by
      intro hl
      simpa [hl] using hPresent
    by_cases hSupply : l.height ≤ m.frames.supply
    · refine Or.inr (Or.inr ⟨m.mapped page p.frame writable l t, l,
        map_mapped hMap hDescends hBare hSupply hAbsent writable,
        h.mapped hMap.user hRoot ht hBare hSupply hAbsent hHeld writable, ?_, ?_⟩)
      · intro b hb hRegion old hOld
        exact h.leaf?_mapped hRoot hMap.user hHeld ht hBare hSupply hAbsent hb hRegion hOld
      · intro r' hr' b hb hElse
        exact h.leaf?_mapped_of_ne hRoot hMap.user hHeld ht hBare hSupply hAbsent hr' hb hElse
    · obtain ⟨level, m', -, hRun, -, hUndone⟩ :=
        map_undone hMap hDescends hBare (Nat.lt_of_not_le hSupply) writable
      exact Or.inr (Or.inl ⟨_, m', level, hRun, hUndone⟩)

end Plan.Describes

end PagedKernel
