import PagedKernel.Proofs.AddressSpace.Leaf
import PagedKernel.Proofs.AddressSpace.Scripts
import PagedKernel.Proofs.Plan.Maps

/-!
# No entry goes stale

What the unit remembers stays true under every operation on address spaces, whatever it takes up on the
way. Frames that are free hang in no tree, so they can be written; a table is linked when it is empty, and
cut off when it is empty again; `map` replaces an entry that maps nothing; and `unmap` and `setLeafFlag`
replace one entry of one space, and have its page forgotten if the space is the active one.
-/

namespace PagedKernel.Plan

open Script

variable {plan plan' : Plan} {kernel r t f : Frame} {roots held : List Frame} {m m' : Machine}
  {a : VirtualAddress} {e : Entry}

theorem run_hang_of_holds {slot : Slot} (hHolds : m.memory.holds f = true)
    (hFrames : m.memory.frames ≤ 2 ^ 40) :
    (Script.hang slot f).run { m with frames := m.frames.serve 1 } = .ok () (m.hang slot f) := by
  have hWrite := MachineM.writeTable_of_holds (s := { m with frames := m.frames.serve 1 }) hHolds .zeroed
  rw [run_hang, Stateful.bind_ok hWrite,
    Stateful.bind_ok (Stateful.lift_ok (Entry.link_eq (Memory.number_lt_of_holds hFrames hHolds))),
    MachineM.setEntry_apply, Machine.hang, Memory.hang]

theorem slot_ne_of_length {u r₀ : Frame} {i j : TableIndex} {path q : List TableIndex}
    (ht : plan t = some ⟨r, path⟩) (hLength : path.length < 3) (hu : plan u = some ⟨r₀, q⟩)
    (hLeaf : q.length = 3) : (⟨u, j⟩ : Slot) ≠ ⟨t, i⟩ := by
  intro hEq
  rw [(slot_inj hEq).1, ht] at hu
  obtain ⟨-, rfl⟩ : r = r₀ ∧ path = q := by simpa using hu
  omega

namespace Fits

variable (h : plan.Fits kernel roots m.memory)
  (hActive : m.mmu.active = kernel ∨ m.mmu.active ∈ roots)

include h hActive

/-- An entry changes that is no present leaf of the active tree. -/
theorem coherent_setEntry {slot : Slot} (hHolds : m.memory.holds slot.table = true)
    (h' : plan'.Fits kernel roots (m.memory.setEntry slot e))
    (hKeep : ∀ u r₀ path, (r₀ = m.mmu.active ∨ r₀ = kernel) → plan u = some ⟨r₀, path⟩ →
      path.length = 3 → ∀ j, (m.memory.entry ⟨u, j⟩).present = true →
        plan' u = some ⟨r₀, path⟩ ∧ (⟨u, j⟩ : Slot) ≠ slot)
    {tlb : Tlb} (hTlb : Coherent m tlb) : Coherent { m with memory := m.memory.setEntry slot e } tlb := by
  refine hTlb.mono fun p e hMaps => ?_
  refine h.maps_kept h' hActive hActive hMaps fun u r₀ hr₀ hu hPresent => ?_
  obtain ⟨hu', hNe⟩ := hKeep u r₀ _ hr₀ hu (by simp [Level.depth]) _ hPresent
  exact ⟨hu', by rw [Memory.entry_setEntry hHolds, if_neg hNe]⟩

theorem coheres_setEntries (hNew : plan f = none) (hHolds : m.memory.holds f = true) (t : PageTable)
    (is : List TableIndex) : Coheres (setEntries f t is) m := by
  induction is generalizing m with
  | nil => exact .done _ m
  | cons i is ih =>
    have hNe : ∀ {u x}, plan u = some x → ∀ j, (⟨u, j⟩ : Slot) ≠ ⟨f, i⟩ :=
      fun hu _ hEq => ne_of_new hNew hu (slot_inj hEq).1
    have hAfter : plan.Fits kernel roots (m.memory.setEntry ⟨f, i⟩ (t.get i)) := by
      refine h.of_entries (Memory.frames_setEntry ..) fun hu _ j => ?_
      rw [Memory.entry_setEntry (s := ⟨f, i⟩) hHolds, if_neg (hNe hu j)]
    have hStill : (m.memory.setEntry ⟨f, i⟩ (t.get i)).holds f = true := by
      rw [Memory.holds_setEntry]
      exact hHolds
    refine .act (fun tlb hTlb => ?_) (ih hAfter hActive hStill)
    refine h.coherent_setEntry hActive ?_ hAfter (fun u r₀ path _ hu _ j _ => ⟨hu, hNe hu j⟩) hTlb
    exact hHolds

theorem coheres_writeTable (hNew : plan f = none) (t : PageTable) (hHolds : m.memory.holds f = true) :
    Coheres (writeTable f t) m :=
  .ask_bind fun _ _ => h.coheres_setEntries hActive hNew hHolds t TableIndex.all

theorem coheres_hang {path : List TableIndex} {i : TableIndex} (ht : plan t = some ⟨r, path⟩)
    (hLength : path.length < 3) (hBranch : Branches kernel r path i) (hKernel : r = kernel → roots = [])
    (hNew : plan f = none) (hHolds : m.memory.holds f = true) (hEmpty : m.memory.entry ⟨t, i⟩ = .empty) :
    Coheres (Script.hang ⟨t, i⟩ f) m := by
  have hHung := h.hang ht hLength hBranch hKernel hNew hHolds hEmpty
  rw [Memory.hang] at hHung
  have hCleared : plan.Fits kernel roots (m.memory.setTable f .zeroed) := by
    refine h.of_entries (Memory.frames_setTable ..) fun hu _ j => ?_
    rw [Memory.entry_setTable hHolds, if_neg (ne_of_new hNew hu)]
  have hPlan : ∀ u r₀ q, plan u = some ⟨r₀, q⟩ → q.length = 3 → ∀ j,
      plan.put f ⟨r, i :: path⟩ u = some ⟨r₀, q⟩ ∧ (⟨u, j⟩ : Slot) ≠ ⟨t, i⟩ :=
    fun u r₀ q hu hLeaf j => ⟨(put_eq_some hNew).2 (Or.inr hu), slot_ne_of_length ht hLength hu hLeaf⟩
  refine (h.coheres_writeTable hActive hNew .zeroed hHolds).bind fun _ m₁ hWrite => ?_
  rw [run_writeTable, MachineM.writeTable_of_holds hHolds] at hWrite
  obtain ⟨-, rfl⟩ := EStateM.Result.ok.inj hWrite
  generalize m.memory.setTable f .zeroed = M at *
  refine .done_bind fun e hLink => ?_
  rw [Entry.link_eq (Memory.number_lt_of_holds h.frames_le hHolds)] at hLink
  obtain rfl := Except.ok.inj hLink
  refine .act (fun tlb hTlb => ?_) (.done _ _)
  exact hCleared.coherent_setEntry (m := { m with memory := M }) hActive (hCleared.holds ht) hHung
    (fun u r₀ q _ hu hLeaf j _ => hPlan u r₀ q hu hLeaf j) hTlb

/-- A leaf replaces an entry that maps nothing. -/
theorem coheres_mapLeaf {slot : Slot} {page : VirtualAddress} {writable : Bool}
    (hHolds : m.memory.holds slot.table = true) (hNumber : f.number.toNat < 2 ^ 40)
    (h' : (m.memory.entry slot).present = false →
      plan'.Fits kernel roots (m.memory.setEntry slot (Entry.compose writable .user f)))
    (hPlan : ∀ u x, plan u = some x → plan' u = some x) :
    Coheres (Script.mapLeaf page f writable (.ok slot)) m := by
  rw [Script.mapLeaf]
  refine .ask_bind fun b hAsk => ?_
  obtain rfl := Except.ok.inj hAsk
  cases hPresent : (m.memory.entry slot).present with
  | true => exact .done _ m
  | false =>
    refine .done_bind fun e hLeaf => ?_
    rw [Entry.userLeaf_eq hNumber] at hLeaf
    obtain rfl := Except.ok.inj hLeaf
    refine .perform_bind (fun tlb hTlb => ?_) ((Coheres.perform_note _ _).bind fun _ _ _ => .done _ _)
    refine h.coherent_setEntry hActive hHolds (h' hPresent) (fun u r₀ path _ hu _ j hOld => ?_) hTlb
    refine ⟨hPlan u _ hu, ?_⟩
    rintro rfl
    rw [hPresent] at hOld
    cases hOld

section Edit

variable {s : AddressSpace} (ht : plan t = some ⟨s.root, a.pathTo .pt⟩)
  (h' : plan'.Fits kernel roots (m.memory.setEntry ⟨t, Level.pt.indexOf a⟩ e))
  (hTables : ∀ {u r path}, path.length = 3 → (plan' u = some ⟨r, path⟩ ↔ plan u = some ⟨r, path⟩))

include ht h' hTables

/-- The entry of one address is replaced: what is remembered of other pages stays so. -/
theorem coherentBut_setEntry (hUser : a.isUser = true) {tlb : Tlb} (hTlb : Coherent m tlb) :
    CoherentBut a.page { m with memory := m.memory.setEntry ⟨t, Level.pt.indexOf a⟩ e } tlb := by
  intro x hx hNe
  refine h.maps_kept h' hActive hActive (hTlb x hx) fun u r₀ hr₀ hu _ =>
    ⟨(hTables (by simp [Level.depth])).2 hu, ?_⟩
  rw [Memory.entry_setEntry (s := ⟨t, Level.pt.indexOf a⟩) (h.holds ht), if_neg]
  intro hEq
  obtain ⟨rfl, hIndex⟩ := slot_inj hEq
  rw [ht] at hu
  obtain ⟨-, hPath⟩ : s.root = r₀ ∧ a.pathTo .pt = x.1.base.pathTo .pt := by simpa using hu
  have hSame : x.1.base.path = a.path := by
    rw [VirtualAddress.path, VirtualAddress.path, hIndex, hPath]
  apply hNe
  rw [← Page.page_base x.1]
  exact VirtualAddress.page_eq_of_path_eq (hTlb x hx).canonical hUser hSame

/-- The space is not the active one: the unit walks tables of the active tree and of the kernel's, and
the table is in neither. -/
theorem coherent_setEntry_other (hs : s.root ∈ roots) (hOff : m.mmu.active ≠ s.root) {tlb : Tlb}
    (hTlb : Coherent m tlb) :
    Coherent { m with memory := m.memory.setEntry ⟨t, Level.pt.indexOf a⟩ e } tlb := by
  refine h.coherent_setEntry hActive (h.holds ht) h' (fun u r₀ path hr₀ hu hLength j _ => ?_) hTlb
  refine ⟨(hTables hLength).2 hu, fun hEq => ?_⟩
  obtain ⟨rfl, -⟩ := slot_inj hEq
  rw [ht] at hu
  obtain ⟨rfl, -⟩ : s.root = r₀ ∧ _ := by simpa using hu
  rcases hr₀ with hr₀ | hr₀
  · exact hOff hr₀.symm
  · exact h.ne_kernel hs hr₀

/-- An entry of one space is replaced, and if the space is the active one its page is forgotten. -/
theorem coheres_edit (hUser : a.isUser = true) (hs : s.root ∈ roots) :
    Coheres (Script.edit s a ⟨t, Level.pt.indexOf a⟩ e) m := by
  intro tlb hTlb outcome m' tlb' hRuns
  obtain ⟨tlb₁, hFill₁, hForget⟩ := hRuns.of_act
  obtain ⟨tlb₂, hFill₂, hRest⟩ := hForget.of_look
  split at hRest
  next =>
    -- Of this one page the old entry or the new one may be remembered, until it is forgotten.
    have hBut := h.coherentBut_setEntry hActive ht h' hTables hUser (hTlb.fills hFill₁)
    obtain ⟨tlb₃, hFill₃, hDone⟩ := hRest.of_act
    obtain ⟨rfl, hFill₄⟩ := hDone.of_done
    exact ((hBut.fills hFill₂).fills hFill₃).invalidate.fills hFill₄
  next hOff =>
    have hStill := h.coherent_setEntry_other hActive ht h' hTables hs hOff (hTlb.fills hFill₁)
    obtain ⟨rfl, hFill₃⟩ := hRest.of_done
    exact (hStill.fills hFill₂).fills hFill₃

end Edit

end Fits

namespace Describes

variable (h : plan.Describes kernel roots held m)
  (hActive : m.mmu.active = kernel ∨ m.mmu.active ∈ roots)

include h hActive

section Hang

variable {rest : List Frame} {level : Level} (hr : r ∈ roots) (hHalf : OwnHalf kernel r a)
  (hLevel : (a.pathTo level).length < 3) (ht : plan t = some ⟨r, a.pathTo level⟩)
  (hEmpty : m.memory.entry ⟨t, level.indexOf a⟩ = .empty) (hFree : m.frames.free = f :: rest)

include hr hHalf hLevel ht hEmpty hFree

theorem coheres_cut {m₁ : Machine} {l : Level} (hSupply : m.frames.supply ≠ 0)
    (hUndone : Undone (m.hang ⟨t, level.indexOf a⟩ f) m₁ l a) (e : WalkError) :
    Coheres (Script.keepOrCut ⟨t, level.indexOf a⟩ f (.error e)) m₁ := by
  have hMem : f ∈ m.frames.free := hFree ▸ List.mem_cons_self
  have hNew := h.accounts.new_of_free hMem
  have hNe : t ≠ f := ne_of_new hNew ht
  have ht' : plan.put f ⟨r, level.indexOf a :: a.pathTo level⟩ t = some ⟨r, a.pathTo level⟩ :=
    (put_eq_some hNew).2 (Or.inr ht)
  have hHung := (h.hang ht hLevel (hHalf.branches level) hr hFree hEmpty).undone hUndone
  have hPt : level ≠ .pt := by
    rintro rfl
    exact absurd hLevel (Nat.lt_irrefl 3)
  have hAfter := h.undone ((h.bare_of_empty ht fun _ => hEmpty).undone_hang hFree hSupply hUndone hPt)
  have hActive' : m₁.mmu.active = kernel ∨ m₁.mmu.active ∈ roots := by
    rw [hUndone.mmu_eq, Machine.mmu_hang]
    exact hActive
  refine .perform_bind (fun tlb hTlb => ?_) ((Coheres.giveFrame f _).bind fun _ _ _ => .done _ _)
  refine hHung.fits.coherent_setEntry hActive' (hHung.fits.holds ht') hAfter.fits ?_ hTlb
  intro u r₀ path _ hu hLeaf j hPresent
  refine ⟨?_, slot_ne_of_length ht' hLevel hu hLeaf⟩
  rcases (put_eq_some hNew).1 hu with ⟨rfl, -⟩ | hOld
  · -- The table that is cut off has no present entry.
    have hSlot : (⟨u, j⟩ : Slot) ≠ ⟨t, level.indexOf a⟩ := fun hEq => hNe (slot_inj hEq).1.symm
    have hRest : u ∉ (m.hang ⟨t, level.indexOf a⟩ u).frames.free := by
      rw [Machine.free_hang _ hFree]
      have hNodup := h.accounts.sound.free_nodup
      rw [hFree] at hNodup
      exact (List.nodup_cons.1 hNodup).1
    rw [hUndone.agree.entry fun hIn => hRest (List.mem_of_mem_take hIn), Machine.memory_hang,
      Memory.entry_hang _ (h.fits.holds ht) (h.accounts.sound.free_holds hMem), if_neg hSlot,
      if_pos rfl] at hPresent
    simp at hPresent
  · exact hOld

/-- A table that was made stays when the tables below could be made, and is cut off when not. -/
theorem coheres_keepOrCut {below : Level} {m₁ : Machine} (hSupply : m.frames.supply ≠ 0)
    {o : Except WalkError Slot}
    (hRun : lookupCreatingFrom a below f (m.hang ⟨t, level.indexOf a⟩ f) = .ok o m₁) :
    Coheres (Script.keepOrCut ⟨t, level.indexOf a⟩ f o) m₁ := by
  cases o with
  | ok leaf => exact .done _ m₁
  | error e =>
    have hBare := (h.bare_of_empty ht fun _ => hEmpty).hang below hFree
    have hShort : (m.hang ⟨t, level.indexOf a⟩ f).frames.supply < below.height := by
      by_contra hEnough
      rw [lookupCreatingFrom_grown hBare (by omega)] at hRun
      cases hRun
    obtain ⟨l, m₂, hStop, -, hUndone⟩ := lookupCreatingFrom_undone hBare hShort
    rw [hStop] at hRun
    obtain ⟨-, rfl⟩ := EStateM.Result.ok.inj hRun
    exact h.coheres_cut hActive hr hHalf hLevel ht hEmpty hFree hSupply hUndone e

end Hang

theorem coheres_lookupCreatingFrom (hr : r ∈ roots) (hHalf : OwnHalf kernel r a) (level : Level)
    (ht : plan t = some ⟨r, a.pathTo level⟩) :
    Coheres (Script.lookupCreatingFrom a level t) m := by
  induction level using Level.descent generalizing plan m t with
  | leaf =>
    rw [Script.lookupCreatingFrom]
    exact .ask_bind fun _ _ => .done _ m
  | inner level below hNext ih =>
    have hLength := a.length_pathTo_lt_of_next? hNext
    have hBelow := @VirtualAddress.pathTo_of_next? a _ _ hNext
    rw [lookupCreatingFrom_inner hNext]
    refine .ask_bind fun _ _ => .ask_bind fun o hTarget => ?_
    cases o with
    | some next =>
      have hPlace := h.fits.place_of_target ht (by omega) (hHalf.branches level) hTarget
      rw [← hBelow] at hPlace
      exact ih h hActive hPlace
    | none =>
      have hEmpty : m.memory.entry ⟨t, level.indexOf a⟩ = .empty := by
        rcases h.fits.link_target ht hLength (hHalf.branches level) with hEmpty | ⟨f, -, hSome⟩
        · exact hEmpty
        · rw [hTarget] at hSome
          cases hSome
      refine .takeFrame?_bind ?_
      by_cases hSupply : m.frames.supply = 0
      · rw [FrameAllocator.alloc_of_supply_eq_zero hSupply]
        exact (Coheres.perform_note _ _).bind fun _ _ _ => .done _ _
      · have hPos := Nat.pos_of_ne_zero hSupply
        obtain ⟨f, rest, hFree⟩ := FrameAllocator.exists_free_of_supply hPos
        have hMem : f ∈ m.frames.free := hFree ▸ List.mem_cons_self
        have hHung := h.hang ht hLength (hHalf.branches level) hr hFree hEmpty
        have hPlace : plan.put f ⟨r, level.indexOf a :: a.pathTo level⟩ f = some ⟨r, a.pathTo below⟩ := by
          rw [hBelow, put_self]
        rw [FrameAllocator.alloc_of_supply_pos hFree (h.accounts.sound.free_new hMem) hPos]
        refine (h.fits.coheres_hang (m := { m with frames := m.frames.serve 1 }) hActive ht hLength
          (hHalf.branches level) (fun hEq => absurd hEq (h.fits.ne_kernel hr)) (h.accounts.new_of_free hMem)
          (h.accounts.sound.free_holds hMem) hEmpty).bind fun _ m₁ hRun => ?_
        rw [run_hang_of_holds (h.accounts.sound.free_holds hMem) h.fits.frames_le] at hRun
        obtain ⟨-, rfl⟩ := EStateM.Result.ok.inj hRun
        have hActive' : (m.hang ⟨t, level.indexOf a⟩ f).mmu.active = kernel ∨
            (m.hang ⟨t, level.indexOf a⟩ f).mmu.active ∈ roots := by
          rw [Machine.mmu_hang]
          exact hActive
        refine (ih hHung hActive' hPlace).bind fun o m₂ hBelowRun => ?_
        rw [run_lookupCreatingFrom] at hBelowRun
        exact h.coheres_keepOrCut hActive hr hHalf hLength ht hEmpty hFree hSupply hBelowRun

theorem coheres_map {s : AddressSpace} {page kernelAlias : VirtualAddress}
    (hs : s.isKernel = false → s.root ∈ roots)
    (hHeld : ∀ p, Memory.behind kernelAlias = .ok p → p.frame ∈ held) (writable : Bool) :
    Coheres (Script.map s page kernelAlias writable) m := by
  rw [Script.map]
  refine .unless_bind fun hAligned => .unless_bind fun hAlias => .done_bind fun _ hMutable =>
    .done_bind fun p hBehind => ?_
  obtain ⟨hUser, hKernel⟩ := AddressSpace.of_requireMutable hMutable
  have hr := hs hKernel
  have hHalf := h.fits.ownHalf hr hUser
  have hRoot := h.fits.root_place hr
  have hNumber := (DirectMap.pairs_of_behind hBehind).number_lt
  obtain ⟨l, t, hDescends, ht, hBare⟩ := h.bare hHalf hRoot
  refine (h.coheres_lookupCreatingFrom hActive hr hHalf .pml4 hRoot).bind fun o m₁ hRun => ?_
  rw [run_lookupCreatingFrom, hDescends.lookupCreatingFrom_eq] at hRun
  by_cases hSupply : l.height ≤ m.frames.supply
  · have hGrown := h.grow hHalf (fun hEq => absurd hEq (h.fits.ne_kernel hr)) ht hBare
    have hTable := h.grow_leafTable ht hSupply
    rw [lookupCreatingFrom_grown hBare hSupply] at hRun
    obtain ⟨rfl, rfl⟩ := EStateM.Result.ok.inj hRun
    have hPlan : ∀ u x, plan.grow s.root page l (m.frames.free.take l.height) u = some x →
        mappedPlan plan m s.root page p.frame l u = some x :=
      fun u x hu => (put_eq_some (hGrown.accounts.held_new (hHeld p hBehind))).2 (Or.inr hu)
    refine hGrown.fits.coheres_mapLeaf hActive (hGrown.fits.holds hTable) hNumber (fun hAbsent => ?_) hPlan
    have hOld : l = .pt → (m.memory.entry ⟨t, Level.pt.indexOf page⟩).present = false := by
      intro hl
      have hEntry := hBare.entry_leafTable hSupply (Level.pt.indexOf page)
      rw [if_pos hl] at hEntry
      rw [← hEntry]
      exact hAbsent
    exact (h.mapped hUser hr ht hBare hSupply hOld (hHeld p hBehind) writable).fits
  · obtain ⟨l, m₂, hStop, -, -⟩ := lookupCreatingFrom_undone hBare (Nat.lt_of_not_le hSupply)
    rw [hStop] at hRun
    obtain ⟨rfl, rfl⟩ := EStateM.Result.ok.inj hRun
    exact .done _ _

theorem coheres_create (k : KernelSpace) : Coheres (Script.create k) m := by
  rw [Script.create]
  refine .takeFrame?_bind ?_
  by_cases hSupply : m.frames.supply = 0
  · rw [FrameAllocator.alloc_of_supply_eq_zero hSupply]
    exact (Coheres.perform_note _ _).bind fun _ _ _ => .done _ _
  · have hPos := Nat.pos_of_ne_zero hSupply
    obtain ⟨f, rest, hFree⟩ := FrameAllocator.exists_free_of_supply hPos
    have hMem : f ∈ m.frames.free := hFree ▸ List.mem_cons_self
    rw [FrameAllocator.alloc_of_supply_pos hFree (h.accounts.sound.free_new hMem) hPos]
    refine .ask_bind fun _ _ => .ask_bind fun table _ => ?_
    refine (h.fits.coheres_writeTable (m := { m with frames := m.frames.serve 1 }) hActive
      (h.accounts.new_of_free hMem) table (h.accounts.sound.free_holds hMem)).bind fun _ _ _ => ?_
    exact (Coheres.perform_note _ _).bind fun _ _ _ => .done _ _

section Leaves

variable {s : AddressSpace} (hs : s.isKernel = false → s.root ∈ roots)

include hs

theorem coheres_unmap (page : VirtualAddress) : Coheres (Script.unmap s page) m := by
  rw [Script.unmap]
  refine .unless_bind fun hAligned => .done_bind fun _ hMutable => .ask_bind fun o hLookup => ?_
  obtain ⟨hUser, hKernel⟩ := AddressSpace.of_requireMutable hMutable
  have hr := hs hKernel
  cases o with
  | error e => exact .done _ m
  | ok slot =>
    refine .ask_bind fun e hEntry => ?_
    obtain rfl := Except.ok.inj hEntry
    split
    next hPresent =>
      obtain ⟨t, ht, rfl⟩ := h.fits.leafTable_of_lookup hr hUser hLookup
      obtain ⟨hSmall, hPage⟩ := h.fits.leaf ht rfl (Level.pt.indexOf page)
      have hTarget := Entry.target_of_not_huge hSmall
      rw [hPresent] at hTarget
      have hAfter : (plan.cut _).Describes kernel roots _ ((Action.setEntry ⟨t, Level.pt.indexOf page⟩
          ((m.memory.entry ⟨t, Level.pt.indexOf page⟩).putFlag .present false)).apply m) :=
        h.cutLeaf hr ht rfl rfl (by rw [Entry.flag_putFlag _ rfl, if_neg (by decide), hSmall]) hTarget
          (Entry.target_putFlag_present _)
      exact (h.fits.coheres_edit hActive ht hAfter.fits (cut_leafTable (hPage _ hTarget) rfl) hUser
        hr).bind fun _ _ _ => .perform_note _ _
    next => exact .done _ m

theorem coheres_setLeafFlag {f : Entry.Field} (hf : f = .dirty ∨ f = .accessed) (a : VirtualAddress)
    (on : Bool) : Coheres (Script.setLeafFlag s f a on) m := by
  rw [Script.setLeafFlag]
  refine .done_bind fun _ hMutable => .ask_bind fun o hLookup => ?_
  obtain ⟨hUser, hKernel⟩ := AddressSpace.of_requireMutable hMutable
  have hr := hs hKernel
  cases o with
  | error e => exact .done _ m
  | ok slot =>
    refine .ask_bind fun e hEntry => ?_
    obtain rfl := Except.ok.inj hEntry
    obtain ⟨t, ht, rfl⟩ := h.fits.leafTable_of_lookup hr hUser hLookup
    have hAfter : plan.Describes kernel roots held ((Action.setEntry ⟨t, Level.pt.indexOf a⟩
        ((m.memory.entry ⟨t, Level.pt.indexOf a⟩).putFlag f on)).apply m) :=
      h.markLeaf hr ht rfl hf rfl
    exact h.fits.coheres_edit hActive ht hAfter.fits (fun _ => Iff.rfl) hUser hr

end Leaves

/-- A leaf that is remembered across a change of roots is the kernel's. -/
theorem coherent_load {root : Frame} (hRoot : root = kernel ∨ root ∈ roots)
    (hLocal : ∀ r ∈ roots, ∀ a : VirtualAddress, a.isUser = true → ∀ e,
      m.memory.leaf? r a = .ok (some e) → e.flag .global = false)
    {tlb : Tlb} (hTlb : Coherent m tlb) :
    Coherent ((Action.load root).apply m) ((Action.load root).onTlb tlb) := by
  intro x hx
  obtain ⟨hMem, hGlobal⟩ := List.mem_filter.1 hx
  have hMaps := hTlb x hMem
  -- No user page is global, so what is kept lies in the half that all trees share.
  have hUpper : kernelRootStart ≤ (Level.pml4.indexOf x.1.base).val := by
    by_contra hLower
    have hUser := VirtualAddress.isUser_of_isCanonical hMaps.canonical (Nat.lt_of_not_le hLower)
    rcases hActive with hKernel | hActive
    · obtain ⟨u, r₀, hr₀, hu, -⟩ := h.fits.place_of_maps (Or.inl hKernel) hMaps
      obtain rfl : r₀ = kernel := hr₀.elim (fun hEq => hEq.trans hKernel) id
      exact hLower ((h.fits.ownPath hu _ rfl).1 rfl)
    · rw [hLocal _ hActive _ hUser _ hMaps.leaf_eq] at hGlobal
      cases hGlobal
  have hKernel : ∀ {r}, r = kernel ∨ r ∈ roots →
      m.memory.leaf? r x.1.base = m.memory.leaf? kernel x.1.base := by
    rintro r (rfl | hr)
    · rfl
    · exact h.fits.leaf?_upper hr hUpper
  refine ⟨hMaps.canonical, ?_, hMaps.present⟩
  show m.memory.leaf? root x.1.base = _
  rw [hKernel hRoot, ← hKernel hActive]
  exact hMaps.leaf_eq

end Describes

end PagedKernel.Plan

namespace PagedKernel.Script.Coheres

theorem sumOver {f : TableIndex → Script Nat} (h : ∀ i m, Coheres (f i) m) (is : List TableIndex)
    (m : Machine) : Coheres (sumOver f is) m := by
  induction is generalizing m with
  | nil => exact .done _ m
  | cons i is ih => exact (h i m).bind fun n m _ => (ih m).bind fun _ m _ => .done _ m

theorem atTarget {f : Frame → Script Nat} (h : ∀ next m, Coheres (f next) m) (slot : Slot)
    (m : Machine) : Coheres (atTarget slot f) m := by
  refine .ask_bind fun o _ => ?_
  cases o with
  | none => exact .done _ m
  | some next => exact h next m

theorem freeTable (level : Level) (table : Frame) (m : Machine) :
    Coheres (freeTable level table) m := by
  have hPage : ∀ page m, Coheres (do Script.giveFrame page; return 1 : Script Nat) m :=
    fun page m => (giveFrame page m).bind fun _ m _ => .done _ m
  induction level using Level.descent generalizing table m with
  | leaf =>
    rw [Script.freeTable]
    exact .ask_bind fun _ _ => (sumOver (fun i => atTarget hPage ⟨table, i⟩) _ m).bind fun _ m _ =>
      (giveFrame table m).bind fun _ m _ => .done _ m
  | inner level below hNext ih =>
    rw [Script.freeTable]
    refine .ask_bind fun _ _ => ?_
    cases level <;> cases hNext <;>
      exact (sumOver (fun i => atTarget ih ⟨table, i⟩) _ m).bind fun _ m _ =>
        (giveFrame table m).bind fun _ m _ => .done _ m

/-- Destroying a space stores nothing. -/
theorem destroy (s : AddressSpace) (m : Machine) : Coheres (destroy s) m := by
  rw [Script.destroy]
  split
  · exact .done _ m
  · exact .ask_bind fun _ _ =>
      (sumOver (fun i => atTarget (freeTable .pdpt) ⟨s.root, i⟩) _ m).bind fun _ m _ =>
        (giveFrame s.root m).bind fun _ m _ => perform_note _ m

end PagedKernel.Script.Coheres
