import PagedKernel.AddressSpace.Release
import PagedKernel.KernelSpace.Builder
import PagedKernel.Proofs.AddressSpace.Mapping
import PagedKernel.Proofs.AddressSpace.Traversal
import PagedKernel.Proofs.Walk.Charts

/-!
# Operations on twins

Every operation on an address space, and on a root table under construction, comes to the same end on
twins and leaves twins, as long as the tables that it reads are charted. The operations on a space read
what hangs below the user half of its root table.

* `Twins.create_step`, `Twins.begin_step`, `Twins.build_step`: root tables are made and filled.
* `Twins.map_step`, `Twins.unmap_step`, `Twins.setLeafFlag_step`: leaves are changed.
* `Twins.destroy_step`: a space is destroyed. The tables are read in memory as it was before, for nothing
  is written.
* `Twins.sameTables`: traversals see the same tables.
-/

namespace PagedKernel

open MachineM Stateful

namespace Machine.Twins

variable {chart : Level → Frame → Prop} {own : TableIndex → Prop} {hidden : Frame → Prop}
  {s t s' t' : Machine} {space : AddressSpace} {f : Frame}

/-! ## Root tables -/

theorem writeTable_step (h : s.Twins (fun g => hidden g ∨ some f = some g) t)
    (hHolds : s.memory.holds f = true) (table : PageTable) :
    Coincide (fun _ => Twins hidden) (Twins hidden) (writeTable f table s) (writeTable f table t) := by
  rw [writeTable_of_holds hHolds, writeTable_of_holds ((h.holds_eq f).trans hHolds)]
  refine .ok () ((h.mono fun g _ hg => hg.imp_right fun hEq => ?_).setTable hHolds table)
  exact (Option.some.inj hEq).symm

theorem create_step (h : s.Twins hidden t) (hSound : s.frames.Sound s.memory) {k : KernelSpace}
    (hShows : s.Shows hidden k.root) :
    Coincide (fun _ => Twins hidden) (Twins hidden) (AddressSpace.create k s)
      (AddressSpace.create k t) := by
  have hTable : t.memory.table k.root = s.memory.table k.root := by
    have hEntry : ∀ i, t.memory.entry ⟨k.root, i⟩ = s.memory.entry ⟨k.root, i⟩ :=
      fun i => @Twins.entry _ _ _ ⟨k.root, i⟩ h hShows.inUse hShows.seen
    simp only [Memory.table, hEntry]
  rw [AddressSpace.create]
  refine (h.takeFrame?_step hSound).bind ?_
  rintro (_ | root) s' t' ⟨hTwins, hMemory, hMemory', hFree⟩
  · exact .ok _ ((hTwins.mono fun _ _ hg => hg.resolve_right (by simp)).note _)
  · have hRequire : ∀ {m : Machine}, m.memory.holds k.root = true →
        look (·.requireTable k.root) m = .ok () m :=
      fun hHolds => look_ok (Memory.requireTable_of_holds hHolds)
    have hHolds := hShows.holds
    rw [← hMemory] at hHolds
    have hCopy := look_value (s := s') fun m => m.table k.root
    have hCopy' := look_value (s := t') fun m => m.table k.root
    rw [hMemory', hTable, ← hMemory] at hCopy'
    simp only
    rw [bind_ok (hRequire hHolds), bind_ok (hRequire ((hTwins.holds_eq _).trans hHolds)), bind_ok hCopy,
      bind_ok hCopy']
    refine (hTwins.writeTable_step ?_ _).bind fun _ s'' t'' hWritten => ?_
    · rw [hMemory]
      exact hSound.free_holds (hFree root rfl)
    · exact .ok _ (hWritten.note _)

theorem begin_step (h : s.Twins hidden t) (hSound : s.frames.Sound s.memory) :
    Coincide (fun _ => Twins hidden) (Twins hidden) (KernelBuilder.create s) (KernelBuilder.create t) := by
  rw [KernelBuilder.create]
  refine (h.takeFrame?_step hSound).bind ?_
  rintro (_ | root) s' t' ⟨hTwins, hMemory, -, hFree⟩
  · exact .ok _ (hTwins.mono fun _ _ hg => hg.resolve_right (by simp))
  · refine (hTwins.writeTable_step ?_ _).bind fun _ s'' t'' hWritten => .ok _ hWritten
    rw [hMemory]
    exact hSound.free_holds (hFree root rfl)

theorem build_step (h : s.Twins hidden t) (hChart : s.Charted chart own hidden) {b : KernelBuilder}
    (hRoot : chart .pml4 b.root) (hOwn : ∀ i, own i) (page : VirtualAddress) (frame : Frame)
    (writable : Bool) :
    Coincide (fun _ => Twins hidden) (Twins hidden) (b.map page frame writable s)
      (b.map page frame writable t) := by
  rw [KernelBuilder.map]
  by_cases hAligned : page.isAligned = true
  · by_cases hKernel : page.isKernel = true
    · simp only [hAligned, hKernel, ↓reduceIte]
      refine (h.lookupCreating_step hChart hRoot (hOwn _)).bind ?_
      rintro o s' t' ⟨hTwins, -, hSlot⟩
      cases o with
      | error e => exact .ok _ hTwins
      | ok slot =>
        refine Coincide.lift_bind hTwins fun e _ => ?_
        exact .ok _ (hTwins.setEntry (hSlot slot rfl).holds e)
    · simp only [hAligned, hKernel, ↓reduceIte]
      exact .error _ h
  · simp only [hAligned]
    exact .error _ h

theorem finish_step (h : s.Twins hidden t) (b : KernelBuilder) :
    Coincide (fun _ => Twins hidden) (Twins hidden) (b.finish s) (b.finish t) :=
  .ok _ (h.note (.kernelFinished b.root))

/-! ## Leaves -/

/-- A page is mapped when the walk has come to a slot. -/
theorem mapLeaf_step {o : Except WalkError Slot} (h : s.Twins hidden t)
    (hSlot : ∀ slot, o = .ok slot → s.Shows hidden slot.table) (page : VirtualAddress) (frame : Frame)
    (writable : Bool) :
    Coincide (fun _ => Twins hidden) (Twins hidden) (AddressSpace.mapLeaf page frame writable o s)
      (AddressSpace.mapLeaf page frame writable o t) := by
  cases o with
  | error e => exact .ok _ h
  | ok slot =>
    have hShows := hSlot slot rfl
    rw [AddressSpace.mapLeaf]
    refine h.look_bind (by rw [h.entry hShows.inUse hShows.seen]) fun present _ => ?_
    cases present with
    | true => exact .error _ h
    | false =>
      refine Coincide.lift_bind h fun e _ => ?_
      exact .ok _ ((h.setEntry hShows.holds e).note _)

theorem forget_step (h : s.Twins hidden t) (space : AddressSpace) (a : VirtualAddress) :
    Coincide (fun _ => Twins hidden) (Twins hidden) (space.forget a s) (space.forget a t) :=
  .ok () (h.tell fun u => if u.active = space.root then u.invalidate a.page else u)

section Changes

variable (h : s.Twins hidden t) (hChart : s.Charted chart own hidden)
  (hRoot : space.isKernel = false → chart .pml4 space.root)
  (hOwn : ∀ a : VirtualAddress, a.isUser = true → own (Level.pml4.indexOf a))

include h hChart hRoot hOwn

theorem map_step (page kernelAlias : VirtualAddress) (writable : Bool) :
    Coincide (fun _ => Twins hidden) (Twins hidden) (space.map page kernelAlias writable s)
      (space.map page kernelAlias writable t) := by
  rw [AddressSpace.map]
  by_cases hAligned : page.isAligned = true
  · by_cases hAlias : kernelAlias.isAligned = true
    · simp only [hAligned, hAlias, ↓reduceIte]
      refine Coincide.lift_bind h fun _ hMutable => Coincide.lift_bind h fun p _ => ?_
      obtain ⟨hUser, hKernel⟩ := AddressSpace.of_requireMutable hMutable
      refine (h.lookupCreating_step hChart (hRoot hKernel) (hOwn page hUser)).bind ?_
      rintro o s' t' ⟨hTwins, -, hSlot⟩
      exact hTwins.mapLeaf_step hSlot page p.frame writable
    · simp only [hAligned, hAlias, ↓reduceIte]
      exact .error _ h
  · simp only [hAligned]
    exact .error _ h

/-- What follows a lookup reads the entry that it came to. -/
theorem lookup_bind {α : Type} {f : Except WalkError Slot → MachineM α}
    {Q : α → Machine → Machine → Prop} {a : VirtualAddress} (hUser : a.isUser = true)
    (hKernel : space.isKernel = false) (hNone : ∀ e, Coincide Q (Twins hidden) (f (.error e) s) (f (.error e) t))
    (hSlot : ∀ slot, s.Shows hidden slot.table → t.memory.entry slot = s.memory.entry slot →
      Coincide Q (Twins hidden) (f (.ok slot) s) (f (.ok slot) t)) :
    Coincide Q (Twins hidden) ((look (·.lookup space.root a) >>= f) s)
      ((look (·.lookup space.root a) >>= f) t) := by
  refine h.look_bind (h.lookup_eq hChart (hRoot hKernel) (hOwn a hUser)) fun o ho => ?_
  cases o with
  | error e => exact hNone e
  | ok slot =>
    have hShows := hChart.shows_of_lookup (hRoot hKernel) (hOwn a hUser) ho
    exact hSlot slot hShows (h.entry hShows.inUse hShows.seen)

/-- A page that is unmapped is a user page of a space that can be changed. -/
theorem unmap_step (page : VirtualAddress) :
    Coincide (fun _ s' t' => s'.Twins hidden t' ∧ page.isUser = true ∧ space.isKernel = false)
      (Twins hidden) (space.unmap page s) (space.unmap page t) := by
  rw [AddressSpace.unmap]
  by_cases hAligned : page.isAligned = true
  · simp only [hAligned, ↓reduceIte]
    refine Coincide.lift_bind h fun _ hMutable => ?_
    obtain ⟨hUser, hKernel⟩ := AddressSpace.of_requireMutable hMutable
    refine h.lookup_bind hChart hRoot hOwn hUser hKernel (fun _ => .ok () ⟨h, hUser, hKernel⟩) ?_
    intro slot hShows hEntry
    refine h.look_bind (by rw [hEntry]) fun e _ => ?_
    cases hPresent : e.present with
    | false => exact .ok () ⟨h, hUser, hKernel⟩
    | true =>
      refine (h.setEntry_step hShows.holds _).bind fun _ s' t' hSet => ?_
      refine (hSet.forget_step space page).bind fun _ s'' t'' hForgot => ?_
      exact .ok () ⟨hForgot.note _, hUser, hKernel⟩
  · simp only [hAligned]
    exact .error _ h

theorem setLeafFlag_step (f : Entry.Field) (a : VirtualAddress) (on : Bool) :
    Coincide (fun _ => Twins hidden) (Twins hidden) (space.setLeafFlag f a on s)
      (space.setLeafFlag f a on t) := by
  rw [AddressSpace.setLeafFlag]
  refine Coincide.lift_bind h fun _ hMutable => ?_
  obtain ⟨hUser, hKernel⟩ := AddressSpace.of_requireMutable hMutable
  refine h.lookup_bind hChart hRoot hOwn hUser hKernel (fun _ => .ok () h) ?_
  intro slot hShows hEntry
  refine h.look_bind (by rw [hEntry]) fun e _ => ?_
  refine (h.setEntry_step hShows.holds _).bind fun _ s' t' hSet => ?_
  exact hSet.forget_step space a

end Changes

/-! ## Destroying a space -/

/-- From twins the machines have come this far, and nothing was written. -/
structure Unwritten (hidden : Frame → Prop) (s t s' t' : Machine) : Prop where
  twins : s'.Twins hidden t'
  left : s'.memory = s.memory
  right : t'.memory = t.memory

def Frees {α : Type} (hidden : Frame → Prop) (s t : Machine) (x : MachineM α) : Prop :=
  ∀ s' t', Unwritten hidden s t s' t' →
    Coincide (fun _ => Unwritten hidden s t) (Twins hidden) (x s') (x t')

theorem frees_giveFrame (f : Frame) : Frees hidden s t (giveFrame f) := by
  intro s' t' h
  refine (h.twins.giveFrame_step f).imp ?_
  rintro _ s'' t'' ⟨hTwins, hLeft, hRight⟩
  exact ⟨hTwins, hLeft.trans h.left, hRight.trans h.right⟩

theorem Frees.bind {α β : Type} {x : MachineM α} {f : α → MachineM β} (hx : Frees hidden s t x)
    (hf : ∀ a, Frees hidden s t (f a)) : Frees hidden s t (x >>= f) :=
  fun s' t' h => (hx s' t' h).bind fun a s'' t'' h' => hf a s'' t'' h'

theorem frees_pure {α : Type} (a : α) : Frees hidden s t (pure a : MachineM α) :=
  fun _ _ h => .ok a h

theorem frees_note (n : Notice) : Frees hidden s t (MachineM.note n) :=
  fun _ _ h => .ok () ⟨h.twins.note n, h.left, h.right⟩

theorem frees_sumOver {f : TableIndex → MachineM Nat} {is : List TableIndex}
    (hf : ∀ i ∈ is, Frees hidden s t (f i)) : Frees hidden s t (AddressSpace.sumOver f is) := by
  induction is with
  | nil => exact frees_pure 0
  | cons i is ih =>
    refine (hf i List.mem_cons_self).bind fun n => ?_
    exact (ih fun j hj => hf j (List.mem_cons_of_mem i hj)).bind fun _ => frees_pure _

theorem frees_look {α β : Type} {c : Memory → Checked α} {f : α → MachineM β}
    (hSame : c t.memory = c s.memory) (hf : ∀ a, c s.memory = .ok a → Frees hidden s t (f a)) :
    Frees hidden s t (look c >>= f) := by
  intro s' t' h'
  refine h'.twins.look_bind (by rw [h'.left, h'.right, hSame]) fun a ha => ?_
  exact hf a (by rw [← h'.left, ha]) s' t' h'

section Tables

variable (h : s.Twins hidden t) (hChart : s.Charted chart own hidden) {level : Level} {table : Frame}

include h

theorem frees_requireTable {β : Type} {f : Unit → MachineM β} (table : Frame)
    (hf : ∀ u, Frees hidden s t (f u)) : Frees hidden s t (look (·.requireTable table) >>= f) :=
  frees_look (Memory.requireTable_congr h.agree.frames_eq table) fun u _ => hf u

/-- A table is given back after what hangs below it. -/
theorem frees_whole (table : Frame) {x : MachineM Nat} (hx : Frees hidden s t x) :
    Frees hidden s t (do
      look (·.requireTable table)
      let released ← x
      giveFrame table
      return released + 1) :=
  h.frees_requireTable table fun _ => hx.bind fun _ => (frees_giveFrame table).bind fun _ => frees_pure _

include hChart

theorem frees_under (hTable : chart level table) {x : Frame → MachineM Nat} {slots : List TableIndex}
    (hx : ∀ i ∈ slots, ∀ next, (s.memory.entry ⟨table, i⟩).target = .ok (some next) →
      Frees hidden s t (x next)) :
    Frees hidden s t (AddressSpace.sumOver (fun i => do
      match ← AddressSpace.targetAt ⟨table, i⟩ with
      | some next => x next
      | none => return 0) slots) := by
  have hShows := hChart.shows hTable
  refine frees_sumOver fun i hi => frees_look ?_ fun o ho => ?_
  · exact congrArg Entry.target (@Twins.entry _ _ _ ⟨table, i⟩ h hShows.inUse hShows.seen)
  · cases o with
    | none => exact frees_pure 0
    | some next => exact hx i hi next ho

theorem frees_table (hTable : chart level table) (hInner : level ≠ .pml4) :
    Frees hidden s t (AddressSpace.freeTable level table) := by
  induction level using Level.descent generalizing table with
  | leaf =>
    rw [AddressSpace.freeTable.eq_def]
    refine h.frees_whole table (h.frees_under hChart hTable fun _ _ next _ => ?_)
    exact (frees_giveFrame next).bind fun _ => frees_pure 1
  | inner level below hNext ih =>
    have hBelow := h.frees_under hChart hTable fun i (_ : i ∈ TableIndex.all) next hTarget =>
      ih (hChart.chart_of_target hTable hNext (fun hTop => absurd hTop hInner) hTarget)
        (Level.ne_pml4_of_next? hNext)
    rw [AddressSpace.freeTable.eq_def]
    cases level <;> cases hNext <;> exact h.frees_whole table hBelow

theorem destroy_step (hRoot : space.isKernel = false → chart .pml4 space.root)
    (hOwn : ∀ i ∈ TableIndex.userHalf, own i) :
    Coincide (fun _ => Twins hidden) (Twins hidden) (space.destroy s) (space.destroy t) := by
  rw [AddressSpace.destroy]
  cases hKernel : space.isKernel with
  | true => exact .error _ h
  | false =>
    have hTable := hRoot hKernel
    have hNext : Level.pml4.next? = some .pdpt := rfl
    have hBelow : Frees hidden s t _ := h.frees_under hChart hTable fun i hi next hTarget =>
      h.frees_table hChart (hChart.chart_of_target hTable hNext (fun _ => hOwn i hi) hTarget)
        (Level.ne_pml4_of_next? hNext)
    have hRest := hBelow.bind fun released => (frees_giveFrame space.root).bind fun _ =>
      frees_note (.spaceDestroyed space.root (released + 1))
    have hEnd := h.frees_requireTable space.root (fun _ => hRest) s t ⟨h, rfl, rfl⟩
    exact hEnd.imp fun _ _ _ hFreed => hFreed.twins

theorem sameTables (hOwn : ∀ i, own i) : Leaves.SameTables chart s.memory t.memory where
  frames_eq := h.agree.frames_eq
  entry_eq {_ u} hTable i := by
    have hShows := hChart.shows hTable
    exact @Twins.entry _ _ _ ⟨u, i⟩ h hShows.inUse hShows.seen
  below hTable hNext hTarget := hChart.chart_of_target hTable hNext (fun _ => hOwn _) hTarget

end Tables

end Machine.Twins

end PagedKernel
