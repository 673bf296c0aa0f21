import PagedKernel.Proofs.AddressSpace.Dependence
import PagedKernel.Proofs.Machine.Twins

/-!
# Walks on twins

A chart names the frames that are tables, and of which level. When it is closed under what tables point
at, and every table that it names is in use and not hidden, then a walk from such a table reads nothing
in which twins differ: it comes to the same slot, makes tables of the same frames, or fails in the same
way. A chart may leave out what hangs below a part of the root tables, and is for addresses that lie in
the other part.

* `Machine.Charted`: the chart fits the machine.
* `Charted.twin`: it fits every twin.
* `Charted.chart_of_leads`: all that is reached is charted.
* `Twins.lookupCreatingFrom_bare`, `Twins.lookupCreating_step`: walks that make tables.
* `Twins.lookup_eq`, `Twins.leaf?_eq`: walks that do not.
-/

namespace PagedKernel

open MachineM Stateful

/-- The chart names tables of the machine, with every table that they point at; of the entries of root
tables those count that `own` selects. The tables are in use, and neither they nor the free frames are
hidden. -/
structure Machine.Charted (chart : Level → Frame → Prop) (own : TableIndex → Prop)
    (hidden : Frame → Prop) (s : Machine) : Prop where
  frames_le : s.memory.frames ≤ 2 ^ 40
  sound : s.frames.Sound s.memory
  inUse {level : Level} {t : Frame} : chart level t → t ∈ s.frames.inUse
  seen {level : Level} {t : Frame} : chart level t → ¬ hidden t
  free_seen {f : Frame} : f ∈ s.frames.free → ¬ hidden f
  link {level below : Level} {t : Frame} : chart level t → level.next? = some below →
    ∀ i, (level = .pml4 → own i) → s.memory.entry ⟨t, i⟩ = .empty ∨
      ∃ f, chart below f ∧ (s.memory.entry ⟨t, i⟩).target = .ok (some f)

structure Machine.Shows (hidden : Frame → Prop) (s : Machine) (t : Frame) : Prop where
  holds : s.memory.holds t = true
  inUse : t ∈ s.frames.inUse
  seen : ¬ hidden t

variable {chart : Level → Frame → Prop} {own : TableIndex → Prop} {hidden hidden' : Frame → Prop}
  {s t : Machine} {a : VirtualAddress}
  {level below : Level} {root table f : Frame} {path : List TableIndex}

theorem Level.ne_pml4_of_next? (hNext : level.next? = some below) : below ≠ .pml4 := by
  rintro rfl
  cases level <;> cases hNext

namespace Machine.Charted

variable (h : s.Charted chart own hidden)

include h

theorem shows (hTable : chart level table) : s.Shows hidden table :=
  ⟨h.sound.inUse_holds (h.inUse hTable), h.inUse hTable, h.seen hTable⟩

theorem bare (hTable : chart level table)
    (hEmpty : level ≠ .pt → s.memory.entry ⟨table, level.indexOf a⟩ = .empty) : Bare s a level table :=
  ⟨(h.shows hTable).holds, hEmpty, h.frames_le, fun _ => h.sound.free_holds, h.sound.free_nodup,
    fun _ => h.sound.free_new, fun hFree => h.sound.free_new hFree (h.inUse hTable)⟩

theorem anti (hHidden : ∀ f, hidden' f → hidden f) : s.Charted chart own hidden' :=
  ⟨h.frames_le, h.sound, h.inUse, fun hTable hf => h.seen hTable (hHidden _ hf),
    fun hFree hf => h.free_seen hFree (hHidden _ hf), h.link⟩

theorem twin (hTwins : s.Twins hidden t) : t.Charted chart own hidden where
  frames_le := hTwins.agree.frames_eq ▸ h.frames_le
  sound := h.sound.congr (by rw [hTwins.frames_eq]) (by rw [hTwins.frames_eq]) hTwins.agree.frames_eq
  inUse hTable := hTwins.frames_eq ▸ h.inUse hTable
  seen := h.seen
  free_seen hFree := h.free_seen (hTwins.frames_eq ▸ hFree)
  link {_ _ u} hTable hNext i hOwn := by
    rw [@Twins.entry _ _ _ ⟨u, i⟩ hTwins (h.inUse hTable) (h.seen hTable)]
    exact h.link hTable hNext i hOwn

/-- What an entry points at is charted. -/
theorem chart_of_target (hTable : chart level table) (hNext : level.next? = some below) {i : TableIndex}
    (hOwn : level = .pml4 → own i) (hTarget : (s.memory.entry ⟨table, i⟩).target = .ok (some f)) :
    chart below f := by
  rcases h.link hTable hNext i hOwn with hEmpty | ⟨g, hg, hTarget'⟩
  · rw [hEmpty, Entry.target_empty] at hTarget
    cases hTarget
  · rw [hTarget] at hTarget'
    obtain rfl : f = g := by simpa using hTarget'
    exact hg

theorem chart_of_leads (hRoot : chart .pml4 root) (hOwn : own (Level.pml4.indexOf a))
    (hLeads : s.memory.Leads root (a.pathTo level) table) : chart level table := by
  generalize hPath : a.pathTo level = path at hLeads
  induction hLeads generalizing level with
  | root =>
    obtain rfl : level = .pml4 := Level.depth_inj <| by
      rw [← VirtualAddress.length_pathTo, hPath]
      rfl
    exact hRoot
  | @entry path above f i _ _ hTarget ih =>
    obtain ⟨l, hNext⟩ : ∃ l : Level, l.next? = some level := by
      cases level with
      | pml4 => cases hPath
      | pdpt => exact ⟨.pml4, rfl⟩
      | pd => exact ⟨.pdpt, rfl⟩
      | pt => exact ⟨.pd, rfl⟩
    rw [VirtualAddress.pathTo_of_next? hNext] at hPath
    obtain ⟨rfl, hRest⟩ := List.cons.inj hPath
    exact h.chart_of_target (ih hRest) hNext (fun hTop => hTop ▸ hOwn) hTarget

end Machine.Charted

theorem Bare.twin (h : Bare s a level table) (hTwins : s.Twins hidden t)
    (hTable : s.Shows hidden table) : Bare t a level table := by
  have hHolds := hTwins.holds_eq
  obtain ⟨holds, hEntry, hFrames, hFree, hNodup, hNew, hNot⟩ := h
  rw [← hTwins.frames_eq] at hFree hNodup hNew hNot
  refine ⟨(hHolds table).trans holds, fun hLevel => ?_, ?_, fun g hg => ?_, hNodup, hNew, hNot⟩
  · exact (hTwins.entry hTable.inUse hTable.seen).trans (hEntry hLevel)
  · rwa [hTwins.agree.frames_eq]
  · exact (hHolds g).trans (hFree g hg)

theorem Machine.shows_hang (slot : Slot) {rest : List Frame} (hFree : s.frames.free = f :: rest)
    (hHolds : s.memory.holds f = true) (hNot : ¬ hidden f) : (s.hang slot f).Shows hidden f := by
  refine ⟨by simpa using hHolds, ?_, hNot⟩
  rw [Machine.frames_hang, FrameAllocator.mem_inUse_serve, hFree]
  exact Or.inl List.mem_cons_self

namespace Machine.Twins

/-- A table that was made is cut off again on both machines. -/
theorem keepOrCut_step {slot : Slot} {e : WalkError} (h : s.Twins hidden t)
    (hSlot : s.memory.holds slot.table = true) (f : Frame) :
    Coincide (fun o s' t' => o = .error e ∧ s'.Twins hidden t' ∧ s'.memory.frames = s.memory.frames)
      (Twins hidden) (keepOrCut slot f (.error e) s) (keepOrCut slot f (.error e) t) := by
  have hCut : Coincide (fun _ s' t' => s'.Twins hidden t' ∧ s'.memory.frames = s.memory.frames)
      (Twins hidden) (MachineM.setEntry slot .empty s) (MachineM.setEntry slot .empty t) :=
    .ok () ⟨h.setEntry hSlot .empty, Memory.frames_setEntry ..⟩
  refine hCut.bind ?_
  rintro _ s' t' ⟨hTwins, hFrames⟩
  refine (hTwins.giveFrame_step f).bind ?_
  rintro _ s'' t'' ⟨hTwins', hMemory, -⟩
  exact .ok _ ⟨rfl, hTwins', by rw [hMemory, hFrames]⟩

/-- Below an entry that is empty, walks make the same tables or undo the same ones. -/
theorem lookupCreatingFrom_bare (h : s.Twins hidden t) (hBare : Bare s a level table)
    (hTable : s.Shows hidden table) (hFree : ∀ f ∈ s.frames.free, ¬ hidden f) :
    Coincide (fun o s' t' => s'.Twins hidden t' ∧ s'.memory.frames = s.memory.frames ∧
        ∀ slot, o = .ok slot → s'.Shows hidden slot.table)
      (Twins hidden) (lookupCreatingFrom a level table s) (lookupCreatingFrom a level table t) := by
  have hBare' := hBare.twin h hTable
  induction level using Level.descent generalizing s t table with
  | leaf =>
    rw [lookupCreatingFrom_pt hBare.holds, lookupCreatingFrom_pt hBare'.holds]
    refine .ok _ ⟨h, rfl, fun slot hSlot => ?_⟩
    cases hSlot
    exact hTable
  | inner level below hNext ih =>
    have hLevel := Level.ne_pt_of_next? hNext
    by_cases hSupply : s.frames.supply = 0
    · have hTarget : ∀ {m : Machine}, Bare m a level table →
          (m.memory.entry ⟨table, level.indexOf a⟩).target = .ok none := by
        intro m hm
        rw [hm.entry_eq hLevel, Entry.target_empty]
      rw [lookupCreatingFrom_refused hNext hBare.holds (hTarget hBare) hSupply,
        lookupCreatingFrom_refused hNext hBare'.holds (hTarget hBare') (h.frames_eq ▸ hSupply)]
      refine .ok _ ⟨(h.onFrames .refuse fun _ hg => hg).note _, rfl, fun slot hSlot => ?_⟩
      cases hSlot
    · have hPos := Nat.pos_of_ne_zero hSupply
      obtain ⟨f, rest, hFirst⟩ := FrameAllocator.exists_free_of_supply hPos
      have hMem : f ∈ s.frames.free := hFirst ▸ List.mem_cons_self
      have hFirst' : t.frames.free = f :: rest := by rw [h.frames_eq, hFirst]
      rw [lookupCreatingFrom_hang hBare hNext hPos hFirst,
        lookupCreatingFrom_hang hBare' hNext (h.frames_eq ▸ hPos) hFirst']
      -- The fresh table counts from now on, so the walk goes on from twins.
      have hHung := @Twins.hang _ _ _ _ _ ⟨table, level.indexOf a⟩ h hFirst (hBare.free_holds f hMem) hBare.holds
      have hFresh := Machine.shows_hang ⟨table, level.indexOf a⟩ hFirst (hBare.free_holds f hMem) (hFree f hMem)
      have hRest := Machine.free_hang ⟨table, level.indexOf a⟩ hFirst
      have hBelow := hBare.hang below hFirst
      refine (ih hHung hBelow hFresh (fun g hg => ?_) (hBelow.twin hHung hFresh)).bind ?_
      · rw [hRest] at hg
        exact hFree g (hFirst ▸ List.mem_cons_of_mem f hg)
      rintro (e | slot) s' t' ⟨hTwins, hFrames, hSlot⟩
      · rw [Machine.memory_hang, Memory.frames_hang] at hFrames
        have hHolds : s'.memory.holds table = true := by
          rw [Memory.holds, hFrames]
          exact hBare.holds
        refine (@keepOrCut_step _ _ _ ⟨table, level.indexOf a⟩ e hTwins hHolds f).imp ?_
        rintro _ s'' t'' ⟨rfl, hTwins', hFrames'⟩
        exact ⟨hTwins', hFrames'.trans hFrames, fun slot hSlot => by cases hSlot⟩
      · rw [Machine.memory_hang, Memory.frames_hang] at hFrames
        exact .ok _ ⟨hTwins, hFrames, hSlot⟩

theorem lookupCreatingFrom_step (h : s.Twins hidden t) (hChart : s.Charted chart own hidden)
    (hTable : chart level table) (hOwn : level = .pml4 → own (level.indexOf a)) :
    Coincide (fun o s' t' => s'.Twins hidden t' ∧ s'.memory.frames = s.memory.frames ∧
        ∀ slot, o = .ok slot → s'.Shows hidden slot.table)
      (Twins hidden) (lookupCreatingFrom a level table s) (lookupCreatingFrom a level table t) := by
  induction level using Level.descent generalizing table with
  | leaf =>
    exact h.lookupCreatingFrom_bare (hChart.bare hTable fun hNe => absurd rfl hNe) (hChart.shows hTable)
      fun _ => hChart.free_seen
  | inner level below hNext ih =>
    have hShows := hChart.shows hTable
    rcases hChart.link hTable hNext (level.indexOf a) hOwn with hEmpty | ⟨f, hf, hTarget⟩
    · exact h.lookupCreatingFrom_bare (hChart.bare hTable fun _ => hEmpty) hShows
        fun _ => hChart.free_seen
    · have hTarget' : (t.memory.entry ⟨table, level.indexOf a⟩).target = .ok (some f) := by
        rw [@Twins.entry _ _ _ ⟨table, level.indexOf a⟩ h hShows.inUse hShows.seen, hTarget]
      rw [lookupCreatingFrom_next hNext hShows.holds hTarget,
        lookupCreatingFrom_next hNext ((h.holds_eq table).trans hShows.holds) hTarget']
      exact ih hf fun hTop => absurd hTop (Level.ne_pml4_of_next? hNext)

section Lookups

variable (h : s.Twins hidden t) (hChart : s.Charted chart own hidden) (hRoot : chart .pml4 root)
  (hOwn : own (Level.pml4.indexOf a))

include h hChart hRoot hOwn

/-- A walk that makes tables comes to the same end. -/
theorem lookupCreating_step :
    Coincide (fun o s' t' => s'.Twins hidden t' ∧ s'.memory.frames = s.memory.frames ∧
        ∀ slot, o = .ok slot → s'.Shows hidden slot.table)
      (Twins hidden) (lookupCreating root a s) (lookupCreating root a t) := by
  rw [lookupCreating]
  exact h.lookupCreatingFrom_step hChart hRoot fun _ => hOwn

theorem entry_of_leads {i : TableIndex} (hLeads : s.memory.Leads root (a.pathTo level) table) :
    t.memory.entry ⟨table, i⟩ = s.memory.entry ⟨table, i⟩ := by
  have hShows := hChart.shows (hChart.chart_of_leads hRoot hOwn hLeads)
  exact h.entry hShows.inUse hShows.seen

/-- A walk that makes no tables comes to the same slot. -/
theorem lookup_eq : t.memory.lookup root a = s.memory.lookup root a :=
  Memory.lookup_congr h.agree.frames_eq fun _ _ _ hLeads => h.entry_of_leads hChart hRoot hOwn hLeads

theorem leaf?_eq : t.memory.leaf? root a = s.memory.leaf? root a :=
  Memory.leaf?_of_entries h.agree.frames_eq fun _ _ hLeads => h.entry_of_leads hChart hRoot hOwn hLeads

end Lookups

end Machine.Twins

theorem Machine.Charted.shows_of_lookup {slot : Slot} (h : s.Charted chart own hidden)
    (hRoot : chart .pml4 root) (hOwn : own (Level.pml4.indexOf a))
    (hSlot : s.memory.lookup root a = .ok (.ok slot)) : s.Shows hidden slot.table := by
  rw [Memory.lookup] at hSlot
  exact h.shows (h.chart_of_leads hRoot hOwn (Memory.leads_of_lookupFrom .pml4 .root hSlot).1)

end PagedKernel
