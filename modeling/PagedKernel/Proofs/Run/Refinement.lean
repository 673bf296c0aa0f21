import Mathlib.Data.Finset.Insert
import PagedKernel.Proofs.Memory.DirectMap
import PagedKernel.Proofs.Run.Invariant
import PagedKernel.Proofs.Run.Progress

/-!
# Address spaces as maps

To its caller a space is a map from pages to records, and the set of the regions that have a leaf
table. The maps of different spaces have nothing to do with each other. This is so along every run, in
spite of the frames that the tables take from one pool and give back to it.

* `Record`, `SpaceMap`: the map of a space.
* `Maps.advance`, `Maps.after`: what a request, and what a run, makes of the maps.
* `Maps.Models`: every leaf entry shows the record of its page.
* `Maps.Models.advance`: a request keeps that.
* `Run.refines_maps`: after every run the questions about a live space are answered from its map.
-/

namespace PagedKernel

/-- What a space has for a page. -/
structure Record where
  present : Bool
  frame : Frame
  writable : Bool
  dirty : Bool
  accessed : Bool

namespace Record

def blank : Record := ⟨false, Frame.ofNumber 0, false, false, false⟩

def fresh (f : Frame) (writable : Bool) : Record := ⟨true, f, writable, false, false⟩

def physicalAt (r : Record) (o : PageOffset) : Option PhysicalAddress :=
  if r.present then some (r.frame.join o) else none

def aliasAt (r : Record) (o : PageOffset) : Option VirtualAddress :=
  (r.physicalAt o).map fun p => ⟨directMapBase + p.val⟩

def permits (r : Record) : Access → Bool
  | .read => true
  | .write => r.writable

def resolveAt (r : Record) (access : Access) (o : PageOffset) : Option PhysicalAddress :=
  if r.permits access then r.physicalAt o else none

end Record

structure SpaceMap where
  record : Page → Record
  /-- The regions of 2 MiB that have a leaf table. -/
  regions : Finset Nat

namespace SpaceMap

def blank : SpaceMap := ⟨fun _ => .blank, ∅⟩

def edit (M : SpaceMap) (a : VirtualAddress) (f : Record → Record) : SpaceMap :=
  { M with record := Function.update M.record a.page (f (M.record a.page)) }

def map (M : SpaceMap) (a : VirtualAddress) (f : Frame) (writable : Bool) : SpaceMap where
  record := Function.update M.record a.page (.fresh f writable)
  regions := insert a.region M.regions

def unmap (M : SpaceMap) (a : VirtualAddress) : SpaceMap :=
  M.edit a fun r => { r with present := false }

/-- A record is changed if the region of its page has a leaf table. -/
def mark (M : SpaceMap) (a : VirtualAddress) (f : Record → Record) : SpaceMap :=
  if a.region ∈ M.regions then M.edit a f else M

end SpaceMap

abbrev Maps := AddressSpace → SpaceMap

namespace Maps

/-- What a request makes of the maps. Where memory may run out, the reply tells whether it did. -/
def advance (M : Maps) : Event → Maps
  | ⟨.create, .made s⟩ => Function.update M s .blank
  | ⟨.map s page kernelAlias writable, .done⟩ =>
    match Memory.behind kernelAlias with
    | .ok p => Function.update M s ((M s).map page p.frame writable)
    | .error _ => M
  | ⟨.unmap s page, _⟩ =>
    if page.isAligned && page.isUser then Function.update M s ((M s).unmap page) else M
  | ⟨.markDirty s a on, _⟩ =>
    if a.isUser then Function.update M s ((M s).mark a fun r => { r with dirty := on }) else M
  | ⟨.markAccessed s a on, _⟩ =>
    if a.isUser then Function.update M s ((M s).mark a fun r => { r with accessed := on }) else M
  | _ => M

/-- The maps after a run, whose events are listed latest first. -/
def after : List Event → Maps
  | [] => fun _ => .blank
  | e :: earlier => (after earlier).advance e

end Maps

/-- What the questions about a user address are to answer. -/
structure SpaceMap.Answers (M : SpaceMap) (s : AddressSpace) (m : Memory) (a : VirtualAddress) :
    Prop where
  table : ∃ e, m.leaf? s.root a = .ok e ∧ (e.isSome = true ↔ a.region ∈ M.regions)
  translate : s.translate m a = .ok ((M.record a.page).physicalAt a.offset)
  aliasOf : s.aliasOf m a = .ok ((M.record a.page).aliasAt a.offset)
  resolve : ∀ access, s.resolve m a access = .ok ((M.record a.page).resolveAt access a.offset)
  dirtyAt : s.dirtyAt m a = .ok (M.record a.page).dirty
  accessedAt : s.accessedAt m a = .ok (M.record a.page).accessed

/-! ## Entries that show records -/

namespace Record

/-- The flags that a leaf entry has to have. Those of an absent page need not allow anything. -/
def flag? (r : Record) : Entry.Field → Option Bool
  | .present => some r.present
  | .writable => some r.writable
  | .dirty => some r.dirty
  | .accessed => some r.accessed
  | .pageSize => some false
  | .user => if r.present then some true else none
  | _ => none

/-- A leaf entry shows a record. -/
structure Shows (r : Record) (e : Entry) : Prop where
  flag : ∀ {f on}, r.flag? f = some on → e.flag f = on
  frame : Frame.ofNumber (e.get .frameNumber) = r.frame
  reachable : r.present = true → directMapBase.toNat + r.frame.base.val.toNat + 4096 ≤ 2 ^ 64

variable {r r' : Record} {e : Entry}

theorem shows_empty : blank.Shows .empty where
  flag {f on} h := by
    rw [Entry.flag_empty]
    cases f <;> simp_all [flag?, blank]
  frame := by
    rw [Entry.get_empty]
    rfl
  reachable := nofun

theorem Shows.putFlag (h : r.Shows e) {f : Entry.Field} {on : Bool} (hFlag : f.isFlag = true)
    (hOn : ∀ b, r'.flag? f = some b → on = b)
    (hElse : ∀ g b, g ≠ f → r'.flag? g = some b → r.flag? g = some b) (hFrame : r'.frame = r.frame)
    (hPresent : r'.present = true → r.present = true) : r'.Shows (e.putFlag f on) where
  flag {g b} hg := by
    rw [Entry.flag_putFlag e hFlag]
    split
    next hEq =>
      subst hEq
      exact hOn b hg
    next hNe => exact h.flag (hElse g b hNe hg)
  frame := by
    have hNumber : f ≠ .frameNumber := by
      rintro rfl
      cases hFlag
    rw [Entry.get_putFlag_of_ne e hNumber, h.frame, hFrame]
  reachable h' := by
    rw [hFrame]
    exact h.reachable (hPresent h')

theorem Shows.unmapped (h : r.Shows e) :
    Shows { r with present := false } (e.putFlag .present false) := by
  refine h.putFlag rfl (fun b hb => ?_) (fun g b hg hb => ?_) rfl nofun
  · simpa [flag?] using hb
  · cases g <;> simp_all [flag?]

theorem Shows.marked_dirty (h : r.Shows e) (on : Bool) :
    Shows { r with dirty := on } (e.putFlag .dirty on) := by
  refine h.putFlag rfl (fun b hb => ?_) (fun g b hg hb => ?_) rfl id
  · simpa [flag?] using hb
  · cases g <;> simp_all [flag?]

theorem Shows.marked_accessed (h : r.Shows e) (on : Bool) :
    Shows { r with accessed := on } (e.putFlag .accessed on) := by
  refine h.putFlag rfl (fun b hb => ?_) (fun g b hg hb => ?_) rfl id
  · simpa [flag?] using hb
  · cases g <;> simp_all [flag?]

theorem shows_fresh {kernelAlias : VirtualAddress} {p : PhysicalAddress}
    (hAligned : kernelAlias.isAligned = true) (hBehind : Memory.behind kernelAlias = .ok p)
    (writable : Bool) : (fresh p.frame writable).Shows (.compose writable .user p.frame) where
  flag {f on} h := by
    have hNe : f ≠ .frameNumber := by
      rintro rfl
      cases h
    rw [Entry.flag_compose writable rfl hNe]
    cases f <;> cases h <;> rfl
  frame := by
    rw [Entry.get_frameNumber_compose _ _ (DirectMap.pairs_of_behind hBehind).number_lt,
      Frame.ofNumber_number]
    rfl
  reachable _ := by
    have hSum := DirectMap.pairs_iff.1 (DirectMap.pairs_of_behind hBehind)
    have hMod := VirtualAddress.isAligned_iff.1 hAligned
    have hBound := kernelAlias.val.toNat_lt
    have hNumber := Frame.toNat_number p.frame
    have hBase := DirectMap.toNat_base
    rw [PhysicalAddress.toNat_number_frame] at hNumber
    show _ + p.frame.base.val.toNat + _ ≤ _
    omega

theorem Shows.mappedFrame_eq (h : r.Shows e) :
    AddressSpace.mappedFrame e = if r.present then some r.frame else none := by
  rw [AddressSpace.mappedFrame, h.frame, Entry.present, h.flag rfl]

end Record

/-- The kernel sees all of a frame whose last byte has an alias. -/
theorem Frame.alias_join {f : Frame} (h : directMapBase.toNat + f.base.val.toNat + 4096 ≤ 2 ^ 64)
    (o : PageOffset) : (f.join o).alias = .ok ⟨directMapBase + (f.join o).val⟩ := by
  have hOffset := UInt64.lt_iff_toNat_lt.1 o.lt
  have hSize : (4096 : UInt64).toNat = 4096 := rfl
  have hBase : directMapBase.toNat = 0xffff888000000000 := rfl
  have hJoin := f.toNat_join o
  rw [PhysicalAddress.alias, VirtualAddress.add_eq_ok, UInt64.toNat_add]
  show (directMapBase.toNat + (f.join o).val.toNat) % 2 ^ 64 = directMapBase.toNat + (f.join o).val.toNat
  omega

namespace SpaceMap

/-- The map of a space shows what the space has at a user address. -/
inductive Shows (M : SpaceMap) (a : VirtualAddress) : Checked (Option Entry) → Prop where
  | entry {e : Entry} (hRegion : a.region ∈ M.regions) (hShows : (M.record a.page).Shows e) :
      Shows M a (.ok (some e))
  | nothing (hRegion : a.region ∉ M.regions) (hBlank : M.record a.page = .blank) :
      Shows M a (.ok none)

variable {M : SpaceMap} {s : AddressSpace} {m : Memory} {a b : VirtualAddress} {e : Entry}

theorem answers_of_entry (hLeaf : m.leaf? s.root a = .ok (some e)) (ha : a.isUser = true)
    (hRegion : a.region ∈ M.regions) (hShows : (M.record a.page).Shows e) : M.Answers s m a := by
  have hSmall : e.flag .pageSize = false := hShows.flag rfl
  have hFrame := hShows.mappedFrame_eq
  refine ⟨⟨_, hLeaf, iff_of_true rfl hRegion⟩, ?_, ?_, fun access => ?_, ?_, ?_⟩
  · rw [AddressSpace.translate_of_entry hLeaf hSmall, hFrame, Record.physicalAt]
    split <;> rfl
  · have hAlias : ∀ f, AddressSpace.mappedFrame e = some f →
        (f.join a.offset).alias = .ok ⟨directMapBase + (f.join a.offset).val⟩ := by
      intro f hf
      rw [hFrame] at hf
      split at hf
      next hPresent =>
        cases hf
        exact Frame.alias_join (hShows.reachable hPresent) _
      next => cases hf
    rw [AddressSpace.aliasOf_of_entry hLeaf hSmall ha hAlias, hFrame, Record.aliasAt,
      Record.physicalAt]
    split <;> rfl
  · rw [AddressSpace.resolve_of_entry hLeaf hSmall ha, hFrame, Record.resolveAt, Record.physicalAt]
    by_cases hPresent : (M.record a.page).present = true
    · have hUser : e.user = true := hShows.flag (by rw [Record.flag?, if_pos hPresent])
      have hWritable : e.writable = (M.record a.page).writable := hShows.flag rfl
      have hAllows : AddressSpace.allows e access = (M.record a.page).permits access := by
        cases access <;> simp [AddressSpace.allows, Record.permits, hUser, hWritable]
      rw [hAllows, if_pos hPresent, if_pos hPresent]
      rfl
    · rw [if_neg hPresent, if_neg hPresent, Option.map_none, ite_self, ite_self]
  · rw [AddressSpace.dirtyAt_of_entry hLeaf]
    exact congrArg Except.ok (hShows.flag rfl)
  · rw [AddressSpace.accessedAt_of_entry hLeaf]
    exact congrArg Except.ok (hShows.flag rfl)

theorem answers_of_nothing (hLeaf : m.leaf? s.root a = .ok none) (ha : a.isUser = true)
    (hRegion : a.region ∉ M.regions) (hBlank : M.record a.page = .blank) : M.Answers s m a := by
  refine ⟨⟨_, hLeaf, iff_of_false Bool.false_ne_true hRegion⟩, ?_, ?_, fun access => ?_, ?_, ?_⟩
  · rw [AddressSpace.translate_of_none hLeaf, hBlank]
    rfl
  · rw [AddressSpace.aliasOf_of_none hLeaf ha, hBlank]
    rfl
  · rw [AddressSpace.resolve_of_none hLeaf, hBlank]
    cases access <;> rfl
  · rw [AddressSpace.dirtyAt_of_none hLeaf, hBlank]
    rfl
  · rw [AddressSpace.accessedAt_of_none hLeaf, hBlank]
    rfl

theorem Shows.answers (h : M.Shows a (m.leaf? s.root a)) (ha : a.isUser = true) :
    M.Answers s m a := by
  generalize hLeaf : m.leaf? s.root a = leaf at h
  cases h with
  | entry hRegion hShows => exact answers_of_entry hLeaf ha hRegion hShows
  | nothing hRegion hBlank => exact answers_of_nothing hLeaf ha hRegion hBlank

/-! ## Maps that are changed -/

theorem shows_blank (a : VirtualAddress) : blank.Shows a (.ok none) :=
  .nothing (Finset.notMem_empty _) rfl

theorem region_of_page (ha : a.isUser = true) (hb : b.isUser = true) (h : b.page = a.page) :
    b.region = a.region :=
  (VirtualAddress.pathTo_pt_eq_iff hb ha).1
    (List.cons.inj ((VirtualAddress.path_eq_iff hb ha).2 h)).2

theorem record_map (f : Frame) (writable : Bool) (p : Page) :
    (M.map a f writable).record p = if p = a.page then .fresh f writable else M.record p :=
  Function.update_apply _ _ _ _

theorem record_edit (f : Record → Record) (p : Page) :
    (M.edit a f).record p = if p = a.page then f (M.record a.page) else M.record p :=
  Function.update_apply _ _ _ _

variable {leaf : Checked (Option Entry)}

theorem Shows.exists_leaf (h : M.Shows a leaf) : ∃ e, leaf = .ok e := by
  cases h with
  | entry => exact ⟨_, rfl⟩
  | nothing => exact ⟨_, rfl⟩

/-- A page is mapped, in the region of the address. -/
theorem Shows.map_region {f : Frame} {writable : Bool} {old : Option Entry}
    (h : M.Shows b (.ok old)) (ha : a.isUser = true) (hb : b.isUser = true)
    (hRegion : b.region = a.region) (hFresh : (Record.fresh f writable).Shows e) :
    (M.map a f writable).Shows b (.ok (some (if b.path = a.path then e else old.getD .empty))) := by
  have hMem : b.region ∈ (M.map a f writable).regions := by
    rw [hRegion]
    exact Finset.mem_insert_self _ _
  refine .entry hMem ?_
  by_cases hPage : b.page = a.page
  · rw [if_pos ((VirtualAddress.path_eq_iff hb ha).2 hPage), record_map, if_pos hPage]
    exact hFresh
  · rw [if_neg (mt (VirtualAddress.path_eq_iff hb ha).1 hPage), record_map, if_neg hPage]
    cases h with
    | entry _ hShows => exact hShows
    | nothing _ hBlank =>
      rw [hBlank]
      exact Record.shows_empty

theorem Shows.map_elsewhere (h : M.Shows b leaf) (ha : a.isUser = true) (hb : b.isUser = true)
    (hRegion : b.region ≠ a.region) (f : Frame) (writable : Bool) :
    (M.map a f writable).Shows b leaf := by
  have hRecord : (M.map a f writable).record b.page = M.record b.page := by
    rw [record_map, if_neg (mt (region_of_page ha hb) hRegion)]
  cases h with
  | entry hMem hShows => exact .entry (Finset.mem_insert_of_mem hMem) (hRecord ▸ hShows)
  | nothing hMem hBlank =>
    refine .nothing (fun hIn => ?_) (hRecord.trans hBlank)
    rcases Finset.mem_insert.1 hIn with hEq | hOld
    · exact hRegion hEq
    · exact hMem hOld

/-- A record is changed together with the entry that shows it. -/
theorem Shows.edited {f : Record → Record} {e' : Entry} (h : M.Shows b leaf)
    (hOld : M.Shows a (.ok (some e))) (ha : a.isUser = true) (hb : b.isUser = true)
    (hEdit : (M.record a.page).Shows e → (f (M.record a.page)).Shows e') :
    (M.edit a f).Shows b (if b.path = a.path then .ok (some e') else leaf) := by
  by_cases hPage : b.page = a.page
  · cases hOld with
    | entry hRegion hShows =>
      rw [if_pos ((VirtualAddress.path_eq_iff hb ha).2 hPage)]
      refine .entry (region_of_page ha hb hPage ▸ hRegion) ?_
      rw [record_edit, if_pos hPage]
      exact hEdit hShows
  · rw [if_neg (mt (VirtualAddress.path_eq_iff hb ha).1 hPage)]
    have hRecord : (M.edit a f).record b.page = M.record b.page := by
      rw [record_edit, if_neg hPage]
    cases h with
    | entry hRegion hShows => exact .entry hRegion (hRecord ▸ hShows)
    | nothing hRegion hBlank => exact .nothing hRegion (hRecord.trans hBlank)

theorem Shows.mark_eq_edit (h : M.Shows a (.ok (some e))) (f : Record → Record) :
    M.mark a f = M.edit a f := by
  cases h with
  | entry hRegion => rw [mark, if_pos hRegion]

/-- Where there is no leaf table nothing is marked. -/
theorem Shows.mark_eq_self (h : M.Shows a (.ok none)) (f : Record → Record) : M.mark a f = M := by
  cases h with
  | nothing hRegion => rw [mark, if_neg hRegion]

theorem Shows.unmap_eq_self (h : M.Shows a leaf)
    (hAbsent : ∀ e, leaf = .ok (some e) → e.present = false) : M.unmap a = M := by
  have hRecord : (M.record a.page).present = false := by
    cases h with
    | @entry e _ hShows =>
      rw [← hAbsent e rfl]
      exact (hShows.flag rfl).symm
    | nothing _ hBlank =>
      rw [hBlank]
      rfl
  rw [unmap, edit, ← hRecord, Function.update_eq_self]

end SpaceMap

namespace Maps

/-- Every leaf entry of every live space shows the record of its page. -/
def Models (M : Maps) (σ : System) : Prop :=
  ∀ s ∈ σ.live, ∀ a : VirtualAddress, a.isUser = true →
    (M s).Shows a (σ.machine.memory.leaf? s.root a)

variable {M : Maps} {plan : Plan} {σ σ' : System} {s : AddressSpace} {a : VirtualAddress} {e e' : Entry}

theorem Models.quiet (h : M.Models σ) (hQuiet : σ.Quiet plan σ') : M.Models σ' := by
  intro s hs a ha
  rw [hQuiet.live_eq] at hs
  rw [hQuiet.leaf_eq s hs a ha]
  exact h s hs a ha

theorem models_update {new : SpaceMap}
    (hOther : ∀ s' ∈ σ.live, s' ≠ s → ∀ a : VirtualAddress, a.isUser = true →
      (M s').Shows a (σ.machine.memory.leaf? s'.root a))
    (hNew : s ∈ σ.live → ∀ a : VirtualAddress, a.isUser = true →
      new.Shows a (σ.machine.memory.leaf? s.root a)) : Models (Function.update M s new) σ := by
  intro s' hs' a ha
  by_cases hEq : s' = s
  · subst hEq
    rw [Function.update_self]
    exact hNew hs' a ha
  · rw [Function.update_of_ne hEq]
    exact hOther s' hs' hEq a ha

/-- A space that is not live has no say. -/
theorem Models.update_of_not_live (h : M.Models σ) (hs : s ∉ σ.live) (new : SpaceMap) :
    Models (Function.update M s new) σ :=
  models_update (fun s' hs' _ => h s' hs') fun hLive => absurd hLive hs

/-- One leaf was replaced. -/
theorem Models.replaced (h : M.Models σ) (hTracks : plan.Tracks σ) (hs : s ∈ σ.live)
    (ha : a.isUser = true) (hLeaf : σ.machine.memory.leaf? s.root a = .ok (some e))
    (hReplaced : σ.Replaced σ' s a e') {f : Record → Record}
    (hEdit : ∀ r : Record, r.Shows e → (f r).Shows e') :
    Models (Function.update M s ((M s).edit a f)) σ' := by
  have hOld := h s hs a ha
  rw [hLeaf] at hOld
  refine models_update (fun s' hs' hNe b hb => ?_) (fun _ b hb => ?_)
  · rw [hReplaced.live_eq] at hs'
    rw [hReplaced.leaf_eq _ (Plan.Tracks.root_mem hs') b hb, if_neg]
    · exact h s' hs' b hb
    · rintro ⟨hRoot, -⟩
      exact hNe (hTracks.eq_of_root hs' hs hRoot)
  · rw [hReplaced.leaf_eq _ (Plan.Tracks.root_mem hs) b hb]
    simp only [true_and]
    exact (h s hs b hb).edited hOld ha hb (hEdit _)

/-! ## Requests -/

theorem Models.marked (h : M.Models σ) (hTracks : plan.Tracks σ) (hs : σ.Knows s) {f : Entry.Field}
    (hf : f = .dirty ∨ f = .accessed) {on : Bool} {out : Reply × System}
    (hOut : σ.conclude (s.setLeafFlag f a on) (fun _ σ => (.done, σ)) = out) {g : Record → Record}
    (hEdit : ∀ (r : Record) e, r.Shows e → (g r).Shows (e.putFlag f on)) :
    Models (if a.isUser then Function.update M s ((M s).mark a g) else M) out.2 := by
  rcases hTracks.conclude_setLeafFlag hs hf a on hOut with
    ⟨-, hQuiet, hNone⟩ | ⟨hLive, ha, -, e, hLeaf, -, hReplaced⟩
  · have hSame := h.quiet hQuiet
    split
    next ha =>
      by_cases hLive : s ∈ σ.live
      · have hShows := h s hLive a ha
        rw [hNone hLive ha] at hShows
        rwa [hShows.mark_eq_self, Function.update_eq_self]
      · exact hSame.update_of_not_live (by rwa [hQuiet.live_eq]) _
    next => exact hSame
  · have hShows := h s hLive a ha
    rw [hLeaf] at hShows
    rw [if_pos ha, hShows.mark_eq_edit]
    exact h.replaced hTracks hLive ha hLeaf hReplaced fun r => hEdit r e

theorem Models.unmapped (h : M.Models σ) (hTracks : plan.Tracks σ) (hs : σ.Knows s)
    (page : VirtualAddress) :
    Models (if page.isAligned && page.isUser then Function.update M s ((M s).unmap page) else M)
      (σ.perform (.unmap s page)).2 := by
  rcases hTracks.perform_unmap hs page with
    ⟨-, hQuiet, hAbsent⟩ | ⟨hLive, hAligned, ha, -, e, f, hLeaf, -, -, hReplaced⟩
  · have hSame := h.quiet hQuiet
    split
    next hArguments =>
      obtain ⟨hAligned, ha⟩ := Bool.and_eq_true_iff.1 hArguments
      by_cases hLive : s ∈ σ.live
      · rwa [(h s hLive page ha).unmap_eq_self (hAbsent hLive hAligned ha), Function.update_eq_self]
      · exact hSame.update_of_not_live (by rwa [hQuiet.live_eq]) _
    next => exact hSame
  · rw [if_pos (Bool.and_eq_true_iff.2 ⟨hAligned, ha⟩)]
    exact h.replaced hTracks hLive ha hLeaf hReplaced fun r => Record.Shows.unmapped

theorem Models.mapped (h : M.Models σ) (hTracks : plan.Tracks σ) {page kernelAlias : VirtualAddress}
    {writable : Bool} (hAllowed : σ.Allowed (.map s page kernelAlias writable)) :
    Models (M.advance ⟨.map s page kernelAlias writable,
        (σ.perform (.map s page kernelAlias writable)).1⟩)
      (σ.perform (.map s page kernelAlias writable)).2 := by
  rcases hTracks.perform_map hAllowed with
    ⟨-, hFailed, hQuiet⟩ | ⟨hs, p, m, l, hMap, hDone, -, hMapped⟩
  · have hSame := h.quiet hQuiet
    generalize (σ.perform (.map s page kernelAlias writable)).1 = reply at hFailed
    cases reply with
    | done => exact absurd rfl hFailed
    | given | made | notMade | notMapped | copied | filled | broken => exact hSame
  · rw [hDone]
    have hAdvance : M.advance ⟨.map s page kernelAlias writable, .done⟩ =
        Function.update M s ((M s).map page p.frame writable) := by
      simp only [advance, hMap.alias_eq]
    rw [hAdvance]
    have hFresh := Record.shows_fresh hMap.alias_aligned hMap.alias_eq writable
    refine models_update (fun s' hs' hNe b hb => ?_) (fun _ b hb => ?_)
    · -- Different spaces have different roots.
      have hElse : ¬ (s'.root = s.root ∧ b.pathTo .pt = page.pathTo .pt) :=
        fun hEq => hNe (hTracks.eq_of_root hs' hs hEq.1)
      have hSame := hMapped.elsewhere _ (Plan.Tracks.root_mem hs') b hb hElse
      exact hSame.symm ▸ h s' hs' b hb
    · have hShows := h s hs b hb
      by_cases hRegion : b.region = page.region
      · have hPath := (VirtualAddress.pathTo_pt_eq_iff hb hMap.user).2 hRegion
        obtain ⟨old, hOld⟩ := hShows.exists_leaf
        have hNew := hMapped.region b hb hPath old hOld
        rw [hOld] at hShows
        exact hNew.symm ▸ hShows.map_region hMap.user hb hRegion hFresh
      · have hElse : ¬ (s.root = s.root ∧ b.pathTo .pt = page.pathTo .pt) :=
          fun hEq => hRegion ((VirtualAddress.pathTo_pt_eq_iff hb hMap.user).1 hEq.2)
        have hSame := hMapped.elsewhere _ (Plan.Tracks.root_mem hs) b hb hElse
        exact hSame.symm ▸ hShows.map_elsewhere hMap.user hb hRegion _ _

theorem Models.created (h : M.Models σ) (hTracks : plan.Tracks σ) :
    Models (M.advance ⟨.create, (σ.perform .create).1⟩) (σ.perform .create).2 := by
  rcases hTracks.perform_create with
    ⟨e, hReply, hQuiet⟩ | ⟨r, m, hMade, hNew, -, hNothing, hElse⟩
  · rw [hReply]
    exact h.quiet hQuiet
  · rw [hMade]
    refine models_update (fun s' hs' hNe b hb => ?_) (fun _ b hb => ?_)
    · have hLive := (List.mem_cons.1 hs').resolve_left hNe
      exact (hElse s' hLive b hb).symm ▸ h s' hLive b hb
    · exact (hNothing b hb).symm ▸ SpaceMap.shows_blank b

theorem Models.destroyed (h : M.Models σ) (hTracks : plan.Tracks σ) (hs : σ.Knows s) :
    M.Models (σ.perform (.destroy s)).2 := by
  rcases hTracks.perform_destroy hs with ⟨v, -, -, hQuiet⟩ | ⟨-, m, hDone, hMemory, -⟩
  · exact h.quiet hQuiet
  · rw [hDone]
    intro s' hs' a ha
    exact hMemory.symm ▸ h s' (List.mem_of_mem_erase hs') a ha

/-- A request keeps the maps in step with the machine. -/
theorem Models.advance (h : M.Models σ) (hTracks : plan.Tracks σ) {request : Request}
    (hAllowed : σ.Allowed request) :
    Models (M.advance ⟨request, (σ.perform request).1⟩) (σ.perform request).2 := by
  cases request with
  | alloc =>
    obtain ⟨f, -, hQuiet⟩ := hTracks.perform_alloc
    exact h.quiet hQuiet
  | free f =>
    obtain ⟨m, hDone, hQuiet⟩ := hTracks.free_held hAllowed
    rw [hDone]
    exact h.quiet hQuiet
  | limit n => exact h
  | unlimit => exact h
  | create => exact h.created hTracks
  | map s page kernelAlias writable => exact h.mapped hTracks hAllowed
  | unmap s page => exact h.unmapped hTracks hAllowed page
  | markDirty s a on =>
    exact h.marked hTracks hAllowed (Or.inl rfl) rfl fun r e hShows => hShows.marked_dirty on
  | markAccessed s a on =>
    exact h.marked hTracks hAllowed (Or.inr rfl) rfl fun r e hShows => hShows.marked_accessed on
  | activate s => exact h.quiet (hTracks.perform_activate s).2
  | destroy s => exact h.destroyed hTracks hAllowed
  | copyTo s dst bytes =>
    obtain ⟨o, -, hQuiet⟩ := hTracks.perform_copyTo hAllowed dst bytes
    exact h.quiet hQuiet
  | copyFrom s src buffer =>
    obtain ⟨o, -, hQuiet⟩ := hTracks.perform_copyFrom hAllowed src buffer
    exact h.quiet hQuiet
  | write p bytes => exact h.quiet (hTracks.perform_write hAllowed).2

end Maps

/-- A run keeps them in step. -/
theorem Run.models {plan : Plan} {start σ : System} {events : List Event} (hRun : Run start events σ)
    (hStart : plan.Tracks start) (hNone : start.live = []) : (Maps.after events).Models σ := by
  induction hRun with
  | start =>
    intro s hs
    rw [hNone] at hs
    cases hs
  | next before request hAllowed ih =>
    obtain ⟨-, plan', hTracks, -⟩ := before.tracks hStart
    exact ih.advance hTracks hAllowed

variable {frames : Nat} {k : KernelSpace} {m : Machine}

/-- After every run from booting on, the questions about a user address of a live space are answered
from the map that the run has made of that space. -/
theorem Run.refines_maps {events : List Event} {σ : System} (hFrames : frames ≤ 2 ^ 40)
    (hBoot : Machine.boot frames = .ok (k, m)) (hRun : Run (.booted k m) events σ)
    {s : AddressSpace} (hs : s ∈ σ.live) {a : VirtualAddress} (ha : a.isUser = true) :
    (Maps.after events s).Answers s σ.machine.memory a := by
  obtain ⟨plan, hStart⟩ := System.tracks_booted hFrames hBoot
  exact (hRun.models hStart rfl s hs a ha).answers ha

/-- In a space of a machine of sixteen frames, with a page mapped at 4 MiB. -/
theorem Run.refines_maps_sixteen : ∃ k m events σ s, Machine.boot 16 = .ok (k, m) ∧
    Run (.booted k m) events σ ∧ s ∈ σ.live ∧
    (∃ p, s.translate σ.machine.memory ⟨0x400000⟩ = .ok (some p)) ∧
    (Maps.after events s).Answers s σ.machine.memory ⟨0x400000⟩ := by
  obtain ⟨k, m, f, s, kernelAlias, σ, hBoot, hRun, hs, hPage⟩ := @Run.exists_mapped 16 (by decide)
    (by decide) ⟨0x400000⟩ (by decide) (by decide) true
  exact ⟨k, m, _, σ, s, hBoot, hRun, hs, ⟨_, hPage⟩,
    Run.refines_maps (by decide) hBoot hRun hs (by decide)⟩

end PagedKernel
