import PagedKernel.Proofs.Plan.Trunk

/-!
# Steps of a construction

A kernel is begun with an empty root table, and then its pages are mapped, one call after another. Each of
these steps lets the trunk grow and may write one leaf. All other leaves are what they were, and those of
new tables are empty.

* `Plan.Outgrows`: one trunk has come from another, and no frame of the other trees was written.
* `Beside.begin_outgrows`: so it is when a kernel is begun.
* `Beside.build_cases`: so it is when a page is mapped, however that ends.
-/

namespace PagedKernel.Plan

/-- From `m` to `m'` the trunk has grown into `trunk'`, some leaves were written, and no frame of the plan
was. -/
structure Outgrows (trunk' trunk plan : Plan) (held reserved : List Frame) (m m' : Machine)
    (written : Place → Option Entry) : Prop where
  beside : trunk'.Beside plan held reserved m'
  of_eq_some {f : Frame} {x : Place} : trunk f = some x → trunk' f = some x
  agree : m.memory.AgreeOn (fun f => (plan f).isSome = true) m'.memory
  leaf {t r : Frame} {path : List TableIndex} : trunk' t = some ⟨r, path⟩ → path.length = 3 → ∀ i,
    m'.memory.entry ⟨t, i⟩ = (written ⟨r, i :: path⟩).getD
      (if (trunk t).isSome then m.memory.entry ⟨t, i⟩ else .empty)

def noLeaf : Place → Option Entry := fun _ => none

def pageLeaf (b : KernelBuilder) (page : VirtualAddress) (frame : Frame) (writable : Bool) :
    Place → Option Entry :=
  fun x => if x = ⟨b.root, page.path⟩ then some (.compose writable .global frame) else none

namespace Beside

variable {trunk plan : Plan} {held reserved : List Frame} {m m' : Machine} {f r t : Frame} {level : Level}
  {a : VirtualAddress} (h : trunk.Beside plan held reserved m)

include h

theorem new_of_free (hf : f ∈ m.frames.free) : ¬ (plan f).isSome = true := by
  rw [h.accounts.new_of_free hf]
  exact Bool.false_ne_true

theorem outgrows_of_free (hAgree : m.memory.AgreeOn (· ∉ m.frames.free) m'.memory)
    (hFree : m'.frames.free = m.frames.free) (hUse : m'.frames.inUse = m.frames.inUse) :
    Outgrows trunk trunk plan held reserved m m' noLeaf where
  beside := h.of_agreeOn hAgree (fun _ => h.notFree_of_reserved)
    (h.accounts.congr hFree hUse hAgree.frames_eq)
  of_eq_some hf := hf
  agree := hAgree.mono fun _ hSome hMem => h.new_of_free hMem hSome
  leaf {t r path} ht _ i := by
    rw [hAgree.entry (h.notFree_of_reserved (h.reserved_of_trunk ht)), ht]
    rfl

theorem begin_outgrows : ∃ o m', KernelBuilder.create m = .ok o m' ∧ ∃ trunk' : Plan, ∃ reserved',
    trunk'.Outgrows trunk plan held reserved' m m' noLeaf ∧
      ∀ b, o = .ok b → trunk' b.root = some ⟨b.root, []⟩ := by
  by_cases hSupply : m.frames.supply = 0
  · exact ⟨_, _, KernelBuilder.create_refused hSupply, trunk, reserved,
      h.outgrows_of_free (.refl _ _) rfl rfl, fun b hb => by cases hb⟩
  · obtain ⟨f, rest, hFree⟩ := FrameAllocator.exists_free_of_supply (Nat.pos_of_ne_zero hSupply)
    have hMem : f ∈ m.frames.free := hFree ▸ List.mem_cons_self
    have hSound := h.accounts.sound
    have hHolds := hSound.free_holds hMem
    have hNew := h.none_of_free hMem
    obtain ⟨m', hCreate, hFrames, hMemory⟩ := KernelBuilder.create_made hFree (hSound.free_new hMem)
      (Nat.pos_of_ne_zero hSupply) hHolds
    refine ⟨_, m', hCreate, trunk.put f ⟨f, []⟩, f :: reserved,
      ⟨h.fresh hFree hMemory hFrames, fun hg => put_of_eq_some hNew hg _, ?_, fun {t r path} ht hLength i => ?_⟩,
      ?_⟩
    · rw [hMemory]
      refine (Memory.agreeOn_setTable hHolds .zeroed).mono fun g hSome => ?_
      rintro rfl
      exact h.new_of_free hMem hSome
    · rcases (put_eq_some hNew).1 ht with ⟨-, hPlace⟩ | ht
      · rw [← (Place.mk.inj hPlace).2] at hLength
        cases hLength
      · rw [hMemory, Memory.entry_setTable hHolds, if_neg (ne_of_new hNew ht), ht]
        rfl
    · rintro b hb
      cases hb
      exact put_self ..

/-- All missing tables are made. -/
theorem grow_outgrows (ha : a.isKernel = true) (ht : trunk t = some ⟨r, a.pathTo level⟩)
    (hBare : Bare m a level t) (hSupply : level.height ≤ m.frames.supply) :
    ∃ reserved', (trunk.grow r a level (m.frames.free.take level.height)).Outgrows trunk plan held
      reserved' m (m.grow a level t) noLeaf := by
  obtain ⟨reserved', hBeside⟩ := h.grow ha ht hBare hSupply
  have hTaken : ∀ g ∈ m.frames.free.take level.height, m.memory.holds g = true :=
    fun g hg => h.accounts.sound.free_holds (List.mem_of_mem_take hg)
  have hAgree : m.memory.AgreeOn _ (m.grow a level t).memory :=
    Memory.agreeOn_grow (h.holds_of_trunk ht) hTaken
  refine ⟨reserved', hBeside, fun hf => grow_of_eq_some (h.take_nodup _) (h.take_new _) hf,
    hAgree.mono fun g hSome => ⟨?_, fun hMem => h.new_of_free (List.mem_of_mem_take hMem) hSome⟩,
    fun {u r' path} hu hLength i => ?_⟩
  · rintro rfl
    rw [h.new_of_trunk ht] at hSome
    cases hSome
  · rcases hBare.entry_leaf_grow ht (fun _ => h.none_of_free) hSupply hBeside.place_inj hu hLength i with
      ⟨hOld, hEntry⟩ | ⟨hNew, hEntry⟩
    · rw [hEntry, hOld]
      rfl
    · rw [hEntry, hNew]
      rfl

end Beside

variable {trunk trunk' plan : Plan} {held reserved : List Frame} {m n m' : Machine} {t : Frame}
  {b : KernelBuilder} {page : VirtualAddress} {frame : Frame} {writable : Bool}

/-- The leaf of a page is written when its tables are there. -/
theorem Outgrows.setLeaf (h : trunk'.Outgrows trunk plan held reserved m n noLeaf)
    (ht : trunk' t = some ⟨b.root, page.pathTo .pt⟩)
    (hMemory : m'.memory =
      n.memory.setEntry ⟨t, Level.pt.indexOf page⟩ (Entry.compose writable .global frame))
    (hFrames : m'.frames = n.frames) :
    trunk'.Outgrows trunk plan held reserved m m' (pageLeaf b page frame writable) := by
  have hHolds := h.beside.holds_of_trunk ht
  refine ⟨h.beside.setEntry ht rfl _ _ hMemory hFrames, h.of_eq_some, ?_, fun {u r path} hu hLength i => ?_⟩
  · rw [hMemory]
    refine h.agree.trans ((Memory.agreeOn_setEntry (s := ⟨t, _⟩) hHolds _).mono fun g hSome => ?_)
    rintro rfl
    rw [h.beside.new_of_trunk ht] at hSome
    cases hSome
  · rw [hMemory, Memory.entry_setEntry (s := ⟨t, _⟩) hHolds, pageLeaf]
    by_cases hPlace : (⟨r, i :: path⟩ : Place) = ⟨b.root, page.path⟩
    · obtain ⟨rfl, hPath⟩ := Place.mk.inj hPlace
      obtain ⟨rfl, rfl⟩ := List.cons.inj hPath
      obtain rfl := h.beside.place_inj hu ht
      rw [if_pos rfl, if_pos hPlace]
      rfl
    · rw [if_neg hPlace, if_neg, h.leaf hu hLength i]
      · rfl
      · -- The page of another place has another entry, or another table.
        intro hSlot
        obtain ⟨rfl, rfl⟩ := slot_inj hSlot
        rw [hu] at ht
        obtain ⟨rfl, rfl⟩ := Place.mk.inj (Option.some.inj ht)
        exact hPlace rfl

/-- A page of a kernel under construction is mapped, to any frame that an entry can name; or the frames do
not last, and what was done is undone; or the call was a violation. -/
theorem Beside.build_cases (h : trunk.Beside plan held reserved m)
    (hRoot : trunk b.root = some ⟨b.root, []⟩) (page : VirtualAddress) (frame : Frame) (writable : Bool) :
    (∃ m', b.map page frame writable m = .ok (.ok ()) m' ∧ page.isKernel = true ∧
      frame.number.toNat < 2 ^ 40 ∧ m.frames.supply ≤ m'.frames.supply + 3 ∧
      ∃ trunk' : Plan, ∃ reserved',
        trunk'.Outgrows trunk plan held reserved' m m' (pageLeaf b page frame writable) ∧
          ∃ t, trunk' t = some ⟨b.root, page.pathTo .pt⟩) ∨
    (∃ level m', b.map page frame writable m = .ok (.error (.outOfMemory level)) m' ∧
      m.frames.supply < 3 ∧ Undone m m' level page ∧
      trunk.Outgrows trunk plan held reserved m m' noLeaf) ∨
    ∃ v m', b.map page frame writable m = .error v m' ∧
      ¬ (page.isAligned = true ∧ page.isKernel = true ∧ frame.number.toNat < 2 ^ 40) ∧
      ∃ trunk' : Plan, ∃ reserved', trunk'.Outgrows trunk plan held reserved' m m' noLeaf := by
  by_cases hArguments : page.isAligned = true ∧ page.isKernel = true
  · obtain ⟨l, t, hDescends, ht, hBare⟩ := @descends _ _ _ _ _ _ _ .pml4 page h hRoot
    have hHeight := l.height_le
    by_cases hSupply : l.height ≤ m.frames.supply
    · obtain ⟨reserved', hGrown⟩ := h.grow_outgrows hArguments.2 ht hBare hSupply
      by_cases hNumber : frame.number.toNat < 2 ^ 40
      · obtain ⟨m', hMap, hFrames, hMemory⟩ := @KernelBuilder.map_made _ frame b _ writable _ _
          hArguments.1 hArguments.2 hDescends hBare hSupply hNumber
        have hLeaf := h.grow_leafTable ht hSupply
        refine Or.inl ⟨m', hMap, hArguments.2, hNumber, ?_, _, reserved',
          hGrown.setLeaf hLeaf hMemory hFrames, _, hLeaf⟩
        rw [hFrames, FrameAllocator.supply_serve]
        omega
      · obtain ⟨v, hMap⟩ := @KernelBuilder.map_overflow _ frame b _ writable _ _ hArguments.1
          hArguments.2 hDescends hBare hSupply hNumber
        exact Or.inr (Or.inr ⟨v, _, hMap, fun hAll => hNumber hAll.2.2, _, reserved', hGrown⟩)
    · obtain ⟨level, m', hMap, hUndone⟩ := @KernelBuilder.map_undone _ frame b _ writable _ _
        hArguments.1 hArguments.2 hDescends hBare (Nat.lt_of_not_le hSupply)
      refine Or.inr (Or.inl ⟨level, m', hMap, by omega, hUndone,
        h.outgrows_of_free (hUndone.agree.mono ?_) hUndone.free_eq hUndone.inUse_eq⟩)
      exact fun _ hf hMem => hf (List.mem_of_mem_take hMem)
  · obtain ⟨v, hRefused⟩ := @KernelBuilder.map_refused m frame b _ writable hArguments
    exact Or.inr (Or.inr ⟨v, m, hRefused, fun hAll => hArguments ⟨hAll.1, hAll.2.1⟩, trunk, reserved,
      h.outgrows_of_free (.refl _ _) rfl rfl⟩)

end PagedKernel.Plan
