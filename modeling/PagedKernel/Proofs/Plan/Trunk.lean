import PagedKernel.Proofs.Machine.Boot
import PagedKernel.Proofs.Plan.Described
import PagedKernel.Proofs.Plan.Leaves
import PagedKernel.Proofs.Walk.Charts

/-!
# Trees under construction

A kernel under construction has a tree of its own, in which its pages can be mapped to any frames. So the
tree is made of tables only: a trunk, which is a plan without pages. The frames of the trunk are set aside:
neither are they free, nor does the caller hold them, nor do they hang in the trees of the spaces.

* `Plan.Beside`: the trunk, and what it says about the machine.
* `Beside.charted`: its tables make a chart.
* `Beside.put`, `Beside.grow`: the trunk after tables were made.
* `Beside.leaf?_cases`: what an address has in the tree of one kernel.
* `Beside.finish`: the tree of a kernel is taken out of the trunk, when its leaves are left out of account.
-/

namespace PagedKernel

open MachineM

/-- A trunk stands beside the trees of a plan: its frames are the reserved ones, and memory is built as it
says, except that nothing is said about the entries of leaf tables. -/
structure Plan.Beside (trunk plan : Plan) (held reserved : List Frame) (m : Machine) : Prop where
  frames_le : m.memory.frames ≤ 2 ^ 40
  accounts : plan.Accounts (held ++ reserved) m.memory m.frames
  mem_reserved {f : Frame} : f ∈ reserved ↔ (trunk f).isSome = true
  eq_root {f r : Frame} : trunk f = some ⟨r, []⟩ → f = r
  short {f r : Frame} {path : List TableIndex} : trunk f = some ⟨r, path⟩ → path.length < 4
  parent {f r : Frame} {i : TableIndex} {path : List TableIndex} : trunk f = some ⟨r, i :: path⟩ →
    ∃ t, trunk t = some ⟨r, path⟩ ∧ Branches r r path i ∧ (m.memory.entry ⟨t, i⟩).target = .ok (some f)
  link {t r : Frame} {path : List TableIndex} : trunk t = some ⟨r, path⟩ → path.length < 3 → ∀ i,
    m.memory.entry ⟨t, i⟩ = .empty ∨
      ∃ f, trunk f = some ⟨r, i :: path⟩ ∧ m.memory.entry ⟨t, i⟩ = Entry.compose true .user f
  lower {r : Frame} : trunk r = some ⟨r, []⟩ → ∀ i : TableIndex, i.val < kernelRootStart →
    m.memory.entry ⟨r, i⟩ = .empty

namespace Plan

variable {trunk trunk' plan plan' : Plan} {held held' reserved rest : List Frame} {m m' : Machine}
  {f r t : Frame} {l level below : Level} {a : VirtualAddress} {i : TableIndex} {path : List TableIndex}
  {x : Place}

theorem put_of_eq_some {g : Frame} {y : Place} (hNew : plan f = none) (hg : plan g = some y) (x : Place) :
    plan.put f x g = some y :=
  (put_eq_some hNew).2 (Or.inr hg)

namespace Beside

variable (h : trunk.Beside plan held reserved m)

include h

theorem reserved_of_trunk (ht : trunk t = some x) : t ∈ reserved := by
  rw [h.mem_reserved, ht]
  rfl

theorem new_of_reserved (hf : f ∈ reserved) : plan f = none :=
  h.accounts.held_new (List.mem_append_right held hf)

theorem new_of_trunk (ht : trunk t = some x) : plan t = none :=
  h.new_of_reserved (h.reserved_of_trunk ht)

theorem notHeld_of_reserved (hf : f ∈ reserved) : f ∉ held :=
  fun hHeld => (List.nodup_append'.1 h.accounts.held_nodup).2.2 hHeld hf

theorem notFree_of_reserved (hf : f ∈ reserved) : f ∉ m.frames.free :=
  fun hFree => h.accounts.notHeld_of_free hFree (List.mem_append_right held hf)

theorem inUse_of_trunk (ht : trunk t = some x) : t ∈ m.frames.inUse :=
  h.accounts.mem_inUse.2 (Or.inl (List.mem_append_right held (h.reserved_of_trunk ht)))

theorem holds_of_trunk (ht : trunk t = some x) : m.memory.holds t = true :=
  h.accounts.sound.inUse_holds (h.inUse_of_trunk ht)

theorem number_lt (ht : trunk t = some x) : t.number.toNat < 2 ^ 40 :=
  Memory.number_lt_of_holds h.frames_le (h.holds_of_trunk ht)

theorem none_of_free (hf : f ∈ m.frames.free) : trunk f = none := by
  cases ht : trunk f with
  | none => rfl
  | some x => exact absurd hf (h.notFree_of_reserved (h.reserved_of_trunk ht))

theorem link_target (ht : trunk t = some ⟨r, path⟩) (hLength : path.length < 3) (i : TableIndex) :
    m.memory.entry ⟨t, i⟩ = .empty ∨
      ∃ f, trunk f = some ⟨r, i :: path⟩ ∧ (m.memory.entry ⟨t, i⟩).target = .ok (some f) := by
  rcases h.link ht hLength i with hEmpty | ⟨f, hf, hEntry⟩
  · exact Or.inl hEmpty
  · refine Or.inr ⟨f, hf, ?_⟩
    rw [hEntry]
    exact Entry.target_compose true .user rfl (by decide) (h.number_lt hf)

theorem charted {hidden : Frame → Prop} (hSeen : ∀ f ∈ reserved, ¬ hidden f)
    (hFree : ∀ f ∈ m.frames.free, ¬ hidden f) :
    m.Charted (fun level t => trunk.AtDepth level.depth t) (fun _ => True) hidden where
  frames_le := h.frames_le
  sound := h.accounts.sound
  inUse := by
    rintro level t ⟨r, path, ht, -⟩
    exact h.inUse_of_trunk ht
  seen := by
    rintro level t ⟨r, path, ht, -⟩
    exact hSeen t (h.reserved_of_trunk ht)
  free_seen := hFree _
  link := by
    rintro level below t ⟨r, path, ht, hLength⟩ hNext i -
    have hDepth := Level.depth_of_next? hNext
    have hBound := below.depth_lt
    refine (h.link_target ht (by omega) i).imp_right ?_
    rintro ⟨f, hf, hTarget⟩
    exact ⟨f, ⟨r, i :: path, hf, by rw [List.length_cons, hLength, hDepth]⟩, hTarget⟩

/-- What is done elsewhere leaves the trunk as it is. -/
theorem of_agreeOn {keep : Frame → Prop} (hAgree : m.memory.AgreeOn keep m'.memory)
    (hKeep : ∀ f ∈ reserved, keep f)
    (hAccounts : plan'.Accounts (held' ++ reserved) m'.memory m'.frames) :
    trunk.Beside plan' held' reserved m' := by
  have hEntry : ∀ {t x}, trunk t = some x → ∀ i, m'.memory.entry ⟨t, i⟩ = m.memory.entry ⟨t, i⟩ :=
    fun ht _ => hAgree.entry (hKeep _ (h.reserved_of_trunk ht))
  refine ⟨hAgree.frames_eq ▸ h.frames_le, hAccounts, h.mem_reserved, h.eq_root, h.short, fun hf => ?_,
    fun ht hLength i => ?_, fun hr i hi => ?_⟩
  · obtain ⟨t, ht, hBranch, hTarget⟩ := h.parent hf
    exact ⟨t, ht, hBranch, by rwa [hEntry ht]⟩
  · rw [hEntry ht]
    exact h.link ht hLength i
  · rw [hEntry hr]
    exact h.lower hr i hi

theorem of_memory_eq (hMemory : m'.memory = m.memory)
    (hAccounts : plan'.Accounts (held' ++ reserved) m'.memory m'.frames) :
    trunk.Beside plan' held' reserved m' :=
  h.of_agreeOn (hMemory ▸ .refl (fun _ => True) _) (fun _ _ => trivial) hAccounts

/-! ## Growing -/

/-- A frame that was free joins the trunk. -/
theorem accounts_take (hFree : m.frames.free = f :: rest) (hFrames : m'.frames = m.frames.serve 1)
    (hSize : m'.memory.frames = m.memory.frames) :
    plan.Accounts (held ++ f :: reserved) m'.memory m'.frames :=
  ((h.accounts.take hFree).perm List.perm_middle.symm).congr (by rw [hFrames]) (by rw [hFrames]) hSize

theorem mem_reserved_put {g : Frame} (x : Place) :
    g ∈ f :: reserved ↔ (trunk.put f x g).isSome = true := by
  rw [List.mem_cons, h.mem_reserved, isSome_put]

/-- A frame that was free becomes a table without entries, and hangs from an entry that was empty, unless it
is a root table. -/
theorem put (hFree : m.frames.free = f :: rest) (hFrames : m'.frames = m.frames.serve 1)
    (hSize : m'.memory.frames = m.memory.frames) (hShort : x.path.length < 4)
    (hRoot : x.path = [] → f = x.root) (hFresh : ∀ i, m'.memory.entry ⟨f, i⟩ = .empty)
    (hParent : ∀ {r i path}, x = ⟨r, i :: path⟩ → ∃ t, trunk t = some ⟨r, path⟩ ∧ Branches r r path i ∧
      m'.memory.entry ⟨t, i⟩ = Entry.compose true .user f)
    (hKept : ∀ {t r path}, trunk t = some ⟨r, path⟩ → ∀ i,
      m'.memory.entry ⟨t, i⟩ = m.memory.entry ⟨t, i⟩ ∨ m.memory.entry ⟨t, i⟩ = .empty ∧
        x = ⟨r, i :: path⟩ ∧ m'.memory.entry ⟨t, i⟩ = Entry.compose true .user f) :
    (trunk.put f x).Beside plan held (f :: reserved) m' := by
  have hMem : f ∈ m.frames.free := hFree ▸ List.mem_cons_self
  have hNew := h.none_of_free hMem
  have hNumber := Memory.number_lt_of_holds h.frames_le (h.accounts.sound.free_holds hMem)
  refine ⟨hSize ▸ h.frames_le, h.accounts_take hFree hFrames hSize, h.mem_reserved_put x, ?_, ?_, ?_, ?_, ?_⟩
  · intro g r hg
    rcases (put_eq_some hNew).1 hg with ⟨rfl, rfl⟩ | hg
    · exact hRoot rfl
    · exact h.eq_root hg
  · intro g r path hg
    rcases (put_eq_some hNew).1 hg with ⟨-, rfl⟩ | hg
    · exact hShort
    · exact h.short hg
  · intro g r i path hg
    rcases (put_eq_some hNew).1 hg with ⟨rfl, hPlace⟩ | hg
    · obtain ⟨t, ht, hBranch, hEntry⟩ := hParent hPlace
      refine ⟨t, put_of_eq_some hNew ht x, hBranch, ?_⟩
      rw [hEntry]
      exact Entry.target_compose true .user rfl (by decide) hNumber
    · obtain ⟨t, ht, hBranch, hTarget⟩ := h.parent hg
      refine ⟨t, put_of_eq_some hNew ht x, hBranch, ?_⟩
      rcases hKept ht i with hSame | ⟨hEmpty, -, -⟩
      · rwa [hSame]
      · rw [hEmpty, Entry.target_empty] at hTarget
        cases hTarget
  · intro t r path ht hLength i
    rcases (put_eq_some hNew).1 ht with ⟨rfl, -⟩ | ht
    · exact Or.inl (hFresh i)
    · rcases hKept ht i with hSame | ⟨-, rfl, hEntry⟩
      · rw [hSame]
        exact (h.link ht hLength i).imp_right (Exists.imp fun g => And.imp_left fun hg =>
          put_of_eq_some hNew hg x)
      · exact Or.inr ⟨f, put_self .., hEntry⟩
  · intro r hr i hi
    rcases (put_eq_some hNew).1 hr with ⟨rfl, -⟩ | hr
    · exact hFresh i
    · rcases hKept hr i with hSame | ⟨-, hPlace, -⟩
      · rw [hSame]
        exact h.lower hr i hi
      · -- Nothing is hung from the lower half of a root table.
        obtain ⟨-, -, hBranch, -⟩ := hParent hPlace
        have hUpper := (hBranch rfl).1 rfl
        omega

theorem fresh (hFree : m.frames.free = f :: rest) (hMemory : m'.memory = m.memory.setTable f .zeroed)
    (hFrames : m'.frames = m.frames.serve 1) :
    (trunk.put f ⟨f, []⟩).Beside plan held (f :: reserved) m' := by
  have hMem : f ∈ m.frames.free := hFree ▸ List.mem_cons_self
  have hEntry : ∀ slot, m'.memory.entry slot = if slot.table = f then .empty else m.memory.entry slot := by
    intro slot
    rw [hMemory, Memory.entry_setTable (h.accounts.sound.free_holds hMem), PageTable.get_zeroed]
  refine h.put hFree hFrames (by rw [hMemory, Memory.frames_setTable]) (Nat.zero_lt_succ 3) (fun _ => rfl)
    (fun i => by rw [hEntry, if_pos rfl]) (fun hPlace => ?_) fun ht i => Or.inl ?_
  · cases (Place.mk.inj hPlace).2
  · rw [hEntry, if_neg (ne_of_new (h.none_of_free hMem) ht)]

theorem hang (ht : trunk t = some ⟨r, path⟩) (hLength : path.length < 3) (hBranch : Branches r r path i)
    (hEmpty : m.memory.entry ⟨t, i⟩ = .empty) (hFree : m.frames.free = f :: rest) :
    (trunk.put f ⟨r, i :: path⟩).Beside plan held (f :: reserved) (m.hang ⟨t, i⟩ f) := by
  have hMem : f ∈ m.frames.free := hFree ▸ List.mem_cons_self
  have hNew := h.none_of_free hMem
  have hEntry : ∀ slot, (m.hang ⟨t, i⟩ f).memory.entry slot =
      if slot = ⟨t, i⟩ then Entry.compose true .user f
      else if slot.table = f then .empty else m.memory.entry slot := fun slot =>
    Memory.entry_hang ⟨t, i⟩ (h.holds_of_trunk ht) (h.accounts.sound.free_holds hMem) slot
  refine h.put hFree rfl (Memory.frames_hang ..) (Nat.succ_lt_succ hLength) (fun hNil => by cases hNil)
    (fun j => ?_) (fun hPlace => ?_) fun {u r' path'} hu j => ?_
  · have hNe : (⟨f, j⟩ : Slot) ≠ ⟨t, i⟩ := fun hSlot => ne_of_new hNew ht (slot_inj hSlot).1.symm
    rw [hEntry, if_neg hNe, if_pos rfl]
  · obtain ⟨rfl, rfl, rfl⟩ : r = _ ∧ i = _ ∧ path = _ := by simpa using hPlace
    exact ⟨t, ht, hBranch, by rw [hEntry, if_pos rfl]⟩
  · rw [hEntry]
    by_cases hSlot : (⟨u, j⟩ : Slot) = ⟨t, i⟩
    · obtain ⟨rfl, rfl⟩ := slot_inj hSlot
      obtain ⟨rfl, rfl⟩ := Place.mk.inj (Option.some.inj (ht.symm.trans hu))
      exact Or.inr ⟨hEmpty, rfl, if_pos rfl⟩
    · rw [if_neg hSlot, if_neg (ne_of_new hNew hu)]
      exact Or.inl rfl

/-- An entry of a leaf table is written. -/
theorem setEntry (ht : trunk t = some ⟨r, path⟩) (hLength : path.length = 3) (i : TableIndex) (e : Entry)
    (hMemory : m'.memory = m.memory.setEntry ⟨t, i⟩ e) (hFrames : m'.frames = m.frames) :
    trunk.Beside plan held reserved m' := by
  have hSize : m'.memory.frames = m.memory.frames := by rw [hMemory, Memory.frames_setEntry]
  have hEntry : ∀ {u x}, trunk u = some x → x.path.length < 3 → ∀ j,
      m'.memory.entry ⟨u, j⟩ = m.memory.entry ⟨u, j⟩ := by
    intro u x hu hShort j
    rw [hMemory, @Memory.entry_setEntry _ ⟨t, i⟩ (h.holds_of_trunk ht), if_neg]
    intro hSlot
    obtain ⟨rfl, -⟩ := slot_inj hSlot
    rw [ht] at hu
    rw [← Option.some.inj hu, hLength] at hShort
    exact absurd hShort (Nat.lt_irrefl 3)
  refine ⟨hSize ▸ h.frames_le, h.accounts.congr (by rw [hFrames]) (by rw [hFrames]) hSize, h.mem_reserved,
    h.eq_root, h.short, fun hf => ?_, fun hu hShort j => ?_, fun hr j hj => ?_⟩
  · obtain ⟨u, hu, hBranch, hTarget⟩ := h.parent hf
    refine ⟨u, hu, hBranch, ?_⟩
    rwa [hEntry hu]
    have hShort := h.short hf
    rw [List.length_cons] at hShort
    exact Nat.lt_of_succ_lt_succ hShort
  · rw [hEntry hu hShort]
    exact h.link hu hShort j
  · rw [hEntry hr (Nat.zero_lt_succ 2)]
    exact h.lower hr j hj

theorem bare (ht : trunk t = some x)
    (hEmpty : level ≠ .pt → m.memory.entry ⟨t, level.indexOf a⟩ = .empty) : Bare m a level t := by
  have hSound := h.accounts.sound
  exact ⟨h.holds_of_trunk ht, hEmpty, h.frames_le, fun _ => hSound.free_holds, hSound.free_nodup,
    fun _ => hSound.free_new, h.notFree_of_reserved (h.reserved_of_trunk ht)⟩

/-- A walk goes along the trunk, until a leaf table or an entry without a table. -/
theorem descends (ht : trunk t = some ⟨r, a.pathTo level⟩) :
    ∃ l u, m.memory.Descends a level t l u ∧ trunk u = some ⟨r, a.pathTo l⟩ ∧ Bare m a l u := by
  induction level using Level.descent generalizing t with
  | leaf => exact ⟨.pt, t, .here .pt t, ht, h.bare ht fun hNe => absurd rfl hNe⟩
  | inner level below hNext ih =>
    rcases h.link_target ht (a.length_pathTo_lt_of_next? hNext) (level.indexOf a) with
      hEmpty | ⟨f, hf, hTarget⟩
    · exact ⟨level, t, .here level t, ht, h.bare ht fun _ => hEmpty⟩
    · rw [← VirtualAddress.pathTo_of_next? hNext] at hf
      obtain ⟨l, u, hDescends, hu, hBare⟩ := ih hf
      exact ⟨l, u, .down hNext (h.holds_of_trunk ht) hTarget hDescends, hu, hBare⟩

/-- All missing tables are hung. -/
theorem grow (ha : a.isKernel = true) (ht : trunk t = some ⟨r, a.pathTo level⟩) (hBare : Bare m a level t)
    (hSupply : level.height ≤ m.frames.supply) :
    ∃ reserved', (trunk.grow r a level (m.frames.free.take level.height)).Beside plan held reserved'
      (m.grow a level t) := by
  have hHalf : OwnHalf r r a := iff_of_true rfl (VirtualAddress.le_indexOf_pml4 ha)
  induction level using Level.descent generalizing m trunk reserved t with
  | leaf =>
    have hSame : m.grow a .pt t = m := by
      simp [Machine.grow, Level.height, Memory.grow, FrameAllocator.serve_zero]
    rw [hSame]
    exact ⟨reserved, h⟩
  | inner level below hNext ih =>
    have hPlace := VirtualAddress.pathTo_of_next? (a := a) hNext
    have hHeight := Level.height_of_next? hNext
    obtain ⟨f, rest, hFree⟩ := FrameAllocator.exists_free_of_supply (a := m.frames) (by omega)
    have hLeft : below.height ≤ (m.hang ⟨t, level.indexOf a⟩ f).frames.supply := by
      rw [Machine.frames_hang, FrameAllocator.supply_serve]
      omega
    have hHung := h.hang ht (a.length_pathTo_lt_of_next? hNext) (hHalf.branches level)
      (hBare.entry_eq (Level.ne_pt_of_next? hNext)) hFree
    rw [← hPlace] at hHung
    obtain ⟨reserved', hBeside⟩ := ih hHung (put_self ..) (hBare.hang below hFree) hLeft
    rw [Machine.grow_hang hNext hFree, Machine.free_hang ⟨t, level.indexOf a⟩ hFree] at hBeside
    rw [hFree, hHeight, List.take_succ_cons, grow_cons hNext]
    exact ⟨reserved', hBeside⟩

theorem take_new (n : Nat) : ∀ g ∈ m.frames.free.take n, trunk g = none :=
  fun _ hg => h.none_of_free (List.mem_of_mem_take hg)

theorem take_nodup (n : Nat) : (m.frames.free.take n).Nodup :=
  h.accounts.sound.free_nodup.sublist (List.take_sublist n m.frames.free)

theorem grow_leafTable (ht : trunk t = some ⟨r, a.pathTo level⟩) (hSupply : level.height ≤ m.frames.supply) :
    trunk.grow r a level (m.frames.free.take level.height) (m.leafTable level t) =
      some ⟨r, a.pathTo .pt⟩ := by
  have hFull : (m.frames.free.take level.height).length = level.height := by
    have hLength := m.frames.supply_le_length
    rw [List.length_take]
    omega
  exact grow_leaf (h.take_nodup _) (h.take_new _) ht hFull

end Beside

/-! ## Finishing -/

def only (plan : Plan) (r : Frame) : Plan := fun g => (plan g).filter (·.root = r)

theorem only_eq_some {g : Frame} : plan.only r g = some x ↔ plan g = some x ∧ x.root = r := by
  simp [only, Option.filter_eq_some_iff]

theorem isSome_only_or {g : Frame} :
    (plan g).isSome = true ↔ (plan.uproot r g).isSome = true ∨ (plan.only r g).isSome = true := by
  rw [uproot, only]
  cases plan g with
  | none => simp
  | some x => by_cases hRoot : x.root = r <;> simp [hRoot]

def LeafTable (plan : Plan) (r f : Frame) : Prop := ∃ path, plan f = some ⟨r, path⟩ ∧ path.length = 3

theorem Beside.exists_leafTables (h : trunk.Beside plan held reserved m) (r : Frame) :
    ∃ leaves : List Frame, ∀ f, f ∈ leaves ↔ trunk.LeafTable r f := by
  refine ⟨reserved.filter fun f => (trunk f).any fun x => x.root = r ∧ x.path.length = 3, fun f => ?_⟩
  rw [List.mem_filter, Option.any_eq_true, h.mem_reserved]
  constructor
  · rintro ⟨-, ⟨r', path⟩, hf, hPlace⟩
    obtain ⟨rfl, hLength⟩ := of_decide_eq_true hPlace
    exact ⟨path, hf, hLength⟩
  · rintro ⟨path, hf, hLength⟩
    exact ⟨by rw [hf]; rfl, _, hf, decide_eq_true ⟨rfl, hLength⟩⟩

/-- The tree of one kernel is that of a plan, when its leaf tables are empty. -/
theorem Beside.fits_only (h : trunk.Beside plan held reserved m) (hRoot : trunk r = some ⟨r, []⟩)
    {memory : Memory} (hAgree : m.memory.AgreeOn (fun f => ¬ trunk.LeafTable r f) memory)
    (hEmpty : ∀ f, trunk.LeafTable r f → ∀ i, memory.entry ⟨f, i⟩ = .empty) :
    (trunk.only r).Fits r [] memory := by
  have hEntry : ∀ {t path}, trunk t = some ⟨r, path⟩ → path.length < 3 → ∀ i,
      memory.entry ⟨t, i⟩ = m.memory.entry ⟨t, i⟩ := by
    intro t path ht hShort i
    refine hAgree.entry ?_
    rintro ⟨path', hPlace, hLength⟩
    rw [ht] at hPlace
    obtain rfl : path = path' := by simpa using hPlace
    omega
  have hOnly : ∀ {g r' path}, trunk.only r g = some ⟨r', path⟩ ↔ r' = r ∧ trunk g = some ⟨r, path⟩ := by
    intro g r' path
    rw [only_eq_some]
    constructor
    · rintro ⟨hg, rfl⟩
      exact ⟨rfl, hg⟩
    · rintro ⟨rfl, hg⟩
      exact ⟨hg, rfl⟩
  refine ⟨hAgree.frames_eq ▸ h.frames_le, fun {f x} hf => ?_, hOnly.2 ⟨rfl, hRoot⟩, List.not_mem_nil,
    List.nodup_nil, nofun, fun {f r'} hf => ?_, fun {f r' path} hf => ?_, fun {f r' i path} hf => ?_,
    fun {t r' path} ht hShort i _ => ?_, fun {t r' path} ht hLength i => ?_, fun i hi => ?_, nofun⟩
  · rw [hAgree.holds]
    exact h.holds_of_trunk (only_eq_some.1 hf).1
  · obtain ⟨rfl, hf⟩ := hOnly.1 hf
    exact ⟨h.eq_root hf, Or.inl rfl⟩
  · exact Nat.le_of_lt (h.short (hOnly.1 hf).2)
  · obtain ⟨rfl, hf⟩ := hOnly.1 hf
    obtain ⟨t, ht, hBranch, hTarget⟩ := h.parent hf
    have hShort := h.short hf
    rw [List.length_cons] at hShort
    refine ⟨t, hOnly.2 ⟨rfl, ht⟩, hBranch, ?_⟩
    rwa [hEntry ht (Nat.lt_of_succ_lt_succ hShort)]
  · obtain ⟨rfl, ht⟩ := hOnly.1 ht
    rw [hEntry ht hShort]
    exact (h.link ht hShort i).imp_right (Exists.imp fun g => And.imp_left fun hg => hOnly.2 ⟨rfl, hg⟩)
  · obtain ⟨rfl, ht⟩ := hOnly.1 ht
    rw [hEmpty t ⟨path, ht, hLength⟩ i]
    simp
  · rw [hEntry hRoot (Nat.zero_lt_succ 2)]
    exact h.lower hRoot i hi

theorem Beside.exists_fits_only (h : trunk.Beside plan held reserved m) (hRoot : trunk r = some ⟨r, []⟩) :
    ∃ memory, m.memory.AgreeOn (fun f => ¬ trunk.LeafTable r f) memory ∧ (trunk.only r).Fits r [] memory := by
  obtain ⟨leaves, hLeaves⟩ := h.exists_leafTables r
  obtain ⟨memory, hAgree, hEmpty⟩ := Memory.exists_emptied (m := m.memory) leaves fun f hf => by
    obtain ⟨path, hPlace, -⟩ := (hLeaves f).1 hf
    exact h.holds_of_trunk hPlace
  have hKept := hAgree.mono fun f (hNot : ¬ trunk.LeafTable r f) => mt (hLeaves f).1 hNot
  exact ⟨memory, hKept, h.fits_only hRoot hKept fun f hf => hEmpty f ((hLeaves f).2 hf)⟩

/-! ## The tree of one kernel -/

section

variable (h : trunk.Beside plan held reserved m)

include h

theorem Beside.root_of_place (ht : trunk t = some ⟨r, path⟩) : trunk r = some ⟨r, []⟩ := by
  induction path generalizing t with
  | nil =>
    obtain rfl := h.eq_root ht
    exact ht
  | cons i path ih =>
    obtain ⟨u, hu, -, -⟩ := h.parent ht
    exact ih hu

theorem Beside.place_inj {f g : Frame} (hf : trunk f = some x) (hg : trunk g = some x) : f = g := by
  obtain ⟨memory, -, hFits⟩ := h.exists_fits_only (h.root_of_place hf)
  exact hFits.place_inj (only_eq_some.2 ⟨hf, rfl⟩) (only_eq_some.2 ⟨hg, rfl⟩)

/-- An address has the entry of the leaf table that the trunk has there, or nothing. -/
theorem Beside.leaf?_cases (hRoot : trunk r = some ⟨r, []⟩) (a : VirtualAddress) :
    (∃ t, trunk t = some ⟨r, a.pathTo .pt⟩ ∧
        m.memory.leaf? r a = .ok (some (m.memory.entry ⟨t, Level.pt.indexOf a⟩))) ∨
      (∀ t, trunk t ≠ some ⟨r, a.pathTo .pt⟩) ∧ m.memory.leaf? r a = .ok none := by
  obtain ⟨l, u, hDescends, hu, hBare⟩ := @Beside.descends _ _ _ _ _ _ _ .pml4 a h hRoot
  by_cases hl : l = .pt
  · subst hl
    refine Or.inl ⟨u, hu, ?_⟩
    rw [Memory.leaf?, Memory.lookup, hDescends.lookupFrom_eq, Memory.lookupFrom_pt hBare.holds]
    rfl
  · obtain ⟨below, hNext⟩ := Level.exists_next? hl
    have hEmpty := hBare.entry_eq hl
    refine Or.inr ⟨fun t ht => ?_, ?_⟩
    · obtain ⟨memory, hAgree, hFits⟩ := h.exists_fits_only hRoot
      have hInner : ¬ trunk.LeafTable r u := by
        rintro ⟨path', hu', hLength⟩
        rw [hu] at hu'
        obtain ⟨-, rfl⟩ := Place.mk.inj (Option.some.inj hu')
        exact absurd hLength (Nat.ne_of_lt (a.length_pathTo_lt_of_next? hNext))
      refine hFits.no_leaf_table hl (only_eq_some.2 ⟨hu, rfl⟩) ?_ t (only_eq_some.2 ⟨ht, rfl⟩)
      rw [hAgree.entry hInner, hEmpty]
    · rw [Memory.leaf?, Memory.lookup, hDescends.lookupFrom_eq,
        Memory.lookupFrom_missing hNext hBare.holds (by rw [hEmpty, Entry.target_empty])]
      rfl

end

/-- The trees of the other kernels are still a trunk. -/
theorem Beside.uproot (h : trunk.Beside plan held reserved m) {reserved' : List Frame}
    (hReserved : ∀ f, f ∈ reserved' ↔ (trunk.uproot r f).isSome = true)
    (hAgree : m.memory.AgreeOn (fun f => ¬ trunk.LeafTable r f) m'.memory)
    (hAccounts : plan'.Accounts (held ++ reserved') m'.memory m'.frames) :
    (trunk.uproot r).Beside plan' held reserved' m' := by
  have hEntry : ∀ {t x}, trunk.uproot r t = some x → ∀ i,
      m'.memory.entry ⟨t, i⟩ = m.memory.entry ⟨t, i⟩ := by
    intro t x ht i
    obtain ⟨ht, hOther⟩ := uproot_eq_some.1 ht
    refine hAgree.entry ?_
    rintro ⟨path, hPlace, -⟩
    rw [ht] at hPlace
    exact hOther (by rw [Option.some.inj hPlace])
  have hOther : ∀ {f g r' path path'}, trunk.uproot r f = some ⟨r', path⟩ → trunk g = some ⟨r', path'⟩ →
      trunk.uproot r g = some ⟨r', path'⟩ :=
    fun hf hg => uproot_eq_some.2 ⟨hg, (uproot_eq_some.1 hf).2⟩
  refine ⟨hAgree.frames_eq ▸ h.frames_le, hAccounts, fun {f} => hReserved f,
    fun hf => h.eq_root (uproot_eq_some.1 hf).1, fun hf => h.short (uproot_eq_some.1 hf).1,
    fun hf => ?_, fun ht hShort i => ?_, fun hr i hi => ?_⟩
  · obtain ⟨t, ht, hBranch, hTarget⟩ := h.parent (uproot_eq_some.1 hf).1
    have ht' := hOther hf ht
    exact ⟨t, ht', hBranch, by rwa [hEntry ht']⟩
  · rw [hEntry ht]
    exact (h.link (uproot_eq_some.1 ht).1 hShort i).imp_right (Exists.imp fun g => And.imp_left (hOther ht))
  · rw [hEntry hr]
    exact h.lower (uproot_eq_some.1 hr).1 i hi

/-- A kernel is finished: its tree is taken out of the trunk. -/
theorem Beside.finish (h : trunk.Beside plan held reserved m) (hNone : ∀ f, plan f = none)
    (hRoot : trunk r = some ⟨r, []⟩) :
    ∃ memory reserved', m.memory.AgreeOn (fun f => ¬ trunk.LeafTable r f) memory ∧
      (trunk.only r).Fits r [] memory ∧
      (trunk.uproot r).Beside (trunk.only r) held reserved' { m with memory } := by
  obtain ⟨memory, hKept, hFits⟩ := h.exists_fits_only hRoot
  have hReserved : ∀ f, f ∈ reserved.filter (fun f => (trunk.uproot r f).isSome) ↔
      (trunk.uproot r f).isSome = true := by
    intro f
    rw [List.mem_filter, h.mem_reserved, and_iff_right_iff_imp]
    exact fun hSome => isSome_only_or.2 (Or.inl hSome)
  refine ⟨memory, _, hKept, hFits, h.uproot hReserved hKept ⟨?_, fun {f} => ?_, ?_, fun {f} hf => ?_⟩⟩
  · exact h.accounts.sound.congr rfl rfl hKept.frames_eq
  · rw [h.accounts.mem_inUse, List.mem_append, List.mem_append, h.mem_reserved, hReserved, hNone f,
      @isSome_only_or trunk r f]
    simp [or_assoc]
  · exact h.accounts.held_nodup.sublist (List.filter_sublist.append_left held)
  · rw [← Option.not_isSome_iff_eq_none]
    intro hSome
    obtain ⟨x, hx⟩ := Option.isSome_iff_exists.1 hSome
    obtain ⟨hx, hIn⟩ := only_eq_some.1 hx
    rcases List.mem_append.1 hf with hHeld | hMem
    · exact h.notHeld_of_reserved (h.reserved_of_trunk hx) hHeld
    · obtain ⟨y, hy⟩ := Option.isSome_iff_exists.1 ((hReserved f).1 hMem)
      obtain ⟨hy, hOut⟩ := uproot_eq_some.1 hy
      rw [hx] at hy
      exact hOut (Option.some.inj hy ▸ hIn)

end Plan

end PagedKernel
