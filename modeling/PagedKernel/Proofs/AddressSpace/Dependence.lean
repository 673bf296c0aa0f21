import PagedKernel.Proofs.AddressSpace.Queries
import PagedKernel.Proofs.Plan.Reach

/-!
# What an answer depends on

A walk for an address reads one entry of each table on its way, so what the address has in a tree
depends on these tables only, whatever else memory holds and however the tree is built.

* `Memory.IsTable`: the frame is one of the tables of a tree.
* `Memory.leaf?_of_entries`, `Memory.leaf?_congr`: memories with the same entries on the way, or with
  the same tables, have the same leaf entry.
* `Memory.leaf?_of_path_eq`: addresses of one page have the same leaf entry.
* `Memory.Walkable`, `Memory.Regular`: no walk for an address is refused, and none at all.
* `Memory.Walkable.leaf?_cases`, `Memory.Walkable.lookup_eq_ok`: where a walk comes to then.
* `Plan.Fits.regular`: trees that are built as planned are regular.
* `AddressSpace.translate_congr`, `AddressSpace.resolve_congr`: the answers depend on that entry.
* `AddressSpace.translate_eq_some`, `AddressSpace.resolve_eq_some`: how they do.
* `AddressSpace.UserTable`, `AddressSpace.resolve_of_tables`: what all answers to user programs depend
  on.
-/

namespace PagedKernel

namespace Memory

variable {keep : Frame → Prop} {m m' : Memory} {root table t : Frame} {a : VirtualAddress}
  {level below : Level} {path : List TableIndex} {slot : Slot}

/-- The frame is one of the tables below a root, or the root table itself. -/
def IsTable (m : Memory) (root t : Frame) : Prop := ∃ path, path.length < 4 ∧ m.Leads root path t

theorem requireTable_congr (hFrames : m'.frames = m.frames) (f : Frame) :
    m'.requireTable f = m.requireTable f := by
  rw [requireTable, requireTable, requireObject, requireObject, holds, holds, hFrames]

theorem lookupFrom_leaf : m.lookupFrom a .pt table =
    (do m.requireTable table; return .ok ⟨table, Level.pt.indexOf a⟩) := by
  rw [lookupFrom]
  rfl

theorem lookupFrom_inner (hNext : level.next? = some below) : m.lookupFrom a level table =
    (do
      m.requireTable table
      match ← (m.entry ⟨table, level.indexOf a⟩).target with
      | some next => m.lookupFrom a below next
      | none => return .error (.missing below)) := by
  rw [lookupFrom]
  cases level <;> cases hNext <;> rfl

theorem Leads.step (h : m.Leads root (a.pathTo level) table) (hNext : level.next? = some below)
    (hTarget : (m.entry ⟨table, level.indexOf a⟩).target = .ok (some t)) :
    m.Leads root (a.pathTo below) t := by
  rw [VirtualAddress.pathTo_of_next? hNext]
  exact .entry h (VirtualAddress.length_pathTo_lt level) hTarget

/-- The slot that a walk comes to is in the last table on the way, and has the index of the address. -/
theorem leads_of_lookupFrom {slot : Slot} (level : Level)
    (hTable : m.Leads root (a.pathTo level) table)
    (hSlot : m.lookupFrom a level table = .ok (.ok slot)) :
    m.Leads root (a.pathTo .pt) slot.table ∧ slot.index = Level.pt.indexOf a := by
  induction level using Level.descent generalizing table with
  | leaf =>
    rw [lookupFrom_leaf] at hSlot
    cases hHolds : m.requireTable table with
    | error v =>
      rw [hHolds] at hSlot
      cases hSlot
    | ok _ =>
      rw [hHolds] at hSlot
      cases hSlot
      exact ⟨hTable, rfl⟩
  | inner level below hNext ih =>
    rw [lookupFrom_inner hNext] at hSlot
    cases hHolds : m.requireTable table with
    | error v =>
      rw [hHolds] at hSlot
      cases hSlot
    | ok _ =>
      cases hTarget : (m.entry ⟨table, level.indexOf a⟩).target with
      | error v =>
        rw [hHolds, hTarget] at hSlot
        cases hSlot
      | ok o =>
        rw [hHolds, hTarget] at hSlot
        cases o with
        | none => cases hSlot
        | some next => exact ih (hTable.step hNext hTarget) hSlot

theorem lookup_of_leaf? {e : Entry} (h : m.leaf? root a = .ok (some e)) :
    ∃ slot, m.lookup root a = .ok (.ok slot) ∧ m.entry slot = e := by
  rw [leaf?] at h
  cases hLookup : m.lookup root a with
  | error v =>
    rw [hLookup] at h
    cases h
  | ok found =>
    rw [hLookup] at h
    cases found with
    | error v => cases h
    | ok slot => exact ⟨slot, rfl, Option.some.inj (Except.ok.inj h)⟩

section Entries

variable (hFrames : m'.frames = m.frames)

include hFrames

section Upper

variable (hUpper : ∀ level t, level ≠ .pt → m.Leads root (a.pathTo level) t →
  m'.entry ⟨t, level.indexOf a⟩ = m.entry ⟨t, level.indexOf a⟩)

include hUpper

theorem lookupFrom_congr (level : Level) (hTable : m.Leads root (a.pathTo level) table) :
    m'.lookupFrom a level table = m.lookupFrom a level table := by
  induction level using Level.descent generalizing table with
  | leaf => rw [lookupFrom_leaf, lookupFrom_leaf, requireTable_congr hFrames]
  | inner level below hNext ih =>
    rw [lookupFrom_inner hNext, lookupFrom_inner hNext, requireTable_congr hFrames,
      hUpper level table (Level.ne_pt_of_next? hNext) hTable]
    cases hTarget : (m.entry ⟨table, level.indexOf a⟩).target with
    | error v => simp only [bind, Except.bind]
    | ok o =>
      cases o with
      | none => simp only [bind, Except.bind]
      | some next => simp only [bind, Except.bind, ih (hTable.step hNext hTarget)]

/-- The entries above the leaf table lead a walk to its slot. -/
theorem lookup_congr : m'.lookup root a = m.lookup root a := by
  rw [lookup, lookup]
  exact lookupFrom_congr hFrames hUpper .pml4 .root

end Upper

variable (hEntry : ∀ level t, m.Leads root (a.pathTo level) t →
  m'.entry ⟨t, level.indexOf a⟩ = m.entry ⟨t, level.indexOf a⟩)

include hEntry

theorem leaf?_of_entries : m'.leaf? root a = m.leaf? root a := by
  have hLookup : m'.lookup root a = m.lookup root a :=
    lookup_congr hFrames fun level t _ => hEntry level t
  rw [leaf?, leaf?, hLookup]
  cases hSlot : m.lookup root a with
  | error v => simp only [bind, Except.bind]
  | ok o =>
    cases o with
    | error e => simp only [bind, Except.bind]
    | ok slot =>
      rw [lookup] at hSlot
      obtain ⟨hLeads, hIndex⟩ := leads_of_lookupFrom .pml4 .root hSlot
      have hSame := hEntry .pt slot.table hLeads
      rw [← hIndex] at hSame
      show Except.ok (some (m'.entry slot)) = Except.ok (some (m.entry slot))
      rw [hSame]

end Entries

theorem leaf?_congr (hAgree : m.AgreeOn keep m')
    (hKeep : ∀ level t, m.Leads root (a.pathTo level) t → keep t) :
    m'.leaf? root a = m.leaf? root a :=
  leaf?_of_entries hAgree.frames_eq fun level t hLeads => hAgree.entry (hKeep level t hLeads)

/-- A walk takes its way by the indices of the address. -/
theorem lookupFrom_of_indexOf {b : VirtualAddress}
    (h : ∀ level : Level, level.indexOf a = level.indexOf b) (level : Level) (table : Frame) :
    m.lookupFrom a level table = m.lookupFrom b level table := by
  induction level using Level.descent generalizing table with
  | leaf => rw [lookupFrom_leaf, lookupFrom_leaf, h]
  | inner level below hNext ih =>
    have hRest : m.lookupFrom a below = m.lookupFrom b below := funext ih
    rw [lookupFrom_inner hNext, lookupFrom_inner hNext, h level, hRest]

theorem leaf?_of_path_eq {b : VirtualAddress} (h : a.path = b.path) :
    m.leaf? root a = m.leaf? root b := by
  simp only [VirtualAddress.path, VirtualAddress.pathTo, List.cons.injEq, and_true] at h
  have hIndex : ∀ level : Level, level.indexOf a = level.indexOf b := by
    intro level
    cases level with
    | pml4 => exact h.2.2.2
    | pdpt => exact h.2.2.1
    | pd => exact h.2.1
    | pt => exact h.1
  rw [leaf?, leaf?, lookup, lookup, lookupFrom_of_indexOf hIndex]

/-! ## Walks that come to an end -/

/-- What is on the way of `a` lies in memory, and maps no huge page. -/
def Walkable (m : Memory) (root : Frame) (a : VirtualAddress) : Prop :=
  ∀ (level : Level) (t : Frame), m.Leads root (a.pathTo level) t →
    m.holds t = true ∧ ∃ o, (m.entry ⟨t, level.indexOf a⟩).target = .ok o

/-- The tables that a root reaches lie in memory, and no present entry of theirs maps a huge page. -/
structure Regular (m : Memory) (root : Frame) : Prop where
  holds {path : List TableIndex} {t : Frame} : m.Leads root path t → path.length < 4 →
    m.holds t = true
  small {path : List TableIndex} {t : Frame} : m.Leads root path t → path.length < 4 →
    ∀ i, (m.entry ⟨t, i⟩).present = true → (m.entry ⟨t, i⟩).flag .pageSize = false

theorem Regular.exists_target (h : m.Regular root) (ht : m.Leads root path t) (hLength : path.length < 4)
    (i : TableIndex) : ∃ o, (m.entry ⟨t, i⟩).target = .ok o := by
  cases hPresent : (m.entry ⟨t, i⟩).present with
  | false => exact ⟨none, Entry.target_eq_none.2 hPresent⟩
  | true => exact ⟨_, Entry.target_eq_some.2 ⟨hPresent, h.small ht hLength i hPresent, rfl⟩⟩

theorem Regular.walkable (h : m.Regular root) (a : VirtualAddress) : m.Walkable root a :=
  fun level _ ht => ⟨h.holds ht (a.length_pathTo_lt level), h.exists_target ht (a.length_pathTo_lt level) _⟩

/-- A walk comes to the slot of the address, or there is no table with such a slot. -/
theorem Walkable.lookupFrom_cases (h : m.Walkable root a) (level : Level)
    (ht : m.Leads root (a.pathTo level) t) :
    (∃ u, m.Leads root (a.pathTo .pt) u ∧ m.lookupFrom a level t = .ok (.ok ⟨u, Level.pt.indexOf a⟩)) ∨
      (∀ u, ¬ m.Leads root (a.pathTo .pt) u) ∧ ∃ e, m.lookupFrom a level t = .ok (.error e) := by
  induction level using Level.descent generalizing t with
  | leaf => exact Or.inl ⟨t, ht, lookupFrom_pt (h .pt t ht).1⟩
  | inner level below hNext ih =>
    obtain ⟨hHolds, o, hTarget⟩ := h level t ht
    cases o with
    | none =>
      refine Or.inr ⟨fun u hu => ?_, _, lookupFrom_missing hNext hHolds hTarget⟩
      have hSuffix : a.pathTo below <:+ a.pathTo .pt := a.pathTo_suffix (Nat.le_of_lt_succ below.depth_lt)
      obtain ⟨f, hf⟩ := hu.above hSuffix
      rw [VirtualAddress.pathTo_of_next? hNext] at hf
      rw [hf.target ht] at hTarget
      cases hTarget
    | some next =>
      rw [lookupFrom_next hNext hHolds hTarget]
      exact ih (ht.step hNext hTarget)

theorem Walkable.lookup_eq_ok (h : m.Walkable root a) : m.lookup root a = .ok (.ok slot) ↔
    m.Leads root (a.pathTo .pt) slot.table ∧ slot.index = Level.pt.indexOf a := by
  refine ⟨leads_of_lookupFrom .pml4 .root, ?_⟩
  rintro ⟨hLeads, hIndex⟩
  rcases h.lookupFrom_cases .pml4 .root with ⟨u, hu, hSlot⟩ | ⟨hNone, -⟩
  · obtain ⟨table, index⟩ := slot
    obtain rfl : table = u := hLeads.unique hu
    obtain rfl : index = Level.pt.indexOf a := hIndex
    exact hSlot
  · exact absurd hLeads (hNone _)

theorem Walkable.leaf?_cases (h : m.Walkable root a) :
    (∃ u, m.Leads root (a.pathTo .pt) u ∧
      m.leaf? root a = .ok (some (m.entry ⟨u, Level.pt.indexOf a⟩))) ∨
      (∀ u, ¬ m.Leads root (a.pathTo .pt) u) ∧ m.leaf? root a = .ok none := by
  rcases h.lookupFrom_cases .pml4 .root with ⟨u, hu, hSlot⟩ | ⟨hNone, e, hMissing⟩
  · refine Or.inl ⟨u, hu, ?_⟩
    rw [leaf?, lookup, hSlot]
    rfl
  · refine Or.inr ⟨hNone, ?_⟩
    rw [leaf?, lookup, hMissing]
    rfl

end Memory

/-- In a memory that is built as planned no walk is refused. -/
theorem Plan.Fits.regular {plan : Plan} {kernel r : Frame} {roots : List Frame} {m : Memory}
    (h : plan.Fits kernel roots m) (hr : r = kernel ∨ r ∈ roots) : m.Regular r where
  holds hLeads _ := by
    obtain ⟨r', hPlace⟩ := h.exists_place_of_leads hr hLeads
    exact h.holds hPlace
  small hLeads hLength i _ := by
    obtain ⟨r', hPlace⟩ := h.exists_place_of_leads hr hLeads
    exact h.small_of_place hPlace hLength i

namespace AddressSpace

variable {s s' : AddressSpace} {m m' : Memory} {a : VirtualAddress}

theorem translate_congr (h : m'.leaf? s'.root a = m.leaf? s.root a) :
    s'.translate m' a = s.translate m a := by
  rw [translate, translate, h]

theorem aliasOf_congr (h : m'.leaf? s'.root a = m.leaf? s.root a) :
    s'.aliasOf m' a = s.aliasOf m a := by
  rw [aliasOf, aliasOf, h]

theorem resolve_congr (h : m'.leaf? s'.root a = m.leaf? s.root a) (access : Access) :
    s'.resolve m' a access = s.resolve m a access := by
  rw [resolve, resolve, h]

theorem dirtyAt_congr (h : m'.leaf? s'.root a = m.leaf? s.root a) :
    s'.dirtyAt m' a = s.dirtyAt m a := by
  rw [dirtyAt, dirtyAt, h]

theorem accessedAt_congr (h : m'.leaf? s'.root a = m.leaf? s.root a) :
    s'.accessedAt m' a = s.accessedAt m a := by
  rw [accessedAt, accessedAt, h]

theorem translate_eq_some {p : PhysicalAddress} :
    s.translate m a = .ok (some p) ↔ ∃ e f, m.leaf? s.root a = .ok (some e) ∧
      e.target = .ok (some f) ∧ p = f.join a.offset := by
  constructor
  · intro h
    rw [translate] at h
    cases hLeaf : m.leaf? s.root a with
    | error v =>
      rw [hLeaf] at h
      cases h
    | ok o =>
      rw [hLeaf] at h
      cases o with
      | none => cases h
      | some e =>
        cases hTarget : e.target with
        | error v =>
          simp only [bind, Except.bind, hTarget] at h
          cases h
        | ok t =>
          simp only [bind, Except.bind, hTarget] at h
          cases t with
          | none => cases h
          | some f =>
            cases h
            exact ⟨e, f, rfl, hTarget, rfl⟩
  · rintro ⟨e, f, hLeaf, hTarget, rfl⟩
    rw [translate, hLeaf]
    simp only [bind, Except.bind, hTarget]
    rfl

/-- A program reaches what is translated, at user addresses and as far as the leaf entry allows. -/
theorem resolve_eq_some {access : Access} {p : PhysicalAddress} :
    s.resolve m a access = .ok (some p) ↔ a.isUser = true ∧ ∃ e, m.leaf? s.root a = .ok (some e) ∧
      allows e access = true ∧ s.translate m a = .ok (some p) := by
  cases hUser : a.isUser with
  | false =>
    rw [resolve_of_not_user hUser]
    simp
  | true =>
    rw [resolve, translate, hUser]
    cases hLeaf : m.leaf? s.root a with
    | error v => simp [bind, Except.bind]
    | ok o =>
      cases o with
      | none => simp [bind, Except.bind, pure, Except.pure]
      | some e => cases hAllows : allows e access <;> simp [bind, Except.bind, pure, Except.pure, hAllows]

/-- The bytes of a page are in reach together. -/
theorem exists_resolve_of_path_eq {b : VirtualAddress} {access : Access} {p : PhysicalAddress}
    (hUser : b.isUser = true) (hPath : a.path = b.path)
    (h : s.resolve m a access = .ok (some p)) : ∃ q, s.resolve m b access = .ok (some q) := by
  obtain ⟨-, e, hLeaf, hAllows, hTranslate⟩ := resolve_eq_some.1 h
  obtain ⟨e', f, hLeaf', hTarget, -⟩ := translate_eq_some.1 hTranslate
  obtain rfl : e = e' := by
    rw [hLeaf] at hLeaf'
    simpa using hLeaf'
  rw [Memory.leaf?_of_path_eq hPath] at hLeaf
  exact ⟨_, resolve_eq_some.2 ⟨hUser, e, hLeaf, hAllows, translate_eq_some.2 ⟨e, f, hLeaf, hTarget, rfl⟩⟩⟩

def UserTable (s : AddressSpace) (m : Memory) (f : Frame) : Prop :=
  ∃ path, path.length < 4 ∧ InUserHalf path ∧ m.Leads s.root path f

theorem userTable_of_pathTo {s : AddressSpace} {m : Memory} {a : VirtualAddress} {level : Level}
    {t : Frame} (hUser : a.isUser = true) (h : m.Leads s.root (a.pathTo level) t) :
    s.UserTable m t := by
  exact ⟨a.pathTo level, a.length_pathTo_lt level, a.inUserHalf_pathTo (a.indexOf_pml4_lt hUser) level, h⟩

/-- Tables that are the same translate in the same way. -/
theorem resolve_of_tables {s : AddressSpace} {m m' : Memory} (h : m.AgreeOn (s.UserTable m) m')
    (a : VirtualAddress) (access : Access) : s.resolve m' a access = s.resolve m a access := by
  by_cases hUser : a.isUser = true
  · refine resolve_congr (Memory.leaf?_congr h ?_) access
    intro level t hLeads
    exact userTable_of_pathTo hUser hLeads
  · have hNot : a.isUser = false := by simpa using hUser
    rw [resolve_of_not_user hNot, resolve_of_not_user hNot]

end AddressSpace

end PagedKernel
