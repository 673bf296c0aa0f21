import Mathlib.Data.List.FinRange
import PagedKernel.Proofs.AddressSpace.Dependence
import PagedKernel.Proofs.Table.Order

/-!
# The leaves of a tree

The leaves of a tree are the present entries of its leaf tables. A traversal comes to them table by
table, by ascending indices; listed like this with the addresses of their paths, they are in the order
of the addresses. A walk takes the same paths: an address is in the list just when a walk for it comes
to a present entry, which is the one listed.

* `Memory.slotsBehind`, `Memory.slotsBelow`, `Memory.leafSlots`: the list.
* `Memory.mem_slotsBehind`, `Memory.mem_leafSlots`: what is in it.
* `Memory.pairwise_leafSlots`: its order.
* `Memory.filter_leafSlots`: the leaves of the user half.
* `Memory.Regular.mem_leafSlots`: the list, by where walks come to.
-/

namespace PagedKernel

/-- The frame that an entry points at, if it is present and no huge page. -/
def Entry.frame? (e : Entry) : Option Frame := e.target.toOption.join

theorem Entry.frame?_eq_some {e : Entry} {f : Frame} : e.frame? = some f ↔ e.target = .ok (some f) := by
  rw [frame?]
  cases e.target with
  | error v => simp [Except.toOption]
  | ok o => simp [Except.toOption]

namespace Memory

variable {m : Memory} {root t f : Frame} {a : VirtualAddress} {level below : Level} {slot : Slot}
  {path q here : List TableIndex} {i j : TableIndex} {x y : VirtualAddress × Slot}

/-- The slots of the leaves at and below a slot, with their addresses. The path ends in the slot. -/
def slotsBehind (m : Memory) (level : Level) (slot : Slot) (path : List TableIndex) :
    List (VirtualAddress × Slot) :=
  (m.entry slot).frame?.toList.flatMap fun next =>
    match _h : level.next? with
    | some below => TableIndex.all.flatMap fun i => m.slotsBehind below ⟨next, i⟩ (i :: path)
    | none => [(.ofPath path, slot)]
termination_by level.height
decreasing_by exact Level.height_lt_of_next? (by assumption)

def slotsBelow (m : Memory) (level : Level) (table : Frame) (path here : List TableIndex) :
    List (VirtualAddress × Slot) :=
  here.flatMap fun i => m.slotsBehind level ⟨table, i⟩ (i :: path)

def leafSlots (m : Memory) (root : Frame) : List (VirtualAddress × Slot) :=
  m.slotsBelow .pml4 root [] TableIndex.all

theorem leafSlots_eq (m : Memory) (root : Frame) :
    m.leafSlots root = m.slotsBelow .pml4 root [] TableIndex.all := rfl

theorem slotsBehind_of_no_target (h : ∀ f, (m.entry slot).target ≠ .ok (some f)) :
    m.slotsBehind level slot path = [] := by
  have hNone : (m.entry slot).frame? = none :=
    Option.eq_none_iff_forall_ne_some.2 fun f hf => h f (Entry.frame?_eq_some.1 hf)
  rw [slotsBehind, hNone]
  rfl

theorem slotsBehind_leaf (h : (m.entry slot).target = .ok (some f)) :
    m.slotsBehind .pt slot path = [(.ofPath path, slot)] := by
  rw [slotsBehind, Entry.frame?_eq_some.2 h]
  rfl

theorem slotsBehind_next (hNext : level.next? = some below) (h : (m.entry slot).target = .ok (some f)) :
    m.slotsBehind level slot path = m.slotsBelow below f path TableIndex.all := by
  rw [slotsBehind, Entry.frame?_eq_some.2 h]
  cases level <;> cases hNext <;> exact List.append_nil _

theorem exists_target_of_mem_slotsBehind (hx : x ∈ m.slotsBehind level slot path) :
    ∃ f, (m.entry slot).target = .ok (some f) := by
  by_contra hNone
  rw [slotsBehind_of_no_target (not_exists.1 hNone)] at hx
  cases hx

theorem slotsBelow_cons : m.slotsBelow level t path (i :: here) =
    m.slotsBehind level ⟨t, i⟩ (i :: path) ++ m.slotsBelow level t path here :=
  List.flatMap_cons

/-- The slot is in a leaf table at the end of the path, and its entry is present. -/
structure IsLeaf (m : Memory) (root : Frame) (path : List TableIndex) (slot : Slot) : Prop where
  leads : m.Leads root path slot.table
  length_eq : path.length = 3
  target : ∃ f, (m.entry slot).target = .ok (some f)

theorem exists_cons_suffix {p l : List TableIndex} (h : p <:+ l) (hLonger : p.length < l.length) :
    ∃ i, i :: p <:+ l := by
  obtain ⟨low, rfl⟩ := h
  rcases List.eq_nil_or_concat' low with rfl | ⟨low, i, rfl⟩
  · exact absurd hLonger (Nat.lt_irrefl _)
  · exact ⟨i, low, by rw [List.append_assoc, List.singleton_append]⟩

theorem mem_slotsBehind (ht : m.Leads root path t) (hLength : path.length = level.depth) :
    x ∈ m.slotsBehind level ⟨t, i⟩ (i :: path) ↔ ∃ q, m.IsLeaf root q x.2 ∧
      i :: path <:+ x.2.index :: q ∧ x.1 = .ofPath (x.2.index :: q) := by
  induction level using Level.descent generalizing t i path with
  | leaf =>
    constructor
    · intro hx
      obtain ⟨f, hTarget⟩ := exists_target_of_mem_slotsBehind hx
      rw [slotsBehind_leaf hTarget, List.mem_singleton] at hx
      rw [hx]
      exact ⟨path, ⟨ht, hLength, f, hTarget⟩, List.suffix_refl _, rfl⟩
    · obtain ⟨a, table, index⟩ := x
      rintro ⟨q, ⟨hLeads, hq, f, hTarget⟩, hSuffix, hAddress⟩
      have hSame : i :: path = index :: q :=
        hSuffix.eq_of_length (by rw [List.length_cons, List.length_cons, hLength, hq]; rfl)
      obtain ⟨rfl, rfl⟩ : i = index ∧ path = q := by simpa using hSame
      obtain rfl : table = t := hLeads.unique ht
      rw [slotsBehind_leaf hTarget, List.mem_singleton, Prod.mk.injEq]
      exact ⟨hAddress, rfl⟩
  | inner level below hNext ih =>
    have hDepth := Level.depth_of_next? hNext
    have hShort := below.depth_lt
    constructor
    · intro hx
      obtain ⟨f, hTarget⟩ := exists_target_of_mem_slotsBehind hx
      rw [slotsBehind_next hNext hTarget] at hx
      obtain ⟨j, -, hx⟩ := List.mem_flatMap.1 hx
      have hBelow : m.Leads root (i :: path) f := .entry ht (by omega) hTarget
      obtain ⟨q, hLeaf, hSuffix, hAddress⟩ := (ih hBelow (by rw [List.length_cons]; omega)).1 hx
      exact ⟨q, hLeaf, (List.suffix_cons j _).trans hSuffix, hAddress⟩
    · rintro ⟨q, hLeaf, hSuffix, hAddress⟩
      have hLonger : (i :: path).length ≤ q.length := by
        rw [List.length_cons, hLeaf.length_eq]
        omega
      -- The path of the leaf goes on below the slot, so there is a table behind it.
      have hRest : i :: path <:+ q := List.suffix_of_suffix_length_le hSuffix (List.suffix_cons _ q) hLonger
      obtain ⟨f, hf⟩ := hLeaf.leads.above hRest
      obtain ⟨j, hj⟩ := exists_cons_suffix hSuffix (Nat.lt_succ_of_le hLonger)
      rw [slotsBehind_next hNext (hf.target ht)]
      refine List.mem_flatMap.2 ⟨j, TableIndex.mem_all j, ?_⟩
      exact (ih hf (by rw [List.length_cons]; omega)).2 ⟨q, hLeaf, hj, hAddress⟩

/-- The leaves of a tree are listed with the addresses of their paths. -/
theorem mem_leafSlots_iff : x ∈ m.leafSlots root ↔
    ∃ q, m.IsLeaf root q x.2 ∧ x.1 = .ofPath (x.2.index :: q) := by
  rw [leafSlots, slotsBelow, List.mem_flatMap]
  constructor
  · rintro ⟨i, -, hx⟩
    obtain ⟨q, hLeaf, -, hAddress⟩ := (mem_slotsBehind .root rfl).1 hx
    exact ⟨q, hLeaf, hAddress⟩
  · rintro ⟨q, hLeaf, hAddress⟩
    obtain ⟨i, hi⟩ := exists_cons_suffix (List.nil_suffix (l := x.2.index :: q)) (Nat.succ_pos _)
    exact ⟨i, TableIndex.mem_all i, (mem_slotsBehind .root rfl).2 ⟨q, hLeaf, hi, hAddress⟩⟩

theorem mem_leafSlots : (a, slot) ∈ m.leafSlots root ↔ a.isCanonical = true ∧ a.isAligned = true ∧
    m.Leads root (a.pathTo .pt) slot.table ∧ slot.index = Level.pt.indexOf a ∧
      ∃ f, (m.entry slot).target = .ok (some f) := by
  rw [mem_leafSlots_iff]
  constructor
  · rintro ⟨q, hLeaf, hAddress⟩
    obtain rfl : a = .ofPath (slot.index :: q) := hAddress
    have hLength : (slot.index :: q).length = 4 := by rw [List.length_cons, hLeaf.length_eq]
    have hPath := VirtualAddress.path_ofPath hLength
    obtain ⟨hIndex, hTable⟩ := List.cons.inj hPath
    exact ⟨VirtualAddress.isCanonical_ofPath _, VirtualAddress.isAligned_ofPath hLength,
      hTable.symm ▸ hLeaf.leads, hIndex.symm, hLeaf.target⟩
  · rintro ⟨hCanonical, hAligned, hLeads, hIndex, hTarget⟩
    refine ⟨a.pathTo .pt, ⟨hLeads, a.length_pathTo .pt, hTarget⟩, ?_⟩
    show a = .ofPath (slot.index :: a.pathTo .pt)
    rw [hIndex]
    exact (VirtualAddress.ofPath_path hCanonical hAligned).symm

/-- Walks come to the leaves that are listed. -/
theorem Regular.mem_leafSlots (h : m.Regular root) : (a, slot) ∈ m.leafSlots root ↔
    a.isCanonical = true ∧ a.isAligned = true ∧ m.lookup root a = .ok (.ok slot) ∧
      (m.entry slot).present = true := by
  have hLookup : m.lookup root a = .ok (.ok slot) ↔ _ := (h.walkable a).lookup_eq_ok
  rw [Memory.mem_leafSlots, hLookup, and_assoc]
  refine and_congr_right fun _ => and_congr_right fun _ => and_congr_right fun hLeads =>
    and_congr_right fun _ => ?_
  constructor
  · rintro ⟨f, hf⟩
    exact (Entry.target_eq_some.1 hf).1
  · intro hPresent
    have hSmall := h.small hLeads (a.length_pathTo_lt .pt) slot.index hPresent
    exact ⟨_, Entry.target_eq_some.2 ⟨hPresent, hSmall, rfl⟩⟩

/-! ## The order of the list -/

/-- What is listed behind one slot of a table comes before what is listed behind a later one. -/
theorem lt_of_mem_slotsBehind (ht : m.Leads root path t) (hLength : path.length = level.depth)
    (hLt : i < j) (hx : x ∈ m.slotsBehind level ⟨t, i⟩ (i :: path))
    (hy : y ∈ m.slotsBehind level ⟨t, j⟩ (j :: path)) : x.1.val < y.1.val := by
  obtain ⟨p, hLeaf, hp, hAddress⟩ := (mem_slotsBehind ht hLength).1 hx
  obtain ⟨q, hLeaf', hq, hAddress'⟩ := (mem_slotsBehind ht hLength).1 hy
  have hFour : (x.2.index :: p).length = 4 := by rw [List.length_cons, hLeaf.length_eq]
  have hFour' : (y.2.index :: q).length = 4 := by rw [List.length_cons, hLeaf'.length_eq]
  rw [hAddress, hAddress']
  exact VirtualAddress.ofPath_lt_ofPath hFour hFour'
    (pathNumber_lt_of_suffix hp hq (hFour.trans hFour'.symm) hLt)

theorem pairwise_slotsBelow (ht : m.Leads root path t) (hLength : path.length = level.depth)
    (hSlots : ∀ i, (m.slotsBehind level ⟨t, i⟩ (i :: path)).Pairwise fun x y => x.1.val < y.1.val) :
    (m.slotsBelow level t path TableIndex.all).Pairwise fun x y => x.1.val < y.1.val :=
  List.pairwise_flatMap.2 ⟨fun i _ => hSlots i, (List.pairwise_lt_finRange 512).imp
    fun hLt _ hx _ hy => lt_of_mem_slotsBehind ht hLength hLt hx hy⟩

theorem pairwise_of_target {R : VirtualAddress × Slot → VirtualAddress × Slot → Prop}
    (h : ∀ f, (m.entry slot).target = .ok (some f) → (m.slotsBehind level slot path).Pairwise R) :
    (m.slotsBehind level slot path).Pairwise R := by
  by_cases hTarget : ∃ f, (m.entry slot).target = .ok (some f)
  · obtain ⟨f, hTarget⟩ := hTarget
    exact h f hTarget
  · rw [slotsBehind_of_no_target (not_exists.1 hTarget)]
    exact .nil

theorem pairwise_slotsBehind (ht : m.Leads root path t) (hLength : path.length = level.depth)
    (i : TableIndex) :
    (m.slotsBehind level ⟨t, i⟩ (i :: path)).Pairwise fun x y => x.1.val < y.1.val := by
  induction level using Level.descent generalizing t path i with
  | leaf =>
    refine pairwise_of_target fun f hTarget => ?_
    rw [slotsBehind_leaf hTarget]
    exact List.pairwise_singleton _ _
  | inner level below hNext ih =>
    have hDepth := Level.depth_of_next? hNext
    have hShort := below.depth_lt
    have hLonger : (i :: path).length = below.depth := by
      rw [List.length_cons]
      omega
    refine pairwise_of_target fun f hTarget => ?_
    have hf : m.Leads root (i :: path) f := .entry ht (by omega) hTarget
    rw [slotsBehind_next hNext hTarget]
    exact pairwise_slotsBelow hf hLonger (ih hf hLonger)

/-- The leaves are listed in ascending order of their addresses. -/
theorem pairwise_leafSlots (m : Memory) (root : Frame) :
    (m.leafSlots root).Pairwise fun x y => x.1.val < y.1.val :=
  pairwise_slotsBelow .root rfl (pairwise_slotsBehind .root rfl)

theorem isUser_of_mem_slotsBehind (hx : x ∈ m.slotsBehind .pml4 ⟨root, i⟩ [i]) :
    x.1.isUser = true ↔ i.val < kernelRootStart := by
  obtain ⟨q, hLeaf, ⟨low, hLow⟩, hAddress⟩ := (mem_slotsBehind .root rfl).1 hx
  have hFour : (x.2.index :: q).length = 4 := by rw [List.length_cons, hLeaf.length_eq]
  rw [hAddress, VirtualAddress.isUser_ofPath hFour, InUserHalf, ← hLow, List.getLast?_append]
  simp

/-- The leaves of user addresses are those below the user half of the root table. -/
theorem filter_leafSlots (m : Memory) (root : Frame) : (m.leafSlots root).filter (·.1.isUser) =
    m.slotsBelow .pml4 root [] TableIndex.userHalf := by
  rw [leafSlots, TableIndex.userHalf]
  induction TableIndex.all with
  | nil => rfl
  | cons i rest ih =>
    rw [slotsBelow_cons, List.filter_append, ih, List.filter_cons]
    split
    next hLower =>
      rw [slotsBelow_cons, List.filter_eq_self.2 fun x hx =>
        (isUser_of_mem_slotsBehind hx).2 (of_decide_eq_true hLower)]
    next hUpper =>
      rw [List.filter_eq_nil_iff.2 fun x hx => mt (isUser_of_mem_slotsBehind hx).1
        (mt decide_eq_true hUpper), List.nil_append]

end Memory

end PagedKernel
