import PagedKernel.AddressSpace.Leaves
import PagedKernel.Proofs.Plan.Leaves
import PagedKernel.Proofs.Stateful.Triple
import PagedKernel.Proofs.Table.Addresses

/-!
# Visitors that edit

A traversal descends by the entries above the leaf tables, which it never writes, so whatever a visitor
does to the leaf entries the traversal goes on along the plan. It hands the visitor the present entries
of leaf tables, each with the address of its path, and stores what the visitor leaves there.

* `Visitor.Obeys`: what a visitor may make of an entry.
* `Leaves.Edited`: what a traversal may make of memory, in `Leaves.meets_visitTable` and
  `Leaves.edited_run`.
* `Visitor.mark`: the visitor that overwrites a flag.
* `Visitor.collect`, `Memory.leavesBehind`: the visitor that notes what it sees, and the leaves that
  there are to see.
-/

namespace PagedKernel

open Stateful

variable {κ β : Type} {plan : Plan} {kernel r t : Frame} {roots : List Frame} {m m₀ : Memory}
  {path slots : List TableIndex} {D : VirtualAddress → Entry → Entry → Prop}

/-- The visitor makes of an entry what the rule `D` allows at its address, however it ends. -/
def Visitor.Obeys (visitor : Visitor κ β) (D : VirtualAddress → Entry → Entry → Prop) : Prop :=
  ∀ a e, Meets (fun x => x.1 = e) (visitor a) (fun _ x => D a e x.1) (fun x => D a e x.1)

theorem Visitor.Obeys.imp {D' : VirtualAddress → Entry → Entry → Prop} {visitor : Visitor κ β}
    (h : visitor.Obeys D) (hRule : ∀ a e e', D a e e' → D' a e e') : visitor.Obeys D' := by
  intro a e x hx
  have hEnd := h a e x hx
  cases hVisit : visitor a x with
  | ok flow y =>
    rw [hVisit] at hEnd
    exact hRule _ _ _ hEnd
  | error v y =>
    rw [hVisit] at hEnd
    exact hRule _ _ _ hEnd

theorem Visitor.obeys_of_forall (h : ∀ a e e', D a e e') (visitor : Visitor κ β) :
    visitor.Obeys D := by
  intro a e x _
  split
  · exact h _ _ _
  · exact h _ _ _

namespace Leaves

/-- Of all that hangs in the trees a traversal that starts in the entries `slots` of a root has written
leaf entries alone, which were present, and as the rule `D` allows. -/
structure Edited (plan : Plan) (slots : List TableIndex) (D : VirtualAddress → Entry → Entry → Prop)
    (m m' : Memory) : Prop where
  agree : m.AgreeOn (fun f => ¬ plan.AtDepth 3 f) m'
  leaf {t r : Frame} {path : List TableIndex} : plan t = some ⟨r, path⟩ → path.length = 3 → ∀ i,
    m'.entry ⟨t, i⟩ = m.entry ⟨t, i⟩ ∨ (m.entry ⟨t, i⟩).present = true ∧
      (∀ j ∈ (i :: path).getLast?, j ∈ slots) ∧
      D (.ofPath (i :: path)) (m.entry ⟨t, i⟩) (m'.entry ⟨t, i⟩)

theorem Edited.refl (plan : Plan) (slots : List TableIndex)
    (D : VirtualAddress → Entry → Entry → Prop) (m : Memory) : Edited plan slots D m m :=
  ⟨Memory.AgreeOn.refl _ _, fun _ _ _ => Or.inl rfl⟩

theorem Edited.entry_eq (h : Edited plan slots D m₀ m) {x : Place} (ht : plan t = some x)
    (hLength : x.path.length ≠ 3) (i : TableIndex) : m.entry ⟨t, i⟩ = m₀.entry ⟨t, i⟩ :=
  h.agree.entry (Plan.not_atDepth ht hLength)

theorem meets_untilStop {ι : Type} {P : Memory × κ → Prop} {f : ι → VisitM κ (Flow β)}
    {is : List ι} (h : ∀ i ∈ is, Meets P (f i) (fun _ => P) P) :
    Meets P (untilStop f is) (fun _ => P) P := by
  induction is with
  | nil => exact .pure fun _ hP => hP
  | cons i is ih =>
    refine (h i List.mem_cons_self).bind fun flow => ?_
    cases flow with
    | proceed => exact ih fun j hj => h j (List.mem_cons_of_mem i hj)
    | stop b => exact .pure fun _ hP => hP

section Traversal

variable {visitor : Visitor κ β} (hFits : plan.Fits kernel roots m₀) (hObeys : visitor.Obeys D)
  (hTrans : ∀ a e e' e'', D a e e' → D a e' e'' → D a e e'')

include hFits hTrans

theorem Edited.setEntry (h : Edited plan slots D m₀ m) (ht : plan t = some ⟨r, path⟩)
    (hLength : path.length = 3) {i : TableIndex} (hSlots : ∀ j ∈ (i :: path).getLast?, j ∈ slots)
    (hPresent : (m.entry ⟨t, i⟩).present = true) {e : Entry}
    (he : D (.ofPath (i :: path)) (m.entry ⟨t, i⟩) e) :
    Edited plan slots D m₀ (m.setEntry ⟨t, i⟩ e) := by
  have hHolds : m.holds t = true := by
    rw [h.agree.holds]
    exact hFits.holds ht
  refine ⟨h.agree.trans ((Memory.agreeOn_setEntry (s := ⟨t, i⟩) hHolds e).mono ?_), ?_⟩
  · rintro f hf rfl
    exact hf ⟨r, path, ht, hLength⟩
  · intro u r' q hu hq j
    rw [Memory.entry_setEntry (s := ⟨t, i⟩) hHolds]
    split
    next hSlot =>
      obtain ⟨rfl, rfl⟩ := Plan.slot_inj hSlot
      rw [ht] at hu
      obtain ⟨rfl, rfl⟩ : r = r' ∧ path = q := by simpa using hu
      -- Either the entry is visited for the first time, or the rule composes.
      rcases h.leaf ht hLength j with hSame | ⟨hOld, -, hRule⟩
      · rw [hSame] at hPresent he
        exact Or.inr ⟨hPresent, hSlots, he⟩
      · exact Or.inr ⟨hOld, hSlots, hTrans _ _ _ _ hRule he⟩
    next => exact h.leaf hu hq j

include hObeys

theorem meets_visitLeaf (ht : plan t = some ⟨r, path⟩) (hLength : path.length = 3) {i : TableIndex}
    (hSlots : ∀ j ∈ (i :: path).getLast?, j ∈ slots) :
    Meets (fun x => Edited plan slots D m₀ x.1 ∧ (x.1.entry ⟨t, i⟩).present = true)
      (visitLeaf visitor ⟨t, i⟩ (.ofPath (i :: path))) (fun _ x => Edited plan slots D m₀ x.1)
      (fun x => Edited plan slots D m₀ x.1) := by
  rintro ⟨m, k⟩ ⟨hEdited, hPresent⟩
  have hEnd := hObeys (.ofPath (i :: path)) (m.entry ⟨t, i⟩) (m.entry ⟨t, i⟩, k) rfl
  rw [visitLeaf]
  cases hVisit : visitor (.ofPath (i :: path)) (m.entry ⟨t, i⟩, k) with
  | ok flow x =>
    rw [hVisit] at hEnd
    exact hEdited.setEntry hFits hTrans ht hLength hSlots hPresent hEnd
  | error v x =>
    rw [hVisit] at hEnd
    exact hEdited.setEntry hFits hTrans ht hLength hSlots hPresent hEnd

/-- A traversal of a table of the plan edits leaf entries alone, as the rule allows. -/
theorem meets_visitTable (level : Level) {table : Frame} (ht : plan table = some ⟨r, path⟩)
    (hLength : path.length = level.depth) {here : List TableIndex}
    (hHere : ∀ i ∈ here, ∀ j ∈ (i :: path).getLast?, j ∈ slots) :
    Meets (fun x => Edited plan slots D m₀ x.1)
      (visitTable visitor level table (tableBits path) here) (fun _ x => Edited plan slots D m₀ x.1)
      (fun x => Edited plan slots D m₀ x.1) := by
  induction level using Level.descent generalizing table r path here with
  | leaf =>
    rw [visitTable_pt]
    refine Meets.query.bind fun _ => (meets_untilStop fun i hi => ?_).of_imp fun _ h => h.1
    refine Meets.query.bind fun o => ?_
    cases o with
    | none => exact .pure fun _ h => h.1
    | some next =>
      rw [← tableBits_cons hLength]
      refine (meets_visitLeaf hFits hObeys hTrans ht hLength (hHere i hi)).of_imp fun x h => ⟨h.1, ?_⟩
      exact (Entry.target_eq_some.1 h.2).1
  | inner level below hNext ih =>
    have hDepth := Level.depth_of_next? hNext
    have hShort := below.depth_lt
    rw [visitTable_next _ _ _ _ hNext]
    refine Meets.query.bind fun _ => (meets_untilStop fun i hi => ?_).of_imp fun _ h => h.1
    refine Meets.query.bind fun o => ?_
    cases o with
    | none => exact .pure fun _ h => h.1
    | some next =>
      rw [← tableBits_cons hLength]
      rintro ⟨m, k⟩ ⟨hEdited, hTarget⟩
      -- The entry is the one that the plan knows, so the next table is one of the plan, too.
      have hTarget : (m.entry ⟨table, i⟩).target = .ok (some next) := hTarget
      rw [hEdited.entry_eq ht (show path.length ≠ 3 by omega)] at hTarget
      obtain ⟨r', hPlace⟩ := hFits.exists_place_of_target ht (by omega) hTarget
      have hBelow := ih hPlace (by rw [List.length_cons]; omega) fun j (_ : j ∈ TableIndex.all) l hl =>
        hHere i hi l (by rwa [List.getLast?_cons_cons] at hl)
      exact hBelow (m, k) hEdited

end Traversal

/-- A traversal leaves the machine with leaf entries edited, and with nothing else changed. -/
theorem edited_run {visitor : Visitor κ β} {x : Machine} (hFits : plan.Fits kernel roots x.memory)
    (hObeys : visitor.Obeys D) (hTrans : ∀ a e e' e'', D a e e' → D a e' e'' → D a e e'')
    (hr : plan r = some ⟨r, []⟩) (slots : List TableIndex) (k : κ) :
    ∃ m, Edited plan slots D x.memory m ∧
      ((∃ o, Leaves.run visitor r slots k x = .ok o { x with memory := m }) ∨
        ∃ v, Leaves.run visitor r slots k x = .error v { x with memory := m }) := by
  have hHere : ∀ i ∈ slots, ∀ j ∈ [i].getLast?, j ∈ slots := fun i hi j hj => Option.some.inj hj ▸ hi
  have hEnd := meets_visitTable hFits hObeys hTrans .pml4 hr rfl hHere (x.memory, k) (.refl _ _ _ _)
  rw [Leaves.run]
  simp only [MachineM.onMemory]
  cases hVisit : visitTable visitor .pml4 r (tableBits []) slots (x.memory, k) with
  | ok flow y =>
    rw [hVisit] at hEnd
    refine ⟨y.1, hEnd, Or.inl ⟨(flow, y.2), ?_⟩⟩
    rw [show (0 : UInt64) = tableBits [] from rfl, hVisit]
  | error v y =>
    rw [hVisit] at hEnd
    refine ⟨y.1, hEnd, Or.inr ⟨v, ?_⟩⟩
    rw [show (0 : UInt64) = tableBits [] from rfl, hVisit]

end Leaves

/-! ## Two visitors -/

def Visitor.mark (f : Entry.Field) (on : Bool) : Visitor κ β :=
  fun _ (e, k) => .ok .proceed (e.putFlag f on, k)

theorem Visitor.obeys_mark {f : Entry.Field} {on : Bool} (h : ∀ a e, D a e (e.putFlag f on)) :
    (Visitor.mark (κ := κ) (β := β) f on).Obeys D := by
  rintro a _ ⟨e, k⟩ rfl
  exact h a e

def Visitor.collect : Visitor (List (VirtualAddress × Entry)) β :=
  fun a (e, seen) => .ok .proceed (e, seen ++ [(a, e)])

/-- The present leaves at and below an entry at a level, whose path ends in the entry itself. -/
def Memory.leavesBehind (m : Memory) (level : Level) (e : Entry) (path : List TableIndex) :
    List (VirtualAddress × Entry) :=
  match e.target with
  | .ok (some next) =>
    match _h : level.next? with
    | some below => TableIndex.all.flatMap fun i => m.leavesBehind below (m.entry ⟨next, i⟩) (i :: path)
    | none => [(.ofPath path, e)]
  | _ => []
termination_by level.height
decreasing_by exact Level.height_lt_of_next? (by assumption)

namespace Memory

variable {level below : Level} {e : Entry}

theorem leavesBehind_none (h : e.target = .ok none) : m.leavesBehind level e path = [] := by
  rw [leavesBehind, h]

theorem leavesBehind_leaf (h : e.target = .ok (some t)) :
    m.leavesBehind .pt e path = [(.ofPath path, e)] := by
  rw [leavesBehind, h]
  rfl

theorem leavesBehind_next (hNext : level.next? = some below) (h : e.target = .ok (some t)) :
    m.leavesBehind level e path =
      TableIndex.all.flatMap fun i => m.leavesBehind below (m.entry ⟨t, i⟩) (i :: path) := by
  rw [leavesBehind, h]
  cases level <;> cases hNext <;> rfl

/-- There are leaves behind an entry only if it points somewhere. -/
theorem exists_target_of_mem {x : VirtualAddress × Entry} (hx : x ∈ m.leavesBehind level e path) :
    ∃ t, e.target = .ok (some t) := by
  rw [leavesBehind] at hx
  split at hx
  next t hTarget => exact ⟨t, hTarget⟩
  next => cases hx

/-- The leaves behind an entry have addresses whose paths begin with that of the entry. -/
theorem exists_path_of_mem (hLength : path.length = level.depth + 1) {x : VirtualAddress × Entry}
    (hx : x ∈ m.leavesBehind level e path) :
    ∃ q : List TableIndex, q.length = 4 ∧ q.getLast? = path.getLast? ∧ x.1 = .ofPath q := by
  induction level using Level.descent generalizing e path with
  | leaf =>
    obtain ⟨t, hTarget⟩ := exists_target_of_mem hx
    rw [leavesBehind_leaf hTarget, List.mem_singleton] at hx
    exact ⟨path, hLength, rfl, by rw [hx]⟩
  | inner level below hNext ih =>
    obtain ⟨t, hTarget⟩ := exists_target_of_mem hx
    rw [leavesBehind_next hNext hTarget] at hx
    obtain ⟨i, -, hx⟩ := List.mem_flatMap.1 hx
    have hDepth := Level.depth_of_next? hNext
    have hLast : (i :: path).getLast? = path.getLast? := by
      obtain ⟨j, q, rfl⟩ := List.exists_cons_of_length_eq_add_one hLength
      rw [List.getLast?_cons_cons]
    rw [← hLast]
    exact ih (by rw [List.length_cons]; omega) hx

end Memory

namespace Leaves

theorem query_ok {α : Type} {f : Memory × κ → Checked α} {k : κ} {c : α} (h : f (m, k) = .ok c) :
    query f (m, k) = .ok c (m, k) := by
  rw [query, h]

end Leaves

end PagedKernel
