import PagedKernel.Proofs.AddressSpace.LeafSlots
import PagedKernel.Proofs.AddressSpace.Visits

/-!
# One leaf after another

A traversal descends through the tables while its visitor changes memory. As long as the visitor spares
whatever leads to the leaves that are still ahead, the traversal comes to the leaves that the tree had
when it began, one after another.

* `Leaves.visitSlots`: leaves are visited one after another.
* `Leaves.Ahead`: what the leaves ahead are spared.
* `Leaves.Ahead.run_eq`: the traversal of a tree visits the leaves of the list.
* `Visitor.observe`, `Leaves.run_observe`: visitors that look at every leaf, and change none.
* `Leaves.run_collect`: what `Visitor.collect` comes to.
-/

namespace PagedKernel

open Stateful

variable {κ β : Type} {visitor : Visitor κ β} {m₀ m m' : Memory} {root t : Frame} {level : Level}
  {path : List TableIndex} {slot : Slot} {k k' : κ}

namespace Leaves

section UntilStop

variable {ι γ : Type} {f : ι → VisitM κ (Flow β)} {v : γ → VisitM κ (Flow β)}

theorem untilStop_singleton (f : ι → VisitM κ (Flow β)) (i : ι) : untilStop f [i] = f i := by
  rw [untilStop]
  conv_rhs => rw [← bind_pure (f i)]
  congr 1
  funext flow
  cases flow <;> rfl

theorem untilStop_append (f : ι → VisitM κ (Flow β)) (is js : List ι) :
    untilStop f (is ++ js) =
      untilStop f is >>= fun
        | .proceed => untilStop f js
        | .stop b => pure (.stop b) := by
  induction is with
  | nil => rfl
  | cons i is ih =>
    rw [List.cons_append, untilStop, untilStop, bind_assoc]
    congr 1
    funext flow
    cases flow with
    | proceed => exact ih
    | stop b => rfl

variable {g : ι → List γ} {Rest : List γ → Memory × κ → Prop}

theorem rest_of_proceed (hStep : ∀ {y l s s'}, Rest (y :: l) s → v y s = .ok .proceed s' → Rest l s')
    {l₁ l₂ : List γ} {s s' : Memory × κ} (hRest : Rest (l₁ ++ l₂) s)
    (hRun : untilStop v l₁ s = .ok .proceed s') : Rest l₂ s' := by
  induction l₁ generalizing s with
  | nil =>
    cases hRun
    exact hRest
  | cons y l₁ ih =>
    obtain ⟨flow, s₁, hFirst, hThen⟩ := ok_of_bind hRun
    cases flow with
    | proceed => exact ih (hStep hRest hFirst) hThen
    | stop b => cases hThen

/-- Things that come to going through a list each come to going through all the lists in turn. -/
theorem untilStop_flatMap (hStep : ∀ {y l s s'}, Rest (y :: l) s → v y s = .ok .proceed s' → Rest l s')
    (hEach : ∀ {i l s}, Rest (g i ++ l) s → f i s = untilStop v (g i) s) (is : List ι) {l : List γ}
    {s : Memory × κ} (hRest : Rest (is.flatMap g ++ l) s) :
    untilStop f is s = untilStop v (is.flatMap g) s := by
  induction is generalizing s with
  | nil => rfl
  | cons i is ih =>
    rw [List.flatMap_cons, List.append_assoc] at hRest
    rw [List.flatMap_cons, untilStop_append, untilStop]
    have hHead := hEach hRest
    cases hRun : untilStop v (g i) s with
    | error e s' => rw [bind_error hRun, bind_error (hHead.trans hRun)]
    | ok flow s' =>
      rw [bind_ok hRun, bind_ok (hHead.trans hRun)]
      cases flow with
      | proceed => exact ih (rest_of_proceed hStep hRest hRun)
      | stop b => rfl

end UntilStop

def visitSlots (visitor : Visitor κ β) : List (VirtualAddress × Slot) → VisitM κ (Flow β) :=
  untilStop fun x => visitLeaf visitor x.2 x.1

/-- As long as the leaves of a list are ahead, memory has them as it had them first, and all entries that
are no leaves. -/
structure Ahead (m₀ : Memory) (root : Frame) (visitor : Visitor κ β)
    (Rest : List (VirtualAddress × Slot) → Memory × κ → Prop) : Prop where
  frames_eq {l : List (VirtualAddress × Slot)} {m : Memory} {k : κ} : Rest l (m, k) →
    m.frames = m₀.frames
  kept {l : List (VirtualAddress × Slot)} {m : Memory} {k : κ} {path : List TableIndex} {t : Frame}
    {i : TableIndex} : Rest l (m, k) → m₀.Leads root path t → path.length < 4 →
      ¬ m₀.IsLeaf root path ⟨t, i⟩ → m.entry ⟨t, i⟩ = m₀.entry ⟨t, i⟩
  next {a : VirtualAddress} {slot : Slot} {l : List (VirtualAddress × Slot)} {m : Memory} {k : κ} :
    Rest ((a, slot) :: l) (m, k) → m.entry slot = m₀.entry slot
  step {x : VirtualAddress × Slot} {l : List (VirtualAddress × Slot)} {s s' : Memory × κ} :
    Rest (x :: l) s → visitLeaf visitor x.2 x.1 s = .ok .proceed s' → Rest l s'

namespace Ahead

variable {Rest : List (VirtualAddress × Slot) → Memory × κ → Prop} {l : List (VirtualAddress × Slot)}
  (h : Ahead m₀ root visitor Rest)

include h

theorem entry_eq (ht : m₀.Leads root path t) (hLength : path.length = level.depth) {i : TableIndex}
    (hRest : Rest (m₀.slotsBehind level ⟨t, i⟩ (i :: path) ++ l) (m, k)) :
    m.entry ⟨t, i⟩ = m₀.entry ⟨t, i⟩ := by
  by_cases hLeaf : m₀.IsLeaf root path ⟨t, i⟩
  · obtain ⟨-, hThree, f, hTarget⟩ := hLeaf
    obtain rfl : level = .pt := Level.depth_inj (hLength.symm.trans hThree)
    rw [Memory.slotsBehind_leaf hTarget] at hRest
    exact h.next hRest
  · exact h.kept hRest ht (hLength ▸ level.depth_lt) hLeaf

theorem visitEntry_eq (hRegular : m₀.Regular root) (ht : m₀.Leads root path t)
    (hLength : path.length = level.depth) {i : TableIndex}
    (hRest : Rest (m₀.slotsBehind level ⟨t, i⟩ (i :: path) ++ l) (m, k))
    {visit : Frame → VisitM κ (Flow β)}
    (hVisit : ∀ next, (m₀.entry ⟨t, i⟩).target = .ok (some next) → visit next (m, k) =
      visitSlots visitor (m₀.slotsBehind level ⟨t, i⟩ (i :: path)) (m, k)) :
    (query (fun (m, _) => (m.entry ⟨t, i⟩).target) >>= fun
      | none => return .proceed
      | some next => visit next) (m, k) =
        visitSlots visitor (m₀.slotsBehind level ⟨t, i⟩ (i :: path)) (m, k) := by
  obtain ⟨o, hTarget⟩ := hRegular.exists_target ht (hLength ▸ level.depth_lt) i
  have hSame : (m.entry ⟨t, i⟩).target = .ok o := by rw [h.entry_eq ht hLength hRest, hTarget]
  rw [bind_ok (query_ok hSame)]
  cases o with
  | none =>
    rw [Memory.slotsBehind_of_no_target fun f hf => by rw [hTarget] at hf; cases hf]
    rfl
  | some next => exact hVisit next hTarget

/-- The traversal of a table visits the leaves below it. -/
theorem visitTable_eq (hRegular : m₀.Regular root) (level : Level) (ht : m₀.Leads root path t)
    (hLength : path.length = level.depth) (here : List TableIndex)
    (hRest : Rest (m₀.slotsBelow level t path here ++ l) (m, k)) :
    visitTable visitor level t (tableBits path) here (m, k) =
      visitSlots visitor (m₀.slotsBelow level t path here) (m, k) := by
  have hHolds : m.holds t = true := by
    rw [Memory.holds, h.frames_eq hRest]
    exact hRegular.holds ht (hLength ▸ level.depth_lt)
  induction level using Level.descent generalizing t path here l m k with
  | leaf =>
    rw [visitTable_pt, bind_ok (query_ok (Memory.requireTable_of_holds hHolds))]
    refine untilStop_flatMap h.step (fun {i l s} hRest => ?_) here hRest
    refine h.visitEntry_eq hRegular ht hLength hRest fun next hTarget => ?_
    rw [Memory.slotsBehind_leaf hTarget, visitSlots, untilStop_singleton, ← tableBits_cons hLength]
    rfl
  | inner level below hNext ih =>
    have hDepth := Level.depth_of_next? hNext
    have hShort := below.depth_lt
    rw [visitTable_next _ _ _ _ hNext, bind_ok (query_ok (Memory.requireTable_of_holds hHolds))]
    refine untilStop_flatMap h.step (fun {i l s} hRest => ?_) here hRest
    refine h.visitEntry_eq hRegular ht hLength hRest fun next hTarget => ?_
    have hBelow : m₀.Leads root (i :: path) next := .entry ht (by omega) hTarget
    have hLonger : (i :: path).length = below.depth := by
      rw [List.length_cons]
      omega
    have hHoldsNext : s.1.holds next = true := by
      rw [Memory.holds, h.frames_eq hRest]
      exact hRegular.holds hBelow (hLonger ▸ hShort)
    rw [Memory.slotsBehind_next hNext hTarget] at hRest ⊢
    have hVisit := ih hBelow hLonger TableIndex.all hRest hHoldsNext
    rw [← tableBits_cons hLength]
    exact hVisit

/-- The traversal of a tree visits the leaves below the entries where it starts. -/
theorem run_eq (hRegular : m₀.Regular root) (slots : List TableIndex) {x : Machine}
    (hRest : Rest (m₀.slotsBelow .pml4 root [] slots) (x.memory, k)) :
    Leaves.run visitor root slots k x =
      match visitSlots visitor (m₀.slotsBelow .pml4 root [] slots) (x.memory, k) with
      | .ok flow (m, k) => .ok (flow, k) { x with memory := m }
      | .error v (m, _) => .error v { x with memory := m } := by
  rw [← List.append_nil (m₀.slotsBelow _ _ _ _)] at hRest
  have hVisit := h.visitTable_eq hRegular .pml4 .root rfl slots hRest
  rw [Leaves.run]
  simp only [MachineM.onMemory]
  rw [show (0 : UInt64) = tableBits [] from rfl, hVisit]
  cases visitSlots visitor (m₀.slotsBelow .pml4 root [] slots) (x.memory, k) <;> rfl

end Ahead

end Leaves

/-! ## Visitors that look at every leaf -/

/-- The visitor that leaves every entry as it is, and carries on what `f` makes of the leaf. -/
def Visitor.observe (f : VirtualAddress → Entry → κ → κ) : Visitor κ β :=
  fun a (e, k) => .ok .proceed (e, f a e k)

namespace Memory

theorem leavesBehind_eq_map : m.leavesBehind level (m.entry slot) path =
    (m.slotsBehind level slot path).map fun x => (x.1, m.entry x.2) := by
  induction level using Level.descent generalizing slot path with
  | leaf =>
    by_cases hTarget : ∃ f, (m.entry slot).target = .ok (some f)
    · obtain ⟨f, hTarget⟩ := hTarget
      rw [leavesBehind_leaf hTarget, slotsBehind_leaf hTarget]
      rfl
    · rw [slotsBehind_of_no_target (not_exists.1 hTarget)]
      exact List.eq_nil_iff_forall_not_mem.2 fun x hx => hTarget (exists_target_of_mem hx)
  | inner level below hNext ih =>
    by_cases hTarget : ∃ f, (m.entry slot).target = .ok (some f)
    · obtain ⟨f, hTarget⟩ := hTarget
      rw [leavesBehind_next hNext hTarget, slotsBehind_next hNext hTarget, slotsBelow, List.map_flatMap]
      simp only [ih]
    · rw [slotsBehind_of_no_target (not_exists.1 hTarget)]
      exact List.eq_nil_iff_forall_not_mem.2 fun x hx => hTarget (exists_target_of_mem hx)

theorem Regular.holds_of_mem (h : m.Regular root) (here : List TableIndex) :
    ∀ x ∈ m.slotsBelow .pml4 root [] here, m.holds x.2.table = true := by
  intro x hx
  obtain ⟨i, -, hx⟩ := List.mem_flatMap.1 hx
  obtain ⟨q, hLeaf, -, -⟩ := (mem_slotsBehind .root rfl).1 hx
  exact h.holds hLeaf.leads (by rw [hLeaf.length_eq]; omega)

end Memory

namespace Leaves

variable {f : VirtualAddress → Entry → κ → κ}

theorem visitLeaf_observe (hHolds : m.holds slot.table = true) (a : VirtualAddress) :
    visitLeaf (Visitor.observe (β := β) f) slot a (m, k) = .ok .proceed (m, f a (m.entry slot) k) := by
  show EStateM.Result.ok Flow.proceed (m.setEntry slot (m.entry slot), _) = _
  rw [Memory.setEntry_self hHolds]

theorem visitSlots_observe {l : List (VirtualAddress × Slot)} (hHolds : ∀ x ∈ l, m.holds x.2.table = true) :
    visitSlots (Visitor.observe (β := β) f) l (m, k) =
      .ok .proceed (m, l.foldl (fun k x => f x.1 (m.entry x.2) k) k) := by
  induction l generalizing k with
  | nil => rfl
  | cons x l ih =>
    have hFirst := visitLeaf_observe (β := β) (f := f) (k := k) (hHolds x List.mem_cons_self) x.1
    rw [visitSlots, untilStop, bind_ok hFirst]
    exact ih fun y hy => hHolds y (List.mem_cons_of_mem x hy)

/-- Such a visitor sees all leaves, and the machine stays as it is. -/
theorem run_observe {x : Machine} (hRegular : x.memory.Regular root) (slots : List TableIndex) (k : κ) :
    Leaves.run (Visitor.observe (β := β) f) root slots k x = .ok (.proceed, List.foldl
      (fun k y => f y.1 (x.memory.entry y.2) k) k (x.memory.slotsBelow .pml4 root [] slots)) x := by
  have hAhead : Ahead x.memory root (Visitor.observe (β := β) f) fun l s =>
      s.1 = x.memory ∧ ∀ y ∈ l, x.memory.holds y.2.table = true := by
    refine ⟨fun h => h.1 ▸ rfl, fun h _ _ _ => h.1 ▸ rfl, fun h => h.1 ▸ rfl, ?_⟩
    rintro y l ⟨m, k⟩ s' ⟨rfl, hHolds⟩ hVisit
    rw [visitLeaf_observe (hHolds y List.mem_cons_self)] at hVisit
    cases hVisit
    exact ⟨rfl, fun z hz => hHolds z (List.mem_cons_of_mem y hz)⟩
  have hHolds := hRegular.holds_of_mem slots
  rw [hAhead.run_eq hRegular slots ⟨rfl, hHolds⟩, visitSlots_observe hHolds]

/-- The visitor that notes what it sees comes to the list of leaves. -/
theorem run_collect {x : Machine} (hRegular : x.memory.Regular root) (slots : List TableIndex) :
    Leaves.run (Visitor.collect (β := β)) root slots [] x = .ok (.proceed, slots.flatMap fun i =>
      x.memory.leavesBehind .pml4 (x.memory.entry ⟨root, i⟩) [i]) x := by
  have hRun := run_observe (β := β) (f := fun a e seen => seen ++ [(a, e)]) hRegular slots []
  rw [List.foldl_append_eq_append, List.nil_append, ← List.flatMap_def, ← List.map_eq_flatMap] at hRun
  simp only [Memory.leavesBehind_eq_map, ← List.map_flatMap]
  exact hRun

end Leaves

end PagedKernel
