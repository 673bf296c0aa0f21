import PagedKernel.Proofs.AddressSpace.VisitOrder

/-!
# Editing leaves in turn

When every table of a tree is reached in one way, no leaf is visited twice, and no leaf is an entry that
the traversal descends by. Then a visitor may do to the leaves whatever it wants and stop at any of them:
it is called on the leaves that there were, in turn, and memory changes in their entries alone.

* `Visitor.Sees`: what a visitor does when it is called on one entry after another.
* `Memory.Stored`: memory changes in some slots alone.
* `Leaves.InTurn`: a visitor is called on leaves in turn, and what it leaves in them is stored.
* `Memory.Unshared`, `Leaves.run_inTurn`: so it is when a tree shares no table.
-/

namespace PagedKernel

open Stateful

variable {κ β : Type} {visitor : Visitor κ β} {m₀ m m' : Memory} {root t : Frame} {slot : Slot} {e : Entry}
  {slots : List Slot} {left : List Entry} {k k' : κ} {path path' here : List TableIndex}
  {leaves l : List (VirtualAddress × Slot)} {x : VirtualAddress × Slot}

/-- The visitor is called on one entry after another until it stops, and `left` is what it leaves in the
entries that it has seen. -/
inductive Visitor.Sees (visitor : Visitor κ β) : List (VirtualAddress × Entry) → κ → List Entry →
    Except Violation (Flow β) → κ → Prop
  | all (k : κ) : Sees visitor [] k [] (.ok .proceed) k
  | proceed {a : VirtualAddress} {e e' : Entry} {k k₁ k' : κ} {more : List (VirtualAddress × Entry)}
      {left : List Entry} {o : Except Violation (Flow β)}
      (hVisit : visitor a (e, k) = .ok .proceed (e', k₁)) (hMore : Sees visitor more k₁ left o k') :
      Sees visitor ((a, e) :: more) k (e' :: left) o k'
  | stop {a : VirtualAddress} {e e' : Entry} {k k' : κ} {b : β}
      (hVisit : visitor a (e, k) = .ok (.stop b) (e', k')) :
      Sees visitor [(a, e)] k [e'] (.ok (.stop b)) k'
  | violation {a : VirtualAddress} {e e' : Entry} {k k' : κ} {v : Violation}
      (hVisit : visitor a (e, k) = .error v (e', k')) : Sees visitor [(a, e)] k [e'] (.error v) k'

/-- Of all bytes only those of the slots have changed, and the slots have the entries `left`. -/
structure Memory.Stored (m m' : Memory) (slots : List Slot) (left : List Entry) : Prop where
  frames_eq : m'.frames = m.frames
  left_eq : slots.map m'.entry = left
  byte_eq (j : Nat) : (∀ s ∈ slots, j < s.address ∨ s.address + 8 ≤ j) → m'.byte j = m.byte j

namespace Memory.Stored

theorem refl (m : Memory) : m.Stored m [] [] := ⟨rfl, rfl, fun _ _ => rfl⟩

theorem entry_eq (h : m.Stored m' slots left) (hOther : slot ∉ slots) : m'.entry slot = m.entry slot := by
  have hWord : m'.word slot.address = m.word slot.address := by
    refine ofBytes_congr fun k hk => h.byte_eq _ fun s hs => ?_
    have hNe : slot ≠ s := fun hEq => hOther (hEq ▸ hs)
    have hApart := Slot.address_disjoint hNe
    omega
  rw [Memory.entry, Memory.entry, hWord]

theorem cons (hHolds : m.holds slot.table = true) (hNew : slot ∉ slots)
    (h : (m.setEntry slot e).Stored m' slots left) : m.Stored m' (slot :: slots) (e :: left) where
  frames_eq := by rw [h.frames_eq, frames_setEntry]
  left_eq := by rw [List.map_cons, h.left_eq, h.entry_eq hNew, entry_setEntry hHolds, if_pos rfl]
  byte_eq j hj := by
    obtain ⟨hHere, hRest⟩ := List.forall_mem_cons.1 hj
    rw [h.byte_eq j hRest, byte_setEntry hHolds e hHere]

end Memory.Stored

namespace Leaves

/-- The visitor is called on the leaves `seen`, a first part of those that there are, or all of them if it
does not stop. It sees the entries as they are in `m`, and `m'` has what it leaves in them. -/
structure InTurn (visitor : Visitor κ β) (leaves seen : List (VirtualAddress × Slot)) (m : Memory) (k : κ)
    (left : List Entry) (o : Except Violation (Flow β)) (m' : Memory) (k' : κ) : Prop where
  first : seen <+: leaves
  all : o = .ok .proceed → seen = leaves
  sees : visitor.Sees (seen.map fun x => (x.1, m.entry x.2)) k left o k'
  stored : m.Stored m' (seen.map (·.2)) left

def ending {σ α : Type} (o : Except Violation α) (s : σ) : EStateM.Result Violation σ α :=
  match o with
  | .ok a => .ok a s
  | .error v => .error v s

/-- Leaves at different slots are visited in turn, as they were when the first one was visited. -/
theorem visitSlots_inTurn (visitor : Visitor κ β) (hApart : (leaves.map (·.2)).Nodup)
    (hHolds : ∀ x ∈ leaves, m.holds x.2.table = true) (k : κ) :
    ∃ seen left o m' k', InTurn visitor leaves seen m k left o m' k' ∧
      visitSlots visitor leaves (m, k) = ending o (m', k') := by
  induction leaves generalizing m k with
  | nil => exact ⟨[], [], .ok .proceed, m, k, ⟨List.nil_prefix, fun _ => rfl, .all k, .refl m⟩, rfl⟩
  | cons x leaves ih =>
    obtain ⟨a, slot⟩ := x
    obtain ⟨hNew, hApart⟩ : slot ∉ leaves.map (·.2) ∧ (leaves.map (·.2)).Nodup := List.nodup_cons.1 hApart
    have hHere : m.holds slot.table = true := hHolds (a, slot) List.mem_cons_self
    have hOne : ∀ e, m.Stored (m.setEntry slot e) [slot] [e] :=
      fun e => .cons hHere List.not_mem_nil (.refl _)
    cases hVisit : visitor a (m.entry slot, k) with
    | error v s =>
      obtain ⟨e, k'⟩ := s
      have hLeaf : visitLeaf visitor slot a (m, k) = .error v (m.setEntry slot e, k') := by
        rw [visitLeaf, hVisit]
      refine ⟨[(a, slot)], [e], .error v, m.setEntry slot e, k',
        ⟨⟨leaves, rfl⟩, ?_, .violation hVisit, hOne e⟩, bind_error hLeaf⟩
      intro hAll
      cases hAll
    | ok flow s =>
      obtain ⟨e, k₁⟩ := s
      have hLeaf : visitLeaf visitor slot a (m, k) = .ok flow (m.setEntry slot e, k₁) := by
        rw [visitLeaf, hVisit]
      rw [visitSlots, untilStop, bind_ok hLeaf]
      cases flow with
      | stop b =>
        refine ⟨[(a, slot)], [e], .ok (.stop b), m.setEntry slot e, k₁,
          ⟨⟨leaves, rfl⟩, ?_, .stop hVisit, hOne e⟩, rfl⟩
        intro hAll
        cases hAll
      | proceed =>
        obtain ⟨seen, left, o, m', k', hTurn, hRun⟩ := @ih (m.setEntry slot e) hApart
          (fun y hy => by simpa using hHolds y (List.mem_cons_of_mem _ hy)) k₁
        have hAhead : ∀ y ∈ seen, y.2 ≠ slot := by
          rintro y hy rfl
          exact hNew (List.mem_map_of_mem (hTurn.first.subset hy))
        -- The entries that are seen later are those of before, since their slots are others.
        have hSame : (seen.map fun y => (y.1, (m.setEntry slot e).entry y.2)) =
            seen.map fun y => (y.1, m.entry y.2) := by
          refine List.map_congr_left fun y hy => ?_
          rw [Memory.entry_setEntry hHere, if_neg (hAhead y hy)]
        have hSees := hTurn.sees
        rw [hSame] at hSees
        refine ⟨(a, slot) :: seen, e :: left, o, m', k', ⟨?_, ?_, .proceed hVisit hSees, ?_⟩, hRun⟩
        · exact List.cons_prefix_cons.2 ⟨rfl, hTurn.first⟩
        · intro hAll
          rw [hTurn.all hAll]
        · refine .cons hHere ?_ hTurn.stored
          rw [List.mem_map]
          rintro ⟨y, hy, hEq⟩
          exact hAhead y hy hEq

end Leaves

/-- Every table of the tree is reached in one way. -/
def Memory.Unshared (m : Memory) (root : Frame) : Prop :=
  ∀ (path path' : List TableIndex) (t : Frame), m.Leads root path t → m.Leads root path' t →
    path.length < 4 → path'.length < 4 → path = path'

namespace Memory.Unshared

theorem isLeaf (h : m.Unshared root) (hx : x ∈ m.leafSlots root) (ht : m.Leads root path x.2.table)
    (hLength : path.length < 4) : m.IsLeaf root path x.2 ∧ x.1 = .ofPath (x.2.index :: path) := by
  obtain ⟨q, hLeaf, hAddress⟩ := mem_leafSlots_iff.1 hx
  have hq := hLeaf.length_eq
  obtain rfl := h q path _ hLeaf.leads ht (by omega) hLength
  exact ⟨hLeaf, hAddress⟩

theorem nodup_leafSlots (h : m.Unshared root) : ((m.leafSlots root).map (·.2)).Nodup := by
  refine List.pairwise_map.2 ((m.pairwise_leafSlots root).imp_of_mem fun {x y} hx hy hLt hEq => ?_)
  obtain ⟨q, hLeaf, hAddress⟩ := mem_leafSlots_iff.1 hx
  have hq := hLeaf.length_eq
  obtain ⟨-, hAddress'⟩ := h.isLeaf hy (hEq ▸ hLeaf.leads) (by omega)
  rw [hAddress, hAddress', hEq] at hLt
  exact UInt64.lt_irrefl _ hLt

end Memory.Unshared

namespace Leaves

/-- What has been done to the leaves behind spares those ahead. -/
theorem ahead_of_unshared (hRegular : m.Regular root) (hTree : m.Unshared root)
    (hApart : (leaves.map (·.2)).Nodup) (hPart : leaves ⊆ m.leafSlots root) (visitor : Visitor κ β) :
    Ahead m root visitor fun l s => s.1.frames = m.frames ∧ ∃ behind, behind ++ l = leaves ∧
      ∀ slot ∉ behind.map (·.2), s.1.entry slot = m.entry slot where
  frames_eq h := h.1
  kept {l m' k path t i} h ht hLength hOther := by
    obtain ⟨-, behind, rfl, hEntry⟩ := h
    refine hEntry _ fun hMem => hOther ?_
    obtain ⟨x, hx, hSlot⟩ := List.mem_map.1 hMem
    have hTable : m.Leads root path x.2.table := by rwa [hSlot]
    have hLeaf := (hTree.isLeaf (hPart (List.mem_append_left l hx)) hTable hLength).1
    rwa [hSlot] at hLeaf
  next {a slot l m' k} h := by
    obtain ⟨-, behind, rfl, hEntry⟩ := h
    rw [List.map_append, List.map_cons] at hApart
    exact hEntry slot fun hMem => List.disjoint_of_nodup_append hApart hMem List.mem_cons_self
  step {x l s s'} h hVisit := by
    obtain ⟨m₁, k₁⟩ := s
    obtain ⟨hFrames, behind, rfl, hEntry⟩ := h
    have hHolds : m₁.holds x.2.table = true := by
      obtain ⟨q, hLeaf, -⟩ := Memory.mem_leafSlots_iff.1
        (hPart (List.mem_append_right behind List.mem_cons_self))
      rw [Memory.holds, hFrames]
      exact hRegular.holds hLeaf.leads (by rw [hLeaf.length_eq]; omega)
    obtain ⟨e, k₂, hEnd⟩ : ∃ e k₂, s' = (m₁.setEntry x.2 e, k₂) := by
      rw [visitLeaf] at hVisit
      split at hVisit
      next => cases hVisit; exact ⟨_, _, rfl⟩
      next => cases hVisit
    rw [hEnd]
    refine ⟨by rw [Memory.frames_setEntry, hFrames], behind ++ [x], by simp, fun slot hOther => ?_⟩
    rw [List.map_append, List.mem_append, not_or] at hOther
    have hNe : slot ≠ x.2 := fun hEq => hOther.2 (by simp [hEq])
    rw [Memory.entry_setEntry hHolds, if_neg hNe, hEntry slot hOther.1]

/-- A traversal of a tree that shares no table visits its leaves in turn. -/
theorem run_inTurn {s : Machine} (hRegular : s.memory.Regular root) (hTree : s.memory.Unshared root)
    (hLeaves : s.memory.slotsBelow .pml4 root [] here = leaves)
    (hPart : leaves.Sublist (s.memory.leafSlots root)) (visitor : Visitor κ β) (k : κ) :
    ∃ seen left o m' k', InTurn visitor leaves seen s.memory k left o m' k' ∧
      Leaves.run visitor root here k s =
        ending (o.map fun flow => (flow, k')) { s with memory := m' } := by
  have hSlots := hPart.map fun x => x.2
  have hApart := List.Nodup.sublist hSlots hTree.nodup_leafSlots
  have hHolds := hRegular.holds_of_mem here
  rw [hLeaves] at hHolds
  obtain ⟨seen, left, o, m', k', hTurn, hVisit⟩ := visitSlots_inTurn visitor hApart hHolds k
  refine ⟨seen, left, o, m', k', hTurn, ?_⟩
  have hAhead := ahead_of_unshared hRegular hTree hApart hPart.subset visitor
  rw [hAhead.run_eq hRegular here ⟨rfl, [], (List.nil_append _).trans hLeaves, fun _ _ => rfl⟩, hLeaves,
    hVisit]
  cases o <;> rfl

end Leaves

end PagedKernel
