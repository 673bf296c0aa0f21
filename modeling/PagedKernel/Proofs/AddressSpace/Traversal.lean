import PagedKernel.AddressSpace.Leaves
import PagedKernel.Proofs.Stateful.Coincidence
import PagedKernel.Proofs.Stateful.Simulation
import PagedKernel.Proofs.Walk.Descent

/-!
# Visitors that only look

A traversal stores what the visitor leaves in the entry, so a visitor that leaves the entry as it found
it makes the traversal leave memory as it was, wherever it ends. What the visitor sees is read off the
tables of the tree, so memories that have the same tables are not told apart.

* `Visitor.Reads`: the visitor leaves every entry as it is.
* `Leaves.SameTables`: the two memories have the same tables in a tree.
* `Leaves.run_coincide`: traversals of the two come to the same thing, and leave memory as it is.
* `Leaves.keeps_run`: so a traversal leaves the machine as it is.
-/

namespace PagedKernel

open Stateful

variable {κ β : Type} {visitor : Visitor κ β}

def Visitor.Reads (visitor : Visitor κ β) : Prop :=
  ∀ a e, Keeps (fun _ => True) (·.1 = e) (visitor a)

namespace Leaves

variable {m m' : Memory} {α : Type} {chart : Level → Frame → Prop}

/-- The tables that the chart names are the same in both memories, and the chart names all that they
point at. -/
structure SameTables (chart : Level → Frame → Prop) (m m' : Memory) : Prop where
  frames_eq : m'.frames = m.frames
  entry_eq {level : Level} {t : Frame} : chart level t → ∀ i, m'.entry ⟨t, i⟩ = m.entry ⟨t, i⟩
  below {level below : Level} {t next : Frame} {i : TableIndex} : chart level t →
    level.next? = some below → (m.entry ⟨t, i⟩).target = .ok (some next) → chart below next

abbrev Alike (m m' : Memory) (x : VisitM κ α) : Prop :=
  Simulates (fun _ => True) (fun p q => p.1 = m ∧ q.1 = m' ∧ q.2 = p.2) x x

theorem alike_query_bind {γ : Type} {c : Memory × κ → Checked γ} {g : γ → VisitM κ α}
    (hSame : ∀ k, c (m', k) = c (m, k)) (h : ∀ a k, c (m, k) = .ok a → Alike m m' (g a)) :
    Alike m m' (query c >>= g) := by
  rintro ⟨n, k⟩ ⟨n', k'⟩ ⟨hLeft, hRight, hCarried⟩
  obtain rfl : m = n := hLeft.symm
  obtain rfl : m' = n' := hRight.symm
  obtain rfl : k = k' := hCarried.symm
  cases hc : c (m, k) with
  | error v =>
    have hQuery : query c (m, k) = .error v (m, k) := by rw [query, hc]
    have hQuery' : query c (m', k) = .error v (m', k) := by rw [query, hSame, hc]
    rw [bind_error hQuery, bind_error hQuery']
    exact .error trivial ⟨rfl, rfl, rfl⟩
  | ok a =>
    have hQuery : query c (m, k) = .ok a (m, k) := by rw [query, hc]
    have hQuery' : query c (m', k) = .ok a (m', k) := by rw [query, hSame, hc]
    rw [bind_ok hQuery, bind_ok hQuery']
    exact h a k hc _ _ ⟨rfl, rfl, rfl⟩

theorem alike_untilStop {ι : Type} {f : ι → VisitM κ (Flow β)} (h : ∀ i, Alike m m' (f i))
    (is : List ι) : Alike m m' (untilStop f is) := by
  induction is with
  | nil => exact Simulates.pure _
  | cons i is ih =>
    refine Simulates.bind (h i) fun flow => ?_
    cases flow with
    | proceed => exact ih
    | stop b => exact Simulates.pure _

theorem alike_visitLeaf (h : visitor.Reads) (slot : Slot) (hHolds : m.holds slot.table = true)
    (hHolds' : m'.holds slot.table = true) (hEntry : m'.entry slot = m.entry slot) (a : VirtualAddress) :
    Alike m m' (visitLeaf visitor slot a) := by
  rintro ⟨n, k⟩ ⟨n', k'⟩ ⟨hLeft, hRight, hCarried⟩
  obtain rfl : m = n := hLeft.symm
  obtain rfl : m' = n' := hRight.symm
  obtain rfl : k = k' := hCarried.symm
  have hEnd := h a (m.entry slot) (m.entry slot, k) _ ⟨rfl, rfl⟩
  have hBack : m'.setEntry slot (m.entry slot) = m' := by
    rw [← hEntry]
    exact Memory.setEntry_self hHolds'
  simp only [visitLeaf, hEntry]
  generalize visitor a (m.entry slot, k) = out at hEnd
  cases hEnd with
  | @ok flow x _ hState =>
    obtain ⟨e, k'⟩ := x
    obtain rfl : e = m.entry slot := hState.2
    exact .ok flow ⟨Memory.setEntry_self hHolds, hBack, rfl⟩
  | @error v _ x _ hState =>
    obtain ⟨e, k'⟩ := x
    obtain rfl : e = m.entry slot := hState.2
    exact .error trivial ⟨Memory.setEntry_self hHolds, hBack, rfl⟩

theorem alike_visitTable (h : visitor.Reads) (hSame : SameTables chart m m') (level : Level)
    {table : Frame} (hTable : chart level table) (bits : UInt64) (slots : List TableIndex) :
    Alike m m' (visitTable visitor level table bits slots) := by
  have hRequire : ∀ t, m'.requireTable t = m.requireTable t := by
    intro t
    rw [Memory.requireTable, Memory.requireTable, Memory.requireObject, Memory.requireObject, Memory.holds,
      Memory.holds, hSame.frames_eq]
  induction level using Level.descent generalizing table bits slots with
  | leaf =>
    have hTarget : ∀ i, (m'.entry ⟨table, i⟩).target = (m.entry ⟨table, i⟩).target :=
      fun i => congrArg Entry.target (hSame.entry_eq hTable i)
    rw [visitTable_pt]
    refine alike_query_bind ?_ fun _ _ hOk => alike_untilStop (fun i => ?_) slots
    · exact fun _ => hRequire table
    have hHolds : m.holds table = true := Memory.holds_of_requireTable hOk
    have hHolds' : m'.holds table = true := by
      rw [Memory.holds, hSame.frames_eq]
      exact hHolds
    refine alike_query_bind ?_ fun o _ _ => ?_
    · exact fun _ => hTarget i
    cases o with
    | none => exact Simulates.pure _
    | some next => exact alike_visitLeaf h ⟨table, i⟩ hHolds hHolds' (hSame.entry_eq hTable i) _
  | inner level below hNext ih =>
    have hTarget : ∀ i, (m'.entry ⟨table, i⟩).target = (m.entry ⟨table, i⟩).target :=
      fun i => congrArg Entry.target (hSame.entry_eq hTable i)
    rw [visitTable_next _ _ _ _ hNext]
    refine alike_query_bind ?_ fun _ _ _ => alike_untilStop (fun i => ?_) slots
    · exact fun _ => hRequire table
    refine alike_query_bind ?_ fun o _ ho => ?_
    · exact fun _ => hTarget i
    cases o with
    | none => exact Simulates.pure _
    | some next => exact ih (hSame.below hTable hNext ho) _ _

/-- Traversals of a tree that two machines have in common come to the same thing, and leave memory as it
is. -/
theorem run_coincide (h : visitor.Reads) {s t : Machine} (hSame : SameTables chart s.memory t.memory)
    {root : Frame} (hRoot : chart .pml4 root) (slots : List TableIndex) (k : κ) :
    Coincide (fun _ s' t' => s' = s ∧ t' = t) (fun s' t' => s' = s ∧ t' = t)
      (Leaves.run visitor root slots k s) (Leaves.run visitor root slots k t) := by
  have hEnd := alike_visitTable h hSame .pml4 hRoot 0 slots (s.memory, k) (t.memory, k) ⟨rfl, rfl, rfl⟩
  simp only [Leaves.run, MachineM.onMemory]
  generalize visitTable visitor .pml4 root 0 slots (s.memory, k) = p,
    visitTable visitor .pml4 root 0 slots (t.memory, k) = q at hEnd
  cases hEnd with
  | @ok flow x y hState =>
    obtain ⟨n, k⟩ := x
    obtain ⟨n', k'⟩ := y
    obtain ⟨rfl, rfl, rfl⟩ : n = s.memory ∧ n' = t.memory ∧ k' = k := hState
    exact .ok _ ⟨rfl, rfl⟩
  | @error v _ x y hState =>
    obtain ⟨n, k⟩ := x
    obtain ⟨n', k'⟩ := y
    obtain ⟨rfl, rfl, rfl⟩ : n = s.memory ∧ n' = t.memory ∧ k' = k := hState
    exact .error _ ⟨rfl, rfl⟩

/-- The traversal leaves the machine as it is. -/
theorem keeps_run (h : visitor.Reads) (root : Frame) (slots : List TableIndex) (k : κ) (x : Machine) :
    Keeps (fun _ => True) (· = x) (Leaves.run visitor root slots k) := by
  rintro y _ ⟨rfl, hy⟩
  obtain rfl : x = y := hy.symm
  have hSame : SameTables (fun _ _ => True) x.memory x.memory :=
    ⟨rfl, fun _ _ => rfl, fun _ _ _ => trivial⟩
  have hEnd := @run_coincide _ _ _ _ h x x hSame root trivial slots k
  cases hRun : Leaves.run visitor root slots k x with
  | ok out x' =>
    rw [hRun] at hEnd
    cases hEnd with
    | ok _ hState =>
      obtain ⟨rfl, -⟩ := hState
      exact .ok out ⟨rfl, rfl⟩
  | error v x' =>
    rw [hRun] at hEnd
    cases hEnd with
    | error _ hState =>
      obtain ⟨rfl, -⟩ := hState
      exact .error trivial ⟨rfl, rfl⟩

end Leaves

end PagedKernel
