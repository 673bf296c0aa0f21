import PagedKernel.Proofs.AddressSpace.InTurn
import PagedKernel.Proofs.Run.Edited
import PagedKernel.Proofs.Run.Progress

/-!
# Traversals of spaces

In every system that a run leads to the tables form trees, so a traversal of a space comes to the leaves
that the space had when it began, whatever its visitor makes of them, and stops when the visitor does.

* `System.EditsLeaves`: the traversals that the run itself may have made.
* `AddressSpace.VisitsInTurn`: traversals visit leaves in turn.
* `Plan.Fits.unshared`: the trees share no table.
* `EditedRun.visits_in_turn`: every space visits its leaves in turn, after every run.
-/

namespace PagedKernel

open Leaves

/-- The list has the leaves that walks for addresses come to, in ascending order. Traversals call their
visitor on these, or on those of user addresses, until it stops; they return what it has stopped with, and
store what it leaves in the entries that it has seen. -/
structure AddressSpace.VisitsInTurn (s : AddressSpace) (x : Machine)
    (leaves : List (VirtualAddress × Slot)) : Prop where
  ascending : leaves.Pairwise fun y z => y.1.val < z.1.val
  mem_iff {a : VirtualAddress} {slot : Slot} : (a, slot) ∈ leaves ↔
    a.isCanonical = true ∧ a.isAligned = true ∧ x.memory.lookup s.root a = .ok (.ok slot) ∧
      (x.memory.entry slot).present = true
  visit {κ β : Type} (visitor : Visitor κ β) (userOnly : Bool) (k : κ) : ∃ seen left o m' k',
    InTurn visitor (if userOnly then leaves.filter (·.1.isUser) else leaves) seen x.memory k left o m' k' ∧
      s.visit userOnly visitor k x = ending (o.map fun flow => (flow, k')) { x with memory := m' }

/-- A traversal by a visitor that changes flags of any leaves, or edits user leaves with discipline. -/
def System.EditsLeaves (σ σ' : System) : Prop := σ.EditsFlags (fun _ => True) σ' ∨ σ.EditsUserLeaves σ'

theorem System.followed_editsLeaves : Followed (fun _ _ _ => True) EditsLeaves := by
  rintro σ σ' plan hTracks (hFlags | hUser)
  · exact Followed.imp (followed_editsFlags _) (fun _ _ _ _ => trivial) hTracks hFlags
  · exact Followed.imp followed_editsUserLeaves (fun _ _ _ _ => trivial) hTracks hUser

/-- A plan has one place for every table, so every table is reached in one way. -/
theorem Plan.Fits.unshared {plan : Plan} {kernel r : Frame} {roots : List Frame} {m : Memory}
    (h : plan.Fits kernel roots m) (hr : r = kernel ∨ r ∈ roots) : m.Unshared r := by
  intro path path' t hLeads hLeads' _ _
  obtain ⟨q, hq⟩ := h.exists_place_of_leads hr hLeads
  obtain ⟨q', hq'⟩ := h.exists_place_of_leads hr hLeads'
  rw [hq] at hq'
  exact congrArg Place.path (Option.some.inj hq')

theorem AddressSpace.visitsInTurn_leafSlots {s : AddressSpace} {x : Machine} (hRegular : x.memory.Regular s.root)
    (hTree : x.memory.Unshared s.root) : s.VisitsInTurn x (x.memory.leafSlots s.root) where
  ascending := x.memory.pairwise_leafSlots s.root
  mem_iff := hRegular.mem_leafSlots
  visit visitor userOnly k := by
    rw [visit_eq_run]
    split
    next =>
      have hUser := (x.memory.filter_leafSlots s.root).symm
      exact run_inTurn hRegular hTree hUser List.filter_sublist visitor k
    next =>
      have hAll := (x.memory.leafSlots_eq s.root).symm
      exact run_inTurn hRegular hTree hAll (List.Sublist.refl _) visitor k

variable {frames : Nat} {k : KernelSpace} {m : Machine} {σ : System}

/-- After every run from booting on, in which leaves may have been edited with discipline, every space
visits its leaves in turn. -/
theorem EditedRun.visits_in_turn (hFrames : frames ≤ 2 ^ 40) (hBoot : Machine.boot frames = .ok (k, m))
    (hRun : EditedRun System.EditsLeaves (.booted k m) σ) {s : AddressSpace} (hs : σ.Knows s) :
    s.VisitsInTurn σ.machine (σ.machine.memory.leafSlots s.root) := by
  obtain ⟨-, plan, hTracks⟩ := hRun.tracks System.followed_editsLeaves
    (System.tracks_booted hFrames hBoot)
  have hFits := hTracks.describes.fits
  have hRoot := Plan.Tracks.knows_root hs
  exact AddressSpace.visitsInTurn_leafSlots (hFits.regular hRoot) (hFits.unshared hRoot)

/-- On a machine of sixteen frames, a space with a page at 4 MiB visits its leaves in turn, that of the page
among them. -/
theorem EditedRun.visits_in_turn_sixteen : ∃ k m s σ, Machine.boot 16 = .ok (k, m) ∧
    EditedRun System.EditsLeaves (.booted k m) σ ∧ σ.Knows s ∧
    s.VisitsInTurn σ.machine (σ.machine.memory.leafSlots s.root) ∧
    ∃ slot, (⟨0x400000⟩, slot) ∈ σ.machine.memory.leafSlots s.root := by
  obtain ⟨k, m, f, s, kernelAlias, σ, hBoot, hRun, hs, hNumber, hLeaf⟩ := @Run.exists_leaf 16 (by decide)
    (by decide) ⟨0x400000⟩ (by decide) (by decide) true
  have hEdited : EditedRun System.EditsLeaves (.booted k m) σ := .of_run hRun
  have hTurn := EditedRun.visits_in_turn (by decide) hBoot hEdited (Or.inl hs)
  obtain ⟨slot, hLookup, hEntry⟩ := Memory.lookup_of_leaf? hLeaf
  have hPresent : (σ.machine.memory.entry slot).present = true := by
    rw [hEntry]
    exact (Entry.target_eq_some.1 (Entry.target_compose true .user rfl (by decide) hNumber)).1
  exact ⟨k, m, s, σ, hBoot, hEdited, Or.inl hs, hTurn, slot,
    hTurn.mem_iff.2 ⟨by decide, by decide, hLookup, hPresent⟩⟩

end PagedKernel
