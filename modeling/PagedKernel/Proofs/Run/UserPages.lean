import PagedKernel.Proofs.AddressSpace.Dependence
import PagedKernel.Proofs.Run.Invariant

/-!
# What processes reach

After a run a process reaches pages of its own space only, and the tables that its addresses are
translated with are not among them. Both are read off the plan: pages hang one level below the leaf
tables.

* `Plan.Tracks.place_of_resolve`: what a process reaches is a page of its space.
* `Plan.Tracks.not_userTable_of_resolve`: and no table of it.
-/

namespace PagedKernel.Plan.Tracks

variable {plan : Plan} {σ : System} {s : AddressSpace} {f : Frame} {a : VirtualAddress}
  {access : Access} {p : PhysicalAddress}

theorem place_of_userTable (h : plan.Tracks σ) (hs : s ∈ σ.live)
    (hf : s.UserTable σ.machine.memory f) :
    ∃ path, path.length < 4 ∧ plan f = some ⟨s.root, path⟩ := by
  obtain ⟨path, hLength, hLower, hLeads⟩ := hf
  have hFits := h.describes.fits
  exact ⟨path, hLength, (hFits.leads_iff (Or.inr (root_mem hs))).1
    ⟨hLeads, (hFits.ownPath_iff (root_mem hs)).2 hLower⟩⟩

/-- The kernel's own tables have nothing at user addresses, so the space is a live one. -/
theorem place_of_resolve (h : plan.Tracks σ) (hs : σ.Knows s)
    (hp : s.resolve σ.machine.memory a access = .ok (some p)) :
    s ∈ σ.live ∧ plan p.frame = some ⟨s.root, a.path⟩ := by
  obtain ⟨hUser, -⟩ := AddressSpace.resolve_eq_some.1 hp
  rcases h.describes.fits.resolve_cases (knows_root hs) a access with hNone | ⟨g, hPlace, hSome⟩
  · rw [hNone] at hp
    cases hp
  · rw [hSome] at hp
    cases hp
    rw [Frame.frame_join]
    refine ⟨hs.resolve_right ?_, hPlace⟩
    rintro rfl
    have hLeaf : σ.machine.memory.leaf? σ.kernel.view.root a = .ok none :=
      h.describes.fits.leaf?_kernel hUser
    rw [AddressSpace.resolve_of_none hLeaf] at hSome
    cases hSome

theorem not_userTable_of_resolve (h : plan.Tracks σ) (hs : σ.Knows s)
    (hp : s.resolve σ.machine.memory a access = .ok (some p)) :
    ¬ s.UserTable σ.machine.memory p.frame := by
  intro hTable
  obtain ⟨hLive, hPlace⟩ := h.place_of_resolve hs hp
  obtain ⟨path, hLength, hPlace'⟩ := h.place_of_userTable hLive hTable
  rw [hPlace] at hPlace'
  obtain ⟨-, rfl⟩ := Place.mk.inj (Option.some.inj hPlace')
  have hPath : a.path.length = 4 := rfl
  omega

end PagedKernel.Plan.Tracks
