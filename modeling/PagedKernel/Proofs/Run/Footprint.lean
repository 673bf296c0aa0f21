import PagedKernel.Proofs.AddressSpace.Footprint
import PagedKernel.Proofs.Run.AllOrNothing

/-!
# The footprint of each operation

After every run it is known to the bit what the operations on the pages of a space write, and calls that
break a precondition write nothing at all.

* `AddressSpace.Footprints`: what unmapping, marking and mapping a page write.
* `AddressSpace.Refusals`: what is refused, and that nothing comes of it.
* `Plan.Tracks.footprints`, `Plan.Tracks.refusals`: both hold of systems with a plan.
* `Run.leaves_footprints`: after every run.
-/

namespace PagedKernel

/-- What the operations on the user pages of the space write. -/
structure AddressSpace.Footprints (s : AddressSpace) (m : Machine) : Prop where
  unmap (page : VirtualAddress) : page.isAligned = true → page.isUser = true →
    ∃ m', s.unmap page m = .ok () m' ∧ s.LeafWrites page 0 m m' ∧ s.unmap page m' = .ok () m' ∧
      (s.translate m.memory page = .ok none → m' = m)
  markDirty (a : VirtualAddress) (on : Bool) : a.isUser = true →
    ∃ m', s.markDirty a on m = .ok () m' ∧ s.LeafWrites a 6 m m'
  markAccessed (a : VirtualAddress) (on : Bool) : a.isUser = true →
    ∃ m', s.markAccessed a on m = .ok () m' ∧ s.LeafWrites a 5 m m'
  map (page kernelAlias : VirtualAddress) (writable : Bool) (m' : Machine) :
    s.map page kernelAlias writable m = .ok (.ok ()) m' → ∃ p missing,
      Memory.behind kernelAlias = .ok p ∧ m.memory.Lacks s.root page missing ∧
      m.MapWrites s.root page (p.frame.base.val ||| if writable then 7 else 5) missing.length m'

/-- What the space refuses, whatever was done before, and that nothing comes of it. -/
structure AddressSpace.Refusals (s : AddressSpace) (m : Machine) : Prop where
  map (page kernelAlias : VirtualAddress) (writable : Bool) :
    (∀ p, ¬ s.Mappable page kernelAlias p) ∨ (∃ q, s.translate m.memory page = .ok (some q)) →
      ∃ v, s.map page kernelAlias writable m = .error v m
  unmap (page : VirtualAddress) :
    ¬ (page.isAligned = true ∧ page.isUser = true ∧ s.isKernel = false) →
      ∃ v, s.unmap page m = .error v m
  mark (a : VirtualAddress) (on : Bool) : ¬ (a.isUser = true ∧ s.isKernel = false) →
    (∃ v, s.markDirty a on m = .error v m) ∧ ∃ v, s.markAccessed a on m = .error v m
  /-- There is no other violation. -/
  only (v : Violation) (m' : Machine) :
    (∀ page kernelAlias writable, s.map page kernelAlias writable m = .error v m' → m' = m) ∧
    (∀ page, s.unmap page m = .error v m' → m' = m) ∧
    (∀ a on, s.markDirty a on m = .error v m' → m' = m) ∧
    ∀ a on, s.markAccessed a on m = .error v m' → m' = m

namespace Plan.Tracks

variable {plan : Plan} {σ : System} {s : AddressSpace} {page kernelAlias : VirtualAddress} {writable : Bool}

theorem map_writes (h : plan.Tracks σ) (hs : s ∈ σ.live) {p : PhysicalAddress}
    (hMap : s.Mappable page kernelAlias p) (writable : Bool) :
    (∃ q, s.translate σ.machine.memory page = .ok (some q)) ∧
        s.map page kernelAlias writable σ.machine = .error (.alreadyMapped page) σ.machine ∨
      s.translate σ.machine.memory page = .ok none ∧ ∃ missing,
        σ.machine.memory.Lacks s.root page missing ∧
        ((σ.machine.frames.supply < missing.length ∧
            ∃ e m', s.map page kernelAlias writable σ.machine = .ok (.error e) m') ∨
          ∃ m', s.map page kernelAlias writable σ.machine = .ok (.ok ()) m' ∧
            σ.machine.MapWrites s.root page (p.frame.base.val ||| if writable then 7 else 5)
              missing.length m') := by
  have hRoot := root_mem hs
  have hPlan := h.describes
  obtain ⟨l, t, hDescends, ht, hBare⟩ :=
    hPlan.bare (hPlan.fits.ownHalf hRoot hMap.user) (hPlan.fits.root_place hRoot)
  rcases hPlan.stop_cases hRoot hMap.user ht hBare with ⟨hNone, hAbsent⟩ | ⟨hSome, rfl, hPresent⟩
  · refine Or.inr ⟨hNone, l.below, hPlan.lacks hRoot ht hBare, ?_⟩
    by_cases hSupply : l.height ≤ σ.machine.frames.supply
    · refine Or.inr ⟨_, Plan.Describes.map_mapped hMap hDescends hBare hSupply hAbsent writable, ?_⟩
      rw [Level.length_below]
      exact hPlan.mapWrites hRoot ht hBare hSupply (DirectMap.pairs_of_behind hMap.alias_eq).number_lt writable
    · obtain ⟨level, m', -, hRun, -⟩ :=
        Plan.Describes.map_undone hMap hDescends hBare (Nat.lt_of_not_le hSupply) writable
      exact Or.inl ⟨by rw [Level.length_below]; omega, _, m', hRun⟩
  · exact Or.inl ⟨hSome, Plan.Describes.map_present hMap hDescends hBare.holds hPresent⟩

theorem footprints (h : plan.Tracks σ) (hs : s ∈ σ.live) : s.Footprints σ.machine where
  unmap page hAligned hUser := by
    have hRoot := root_mem hs
    have hKernel := h.isKernel_of_live hs
    obtain ⟨m', hUnmap, hWrites⟩ := h.describes.unmap_writes hRoot hUser hKernel hAligned
    refine ⟨m', hUnmap, hWrites, h.describes.unmap_again hRoot hUser hKernel hAligned hUnmap, fun hNone => ?_⟩
    rcases h.describes.unmap_cases hRoot hAligned hUser hKernel with ⟨-, hSame, -⟩ | ⟨e, f, x, -, -, hSome, -⟩
    · rw [hUnmap] at hSame
      cases hSame
      rfl
    · rw [hNone] at hSome
      cases hSome
  markDirty a on hUser :=
    h.describes.setLeafFlag_writes (root_mem hs) hUser (h.isKernel_of_live hs) (f := .dirty) rfl on
  markAccessed a on hUser :=
    h.describes.setLeafFlag_writes (root_mem hs) hUser (h.isKernel_of_live hs) (f := .accessed) rfl on
  map page kernelAlias writable m' hRun := by
    rcases s.mappable_or_refused page kernelAlias writable σ.machine with ⟨p, hMap⟩ | ⟨v, -, hError⟩
    · rcases h.map_writes hs hMap writable with
        ⟨-, hError⟩ | ⟨-, missing, hLacks, ⟨-, e, x, hRefused⟩ | ⟨x, hDone, hWrites⟩⟩
      · rw [hRun] at hError
        cases hError
      · rw [hRun] at hRefused
        cases hRefused
      · rw [hRun] at hDone
        cases hDone
        exact ⟨p, missing, hMap.alias_eq, hLacks, hWrites⟩
    · rw [hRun] at hError
      cases hError

/-- A violation stops a mapping before anything is written. -/
theorem map_error (h : plan.Tracks σ) (hs : σ.Knows s) {v : Violation} {m' : Machine}
    (hRun : s.map page kernelAlias writable σ.machine = .error v m') : m' = σ.machine := by
  rcases s.mappable_or_refused page kernelAlias writable σ.machine with ⟨p, hMap⟩ | ⟨w, -, hError⟩
  · rcases h.map_writes (live_of_knows hs hMap.changeable) hMap writable with
      ⟨-, hError⟩ | ⟨-, missing, -, ⟨-, e, x, hElse⟩ | ⟨x, hElse, -⟩⟩
    · exact (EStateM.Result.error.inj (hRun.symm.trans hError)).2
    · cases hRun.symm.trans hElse
    · cases hRun.symm.trans hElse
  · exact (EStateM.Result.error.inj (hRun.symm.trans hError)).2

theorem unmap_error (h : plan.Tracks σ) (hs : σ.Knows s) {v : Violation} {m' : Machine}
    (hRun : s.unmap page σ.machine = .error v m') : m' = σ.machine := by
  by_cases hAllowed : page.isAligned = true ∧ page.isUser = true ∧ s.isKernel = false
  · obtain ⟨hAligned, hUser, hKernel⟩ := hAllowed
    obtain ⟨x, hElse, -⟩ :=
      h.describes.unmap_writes (root_mem (live_of_knows hs hKernel)) hUser hKernel hAligned
    cases hRun.symm.trans hElse
  · obtain ⟨w, -, hError⟩ := @AddressSpace.unmap_refused s page σ.machine hAllowed
    exact (EStateM.Result.error.inj (hRun.symm.trans hError)).2

theorem setLeafFlag_error (h : plan.Tracks σ) (hs : σ.Knows s) {f : Entry.Field} (hFlag : f.isFlag = true)
    {a : VirtualAddress} {on : Bool} {v : Violation} {m' : Machine}
    (hRun : s.setLeafFlag f a on σ.machine = .error v m') : m' = σ.machine := by
  by_cases hAllowed : a.isUser = true ∧ s.isKernel = false
  · obtain ⟨hUser, hKernel⟩ := hAllowed
    obtain ⟨x, hElse, -⟩ :=
      h.describes.setLeafFlag_writes (root_mem (live_of_knows hs hKernel)) hUser hKernel hFlag on
    cases hRun.symm.trans hElse
  · obtain ⟨w, -, hError⟩ := AddressSpace.setLeafFlag_refused hAllowed f on σ.machine
    exact (EStateM.Result.error.inj (hRun.symm.trans hError)).2

theorem refusals (h : plan.Tracks σ) (hs : σ.Knows s) : s.Refusals σ.machine where
  map page kernelAlias writable hRefused := by
    rcases s.mappable_or_refused page kernelAlias writable σ.machine with ⟨p, hMap⟩ | ⟨v, -, hError⟩
    · obtain ⟨q, hSome⟩ := hRefused.resolve_left fun hNone => hNone p hMap
      rcases h.map_writes (live_of_knows hs hMap.changeable) hMap writable with ⟨-, hError⟩ | ⟨hNone, -⟩
      · exact ⟨_, hError⟩
      · rw [hNone] at hSome
        cases hSome
    · exact ⟨v, hError⟩
  unmap page hRefused := by
    obtain ⟨v, -, hError⟩ := @AddressSpace.unmap_refused s page σ.machine hRefused
    exact ⟨v, hError⟩
  mark a on hRefused := by
    obtain ⟨v, -, hDirty⟩ := AddressSpace.setLeafFlag_refused hRefused .dirty on σ.machine
    obtain ⟨w, -, hAccessed⟩ := AddressSpace.setLeafFlag_refused hRefused .accessed on σ.machine
    exact ⟨⟨v, hDirty⟩, w, hAccessed⟩
  only v m' := ⟨fun _ _ _ hRun => h.map_error hs hRun, fun _ hRun => h.unmap_error hs hRun,
    fun _ _ hRun => h.setLeafFlag_error hs (f := .dirty) rfl hRun,
    fun _ _ hRun => h.setLeafFlag_error hs (f := .accessed) rfl hRun⟩

end Plan.Tracks

/-- After every run the operations on a live space write what its `Footprints` say, and the calls that a
space, the kernel's own too, refuses write nothing. -/
theorem Run.leaves_footprints {frames : Nat} {k : KernelSpace} {m : Machine} (hFrames : frames ≤ 2 ^ 40)
    (hBoot : Machine.boot frames = .ok (k, m)) {events : List Event} {σ : System}
    (hRun : Run (.booted k m) events σ) :
    (∀ s ∈ σ.live, s.Footprints σ.machine) ∧ ∀ s, σ.Knows s → s.Refusals σ.machine := by
  obtain ⟨plan₀, hStart⟩ := System.tracks_booted hFrames hBoot
  obtain ⟨-, plan, hTracks, -⟩ := hRun.tracks hStart
  exact ⟨fun _ hs => hTracks.footprints hs, fun _ hs => hTracks.refusals hs⟩

/-- On a machine of sixteen frames a first page is mapped, writable. Then it can be unmapped; the next
address is no page, and is refused. -/
theorem Run.leaves_footprints_sixteen : ∃ k m events σ s kernelAlias m', Machine.boot 16 = .ok (k, m) ∧
    Run (.booted k m) events σ ∧ s ∈ σ.live ∧
    s.map ⟨0x400000⟩ kernelAlias true σ.machine = .ok (.ok ()) m' ∧
    (∃ p missing, Memory.behind kernelAlias = .ok p ∧
      σ.machine.memory.Lacks s.root ⟨0x400000⟩ missing ∧
      σ.machine.MapWrites s.root ⟨0x400000⟩ (p.frame.base.val ||| 7) missing.length m') ∧
    (∃ x, s.unmap ⟨0x400000⟩ σ.machine = .ok () x ∧ s.LeafWrites ⟨0x400000⟩ 0 σ.machine x) ∧
    ∃ v, s.map ⟨0x400001⟩ kernelAlias true σ.machine = .error v σ.machine := by
  obtain ⟨k, m, f, s, σ, plan, hBoot, hRun, hTracks, hs, hf, hNumber, hSupply, -, hNothing⟩ :=
    @Run.exists_space 16 (by decide) (by decide)
  obtain ⟨hAlias, hBehind, hFrame⟩ := Frame.behind_alias (Frame.base_in_directMap (f := f) (by omega))
  have hMap : s.Mappable ⟨0x400000⟩ ⟨directMapBase + f.base.val⟩ f.base :=
    ⟨by decide, hAlias, by decide, hTracks.isKernel_of_live hs, hBehind⟩
  obtain ⟨σ', hPerform, -⟩ := hTracks.map_served hs hMap (by rwa [hFrame]) true
    (AddressSpace.translate_of_none (hNothing _ hMap.user)) (by omega)
  obtain ⟨m', hDone, -⟩ := System.exists_of_map_done hPerform
  obtain ⟨hWrites, hRefuses⟩ := Run.leaves_footprints (by decide) hBoot hRun
  obtain ⟨x, hUnmap, hLeaf, -⟩ := (hWrites s hs).unmap ⟨0x400000⟩ (by decide) (by decide)
  exact ⟨k, m, _, σ, s, _, m', hBoot, hRun, hs, hDone, (hWrites s hs).map _ _ _ _ hDone,
    ⟨x, hUnmap, hLeaf⟩, (hRefuses s (Or.inl hs)).map _ _ _ (Or.inl fun p hMap => absurd hMap.aligned (by decide))⟩

end PagedKernel
