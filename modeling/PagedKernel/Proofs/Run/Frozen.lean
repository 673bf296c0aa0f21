import PagedKernel.Proofs.Run.Building
import PagedKernel.Proofs.Run.Progress

/-!
# The kernel's mappings are frozen

When the kernel is finished its mappings stay what they are. Requests cannot change them, whether they
are served or refused, and neither can traversals of the user half. A traversal of all leaves hands the
kernel's to its visitor, too, and the visitor must leave these alone: nothing else does.

* `System.KernelKept`: in every space the kernel half is what the kernel had.
* `EditedRun.freezes_kernel`: so it is after every run in which visitors leave the kernel's leaves alone,
  and redirect others only to frames of the caller.
-/

namespace PagedKernel

/-- In every space of `σ` the kernel half is what the kernel had in `start`: the leaf entries are the
same, bit for bit, and the translations are. -/
structure System.KernelKept (start σ : System) : Prop where
  leaf_eq : ∀ s, σ.Knows s → ∀ a : VirtualAddress, a.isKernel = true →
    σ.machine.memory.leaf? s.root a = start.machine.memory.leaf? start.kernel.root a
  translate_eq : ∀ s, σ.Knows s → ∀ a : VirtualAddress, a.isKernel = true →
    s.translate σ.machine.memory a = start.kernel.view.translate start.machine.memory a

theorem System.KernelKept.of_leaf {start σ : System}
    (h : ∀ s, σ.Knows s → ∀ a : VirtualAddress, a.isKernel = true →
      σ.machine.memory.leaf? s.root a = start.machine.memory.leaf? start.kernel.root a) :
    start.KernelKept σ :=
  ⟨h, fun s hs a ha => AddressSpace.translate_congr (h s hs a ha)⟩

variable {start σ : System}

/-- The kernel's mappings are frozen once they are built. In every run whose visitors leave the kernel's
leaves alone, and redirect others with discipline, all spaces have in the kernel half what the kernel
had at the start. This holds still after one more traversal of any space by any visitor whatsoever, of
the user half, or of all leaves as long as the visitor leaves those of the kernel alone. -/
theorem EditedRun.freezes_kernel (hBuilt : start.Built)
    (hRun : EditedRun System.EditsUserLeaves start σ) :
    start.KernelKept σ ∧
      ∀ s, σ.Knows s → ∀ {κ β : Type} (visitor : Visitor κ β) (userOnly : Bool) (k : κ),
        (userOnly = false → visitor.Obeys fun a e e' => a.isUser = true ∨ e' = e) →
        start.KernelKept (σ.after (s.visit userOnly visitor k)) := by
  obtain ⟨-, plan₀, hStart, -⟩ := hBuilt.tracks
  obtain ⟨hKernel, plan, hTracks⟩ := hRun.tracks System.followed_editsUserLeaves ⟨plan₀, hStart⟩
  have hFrozen := hRun.leaf?_kernel System.followed_editsUserLeaves ⟨plan₀, hStart⟩
  refine ⟨.of_leaf fun s hs a ha => ?_, fun s hs κ β visitor userOnly k hVisitor => ?_⟩
  · rw [← hFrozen a, ← hKernel]
    rcases Plan.Tracks.knows_root hs with hRoot | hRoot
    · rw [hRoot]
    · exact hTracks.describes.fits.leaf?_upper hRoot (VirtualAddress.le_indexOf_pml4 ha)
  · have hObeys : visitor.Obeys fun a e e' =>
        (userOnly = true → a.isUser = true) → a.isUser = true ∨ e' = e := by
      cases userOnly with
      | true => exact Visitor.obeys_of_forall (fun a e e' hUser => Or.inl (hUser rfl)) visitor
      | false => exact (hVisitor rfl).imp fun a e e' h _ => h
    obtain ⟨m, hEdited, hAfter⟩ := hTracks.edited_after hs hObeys (fun _ _ _ _ => Entry.may_trans) k
    rw [hAfter]
    refine .of_leaf fun s' hs' a ha => ?_
    rw [← hFrozen a, ← hKernel]
    exact hTracks.leaf?_edited_upper (fun _ _ _ h => h) hEdited hs' ha

/-- The kernel of a machine of sixteen frames, with a page mapped at 4 MiB that has been made read-only
by a traversal. Another one may do to it what it likes. -/
theorem EditedRun.freezes_kernel_sixteen : ∃ k m s σ, Machine.boot 16 = .ok (k, m) ∧
    (System.booted k m).Built ∧ EditedRun System.EditsUserLeaves (.booted k m) σ ∧ s ∈ σ.live ∧
    (System.booted k m).KernelKept σ ∧
    (System.booted k m).KernelKept (σ.after
      (s.visit true (Visitor.mark (κ := Unit) (β := Unit) .user false) ())) := by
  obtain ⟨k, m, f, s, kernelAlias, σ, hBoot, hRun, hs, -⟩ := @Run.exists_mapped 16 (by decide)
    (by decide) ⟨0x400000⟩ (by decide) (by decide) true
  have hBuilt := System.Built.of_boot (by decide) hBoot
  obtain ⟨plan₀, hStart⟩ := System.tracks_booted (by decide) hBoot
  obtain ⟨-, plan, hTracks, -⟩ := hRun.tracks hStart
  obtain ⟨σ', hVisits, hLive⟩ := hTracks.exists_marked (Or.inl hs) .writable false true rfl
    (by decide) fun _ hUser => hUser rfl
  have hMarked : EditedRun System.EditsUserLeaves (.booted k m) σ' :=
    (EditedRun.of_run hRun).visit (System.editsUserLeaves_of_editsFlags hTracks hVisits)
  have hs' : s ∈ σ'.live := hLive ▸ hs
  obtain ⟨hKept, hVisited⟩ := EditedRun.freezes_kernel hBuilt hMarked
  exact ⟨k, m, s, σ', hBoot, hBuilt, hMarked, hs', hKept, hVisited s (Or.inl hs') _ true () nofun⟩

end PagedKernel
