import PagedKernel.Proofs.AddressSpace.Permissions
import PagedKernel.Proofs.Run.Building
import PagedKernel.Proofs.Run.Progress

/-!
# Permissions in runs

A space resolves an address for a user program by the leaf alone, and the processor heeds the entries
above it, too. In every run the two agree, for these entries permit everything. They do so in the kernel
half, where it is the kernel's leaves that keep user programs out.

* `Plan.Fits.user_of_kernelOnly`: what the kernel has at an address is its own.
* `EditedRun.resolves_as_permitted`: so it is in every run whose visitors change flags of user pages.
-/

namespace PagedKernel

theorem Plan.Fits.user_of_kernelOnly {plan : Plan} {kernel : Frame} {roots : List Frame} {m : Memory}
    (h : plan.Fits kernel roots m) (hOnly : plan.KernelOnly kernel m) {a : VirtualAddress} {e : Entry}
    (hLeaf : m.leaf? kernel a = .ok (some e)) (hPresent : e.present = true) : e.user = false := by
  by_cases hUpper : kernelRootStart ≤ (Level.pml4.indexOf a).val
  · have hHalf : OwnHalf kernel kernel a := iff_of_true rfl hUpper
    rcases h.leaf?_cases hHalf h.kernel_place with ⟨t, ht, hEntry⟩ | ⟨-, hNone⟩
    · rw [hLeaf] at hEntry
      obtain rfl := Option.some.inj (Except.ok.inj hEntry)
      exact hOnly ht rfl _ hPresent
    · rw [hLeaf] at hNone
      cases hNone
  · rw [h.leaf?_lower (Nat.lt_of_not_le hUpper)] at hLeaf
    cases hLeaf

variable {start σ : System} {s : AddressSpace}

/-- In every run whose visitors change flags of user pages, and nothing else, a space resolves an
address for a user program to a byte exactly if it is a user address, and the processor permits the
access and comes to that byte. To all other addresses the processor permits no access, although no
entry above a leaf forbids one. What it permits it has found in four entries. -/
theorem EditedRun.resolves_as_permitted (hBuilt : start.Built)
    (hRun : EditedRun (System.EditsFlags fun a => a.isUser = true) start σ) (hs : σ.Knows s)
    (a : VirtualAddress) :
    (∀ access, ∃ o, s.resolve σ.machine.memory a access = .ok o ∧
      ∀ p, o = some p ↔ a.isUser = true ∧ σ.machine.memory.Permits s.root a access p) ∧
    (a.isUser = false → ∀ access p, ¬ σ.machine.memory.Permits s.root a access p) ∧
    (∀ e ∈ (σ.machine.memory.way s.root a).dropLast,
      e.present = true ∧ e.user = true ∧ e.writable = true) ∧
    ∀ access p, σ.machine.memory.Permits s.root a access p →
      (σ.machine.memory.way s.root a).length = 4 := by
  have hFollowed : System.Followed (fun a e e' => a.isUser = true ∨ e' = e)
      (System.EditsFlags fun a => a.isUser = true) :=
    System.Followed.imp (System.followed_editsFlags _) fun _ _ _ h => h.2
  obtain ⟨-, plan₀, hStart, hOnly⟩ := hBuilt.tracks
  obtain ⟨hKernel, plan, hTracks⟩ := hRun.tracks hFollowed ⟨plan₀, hStart⟩
  have hFrozen := hRun.leaf?_kernel hFollowed ⟨plan₀, hStart⟩ a
  rw [← hKernel] at hFrozen
  have hFits := hTracks.describes.fits
  have hRoot := Plan.Tracks.knows_root hs
  refine ⟨hFits.resolve_iff_permits hRoot a, fun hUser access p => ?_, fun e he => ?_,
    fun access p hPermits => hPermits.length_way⟩
  · refine hFits.not_permits hRoot (fun e hLeaf hPresent => ?_) hUser
    rw [hFrozen, hKernel] at hLeaf
    exact hStart.describes.fits.user_of_kernelOnly hOnly hLeaf hPresent
  · obtain ⟨hPresent, hUser, hWritable⟩ := hFits.open_of_mem_dropLast hRoot he
    exact ⟨hPresent, hUser, hWritable⟩

/-- A page at 4 MiB of a machine of sixteen frames, after all user pages have been made read-only: the
space resolves it as the processor permits, and the kernel's image is not for user programs. -/
theorem EditedRun.resolves_as_permitted_sixteen : ∃ k m s σ, Machine.boot 16 = .ok (k, m) ∧
    (System.booted k m).Built ∧
    EditedRun (System.EditsFlags fun a => a.isUser = true) (.booted k m) σ ∧ s ∈ σ.live ∧
    (∃ o, s.resolve σ.machine.memory ⟨0x400000⟩ .read = .ok o ∧
      ∀ p, o = some p ↔ σ.machine.memory.Permits s.root ⟨0x400000⟩ .read p) ∧
    ∀ access p, ¬ σ.machine.memory.Permits s.root ⟨kernelBase⟩ access p := by
  obtain ⟨k, m, f, s, kernelAlias, σ, hBoot, hRun, hs, -⟩ := @Run.exists_mapped 16 (by decide)
    (by decide) ⟨0x400000⟩ (by decide) (by decide) true
  have hBuilt := System.Built.of_boot (by decide) hBoot
  obtain ⟨plan₀, hStart⟩ := System.tracks_booted (by decide) hBoot
  obtain ⟨-, plan, hTracks, -⟩ := hRun.tracks hStart
  obtain ⟨σ', hVisits, hLive⟩ := hTracks.exists_marked (Or.inl hs) .writable false true rfl
    (by decide) fun _ hUser => hUser rfl
  have hMarked : EditedRun (System.EditsFlags fun a => a.isUser = true) (.booted k m) σ' :=
    (EditedRun.of_run hRun).visit hVisits
  have hs' : σ'.Knows s := Or.inl (hLive ▸ hs)
  obtain ⟨hResolve, -, -⟩ := EditedRun.resolves_as_permitted hBuilt hMarked hs' ⟨0x400000⟩
  obtain ⟨-, hKernel, -⟩ := EditedRun.resolves_as_permitted hBuilt hMarked hs' ⟨kernelBase⟩
  refine ⟨k, m, s, σ', hBoot, hBuilt, hMarked, hLive ▸ hs, ?_, hKernel (by decide)⟩
  obtain ⟨o, hAnswer, hPermits⟩ := hResolve .read
  exact ⟨o, hAnswer, fun p => (hPermits p).trans (and_iff_right (by decide))⟩

end PagedKernel
