import PagedKernel.Proofs.AddressSpace.Twins
import PagedKernel.Proofs.Run.Site

/-!
# Works on twins

A work reads tables under construction, what the spaces have in the user half, and the root table of the
kernel. When nothing of this is hidden it comes to the same thing on twins, and leaves twins.

* `Site.Visible`: what works read is not hidden.
* `Visible.allowed_iff`: the discipline does not tell twins apart.
* `System.Echo`, `Visible.ask_echo`: requests end alike.
* `Visible.perform_twin`: so do all works.
-/

namespace PagedKernel

open Stateful Machine

/-- What works read at the site is charted, and not hidden. -/
structure Site.Visible (c : Site) (hidden : Frame → Prop) : Prop where
  builders : ∃ chart, c.machine.Charted chart (fun _ => True) hidden ∧
    ∀ b ∈ c.builders, chart .pml4 b.root
  spaces : ∃ chart, c.machine.Charted chart (·.val < kernelRootStart) hidden ∧
    ∀ s ∈ c.system.live, chart .pml4 s.root
  kernel : c.finished = true → c.machine.Shows hidden c.system.kernel.root

/-- The second request has ended as the first, on a twin. What the caller holds is hidden. -/
def System.Echo (hidden : Frame → Prop) (out out' : Reply × System) : Prop :=
  ∃ m, out' = (out.1, out.2.withMachine m) ∧ out.2.machine.Twins (fun f => hidden f ∨ f ∈ out.2.held) m

namespace System

variable {σ : System} {hidden : Frame → Prop} {m t : Machine} {α : Type} {x : MachineM α}
  {after after' : α → System → Reply × System}

theorem echo_conclude {Q : α → Machine → Machine → Prop}
    (hx : Coincide Q (Twins hidden) (x σ.machine) (x m))
    (hAfter : ∀ a s t, Q a s t → Echo hidden (after a (σ.withMachine s)) (after' a (σ.withMachine t))) :
    Echo hidden (σ.conclude x after) ((σ.withMachine m).conclude x after') := by
  have hMachine : (σ.withMachine m).machine = m := rfl
  rw [conclude, conclude, hMachine]
  generalize x σ.machine = p, x m = q at hx
  cases hx with
  | ok a hState => exact hAfter a _ _ hState
  | error v hState => exact ⟨_, rfl, hState.mono fun _ _ => Or.inl⟩

theorem Echo.of_twins {out : Reply × System} (hTwins : out.2.machine.Twins hidden t) :
    Echo hidden out (out.1, out.2.withMachine t) :=
  ⟨t, rfl, hTwins.mono fun _ _ => Or.inl⟩

theorem giveUp_withMachine (σ : System) (m : Machine) (kernelAlias : VirtualAddress) :
    (σ.withMachine m).giveUp kernelAlias = (σ.giveUp kernelAlias).withMachine m := by
  rw [giveUp, giveUp]
  cases Memory.behind kernelAlias <;> rfl

end System

namespace Site

theorem conclude_twin (c : Site) {hidden : Frame → Prop} {m : Machine} {α : Type} {x : MachineM α}
    {after : α → Site → Product × Site}
    (hx : Coincide (fun _ => Twins hidden) (Twins hidden) (x c.machine) (x m))
    (hAfter : ∀ a s t, after a (c.withMachine t) =
        ((after a (c.withMachine s)).1, (after a (c.withMachine s)).2.withMachine t) ∧
      (after a (c.withMachine s)).2.machine = s) :
    ∃ m', (c.withMachine m).conclude x after =
        ((c.conclude x after).1, (c.conclude x after).2.withMachine m') ∧
      (c.conclude x after).2.machine.Twins (fun f => hidden f ∨ f ∈ (c.conclude x after).2.system.held) m' := by
  have hMachine : (c.withMachine m).machine = m := rfl
  rw [conclude, conclude, hMachine]
  generalize x c.machine = p, x m = q at hx
  cases hx with
  | @ok a s t hState =>
    obtain ⟨hSame, hLeft⟩ := hAfter a s t
    refine ⟨t, hSame, ?_⟩
    rw [hLeft]
    exact hState.mono fun _ _ => Or.inl
  | @error v s t hState => exact ⟨t, rfl, hState.mono fun _ _ => Or.inl⟩

namespace Visible

variable {c : Site} {hidden hidden' : Frame → Prop} {m : Machine} {s : AddressSpace} {request : Request}
  {work : Work} {f : Frame}

theorem anti (h : c.Visible hidden) (hHidden : ∀ f, hidden' f → hidden f) : c.Visible hidden' := by
  obtain ⟨chart, hChart, hBuilders⟩ := h.builders
  obtain ⟨chart', hChart', hSpaces⟩ := h.spaces
  refine ⟨⟨chart, hChart.anti hHidden, hBuilders⟩, ⟨chart', hChart'.anti hHidden, hSpaces⟩, fun hDone => ?_⟩
  have hShows := h.kernel hDone
  exact ⟨hShows.holds, hShows.inUse, fun hf => hShows.seen (hHidden _ hf)⟩

section

variable (h : c.Visible hidden) (hTwins : c.machine.Twins hidden m)

include h hTwins

/-- What is visible at a site is visible on every twin. -/
theorem twin : (c.withMachine m).Visible hidden := by
  obtain ⟨chart, hChart, hBuilders⟩ := h.builders
  obtain ⟨chart', hChart', hSpaces⟩ := h.spaces
  refine ⟨⟨chart, hChart.twin hTwins, hBuilders⟩, ⟨chart', hChart'.twin hTwins, hSpaces⟩, fun hDone => ?_⟩
  have hShows := h.kernel hDone
  exact ⟨(hTwins.holds_eq _).trans hShows.holds, hTwins.frames_eq ▸ hShows.inUse, hShows.seen⟩

theorem frameAt_eq (hs : s ∈ c.system.live) {a : VirtualAddress} (ha : a.isUser = true) :
    (c.system.withMachine m).frameAt s a = c.system.frameAt s a := by
  obtain ⟨chart, hChart, hSpaces⟩ := h.spaces
  have hSame : s.translate (c.system.withMachine m).machine.memory a =
      s.translate c.system.machine.memory a :=
    AddressSpace.translate_congr (hTwins.leaf?_eq hChart (hSpaces s hs) (a.indexOf_pml4_lt ha))
  rw [System.frameAt, System.frameAt, hSame]

theorem mayWrite_iff : (c.system.withMachine m).MayWrite f ↔ c.system.MayWrite f := by
  have hPage : ∀ s ∈ c.system.live, ∀ a : VirtualAddress, a.isUser = true →
      (f ∈ (c.system.withMachine m).frameAt s a ↔ f ∈ c.system.frameAt s a) := by
    intro s hs a ha
    rw [h.frameAt_eq hTwins hs ha]
  constructor
  · rintro (hHeld | ⟨s, hs, a, ha, hAt⟩)
    · exact Or.inl hHeld
    · exact Or.inr ⟨s, hs, a, ha, (hPage s hs a ha).1 hAt⟩
  · rintro (hHeld | ⟨s, hs, a, ha, hAt⟩)
    · exact Or.inl hHeld
    · exact Or.inr ⟨s, hs, a, ha, (hPage s hs a ha).2 hAt⟩

/-- The discipline does not tell twins apart. -/
theorem allowed_iff : (c.withMachine m).Allowed work ↔ c.Allowed work := by
  cases work with
  | newKernel | mapKernel _ _ _ _ | finish _ => exact Iff.rfl
  | ask request =>
    refine and_congr_right fun _ => and_congr_left fun _ => ?_
    cases request with
    | write p bytes =>
      refine forall₄_congr fun i hi q hq => ?_
      exact h.mayWrite_iff hTwins
    | alloc | free _ | limit _ | unlimit | create | map _ _ _ _ | unmap _ _ | markDirty _ _ _
    | markAccessed _ _ _ | activate _ | destroy _ | copyTo _ _ _ | copyFrom _ _ _ => exact Iff.rfl

theorem ask_echo (hAllowed : c.Allowed (.ask request)) :
    System.Echo hidden (c.system.perform request) ((c.system.withMachine m).perform request) := by
  obtain ⟨hPaging, hRequest, hReady⟩ := hAllowed
  obtain ⟨chart, hChart, hSpaces⟩ := h.spaces
  have hRoot : ∀ {s}, c.system.Knows s → s.isKernel = false → chart .pml4 s.root :=
    fun hs hKernel => hSpaces _ (Plan.Tracks.live_of_knows hs hKernel)
  have hOwn : ∀ a : VirtualAddress, a.isUser = true → (Level.pml4.indexOf a).val < kernelRootStart :=
    fun a ha => a.indexOf_pml4_lt ha
  cases request with
  | alloc =>
    rw [System.perform, System.perform]
    refine System.echo_conclude (hTwins.takeFrame?_step hChart.sound) ?_
    rintro o s t ⟨hServed, -, -, -⟩
    refine ⟨t, rfl, hServed.mono fun f _ hf => hf.imp_right ?_⟩
    rintro rfl
    exact List.mem_append_left _ (by simp)
  | free f =>
    rw [System.perform, System.perform]
    refine System.echo_conclude (hTwins.giveFrame_step f) ?_
    rintro _ s t ⟨hGiven, -, -⟩
    exact .of_twins hGiven
  | limit n => exact .of_twins (hTwins.onFrames (·.limitTo n) fun _ hf => hf)
  | unlimit => exact .of_twins (hTwins.onFrames (·.unlimited) fun _ hf => hf)
  | create =>
    have hKernel := h.kernel (hReady.resolve_right id)
    rw [System.perform, System.perform]
    refine System.echo_conclude (hTwins.create_step hChart.sound hKernel) fun o s t hMade => ?_
    cases o with
    | error e => exact .of_twins hMade
    | ok made => exact .of_twins hMade
  | map s page kernelAlias writable =>
    rw [System.perform, System.perform]
    refine System.echo_conclude
      (hTwins.map_step hChart (hRoot hRequest.1) hOwn page kernelAlias writable) fun o s t hMapped => ?_
    cases o with
    | error e => exact .of_twins hMapped
    | ok _ =>
      simp only [System.giveUp_withMachine]
      exact .of_twins hMapped
  | unmap s page =>
    rw [System.perform, System.perform]
    refine System.echo_conclude (hTwins.unmap_step hChart (hRoot hRequest) hOwn page) ?_
    rintro _ s' t' ⟨hDone, hUser, hKernel⟩
    -- The page was unmapped from a live space, so twins had the same frame there.
    rw [h.frameAt_eq hTwins (Plan.Tracks.live_of_knows hRequest hKernel) hUser]
    exact .of_twins hDone
  | markDirty s a on =>
    rw [System.perform, System.perform]
    exact System.echo_conclude (hTwins.setLeafFlag_step hChart (hRoot hRequest) hOwn .dirty a on)
      fun _ s t hDone => .of_twins hDone
  | markAccessed s a on =>
    rw [System.perform, System.perform]
    exact System.echo_conclude (hTwins.setLeafFlag_step hChart (hRoot hRequest) hOwn .accessed a on)
      fun _ s t hDone => .of_twins hDone
  | activate s =>
    cases s with
    | none => exact .of_twins (hTwins.tell _)
    | some s => exact .of_twins (hTwins.tell _)
  | destroy s =>
    have hUser : ∀ i ∈ TableIndex.userHalf, i.val < kernelRootStart := by
      intro i hi
      simpa [TableIndex.userHalf, TableIndex.mem_all] using hi
    rw [System.perform, System.perform]
    exact System.echo_conclude (hTwins.destroy_step hChart (hRoot hRequest) hUser)
      fun _ s t hDone => .of_twins hDone
  | write p bytes =>
    rw [System.perform, System.perform]
    exact System.echo_conclude (hTwins.write_step p bytes) fun _ s t hDone => .of_twins hDone
  | copyTo _ _ _ | copyFrom _ _ _ => exact hPaging.elim

/-- Every work comes to the same thing on twins. -/
theorem perform_twin (hAllowed : c.Allowed work) :
    ∃ m', (c.withMachine m).perform work = ((c.perform work).1, (c.perform work).2.withMachine m') ∧
      (c.perform work).2.machine.Twins
        (fun f => hidden f ∨ f ∈ (c.perform work).2.system.held) m' := by
  cases work with
  | ask request =>
    obtain ⟨m', hSame, hTwins'⟩ := h.ask_echo hTwins hAllowed
    refine ⟨m', ?_, hTwins'⟩
    show (Product.answered ((c.system.withMachine m).perform request).1,
      Site.mk ((c.system.withMachine m).perform request).2 c.finished c.builders) = _
    rw [hSame]
    rfl
  | newKernel =>
    obtain ⟨chart, hChart, -⟩ := h.builders
    rw [perform, perform]
    refine c.conclude_twin (hTwins.begin_step hChart.sound) fun o s t => ?_
    cases o with
    | error e => exact ⟨rfl, rfl⟩
    | ok b => exact ⟨rfl, rfl⟩
  | mapKernel b page frame writable =>
    obtain ⟨chart, hChart, hBuilders⟩ := h.builders
    rw [perform, perform]
    exact c.conclude_twin
      (hTwins.build_step hChart (hBuilders b hAllowed) (fun _ => trivial) page frame writable)
      fun _ _ _ => ⟨rfl, rfl⟩
  | finish b =>
    rw [perform, perform]
    exact c.conclude_twin (hTwins.finish_step b) fun _ _ _ => ⟨rfl, rfl⟩

end

end Visible

end Site

end PagedKernel
