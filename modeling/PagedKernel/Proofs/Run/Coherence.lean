import PagedKernel.Proofs.AddressSpace.Coherence
import PagedKernel.Proofs.Run.Caching
import PagedKernel.Proofs.Run.Progress

/-!
# What the unit remembers is so

Whatever the unit takes up in the course of a run, and whenever, it is what the tables under the active
root say. An edit of another space does not touch the active tree, so it need not be made known.

* `System.Local`: no user page of a space is global.
* `Plan.Settled`: what a run keeps for this, besides the plan.
* `Plan.Settled.coheres`: the steps of one request keep what is remembered so.
* `Plan.Settled.step`: and the request keeps the rest.
* `CachedRun.coherent`: every run does.
-/

namespace PagedKernel

open Script

namespace System

variable {σ σ' : System} {plan : Plan} {s : AddressSpace} {a : VirtualAddress} {e : Entry}

/-- No leaf of a user page is global. -/
def Local (σ : System) : Prop :=
  ∀ s ∈ σ.live, ∀ a : VirtualAddress, a.isUser = true → ∀ e,
    σ.machine.memory.leaf? s.root a = .ok (some e) → e.flag .global = false

theorem Quiet.local (h : σ.Quiet plan σ') (hLocal : σ.Local) : σ'.Local := by
  intro s hs a ha e he
  rw [h.live_eq] at hs
  rw [h.leaf_eq s hs a ha] at he
  exact hLocal s hs a ha e he

theorem Replaced.local (h : σ.Replaced σ' s a e) (hLocal : σ.Local) (he : e.flag .global = false) :
    σ'.Local := by
  intro s' hs' b hb e' he'
  rw [h.live_eq] at hs'
  rw [h.leaf_eq s'.root (Plan.Tracks.root_mem hs') b hb] at he'
  split at he'
  · cases he'
    exact he
  · exact hLocal s' hs' b hb e' he'

end System

namespace Plan

variable {plan : Plan} {σ : System} {request : Request}

theorem Tracks.local_mapped (h : plan.Tracks σ) (hLocal : σ.Local) {s : AddressSpace} (hs : s ∈ σ.live)
    {page : VirtualAddress} {e : Entry} (he : e.flag .global = false) {m : Machine} {held : List Frame}
    (hMapped : Describes.Mapped (σ.live.map (·.root)) σ.machine m s.root page e) :
    System.Local { σ.withMachine m with held := held } := by
  intro s' hs' b hb e' hLeaf
  have he' : m.memory.leaf? s'.root b = .ok (some e') := hLeaf
  by_cases hHere : s'.root = s.root ∧ b.pathTo .pt = page.pathTo .pt
  · obtain ⟨hRoot, hRegion⟩ := hHere
    obtain rfl := h.eq_of_root hs' hs hRoot
    obtain ⟨old, hOld⟩ : ∃ old, σ.machine.memory.leaf? s'.root b = .ok old := by
      rcases h.describes.fits.leaf?_page (root_mem hs) hb with ⟨hLeaf, -⟩ | ⟨e, hLeaf, -, -⟩
      · exact ⟨_, hLeaf⟩
      · exact ⟨_, hLeaf⟩
    have hNew := hMapped.region b hb hRegion old hOld
    rw [he'] at hNew
    obtain rfl := Option.some.inj (Except.ok.inj hNew)
    split
    · exact he
    · cases old with
      | none => exact Entry.flag_empty _
      | some e => exact hLocal s' hs b hb e hOld
  · have hSame := hMapped.elsewhere s'.root (root_mem hs') b hb hHere
    rw [hSame] at he'
    exact hLocal s' hs' b hb e' he'

theorem Tracks.local_perform (h : plan.Tracks σ) (hLocal : σ.Local) (hAllowed : σ.Allowed request) :
    (σ.perform request).2.Local := by
  cases h.effect hAllowed with
  | quiet _ hSame => exact hSame.local hLocal
  | created hMade _ _ hNothing hOld =>
    rw [hMade]
    intro s hs a ha e he
    rcases List.mem_cons.1 hs with rfl | hs
    · cases (hNothing a ha).symm.trans he
    · exact hLocal s hs a ha e ((hOld s hs a ha).symm.trans he)
  | @mapped s page p m l writable hs _ hDone _ hMapped =>
    have hUser : Entry.Field.user.isFlag = true := rfl
    rw [hDone]
    refine h.local_mapped hLocal hs ?_ hMapped
    rw [Entry.flag_compose writable hUser (by decide)]
    rfl
  | @unmapped s page e _ hs hUser _ hLeaf _ _ hReplaced =>
    refine hReplaced.local hLocal ?_
    rw [Entry.flag_putFlag e rfl, if_neg (by decide)]
    exact hLocal s hs page hUser e hLeaf
  | @marked s a e f _ hs hUser hFlag _ hLeaf _ hReplaced =>
    have hGlobal := hLocal s hs a hUser e hLeaf
    refine hReplaced.local hLocal ?_
    rcases hFlag with rfl | rfl <;> rwa [Entry.flag_putFlag e rfl, if_neg (by decide)]
  | @destroyed s m _ hDone hMemory =>
    rw [hDone]
    intro s' hs' a ha e hLeaf
    have he : m.memory.leaf? s'.root a = .ok (some e) := hLeaf
    rw [hMemory] at he
    exact hLocal s' (List.mem_of_mem_erase hs') a ha e he

end Plan

namespace System

variable {σ : System} {request : Request} {s : AddressSpace}

theorem live_conclude {α : Type} {x : MachineM α} {after : α → System → Reply × System}
    (hs : s ∈ σ.live) (hAfter : ∀ a τ, τ.live = σ.live → s ∈ (after a τ).2.live) :
    s ∈ (σ.conclude x after).2.live := by
  rw [conclude]
  split
  · exact hAfter _ _ rfl
  · exact hs

theorem live_perform (hs : s ∈ σ.live) (hStay : request ≠ .destroy s) :
    s ∈ (σ.perform request).2.live := by
  have hSame : ∀ {τ : System}, τ.live = σ.live → s ∈ τ.live := fun hEq => hEq ▸ hs
  cases request with
  | limit n => exact hs
  | unlimit => exact hs
  | create =>
    refine live_conclude hs fun o τ hLive => ?_
    cases o with
    | ok s' => exact List.mem_cons_of_mem _ (hSame hLive)
    | error e => exact hSame hLive
  | map s' page kernelAlias writable =>
    refine live_conclude hs fun o τ hLive => ?_
    cases o with
    | ok u =>
      show s ∈ (τ.giveUp kernelAlias).live
      rw [giveUp]
      cases Memory.behind kernelAlias <;> exact hSame hLive
    | error e => exact hSame hLive
  | destroy s' =>
    refine live_conclude hs fun _ τ hLive => ?_
    refine (List.mem_erase_of_ne ?_).2 (hSame hLive)
    rintro rfl
    exact hStay rfl
  | _ => exact live_conclude hs fun _ _ => hSame

end System

namespace Plan

variable {plan : Plan} {σ : System} {request : Request} {x : Script Unit}

/-- What a run keeps for the sake of what is remembered. -/
structure Settled (plan : Plan) (σ : System) : Prop where
  tracks : plan.Tracks σ
  active : σ.machine.mmu.active = σ.kernel.root ∨ σ.machine.mmu.active ∈ σ.live.map (·.root)
  localPages : σ.Local

theorem Settled.coheres (h : plan.Settled σ) (hAllowed : σ.Allowed request)
    (hScript : request.script σ.kernel = some x) : x.Coheres σ.machine := by
  have hDescribes := h.tracks.describes
  have hRoot : ∀ {s}, σ.Knows s → s.isKernel = false → s.root ∈ σ.live.map (·.root) :=
    fun hs hKernel => Tracks.root_mem (Tracks.live_of_knows hs hKernel)
  cases request <;> cases hScript
  case alloc => exact .takeFrame?_bind (.done _ _)
  case free f => exact .void (.giveFrame f _)
  case limit n => exact .void (.act (fun _ => id) (.done _ _))
  case unlimit => exact .void (.act (fun _ => id) (.done _ _))
  case create => exact .void (hDescribes.coheres_create h.active σ.kernel)
  case map s page kernelAlias writable =>
    exact .void (hDescribes.coheres_map h.active (hRoot hAllowed.1) hAllowed.2 writable)
  case unmap s page => exact .void (hDescribes.coheres_unmap h.active (hRoot hAllowed) page)
  case markDirty s a on =>
    exact .void (hDescribes.coheres_setLeafFlag h.active (hRoot hAllowed) (Or.inl rfl) a on)
  case markAccessed s a on =>
    exact .void (hDescribes.coheres_setLeafFlag h.active (hRoot hAllowed) (Or.inr rfl) a on)
  case activate s =>
    have hKnown : s.elim σ.kernel.root (·.root) = σ.kernel.root ∨
        s.elim σ.kernel.root (·.root) ∈ σ.live.map (·.root) := by
      cases s with
      | none => exact Or.inl rfl
      | some s => exact Tracks.knows_root (hAllowed s rfl)
    refine .void (.act (fun tlb hTlb => ?_) (.done _ _))
    refine hDescribes.coherent_load h.active hKnown (fun r hr a ha e he => ?_) hTlb
    obtain ⟨s', hs', rfl⟩ := List.mem_map.1 hr
    exact h.localPages s' hs' a ha e he
  case destroy s => exact .void (.destroy s _)

theorem Settled.step (h : plan.Settled σ) (hAllowed : σ.Allowed request) (hSpares : σ.Spares request)
    (hScript : request.script σ.kernel = some x) :
    ∃ plan' : Plan, plan'.Settled (σ.perform request).2 := by
  obtain ⟨-, hKernel, plan', hTracks, -⟩ := h.tracks.step hAllowed
  refine ⟨plan', hTracks, ?_, h.tracks.local_perform h.localPages hAllowed⟩
  by_cases hLoad : ∃ s, request = .activate s
  · obtain ⟨s, rfl⟩ := hLoad
    cases s with
    | none => exact Or.inl rfl
    | some s => exact Tracks.knows_root (hAllowed s rfl)
  · -- The active root stays, and its space stays live.
    have hKeeps : KeepsMmu (·.active = σ.machine.mmu.active) x :=
      Request.keepsMmu hScript (fun s hs => hLoad ⟨s, hs⟩) fun _ _ _ _ _ _ hu _ => hu
    have hSame : (σ.perform request).2.machine.mmu.active = σ.machine.mmu.active :=
      System.mmu_perform hScript hKeeps rfl
    rw [hSame, hKernel]
    refine h.active.imp_right fun hLive => ?_
    obtain ⟨s, hs, hRoot⟩ := List.mem_map.1 hLive
    refine List.mem_map.2 ⟨s, System.live_perform hs ?_, hRoot⟩
    rintro rfl
    exact hSpares hRoot

/-- A page of the user half that is translated is mapped. -/
theorem Tracks.maps_of_translate (h : plan.Tracks σ) {s : AddressSpace} (hs : s ∈ σ.live) {p : Page}
    (hUser : p.base.isUser = true) {q : PhysicalAddress}
    (hTranslate : s.translate σ.machine.memory p.base = .ok (some q)) :
    ∃ e, σ.machine.memory.Maps s.root p e := by
  rcases h.describes.fits.leaf?_page (root_mem hs) hUser with ⟨hLeaf, -⟩ | ⟨e, hLeaf, hSmall, -⟩
  · rw [AddressSpace.translate_of_none hLeaf] at hTranslate
    cases hTranslate
  · refine ⟨e, VirtualAddress.isCanonical_of_isUser hUser, hLeaf, ?_⟩
    rw [AddressSpace.translate_of_entry hLeaf hSmall, AddressSpace.mappedFrame] at hTranslate
    split at hTranslate
    next hPresent => exact hPresent
    next => cases hTranslate

end Plan

theorem System.settled_booted {frames : Nat} {k : KernelSpace} {m : Machine} (hFrames : frames ≤ 2 ^ 40)
    (hBoot : Machine.boot frames = .ok (k, m)) : ∃ plan : Plan, plan.Settled (.booted k m) := by
  obtain ⟨plan, hPlan⟩ := System.tracks_booted hFrames hBoot
  exact ⟨plan, hPlan, Or.inl (Machine.active_of_boot hBoot), nofun⟩

namespace CachedRun

variable {start σ : System} {events : List Event} {tlb : Tlb} {plan : Plan}

/-- A run keeps what is remembered so. -/
theorem settled (h : CachedRun start events σ tlb) (hStart : plan.Settled start) :
    (∃ plan' : Plan, plan'.Settled σ) ∧ Coherent σ.machine tlb := by
  induction h with
  | start => exact ⟨⟨plan, hStart⟩, nofun⟩
  | fill _ hFill ih => exact ⟨ih.1, ih.2.fills hFill⟩
  | next _ request hAllowed hSpares hScript hRuns ih =>
    obtain ⟨⟨plan', hSettled⟩, hTlb⟩ := ih
    refine ⟨hSettled.step hAllowed hSpares hScript, ?_⟩
    rw [System.machine_perform hScript hRuns.run_eq]
    exact hSettled.coheres hAllowed hScript _ hTlb _ _ _ hRuns
  | visit _ _ hReads slots k ih =>
    rw [System.conclude_visit hReads]
    exact ih

/-- Whatever the unit remembers after a run, and whenever it took it up, is what the tables under the
active root say. A request about another space makes the unit forget nothing. -/
theorem coherent {frames : Nat} {k : KernelSpace} {m : Machine} (hFrames : frames ≤ 2 ^ 40)
    (hBoot : Machine.boot frames = .ok (k, m)) (hRun : CachedRun (.booted k m) events σ tlb) :
    Run (.booted k m) events σ ∧
      (∀ x ∈ tlb, x.2.present = true ∧
        σ.machine.memory.leaf? σ.machine.mmu.active x.1.base = .ok (some x.2)) ∧
      ∀ request, (request.script σ.kernel).isSome →
        (∀ s, request.space? = some s → s.root ≠ σ.machine.mmu.active) →
        (σ.perform request).2.machine.mmu.dropped = σ.machine.mmu.dropped := by
  obtain ⟨plan, hStart⟩ := System.settled_booted hFrames hBoot
  obtain ⟨-, hTlb⟩ := hRun.settled hStart
  refine ⟨hRun.run, fun x hx => ⟨(hTlb x hx).present, (hTlb x hx).leaf_eq⟩,
    fun request hScript hOther => ?_⟩
  obtain ⟨x, hx⟩ := Option.isSome_iff_exists.1 hScript
  exact System.dropped_perform hx hOther

/-- Any user page can come to be remembered in a machine of eleven frames. -/
theorem exists_remembered {frames : Nat} (hEnough : 11 ≤ frames) (hFrames : frames ≤ 2 ^ 34) {p : Page}
    (hUser : p.base.isUser = true) :
    ∃ k m events σ e, Machine.boot frames = .ok (k, m) ∧ CachedRun (.booted k m) events σ [(p, e)] := by
  have hAligned : p.base.isAligned = true := by simpa [VirtualAddress.isAligned] using p.aligned
  obtain ⟨k, m, f, s, kernelAlias, σ, hBoot, hRun, hs, hTranslate⟩ :=
    Run.exists_mapped hEnough hFrames hAligned hUser true
  obtain ⟨tlb, hCached⟩ := hRun.cached (by simp [Request.script])
  obtain ⟨tlb', hActive⟩ := hCached.exists_next (.activate (some s))
    (fun s' hs' => Option.some.inj hs' ▸ Or.inl hs) trivial rfl
  obtain ⟨plan, hPlan⟩ := System.tracks_booted (by omega) hBoot
  obtain ⟨-, plan', hTracks, -⟩ := hRun.tracks hPlan
  obtain ⟨e, hMaps⟩ := hTracks.maps_of_translate hs hUser hTranslate
  exact ⟨k, m, _, _, e, hBoot, hActive.fill fun x hx => Or.inr (List.mem_singleton.1 hx ▸ hMaps)⟩

theorem coherent_sixteen : ∃ k m events σ e, Machine.boot 16 = .ok (k, m) ∧
    CachedRun (.booted k m) events σ [(⟨⟨0x400000⟩, rfl⟩, e)] ∧ Run (.booted k m) events σ ∧
      (∀ x ∈ [((⟨⟨0x400000⟩, rfl⟩ : Page), e)], x.2.present = true ∧
        σ.machine.memory.leaf? σ.machine.mmu.active x.1.base = .ok (some x.2)) ∧
      ∀ request, (request.script σ.kernel).isSome →
        (∀ s, request.space? = some s → s.root ≠ σ.machine.mmu.active) →
        (σ.perform request).2.machine.mmu.dropped = σ.machine.mmu.dropped := by
  obtain ⟨k, m, events, σ, e, hBoot, hRun⟩ := @exists_remembered 16 (by decide) (by decide)
    ⟨⟨0x400000⟩, rfl⟩ (by decide)
  exact ⟨k, m, events, σ, e, hBoot, hRun, coherent (by decide) hBoot hRun⟩

end CachedRun

end PagedKernel
