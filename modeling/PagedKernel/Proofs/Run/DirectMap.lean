import PagedKernel.Proofs.AddressSpace.Aliases
import PagedKernel.Proofs.Run.Coherence
import PagedKernel.Proofs.Run.Footprint
import PagedKernel.Proofs.Run.Refinement

/-!
# The kernel's view of user pages

All that a space maps lies in the direct map: what a user address is translated to has an alias, and the
kernel finds the address there. A page that was mapped to an alias is seen from there on until it is
unmapped or its space is destroyed, whatever else is asked for in between.

* `Plan.Tracks.translate_replaced`, `Plan.Tracks.translate_mapped`: what a page is translated to when
  another one was changed.
* `Plan.Tracks.translate_perform`: a request that does not unmap the page leaves it where it is.
* `Run.translate_kept`: a run without such requests does.
* `DirectMap.IsBijection`, `System.ShowsPages`: the direct map, and what the kernel sees through it.
* `Run.keeps_directMap`: so it is after every run.
-/

namespace PagedKernel

/-! ## Pages that stay mapped -/

namespace Plan.Tracks

variable {plan : Plan} {σ σ' : System} {s s' : AddressSpace} {page a : VirtualAddress}
  {p : PhysicalAddress} {e : Entry} {request : Request}

theorem translate_replaced (hs : s ∈ σ.live) (hUser : page.isUser = true)
    (hReplaced : σ.Replaced σ' s' a e)
    (hElse : ∀ old, s'.root = s.root → page.path = a.path →
      σ.machine.memory.leaf? s.root a = .ok (some old) → e.target = old.target)
    (hSome : s.translate σ.machine.memory page = .ok (some p)) :
    s.translate σ'.machine.memory page = .ok (some p) := by
  have hAfter := hReplaced.leaf_eq s.root (root_mem hs) page hUser
  split at hAfter
  next hHere =>
    obtain ⟨hRoot, hPath⟩ := hHere
    obtain ⟨old, f, hLeaf, hTarget, rfl⟩ := AddressSpace.translate_eq_some.1 hSome
    rw [Memory.leaf?_of_path_eq hPath] at hLeaf
    rw [← hElse old hRoot.symm hPath hLeaf] at hTarget
    exact AddressSpace.translate_eq_some.2 ⟨e, f, hAfter, hTarget, rfl⟩
  next => rw [AddressSpace.translate_congr hAfter, hSome]

theorem translate_mapped (hs : s ∈ σ.live) (hUser : page.isUser = true) {m : Machine}
    (hMapped : Describes.Mapped (σ.live.map (·.root)) σ.machine m s'.root a e)
    (hElse : ¬ (s'.root = s.root ∧ page.path = a.path))
    (hSome : s.translate σ.machine.memory page = .ok (some p)) :
    s.translate m.memory page = .ok (some p) := by
  by_cases hRegion : s.root = s'.root ∧ page.pathTo .pt = a.pathTo .pt
  · obtain ⟨hRoot, hRegion⟩ := hRegion
    obtain ⟨old, f, hLeaf, hTarget, rfl⟩ := AddressSpace.translate_eq_some.1 hSome
    have hAfter := hMapped.region page hUser hRegion (some old) (hRoot ▸ hLeaf)
    rw [if_neg fun hPath => hElse ⟨hRoot.symm, hPath⟩, ← hRoot] at hAfter
    exact AddressSpace.translate_eq_some.2 ⟨old, f, hAfter, hTarget, rfl⟩
  · rw [AddressSpace.translate_congr (hMapped.elsewhere s.root (root_mem hs) page hUser hRegion), hSome]

theorem translate_quiet (hs : s ∈ σ.live) (hUser : page.isUser = true)
    (hSome : s.translate σ.machine.memory page = .ok (some p)) (hSame : σ.Quiet plan σ') :
    s.translate σ'.machine.memory page = .ok (some p) := by
  rw [AddressSpace.translate_congr (hSame.leaf_eq s hs page hUser), hSome]

variable (h : plan.Tracks σ) (hs : s ∈ σ.live) (hUser : page.isUser = true)
  (hSome : s.translate σ.machine.memory page = .ok (some p))

include h hs hUser hSome

theorem translate_marked {f : Entry.Field} (hf : f = .dirty ∨ f = .accessed) (hKnows : σ.Knows s')
    {on : Bool} {out : Reply × System}
    (hOut : σ.conclude (s'.setLeafFlag f a on) (fun _ σ => (.done, σ)) = out) :
    s.translate out.2.machine.memory page = .ok (some p) := by
  rcases h.conclude_setLeafFlag hKnows hf a on hOut with
    ⟨-, hSame, -⟩ | ⟨hs', -, -, e, hOld, -, hReplaced⟩
  · exact translate_quiet hs hUser hSome hSame
  · refine translate_replaced hs hUser hReplaced (fun old hRoot _ hLeaf => ?_) hSome
    rw [hRoot, hLeaf] at hOld
    obtain rfl : old = e := Option.some.inj (Except.ok.inj hOld)
    rcases hf with rfl | rfl
    · exact Entry.target_putFlag old rfl (by decide) (by decide) on
    · exact Entry.target_putFlag old rfl (by decide) (by decide) on

/-- A page stays where it is mapped unless it is unmapped, or its space is destroyed. -/
theorem translate_perform (hAligned : page.isAligned = true) (hAllowed : σ.Allowed request)
    (hKeeps : request ≠ .unmap s page) (hStays : request ≠ .destroy s) :
    s.translate (σ.perform request).2.machine.memory page = .ok (some p) := by
  have hQuiet {σ' : System} (hSame : σ.Quiet plan σ') := translate_quiet hs hUser hSome hSame
  cases request with
  | alloc =>
    obtain ⟨f, -, hSame⟩ := h.perform_alloc
    exact hQuiet hSame
  | free f =>
    obtain ⟨m, hDone, hSame⟩ := h.free_held hAllowed
    rw [hDone]
    exact hQuiet hSame
  | limit n => exact hSome
  | unlimit => exact hSome
  | create =>
    rcases h.perform_create with ⟨e, -, hSame⟩ | ⟨r, m, hMade, -, -, -, hOld⟩
    · exact hQuiet hSame
    · rw [hMade]
      exact (AddressSpace.translate_congr (hOld s hs page hUser)).trans hSome
  | map s' page' kernelAlias writable =>
    rcases h.perform_map hAllowed with ⟨-, -, hSame⟩ | ⟨hs', q, m, l, hMap, hDone, -, hMapped⟩
    · exact hQuiet hSame
    · rw [hDone]
      refine translate_mapped hs hUser hMapped (fun hHere => ?_) hSome
      -- It would have been the same page, and that is refused.
      obtain rfl := h.eq_of_root hs' hs hHere.1
      obtain rfl := VirtualAddress.eq_of_path_eq hUser hMap.user hAligned hMap.aligned hHere.2
      obtain ⟨m', hRun, -⟩ := System.exists_of_map_done hDone
      obtain ⟨v, hError⟩ := (h.refusals (Or.inl hs)).map page kernelAlias writable (Or.inr ⟨p, hSome⟩)
      cases hRun.symm.trans hError
  | unmap s' page' =>
    rcases h.perform_unmap hAllowed page' with
      ⟨-, hSame, -⟩ | ⟨hs', hAligned', hUser', -, e, f, -, -, -, hReplaced⟩
    · exact hQuiet hSame
    · refine translate_replaced hs hUser hReplaced (fun _ hRoot hPath _ => ?_) hSome
      obtain rfl := h.eq_of_root hs' hs hRoot
      obtain rfl := VirtualAddress.eq_of_path_eq hUser hUser' hAligned hAligned' hPath
      exact absurd rfl hKeeps
  | markDirty s' a on => exact h.translate_marked hs hUser hSome (Or.inl rfl) hAllowed rfl
  | markAccessed s' a on => exact h.translate_marked hs hUser hSome (Or.inr rfl) hAllowed rfl
  | activate s' => exact hQuiet (h.perform_activate s').2
  | destroy s' =>
    rcases h.perform_destroy hAllowed with ⟨v, -, -, hSame⟩ | ⟨-, m, hDone, hMemory, -⟩
    · exact hQuiet hSame
    · rw [hDone]
      show s.translate m.memory page = _
      rw [hMemory, hSome]
  | copyTo s' dst bytes =>
    obtain ⟨o, -, hSame⟩ := h.perform_copyTo hAllowed dst bytes
    exact hQuiet hSame
  | copyFrom s' src buffer =>
    obtain ⟨o, -, hSame⟩ := h.perform_copyFrom hAllowed src buffer
    exact hQuiet hSame
  | write p bytes => exact hQuiet (h.perform_write hAllowed).2

end Plan.Tracks

theorem Run.translate_kept {plan : Plan} {start σ : System} {later : List Event}
    (hRun : Run start later σ) (hStart : plan.Tracks start) {s : AddressSpace} (hs : s ∈ start.live)
    {page : VirtualAddress} (hUser : page.isUser = true) (hAligned : page.isAligned = true)
    {p : PhysicalAddress} (hSome : s.translate start.machine.memory page = .ok (some p))
    (hKept : ∀ x ∈ later, x.request ≠ .unmap s page ∧ x.request ≠ .destroy s) :
    s ∈ σ.live ∧ s.translate σ.machine.memory page = .ok (some p) := by
  induction hRun with
  | start => exact ⟨hs, hSome⟩
  | next before request hAllowed ih =>
    obtain ⟨hLive, hStill⟩ := ih fun x hx => hKept x (List.mem_cons_of_mem _ hx)
    obtain ⟨hKeeps, hStays⟩ := hKept _ List.mem_cons_self
    obtain ⟨-, plan', hTracks, -⟩ := before.tracks hStart
    exact ⟨System.live_perform hLive hStays,
      hTracks.translate_perform hLive hUser hStill hAligned hAllowed hKeeps hStays⟩

/-! ## The direct map -/

/-- The direct map is a bijection between the physical addresses up to a bound and the addresses from
`directMapBase` on. What lies outside is refused, and what lies inside fits into an entry. -/
structure DirectMap.IsBijection : Prop where
  toAlias (p : PhysicalAddress) : p.val.toNat ≤ 2 ^ 64 - 1 - directMapBase.toNat → ∃ v, Pairs p v
  ofAlias (v : VirtualAddress) : directMapBase ≤ v.val →
    ∃ p, Pairs p v ∧ p.frame.number ≤ Entry.Field.frameNumber.range.max
  above (p : PhysicalAddress) : ¬ p.val.toNat ≤ 2 ^ 64 - 1 - directMapBase.toNat →
    p.alias = .error .addressOverflow
  below (v : VirtualAddress) : ¬ directMapBase ≤ v.val →
    Memory.behind v = .error (.notKernelAlias v) ∧ physical v = .error (.outsideDirectMap v)

theorem DirectMap.isBijection : IsBijection where
  toAlias _ h := exists_alias h
  ofAlias _ h := by
    obtain ⟨p, hPair⟩ := exists_behind h
    exact ⟨p, hPair, hPair.number_le⟩
  above _ h := alias_refused h
  below _ h := physical_refused h

/-- The kernel sees what a space of the system maps. -/
structure System.ShowsPages (σ : System) (s : AddressSpace) : Prop where
  agrees (a : VirtualAddress) : a.isUser = true → s.Agrees σ.machine.memory a
  /-- Whatever frame a page was mapped to, it is seen as long as the entries on the way to it stay. -/
  mapped {page kernelAlias : VirtualAddress} {writable : Bool} {m : Machine} {memory : Memory} :
    s.map page kernelAlias writable σ.machine = .ok (.ok ()) m → memory.frames = m.memory.frames →
    (∀ level t, m.memory.Leads s.root (page.pathTo level) t →
      memory.entry ⟨t, level.indexOf page⟩ = m.memory.entry ⟨t, level.indexOf page⟩) →
    s.SeenAt memory page kernelAlias
  /-- In the course of a run these entries stay until the page is unmapped. -/
  kept {page kernelAlias : VirtualAddress} {writable : Bool} {σ₁ σ₂ : System} {later : List Event} :
    σ.Allowed (.map s page kernelAlias writable) →
    σ.perform (.map s page kernelAlias writable) = (.done, σ₁) → Run σ₁ later σ₂ →
    (∀ x ∈ later, x.request ≠ .unmap s page ∧ x.request ≠ .destroy s) →
    s.SeenAt σ₂.machine.memory page kernelAlias

namespace Plan.Tracks

variable {plan : Plan} {σ : System} {s : AddressSpace} {page kernelAlias : VirtualAddress}
  {writable : Bool} {m : Machine}

theorem mappable_of_done (hs : σ.Knows s)
    (hDone : s.map page kernelAlias writable σ.machine = .ok (.ok ()) m) :
    s ∈ σ.live ∧ ∃ p, s.Mappable page kernelAlias p := by
  rcases s.mappable_or_refused page kernelAlias writable σ.machine with ⟨p, hMap⟩ | ⟨v, -, hError⟩
  · exact ⟨live_of_knows hs hMap.changeable, p, hMap⟩
  · cases hDone.symm.trans hError

theorem showsPages (h : plan.Tracks σ) {M : Maps} (hModels : M.Models σ) (hs : σ.Knows s) :
    σ.ShowsPages s where
  agrees a hUser := by
    rcases hs with hs | rfl
    · have hAnswers := (hModels s hs a hUser).answers hUser
      refine AddressSpace.agrees_of_translate hUser hAnswers.translate fun p hp => ?_
      have hAlias := AddressSpace.aliasOf_eq (s := s) (m := σ.machine.memory) hUser
      rw [hAnswers.aliasOf, hAnswers.translate, Record.aliasAt, hp] at hAlias
      cases hv : p.alias with
      | error v =>
        simp only [bind, Except.bind, hv] at hAlias
        cases hAlias
      | ok v => exact ⟨v, DirectMap.pairs_of_alias hv⟩
    · have hNone := h.describes.fits.leaf?_kernel hUser
      refine AddressSpace.agrees_of_translate hUser (AddressSpace.translate_of_none hNone) fun p hp => ?_
      cases hp
  mapped hDone hFrames hEntries := by
    obtain ⟨hs, p, hMap⟩ := mappable_of_done hs hDone
    refine AddressSpace.seenAt_of_translate hMap ?_
    rw [AddressSpace.translate_congr (Memory.leaf?_of_entries hFrames hEntries)]
    exact h.describes.translate_of_map (root_mem hs) hMap hDone
  kept {page kernelAlias writable σ₁ σ₂ later} hAllowed hPerform hRun hKept := by
    obtain ⟨m, hDone, rfl⟩ := System.exists_of_map_done hPerform
    obtain ⟨hs, p, hMap⟩ := mappable_of_done hs hDone
    have hSome := h.describes.translate_of_map (root_mem hs) hMap hDone
    obtain ⟨-, -, plan', hTracks, -⟩ := h.step hAllowed
    rw [hPerform] at hTracks
    have hLive : s ∈ ((σ.withMachine m).giveUp kernelAlias).live := by
      rw [System.live_giveUp]
      exact hs
    have hNow : s.translate ((σ.withMachine m).giveUp kernelAlias).machine.memory page = .ok (some p) := by
      rw [System.machine_giveUp]
      exact hSome
    exact AddressSpace.seenAt_of_translate hMap
      (hRun.translate_kept hTracks hLive hMap.user hMap.aligned hNow hKept).2

end Plan.Tracks

/-- The direct map is a bijection, and after every run all that the spaces map lies in it: the kernel sees
each user page at the alias that it was mapped to. -/
theorem Run.keeps_directMap {frames : Nat} {k : KernelSpace} {m : Machine} (hFrames : frames ≤ 2 ^ 40)
    (hBoot : Machine.boot frames = .ok (k, m)) {events : List Event} {σ : System}
    (hRun : Run (.booted k m) events σ) :
    DirectMap.IsBijection ∧ ∀ s, σ.Knows s → σ.ShowsPages s := by
  obtain ⟨plan₀, hStart⟩ := System.tracks_booted hFrames hBoot
  obtain ⟨-, plan, hTracks, -⟩ := hRun.tracks hStart
  exact ⟨DirectMap.isBijection, fun s hs => hTracks.showsPages (hRun.models hStart rfl) hs⟩

/-- On a machine of sixteen frames a first page can be mapped to frame zero, which is never handed out. A
page that was mapped to a frame of the caller is still seen after the next request. -/
theorem Run.keeps_directMap_sixteen : ∃ k m events σ s kernelAlias σ₁ m', Machine.boot 16 = .ok (k, m) ∧
    Run (.booted k m) events σ ∧ s ∈ σ.live ∧ s.Agrees σ.machine.memory ⟨0x400000⟩ ∧
    s.map ⟨0x400000⟩ ⟨directMapBase⟩ true σ.machine = .ok (.ok ()) m' ∧
    s.SeenAt m'.memory ⟨0x400000⟩ ⟨directMapBase⟩ ∧
    σ.perform (.map s ⟨0x400000⟩ kernelAlias true) = (.done, σ₁) ∧
    s.SeenAt (σ₁.perform .alloc).2.machine.memory ⟨0x400000⟩ kernelAlias := by
  obtain ⟨k, m, f, s, σ, plan, hBoot, hRun, hTracks, hs, hf, hNumber, hSupply, -, hNothing⟩ :=
    @Run.exists_space 16 (by decide) (by decide)
  have hKernel := hTracks.isKernel_of_live hs
  have hNone := AddressSpace.translate_of_none (hNothing ⟨0x400000⟩ (by decide))
  obtain ⟨hAlias, hBehind, hFrame⟩ := Frame.behind_alias (Frame.base_in_directMap (f := f) (by omega))
  have hMap : s.Mappable ⟨0x400000⟩ ⟨directMapBase + f.base.val⟩ f.base :=
    ⟨by decide, hAlias, by decide, hKernel, hBehind⟩
  have hHeld : f.base.frame ∈ σ.held := by rwa [hFrame]
  have hZero : s.Mappable ⟨0x400000⟩ ⟨directMapBase⟩ ⟨0⟩ :=
    ⟨by decide, by decide, by decide, hKernel, (DirectMap.pairs_iff.2 rfl).behind_eq⟩
  obtain ⟨m', hDone⟩ := hTracks.describes.map_of_supply (Plan.Tracks.root_mem hs) hZero hNone (by omega) true
  obtain ⟨σ₁, hPerform, -⟩ := hTracks.map_served hs hMap hHeld true hNone (by omega)
  have hAllowed : σ.Allowed (.map s ⟨0x400000⟩ ⟨directMapBase + f.base.val⟩ true) :=
    System.allowed_map (Or.inl hs) hBehind hHeld true
  have hLater := (@Run.start σ₁).next .alloc trivial
  have hShows := (Run.keeps_directMap (by decide) hBoot hRun).2 s (Or.inl hs)
  exact ⟨k, m, _, σ, s, _, σ₁, m', hBoot, hRun, hs, hShows.agrees _ (by decide), hDone,
    hShows.mapped hDone rfl fun _ _ _ => rfl, hPerform,
    hShows.kept hAllowed hPerform hLater (by simp)⟩

end PagedKernel
