import PagedKernel.Proofs.AddressSpace.Dependence
import PagedKernel.Proofs.Run.Steps

/-!
# Requests are served

While the supply lasts a request for a frame, for a space or for a page is served, so the runs that
have pages mapped are there.

* `Frame.behind_alias`: the alias of a frame.
* `Plan.Tracks.map_served`: a page is mapped when three frames are left.
* `Run.exists_space`, `Run.exists_mapped`, `Run.exists_readable`: eight frames are enough for a space,
  and eleven to map any user page, which the process can read.
-/

namespace PagedKernel

theorem Frame.behind_alias {f : Frame} (h : directMapBase.toNat + f.base.val.toNat < 2 ^ 64) :
    VirtualAddress.isAligned ⟨directMapBase + f.base.val⟩ = true ∧
      Memory.behind ⟨directMapBase + f.base.val⟩ = .ok f.base ∧ f.base.frame = f := by
  have hSum : (directMapBase + f.base.val).toNat = directMapBase.toNat + f.base.val.toNat := by
    rw [UInt64.toNat_add, Nat.mod_eq_of_lt h]
  have hNumber := Frame.toNat_number f
  have hBase := DirectMap.toNat_base
  exact ⟨VirtualAddress.isAligned_iff.2 (by simp only [hSum]; omega),
    (DirectMap.pairs_iff.2 hSum).behind_eq, Frame.frame_base f⟩

/-- A page that is not mapped is mapped when three frames are left for tables. -/
theorem Plan.Tracks.map_served {plan : Plan} {σ : System} (h : plan.Tracks σ) {s : AddressSpace}
    (hs : s ∈ σ.live) {page kernelAlias : VirtualAddress} {p : PhysicalAddress}
    (hMap : s.Mappable page kernelAlias p) (hHeld : p.frame ∈ σ.held) (writable : Bool)
    (hNone : s.translate σ.machine.memory page = .ok none) (hSupply : 3 ≤ σ.machine.frames.supply) :
    ∃ σ', σ.perform (.map s page kernelAlias writable) = (.done, σ') ∧ s ∈ σ'.live ∧
      σ'.machine.memory.leaf? s.root page = .ok (some (Entry.compose writable .user p.frame)) := by
  have hRoot := root_mem hs
  have hFits := h.describes.fits
  have hAllowed : σ.Allowed (.map s page kernelAlias writable) :=
    System.allowed_map (Or.inl hs) hMap.alias_eq hHeld writable
  obtain ⟨x, hRun⟩ := h.describes.map_of_supply hRoot hMap hNone hSupply writable
  rcases h.perform_map hAllowed with ⟨-, hNotDone, -⟩ | ⟨-, p', m, l', hMap', hDone, -, hMapped⟩
  · rw [System.perform, System.conclude_ok hRun] at hNotDone
    exact absurd rfl hNotDone
  · obtain rfl : p' = p := Except.ok.inj (hMap'.alias_eq.symm.trans hMap.alias_eq)
    refine ⟨_, hDone, hs, ?_⟩
    obtain ⟨old, hOld⟩ : ∃ old, σ.machine.memory.leaf? s.root page = .ok old := by
      rcases hFits.leaf?_page hRoot hMap.user with ⟨hLeaf, -⟩ | ⟨e, hLeaf, -, -⟩
      · exact ⟨_, hLeaf⟩
      · exact ⟨_, hLeaf⟩
    have hLeaf := hMapped.region page hMap.user rfl old hOld
    rwa [if_pos rfl] at hLeaf

/-- The direct map has room for `2 ^ 34` frames. -/
theorem Frame.base_in_directMap {f : Frame} (h : f.number.toNat < 2 ^ 34) :
    directMapBase.toNat + f.base.val.toNat < 2 ^ 64 := by
  have hBase : directMapBase.toNat = 0xffff888000000000 := rfl
  rw [← toNat_number]
  omega

/-- A machine of eight frames can give the caller a frame and a space: five are taken by booting, and
frame zero is never handed out. -/
theorem Run.exists_space {frames : Nat} (hEnough : 8 ≤ frames) (hFrames : frames ≤ 2 ^ 40) :
    ∃ k m f s σ, ∃ plan : Plan, Machine.boot frames = .ok (k, m) ∧
      Run (.booted k m) [⟨.create, .made s⟩, ⟨.alloc, .given (some f)⟩] σ ∧ plan.Tracks σ ∧
      s ∈ σ.live ∧ f ∈ σ.held ∧ f.number.toNat < frames ∧ σ.machine.frames.supply = frames - 8 ∧
      (∀ t path, plan t = some ⟨s.root, path⟩ → t = s.root) ∧
      ∀ a : VirtualAddress, a.isUser = true → σ.machine.memory.leaf? s.root a = .ok none := by
  obtain ⟨k, m, hBoot, hSupply, hSize⟩ := @Machine.exists_boot frames (by omega) hFrames
  obtain ⟨plan, hPlan⟩ := Machine.boot_describes hFrames hBoot
  have hStart : plan.Tracks (.booted k m) := ⟨hPlan, nofun⟩
  have hPos : 0 < (System.booted k m).machine.frames.supply := by
    show 0 < m.frames.supply
    omega
  obtain ⟨f, m₁, hAlloc, hMemory, hServed, hQuiet⟩ := hStart.alloc_served hPos
  have hSupply₁ : m₁.frames.supply = frames - 7 := by
    rw [hServed, FrameAllocator.supply_serve]
    show m.frames.supply - 1 = _
    omega
  have hTracks₁ := hQuiet.tracks
  have hNumber : f.number.toNat < frames := by
    have hHolds : m₁.memory.holds f = true :=
      hTracks₁.describes.accounts.holds_of_held List.mem_cons_self
    rw [hMemory] at hHolds
    have hLt : f.number.toNat < m.memory.frames := of_decide_eq_true hHolds
    omega
  obtain ⟨r, m₂, hCreate, hNew, hServed₂, hTracks₂, hNothing, -⟩ :=
    hTracks₁.create_served (show 0 < m₁.frames.supply by omega)
  have hSupply₂ : m₂.frames.supply = frames - 8 := by
    rw [hServed₂, FrameAllocator.supply_serve]
    show m₁.frames.supply - 1 = _
    omega
  have hRun₁ := (@Run.start (.booted k m)).next .alloc trivial
  rw [hAlloc] at hRun₁
  have hRun₂ := hRun₁.next .create trivial
  rw [hCreate] at hRun₂
  have hOnly : ∀ t path, plan.put r ⟨r, []⟩ t = some ⟨r, path⟩ → t = r := by
    intro t path ht
    by_contra hNe
    rw [Plan.put_of_ne hNe] at ht
    cases hNew.symm.trans (hTracks₁.describes.fits.root_of_place ht).1
  exact ⟨k, m, f, ⟨r, k.root⟩, _, _, hBoot, hRun₂, hTracks₂, List.mem_cons_self, List.mem_cons_self,
    hNumber, hSupply₂, hOnly, hNothing⟩

/-- With three frames more any user page can be mapped. -/
theorem Run.exists_leaf {frames : Nat} (hEnough : 11 ≤ frames) (hFrames : frames ≤ 2 ^ 34)
    {page : VirtualAddress} (hPage : page.isAligned = true) (hUser : page.isUser = true)
    (writable : Bool) :
    ∃ k m f s kernelAlias σ, Machine.boot frames = .ok (k, m) ∧
      Run (.booted k m) [⟨.map s page kernelAlias writable, .done⟩, ⟨.create, .made s⟩,
        ⟨.alloc, .given (some f)⟩] σ ∧ s ∈ σ.live ∧ f.number.toNat < 2 ^ 40 ∧
      σ.machine.memory.leaf? s.root page = .ok (some (Entry.compose writable .user f)) := by
  obtain ⟨k, m, f, s, σ, plan, hBoot, hRun, hTracks, hs, hf, hNumber, hSupply, -, hNothing⟩ :=
    @Run.exists_space frames (by omega) (by omega)
  have hReach := Frame.base_in_directMap (Nat.lt_of_lt_of_le hNumber hFrames)
  obtain ⟨hAlias, hBehind, hFrame⟩ := Frame.behind_alias hReach
  have hMap : s.Mappable page ⟨directMapBase + f.base.val⟩ f.base :=
    ⟨hPage, hAlias, hUser, hTracks.isKernel_of_live hs, hBehind⟩
  have hHeld : f.base.frame ∈ σ.held := by rwa [hFrame]
  obtain ⟨σ', hDone, hStill, hLeaf⟩ := hTracks.map_served hs hMap hHeld writable
    (AddressSpace.translate_of_none (hNothing page hUser)) (by omega)
  have hAllowed : σ.Allowed (.map s page ⟨directMapBase + f.base.val⟩ writable) :=
    System.allowed_map (Or.inl hs) hBehind hHeld writable
  have hNext := hRun.next _ hAllowed
  rw [hDone] at hNext
  rw [hFrame] at hLeaf
  exact ⟨k, m, f, s, _, σ', hBoot, hNext, hStill, by omega, hLeaf⟩

theorem Run.exists_mapped {frames : Nat} (hEnough : 11 ≤ frames) (hFrames : frames ≤ 2 ^ 34)
    {page : VirtualAddress} (hPage : page.isAligned = true) (hUser : page.isUser = true)
    (writable : Bool) :
    ∃ k m f s kernelAlias σ, Machine.boot frames = .ok (k, m) ∧
      Run (.booted k m) [⟨.map s page kernelAlias writable, .done⟩, ⟨.create, .made s⟩,
        ⟨.alloc, .given (some f)⟩] σ ∧ s ∈ σ.live ∧
      s.translate σ.machine.memory page = .ok (some (f.join page.offset)) := by
  obtain ⟨k, m, f, s, kernelAlias, σ, hBoot, hRun, hs, hNumber, hLeaf⟩ :=
    Run.exists_leaf hEnough hFrames hPage hUser writable
  exact ⟨k, m, f, s, kernelAlias, σ, hBoot, hRun, hs, AddressSpace.translate_eq_some.2
    ⟨_, f, hLeaf, Entry.target_compose writable .user rfl (by decide) hNumber, rfl⟩⟩

theorem Run.exists_reachable {frames : Nat} (hEnough : 11 ≤ frames) (hFrames : frames ≤ 2 ^ 34)
    {page : VirtualAddress} (hPage : page.isAligned = true) (hUser : page.isUser = true)
    (writable : Bool) :
    ∃ k m f s kernelAlias σ, Machine.boot frames = .ok (k, m) ∧
      Run (.booted k m) [⟨.map s page kernelAlias writable, .done⟩, ⟨.create, .made s⟩,
        ⟨.alloc, .given (some f)⟩] σ ∧ s ∈ σ.live ∧
      ∀ access, (access = .write → writable = true) → ∀ a : VirtualAddress, a.isUser = true →
        page.page = a.page → ∃ p, s.resolve σ.machine.memory a access = .ok (some p) := by
  obtain ⟨k, m, f, s, kernelAlias, σ, hBoot, hRun, hs, hNumber, hLeaf⟩ :=
    Run.exists_leaf hEnough hFrames hPage hUser writable
  refine ⟨k, m, f, s, kernelAlias, σ, hBoot, hRun, hs, fun access hAccess a ha hSame => ?_⟩
  have hIsUser : (Entry.compose writable .user f).user = true := by
    rw [Entry.user, Entry.flag_compose writable rfl (by decide)]
    rfl
  have hAllows : AddressSpace.allows (Entry.compose writable .user f) access = true := by
    cases access with
    | read => exact hIsUser
    | write =>
      obtain rfl := hAccess rfl
      rw [AddressSpace.allows, hIsUser, Entry.writable, Entry.flag_compose true rfl (by decide)]
      rfl
  exact AddressSpace.exists_resolve_of_path_eq ha ((VirtualAddress.path_eq_iff hUser ha).2 hSame)
    (AddressSpace.resolve_eq_some.2 ⟨hUser, _, hLeaf, hAllows, AddressSpace.translate_eq_some.2
      ⟨_, f, hLeaf, Entry.target_compose writable .user rfl (by decide) hNumber, rfl⟩⟩)

theorem Run.exists_readable {frames : Nat} (hEnough : 11 ≤ frames) (hFrames : frames ≤ 2 ^ 34)
    {page : VirtualAddress} (hPage : page.isAligned = true) (hUser : page.isUser = true)
    (writable : Bool) :
    ∃ k m f s kernelAlias σ, Machine.boot frames = .ok (k, m) ∧
      Run (.booted k m) [⟨.map s page kernelAlias writable, .done⟩, ⟨.create, .made s⟩,
        ⟨.alloc, .given (some f)⟩] σ ∧ s ∈ σ.live ∧
      ∀ a : VirtualAddress, a.isUser = true → page.page = a.page →
        ∃ p, s.resolve σ.machine.memory a .read = .ok (some p) := by
  obtain ⟨k, m, f, s, kernelAlias, σ, hBoot, hRun, hs, hReach⟩ :=
    Run.exists_reachable hEnough hFrames hPage hUser writable
  exact ⟨k, m, f, s, kernelAlias, σ, hBoot, hRun, hs, hReach .read nofun⟩

end PagedKernel
