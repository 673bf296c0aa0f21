import PagedKernel.Proofs.AddressSpace.Aliases
import PagedKernel.Proofs.Run.Invariant
import PagedKernel.Proofs.Run.Progress

/-!
# Mapping is all or nothing

Mapping a page makes the tables that are missing on its way. After every run these are the last ones
of the way, and the page is mapped just when the supply of frames lasts for them; it is translated to what
is behind the alias then. When the supply does not last, nothing is left of the attempt but the bytes of
free frames, and those do not matter: a second attempt comes to the same machine as a first one with
enough frames.

* `Level.below`, `Memory.Lacks`: the tables that are missing.
* `AddressSpace.NotMapped`, `AddressSpace.AllOrNothing`: how mapping ends.
* `Plan.Describes.lacks`: the walk ends above the missing tables.
* `Plan.Describes.retried`: the second attempt.
* `Run.maps_all_or_nothing`: all of this after every run.
-/

namespace PagedKernel

/-- The levels below a level, from the top. -/
def Level.below : Level → List Level
  | .pml4 => [.pdpt, .pd, .pt]
  | .pdpt => [.pd, .pt]
  | .pd => [.pt]
  | .pt => []

/-- The tables that do not exist on the way from a root to a page, from the top. -/
structure Memory.Lacks (m : Memory) (root : Frame) (page : VirtualAddress) (missing : List Level) :
    Prop where
  suffix : missing <:+ [.pdpt, .pd, .pt]
  mem_iff (level : Level) : level ∈ missing ↔ ∀ t, ¬ m.Leads root (page.pathTo level) t

theorem Memory.Lacks.unique {m : Memory} {root : Frame} {page : VirtualAddress} {missing missing' : List Level}
    (h : m.Lacks root page missing) (h' : m.Lacks root page missing') : missing = missing' := by
  have hNodup : [Level.pdpt, .pd, .pt].Nodup := by decide
  have hPerm : missing.Perm missing' := (List.perm_ext_iff_of_nodup (hNodup.sublist h.suffix.sublist)
    (hNodup.sublist h'.suffix.sublist)).2 fun level => (h.mem_iff level).trans (h'.mem_iff level).symm
  rcases List.suffix_or_suffix_of_suffix h.suffix h'.suffix with hEnds | hEnds
  · exact hEnds.eq_of_length hPerm.length_eq
  · exact (hEnds.eq_of_length hPerm.length_eq.symm).symm

namespace AddressSpace

/-- No frame was left for the table at `level`, and nothing came of the attempt to map a page. -/
structure NotMapped (s : AddressSpace) (page kernelAlias : VirtualAddress) (writable : Bool)
    (m m' : Machine) (level : Level) : Prop where
  walk_eq : lookupCreating s.root page m = .ok (.error (.outOfMemory level)) m'
  map_eq : s.map page kernelAlias writable m = .ok (.error (.outOfMemory level)) m'
  free_eq : m'.frames.free = m.frames.free
  inUse_eq : m'.frames.inUse = m.frames.inUse
  agree : m.memory.AgreeOn (· ∉ m.frames.free) m'.memory

/-- The second attempt, with the limit lifted, comes to what a first one would have come to with
frames for `n` tables. -/
def Retries (s : AddressSpace) (page kernelAlias : VirtualAddress) (writable : Bool) (m m' : Machine)
    (n : Nat) : Prop :=
  n ≤ m'.frames.free.length → ∃ x',
    s.map page kernelAlias writable { m' with frames := m'.frames.unlimited } = .ok (.ok ()) x' ∧
    ∀ a : FrameAllocator, a.free = m.frames.free → a.inUse = m.frames.inUse → n ≤ a.supply →
      ∃ x, s.map page kernelAlias writable { m with frames := a } = .ok (.ok ()) x ∧
        x'.memory = x.memory ∧ x'.frames.free = x.frames.free ∧ x'.frames.inUse = x.frames.inUse

/-- Mapping a page makes the missing tables and leads to what is behind the alias, or does nothing. -/
structure AllOrNothing (s : AddressSpace) (page kernelAlias : VirtualAddress) (p : PhysicalAddress)
    (writable : Bool) (m : Machine) (missing : List Level) : Prop where
  mapped_iff : (∃ m', s.map page kernelAlias writable m = .ok (.ok ()) m') ↔
    missing.length ≤ m.frames.supply
  mapped {m' : Machine} (hDone : s.map page kernelAlias writable m = .ok (.ok ()) m') :
    m'.memory.leaf? s.root page = .ok (some (Entry.compose writable .user p.frame)) ∧
      s.translate m'.memory page = .ok (some p)
  not_mapped (hShort : m.frames.supply < missing.length) : ∃ m',
    s.NotMapped page kernelAlias writable m m' missing[m.frames.supply] ∧
      s.Retries page kernelAlias writable m m' missing.length

end AddressSpace

namespace Level

theorem length_below (level : Level) : level.below.length = level.height := by
  cases level <;> rfl

theorem mem_below {level l : Level} : level ∈ l.below ↔ l.depth < level.depth := by
  cases l <;> cases level <;> decide

theorem getElem?_below {level l : Level} {n : Nat} (h : level.depth = l.depth + n + 1) :
    l.below[n]? = some level := by
  obtain rfl : n = level.depth - (l.depth + 1) := by omega
  revert h
  cases l <;> cases level <;> decide

theorem below_suffix (level : Level) : level.below <:+ [.pdpt, .pd, .pt] := by
  cases level <;> decide

end Level

namespace Plan.Describes

variable {plan : Plan} {kernel r t : Frame} {roots held : List Frame} {m m' : Machine}
  {s : AddressSpace} {page kernelAlias : VirtualAddress} {p : PhysicalAddress} {writable : Bool}
  {l : Level}

/-- Where a walk stops, all tables below are missing, and no others. -/
theorem lacks (h : plan.Describes kernel roots held m) (hRoot : r ∈ roots)
    (ht : plan t = some ⟨r, page.pathTo l⟩) (hBare : Bare m page l t) :
    m.memory.Lacks r page l.below := by
  have hLeads : m.memory.Leads r (page.pathTo l) t := ((h.fits.leads_iff (Or.inr hRoot)).2 ht).1
  refine ⟨l.below_suffix, fun level => ?_⟩
  rw [Level.mem_below]
  constructor
  · intro hDepth u hu
    have hLevel : l ≠ .pt := by
      rintro rfl
      cases level <;> simp [Level.depth] at hDepth
    obtain ⟨below, hNext⟩ := Level.exists_next? hLevel
    have hBelow := Level.depth_of_next? hNext
    obtain ⟨g, hg⟩ := hu.above (page.pathTo_suffix (l := below) (by omega))
    rw [VirtualAddress.pathTo_of_next? hNext] at hg
    cases hg with
    | entry hAbove _ hTarget =>
      rw [hAbove.unique hLeads, hBare.entry_eq hLevel, Entry.target_empty] at hTarget
      simp at hTarget
  · intro hNone
    by_contra hDepth
    obtain ⟨u, hu⟩ := hLeads.above (page.pathTo_suffix (Nat.le_of_not_lt hDepth))
    exact hNone u hu

theorem lacks_all (h : plan.Describes kernel roots held m) (hRoot : r ∈ roots) (hUser : page.isUser = true)
    (hOnly : ∀ t path, plan t = some ⟨r, path⟩ → t = r) : m.memory.Lacks r page [.pdpt, .pd, .pt] := by
  have hPlace := h.fits.root_place hRoot
  obtain ⟨l, t, -, ht, hBare⟩ := h.bare (h.fits.ownHalf hRoot hUser) hPlace
  obtain rfl := hOnly _ _ ht
  have hPath := congrArg List.length (Place.mk.inj (Option.some.inj (ht.symm.trans hPlace))).2
  rw [VirtualAddress.length_pathTo] at hPath
  obtain rfl : l = .pml4 := Level.depth_inj hPath
  exact h.lacks hRoot ht hBare

/-- The page is mapped just when the supply lasts. -/
theorem mapped_iff (hMap : s.Mappable page kernelAlias p)
    (hDescends : m.memory.Descends page .pml4 s.root l t) (hBare : Bare m page l t)
    (hAbsent : l = .pt → (m.memory.entry ⟨t, Level.pt.indexOf page⟩).present = false) :
    (∃ m', s.map page kernelAlias writable m = .ok (.ok ()) m') ↔ l.height ≤ m.frames.supply := by
  constructor
  · rintro ⟨m', hRun⟩
    by_contra hShort
    obtain ⟨level, x, -, hFail, -, -⟩ :=
      map_undone hMap hDescends hBare (Nat.lt_of_not_le hShort) writable
    rw [hRun] at hFail
    cases hFail
  · intro hSupply
    exact ⟨_, map_mapped hMap hDescends hBare hSupply hAbsent writable⟩

theorem stop_eq (h : plan.Describes kernel roots held m) (h' : plan.Describes kernel roots held m')
    (hRoot : r ∈ roots) (ht : plan t = some ⟨r, page.pathTo l⟩) (hBare : Bare m page l t)
    {l' : Level} {t' : Frame} (ht' : plan t' = some ⟨r, page.pathTo l'⟩) (hBare' : Bare m' page l' t') :
    l' = l ∧ t' = t := by
  have hLeads := ((h.fits.leads_iff (Or.inr hRoot)).2 ht').1
  have hLeads' := ((h'.fits.leads_iff (Or.inr hRoot)).2 ht).1
  have hLe : l'.depth ≤ l.depth := by
    by_contra hLt
    have hLacks := (h.lacks hRoot ht hBare).mem_iff l'
    exact hLacks.1 (Level.mem_below.2 (Nat.lt_of_not_le hLt)) t' hLeads
  have hGe : l.depth ≤ l'.depth := by
    by_contra hLt
    have hLacks := (h'.lacks hRoot ht' hBare').mem_iff l
    exact hLacks.1 (Level.mem_below.2 (Nat.lt_of_not_le hLt)) t hLeads'
  obtain rfl := Level.depth_inj (Nat.le_antisymm hLe hGe)
  exact ⟨rfl, h.fits.place_inj ht' ht⟩

/-- On every machine with the plan the same tables are made, if its supply lasts for them. -/
theorem map_missing (h : plan.Describes kernel roots held m) (hRoot : s.root ∈ roots)
    (hMap : s.Mappable page kernelAlias p) (ht : plan t = some ⟨s.root, page.pathTo l⟩)
    (hBare : Bare m page l t) (hLevel : l ≠ .pt) (h' : plan.Describes kernel roots held m')
    (hSupply : l.height ≤ m'.frames.supply) :
    s.map page kernelAlias writable m' = .ok (.ok ()) (m'.mapped page p.frame writable l t) := by
  obtain ⟨l', t', hDescends, ht', hBare'⟩ :=
    h'.bare (h'.fits.ownHalf hRoot hMap.user) (h'.fits.root_place hRoot)
  obtain ⟨rfl, rfl⟩ := h.stop_eq h' hRoot ht hBare ht' hBare'
  exact map_mapped hMap hDescends hBare' hSupply (fun hl => absurd hl hLevel) writable

/-- What the first attempt left behind in free frames is overwritten by the second. -/
theorem retried (h : plan.Describes kernel roots held m) (hRoot : s.root ∈ roots)
    (hMap : s.Mappable page kernelAlias p) (ht : plan t = some ⟨s.root, page.pathTo l⟩)
    (hBare : Bare m page l t) (hShort : m.frames.supply < l.height) {level : Level}
    (hUndone : Undone m m' level page) : s.Retries page kernelAlias writable m m' l.height := by
  intro hEnough
  have hLevel : l ≠ .pt := Level.ne_pt_of_height (by omega)
  have hSecond : plan.Describes kernel roots held { m' with frames := m'.frames.unlimited } :=
    (h.undone hUndone).withFrames rfl rfl
  refine ⟨_, h.map_missing hRoot hMap ht hBare hLevel hSecond hEnough, ?_⟩
  intro a hFree hUse hSupply
  have hFirst : plan.Describes kernel roots held { m with frames := a } := h.withFrames hFree hUse
  -- The frames that hold other bytes are among those that the second attempt clears.
  have hGrow : m'.memory.grow page l t (m.frames.free.take l.height) =
      m.memory.grow page l t (m.frames.free.take l.height) := by
    refine Memory.AgreeOn.grow (hUndone.agree.mono fun g hg hMem => hg ?_) (h.fits.holds ht)
      (h.take_holds _) (List.length_take_le _ _)
    exact (List.take_subset_take_left _ (Nat.le_of_lt hShort)) hMem
  refine ⟨_, h.map_missing hRoot hMap ht hBare hLevel hFirst hSupply, ?_, ?_, ?_⟩
  · simp only [Machine.mapped, Machine.leafTable, FrameAllocator.unlimited, hFree, hUndone.free_eq,
      hGrow]
  · simp only [Machine.mapped, FrameAllocator.serve, FrameAllocator.unlimited, hFree, hUndone.free_eq]
  · simp only [Machine.mapped, FrameAllocator.serve, FrameAllocator.unlimited, hFree, hUse,
      hUndone.free_eq, hUndone.inUse_eq]

theorem allOrNothing (h : plan.Describes kernel roots held m) (hRoot : s.root ∈ roots)
    (hMap : s.Mappable page kernelAlias p) (hDescends : m.memory.Descends page .pml4 s.root l t)
    (ht : plan t = some ⟨s.root, page.pathTo l⟩) (hBare : Bare m page l t)
    (hAbsent : l = .pt → (m.memory.entry ⟨t, Level.pt.indexOf page⟩).present = false) :
    s.AllOrNothing page kernelAlias p writable m l.below := by
  refine ⟨?_, fun hDone => ⟨h.leaf?_of_map hRoot hMap hDone, h.translate_of_map hRoot hMap hDone⟩,
    fun hShort => ?_⟩
  · rw [Level.length_below]
    exact mapped_iff hMap hDescends hBare hAbsent
  · have hHeight := l.length_below
    obtain ⟨level, m', hWalk, hRun, hDepth, hUndone⟩ :=
      map_undone hMap hDescends hBare (hHeight ▸ hShort) writable
    obtain ⟨_, rfl⟩ := List.getElem?_eq_some_iff.1 (Level.getElem?_below hDepth)
    refine ⟨m', ⟨hWalk, hRun, hUndone.free_eq, hUndone.inUse_eq, ?_⟩, ?_⟩
    · exact hUndone.agree.mono fun g hg hMem => hg (List.mem_of_mem_take hMem)
    · rw [hHeight]
      exact h.retried hRoot hMap ht hBare (hHeight ▸ hShort) hUndone

end Plan.Describes

variable {frames : Nat} {k : KernelSpace} {m : Machine} {events : List Event} {σ : System}

/-- After every run from booting on, a page of a live space that is not mapped can be mapped just when
frames are left for the tables that it lacks, and leads to what is behind the alias then; otherwise nothing
happens. A page that is mapped cannot be mapped again. -/
theorem Run.maps_all_or_nothing (hFrames : frames ≤ 2 ^ 40) (hBoot : Machine.boot frames = .ok (k, m))
    (hRun : Run (.booted k m) events σ) {s : AddressSpace} (hs : s ∈ σ.live)
    {page kernelAlias : VirtualAddress} {p : PhysicalAddress} (hPage : page.isAligned = true)
    (hUser : page.isUser = true) (hAlias : kernelAlias.isAligned = true)
    (hBehind : Memory.behind kernelAlias = .ok p) (writable : Bool) :
    ∃ missing, σ.machine.memory.Lacks s.root page missing ∧
      ((s.translate σ.machine.memory page = .ok none ∧
          s.AllOrNothing page kernelAlias p writable σ.machine missing) ∨
        (∃ q, s.translate σ.machine.memory page = .ok (some q)) ∧
          s.map page kernelAlias writable σ.machine = .error (.alreadyMapped page) σ.machine) := by
  obtain ⟨plan, hStart⟩ := System.tracks_booted hFrames hBoot
  obtain ⟨-, plan', hTracks, -⟩ := hRun.tracks hStart
  have h := hTracks.describes
  have hRoot := Plan.Tracks.root_mem hs
  have hMap : s.Mappable page kernelAlias p :=
    ⟨hPage, hAlias, hUser, hTracks.isKernel_of_live hs, hBehind⟩
  obtain ⟨l, t, hDescends, ht, hBare⟩ := h.bare (h.fits.ownHalf hRoot hUser) (h.fits.root_place hRoot)
  refine ⟨l.below, h.lacks hRoot ht hBare, ?_⟩
  rcases h.stop_cases hRoot hUser ht hBare with ⟨hNone, hAbsent⟩ | ⟨hSome, rfl, hPresent⟩
  · exact Or.inl ⟨hNone, h.allOrNothing hRoot hMap hDescends ht hBare hAbsent⟩
  · exact Or.inr ⟨hSome, Plan.Describes.map_present hMap hDescends (h.fits.holds ht) hPresent⟩

/-- A first page, at 4 MiB, in a space of a machine of sixteen frames: all three tables are missing. With the
frames that are left it is mapped to the frame of the caller. Under a limit of one frame there is none for the
second table; the attempt comes to nothing, and it succeeds when the limit is lifted. -/
theorem Run.maps_all_or_nothing_sixteen : ∃ (k : KernelSpace) (m : Machine) (f : Frame) (events : List Event)
    (σ σ' : System) (s : AddressSpace) (kernelAlias : VirtualAddress), Machine.boot 16 = .ok (k, m) ∧
    Run (.booted k m) events σ ∧ s ∈ σ.live ∧ kernelAlias.isAligned = true ∧
    Memory.behind kernelAlias = .ok f.base ∧
    σ.machine.memory.Lacks s.root ⟨0x400000⟩ [.pdpt, .pd, .pt] ∧
    s.translate σ.machine.memory ⟨0x400000⟩ = .ok none ∧
    (∃ m', s.map ⟨0x400000⟩ kernelAlias true σ.machine = .ok (.ok ()) m' ∧
      s.translate m'.memory ⟨0x400000⟩ = .ok (some f.base)) ∧
    σ.perform (.limit 1) = (.done, σ') ∧ ∃ m', s.NotMapped ⟨0x400000⟩ kernelAlias true σ'.machine m' .pd ∧
      ∃ x, s.map ⟨0x400000⟩ kernelAlias true { m' with frames := m'.frames.unlimited } = .ok (.ok ()) x := by
  obtain ⟨k, m, f, s, σ, plan, hBoot, hRun, hTracks, hs, -, hNumber, hSupply, hOnly, hNothing⟩ :=
    @Run.exists_space 16 (by decide) (by decide)
  obtain ⟨hAlias, hBehind, -⟩ := Frame.behind_alias (Frame.base_in_directMap (f := f) (by omega))
  have hUser : VirtualAddress.isUser ⟨0x400000⟩ = true := by decide
  have hNone := AddressSpace.translate_of_none (hNothing ⟨0x400000⟩ hUser)
  have hLacks := hTracks.describes.lacks_all (Plan.Tracks.root_mem hs) hUser hOnly
  obtain ⟨σ', hLimit, hLive, hMemory, hFrames⟩ : ∃ σ', σ.perform (.limit 1) = (.done, σ') ∧ σ'.live = σ.live ∧
      σ'.machine.memory = σ.machine.memory ∧ σ'.machine.frames = σ.machine.frames.limitTo 1 :=
    ⟨_, rfl, rfl, rfl, rfl⟩
  have hLimited := hRun.next (.limit 1) trivial
  rw [hLimit] at hLimited
  obtain ⟨missing, hSame, hCases⟩ := Run.maps_all_or_nothing (by decide) hBoot hRun hs
    (by decide) hUser hAlias hBehind true
  obtain ⟨missing', hSame', hCases'⟩ := Run.maps_all_or_nothing (by decide) hBoot hLimited (hLive ▸ hs)
    (by decide) hUser hAlias hBehind true
  rw [hMemory] at hSame' hCases'
  obtain rfl := hSame.unique hLacks
  obtain rfl := hSame'.unique hLacks
  rcases hCases with ⟨-, hMaps⟩ | ⟨⟨q, hSome⟩, -⟩
  · rcases hCases' with ⟨-, hFails⟩ | ⟨⟨q, hSome⟩, -⟩
    · have hEnough : 3 ≤ σ.machine.frames.supply := by omega
      have hFree := σ.machine.frames.supply_le_length
      have hOne : σ'.machine.frames.supply = 1 := by
        rw [hFrames, FrameAllocator.supply_limitTo]
        omega
      obtain ⟨m', hDone⟩ := hMaps.mapped_iff.2 hEnough
      obtain ⟨x, hRefused, hRetry⟩ := hFails.not_mapped (hOne ▸ by decide)
      simp only [hOne] at hRefused
      obtain ⟨x', hRetried, -⟩ := hRetry (by
        rw [hRefused.free_eq, hFrames]
        exact Nat.le_trans hEnough hFree)
      exact ⟨k, m, f, _, σ, σ', s, _, hBoot, hRun, hs, hAlias, hBehind, hLacks, hNone,
        ⟨m', hDone, (hMaps.mapped hDone).2⟩, hLimit, x, hRefused, x', hRetried⟩
    · cases hNone.symm.trans hSome
  · cases hNone.symm.trans hSome

end PagedKernel
