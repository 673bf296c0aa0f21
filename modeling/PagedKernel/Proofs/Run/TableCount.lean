import Mathlib.Data.Set.Card
import PagedKernel.Proofs.AddressSpace.Dependence
import PagedKernel.Proofs.Run.Invariant

/-!
# The tables of a space, counted

Mapping a page makes the tables that are missing on its way, and no table goes before its space does. So a
space has its root table and the tables on the way to the pages that were mapped in it since it was created,
no matter which of them were unmapped later, and which attempts have failed in between.

* `AddressSpace.installed`: the pages that were mapped in a space since it was created.
* `tableCount`, `card_treePaths`: how many tables there are on the way to pages.
* `Plan.Carries`: the plan has tables on the way to these pages and no others.
* `Plan.Tracks.carries_perform`, `Run.carries`: a request keeps that, and so does a run.
* `Plan.Fits.ncard_userTables`: so the tables can be counted.
-/

namespace PagedKernel

/-- What an event makes of the pages that were mapped in a space since it was created. -/
def AddressSpace.install (s : AddressSpace) (pages : List VirtualAddress) : Event → List VirtualAddress
  | ⟨.create, .made s'⟩ => if s' = s then [] else pages
  | ⟨.map s' page _ _, .done⟩ => if s' = s then page :: pages else pages
  | _ => pages

/-- The pages that were mapped in a space since it was created. The events are listed latest first, and so
are the pages. -/
def AddressSpace.installed (s : AddressSpace) : List Event → List VirtualAddress
  | [] => []
  | e :: earlier => s.install (s.installed earlier) e

/-- The paths to the tables of a level that are on the way to the pages. -/
def tablePaths (level : Level) (pages : List VirtualAddress) : Finset (List TableIndex) :=
  (pages.map (·.pathTo level)).toFinset

/-- How many tables there are on the way to the pages, the root table left out of account. -/
def tableCount (pages : List VirtualAddress) : Nat :=
  (tablePaths .pdpt pages).card + (tablePaths .pd pages).card + (tablePaths .pt pages).card

def treePaths (pages : List VirtualAddress) : Finset (List TableIndex) :=
  insert [] (tablePaths .pdpt pages ∪ tablePaths .pd pages ∪ tablePaths .pt pages)

/-- Below the root the plan has the tables on the way to the pages, and no others. -/
def Plan.Carries (plan : Plan) (root : Frame) (pages : List VirtualAddress) : Prop :=
  ∀ level ≠ Level.pml4, ∀ path : List TableIndex, path.length = level.depth →
    ((∃ t, plan t = some ⟨root, path⟩) ↔ path ∈ tablePaths level pages)

def System.Carries (σ : System) (pages : AddressSpace → List VirtualAddress) : Prop :=
  ∃ plan : Plan, plan.Tracks σ ∧ ∀ s ∈ σ.live, plan.Carries s.root (pages s)

variable {level : Level} {pages pages' : List VirtualAddress} {page : VirtualAddress}
  {path : List TableIndex}

theorem mem_tablePaths : path ∈ tablePaths level pages ↔ ∃ page ∈ pages, page.pathTo level = path := by
  rw [tablePaths, List.mem_toFinset, List.mem_map]

theorem tablePaths_cons (level : Level) (page : VirtualAddress) (pages : List VirtualAddress) :
    tablePaths level (page :: pages) = insert (page.pathTo level) (tablePaths level pages) := by
  rw [tablePaths, List.map_cons, List.toFinset_cons]
  rfl

theorem card_tablePaths_cons (level : Level) (page : VirtualAddress) (pages : List VirtualAddress) :
    (tablePaths level (page :: pages)).card = (tablePaths level pages).card +
      if page.pathTo level ∈ tablePaths level pages then 0 else 1 := by
  rw [tablePaths_cons, Finset.card_insert_eq_ite]
  split <;> rfl

theorem tablePaths_subset (level : Level) (pages pages' : List VirtualAddress) :
    tablePaths level pages' ⊆ tablePaths level (pages ++ pages') := by
  intro path hMem
  obtain ⟨page, hPage, hPath⟩ := mem_tablePaths.1 hMem
  exact mem_tablePaths.2 ⟨page, List.mem_append_right pages hPage, hPath⟩

theorem tableCount_le_append (pages pages' : List VirtualAddress) :
    tableCount pages' ≤ tableCount (pages ++ pages') :=
  Nat.add_le_add (Nat.add_le_add (Finset.card_le_card (tablePaths_subset ..))
    (Finset.card_le_card (tablePaths_subset ..))) (Finset.card_le_card (tablePaths_subset ..))

theorem length_of_mem_tablePaths (h : path ∈ tablePaths level pages) : path.length = level.depth := by
  obtain ⟨page, -, rfl⟩ := mem_tablePaths.1 h
  exact VirtualAddress.length_pathTo level

theorem tablePaths_disjoint {l : Level} (h : l ≠ level) (pages : List VirtualAddress) :
    Disjoint (tablePaths l pages) (tablePaths level pages) := by
  refine Finset.disjoint_left.2 fun path hl hLevel => h (Level.depth_inj ?_)
  rw [← length_of_mem_tablePaths hl, length_of_mem_tablePaths hLevel]

/-- The order of the pages does not count. -/
theorem tablePaths_perm (h : pages.Perm pages') (level : Level) :
    tablePaths level pages = tablePaths level pages' :=
  List.toFinset_eq_of_perm _ _ (h.map _)

theorem tableCount_perm (h : pages.Perm pages') : tableCount pages = tableCount pages' := by
  rw [tableCount, tableCount, tablePaths_perm h, tablePaths_perm h, tablePaths_perm h]

theorem card_treePaths (pages : List VirtualAddress) : (treePaths pages).card = 1 + tableCount pages := by
  rw [treePaths, Finset.card_insert_of_notMem, Finset.card_union_of_disjoint,
    Finset.card_union_of_disjoint (tablePaths_disjoint (by decide) pages), tableCount, Nat.add_comm]
  · exact Finset.disjoint_union_left.2
      ⟨tablePaths_disjoint (by decide) pages, tablePaths_disjoint (by decide) pages⟩
  · simp only [Finset.mem_union, not_or]
    refine ⟨⟨fun hMem => ?_, fun hMem => ?_⟩, fun hMem => ?_⟩ <;>
      cases length_of_mem_tablePaths hMem

namespace Plan

variable {plan plan' : Plan} {kernel root r f : Frame} {roots held : List Frame} {m : Machine}

theorem Carries.of_sameTree (h : plan.Carries root pages) (hSame : SameTree root plan plan') :
    plan'.Carries root pages := by
  intro level hLevel path hLength
  rw [← h level hLevel path hLength]
  exact exists_congr fun t => hSame t path

theorem Carries.cut (h : plan.Carries root pages) (hPlace : plan f = some ⟨r, path⟩)
    (hLength : path.length = 4) : (plan.cut f).Carries root pages := by
  intro level hLevel path' hLength'
  rw [← h level hLevel path' hLength']
  refine exists_congr fun t => ⟨fun ht => (cut_eq_some.1 ht).2, fun ht => cut_eq_some.2 ⟨?_, ht⟩⟩
  rintro rfl
  rw [hPlace] at ht
  obtain ⟨-, rfl⟩ := Place.mk.inj (Option.some.inj ht)
  have hDepth := level.depth_lt
  omega

theorem Fits.carries_put (h : plan.Fits kernel roots m.memory) (hNew : plan r = none) :
    (plan.put r ⟨r, []⟩).Carries r [] := by
  intro level hLevel path hLength
  refine iff_of_false ?_ (by simp [mem_tablePaths])
  rintro ⟨t, ht⟩
  rcases (put_eq_some hNew).1 ht with ⟨-, hPlace⟩ | hOld
  · -- The root is at no level but the first one.
    obtain ⟨-, rfl⟩ := Place.mk.inj hPlace
    exact hLevel (Level.depth_inj (l := .pml4) hLength.symm)
  · rw [(h.root_of_place hOld).1] at hNew
    cases hNew

/-- A page is mapped: the tables on its way come to those that were there. -/
theorem Carries.mapped (h : plan.Carries root pages) (hDescribes : plan.Describes kernel roots held m)
    (hHeld : f ∈ held) {l : Level} {roots' : List Frame} {m' : Memory}
    (hFits : (Describes.mappedPlan plan m root page f l).Fits kernel roots' m') :
    (Describes.mappedPlan plan m root page f l).Carries root (page :: pages) := by
  intro level hLevel path hLength
  have hFs := hDescribes.take_nodup l.height
  have hNew := hDescribes.take_new l.height
  have hDepth := level.depth_lt
  have hPage : Describes.mappedPlan plan m root page f l f = some ⟨root, page.path⟩ := put_self ..
  rw [tablePaths_cons, Finset.mem_insert]
  constructor
  · rintro ⟨t, ht⟩
    have hNe : t ≠ f := by
      rintro rfl
      rw [hPage] at ht
      rw [← (Place.mk.inj (Option.some.inj ht)).2] at hLength
      exact absurd hLength (Nat.ne_of_gt hDepth)
    rw [Describes.mappedPlan, put_of_ne hNe] at ht
    rcases grow_eq_some hFs hNew ht with hOld | ⟨-, l', -, hPlace⟩
    · exact Or.inr ((h level hLevel path hLength).1 ⟨t, hOld⟩)
    · obtain ⟨-, rfl⟩ := Place.mk.inj hPlace
      rw [VirtualAddress.length_pathTo] at hLength
      rw [Level.depth_inj hLength]
      exact Or.inl rfl
  · rintro (rfl | hMem)
    · obtain ⟨t, ht, -, -⟩ := hFits.parent hPage
      exact hFits.exists_table ht level
    · obtain ⟨t, ht⟩ := (h level hLevel path hLength).2 hMem
      refine ⟨t, ?_⟩
      rw [Describes.mappedPlan, put_of_ne]
      · exact grow_of_eq_some hFs hNew ht
      · rintro rfl
        rw [hDescribes.accounts.held_new hHeld] at ht
        cases ht

/-- The root table has the empty path. The paths of the tables below it are those to the pages. -/
theorem Carries.exists_place_iff (h : plan.Carries root pages) (hRoot : plan root = some ⟨root, []⟩) :
    (path.length < 4 ∧ ∃ t, plan t = some ⟨root, path⟩) ↔ path ∈ treePaths pages := by
  simp only [treePaths, Finset.mem_insert, Finset.mem_union]
  constructor
  · rintro ⟨hLength, hPlace⟩
    obtain ⟨level, hLevel⟩ := Level.exists_depth hLength
    cases level with
    | pml4 => exact Or.inl (List.length_eq_zero_iff.1 hLevel)
    | pdpt => exact Or.inr (Or.inl (Or.inl ((h .pdpt nofun path hLevel).1 hPlace)))
    | pd => exact Or.inr (Or.inl (Or.inr ((h .pd nofun path hLevel).1 hPlace)))
    | pt => exact Or.inr (Or.inr ((h .pt nofun path hLevel).1 hPlace))
  · have hTable : ∀ level ≠ Level.pml4, path ∈ tablePaths level pages →
        path.length < 4 ∧ ∃ t, plan t = some ⟨root, path⟩ := by
      intro level hLevel hMem
      have hLength := length_of_mem_tablePaths hMem
      exact ⟨hLength ▸ level.depth_lt, (h level hLevel path hLength).2 hMem⟩
    rintro (rfl | (hMem | hMem) | hMem)
    · exact ⟨Nat.zero_lt_succ 3, root, hRoot⟩
    · exact hTable .pdpt nofun hMem
    · exact hTable .pd nofun hMem
    · exact hTable .pt nofun hMem

/-- The tables of a space are its root table and those on the way to the pages. -/
theorem Fits.ncard_userTables {s : AddressSpace} (h : plan.Fits kernel roots m.memory) (hr : s.root ∈ roots)
    (hCarries : plan.Carries s.root pages) :
    {f | s.UserTable m.memory f}.ncard = 1 + tableCount pages := by
  have hPlanned : ∀ f, s.UserTable m.memory f ↔
      ∃ path, path.length < 4 ∧ plan f = some ⟨s.root, path⟩ := by
    intro f
    refine exists_congr fun path => and_congr_right fun _ => ?_
    rw [← h.leads_iff (Or.inr hr), h.ownPath_iff hr, and_comm]
  -- Every table is told from the others by its path.
  let pathOf : Frame → List TableIndex := fun f => ((plan f).map (·.path)).getD []
  have hPath : ∀ {f path}, plan f = some ⟨s.root, path⟩ → pathOf f = path := by
    intro f path hf
    simp only [pathOf, hf, Option.map_some, Option.getD_some]
  have hInj : Set.InjOn pathOf {f | s.UserTable m.memory f} := by
    intro f hf g hg hEq
    obtain ⟨p, -, hf⟩ := (hPlanned f).1 hf
    obtain ⟨q, -, hg⟩ := (hPlanned g).1 hg
    rw [hPath hf, hPath hg] at hEq
    exact h.place_inj hf (hEq ▸ hg)
  have hImage : pathOf '' {f | s.UserTable m.memory f} = (treePaths pages : Set (List TableIndex)) := by
    ext path
    rw [Finset.mem_coe, ← hCarries.exists_place_iff (h.root_place hr), Set.mem_image]
    constructor
    · rintro ⟨f, hf, rfl⟩
      obtain ⟨path, hLength, hPlace⟩ := (hPlanned f).1 hf
      rw [hPath hPlace]
      exact ⟨hLength, f, hPlace⟩
    · rintro ⟨hLength, f, hPlace⟩
      exact ⟨f, (hPlanned f).2 ⟨path, hLength, hPlace⟩, hPath hPlace⟩
  rw [← hInj.ncard_image, hImage, Set.ncard_coe_finset, card_treePaths]

/-! ## Requests -/

namespace Tracks

variable {σ σ' : System} {s : AddressSpace} {request : Request} {pages : AddressSpace → List VirtualAddress}

theorem carries_kept (hCarries : ∀ s ∈ σ.live, plan.Carries s.root (pages s)) (h : plan.Tracks σ')
    (hLive : σ'.live = σ.live) : σ'.Carries pages :=
  ⟨plan, h, fun s hs => hCarries s (hLive ▸ hs)⟩

section Requests

variable (h : plan.Tracks σ) (hCarries : ∀ s ∈ σ.live, plan.Carries s.root (pages s))

include h hCarries

theorem carries_create : (σ.perform .create).2.Carries fun s =>
    s.install (pages s) ⟨.create, (σ.perform .create).1⟩ := by
  rcases h.perform_create with ⟨e, hReply, hQuiet⟩ | ⟨r, m, hMade, hNew, hAfter, -, -⟩
  · rw [hReply]
    exact carries_kept hCarries hQuiet.tracks hQuiet.live_eq
  · rw [hMade]
    refine ⟨_, hAfter, fun s hs => ?_⟩
    show Carries _ s.root (if (⟨r, σ.kernel.root⟩ : AddressSpace) = s then [] else pages s)
    split
    next hEq =>
      subst hEq
      exact h.describes.fits.carries_put hNew
    next hNe =>
      have hOld := (List.mem_cons.1 hs).resolve_left fun hEq => hNe hEq.symm
      refine (hCarries s hOld).of_sameTree (sameTree_put hNew fun hRoot => hNe ?_)
      exact hAfter.eq_of_root List.mem_cons_self hs hRoot

theorem carries_map {page kernelAlias : VirtualAddress} {writable : Bool}
    (hAllowed : σ.Allowed (.map s page kernelAlias writable)) :
    (σ.perform (.map s page kernelAlias writable)).2.Carries fun s' => s'.install (pages s')
      ⟨.map s page kernelAlias writable, (σ.perform (.map s page kernelAlias writable)).1⟩ := by
  rcases h.perform_map hAllowed with ⟨-, hFailed, hQuiet⟩ | ⟨hs, p, m, l, hMap, hDone, hAfter, -⟩
  · generalize (σ.perform (.map s page kernelAlias writable)).1 = reply at hFailed
    cases reply with
    | done => exact absurd rfl hFailed
    | given | made | notMade | notMapped | copied | filled | broken =>
      exact carries_kept hCarries hQuiet.tracks hQuiet.live_eq
  · rw [hDone]
    refine ⟨_, hAfter, fun s' hs' => ?_⟩
    have hHeld := hAllowed.2 p hMap.alias_eq
    show Carries _ s'.root (if s = s' then page :: pages s' else pages s')
    split
    next hEq =>
      subst hEq
      exact (hCarries s hs).mapped h.describes hHeld hAfter.describes.fits
    next hNe =>
      refine (hCarries s' hs').of_sameTree (h.describes.sameTree_mapped (fun hRoot => hNe ?_) hHeld page l)
      exact h.eq_of_root hs hs' hRoot

theorem carries_unmap (hs : σ.Knows s) (page : VirtualAddress) :
    (σ.perform (.unmap s page)).2.Carries pages := by
  rcases h.perform_unmap hs page with
    ⟨-, hQuiet, -⟩ | ⟨-, -, -, -, e, f, -, hPlace, hAfter, hReplaced⟩
  · exact carries_kept hCarries hQuiet.tracks hQuiet.live_eq
  · refine ⟨_, hAfter, fun s' hs' => (hCarries s' ?_).cut hPlace rfl⟩
    rwa [hReplaced.live_eq] at hs'

theorem carries_mark (hs : σ.Knows s) {f : Entry.Field} (hf : f = .dirty ∨ f = .accessed)
    {a : VirtualAddress} {on : Bool} {out : Reply × System}
    (hOut : σ.conclude (s.setLeafFlag f a on) (fun _ σ => (.done, σ)) = out) : out.2.Carries pages := by
  rcases h.conclude_setLeafFlag hs hf a on hOut with
    ⟨-, hQuiet, -⟩ | ⟨-, -, -, e, -, hAfter, hReplaced⟩
  · exact carries_kept hCarries hQuiet.tracks hQuiet.live_eq
  · exact carries_kept hCarries hAfter hReplaced.live_eq

theorem carries_destroy (hs : σ.Knows s) : (σ.perform (.destroy s)).2.Carries pages := by
  rcases h.perform_destroy hs with ⟨v, -, -, hQuiet⟩ | ⟨hLive, m, hDone, -, hAfter⟩
  · exact carries_kept hCarries hQuiet.tracks hQuiet.live_eq
  · rw [hDone]
    refine ⟨_, hAfter, fun s' hs' => ?_⟩
    have hErased := (h.mem_map_erase hLive).1 (root_mem (σ := { σ with live := σ.live.erase s }) hs')
    have hNe := (h.describes.fits.roots_nodup.mem_erase_iff.1 hErased).1
    exact (hCarries s' (List.mem_of_mem_erase hs')).of_sameTree (sameTree_uproot hNe.symm)

/-- A request keeps the tables in step with the pages. -/
theorem carries_perform (hAllowed : σ.Allowed request) : (σ.perform request).2.Carries fun s =>
    s.install (pages s) ⟨request, (σ.perform request).1⟩ := by
  have hKept : ∀ {σ'}, σ.Quiet plan σ' → σ'.Carries pages :=
    fun hQuiet => carries_kept hCarries hQuiet.tracks hQuiet.live_eq
  cases request with
  | alloc =>
    obtain ⟨f, -, hQuiet⟩ := h.perform_alloc
    exact hKept hQuiet
  | free f =>
    obtain ⟨m, hDone, hQuiet⟩ := h.free_held hAllowed
    rw [hDone]
    exact hKept hQuiet
  | limit n => exact hKept (h.quiet_of_memory_eq rfl rfl rfl)
  | unlimit => exact hKept (h.quiet_of_memory_eq rfl rfl rfl)
  | create => exact h.carries_create hCarries
  | map s page kernelAlias writable => exact h.carries_map hCarries hAllowed
  | unmap s page => exact h.carries_unmap hCarries hAllowed page
  | markDirty s a on => exact h.carries_mark hCarries hAllowed (Or.inl rfl) rfl
  | markAccessed s a on => exact h.carries_mark hCarries hAllowed (Or.inr rfl) rfl
  | activate s => exact hKept (h.perform_activate s).2
  | destroy s => exact h.carries_destroy hCarries hAllowed
  | copyTo s dst bytes =>
    obtain ⟨o, -, hQuiet⟩ := h.perform_copyTo hAllowed dst bytes
    exact hKept hQuiet
  | copyFrom s src buffer =>
    obtain ⟨o, -, hQuiet⟩ := h.perform_copyFrom hAllowed src buffer
    exact hKept hQuiet
  | write p bytes => exact hKept (h.perform_write hAllowed).2

end Requests

end Tracks

end Plan

/-- A run keeps them in step. -/
theorem Run.carries {plan : Plan} {start σ : System} {events : List Event} (hRun : Run start events σ)
    (hStart : plan.Tracks start) (hNone : start.live = []) : σ.Carries fun s => s.installed events := by
  induction hRun with
  | start =>
    refine ⟨plan, hStart, fun s hs => ?_⟩
    rw [hNone] at hs
    cases hs
  | next before request hAllowed ih =>
    obtain ⟨plan', hTracks, hCarries⟩ := ih
    exact hTracks.carries_perform hCarries hAllowed

end PagedKernel
