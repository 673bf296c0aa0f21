import PagedKernel.Proofs.Run.Enumeration
import PagedKernel.Proofs.Run.Footprint
import PagedKernel.Proofs.Run.Spared
import PagedKernel.Proofs.Run.TableCount

/-!
# The order in which pages are mapped

The tables of a space are made in the order in which its pages are mapped, each of them in the frame that is
free first. So in another order the tables lie in other frames. But there are as many of them, and none of
this is seen by those who ask the space for its pages.

* `Install`, `System.Offers`: pages to be mapped, to frames that the caller holds.
* `Install.plant`, `System.Offers.foldl_plant`: what the addresses of a space have then.
* `Plan.Tracks.map_installs`, `Run.installs`: one page is mapped, and one after another.
* `AddressSpace.Alike`: two machines that cannot be told apart by asking a space.
* `Run.alike`: which runs lead to such machines.
* `Run.counts_tables`: the tables of a space, and its pages in two orders.
-/

namespace PagedKernel

/-- A page to be mapped: its address, the frame with the alias of it that is handed over, and whether the
page may be written. -/
structure Install where
  page : VirtualAddress
  frame : Frame
  kernelAlias : VirtualAddress
  writable : Bool

/-- The caller can have these pages mapped in a space: they are different pages, for which it holds
different frames. -/
structure System.Offers (σ : System) (s : AddressSpace) (xs : List Install) : Prop where
  mappable : ∀ x ∈ xs, ∃ p, s.Mappable x.page x.kernelAlias p ∧ p.frame = x.frame
  held : ∀ x ∈ xs, x.frame ∈ σ.held
  pages_nodup : (xs.map (·.page)).Nodup
  frames_nodup : (xs.map (·.frame)).Nodup

namespace AddressSpace

def installs (s : AddressSpace) (x : Install) : Event :=
  ⟨.map s x.page x.kernelAlias x.writable, .done⟩

def installing (s : AddressSpace) (xs : List Install) : List Event := (xs.map s.installs).reverse

/-- On both machines the space gives the same answers, and the same leaves are reported in the same order.
They have as many free frames. -/
structure Alike (s : AddressSpace) (m m' : Machine) : Prop where
  translate (a : VirtualAddress) : s.translate m'.memory a = s.translate m.memory a
  resolve (a : VirtualAddress) (access : Access) :
    s.resolve m'.memory a access = s.resolve m.memory a access
  visitUserLeaves {κ β : Type} (f : VirtualAddress → Entry → κ → κ) (k : κ) :
    ∃ out, s.visitUserLeaves (Visitor.observe (β := β) f) k m = .ok (.proceed, out) m ∧
      s.visitUserLeaves (Visitor.observe (β := β) f) k m' = .ok (.proceed, out) m'
  free_length : m'.frames.free.length = m.frames.free.length

end AddressSpace

/-! ## What the addresses have -/

namespace Install

/-- What addresses have after a page was mapped, from what they had before. -/
def plant (L : VirtualAddress → Option Entry) (x : Install) (b : VirtualAddress) : Option Entry :=
  if b.pathTo .pt = x.page.pathTo .pt then
    some (if b.path = x.page.path then Entry.compose x.writable .user x.frame else (L b).getD .empty)
  else L b

variable {L : VirtualAddress → Option Entry} {x y : Install} {xs ys : List Install} {b : VirtualAddress}

theorem pathTo_of_path {a b : VirtualAddress} (h : a.path = b.path) : a.pathTo .pt = b.pathTo .pt :=
  (List.cons.inj h).2

/-- Pages with different paths can be mapped in either order. -/
theorem plant_comm (h : x.page.path ≠ y.page.path) : plant (plant L x) y = plant (plant L y) x := by
  funext b
  simp only [plant]
  by_cases hx : b.path = x.page.path
  · have hy : b.path ≠ y.page.path := fun hy => h (hx.symm.trans hy)
    have hLeaf := pathTo_of_path hx
    simp only [hx, hLeaf, h, ↓reduceIte]
    split <;> simp
  · by_cases hy : b.path = y.page.path
    · have hLeaf := pathTo_of_path hy
      simp only [hy, hLeaf, h.symm, ↓reduceIte]
      split <;> simp
    · simp only [hx, hy, ↓reduceIte]
      split <;> split <;> simp_all

theorem getD_plant (h : b.path ≠ x.page.path) : (plant L x b).getD .empty = (L b).getD .empty := by
  rw [plant, if_neg h]
  split <;> rfl

end Install

variable {σ : System} {s : AddressSpace} {x : Install} {xs ys : List Install}

namespace System.Offers

theorem perm (h : σ.Offers s xs) (hPerm : xs.Perm ys) : σ.Offers s ys where
  mappable x hx := h.mappable x (hPerm.mem_iff.2 hx)
  held x hx := h.held x (hPerm.mem_iff.2 hx)
  pages_nodup := (hPerm.map _).nodup_iff.1 h.pages_nodup
  frames_nodup := (hPerm.map _).nodup_iff.1 h.frames_nodup

theorem path_ne (h : σ.Offers s xs) {y : Install} (hx : x ∈ xs) (hy : y ∈ xs) (hNe : x ≠ y) :
    x.page.path ≠ y.page.path := by
  intro hPath
  obtain ⟨p, hMap, -⟩ := h.mappable x hx
  obtain ⟨q, hMap', -⟩ := h.mappable y hy
  exact hNe (List.inj_on_of_nodup_map h.pages_nodup hx hy
    (VirtualAddress.eq_of_path_eq hMap.user hMap'.user hMap.aligned hMap'.aligned hPath))

theorem path_ne_head (h : σ.Offers s (x :: xs)) {y : Install} (hy : y ∈ xs) :
    y.page.path ≠ x.page.path := by
  refine h.path_ne (List.mem_cons_of_mem x hy) List.mem_cons_self ?_
  rintro rfl
  exact (List.nodup_cons.1 h.pages_nodup).1 (List.mem_map_of_mem hy)

/-- It does not count in which order the pages are mapped. -/
theorem foldl_plant (h : σ.Offers s xs) (hPerm : xs.Perm ys) (L : VirtualAddress → Option Entry) :
    xs.foldl Install.plant L = ys.foldl Install.plant L := by
  refine hPerm.foldl_eq' (fun x hx y hy M => ?_) L
  by_cases hEq : x = y
  · rw [hEq]
  · exact Install.plant_comm (h.path_ne hx hy hEq)

/-- Every page has its entry in the end. -/
theorem foldl_plant_page (h : σ.Offers s xs) (hx : x ∈ xs) (L : VirtualAddress → Option Entry) :
    xs.foldl Install.plant L x.page = some (Entry.compose x.writable .user x.frame) := by
  obtain ⟨before, after, rfl⟩ := List.append_of_mem hx
  have hLast : (before ++ x :: after).Perm (before ++ after ++ [x]) :=
    List.perm_middle.trans (List.perm_append_singleton x _).symm
  rw [h.foldl_plant hLast, List.foldl_append, List.foldl_cons, List.foldl_nil, Install.plant, if_pos rfl,
    if_pos rfl]

theorem tail (h : σ.Offers s (x :: xs)) {σ' : System} (hNodup : σ.held.Nodup)
    (hHeld : σ'.held = σ.held.erase x.frame) : σ'.Offers s xs where
  mappable y hy := h.mappable y (List.mem_cons_of_mem x hy)
  held y hy := by
    rw [hHeld, hNodup.mem_erase_iff]
    refine ⟨?_, h.held y (List.mem_cons_of_mem x hy)⟩
    intro hEq
    have hMem := List.mem_map_of_mem (f := Install.frame) hy
    rw [hEq] at hMem
    exact (List.nodup_cons.1 h.frames_nodup).1 hMem
  pages_nodup := (List.nodup_cons.1 h.pages_nodup).2
  frames_nodup := (List.nodup_cons.1 h.frames_nodup).2

end System.Offers

/-! ## The tables -/

theorem Memory.Lacks.length_eq {m : Memory} {root : Frame} {page : VirtualAddress} {missing : List Level}
    (h : m.Lacks root page missing) : missing.length = (if Level.pdpt ∈ missing then 1 else 0) +
      (if Level.pd ∈ missing then 1 else 0) + if Level.pt ∈ missing then 1 else 0 := by
  have hSuffix := h.suffix
  simp only [List.suffix_cons_iff, List.suffix_nil] at hSuffix
  rcases hSuffix with rfl | rfl | rfl | rfl <;> rfl

/-- The tables that a page lacks are those that it adds to the tables on the way to other pages. -/
theorem Plan.Fits.tableCount_cons {plan : Plan} {kernel root : Frame} {roots : List Frame} {m : Memory}
    {pages : List VirtualAddress} {page : VirtualAddress} {missing : List Level}
    (h : plan.Fits kernel roots m) (hr : root ∈ roots) (hCarries : plan.Carries root pages)
    (hUser : page.isUser = true) (hLacks : m.Lacks root page missing) :
    tableCount (page :: pages) = tableCount pages + missing.length := by
  have hNew : ∀ level ≠ Level.pml4,
      level ∈ missing ↔ page.pathTo level ∉ tablePaths level pages := by
    intro level hLevel
    rw [hLacks.mem_iff, ← hCarries level hLevel _ (VirtualAddress.length_pathTo level), not_exists]
    refine forall_congr' fun t => not_congr ?_
    have hOwn := (h.ownPath_iff hr).2 (page.inUserHalf_pathTo (page.indexOf_pml4_lt hUser) level)
    rw [← h.leads_iff (Or.inr hr), and_iff_left hOwn]
  rw [hLacks.length_eq, tableCount, tableCount, card_tablePaths_cons, card_tablePaths_cons,
    card_tablePaths_cons]
  simp only [hNew .pdpt (by decide), hNew .pd (by decide), hNew .pt (by decide), ite_not]
  omega

/-! ## One page after another -/

/-- A page that is not mapped is mapped, if the frames last for the tables that it lacks. -/
theorem Plan.Tracks.map_installs {plan : Plan} (h : plan.Tracks σ) (hs : s ∈ σ.live) {p : PhysicalAddress}
    (hMap : s.Mappable x.page x.kernelAlias p) (hFrame : p.frame = x.frame) (hHeld : x.frame ∈ σ.held)
    (hNone : s.translate σ.machine.memory x.page = .ok none) :
    ∃ missing, σ.machine.memory.Lacks s.root x.page missing ∧
      (missing.length ≤ σ.machine.frames.supply → ∃ σ',
        (∀ {start events}, Run start events σ → Run start (s.installs x :: events) σ') ∧
        σ'.live = σ.live ∧ σ'.held = σ.held.erase x.frame ∧
        σ'.machine.frames.supply = σ.machine.frames.supply - missing.length ∧
        σ'.machine.frames.free.length + missing.length = σ.machine.frames.free.length ∧
        Describes.Mapped (σ.live.map (·.root)) σ.machine σ'.machine s.root x.page
          (Entry.compose x.writable .user x.frame)) := by
  have hAllowed : σ.Allowed (.map s x.page x.kernelAlias x.writable) :=
    System.allowed_map (Or.inl hs) hMap.alias_eq (by rwa [hFrame]) x.writable
  rcases h.map_writes hs hMap x.writable with ⟨⟨q, hSome⟩, -⟩ | ⟨-, missing, hLacks, hEnd⟩
  · rw [hNone] at hSome
    cases hSome
  · refine ⟨missing, hLacks, fun hSupply => ?_⟩
    obtain ⟨m, hDone, hWrites⟩ := hEnd.resolve_left fun hShort => by omega
    rcases h.perform_map hAllowed with ⟨-, hFailed, -⟩ | ⟨-, p', m', l, hMap', hPerform, -, hMapped⟩
    · rw [System.perform, System.conclude_ok hDone] at hFailed
      exact absurd rfl hFailed
    · obtain rfl : p' = p := Except.ok.inj (hMap'.alias_eq.symm.trans hMap.alias_eq)
      rw [hFrame] at hPerform hMapped
      obtain rfl : m' = m := by
        obtain ⟨n, hRun, hAfter⟩ := System.exists_of_map_done hPerform
        obtain rfl : m = n := (EStateM.Result.ok.inj (hDone.symm.trans hRun)).2
        exact (congrArg System.machine hAfter).trans (System.machine_giveUp _ _)
      refine ⟨{ σ.withMachine m' with held := σ.held.erase x.frame }, fun hRun => ?_, rfl, rfl,
        hWrites.supply_eq, ?_, hMapped⟩
      · have hNext := hRun.next _ hAllowed
        rwa [hPerform] at hNext
      · have hEnough := hWrites.enough
        show m'.frames.free.length + _ = _
        rw [hWrites.free_eq, List.length_drop]
        omega

namespace AddressSpace

variable {events : List Event}

theorem installing_cons (s : AddressSpace) (x : Install) (xs : List Install) (events : List Event) :
    s.installing (x :: xs) ++ events = s.installing xs ++ s.installs x :: events := by
  rw [installing, List.map_cons, List.reverse_cons, List.append_assoc]
  rfl

theorem installed_cons (s : AddressSpace) (x : Install) (events : List Event) :
    s.installed (s.installs x :: events) = x.page :: s.installed events :=
  if_pos rfl

theorem installed_installing (s : AddressSpace) (xs : List Install) (events : List Event) :
    s.installed (s.installing xs ++ events) = (xs.map (·.page)).reverse ++ s.installed events := by
  induction xs generalizing events with
  | nil => rfl
  | cons x xs ih =>
    rw [installing_cons, ih, installed_cons, List.map_cons, List.reverse_cons, List.append_assoc]
    rfl

theorem translate_of_absent {m : Memory} {a : VirtualAddress} {o : Option Entry}
    (hLeaf : m.leaf? s.root a = .ok o) (h : (o.getD .empty).present = false) :
    s.translate m a = .ok none := by
  cases o with
  | none => exact translate_of_none hLeaf
  | some e =>
    have hTarget : e.target = .ok none := Entry.target_eq_none.2 h
    rw [translate, hLeaf]
    simp only [bind, Except.bind, hTarget]
    rfl

end AddressSpace

theorem Run.installs {plan₀ : Plan} {start : System} {events : List Event} (hStart : plan₀.Tracks start)
    (hNone : start.live = []) (hRun : Run start events σ) (hs : s ∈ σ.live) (hOffers : σ.Offers s xs)
    {L : VirtualAddress → Option Entry}
    (hLeaf : ∀ b : VirtualAddress, b.isUser = true → σ.machine.memory.leaf? s.root b = .ok (L b))
    (hAbsent : ∀ x ∈ xs, ((L x.page).getD .empty).present = false)
    (hSupply : tableCount (s.installed (s.installing xs ++ events)) ≤
      σ.machine.frames.supply + tableCount (s.installed events)) :
    ∃ σ', Run start (s.installing xs ++ events) σ' ∧ s ∈ σ'.live ∧
      (∀ b : VirtualAddress, b.isUser = true →
        σ'.machine.memory.leaf? s.root b = .ok (xs.foldl Install.plant L b)) ∧
      σ'.machine.frames.free.length + tableCount (s.installed (s.installing xs ++ events)) =
        σ.machine.frames.free.length + tableCount (s.installed events) := by
  induction xs generalizing σ events L with
  | nil => exact ⟨σ, hRun, hs, hLeaf, rfl⟩
  | cons x xs ih =>
    rw [AddressSpace.installing_cons] at hSupply ⊢
    obtain ⟨plan, hTracks, hCarries⟩ := hRun.carries hStart hNone
    obtain ⟨p, hMap, hFrame⟩ := hOffers.mappable x List.mem_cons_self
    obtain ⟨missing, hLacks, hInstall⟩ := hTracks.map_installs hs hMap hFrame
      (hOffers.held x List.mem_cons_self) (AddressSpace.translate_of_absent (hLeaf x.page hMap.user)
        (hAbsent x List.mem_cons_self))
    have hCount : tableCount (s.installed (s.installs x :: events)) =
        tableCount (s.installed events) + missing.length := by
      rw [AddressSpace.installed_cons]
      exact hTracks.describes.fits.tableCount_cons (Plan.Tracks.root_mem hs) (hCarries s hs) hMap.user hLacks
    have hMore := tableCount_le_append (xs.map (·.page)).reverse (s.installed (s.installs x :: events))
    rw [← AddressSpace.installed_installing] at hMore
    obtain ⟨σ₁, hNext, hLive, hHeld, hSupply₁, hFree, hMapped⟩ := hInstall (by omega)
    have hPlanted : ∀ b : VirtualAddress, b.isUser = true →
        σ₁.machine.memory.leaf? s.root b = .ok (Install.plant L x b) := by
      intro b hb
      rw [Install.plant]
      split
      next hRegion => exact hMapped.region b hb hRegion (L b) (hLeaf b hb)
      next hElse =>
        rw [hMapped.elsewhere _ (Plan.Tracks.root_mem hs) b hb fun hSame => hElse hSame.2]
        exact hLeaf b hb
    have hStill : ∀ y ∈ xs, ((Install.plant L x y.page).getD .empty).present = false := by
      intro y hy
      rw [Install.getD_plant (hOffers.path_ne_head hy)]
      exact hAbsent y (List.mem_cons_of_mem x hy)
    obtain ⟨σ', hRun', hs', hLeaf', hLength⟩ := ih (hNext hRun) (hLive ▸ hs)
      (hOffers.tail hTracks.describes.accounts.held_nodup hHeld) hPlanted hStill (by omega)
    exact ⟨σ', hRun', hs', hLeaf', by omega⟩

/-! ## Two orders -/

theorem Plan.Fits.leaf?_ext {plan plan' : Plan} {kernel r : Frame} {roots roots' : List Frame}
    {m m' : Memory} (h : plan.Fits kernel roots m) (h' : plan'.Fits kernel roots' m') (hr : r ∈ roots)
    (hr' : r ∈ roots') (hKernel : ∀ a, m'.leaf? kernel a = m.leaf? kernel a)
    (hUser : ∀ b : VirtualAddress, b.isUser = true → m'.leaf? r b = m.leaf? r b) (a : VirtualAddress) :
    m'.leaf? r a = m.leaf? r a := by
  by_cases hUpper : kernelRootStart ≤ (Level.pml4.indexOf a).val
  · rw [h'.leaf?_upper hr' hUpper, h.leaf?_upper hr hUpper, hKernel]
  · -- The canonical address with the same path is a user address.
    have hPath : (VirtualAddress.ofPath a.path).path = a.path := VirtualAddress.path_ofPath rfl
    rw [← Memory.leaf?_of_path_eq hPath, ← Memory.leaf?_of_path_eq hPath]
    exact hUser _ ((VirtualAddress.isUser_ofPath rfl).2
      (a.inUserHalf_pathTo (Nat.lt_of_not_le hUpper) .pt))

/-- Trees with the same leaves are traversed alike. -/
theorem Memory.Regular.leaves_ext {m m' : Memory} {root : Frame} (h : m.Regular root) (h' : m'.Regular root)
    (hLeaf : ∀ a, m'.leaf? root a = m.leaf? root a) : m'.leaves root = m.leaves root := by
  have hSorted : ∀ n : Memory, (n.leaves root).Pairwise fun x y => x.1.val < y.1.val :=
    fun n => List.pairwise_map.2 (n.pairwise_leafSlots root)
  have hNodup : ∀ n : Memory, (n.leaves root).Nodup := by
    refine fun n => (hSorted n).imp ?_
    rintro x _ hLt rfl
    exact UInt64.lt_irrefl _ hLt
  refine List.Perm.eq_of_pairwise (fun x y _ _ hLt hGt => absurd hGt (UInt64.lt_asymm hLt))
    (hSorted m') (hSorted m) ((List.perm_ext_iff_of_nodup (hNodup m') (hNodup m)).2 fun x => ?_)
  obtain ⟨a, e⟩ := x
  rw [h'.mem_leaves, h.mem_leaves, hLeaf]

namespace AddressSpace

theorem alike_of_leaf? {m m' : Machine} (h : m.memory.Regular s.root) (h' : m'.memory.Regular s.root)
    (hLeaf : ∀ a, m'.memory.leaf? s.root a = m.memory.leaf? s.root a)
    (hFree : m'.frames.free.length = m.frames.free.length) : s.Alike m m' where
  translate a := translate_congr (hLeaf a)
  resolve a access := resolve_congr (hLeaf a) access
  visitUserLeaves f k := by
    refine ⟨_, (enumerates_leaves s m h).visitUserLeaves_eq f k, ?_⟩
    rw [← h.leaves_ext h' hLeaf]
    exact (enumerates_leaves s m' h').visitUserLeaves_eq f k
  free_length := hFree

end AddressSpace

theorem Plan.Tracks.leaf?_fresh {plan : Plan} (h : plan.Tracks σ) (hs : s ∈ σ.live)
    (hCarries : plan.Carries s.root []) {b : VirtualAddress} (hb : b.isUser = true) :
    σ.machine.memory.leaf? s.root b = .ok none := by
  have hFits := h.describes.fits
  have hRoot := root_mem hs
  refine hFits.leaf?_of_none (hFits.ownHalf hRoot hb) (hFits.root_place hRoot) fun t ht => ?_
  have hMem := (hCarries .pt nofun _ (VirtualAddress.length_pathTo .pt)).1 ⟨t, ht⟩
  simp [mem_tablePaths] at hMem

variable {frames : Nat} {k : KernelSpace} {m : Machine} {events : List Event}

/-- After two runs from booting on a space cannot be told apart by asking it, if it has the same leaves at
user addresses. What it has elsewhere is the kernel's. -/
theorem Run.alike {plan₀ : Plan} (hStart : plan₀.Tracks (.booted k m)) {later : List Event} {σ₁ σ₂ : System}
    (hRun₁ : Run (.booted k m) events σ₁) (hRun₂ : Run (.booted k m) later σ₂) (hs₁ : s ∈ σ₁.live)
    (hs₂ : s ∈ σ₂.live) (hUser : ∀ b : VirtualAddress, b.isUser = true →
      σ₂.machine.memory.leaf? s.root b = σ₁.machine.memory.leaf? s.root b)
    (hFree : σ₂.machine.frames.free.length = σ₁.machine.frames.free.length) :
    s.Alike σ₁.machine σ₂.machine := by
  obtain ⟨hKernel₁, plan₁, hTracks₁, -⟩ := hRun₁.tracks hStart
  obtain ⟨hKernel₂, plan₂, hTracks₂, -⟩ := hRun₂.tracks hStart
  have hFits₁ := hTracks₁.describes.fits
  have hFits₂ := hTracks₂.describes.fits
  rw [hKernel₁] at hFits₁
  rw [hKernel₂] at hFits₂
  have hKernel : ∀ {events τ}, Run (.booted k m) events τ → ∀ a, τ.machine.memory.leaf? k.root a =
      m.memory.leaf? k.root a := fun hAny a =>
    (EditedRun.of_run hAny).leaf?_kernel System.followed_editsUserLeaves ⟨plan₀, hStart⟩ a
  have hLeaf := hFits₁.leaf?_ext hFits₂ (Plan.Tracks.root_mem hs₁) (Plan.Tracks.root_mem hs₂)
    (fun a => (hKernel hRun₂ a).trans (hKernel hRun₁ a).symm) hUser
  exact AddressSpace.alike_of_leaf? (hTracks₁.regular (Or.inl hs₁)) (hTracks₂.regular (Or.inl hs₂)) hLeaf
    hFree

/-- After every run from booting on a live space has its root table and the tables on the way to the pages
that were mapped in it, whatever was unmapped or has failed. So pages can be mapped in a fresh space in any
order when there are frames for these tables. All of them have their entries then, and by asking the space it
cannot be told in which order this was done. -/
theorem Run.counts_tables (hFrames : frames ≤ 2 ^ 40) (hBoot : Machine.boot frames = .ok (k, m))
    (hRun : Run (.booted k m) events σ) (hs : s ∈ σ.live) :
    {f | s.UserTable σ.machine.memory f}.ncard = 1 + tableCount (s.installed events) ∧
      (s.installed events = [] → ∀ xs ys : List Install, xs.Perm ys → σ.Offers s xs →
        tableCount (xs.map (·.page)) ≤ σ.machine.frames.supply →
        ∃ σ₁ σ₂, Run (.booted k m) (s.installing xs ++ events) σ₁ ∧
          Run (.booted k m) (s.installing ys ++ events) σ₂ ∧ s.Alike σ₁.machine σ₂.machine ∧
          ∀ x ∈ xs, σ₁.machine.memory.leaf? s.root x.page =
            .ok (some (Entry.compose x.writable .user x.frame))) := by
  obtain ⟨plan₀, hStart⟩ := System.tracks_booted hFrames hBoot
  obtain ⟨plan, hTracks, hCarries⟩ := hRun.carries hStart rfl
  refine ⟨hTracks.describes.fits.ncard_userTables (Plan.Tracks.root_mem hs) (hCarries s hs),
    fun hFresh xs ys hPerm hOffers hSupply => ?_⟩
  have hNothing : plan.Carries s.root [] := hFresh ▸ hCarries s hs
  have hLeaf : ∀ b : VirtualAddress, b.isUser = true → σ.machine.memory.leaf? s.root b = .ok none :=
    fun b hb => hTracks.leaf?_fresh hs hNothing hb
  have hCount : ∀ zs : List Install, zs.Perm xs →
      tableCount (s.installed (s.installing zs ++ events)) = tableCount (xs.map (·.page)) := by
    intro zs hZs
    rw [AddressSpace.installed_installing, hFresh, List.append_nil]
    exact tableCount_perm ((List.reverse_perm _).trans (hZs.map _))
  obtain ⟨σ₁, hRun₁, hs₁, hLeaf₁, hFree₁⟩ := hRun.installs hStart rfl hs hOffers hLeaf
    (fun _ _ => Entry.present_empty) (by rw [hCount xs (.refl _)]; omega)
  obtain ⟨σ₂, hRun₂, hs₂, hLeaf₂, hFree₂⟩ := hRun.installs hStart rfl hs (hOffers.perm hPerm) hLeaf
    (fun _ _ => Entry.present_empty) (by rw [hCount ys hPerm.symm]; omega)
  rw [hCount xs (.refl _)] at hFree₁
  rw [hCount ys hPerm.symm] at hFree₂
  refine ⟨σ₁, σ₂, hRun₁, hRun₂, hRun₁.alike hStart hRun₂ hs₁ hs₂ (fun b hb => ?_) (by omega),
    fun x hx => ?_⟩
  · rw [hLeaf₁ b hb, hLeaf₂ b hb, hOffers.foldl_plant hPerm]
  · obtain ⟨p, hMap, -⟩ := hOffers.mappable x hx
    rw [hLeaf₁ _ hMap.user, hOffers.foldl_plant_page hx]

theorem Run.exists_pair {frames : Nat} (hEnough : 9 ≤ frames) (hFrames : frames ≤ 2 ^ 40) :
    ∃ k m f g s σ, ∃ plan : Plan, Machine.boot frames = .ok (k, m) ∧
      Run (.booted k m)
        [⟨.create, .made s⟩, ⟨.alloc, .given (some g)⟩, ⟨.alloc, .given (some f)⟩] σ ∧ plan.Tracks σ ∧
      s ∈ σ.live ∧ f ∈ σ.held ∧ g ∈ σ.held ∧ f ≠ g ∧ f.number.toNat < frames ∧ g.number.toNat < frames ∧
      σ.machine.frames.supply = frames - 9 := by
  obtain ⟨k, m, hBoot, hSupply, hSize⟩ := @Machine.exists_boot frames (by omega) hFrames
  obtain ⟨plan, hStart⟩ := System.tracks_booted hFrames hBoot
  have hSupply₀ : (System.booted k m).machine.frames.supply = frames - 6 := Nat.eq_sub_of_add_eq hSupply
  obtain ⟨f, m₁, hAlloc₁, hMemory₁, hServed₁, hQuiet₁⟩ := hStart.alloc_served (by omega)
  have hSupply₁ : m₁.frames.supply = frames - 7 := by
    rw [hServed₁, FrameAllocator.supply_serve, hSupply₀]
    omega
  obtain ⟨g, m₂, hAlloc₂, hMemory₂, hServed₂, hQuiet₂⟩ :=
    hQuiet₁.tracks.alloc_served (show 0 < m₁.frames.supply by omega)
  have hSupply₂ : m₂.frames.supply = frames - 8 := by
    rw [hServed₂, FrameAllocator.supply_serve]
    show m₁.frames.supply - 1 = _
    omega
  have hAccounts := hQuiet₂.tracks.describes.accounts
  have hNumber : ∀ h ∈ [g, f], h.number.toNat < frames := by
    intro h hMem
    have hHolds : m₂.memory.holds h = true := hAccounts.holds_of_held hMem
    rw [hMemory₂] at hHolds
    have hLt : h.number.toNat < m₁.memory.frames := of_decide_eq_true hHolds
    rw [hMemory₁] at hLt
    exact Nat.lt_of_lt_of_eq hLt hSize
  obtain ⟨r, m₃, hCreate, -, hServed₃, hTracks, -, -⟩ :=
    hQuiet₂.tracks.create_served (show 0 < m₂.frames.supply by omega)
  have hRun₁ := (@Run.start (.booted k m)).next .alloc trivial
  rw [hAlloc₁] at hRun₁
  have hRun₂ := hRun₁.next .alloc trivial
  rw [hAlloc₂] at hRun₂
  have hRun₃ := hRun₂.next .create trivial
  rw [hCreate] at hRun₃
  refine ⟨k, m, f, g, ⟨r, k.root⟩, _, _, hBoot, hRun₃, hTracks, List.mem_cons_self,
    List.mem_cons_of_mem g List.mem_cons_self, List.mem_cons_self, ?_,
    hNumber f (List.mem_cons_of_mem g List.mem_cons_self), hNumber g List.mem_cons_self, ?_⟩
  · rintro rfl
    exact (List.nodup_cons.1 hAccounts.held_nodup).1 List.mem_cons_self
  · show m₃.frames.supply = _
    rw [hServed₃, FrameAllocator.supply_serve]
    show m₂.frames.supply - 1 = _
    omega

/-- On a machine of sixteen frames: two pages at 4 MiB and at 8 GiB, which have five tables together, in
both orders. -/
theorem Run.counts_tables_sixteen : ∃ k m events σ s x y, Machine.boot 16 = .ok (k, m) ∧
    Run (.booted k m) events σ ∧ s ∈ σ.live ∧ s.installed events = [] ∧ σ.Offers s [x, y] ∧
    tableCount [x.page, y.page] = 5 ∧ {f | s.UserTable σ.machine.memory f}.ncard = 1 ∧
    ∃ σ₁ σ₂, Run (.booted k m) (s.installing [x, y] ++ events) σ₁ ∧
      Run (.booted k m) (s.installing [y, x] ++ events) σ₂ ∧ s.Alike σ₁.machine σ₂.machine ∧
      ∀ z ∈ [x, y], σ₁.machine.memory.leaf? s.root z.page =
        .ok (some (Entry.compose z.writable .user z.frame)) := by
  obtain ⟨k, m, f, g, s, σ, plan, hBoot, hRun, hTracks, hs, hf, hg, hNe, hfNumber, hgNumber, hSupply⟩ :=
    @Run.exists_pair 16 (by decide) (by decide)
  let aliasOf : Frame → VirtualAddress := fun f => ⟨directMapBase + f.base.val⟩
  have hAlias : ∀ {h : Frame} {page : VirtualAddress}, h.number.toNat < 16 → page.isAligned = true →
      page.isUser = true → ∃ p, s.Mappable page (aliasOf h) p ∧ p.frame = h := by
    intro h page hNumber hAligned hUser
    obtain ⟨hAlias, hBehind, hFrame⟩ := Frame.behind_alias (Frame.base_in_directMap (f := h) (by omega))
    exact ⟨_, ⟨hAligned, hAlias, hUser, hTracks.isKernel_of_live hs, hBehind⟩, hFrame⟩
  have hPages : [(⟨0x400000⟩ : VirtualAddress), ⟨0x200000000⟩].Nodup := by decide
  have hOffers : σ.Offers s [⟨⟨0x400000⟩, f, aliasOf f, true⟩, ⟨⟨0x200000000⟩, g, aliasOf g, false⟩] := by
    refine ⟨?_, ?_, hPages, by simpa using hNe⟩
    · simp only [List.forall_mem_cons]
      exact ⟨hAlias hfNumber (by decide) (by decide), hAlias hgNumber (by decide) (by decide), nofun⟩
    · simp only [List.forall_mem_cons]
      exact ⟨hf, hg, nofun⟩
  have hFresh : s.installed [⟨.create, .made s⟩, ⟨.alloc, .given (some g)⟩, ⟨.alloc, .given (some f)⟩] = [] :=
    if_pos rfl
  have hCount : tableCount [⟨0x400000⟩, ⟨0x200000000⟩] = 5 := by decide
  obtain ⟨hTables, hOrders⟩ := Run.counts_tables (by decide) hBoot hRun hs
  rw [hFresh] at hTables
  exact ⟨k, m, _, σ, s, _, _, hBoot, hRun, hs, hFresh, hOffers, hCount, hTables,
    hOrders hFresh _ _ (List.Perm.swap ..).symm hOffers
      (by rw [hSupply]; exact le_of_eq_of_le hCount (by decide))⟩

end PagedKernel
