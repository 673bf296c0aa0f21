import PagedKernel.Proofs.Probe.Execution
import PagedKernel.Proofs.Run.Refinement
import PagedKernel.Proofs.Run.UserPages
import PagedKernel.Proofs.UserMemory.PageWalk
import PagedKernel.Proofs.UserMemory.Simulation

/-!
# The probes agree with the page tables

There are two ways to user memory: a probe lets the processor access the byte and recovers from the
fault, the other way walks the tables and checks the permissions. Over the same pages they cannot be
told apart, by any sequence of operations.

The relation between the two sides has a part that stands still and one that moves. Where the pages
are, what may be written and which frames are behind them is fixed from the start, since a write never
reaches a table; what moves is the contents, which are kept the same.

* `LiveMemory.layout`: the pages that are mapped, and which of them may be written.
* `AddressSpace.Provides`: a space maps the pages of a layout, each to a frame of its own.
* `LiveMemory.MirroredBy`: the contents of the pages are in these frames.
* `ProbeEntries.serveAll_agrees`: all operations have the same answers.
* `Run.exists_mirror`: every space of every run is of this kind.
-/

namespace PagedKernel

open Stateful

theorem Frame.join_inj {f g : Frame} {o o' : PageOffset} :
    f.join o = g.join o' ↔ f = g ∧ o = o' := by
  constructor
  · intro h
    obtain rfl : f = g := by rw [← Frame.frame_join f o, h, Frame.frame_join]
    refine ⟨rfl, PageOffset.ext ?_⟩
    have hVal := congrArg PhysicalAddress.val h
    exact UInt64.add_right_inj _ |>.1 hVal
  · rintro ⟨rfl, rfl⟩
    rfl

/-! ## The memory that the processor sees -/

namespace LiveMemory

variable {L : LiveMemory} {a : VirtualAddress} {b : UInt8} {pages : List LivePage}

def layout (L : LiveMemory) : List (Page × Bool) := L.pages.map fun p => (p.page, p.writable)

theorem byte?_cases (L : LiveMemory) (a : VirtualAddress) :
    (∃ p ∈ L.pages, p.page = a.page ∧ L.byte? a = some (p.byte a.offset)) ∨
      (∀ p ∈ L.pages, p.page ≠ a.page) ∧ L.byte? a = none := by
  rw [byte?]
  cases hFind : L.pages.find? fun p => p.page = a.page with
  | none =>
    refine Or.inr ⟨fun p hp => ?_, rfl⟩
    simpa using List.find?_eq_none.1 hFind p hp
  | some p =>
    have hPage := List.find?_some hFind
    exact Or.inl ⟨p, List.mem_of_find?_eq_some hFind, by simpa using hPage, rfl⟩

/-- A byte is stored in the page that it lies on, and nowhere else; or there is none that may be
written. -/
theorem setByteIn?_cases (hNodup : (pages.map (·.page)).Nodup) :
    (∃ p ∈ pages, p.page = a.page ∧ p.writable = true ∧ ∃ after, setByteIn? a b pages = some after ∧
        after.map (fun q => (q.page, q.writable)) = pages.map (fun q => (q.page, q.writable)) ∧
        ∀ q ∈ after, q = p.setByte a.offset b ∨ q ∈ pages ∧ q.page ≠ a.page) ∨
      (∀ p ∈ pages, p.page = a.page → p.writable = false) ∧ setByteIn? a b pages = none := by
  induction pages with
  | nil => exact Or.inr ⟨nofun, rfl⟩
  | cons p rest ih =>
    rw [List.map_cons, List.nodup_cons] at hNodup
    rw [setByteIn?]
    by_cases hPage : p.page = a.page
    · have hRest : ∀ q ∈ rest, q.page ≠ a.page := by
        intro q hq hEq
        exact hNodup.1 (List.mem_map.2 ⟨q, hq, hEq.trans hPage.symm⟩)
      rw [if_pos hPage]
      by_cases hWritable : p.writable = true
      · rw [if_pos hWritable]
        refine Or.inl ⟨p, List.mem_cons_self, hPage, hWritable, _, rfl, rfl, fun q hq => ?_⟩
        rcases List.mem_cons.1 hq with rfl | hq
        · exact Or.inl rfl
        · exact Or.inr ⟨List.mem_cons_of_mem p hq, hRest q hq⟩
      · rw [if_neg hWritable]
        refine Or.inr ⟨fun q hq hEq => ?_, rfl⟩
        rcases List.mem_cons.1 hq with rfl | hq
        · simpa using hWritable
        · exact absurd hEq (hRest q hq)
    · rw [if_neg hPage]
      rcases ih hNodup.2 with ⟨q, hq, hEq, hWritable, after, hSet, hLayout, hAfter⟩ | ⟨hNone, hSet⟩
      · refine Or.inl ⟨q, List.mem_cons_of_mem p hq, hEq, hWritable, p :: after, ?_, ?_, ?_⟩
        · rw [hSet]
          rfl
        · rw [List.map_cons, List.map_cons, hLayout]
        · intro q' hq'
          rcases List.mem_cons.1 hq' with rfl | hq'
          · exact Or.inr ⟨List.mem_cons_self, hPage⟩
          · exact (hAfter q' hq').imp_right fun h => ⟨List.mem_cons_of_mem p h.1, h.2⟩
      · refine Or.inr ⟨fun q hq hEq => ?_, by rw [hSet]; rfl⟩
        rcases List.mem_cons.1 hq with rfl | hq
        · exact absurd hEq hPage
        · exact hNone q hq hEq

end LiveMemory

theorem LivePage.byte_setByte (p : LivePage) (o o' : PageOffset) (b : UInt8) :
    (p.setByte o b).byte o' = if o' = o then b else p.byte o' := by
  have hIndex : o.val.toNat = o'.val.toNat ↔ o' = o := by
    rw [UInt64.toNat_inj, PageOffset.ext_iff, eq_comm]
  have hOld : o.val.toNat < 4096 := o.lt
  have hNew : o'.val.toNat < 4096 := o'.lt
  have hBytes : (p.bytes.set o.val.toNat b hOld)[o'.val.toNat] =
      if o' = o then b else p.bytes[o'.val.toNat] := by
    rw [Vector.getElem_set]
    simp only [hIndex]
  exact hBytes

/-! ## The space behind it -/

/-- The space maps the pages of a layout to frames of their own, for user programs, and no other user
pages. -/
structure AddressSpace.Provides (s : AddressSpace) (m : Memory) (layout : List (Page × Bool))
    (frame : Page → Frame) : Prop where
  nodup : (layout.map Prod.fst).Nodup
  mapped {p : Page} {writable : Bool} : (p, writable) ∈ layout →
    ∃ e, m.leaf? s.root p.base = .ok (some e) ∧ e.target = .ok (some (frame p)) ∧
      e.user = true ∧ e.writable = writable
  absent {a : VirtualAddress} : a.isUser = true → (∀ writable, (a.page, writable) ∉ layout) →
    s.translate m a = .ok none
  own {p q : Page} {v w : Bool} : (p, v) ∈ layout → (q, w) ∈ layout → frame p = frame q → p = q
  holds {p : Page} {writable : Bool} : (p, writable) ∈ layout → m.holds (frame p) = true
  apart {p : Page} {writable : Bool} : (p, writable) ∈ layout → ¬ s.UserTable m (frame p)

def LiveMemory.MirroredBy (L : LiveMemory) (m : Memory) (frame : Page → Frame) : Prop :=
  ∀ p ∈ L.pages, ∀ o, m.byte ((frame p.page).join o).val.toNat = p.byte o

namespace VirtualAddress

theorem isUser_base_page {a : VirtualAddress} (h : a.isUser = true) : a.page.base.isUser = true := by
  have hLt : a.val < userSpaceEnd := by simpa [isUser] using h
  have hBase := a.toNat_base_page
  rw [UInt64.lt_iff_toNat_lt] at hLt
  simp only [isUser, decide_eq_true_eq, UInt64.lt_iff_toNat_lt]
  omega

end VirtualAddress

namespace AddressSpace

variable {s : AddressSpace} {m : Memory} {layout : List (Page × Bool)} {frame : Page → Frame}
  {a : VirtualAddress} {access : Access}

theorem resolve_of_translate_none (h : s.translate m a = .ok none) :
    s.resolve m a access = .ok none := by
  rw [translate] at h
  by_cases hUser : a.isUser = true
  · rw [resolve, hUser]
    cases hLeaf : m.leaf? s.root a with
    | error v =>
      rw [hLeaf] at h
      cases h
    | ok o =>
      rw [hLeaf] at h
      cases o with
      | none => rfl
      | some e =>
        cases hTarget : e.target with
        | error v =>
          simp only [bind, Except.bind, hTarget] at h
          cases h
        | ok t =>
          cases t with
          | none => cases hAllows : allows e access <;>
              simp [bind, Except.bind, pure, Except.pure, hAllows, hTarget]
          | some f =>
            simp only [bind, Except.bind, hTarget] at h
            cases h
  · exact resolve_of_not_user (by simpa using hUser)

theorem Provides.resolve_mapped (h : s.Provides m layout frame) (hUser : a.isUser = true)
    {writable : Bool} (hPage : (a.page, writable) ∈ layout) (access : Access) :
    s.resolve m a access = .ok (if access = .read ∨ writable = true then
      some ((frame a.page).join a.offset) else none) := by
  obtain ⟨e, hLeaf, hTarget, hAllowed, rfl⟩ := h.mapped hPage
  have hPath : a.page.base.path = a.path :=
    (VirtualAddress.path_eq_iff (VirtualAddress.isUser_base_page hUser) hUser).2 a.page.page_base
  rw [Memory.leaf?_of_path_eq hPath] at hLeaf
  obtain ⟨hPresent, hSmall, hFrame⟩ := Entry.target_eq_some.1 hTarget
  rw [resolve_of_entry hLeaf hSmall hUser, mappedFrame, if_pos hPresent, hFrame]
  cases access <;> simp [allows, hAllowed]

theorem Provides.resolve_absent (h : s.Provides m layout frame)
    (hPage : ∀ writable, (a.page, writable) ∉ layout) (access : Access) :
    s.resolve m a access = .ok none := by
  by_cases hUser : a.isUser = true
  · exact resolve_of_translate_none (h.absent hUser hPage)
  · exact resolve_of_not_user (by simpa using hUser)

end AddressSpace

/-! ## One byte -/

structure LiveMemory.Beside (s : AddressSpace) (m₀ : Memory) (layout : List (Page × Bool))
    (frame : Page → Frame) (L : LiveMemory) (m : Machine) : Prop where
  probing : L.probing = false
  layout_eq : L.layout = layout
  tables : m₀.AgreeOn (s.UserTable m₀) m.memory
  contents : L.MirroredBy m.memory frame

namespace LiveMemory.Beside

variable {s : AddressSpace} {m₀ : Memory} {layout : List (Page × Bool)} {frame : Page → Frame}
  {L : LiveMemory} {m : Machine} {e : ProbeEntries}

theorem mem_layout (h : Beside s m₀ layout frame L m) {p : LivePage} (hp : p ∈ L.pages) :
    (p.page, p.writable) ∈ layout := by
  rw [← h.layout_eq]
  exact List.mem_map.2 ⟨p, hp, rfl⟩

theorem exists_page (h : Beside s m₀ layout frame L m) {p : Page} {writable : Bool}
    (hp : (p, writable) ∈ layout) : ∃ q ∈ L.pages, q.page = p ∧ q.writable = writable := by
  rw [← h.layout_eq] at hp
  obtain ⟨q, hq, hEq⟩ := List.mem_map.1 hp
  exact ⟨q, hq, congrArg Prod.fst hEq, congrArg Prod.snd hEq⟩

theorem readByte (h : Beside s m₀ layout frame L m) (hProvides : s.Provides m₀ layout frame)
    (hFits : e.reader.toNat + 11 < 2 ^ 64) (a : VirtualAddress) :
    ∃ answer, e.userMemory.readByte a L = .ok answer L ∧ s.userMemory.readByte a m = .ok answer m := by
  rw [ProbeEntries.readByte_apply hFits h.probing, AddressSpace.readByte_apply,
    AddressSpace.resolve_of_tables h.tables]
  by_cases hUser : a.isUser = true
  · rw [if_pos hUser]
    rcases L.byte?_cases a with ⟨p, hp, hPage, hByte⟩ | ⟨hNone, hByte⟩
    · have hLayout := h.mem_layout hp
      have hHolds : m.memory.holds ((frame p.page).join a.offset).frame = true := by
        rw [Frame.frame_join, h.tables.holds]
        exact hProvides.holds hLayout
      have hSame := h.contents p hp a.offset
      rw [hPage] at hLayout hHolds hSame
      rw [hByte, hProvides.resolve_mapped hUser hLayout]
      simp only [true_or, ↓reduceIte, hHolds, hSame]
      exact ⟨_, rfl, rfl⟩
    · have hAbsent : ∀ writable, (a.page, writable) ∉ layout := by
        intro writable hMem
        obtain ⟨q, hq, hPage, -⟩ := h.exists_page hMem
        exact hNone q hq hPage
      rw [hByte, hProvides.resolve_absent hAbsent]
      exact ⟨_, rfl, rfl⟩
  · rw [if_neg hUser, AddressSpace.resolve_of_not_user (by simpa using hUser)]
    exact ⟨_, rfl, rfl⟩

theorem stored (h : Beside s m₀ layout frame L m) (hProvides : s.Provides m₀ layout frame)
    {p : LivePage} (hp : p ∈ L.pages) (o : PageOffset) (b : UInt8) {after : List LivePage}
    (hLayout : after.map (fun q => (q.page, q.writable)) = L.pages.map fun q => (q.page, q.writable))
    (hAfter : ∀ q ∈ after, q = p.setByte o b ∨ q ∈ L.pages ∧ q.page ≠ p.page) :
    Beside s m₀ layout frame { L with pages := after }
      { m with memory := m.memory.setByte ((frame p.page).join o).val.toNat b } := by
  have hPlace := h.mem_layout hp
  have hHolds : m.memory.holds ((frame p.page).join o).frame = true := by
    rw [Frame.frame_join, h.tables.holds]
    exact hProvides.holds hPlace
  refine ⟨h.probing, hLayout.trans h.layout_eq, h.tables.trans ?_, ?_⟩
  · refine (Memory.agreeOn_setByte hHolds b).mono fun f hf => ?_
    rw [Frame.frame_join]
    rintro rfl
    exact hProvides.apart hPlace hf
  · intro q hq o'
    have hApart : ∀ g : Frame, ((g.join o').val.toNat = ((frame p.page).join o).val.toNat) ↔
        g = frame p.page ∧ o' = o := by
      intro g
      rw [UInt64.toNat_inj, ← PhysicalAddress.ext_iff, Frame.join_inj]
    show (m.memory.setByte _ b).byte _ = _
    rw [Memory.byte_setByte _ (Memory.lt_of_holds hHolds)]
    simp only [hApart]
    rcases hAfter q hq with rfl | ⟨hOld, hNe⟩
    · rw [LivePage.byte_setByte]
      by_cases hOffset : o' = o
      · rw [if_pos ⟨rfl, hOffset⟩, if_pos hOffset]
      · rw [if_neg fun hEq => hOffset hEq.2, if_neg hOffset]
        exact h.contents p hp o'
    · have hFrame : frame q.page ≠ frame p.page :=
        fun hEq => hNe (hProvides.own (h.mem_layout hOld) hPlace hEq)
      rw [if_neg fun hEq => hFrame hEq.1]
      exact h.contents q hOld o'

theorem writeByte (h : Beside s m₀ layout frame L m) (hProvides : s.Provides m₀ layout frame)
    (hFits : e.writer.toNat + 12 < 2 ^ 64) (a : VirtualAddress) (b : UInt8) :
    ∃ answer L' m', e.userMemory.writeByte a b L = .ok answer L' ∧
      s.userMemory.writeByte a b m = .ok answer m' ∧ Beside s m₀ layout frame L' m' := by
  rw [ProbeEntries.writeByte_apply hFits h.probing, AddressSpace.writeByte_apply,
    AddressSpace.resolve_of_tables h.tables]
  by_cases hUser : a.isUser = true
  · have hNodup : (L.pages.map (·.page)).Nodup := by
      have hLayout := hProvides.nodup
      rwa [← h.layout_eq, LiveMemory.layout, List.map_map] at hLayout
    rw [if_pos hUser, setByte?]
    rcases setByteIn?_cases (a := a) (b := b) hNodup with
      ⟨p, hp, hPage, hWritable, after, hSet, hLayout, hAfter⟩ | ⟨hNone, hSet⟩
    · have hPlace := h.mem_layout hp
      have hHolds : m.memory.holds ((frame p.page).join a.offset).frame = true := by
        rw [Frame.frame_join, h.tables.holds]
        exact hProvides.holds hPlace
      have hStored := h.stored hProvides hp a.offset b hLayout (by rwa [hPage])
      rw [hWritable, hPage] at hPlace
      rw [hPage] at hHolds hStored
      rw [hSet, hProvides.resolve_mapped hUser hPlace]
      simp only [or_true, ↓reduceIte, hHolds]
      exact ⟨_, _, _, rfl, rfl, hStored⟩
    · have hRefused : s.resolve m₀ a .write = .ok none := by
        by_cases hMem : ∃ writable, (a.page, writable) ∈ layout
        · obtain ⟨writable, hMem⟩ := hMem
          obtain ⟨q, hq, hPage, rfl⟩ := h.exists_page hMem
          rw [hProvides.resolve_mapped hUser hMem, hNone q hq hPage]
          rfl
        · exact hProvides.resolve_absent (fun writable hw => hMem ⟨writable, hw⟩) .write
      rw [hSet, hRefused]
      exact ⟨_, _, _, rfl, rfl, h⟩
  · rw [if_neg hUser, AddressSpace.resolve_of_not_user (by simpa using hUser)]
    exact ⟨_, _, _, rfl, rfl, h⟩

end LiveMemory.Beside

/-! ## All operations -/

/-- The processor runs the probes over some pages, and a space maps the same pages, each to a frame of
its own that holds the same bytes. Then every sequence of operations comes to an end on both sides, so
that every fault is recovered from, with the same answers. It leaves the same pages with the same
contents, and no probe is running before or after. -/
theorem ProbeEntries.serveAll_agrees (e : ProbeEntries) (hReader : e.reader.toNat + 11 < 2 ^ 64)
    (hWriter : e.writer.toNat + 12 < 2 ^ 64) {s : AddressSpace} {L : LiveMemory} {m : Machine}
    {frame : Page → Frame} (hProbing : L.probing = false)
    (hProvides : s.Provides m.memory L.layout frame) (hMirrored : L.MirroredBy m.memory frame)
    (operations : List UserMemory.Operation) :
    ∃ answers L' m', e.userMemory.serveAll operations L = .ok answers L' ∧
      s.userMemory.serveAll operations m = .ok answers m' ∧ L'.probing = false ∧
      L'.layout = L.layout ∧ L'.MirroredBy m'.memory frame ∧
      ∀ a access, s.resolve m'.memory a access = s.resolve m.memory a access := by
  have hRead : ∀ a, Simulates (fun _ => False) (LiveMemory.Beside s m.memory L.layout frame)
      (e.userMemory.readByte a) (s.userMemory.readByte a) := by
    intro a L' m' h
    obtain ⟨answer, hLeft, hRight⟩ := h.readByte hProvides hReader a
    rw [hLeft, hRight]
    exact .ok answer h
  have hWrite : ∀ a b, Simulates (fun _ => False) (LiveMemory.Beside s m.memory L.layout frame)
      (e.userMemory.writeByte a b) (s.userMemory.writeByte a b) := by
    intro a b L' m' h
    obtain ⟨answer, L'', m'', hLeft, hRight, hAfter⟩ := h.writeByte hProvides hWriter a b
    rw [hLeft, hRight]
    exact .ok answer hAfter
  obtain ⟨answers, L', m', hLeft, hRight, hEnd⟩ :=
    (UserMemory.serveAll_simulates hRead hWrite operations).exists_ok
      (s := L) (t := m) ⟨hProbing, rfl, Memory.AgreeOn.refl _ _, hMirrored⟩
  exact ⟨answers, L', m', hLeft, hRight, hEnd.probing, hEnd.layout_eq, hEnd.contents,
    AddressSpace.resolve_of_tables hEnd.tables⟩

/-! ## Spaces of a run -/

theorem exists_pages {n : Nat} (hBound : 4096 * n ≤ 2 ^ 64) :
    ∃ pages : List Page, pages.Nodup ∧ ∀ p, p ∈ pages ↔ p.base.val.toNat < 4096 * n := by
  have hBase : ∀ k < n, (VirtualAddress.page ⟨UInt64.ofNat (4096 * k)⟩).base.val.toNat = 4096 * k := by
    intro k hk
    rw [VirtualAddress.toNat_base_page, UInt64.toNat_ofNat']
    omega
  refine ⟨(List.range n).map fun k => VirtualAddress.page ⟨UInt64.ofNat (4096 * k)⟩, ?_, fun p => ?_⟩
  · refine List.Nodup.map_on (fun i hi j hj hEq => ?_) List.nodup_range
    have hI := hBase i (List.mem_range.1 hi)
    have hJ := hBase j (List.mem_range.1 hj)
    rw [hEq, hJ] at hI
    omega
  · rw [List.mem_map]
    constructor
    · rintro ⟨k, hk, rfl⟩
      rw [List.mem_range] at hk
      rw [hBase k hk]
      omega
    · intro hp
      have hAligned := congrArg UInt64.toNat p.aligned
      simp only [UInt64.toNat_mod, UInt64.reduceToNat] at hAligned
      refine ⟨p.base.val.toNat / 4096, List.mem_range.2 (by omega), ?_⟩
      rw [Page.ext_iff, VirtualAddress.ext_iff, ← UInt64.toNat_inj, hBase _ (by omega)]
      omega

/-- The pages that are present in the map of a space, with the bytes of their frames. -/
def SpaceMap.liveMemory (M : SpaceMap) (m : Memory) (pages : List Page) : LiveMemory where
  pages := (pages.filter fun p => (M.record p).present).map fun p =>
    ⟨p, (M.record p).writable, .ofFn fun i => m.byte ((M.record p).frame.base.val.toNat + i.val)⟩
  probing := false

variable {M : SpaceMap} {m : Memory} {pages : List Page} {s : AddressSpace}

theorem SpaceMap.layout_liveMemory : (M.liveMemory m pages).layout =
    (pages.filter fun p => (M.record p).present).map fun p => (p, (M.record p).writable) := by
  rw [LiveMemory.layout, liveMemory, List.map_map]
  rfl

theorem SpaceMap.mem_layout {p : Page} {writable : Bool} :
    (p, writable) ∈ (M.liveMemory m pages).layout ↔
      p ∈ pages ∧ (M.record p).present = true ∧ (M.record p).writable = writable := by
  rw [layout_liveMemory, List.mem_map]
  constructor
  · rintro ⟨q, hq, hEq⟩
    cases hEq
    obtain ⟨hMem, hPresent⟩ := List.mem_filter.1 hq
    exact ⟨hMem, hPresent, rfl⟩
  · rintro ⟨hMem, hPresent, rfl⟩
    exact ⟨p, List.mem_filter.2 ⟨hMem, hPresent⟩, rfl⟩

theorem SpaceMap.mirrored_liveMemory :
    (M.liveMemory m pages).MirroredBy m fun p => (M.record p).frame := by
  intro p hp o
  obtain ⟨q, -, rfl⟩ := List.mem_map.1 hp
  have hOffset : o.val.toNat < 4096 := o.lt
  have hByte : (Vector.ofFn fun i : Fin 4096 =>
      m.byte ((M.record q).frame.base.val.toNat + i.val))[o.val.toNat] =
        m.byte ((M.record q).frame.base.val.toNat + o.val.toNat) := by
    rw [Vector.getElem_ofFn]
  rw [Frame.toNat_join]
  exact hByte.symm

/-- A page that is present in the map of a live space is behind a leaf entry for user programs. -/
theorem Maps.Models.exists_entry {maps : Maps} {σ : System} (h : maps.Models σ) (hs : s ∈ σ.live)
    {p : Page} (hUser : p.base.isUser = true) (hPresent : ((maps s).record p).present = true) :
    ∃ e, σ.machine.memory.leaf? s.root p.base = .ok (some e) ∧
      e.target = .ok (some ((maps s).record p).frame) ∧ e.user = true ∧
      e.writable = ((maps s).record p).writable := by
  have hShows := h s hs p.base hUser
  generalize σ.machine.memory.leaf? s.root p.base = leaf at hShows
  cases hShows with
  | nothing _ hBlank =>
    rw [p.page_base] at hBlank
    rw [hBlank] at hPresent
    cases hPresent
  | @entry e _ hEntry =>
    rw [p.page_base] at hEntry
    refine ⟨e, rfl, Entry.target_eq_some.2 ⟨?_, hEntry.flag rfl, hEntry.frame⟩, ?_, hEntry.flag rfl⟩
    · exact (hEntry.flag rfl).trans hPresent
    · exact hEntry.flag (by rw [Record.flag?, if_pos hPresent])

/-- After a run a live space provides the pages that are present in its map. -/
theorem Maps.Models.provides {maps : Maps} {plan : Plan} {σ : System} (h : maps.Models σ)
    (hTracks : plan.Tracks σ) (hs : s ∈ σ.live) (hNodup : pages.Nodup)
    (hPages : ∀ p, p ∈ pages ↔ p.base.isUser = true) :
    s.Provides σ.machine.memory ((maps s).liveMemory σ.machine.memory pages).layout
      fun p => ((maps s).record p).frame := by
  have hResolve : ∀ {p writable}, (p, writable) ∈ ((maps s).liveMemory σ.machine.memory pages).layout →
      s.resolve σ.machine.memory p.base .read =
        .ok (some (((maps s).record p).frame.join p.base.offset)) := by
    intro p writable hp
    obtain ⟨hMem, hPresent, -⟩ := SpaceMap.mem_layout.1 hp
    have hAnswers := (h s hs p.base ((hPages p).1 hMem)).answers ((hPages p).1 hMem)
    rw [hAnswers.resolve, p.page_base, Record.resolveAt, Record.physicalAt, if_pos hPresent]
    rfl
  refine ⟨?_, ?_, ?_, ?_, ?_, ?_⟩
  · rw [SpaceMap.layout_liveMemory, List.map_map]
    exact (hNodup.filter _).map Function.injective_id
  · intro p writable hp
    obtain ⟨hMem, hPresent, rfl⟩ := SpaceMap.mem_layout.1 hp
    exact h.exists_entry hs ((hPages p).1 hMem) hPresent
  · intro a hUser hAbsent
    rw [((h s hs a hUser).answers hUser).translate, Record.physicalAt, if_neg]
    intro hPresent
    refine hAbsent _ (SpaceMap.mem_layout.2 ⟨?_, hPresent, rfl⟩)
    exact (hPages _).2 (VirtualAddress.isUser_base_page hUser)
  · intro p q v w hp hq hEq
    have hPlace := (hTracks.place_of_resolve (Or.inl hs) (hResolve hp)).2
    have hPlace' := (hTracks.place_of_resolve (Or.inl hs) (hResolve hq)).2
    rw [Frame.frame_join] at hPlace hPlace'
    rw [hEq, hPlace'] at hPlace
    obtain ⟨-, hPath⟩ := Place.mk.inj (Option.some.inj hPlace)
    have hP := (hPages p).1 (SpaceMap.mem_layout.1 hp).1
    have hQ := (hPages q).1 (SpaceMap.mem_layout.1 hq).1
    have hPage := (VirtualAddress.path_eq_iff hQ hP).1 hPath
    rwa [p.page_base, q.page_base, eq_comm] at hPage
  · intro p writable hp
    have hPlace := (hTracks.place_of_resolve (Or.inl hs) (hResolve hp)).2
    rw [Frame.frame_join] at hPlace
    exact hTracks.describes.fits.holds hPlace
  · intro p writable hp
    have hApart := hTracks.not_userTable_of_resolve (Or.inl hs) (hResolve hp)
    rwa [Frame.frame_join] at hApart

/-- After every run from booting on, a live space mirrors the pages that are mapped in it. -/
theorem Run.exists_mirror {frames : Nat} {k : KernelSpace} {m : Machine} {events : List Event}
    {σ : System} (hFrames : frames ≤ 2 ^ 40) (hBoot : Machine.boot frames = .ok (k, m))
    (hRun : Run (.booted k m) events σ) (hs : s ∈ σ.live) :
    ∃ (L : LiveMemory) (frame : Page → Frame), L.probing = false ∧
      s.Provides σ.machine.memory L.layout frame ∧ L.MirroredBy σ.machine.memory frame ∧
      ∀ a p, s.resolve σ.machine.memory a .read = .ok (some p) →
        ∃ writable, (a.page, writable) ∈ L.layout := by
  obtain ⟨plan, hStart⟩ := System.tracks_booted hFrames hBoot
  obtain ⟨-, plan', hTracks, -⟩ := hRun.tracks hStart
  have hModels := hRun.models hStart rfl
  obtain ⟨pages, hNodup, hBelow⟩ := @exists_pages (2 ^ 35) (by decide)
  have hPages : ∀ p, p ∈ pages ↔ p.base.isUser = true := by
    intro p
    rw [hBelow p, VirtualAddress.isUser, decide_eq_true_iff, UInt64.lt_iff_toNat_lt]
    exact Iff.rfl
  have hProvides := hModels.provides hTracks hs hNodup hPages
  refine ⟨_, _, rfl, hProvides, SpaceMap.mirrored_liveMemory, fun a p hp => ?_⟩
  by_contra hNone
  rw [hProvides.resolve_absent fun writable hw => hNone ⟨writable, hw⟩] at hp
  cases hp

/-- Over a page at 4 MiB of a machine of sixteen frames, with the writer right behind the reader. The
second operation runs past the end of the page. -/
theorem ProbeEntries.serveAll_agrees_sixteen : ∃ k m events σ s,
    ∃ (L : LiveMemory) (frame : Page → Frame), Machine.boot 16 = .ok (k, m) ∧ Run (.booted k m) events σ ∧ s ∈ σ.live ∧
    (∃ p, s.translate σ.machine.memory ⟨0x400000⟩ = .ok (some p)) ∧ L.probing = false ∧
    s.Provides σ.machine.memory L.layout frame ∧ L.MirroredBy σ.machine.memory frame ∧
    ∃ answers L' m',
      (ProbeEntries.mk 0xffffffff80001000 0xffffffff8000100c).userMemory.serveAll
        [.readByte ⟨0x400000⟩, .copyTo ⟨0x400ffe⟩ [1, 2, 3, 4], .readString ⟨0x400ffe⟩ [0, 0, 0, 0]]
        L = .ok answers L' ∧
      s.userMemory.serveAll
        [.readByte ⟨0x400000⟩, .copyTo ⟨0x400ffe⟩ [1, 2, 3, 4], .readString ⟨0x400ffe⟩ [0, 0, 0, 0]]
        σ.machine = .ok answers m' ∧
      L'.probing = false ∧ L'.layout = L.layout ∧ L'.MirroredBy m'.memory frame ∧
      ∀ a access, s.resolve m'.memory a access = s.resolve σ.machine.memory a access := by
  obtain ⟨k, m, f, s, kernelAlias, σ, hBoot, hRun, hs, hPage⟩ := @Run.exists_mapped 16 (by decide)
    (by decide) ⟨0x400000⟩ (by decide) (by decide) true
  obtain ⟨L, frame, hProbing, hProvides, hMirrored, -⟩ := hRun.exists_mirror (by decide) hBoot hs
  exact ⟨k, m, _, σ, s, L, frame, hBoot, hRun, hs, ⟨_, hPage⟩, hProbing, hProvides, hMirrored,
    ProbeEntries.serveAll_agrees _ (by decide) (by decide) hProbing hProvides hMirrored _⟩

end PagedKernel
