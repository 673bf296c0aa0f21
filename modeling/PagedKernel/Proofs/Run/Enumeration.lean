import PagedKernel.Proofs.AddressSpace.VisitOrder
import PagedKernel.Proofs.Run.Invariant
import PagedKernel.Proofs.Run.Progress

/-!
# Traversals enumerate what is translated

A traversal builds addresses from the indices on its way, and a walk takes addresses apart into indices.
In every memory where walks are not refused the two agree: the leaves that a traversal reports are those
that translations end at, each once and in ascending order.

* `Memory.leaves`: the leaves of a tree, with their addresses.
* `AddressSpace.Enumerates`: a list is what traversals report, and what translations are answered from.
* `AddressSpace.enumerates_leaves`: the list of leaves is.
-/

namespace PagedKernel

open Leaves

/-- The leaves of a tree, as a traversal reports them. -/
def Memory.leaves (m : Memory) (root : Frame) : List (VirtualAddress × Entry) :=
  (m.leafSlots root).map fun x => (x.1, m.entry x.2)

/-- Visitors that look at every leaf see the list, and it holds all translations of the space. -/
structure AddressSpace.Enumerates (s : AddressSpace) (x : Machine)
    (leaves : List (VirtualAddress × Entry)) : Prop where
  visitLeaves_eq {κ β : Type} (f : VirtualAddress → Entry → κ → κ) (k : κ) :
    s.visitLeaves (Visitor.observe (β := β) f) k x =
      .ok (.proceed, leaves.foldl (fun k y => f y.1 y.2 k) k) x
  visitUserLeaves_eq {κ β : Type} (f : VirtualAddress → Entry → κ → κ) (k : κ) :
    s.visitUserLeaves (Visitor.observe (β := β) f) k x =
      .ok (.proceed, (leaves.filter (·.1.isUser)).foldl (fun k y => f y.1 y.2 k) k) x
  ascending : leaves.Pairwise fun y z => y.1.val < z.1.val
  page {a : VirtualAddress} {e : Entry} : (a, e) ∈ leaves → a.isCanonical = true ∧ a.isAligned = true
  mem_iff {a : VirtualAddress} : a.isCanonical = true → a.isAligned = true →
    ((∃ e, (a, e) ∈ leaves) ↔ ∃ p, s.translate x.memory a = .ok (some p))
  entry {a : VirtualAddress} {e : Entry} : (a, e) ∈ leaves →
    x.memory.leaf? s.root a = .ok (some e) ∧
      ∃ f, e.target = .ok (some f) ∧ s.translate x.memory a = .ok (some f.base)
  /-- Any address is translated by the leaf of the page that its low bits select, or not at all. -/
  translate (a : VirtualAddress) :
    (∃ e f, ((VirtualAddress.signExtend a.val).page.base, e) ∈ leaves ∧ e.target = .ok (some f) ∧
      s.translate x.memory a = .ok (some (f.join a.offset))) ∨
    (∀ e, ((VirtualAddress.signExtend a.val).page.base, e) ∉ leaves) ∧
      s.translate x.memory a = .ok none

namespace Memory.Regular

variable {m : Memory} {root : Frame} {a : VirtualAddress} {e : Entry}

/-- The leaves are the present entries that addresses of pages have. -/
theorem mem_leaves (h : m.Regular root) : (a, e) ∈ m.leaves root ↔
    a.isCanonical = true ∧ a.isAligned = true ∧ m.leaf? root a = .ok (some e) ∧ e.present = true := by
  rw [leaves, List.mem_map]
  constructor
  · rintro ⟨⟨b, slot⟩, hMem, hPair⟩
    obtain ⟨rfl, rfl⟩ := Prod.mk.inj hPair
    obtain ⟨hCanonical, hAligned, hLookup, hPresent⟩ := h.mem_leafSlots.1 hMem
    refine ⟨hCanonical, hAligned, ?_, hPresent⟩
    rw [leaf?, hLookup]
    rfl
  · rintro ⟨hCanonical, hAligned, hLeaf, hPresent⟩
    rcases (h.walkable a).leaf?_cases with ⟨u, hu, hEntry⟩ | ⟨-, hNone⟩
    · obtain rfl : m.entry ⟨u, Level.pt.indexOf a⟩ = e := by
        rw [hEntry] at hLeaf
        exact Option.some.inj (Except.ok.inj hLeaf)
      have hLookup : m.lookup root a = .ok (.ok ⟨u, Level.pt.indexOf a⟩) :=
        (h.walkable a).lookup_eq_ok.2 ⟨hu, rfl⟩
      exact ⟨(a, _), h.mem_leafSlots.2 ⟨hCanonical, hAligned, hLookup, hPresent⟩, rfl⟩
    · rw [hNone] at hLeaf
      cases hLeaf

theorem mem_leaves_base (h : m.Regular root) :
    ((VirtualAddress.signExtend a.val).page.base, e) ∈ m.leaves root ↔
      m.leaf? root a = .ok (some e) ∧ e.present = true := by
  have hFour : a.path.length = 4 := rfl
  rw [VirtualAddress.base_page_signExtend, h.mem_leaves,
    leaf?_of_path_eq (VirtualAddress.path_ofPath hFour)]
  simp [VirtualAddress.isCanonical_ofPath, VirtualAddress.isAligned_ofPath hFour]

theorem translate_cases {s : AddressSpace} (h : m.Regular s.root) (a : VirtualAddress) :
    (∃ e f, m.leaf? s.root a = .ok (some e) ∧ e.target = .ok (some f) ∧
      s.translate m a = .ok (some (f.join a.offset))) ∨
    (∀ e, m.leaf? s.root a = .ok (some e) → e.present = false) ∧ s.translate m a = .ok none := by
  rcases (h.walkable a).leaf?_cases with ⟨u, hu, hLeaf⟩ | ⟨-, hNone⟩
  · obtain ⟨o, hTarget⟩ := h.exists_target hu (a.length_pathTo_lt .pt) (Level.pt.indexOf a)
    cases o with
    | some f =>
      exact Or.inl ⟨_, f, hLeaf, hTarget, AddressSpace.translate_eq_some.2 ⟨_, f, hLeaf, hTarget, rfl⟩⟩
    | none =>
      refine Or.inr ⟨fun e he => ?_, ?_⟩
      · rw [hLeaf] at he
        obtain rfl := Option.some.inj (Except.ok.inj he)
        exact Entry.target_eq_none.1 hTarget
      · rw [AddressSpace.translate, hLeaf]
        simp only [bind, Except.bind, hTarget]
        rfl
  · refine Or.inr ⟨fun e he => ?_, AddressSpace.translate_of_none hNone⟩
    rw [hNone] at he
    cases he

end Memory.Regular

theorem Plan.Tracks.regular {plan : Plan} {σ : System} (h : plan.Tracks σ) {s : AddressSpace}
    (hs : σ.Knows s) : σ.machine.memory.Regular s.root :=
  h.describes.fits.regular (knows_root hs)

/-- In every memory, a space whose tables lie in memory and map no huge pages has its leaves enumerated by
its traversals. -/
theorem AddressSpace.enumerates_leaves (s : AddressSpace) (x : Machine) (h : x.memory.Regular s.root) :
    s.Enumerates x (x.memory.leaves s.root) where
  visitLeaves_eq f k := by
    rw [visitLeaves, run_observe h, Memory.leaves, List.foldl_map]
    rfl
  visitUserLeaves_eq f k := by
    rw [visitUserLeaves, run_observe h, ← Memory.filter_leafSlots, Memory.leaves, List.filter_map,
      List.foldl_map]
    rfl
  ascending := List.pairwise_map.2 (x.memory.pairwise_leafSlots s.root)
  page hMem := by
    obtain ⟨hCanonical, hAligned, -⟩ := h.mem_leaves.1 hMem
    exact ⟨hCanonical, hAligned⟩
  mem_iff {a} hCanonical hAligned := by
    simp only [h.mem_leaves, hCanonical, hAligned, true_and]
    constructor
    · rintro ⟨e, hLeaf, hPresent⟩
      rcases h.translate_cases a with ⟨-, f, -, -, hSome⟩ | ⟨hAbsent, -⟩
      · exact ⟨_, hSome⟩
      · rw [hAbsent e hLeaf] at hPresent
        cases hPresent
    · rintro ⟨p, hSome⟩
      obtain ⟨e, f, hLeaf, hTarget, -⟩ := translate_eq_some.1 hSome
      exact ⟨e, hLeaf, (Entry.target_eq_some.1 hTarget).1⟩
  entry {a e} hMem := by
    obtain ⟨-, hAligned, hLeaf, hPresent⟩ := h.mem_leaves.1 hMem
    refine ⟨hLeaf, ?_⟩
    rcases h.translate_cases a with ⟨e', f, hLeaf', hTarget, hSome⟩ | ⟨hAbsent, -⟩
    · obtain rfl : e' = e := Option.some.inj (Except.ok.inj (hLeaf'.symm.trans hLeaf))
      exact ⟨f, hTarget, by rw [hSome, f.join_offset hAligned]⟩
    · rw [hAbsent e hLeaf] at hPresent
      cases hPresent
  translate a := by
    rcases h.translate_cases a with ⟨e, f, hLeaf, hTarget, hSome⟩ | ⟨hAbsent, hNone⟩
    · exact Or.inl ⟨e, f, h.mem_leaves_base.2 ⟨hLeaf, (Entry.target_eq_some.1 hTarget).1⟩, hTarget, hSome⟩
    · refine Or.inr ⟨fun e hMem => ?_, hNone⟩
      obtain ⟨hLeaf, hPresent⟩ := h.mem_leaves_base.1 hMem
      rw [hAbsent e hLeaf] at hPresent
      cases hPresent

/-- On a machine of sixteen frames, a space with a page at 4 MiB: its traversals enumerate what it translates,
and they report that page. -/
theorem AddressSpace.enumerates_leaves_sixteen : ∃ k m s, ∃ σ : System, Machine.boot 16 = .ok (k, m) ∧
    s ∈ σ.live ∧ σ.machine.memory.Regular s.root ∧
    s.Enumerates σ.machine (σ.machine.memory.leaves s.root) ∧
    ∃ e, (⟨0x400000⟩, e) ∈ σ.machine.memory.leaves s.root := by
  obtain ⟨k, m, f, s, kernelAlias, σ, hBoot, hRun, hs, hSome⟩ := @Run.exists_mapped 16 (by decide)
    (by decide) ⟨0x400000⟩ (by decide) (by decide) true
  obtain ⟨plan₀, hStart⟩ := System.tracks_booted (by decide) hBoot
  obtain ⟨-, plan, hTracks, -⟩ := hRun.tracks hStart
  have hRegular := hTracks.regular (Or.inl hs)
  have hLeaves := AddressSpace.enumerates_leaves s σ.machine hRegular
  exact ⟨k, m, s, σ, hBoot, hs, hRegular, hLeaves, (hLeaves.mem_iff (by decide) (by decide)).2 ⟨_, hSome⟩⟩

end PagedKernel
