import PagedKernel.Proofs.Run.UserPages
import PagedKernel.Proofs.UserMemory.PageWalk
import PagedKernel.Proofs.UserMemory.Views

/-!
# What a process may read

A process reads user memory through the tables of its space. When these and the pages behind them lie
in memory, every user address has an answer, so the memory of the process is a view: reading a byte
leaves the machine alone. The permissions are those of a leaf entry, so a page is readable as a whole.

* `AddressSpace.InMemory`: tables and pages lie in memory.
* `AddressSpace.InMemory.exists_resolve`: then every address is resolved.
* `AddressSpace.view`, `AddressSpace.InMemory.reads`: what a process may read.
* `AddressSpace.view_uniform`: a page is readable as a whole.
* `Plan.Tracks.inMemory`: so it is after a run, in every space.
-/

namespace PagedKernel

namespace AddressSpace

variable {s : AddressSpace} {m : Memory} {a : VirtualAddress} {access : Access}

/-- The tables that user addresses are translated with lie in memory, and so do the pages that they lead
to; no entry on the way maps a larger page. -/
structure InMemory (s : AddressSpace) (m : Memory) : Prop where
  table {a : VirtualAddress} {level : Level} {t : Frame} : a.isUser = true →
    m.Leads s.root (a.pathTo level) t →
      m.holds t = true ∧ ∃ o, (m.entry ⟨t, level.indexOf a⟩).target = .ok o
  page {a : VirtualAddress} {p : PhysicalAddress} : a.isUser = true →
    s.translate m a = .ok (some p) → m.holds p.frame = true

theorem InMemory.walkable (h : s.InMemory m) (hUser : a.isUser = true) : m.Walkable s.root a :=
  fun _ _ ht => h.table hUser ht

theorem InMemory.leaf?_cases (h : s.InMemory m) (hUser : a.isUser = true) :
    m.leaf? s.root a = .ok none ∨
      ∃ e o, m.leaf? s.root a = .ok (some e) ∧ e.target = .ok o := by
  rcases (h.walkable hUser).leaf?_cases with ⟨t, ht, hLeaf⟩ | ⟨-, hNone⟩
  · obtain ⟨-, o, hTarget⟩ := h.table hUser ht
    exact Or.inr ⟨_, o, hLeaf, hTarget⟩
  · exact Or.inl hNone

theorem InMemory.holds_of_resolve {p : PhysicalAddress} (h : s.InMemory m)
    (hResolve : s.resolve m a access = .ok (some p)) : m.holds p.frame = true := by
  obtain ⟨hUser, e, -, -, hTranslate⟩ := resolve_eq_some.1 hResolve
  exact h.page hUser hTranslate

/-- Every address is resolved, and what it is resolved to lies in memory. -/
theorem InMemory.exists_resolve (h : s.InMemory m) (a : VirtualAddress) (access : Access) :
    ∃ o, s.resolve m a access = .ok o ∧ ∀ p, o = some p → m.holds p.frame = true := by
  by_cases hUser : a.isUser = true
  · obtain ⟨o, ho⟩ : ∃ o, s.resolve m a access = .ok o := by
      rcases h.leaf?_cases hUser with hLeaf | ⟨e, o, hLeaf, hTarget⟩
      · exact ⟨none, resolve_of_none hLeaf⟩
      · rw [resolve, hUser, hLeaf]
        cases hAllows : allows e access with
        | false => exact ⟨none, by simp [bind, Except.bind, pure, Except.pure, hAllows]⟩
        | true =>
          exact ⟨o.map fun f => f.join a.offset, by
            cases o <;> simp [bind, Except.bind, pure, Except.pure, hAllows, hTarget]⟩
    exact ⟨o, ho, fun p hp => h.holds_of_resolve (hp ▸ ho)⟩
  · exact ⟨none, resolve_of_not_user (by simpa using hUser), fun _ hSome => by cases hSome⟩

def view (s : AddressSpace) (m : Memory) : UserView := fun a =>
  match s.resolve m a .read with
  | .ok (some p) => .ok (m.byte p.val.toNat)
  | _ => .error ⟨a⟩

theorem view_eq_ok {b : UInt8} :
    s.view m a = .ok b ↔ ∃ p, s.resolve m a .read = .ok (some p) ∧ m.byte p.val.toNat = b := by
  rw [view]
  cases hResolve : s.resolve m a .read with
  | error v => simp
  | ok o => cases o <;> simp

theorem view_readable {base : VirtualAddress} {i : Nat} :
    (s.view m).Readable base i ↔
      ∃ a p, base.add? i = some a ∧ s.resolve m a .read = .ok (some p) := by
  constructor
  · rintro ⟨a, b, hAdd, -, hByte⟩
    obtain ⟨p, hResolve, -⟩ := view_eq_ok.1 hByte
    exact ⟨a, p, hAdd, hResolve⟩
  · rintro ⟨a, p, hAdd, hResolve⟩
    exact ⟨a, _, hAdd, (resolve_eq_some.1 hResolve).1, view_eq_ok.2 ⟨p, hResolve, rfl⟩⟩

/-- A page is readable as a whole. -/
theorem view_uniform (s : AddressSpace) (m : Memory) : (s.view m).Uniform := by
  intro a a' b hUser hUser' hPage hByte
  obtain ⟨p, hResolve, -⟩ := view_eq_ok.1 hByte
  have hPath : a.path = a'.path := (VirtualAddress.path_eq_iff hUser hUser').2 hPage
  obtain ⟨q, hOther⟩ := exists_resolve_of_path_eq hUser' hPath hResolve
  exact ⟨_, view_eq_ok.2 ⟨q, hOther, rfl⟩⟩

/-- Reading a byte tells what the view says. -/
theorem InMemory.reads {m : Machine} (h : s.InMemory m.memory) :
    s.userMemory.Reads m (s.view m.memory) := by
  intro a
  obtain ⟨o, hResolve, hHolds⟩ := h.exists_resolve a .read
  rw [readByte_apply, view, hResolve]
  cases o with
  | none => rfl
  | some p => simp only [hHolds p rfl, ↓reduceIte]

end AddressSpace

theorem Plan.Tracks.inMemory {plan : Plan} {σ : System} (h : plan.Tracks σ) {s : AddressSpace}
    (hs : σ.Knows s) : s.InMemory σ.machine.memory where
  table {a level t} _ hLeads :=
    (h.describes.fits.regular (knows_root hs)).walkable a level t hLeads
  page {a p} hUser hTranslate := by
    have hFits := h.describes.fits
    rcases hs with hs | rfl
    · rcases hFits.translate_cases (root_mem hs) hUser with ⟨hNone, -⟩ | ⟨f, hPlace, hSome⟩
      · rw [hNone] at hTranslate
        cases hTranslate
      · rw [hSome] at hTranslate
        cases hTranslate
        rw [Frame.frame_join]
        exact hFits.holds hPlace
    · have hLeaf : σ.machine.memory.leaf? σ.kernel.view.root a = .ok none := hFits.leaf?_kernel hUser
      rw [AddressSpace.translate_of_none hLeaf] at hTranslate
      cases hTranslate

end PagedKernel
