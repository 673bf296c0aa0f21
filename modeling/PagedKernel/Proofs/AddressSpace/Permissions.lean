import PagedKernel.Proofs.AddressSpace.Dependence
import PagedKernel.Proofs.Plan.Maps

/-!
# What the processor permits

A processor that translates an address for a user program reads one entry of each table on its way, and
heeds the permissions of all of them. In memory that is built as planned the entries above the leaf
permit everything, so that the leaf decides.

* `Memory.way`: the entries that the processor reads.
* `Memory.Permits`: it lets a user program access an address, and comes to a byte. It reads four entries
  then, by `Memory.Permits.length_way`.
* `Plan.Fits.way_cases`: the way along a plan.
* `Plan.Fits.permits_iff`: what the processor permits is read off the leaf.
-/

namespace PagedKernel

def Entry.frame (e : Entry) : Frame := Frame.ofNumber (e.get .frameNumber)

/-- The entries that a processor reads for an address from a table at a level on. The way ends in an
entry that is not present, or in the leaf. -/
def Memory.wayFrom (m : Memory) (a : VirtualAddress) (level : Level) (table : Frame) : List Entry :=
  let e := m.entry ⟨table, level.indexOf a⟩
  if e.present then
    match _h : level.next? with
    | some below => e :: m.wayFrom a below e.frame
    | none => [e]
  else [e]
termination_by level.height
decreasing_by exact Level.height_lt_of_next? (by assumption)

def Memory.way (m : Memory) (root : Frame) (a : VirtualAddress) : List Entry := m.wayFrom a .pml4 root

/-- The processor lets a user program access a canonical address, and comes to the byte `p`: all entries
on the way are present and for users, and for a write all of them are writable. -/
structure Memory.Permits (m : Memory) (root : Frame) (a : VirtualAddress) (access : Access)
    (p : PhysicalAddress) : Prop where
  canonical : a.isCanonical = true
  present : ∀ e ∈ m.way root a, e.present = true
  user : ∀ e ∈ m.way root a, e.user = true
  writable : access = .write → ∀ e ∈ m.way root a, e.writable = true
  reaches : ∃ e ∈ (m.way root a).getLast?, p = e.frame.join a.offset

structure Entry.Open (e : Entry) : Prop where
  present : e.present = true
  user : e.user = true
  writable : e.writable = true

theorem Entry.open_compose (f : Frame) : (compose true .user f).Open := by
  refine ⟨?_, ?_, ?_⟩
  · rw [present, flag_compose true rfl (by decide)]
    rfl
  · rw [user, flag_compose true rfl (by decide)]
    rfl
  · rw [writable, flag_compose true rfl (by decide)]
    rfl

namespace Memory

variable {m : Memory} {a : VirtualAddress} {level below : Level} {table : Frame}

theorem wayFrom_absent (h : (m.entry ⟨table, level.indexOf a⟩).present = false) :
    m.wayFrom a level table = [m.entry ⟨table, level.indexOf a⟩] := by
  rw [wayFrom, h]
  rfl

theorem wayFrom_pt : m.wayFrom a .pt table = [m.entry ⟨table, Level.pt.indexOf a⟩] := by
  rw [wayFrom]
  split <;> rfl

theorem wayFrom_next (hNext : level.next? = some below)
    (h : (m.entry ⟨table, level.indexOf a⟩).present = true) :
    m.wayFrom a level table = m.entry ⟨table, level.indexOf a⟩ ::
      m.wayFrom a below (m.entry ⟨table, level.indexOf a⟩).frame := by
  rw [wayFrom, h]
  cases level <;> cases hNext <;> rfl

theorem length_wayFrom (level : Level) {table : Frame}
    (h : ∀ e ∈ m.wayFrom a level table, e.present = true) :
    (m.wayFrom a level table).length = level.height + 1 := by
  induction level using Level.descent generalizing table with
  | leaf =>
    rw [wayFrom_pt]
    rfl
  | inner level below hNext ih =>
    cases hPresent : (m.entry ⟨table, level.indexOf a⟩).present with
    | false =>
      rw [wayFrom_absent hPresent] at h
      rw [h _ List.mem_cons_self] at hPresent
      cases hPresent
    | true =>
      rw [wayFrom_next hNext hPresent] at h ⊢
      rw [List.length_cons, ih fun e he => h e (List.mem_cons_of_mem _ he), Level.height_of_next? hNext]

theorem Permits.length_way {root : Frame} {access : Access} {p : PhysicalAddress}
    (h : m.Permits root a access p) : (m.way root a).length = 4 := length_wayFrom .pml4 h.present

theorem way_congr {r r' : Frame}
    (h : m.entry ⟨r, Level.pml4.indexOf a⟩ = m.entry ⟨r', Level.pml4.indexOf a⟩) :
    m.way r a = m.way r' a := by
  rw [way, way, wayFrom, wayFrom, h]

end Memory

namespace Plan.Fits

variable {plan : Plan} {kernel r t : Frame} {roots : List Frame} {m : Memory} {a : VirtualAddress}
  {access : Access} {p : PhysicalAddress}

/-- The way goes along the plan: by open entries to the leaf table that is planned there, or to an entry
that is not present if there is none. -/
theorem wayFrom_cases (h : plan.Fits kernel roots m) (hHalf : OwnHalf kernel r a) (level : Level)
    {table : Frame} (hPlace : plan table = some ⟨r, a.pathTo level⟩) :
    ∃ links e, m.wayFrom a level table = links ++ [e] ∧ (∀ e' ∈ links, e'.Open) ∧
      ((∃ t, plan t = some ⟨r, a.pathTo .pt⟩ ∧ e = m.entry ⟨t, Level.pt.indexOf a⟩) ∨
        (∀ t, plan t ≠ some ⟨r, a.pathTo .pt⟩) ∧ e.present = false) := by
  induction level using Level.descent generalizing table with
  | leaf =>
    refine ⟨[], _, Memory.wayFrom_pt, fun e he => absurd he List.not_mem_nil, ?_⟩
    exact Or.inl ⟨table, hPlace, rfl⟩
  | inner level below hNext ih =>
    have hLength := a.length_pathTo_lt_of_next? hNext
    rcases h.link hPlace hLength _ (hHalf.branches level) with hEmpty | ⟨f, hf, hLink⟩
    · have hAbsent : (m.entry ⟨table, level.indexOf a⟩).present = false := by
        rw [hEmpty, Entry.present_empty]
      refine ⟨[], _, Memory.wayFrom_absent hAbsent, fun e he => absurd he List.not_mem_nil, ?_⟩
      exact Or.inr ⟨h.no_leaf_table (Level.ne_pt_of_next? hNext) hPlace hEmpty, hAbsent⟩
    · have hOpen : (m.entry ⟨table, level.indexOf a⟩).Open := hLink ▸ Entry.open_compose f
      have hFrame : (m.entry ⟨table, level.indexOf a⟩).frame = f :=
        (Entry.target_eq_some.1 (h.target_of_place hPlace hf)).2.2
      rw [← VirtualAddress.pathTo_of_next? hNext] at hf
      obtain ⟨links, e, hWay, hLinks, hEnd⟩ := ih hf
      refine ⟨m.entry ⟨table, level.indexOf a⟩ :: links, e, ?_, ?_, hEnd⟩
      · rw [Memory.wayFrom_next hNext hOpen.present, hFrame, hWay, List.cons_append]
      · intro e' he'
        rcases List.mem_cons.1 he' with rfl | he'
        · exact hOpen
        · exact hLinks e' he'

section KnownRoot

variable (h : plan.Fits kernel roots m) (hr : r = kernel ∨ r ∈ roots)

include h hr

theorem way_cases (a : VirtualAddress) : ∃ links e, m.way r a = links ++ [e] ∧
    (∀ e' ∈ links, e'.Open) ∧
      (m.leaf? r a = .ok (some e) ∧ e.flag .pageSize = false ∨
        m.leaf? r a = .ok none ∧ e.present = false) := by
  have hOwn : ∀ {r₀}, OwnHalf kernel r₀ a → plan r₀ = some ⟨r₀, []⟩ → ∃ links e,
      m.way r₀ a = links ++ [e] ∧ (∀ e' ∈ links, e'.Open) ∧
        (m.leaf? r₀ a = .ok (some e) ∧ e.flag .pageSize = false ∨
          m.leaf? r₀ a = .ok none ∧ e.present = false) := by
    intro r₀ hHalf hRoot
    obtain ⟨links, e, hWay, hLinks, hEnd⟩ := h.wayFrom_cases hHalf .pml4 hRoot
    refine ⟨links, e, hWay, hLinks, ?_⟩
    rcases hEnd with ⟨t, ht, rfl⟩ | ⟨hNone, hAbsent⟩
    · exact Or.inl ⟨h.leaf?_of_place hHalf hRoot ht, (h.leaf ht rfl _).1⟩
    · exact Or.inr ⟨h.leaf?_of_none hHalf hRoot hNone, hAbsent⟩
  by_cases hUpper : kernelRootStart ≤ (Level.pml4.indexOf a).val
  · -- In the upper half every root has what the kernel's has.
    have hKernel := hOwn (iff_of_true rfl hUpper) h.kernel_place
    rcases hr with rfl | hr
    · exact hKernel
    · rwa [h.leaf?_upper hr hUpper, Memory.way_congr (h.upper hr _ hUpper)]
  · rcases hr with rfl | hr
    · have hLower := Nat.lt_of_not_le hUpper
      have hAbsent : (m.entry ⟨r, Level.pml4.indexOf a⟩).present = false := by
        rw [h.lower _ hLower, Entry.present_empty]
      refine ⟨[], _, Memory.wayFrom_absent hAbsent, fun e he => absurd he List.not_mem_nil, ?_⟩
      exact Or.inr ⟨h.leaf?_lower hLower, hAbsent⟩
    · exact hOwn ⟨fun hEq => absurd hEq (h.ne_kernel hr), fun hLe => absurd hLe hUpper⟩ (h.root_place hr)

/-- The leaf decides what the processor permits. -/
theorem permits_iff : m.Permits r a access p ↔ a.isCanonical = true ∧
    ∃ e, m.leaf? r a = .ok (some e) ∧ e.present = true ∧ AddressSpace.allows e access = true ∧
      p = e.frame.join a.offset := by
  obtain ⟨links, e, hWay, hLinks, hEnd⟩ := h.way_cases hr a
  have hLast : (m.way r a).getLast? = some e := by rw [hWay, List.getLast?_append_cons]; rfl
  have hMem : e ∈ m.way r a := List.mem_of_getLast? hLast
  constructor
  · intro hPermits
    obtain ⟨e', he', hReach⟩ := hPermits.reaches
    rw [hLast] at he'
    obtain rfl := Option.some.inj he'
    rcases hEnd with ⟨hLeaf, -⟩ | ⟨-, hAbsent⟩
    · refine ⟨hPermits.canonical, e, hLeaf, hPermits.present e hMem, ?_, hReach⟩
      cases access with
      | read => exact hPermits.user e hMem
      | write =>
        rw [AddressSpace.allows, hPermits.user e hMem, hPermits.writable rfl e hMem]
        rfl
    · rw [hPermits.present e hMem] at hAbsent
      cases hAbsent
  · rintro ⟨hCanonical, e', hLeaf', hPresent, hAllows, rfl⟩
    obtain rfl : e' = e := by
      rcases hEnd with ⟨hLeaf, -⟩ | ⟨hLeaf, -⟩
      · rw [hLeaf] at hLeaf'
        simpa [eq_comm] using hLeaf'
      · rw [hLeaf] at hLeaf'
        cases hLeaf'
    have hUser : e'.user = true := by
      cases access with
      | read => exact hAllows
      | write => exact (Bool.and_eq_true_iff.1 hAllows).1
    have hAll : ∀ {P : Entry → Prop}, (∀ e, e.Open → P e) → P e' → ∀ e ∈ m.way r a, P e := by
      intro P hOpen hLeaf e he
      rw [hWay, List.mem_append, List.mem_singleton] at he
      rcases he with he | rfl
      · exact hOpen e (hLinks e he)
      · exact hLeaf
    refine ⟨hCanonical, hAll (fun e h => h.present) hPresent, hAll (fun e h => h.user) hUser, ?_,
      e', hLast, rfl⟩
    rintro rfl
    exact hAll (fun e h => h.writable) (Bool.and_eq_true_iff.1 hAllows).2

theorem open_of_mem_dropLast {e : Entry} (he : e ∈ (m.way r a).dropLast) : e.Open := by
  obtain ⟨links, last, hWay, hLinks, -⟩ := h.way_cases hr a
  rw [hWay, List.dropLast_concat] at he
  exact hLinks e he

end KnownRoot

variable {s : AddressSpace}

/-- What a space resolves for a user program is what the processor permits. -/
theorem resolve_iff_permits (h : plan.Fits kernel roots m) (hr : s.root = kernel ∨ s.root ∈ roots)
    (a : VirtualAddress) (access : Access) :
    ∃ o, s.resolve m a access = .ok o ∧
      ∀ p, o = some p ↔ a.isUser = true ∧ m.Permits s.root a access p := by
  cases hUser : a.isUser with
  | false => exact ⟨none, AddressSpace.resolve_of_not_user hUser, fun p => by simp⟩
  | true =>
    have hCanonical := VirtualAddress.isCanonical_of_isUser hUser
    obtain ⟨links, e, -, -, hEnd⟩ := h.way_cases hr a
    rcases hEnd with ⟨hLeaf, hSmall⟩ | ⟨hLeaf, -⟩
    · refine ⟨_, AddressSpace.resolve_of_entry hLeaf hSmall hUser, fun p => ?_⟩
      rw [h.permits_iff hr, hLeaf]
      cases hAllows : AddressSpace.allows e access <;> cases hPresent : e.present <;>
        simp [AddressSpace.mappedFrame, Entry.frame, hCanonical, hAllows, hPresent, @eq_comm _ p]
    · refine ⟨none, AddressSpace.resolve_of_none hLeaf, fun p => ?_⟩
      rw [h.permits_iff hr, hLeaf]
      simp

/-- The processor keeps user programs out of the kernel half, if the leaves there do. -/
theorem not_permits (h : plan.Fits kernel roots m) (hr : r = kernel ∨ r ∈ roots)
    (hOnly : ∀ e, m.leaf? kernel a = .ok (some e) → e.present = true → e.user = false)
    (hUser : a.isUser = false) : ¬ m.Permits r a access p := by
  rw [h.permits_iff hr]
  rintro ⟨hCanonical, e, hLeaf, hPresent, hAllows, -⟩
  have hUpper : kernelRootStart ≤ (Level.pml4.indexOf a).val := by
    by_contra hLower
    rw [VirtualAddress.isUser_of_isCanonical hCanonical (Nat.lt_of_not_le hLower)] at hUser
    cases hUser
  have hKernel : m.leaf? kernel a = .ok (some e) := by
    rcases hr with rfl | hr
    · exact hLeaf
    · rwa [h.leaf?_upper hr hUpper] at hLeaf
  have hNot := hOnly e hKernel hPresent
  cases access with
  | read =>
    rw [AddressSpace.allows, hNot] at hAllows
    cases hAllows
  | write =>
    rw [AddressSpace.allows, hNot] at hAllows
    cases hAllows

end Plan.Fits

end PagedKernel
