import PagedKernel.Proofs.UserMemory.Filling
import PagedKernel.Proofs.UserMemory.Strings

/-!
# How far a copy goes

A copy from or to a process takes one byte after another and stops at the first one that is out of reach:
its address wraps, or is no user address, or is not mapped for the access. The bytes before it have been
transferred and nothing else has. As a process cannot write to its tables, a byte that is in reach when the
copy begins is in reach when its turn comes.

* `AddressSpace.Reaches`: a byte is in reach. `AddressSpace.Reaches.userAddress`,
  `AddressSpace.InMemory.userAddress_of_not_reaches`: what the copy finds when it comes to a byte.
* `AddressSpace.Extent`: how far a copy goes, and how it ends.
* `Machine.Stored`: bytes are stored in order. `Machine.Stored.push`: one more is stored.
* `AddressSpace.InMemory.copyFromAt`, `AddressSpace.Sound.copyToAt`: a copy that goes on.
* `Machine.Stored.filled`: what was stored in pages with frames of their own is in place.
* `AddressSpace.copies_up_to_fault`: copies stop at the first byte that is out of reach.
-/

namespace PagedKernel

open Stateful

/-- The address that is named by a copy from or to `start` that stops at the byte `i` bytes after it: that
of the byte if it is a user address, and `start` if it is none or wraps. -/
def UserMemory.faultAt (start : VirtualAddress) (i : Nat) : VirtualAddress :=
  ((start.add? i).filter (·.isUser)).getD start

namespace AddressSpace

variable {s : AddressSpace} {m : Memory} {access : Access} {start : VirtualAddress} {length i n n' : Nat}
  {o o' : Except UserFault Unit}

/-- The process may access the byte `i` bytes after `start`: the address does not wrap, and as a user address
it is mapped for the access. -/
def Reaches (s : AddressSpace) (m : Memory) (access : Access) (start : VirtualAddress) (i : Nat) : Prop :=
  ∃ a p, start.add? i = some a ∧ s.resolve m a access = .ok (some p)

/-- How far a copy of `length` bytes from or to `start` goes, and how it ends: it goes on for the whole
length, or up to the first byte that is out of reach. -/
inductive Extent (s : AddressSpace) (m : Memory) (access : Access) (start : VirtualAddress) (length : Nat) :
    Nat → Except UserFault Unit → Prop
  | whole (hAll : ∀ j < length, s.Reaches m access start j) : Extent s m access start length length (.ok ())
  | stopped {i : Nat} (hLt : i < length) (hOut : ¬ s.Reaches m access start i)
      (hBefore : ∀ j < i, s.Reaches m access start j) :
      Extent s m access start length i (.error ⟨UserMemory.faultAt start i⟩)

theorem Extent.eq (h : s.Extent m access start length n o) (h' : s.Extent m access start length n' o') :
    n = n' ∧ o = o' := by
  cases h with
  | whole hAll =>
    cases h' with
    | whole => exact ⟨rfl, rfl⟩
    | stopped hLt hOut => exact absurd (hAll _ hLt) hOut
  | stopped hLt hOut hBefore =>
    cases h' with
    | whole hAll => exact absurd (hAll _ hLt) hOut
    | stopped _ hOut' hBefore' =>
      rcases Nat.lt_trichotomy n n' with hNe | rfl | hNe
      · exact absurd (hBefore' _ hNe) hOut
      · exact ⟨rfl, rfl⟩
      · exact absurd (hBefore _ hNe) hOut'

/-! ## One byte -/

/-- A byte that is in reach has a user address, which is mapped. -/
theorem Reaches.userAddress (h : s.Reaches m access start i) :
    ∃ a p, start.add? i = some a ∧ UserMemory.userAddress start i = .ok a ∧
      s.resolve m a access = .ok (some p) := by
  obtain ⟨a, p, hAdd, hResolve⟩ := h
  exact ⟨a, p, hAdd, UserMemory.userAddress_eq_ok.2 ⟨hAdd, (resolve_eq_some.1 hResolve).1⟩, hResolve⟩

/-- A byte that is out of reach has no user address, or it has one where nothing is mapped for the access.
The copy names the same address in both cases. -/
theorem InMemory.userAddress_of_not_reaches (h : s.InMemory m) (hOut : ¬ s.Reaches m access start i) :
    UserMemory.userAddress start i = .error ⟨UserMemory.faultAt start i⟩ ∨
      UserMemory.userAddress start i = .ok (UserMemory.faultAt start i) ∧
        s.resolve m (UserMemory.faultAt start i) access = .ok none := by
  rw [UserMemory.userAddress, UserMemory.faultAt]
  cases hAdd : start.add? i with
  | none => exact Or.inl rfl
  | some a =>
    by_cases hUser : a.isUser = true
    · simp only [hUser, Option.filter_some, ↓reduceIte, Option.getD_some]
      obtain ⟨o, hResolve, -⟩ := h.exists_resolve a access
      cases o with
      | none => exact Or.inr ⟨trivial, hResolve⟩
      | some p => exact absurd ⟨a, p, hAdd, hResolve⟩ hOut
    · simp only [hUser, Option.filter_some, Bool.false_eq_true, ↓reduceIte, Option.getD_none, true_or]

end AddressSpace

/-! ## Reading -/

namespace AddressSpace.InMemory

variable {s : AddressSpace} {m : Machine} {start : VirtualAddress} {i : Nat} (h : s.InMemory m.memory)

include h

theorem readAt_of_not_reaches (hOut : ¬ s.Reaches m.memory .read start i) :
    s.userMemory.readAt start i m = .ok (.error ⟨UserMemory.faultAt start i⟩) m := by
  rw [UserMemory.readAt]
  rcases h.userAddress_of_not_reaches hOut with hStep | ⟨hStep, hNone⟩
  · rw [hStep]
    rfl
  · rw [hStep]
    show s.userMemory.readByte _ m = _
    rw [readByte_apply, hNone]

theorem copyFromAt {k : Nat} (buffer : List UInt8)
    (hBefore : ∀ j < k, s.Reaches m.memory .read start j) :
    ∃ bytes o, s.Extent m.memory .read start (k + buffer.length) (k + bytes.length) o ∧
      (∀ i b, bytes[i]? = some b → (s.view m.memory).Shows start (k + i) b) ∧
      s.userMemory.copyFromAt start k buffer m = .ok (bytes ++ buffer.drop bytes.length, o) m := by
  induction buffer generalizing k with
  | nil => exact ⟨[], _, .whole hBefore, nofun, rfl⟩
  | cons old buffer ih =>
    by_cases hReach : s.Reaches m.memory .read start k
    · obtain ⟨b, hShows⟩ := (view_readable.2 hReach).exists_shows
      obtain ⟨bytes, o, hExtent, hBytes, hRest⟩ :=
        @ih (k + 1) (Nat.forall_lt_succ_right.2 ⟨hBefore, hReach⟩)
      have hSucc : ∀ i, k + 1 + i = k + (i + 1) := fun i => by omega
      rw [hSucc, hSucc] at hExtent
      refine ⟨b :: bytes, o, hExtent, fun i c hc => ?_, ?_⟩
      · cases i with
        | zero =>
          obtain rfl : b = c := Option.some.inj hc
          exact hShows
        | succ i =>
          rw [← hSucc]
          exact hBytes i c hc
      · rw [UserMemory.copyFromAt, bind_ok (UserMemory.readAt_of_shows h.reads hShows)]
        show (_ >>= _ : MachineM _) m = _
        rw [bind_ok hRest]
        rfl
    · refine ⟨[], _, .stopped (Nat.lt_add_of_pos_right (Nat.succ_pos _)) hReach hBefore, nofun, ?_⟩
      rw [UserMemory.copyFromAt, bind_ok (h.readAt_of_not_reaches hReach)]
      rfl

end AddressSpace.InMemory

/-! ## Writing -/

/-- These bytes were stored in order from `start` on, and nothing else has changed. Where several of them go
to one place in memory, the last one is there. -/
structure Machine.Stored (m : Machine) (s : AddressSpace) (start : VirtualAddress) (bytes : List UInt8)
    (m' : Machine) : Prop where
  same : m.SameBut (fun k => ∃ i < bytes.length, s.Stores m.memory start i k) m'
  last {i k : Nat} {b : UInt8} : bytes[i]? = some b → s.Stores m.memory start i k →
    (∀ j < bytes.length, i < j → ¬ s.Stores m.memory start j k) → m'.memory.byte k = b

namespace Machine.Stored

variable {m m₁ : Machine} {s : AddressSpace} {start : VirtualAddress} {bytes : List UInt8}

theorem refl (m : Machine) (s : AddressSpace) (start : VirtualAddress) : m.Stored s start [] m :=
  ⟨.refl _ _, nofun⟩

theorem agreeOn (h : m.Stored s start bytes m₁) (hSound : s.Sound m.memory) :
    m.memory.AgreeOn (s.UserTable m.memory) m₁.memory := by
  refine ⟨h.same.size_eq, fun k hk => h.same.byte_eq k ?_⟩
  rintro ⟨i, -, a, p, -, hResolve, rfl⟩
  exact hSound.apart hResolve (hk p.frame p.toNat_number_frame)

theorem push (h : m.Stored s start bytes m₁) (hSound : s.Sound m.memory)
    (hReach : s.Reaches m.memory .write start bytes.length) (b : UInt8) :
    ∃ m₂, s.userMemory.writeAt start bytes.length b m₁ = .ok (.ok ()) m₂ ∧
      m.Stored s start (bytes ++ [b]) m₂ := by
  obtain ⟨a, p, hAdd, hStep, hResolve⟩ := hReach.userAddress
  have hTables := h.agreeOn hSound
  have hHolds : m₁.memory.holds p.frame = true :=
    (hTables.holds p.frame).trans (hSound.holds_of_resolve hResolve)
  have hHere : s.Stores m.memory start bytes.length p.val.toNat := ⟨a, p, hAdd, hResolve, rfl⟩
  have hLength : (bytes ++ [b]).length = bytes.length + 1 := List.length_append
  refine ⟨{ m₁ with memory := m₁.memory.setByte p.val.toNat b }, ?_,
    (h.same.mono ?_).setByte hHolds ⟨_, by omega, hHere⟩ b, fun {i k c} hc hStores hLast => ?_⟩
  · rw [UserMemory.writeAt, hStep]
    show s.userMemory.writeByte a b m₁ = _
    rw [AddressSpace.writeByte_apply, AddressSpace.resolve_of_tables hTables, hResolve]
    simp only [hHolds, ↓reduceIte]
  · rintro k ⟨i, hi, hStores⟩
    exact ⟨i, by omega, hStores⟩
  · have hByte := Memory.byte_setByte m₁.memory (Memory.lt_of_holds hHolds) b k
    rcases getElem?_snoc hc with ⟨hLt, hOld⟩ | ⟨rfl, rfl⟩
    · -- The byte that is stored now goes elsewhere, as it is a later one.
      have hNe : k ≠ p.val.toNat := by
        rintro rfl
        exact hLast _ (by omega) hLt hHere
      rw [hByte, if_neg hNe]
      exact h.last hOld hStores fun j hj => hLast j (by omega)
    · rw [hByte, if_pos (hStores.eq hHere)]

theorem writeAt_of_not_reaches (h : m.Stored s start bytes m₁) (hSound : s.Sound m.memory) {i : Nat}
    (hOut : ¬ s.Reaches m.memory .write start i) (b : UInt8) :
    s.userMemory.writeAt start i b m₁ = .ok (.error ⟨UserMemory.faultAt start i⟩) m₁ := by
  rw [UserMemory.writeAt]
  rcases hSound.userAddress_of_not_reaches hOut with hStep | ⟨hStep, hNone⟩
  · rw [hStep]
    rfl
  · rw [hStep]
    show s.userMemory.writeByte _ b m₁ = _
    rw [AddressSpace.writeByte_apply, AddressSpace.resolve_of_tables (h.agreeOn hSound), hNone]

end Machine.Stored

/-- The first bytes were in reach and have been stored. Then a copy goes on behind them. -/
theorem AddressSpace.Sound.copyToAt {s : AddressSpace} {m m₁ : Machine} {start : VirtualAddress}
    {bytes : List UInt8} (hSound : s.Sound m.memory) (hStored : m.Stored s start bytes m₁)
    (hBefore : ∀ j < bytes.length, s.Reaches m.memory .write start j) (more : List UInt8) :
    ∃ n o m₂, s.Extent m.memory .write start (bytes ++ more).length n o ∧
      s.userMemory.copyToAt start bytes.length more m₁ = .ok o m₂ ∧
      m.Stored s start ((bytes ++ more).take n) m₂ := by
  induction more generalizing bytes m₁ with
  | nil =>
    rw [List.append_nil]
    exact ⟨_, _, m₁, .whole hBefore, rfl, by rwa [List.take_length]⟩
  | cons b more ih =>
    by_cases hReach : s.Reaches m.memory .write start bytes.length
    · obtain ⟨m₂, hWrite, hNext⟩ := hStored.push hSound hReach b
      have hLength : (bytes ++ [b]).length = bytes.length + 1 := List.length_append
      have hUpTo : ∀ j < (bytes ++ [b]).length, s.Reaches m.memory .write start j := by
        rw [hLength]
        exact Nat.forall_lt_succ_right.2 ⟨hBefore, hReach⟩
      obtain ⟨n, o, m₃, hExtent, hRest, hAfter⟩ := ih hNext hUpTo
      rw [List.append_assoc] at hExtent hAfter
      refine ⟨n, o, m₃, hExtent, ?_, hAfter⟩
      rw [UserMemory.copyToAt, bind_ok hWrite]
      rwa [hLength] at hRest
    · have hLt : bytes.length < (bytes ++ b :: more).length := by
        rw [List.length_append, List.length_cons]
        omega
      refine ⟨_, _, m₁, .stopped hLt hReach hBefore, ?_, ?_⟩
      · rw [UserMemory.copyToAt, bind_ok (hStored.writeAt_of_not_reaches hSound hReach b)]
        rfl
      · rwa [List.take_left]

/-! ## What was stored is read -/

/-- Bytes that were stored in pages with frames of their own are in place. -/
theorem Machine.Stored.filled {m m₁ : Machine} {s : AddressSpace} {start : VirtualAddress}
    {bytes : List UInt8} (h : m.Stored s start bytes m₁) (hBacks : s.Backs m.memory start bytes.length)
    (hReach : ∀ j < bytes.length, s.Reaches m.memory .write start j) : m.Filled s start bytes m₁ where
  same := h.same
  stored i b hb := by
    obtain ⟨hi, -⟩ := List.getElem?_eq_some_iff.1 hb
    obtain ⟨a, p, hAdd, hResolve⟩ := hReach i hi
    have hStores : s.Stores m.memory start i p.val.toNat := ⟨a, p, hAdd, hResolve, rfl⟩
    refine ⟨_, hStores, h.last hb hStores fun j hj hLt hOther => ?_⟩
    exact Nat.ne_of_lt hLt (hBacks.eq_of_stores hi hj hStores hOther)

/-! ## Copies -/

/-- In a space whose tables and pages lie in memory, and in which the process cannot write to its tables, a
copy stops at the first byte that is out of reach, whatever its length and wherever it starts. A copy from
the process has put the bytes before that one into the buffer, and the rest of the buffer is as it was. A copy
to the process has stored the bytes before that one in order, and nothing else has changed. If all bytes are
in reach for writing and the pages have frames of their own, what was stored is read again. A copy without
bytes succeeds, whatever the space and the address. -/
theorem AddressSpace.copies_up_to_fault (s : AddressSpace) (m : Machine) (start : VirtualAddress) :
    (s.userMemory.copyFrom start [] m = .ok ([], .ok ()) m ∧
      s.userMemory.copyTo start [] m = .ok (.ok ()) m) ∧
    (s.Sound m.memory →
      (∀ buffer : List UInt8, ∃ bytes o,
        s.Extent m.memory .read start buffer.length bytes.length o ∧
          (s.view m.memory).Spells start bytes ∧
          s.userMemory.copyFrom start buffer m = .ok (bytes ++ buffer.drop bytes.length, o) m) ∧
      (∀ bytes : List UInt8, ∃ n o m', s.Extent m.memory .write start bytes.length n o ∧
        s.userMemory.copyTo start bytes m = .ok o m' ∧ m.Stored s start (bytes.take n) m') ∧
      ∀ bytes buffer : List UInt8, buffer.length = bytes.length →
        (∀ i < bytes.length, s.Reaches m.memory .write start i) →
        s.OwnFrames m.memory start bytes.length →
        ∃ m', s.userMemory.copyTo start bytes m = .ok (.ok ()) m' ∧
          s.userMemory.copyFrom start buffer m' = .ok (bytes, .ok ()) m') := by
  refine ⟨⟨rfl, rfl⟩, fun hSound => ?_⟩
  have hTo : ∀ bytes : List UInt8, ∃ n o m', s.Extent m.memory .write start bytes.length n o ∧
      s.userMemory.copyTo start bytes m = .ok o m' ∧ m.Stored s start (bytes.take n) m' :=
    hSound.copyToAt (.refl m s start) fun _ hj => absurd hj (Nat.not_lt_zero _)
  refine ⟨fun buffer => ?_, hTo, fun bytes buffer hLength hReach hOwn => ?_⟩
  · obtain ⟨bytes, o, hExtent, hBytes, hCopy⟩ :=
      hSound.copyFromAt (k := 0) buffer fun _ hj => absurd hj (Nat.not_lt_zero _)
    simp only [Nat.zero_add] at hExtent hBytes
    exact ⟨bytes, o, hExtent, hBytes, hCopy⟩
  · obtain ⟨n, o, m', hExtent, hCopy, hStored⟩ := hTo bytes
    obtain ⟨rfl, rfl⟩ := hExtent.eq (.whole hReach)
    rw [List.take_length] at hStored
    have hBacks := hSound.backs hOwn
    have hSpells := (hStored.filled hBacks hReach).spells hBacks (Nat.le_refl _)
    have hAfter : s.InMemory m'.memory := (hSound.of_agreeOn (hStored.agreeOn hSound)).toInMemory
    exact ⟨m', hCopy, UserMemory.copyFrom_of_spells hAfter.reads hLength hSpells⟩

/-- On a machine of sixteen frames the last user page is mapped, to be written, and copies begin two bytes
before its end: the third byte is no user address. -/
theorem AddressSpace.copies_up_to_fault_sixteen : ∃ k m events s σ, Machine.boot 16 = .ok (k, m) ∧
    Run (.booted k m) events σ ∧ s ∈ σ.live ∧ s.Sound σ.machine.memory ∧
    (∃ bytes : List UInt8, bytes.length = 2 ∧
      s.userMemory.copyFrom ⟨0x7ffffffffffe⟩ [1, 2, 3] σ.machine =
        .ok (bytes ++ [3], .error ⟨⟨0x7ffffffffffe⟩⟩) σ.machine) ∧
    (∃ m', s.userMemory.copyTo ⟨0x7ffffffffffe⟩ [7, 8, 9] σ.machine =
        .ok (.error ⟨⟨0x7ffffffffffe⟩⟩) m' ∧ σ.machine.Stored s ⟨0x7ffffffffffe⟩ [7, 8] m') ∧
    ∃ m', s.userMemory.copyTo ⟨0x7ffffffffffe⟩ [7, 8] σ.machine = .ok (.ok ()) m' ∧
      s.userMemory.copyFrom ⟨0x7ffffffffffe⟩ [0, 0] m' = .ok ([7, 8], .ok ()) m' := by
  obtain ⟨k, m, f, s, kernelAlias, σ, hBoot, hRun, hs, hMapped⟩ := @Run.exists_reachable 16 (by decide)
    (by decide) ⟨0x7ffffffff000⟩ (by decide) (by decide) true
  obtain ⟨plan₀, hStart⟩ := System.tracks_booted (by decide) hBoot
  obtain ⟨-, plan, hTracks, -⟩ := hRun.tracks hStart
  have hSound := hTracks.sound (Or.inl hs)
  have hReach : ∀ access, ∀ i < 2, s.Reaches σ.machine.memory access ⟨0x7ffffffffffe⟩ i := by
    intro access i hi
    obtain ⟨a, -, hAdd⟩ := @VirtualAddress.exists_add ⟨0x7ffffffffffe⟩ i
      (show 0x7ffffffffffe + i < 2 ^ 64 by omega)
    have hPlace : a.val.toNat = 0x7ffffffffffe + i := VirtualAddress.toNat_of_add? hAdd
    obtain ⟨p, hResolve⟩ := hMapped access (fun _ => rfl) a
      (VirtualAddress.isUser_of_toNat_lt (by omega))
      (VirtualAddress.page_eq_iff.2 (show 0x7ffffffff000 / 4096 = a.val.toNat / 4096 by omega))
    exact ⟨a, p, hAdd, hResolve⟩
  have hOut : ∀ access, ¬ s.Reaches σ.machine.memory access ⟨0x7ffffffffffe⟩ 2 := by
    rintro access ⟨a, p, hAdd, hResolve⟩
    have hPlace : a.val.toNat = 0x7ffffffffffe + 2 := VirtualAddress.toNat_of_add? hAdd
    have hUser := VirtualAddress.toNat_lt_of_isUser (AddressSpace.resolve_eq_some.1 hResolve).1
    omega
  have hStop : ∀ access, s.Extent σ.machine.memory access ⟨0x7ffffffffffe⟩ 3 2
      (.error ⟨⟨0x7ffffffffffe⟩⟩) :=
    fun access => .stopped (by decide) (hOut access) (hReach access)
  obtain ⟨-, hCopies⟩ := s.copies_up_to_fault σ.machine ⟨0x7ffffffffffe⟩
  obtain ⟨hFrom, hTo, hBack⟩ := hCopies hSound
  refine ⟨k, m, _, s, σ, hBoot, hRun, hs, hSound, ?_, ?_,
    hBack [7, 8] [0, 0] rfl (hReach .write) (hTracks.ownFrames (Or.inl hs) _ _)⟩
  · obtain ⟨bytes, o, hExtent, -, hCopy⟩ := hFrom [1, 2, 3]
    obtain ⟨hLength, rfl⟩ := hExtent.eq (hStop .read)
    rw [hLength] at hCopy
    exact ⟨bytes, hLength, hCopy⟩
  · obtain ⟨n, o, m', hExtent, hCopy, hStored⟩ := hTo [7, 8, 9]
    obtain ⟨rfl, rfl⟩ := hExtent.eq (hStop .write)
    exact ⟨m', hCopy, hStored⟩

end PagedKernel
