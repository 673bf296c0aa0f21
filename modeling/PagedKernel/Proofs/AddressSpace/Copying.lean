import PagedKernel.Proofs.AddressSpace.Queries
import PagedKernel.Proofs.Memory.DirectMap
import PagedKernel.Proofs.Plan.Described
import PagedKernel.Proofs.UserMemory.PageWalk

/-!
# Writes to pages

Bytes reach memory in two ways: the caller stores them at a physical address, or copies them to the
user memory of a space. Both write the frames that they name and no others.

* `Memory.writeFrom_cases`: a store writes the frames that its addresses lie in.
* `Plan.Describes.copyTo_eq`: a copy to user memory writes pages of the space.
* `Plan.Describes.copyFrom_eq`: a copy from user memory writes nothing.
-/

namespace PagedKernel

open MachineM

namespace Memory

variable {m : Memory} {keep : Frame → Prop}

theorem store_cases (a : PhysicalAddress) (b : UInt8) (hKeep : ¬ keep a.frame) :
    ∃ m', (store a b m = .ok () m' ∨ store a b m = .error (.beyondMemory a) m') ∧
      m.AgreeOn keep m' := by
  rw [store]
  split
  next hHolds =>
    refine ⟨_, Or.inl rfl, (agreeOn_setByte hHolds b).mono fun f hf => ?_⟩
    rintro rfl
    exact hKeep hf
  next => exact ⟨m, Or.inr rfl, AgreeOn.refl keep m⟩

/-- A store writes the frames that its addresses lie in, wherever it ends. -/
theorem writeFrom_cases (keep : Frame → Prop) (a : PhysicalAddress) (i : Nat) (bytes : List UInt8)
    (hKeep : ∀ j < bytes.length, ∀ q, a.add (i + j) = .ok q → ¬ keep q.frame) :
    ∃ m', (writeFrom a i bytes m = .ok () m' ∨
        ∃ v, v ≠ .hugePage ∧ writeFrom a i bytes m = .error v m') ∧ m.AgreeOn keep m' := by
  induction bytes generalizing m i with
  | nil => exact ⟨m, Or.inl rfl, AgreeOn.refl keep m⟩
  | cons b rest ih =>
    rw [writeFrom]
    by_cases hLt : a.val.toNat + i < 2 ^ 64
    · obtain ⟨q, hAdd, -⟩ := PhysicalAddress.exists_add hLt
      rw [Stateful.bind_ok (Stateful.lift_ok hAdd)]
      obtain ⟨m', hStore, hAgree⟩ := store_cases (m := m) q b
        (hKeep 0 (by simp) q (by rwa [Nat.add_zero]))
      rcases hStore with hStore | hStore
      · obtain ⟨m'', hRest, hAgree'⟩ := ih (m := m') (i + 1) fun j hj q' hq' =>
          hKeep (j + 1) (by simpa using hj) q' (by rwa [Nat.add_right_comm] at hq')
        refine ⟨m'', ?_, hAgree.trans hAgree'⟩
        rwa [Stateful.bind_ok hStore]
      · exact ⟨m', Or.inr ⟨.beyondMemory q, nofun, Stateful.bind_error hStore⟩, hAgree⟩
    · have hAdd := PhysicalAddress.add_overflows (Nat.le_of_not_lt hLt)
      exact ⟨m, Or.inr ⟨.addressOverflow, nofun, Stateful.bind_error (Stateful.lift_error hAdd)⟩,
        AgreeOn.refl keep m⟩

end Memory

namespace Plan.Describes

variable {plan : Plan} {kernel : Frame} {roots held : List Frame} {s : AddressSpace} {m : Machine}

def NotPage (plan : Plan) (f : Frame) : Prop :=
  ∀ r path, plan f = some ⟨r, path⟩ → path.length < 4

theorem writeByte_eq (h : plan.Describes kernel roots held m)
    (hRoot : s.root = kernel ∨ s.root ∈ roots) (a : VirtualAddress) (b : UInt8) :
    ∃ out m', s.userMemory.writeByte a b m = .ok out m' ∧ m'.frames = m.frames ∧
      m.memory.AgreeOn (NotPage plan) m'.memory := by
  rw [AddressSpace.writeByte_apply]
  rcases h.fits.resolve_cases hRoot a .write with hNone | ⟨f, hPlace, hSome⟩
  · rw [hNone]
    exact ⟨_, m, rfl, rfl, Memory.AgreeOn.refl _ _⟩
  · have hHolds : m.memory.holds (f.join a.offset).frame = true := by
      rw [Frame.frame_join]
      exact h.fits.holds hPlace
    rw [hSome]
    simp only [hHolds, ↓reduceIte]
    refine ⟨_, _, rfl, rfl, (Memory.agreeOn_setByte hHolds b).mono fun g hg => ?_⟩
    rw [Frame.frame_join]
    rintro rfl
    exact absurd (hg _ _ hPlace) (by simp [VirtualAddress.path, Level.depth])

theorem readByte_eq (h : plan.Describes kernel roots held m)
    (hRoot : s.root = kernel ∨ s.root ∈ roots) (a : VirtualAddress) :
    ∃ out, s.userMemory.readByte a m = .ok out m := by
  rw [AddressSpace.readByte_apply]
  rcases h.fits.resolve_cases hRoot a .read with hNone | ⟨f, hPlace, hSome⟩
  · rw [hNone]
    exact ⟨_, rfl⟩
  · have hHolds : m.memory.holds (f.join a.offset).frame = true := by
      rw [Frame.frame_join]
      exact h.fits.holds hPlace
    rw [hSome]
    simp only [hHolds, ↓reduceIte]
    exact ⟨_, rfl⟩

theorem notPage_of_table {t r : Frame} {path : List TableIndex} (ht : plan t = some ⟨r, path⟩)
    (hLength : path.length < 4) : NotPage plan t := by
  intro r' path' ht'
  rw [ht] at ht'
  obtain ⟨-, rfl⟩ : r = r' ∧ path = path' := by simpa using ht'
  exact hLength

theorem of_pages {m' : Machine} (h : plan.Describes kernel roots held m)
    (hFrames : m'.frames = m.frames) (hAgree : m.memory.AgreeOn (NotPage plan) m'.memory) :
    plan.Describes kernel roots held m' :=
  h.of_agreeOn hAgree notPage_of_table (by rw [hFrames]) (by rw [hFrames])

theorem copyToAt_eq (h : plan.Describes kernel roots held m)
    (hRoot : s.root = kernel ∨ s.root ∈ roots) (dst : VirtualAddress) (i : Nat) (bytes : List UInt8) :
    ∃ out m', s.userMemory.copyToAt dst i bytes m = .ok out m' ∧ m'.frames = m.frames ∧
      m.memory.AgreeOn (NotPage plan) m'.memory := by
  induction bytes generalizing m i with
  | nil => exact ⟨.ok (), m, rfl, rfl, Memory.AgreeOn.refl _ _⟩
  | cons b rest ih =>
    rw [UserMemory.copyToAt, UserMemory.writeAt]
    cases UserMemory.userAddress dst i with
    | error e => exact ⟨.error e, m, rfl, rfl, Memory.AgreeOn.refl _ _⟩
    | ok a =>
      obtain ⟨out, m', hWrite, hFrames, hAgree⟩ := h.writeByte_eq hRoot a b
      simp only
      rw [Stateful.bind_ok hWrite]
      cases out with
      | error e => exact ⟨.error e, m', rfl, hFrames, hAgree⟩
      | ok _ =>
        obtain ⟨out, m'', hRest, hFrames', hAgree'⟩ := ih (h.of_pages hFrames hAgree) (i + 1)
        exact ⟨out, m'', hRest, hFrames'.trans hFrames, hAgree.trans hAgree'⟩

/-- A copy to user memory writes pages of the space, whether it ends well or not. -/
theorem copyTo_eq (h : plan.Describes kernel roots held m)
    (hRoot : s.root = kernel ∨ s.root ∈ roots) (dst : VirtualAddress) (bytes : List UInt8) :
    ∃ out m', s.userMemory.copyTo dst bytes m = .ok out m' ∧ m'.frames = m.frames ∧
      m.memory.AgreeOn (NotPage plan) m'.memory :=
  h.copyToAt_eq hRoot dst 0 bytes

theorem copyFromAt_eq (h : plan.Describes kernel roots held m)
    (hRoot : s.root = kernel ∨ s.root ∈ roots) (src : VirtualAddress) (i : Nat)
    (buffer : List UInt8) : ∃ out, s.userMemory.copyFromAt src i buffer m = .ok out m := by
  induction buffer generalizing i with
  | nil => exact ⟨([], .ok ()), rfl⟩
  | cons old rest ih =>
    rw [UserMemory.copyFromAt, UserMemory.readAt]
    cases UserMemory.userAddress src i with
    | error e => exact ⟨(old :: rest, .error e), rfl⟩
    | ok a =>
      obtain ⟨out, hRead⟩ := h.readByte_eq hRoot a
      simp only
      rw [Stateful.bind_ok hRead]
      cases out with
      | error e => exact ⟨(old :: rest, .error e), rfl⟩
      | ok b =>
        obtain ⟨⟨filled, outcome⟩, hRest⟩ := ih (i + 1)
        simp only
        rw [Stateful.bind_ok hRest]
        exact ⟨(b :: filled, outcome), rfl⟩

/-- A copy from user memory writes nothing. -/
theorem copyFrom_eq (h : plan.Describes kernel roots held m)
    (hRoot : s.root = kernel ∨ s.root ∈ roots) (src : VirtualAddress) (buffer : List UInt8) :
    ∃ out, s.userMemory.copyFrom src buffer m = .ok out m :=
  h.copyFromAt_eq hRoot src 0 buffer

end Plan.Describes

end PagedKernel
