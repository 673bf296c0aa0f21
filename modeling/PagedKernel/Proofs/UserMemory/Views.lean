import Mathlib.Algebra.GroupWithZero.Nat
import PagedKernel.Proofs.Syscall.Simulation

/-!
# What user memory shows

While reading a byte leaves the state alone, all that is read from user memory is settled by what the
single addresses show. A buffer is readable when each of its addresses is, and then a copy of it gives
its bytes in order.

Where the addresses of a page are readable together, one byte of each page settles whether a buffer is
readable. That is what sampling relies on.

* `UserMemory.Reads`: reading shows what a view says.
* `UserView.Spells`: the bytes from an address on.
* `UserMemory.copyFrom_of_spells`: they are copied.
* `UserMemory.samplePages_iff`: sampling succeeds for just the readable buffers.
-/

namespace PagedKernel

open Stateful

theorem getElem?_snoc {α : Type} {l : List α} {x y : α} {i : Nat} (h : (l ++ [x])[i]? = some y) :
    i < l.length ∧ l[i]? = some y ∨ i = l.length ∧ x = y := by
  rw [List.getElem?_append] at h
  split at h
  next hLt => exact Or.inl ⟨hLt, h⟩
  next hGe =>
    obtain ⟨hLe, hEq⟩ : i ≤ l.length ∧ x = y := by
      simpa [List.getElem?_singleton, Nat.sub_eq_zero_iff_le] using h
    exact Or.inr ⟨by omega, hEq⟩

/-- What a process may read at each address. -/
abbrev UserView := VirtualAddress → Except UserFault UInt8

/-- In the state `m`, reading a byte changes nothing and tells what the view says. -/
def UserMemory.Reads {σ : Type} (u : UserMemory σ) (m : σ) (view : UserView) : Prop :=
  ∀ a, u.readByte a m = .ok (view a) m

theorem UserMemory.userAddress_eq_ok {base a : VirtualAddress} {i : Nat} :
    userAddress base i = .ok a ↔ base.add? i = some a ∧ a.isUser = true := by
  constructor
  · intro h
    refine ⟨add?_of_userAddress h, ?_⟩
    rw [userAddress] at h
    split at h
    next b hAdd =>
      split at h
      next hUser =>
        cases h
        exact hUser
      next => cases h
    next => cases h
  · rintro ⟨hAdd, hUser⟩
    rw [userAddress, hAdd]
    exact if_pos hUser

namespace UserView

variable {view : UserView} {base : VirtualAddress} {bytes : List UInt8}

/-- The bytes from `base` on are readable, and they are these. -/
def Spells (view : UserView) (base : VirtualAddress) (bytes : List UInt8) : Prop :=
  ∀ i b, bytes[i]? = some b → ∃ a, base.add? i = some a ∧ a.isUser = true ∧ view a = .ok b

def Readable (view : UserView) (base : VirtualAddress) (i : Nat) : Prop :=
  ∃ a b, base.add? i = some a ∧ a.isUser = true ∧ view a = .ok b

def Uniform (view : UserView) : Prop :=
  ∀ a a' b, a.isUser = true → a'.isUser = true → a.page = a'.page → view a = .ok b →
    ∃ b', view a' = .ok b'

theorem Spells.readable (h : view.Spells base bytes) {i : Nat} (hi : i < bytes.length) :
    view.Readable base i := by
  obtain ⟨a, hAdd, hUser, hByte⟩ := h i bytes[i] (List.getElem?_eq_getElem hi)
  exact ⟨a, bytes[i], hAdd, hUser, hByte⟩

theorem exists_spells {n : Nat} (h : ∀ i < n, view.Readable base i) :
    ∃ bytes, bytes.length = n ∧ view.Spells base bytes := by
  induction n with
  | zero => exact ⟨[], rfl, nofun⟩
  | succ n ih =>
    obtain ⟨bytes, hLength, hSpells⟩ := ih fun i hi => h i (by omega)
    obtain ⟨a, b, hAdd, hUser, hByte⟩ := h n (by omega)
    refine ⟨bytes ++ [b], by simp [hLength], fun i c hc => ?_⟩
    rcases getElem?_snoc hc with ⟨-, hOld⟩ | ⟨rfl, rfl⟩
    · exact hSpells i c hOld
    · exact ⟨a, hLength ▸ hAdd, hUser, hByte⟩

theorem Spells.piece {src : VirtualAddress} {k n : Nat} (h : view.Spells base bytes)
    (hSrc : base.add? k = some src) : view.Spells src ((bytes.drop k).take n) := by
  intro i b hb
  have hInside : bytes[k + i]? = some b := by
    rw [List.getElem?_take] at hb
    split at hb
    · rwa [List.getElem?_drop] at hb
    · cases hb
  obtain ⟨a, hAdd, hUser, hByte⟩ := h _ b hInside
  rw [VirtualAddress.add?_eq_some] at hAdd hSrc
  exact ⟨a, VirtualAddress.add?_eq_some.2 (by omega), hUser, hByte⟩

end UserView

namespace UserMemory

variable {σ : Type} {u : UserMemory σ} {m : σ} {view : UserView}

theorem copyFromAt_of_spells (hReads : u.Reads m view) {src : VirtualAddress} {k : Nat}
    {bytes buffer : List UInt8} (hLength : buffer.length = bytes.length)
    (hBytes : ∀ i b, bytes[i]? = some b →
      ∃ a, src.add? (k + i) = some a ∧ a.isUser = true ∧ view a = .ok b) :
    u.copyFromAt src k buffer m = .ok (bytes, .ok ()) m := by
  induction buffer generalizing k bytes with
  | nil =>
    obtain rfl : bytes = [] := List.length_eq_zero_iff.1 hLength.symm
    rfl
  | cons old buffer ih =>
    match bytes, hLength with
    | b :: bytes, hLength =>
      obtain ⟨a, hAdd, hUser, hByte⟩ := hBytes 0 b rfl
      have hFirst : u.readAt src k m = .ok (.ok b) m := by
        rw [Nat.add_zero] at hAdd
        rw [readAt, userAddress_eq_ok.2 ⟨hAdd, hUser⟩]
        exact (hReads a).trans (by rw [hByte])
      have hRest := ih (k := k + 1) (Nat.succ.inj hLength) fun i c hc => by
        have hNext := hBytes (i + 1) c hc
        rwa [show k + (i + 1) = k + 1 + i by omega] at hNext
      rw [copyFromAt, bind_ok hFirst]
      show (_ >>= _ : Stateful σ _) m = _
      rw [bind_ok hRest]
      rfl

/-- Readable bytes are copied in order. -/
theorem copyFrom_of_spells (hReads : u.Reads m view) {src : VirtualAddress} {bytes buffer : List UInt8}
    (hLength : buffer.length = bytes.length) (hSpells : view.Spells src bytes) :
    u.copyFrom src buffer m = .ok (bytes, .ok ()) m := by
  refine copyFromAt_of_spells hReads hLength fun i b hb => ?_
  rw [Nat.zero_add]
  exact hSpells i b hb

/-- Sampling reads one byte of each page, so it succeeds just when the addresses from the first one to the
last are readable. -/
theorem sampleFrom_iff (hReads : u.Reads m view) (hUniform : view.Uniform) {last : VirtualAddress}
    (hLast : last.isUser = true) (pages : Nat) {a : VirtualAddress} (hLe : a.val.toNat ≤ last.val.toNat)
    (hPages : last.val.toNat / 4096 = a.val.toNat / 4096 + pages) :
    ∃ o, sampleFrom u last pages a m = .ok o m ∧
      (o = .ok () ↔ ∀ c : VirtualAddress, a.val.toNat ≤ c.val.toNat → c.val.toNat ≤ last.val.toNat →
        ∃ b, view c = .ok b) := by
  have hEnd := VirtualAddress.toNat_lt_of_isUser hLast
  induction pages generalizing a with
  | zero =>
    rw [sampleFrom, bind_ok (hReads last)]
    refine ⟨_, rfl, ?_⟩
    cases hByte : view last with
    | error e =>
      refine ⟨(fun hOk => by cases hOk), fun hAll => ?_⟩
      obtain ⟨b, hb⟩ := hAll last hLe (Nat.le_refl _)
      rw [hByte] at hb
      cases hb
    | ok b =>
      refine ⟨fun _ c hc hc' => ?_, fun _ => rfl⟩
      have hPage : last.page = c.page := VirtualAddress.page_eq_iff.2 (by omega)
      exact hUniform last c b hLast (VirtualAddress.isUser_of_toNat_lt (by omega)) hPage hByte
  | succ pages ih =>
    rw [sampleFrom, bind_ok (hReads a)]
    have hUser : a.isUser = true := VirtualAddress.isUser_of_toNat_lt (by omega)
    cases hByte : view a with
    | error e =>
      refine ⟨.error e, rfl, (fun hOk => by cases hOk), fun hAll => ?_⟩
      obtain ⟨b, hb⟩ := hAll a (Nat.le_refl _) hLe
      rw [hByte] at hb
      cases hb
    | ok b =>
      have hSize : pageSize.toNat = 4096 := rfl
      have hBase := a.toNat_base_page
      obtain ⟨next, hAdd, hNext⟩ :=
        @VirtualAddress.exists_add a.page.base pageSize.toNat (by omega)
      rw [VirtualAddress.add?_eq_some] at hNext
      obtain ⟨o, hRest, hIff⟩ := @ih next (by omega) (by omega)
      refine ⟨o, ?_, hIff.trans ⟨fun hAll c hc hc' => ?_, fun hAll c hc => hAll c (by omega)⟩⟩
      · show (liftM (a.page.base.add pageSize.toNat) >>= _ : Stateful σ _) m = _
        rw [bind_ok (lift_ok hAdd)]
        exact hRest
      · -- The addresses before the next page are in the page of the first one.
        by_cases hHere : c.val.toNat < next.val.toNat
        · have hPage : a.page = c.page := VirtualAddress.page_eq_iff.2 (by omega)
          exact hUniform a c b hUser (VirtualAddress.isUser_of_toNat_lt (by omega)) hPage hByte
        · exact hAll c (by omega) hc'

/-- Sampling a buffer changes nothing and succeeds just when the buffer is readable. -/
theorem samplePages_iff (hReads : u.Reads m view) (hUniform : view.Uniform) {buffer : VirtualAddress}
    {length : UInt64} (hLength : length ≠ 0) (hSpace : inUserSpace buffer length = true) :
    ∃ o, samplePages u buffer length m = .ok o m ∧
      (o = .ok () ↔ ∀ i < length.toNat, view.Readable buffer i) := by
  have hEnd := le_of_inUserSpace hSpace
  have hPos : length.toNat ≠ 0 := fun hZero => hLength (UInt64.toNat_inj.1 hZero)
  obtain ⟨last, hAdd, hLast⟩ :=
    @VirtualAddress.exists_add buffer (length.toNat - 1) (by omega)
  rw [VirtualAddress.add?_eq_some] at hLast
  have hUser : last.isUser = true := VirtualAddress.isUser_of_toNat_lt (by omega)
  have hPages := toNat_pagesBetween (a := buffer) (b := last) (by omega)
  obtain ⟨o, hSample, hIff⟩ := sampleFrom_iff hReads hUniform hUser
    ((last.page.base.val - buffer.page.base.val) / pageSize).toNat (a := buffer) (by omega) (by omega)
  refine ⟨o, ?_, hIff.trans ⟨fun hAll i hi => ?_, fun hAll c hc hc' => ?_⟩⟩
  · rw [samplePages]
    show (liftM (buffer.add (length.toNat - 1)) >>= _ : Stateful σ _) m = _
    rw [bind_ok (lift_ok hAdd)]
    exact hSample
  · obtain ⟨a, -, hA⟩ := @VirtualAddress.exists_add buffer i (by omega)
    have hNat := VirtualAddress.add?_eq_some.1 hA
    obtain ⟨b, hByte⟩ := hAll a (by omega) (by omega)
    exact ⟨a, b, hA, VirtualAddress.isUser_of_toNat_lt (by omega), hByte⟩
  · obtain ⟨a, b, hA, -, hByte⟩ := hAll (c.val.toNat - buffer.val.toNat) (by omega)
    have hSame : a = c := by
      rw [VirtualAddress.add?_eq_some] at hA
      exact VirtualAddress.ext (UInt64.toNat_inj.1 (by omega))
    exact ⟨b, hSame ▸ hByte⟩

end UserMemory

end PagedKernel
