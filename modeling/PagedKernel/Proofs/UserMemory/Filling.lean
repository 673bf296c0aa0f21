import PagedKernel.Proofs.Syscall.Confinement
import PagedKernel.Proofs.Syscall.Totality

/-!
# Filling a buffer of a process

The bytes of a buffer are stored one after another, up to the first address that the process may not
write. What has been stored so far is `Machine.Filled`: it is in place, and nothing else has changed.
Each byte that is stored takes that one byte further, because no page of the buffer is a table, so all
addresses lead where they led, and no two pages of it have a frame in common, so what is in place stays
there.

* `AddressSpace.Backs`: a buffer whose pages are fit to be filled. `AddressSpace.Sound.backs`: in a sound
  space it is enough that they have frames of their own.
* `Machine.Filled`: a buffer that is filled up to some byte.
* `Machine.Filled.push`, `Machine.Filled.blocked`: one byte is stored, or out of reach.
* `Machine.Settled`: how storing bytes ends.
* `UserMemory.settled_copyTo`: so ends a copy to a buffer.
* `Machine.Filled.spells`: the process reads what has been stored.
* `Plan.Tracks.backs`: after a run every buffer in user space is fit.
-/

namespace PagedKernel

open Stateful

namespace AddressSpace

variable {s : AddressSpace} {m : Memory} {buffer a b : VirtualAddress} {access : Access}
  {p q : PhysicalAddress} {length i j k : Nat}

/-- The byte `i` bytes after `buffer` may be written by the process, and memory has it at `k`. -/
def Stores (s : AddressSpace) (m : Memory) (buffer : VirtualAddress) (i k : Nat) : Prop :=
  ∃ a p, buffer.add? i = some a ∧ s.resolve m a .write = .ok (some p) ∧ p.val.toNat = k

def Fillable (s : AddressSpace) (m : Memory) (buffer : VirtualAddress) (i : Nat) : Prop :=
  ∃ k, s.Stores m buffer i k

/-- The buffer is fit to be filled: it is settled which bytes of it the process may write, these lie in
memory and in no table, and those of different pages lie in different frames. -/
structure Backs (s : AddressSpace) (m : Memory) (buffer : VirtualAddress) (length : Nat) : Prop where
  resolved {i : Nat} {a : VirtualAddress} : i < length → buffer.add? i = some a →
    ∃ o, s.resolve m a .write = .ok o
  apart {i : Nat} {a : VirtualAddress} {p : PhysicalAddress} : i < length → buffer.add? i = some a →
    s.resolve m a .write = .ok (some p) → m.holds p.frame = true ∧ ¬ s.UserTable m p.frame
  distinct {i j : Nat} {a b : VirtualAddress} {p q : PhysicalAddress} : i < length → j < length →
    buffer.add? i = some a → buffer.add? j = some b → s.resolve m a .write = .ok (some p) →
    s.resolve m b .write = .ok (some q) → p.frame = q.frame → a.page = b.page

/-- The pages that the process may write within `length` bytes from `buffer` on are mapped to different
frames. -/
def OwnFrames (s : AddressSpace) (m : Memory) (buffer : VirtualAddress) (length : Nat) : Prop :=
  ∀ ⦃i j : Nat⦄ ⦃a b : VirtualAddress⦄ ⦃p q : PhysicalAddress⦄, i < length → j < length →
    buffer.add? i = some a → buffer.add? j = some b → s.resolve m a .write = .ok (some p) →
    s.resolve m b .write = .ok (some q) → p.frame = q.frame → a.page = b.page

theorem Sound.backs (h : s.Sound m) (hOwn : s.OwnFrames m buffer length) : s.Backs m buffer length where
  resolved {_ a} _ _ := by
    obtain ⟨o, hResolve, -⟩ := h.exists_resolve a .write
    exact ⟨o, hResolve⟩
  apart _ _ hResolve := ⟨h.holds_of_resolve hResolve, h.apart hResolve⟩
  distinct hi hj hA hB hP hQ hFrame := hOwn hi hj hA hB hP hQ hFrame

theorem toNat_mod_of_resolve (h : s.resolve m a access = .ok (some p)) :
    p.val.toNat % 4096 = a.val.toNat % 4096 := by
  obtain ⟨-, -, -, -, hTranslate⟩ := resolve_eq_some.1 h
  obtain ⟨-, f, -, -, rfl⟩ := translate_eq_some.1 hTranslate
  have hOffset : a.offset.val.toNat = a.val.toNat % 4096 := UInt64.toNat_mod ..
  rw [Frame.toNat_join, ← Frame.toNat_number, hOffset]
  omega

/-- A byte has one place in memory. -/
theorem Stores.eq (h : s.Stores m buffer i j) (h' : s.Stores m buffer i k) : j = k := by
  obtain ⟨a, p, hAdd, hResolve, rfl⟩ := h
  obtain ⟨a', p', hAdd', hResolve', rfl⟩ := h'
  obtain rfl : a = a' := Option.some.inj (hAdd.symm.trans hAdd')
  obtain rfl : p = p' := Option.some.inj (Except.ok.inj (hResolve.symm.trans hResolve'))
  rfl

/-- Different bytes of a buffer are different bytes of memory. -/
theorem Backs.eq_of_stores (h : s.Backs m buffer length) (hi : i < length) (hj : j < length)
    (hStores : s.Stores m buffer i k) (hStores' : s.Stores m buffer j k) : i = j := by
  obtain ⟨a, p, hA, hP, hPlace⟩ := hStores
  obtain ⟨b, q, hB, hQ, hPlace'⟩ := hStores'
  have hFrame : p.frame = q.frame := by
    apply Frame.eq_of_toNat_number
    rw [PhysicalAddress.toNat_number_frame, PhysicalAddress.toNat_number_frame, hPlace, hPlace']
  have hPage := VirtualAddress.page_eq_iff.1 (h.distinct hi hj hA hB hP hQ hFrame)
  have hModA := toNat_mod_of_resolve hP
  have hModB := toNat_mod_of_resolve hQ
  rw [VirtualAddress.add?_eq_some] at hA hB
  omega

end AddressSpace

/-- The first bytes of the buffer are these, and nothing else has changed since `m`. -/
structure Machine.Filled (m : Machine) (s : AddressSpace) (buffer : VirtualAddress) (bytes : List UInt8)
    (m' : Machine) : Prop where
  same : m.SameBut (fun k => ∃ i < bytes.length, s.Stores m.memory buffer i k) m'
  stored : ∀ i b, bytes[i]? = some b → ∃ k, s.Stores m.memory buffer i k ∧ m'.memory.byte k = b

/-- More bytes were to be stored behind those that are in the buffer. Either all of them were, or those
before the first one that the process may not write. -/
inductive Machine.Settled (m : Machine) (s : AddressSpace) (buffer : VirtualAddress)
    (bytes more : List UInt8) : Except UserFault Unit → Machine → Prop
  | whole {m' : Machine} (hAll : ∀ i < more.length, s.Fillable m.memory buffer (bytes.length + i))
      (hFilled : m.Filled s buffer (bytes ++ more) m') : Settled m s buffer bytes more (.ok ()) m'
  | blocked {m' : Machine} {i : Nat} (e : UserFault) (hLt : i < more.length)
      (hBlocked : ¬ s.Fillable m.memory buffer (bytes.length + i))
      (hBefore : ∀ j < i, s.Fillable m.memory buffer (bytes.length + j))
      (hFilled : m.Filled s buffer (bytes ++ more.take i) m') :
      Settled m s buffer bytes more (.error e) m'

namespace Machine

variable {m m₁ m₂ : Machine} {s : AddressSpace} {buffer : VirtualAddress} {length : Nat}
  {bytes more rest : List UInt8} {b : UInt8} {o : Except UserFault Unit}

namespace Filled

theorem refl (m : Machine) (s : AddressSpace) (buffer : VirtualAddress) : m.Filled s buffer [] m :=
  ⟨.refl _ _, nofun⟩

variable (hBacks : s.Backs m.memory buffer length) (h : m.Filled s buffer bytes m₁)

include hBacks h

theorem agreeOn (hRoom : bytes.length ≤ length) :
    m.memory.AgreeOn (s.UserTable m.memory) m₁.memory := by
  refine ⟨h.same.size_eq, fun k hk => h.same.byte_eq k ?_⟩
  rintro ⟨i, hi, a, p, hAdd, hResolve, rfl⟩
  exact (hBacks.apart (by omega) hAdd hResolve).2 (hk p.frame p.toNat_number_frame)

theorem push (hRoom : bytes.length < length) {a : VirtualAddress} {p : PhysicalAddress}
    (hAdd : buffer.add? bytes.length = some a)
    (hResolve : s.resolve m.memory a .write = .ok (some p)) (b : UInt8) :
    ∃ m₂, s.userMemory.writeByte a b m₁ = .ok (.ok ()) m₂ ∧ m.Filled s buffer (bytes ++ [b]) m₂ := by
  have hTables := h.agreeOn hBacks (Nat.le_of_lt hRoom)
  have hHolds : m₁.memory.holds p.frame = true :=
    (hTables.holds p.frame).trans (hBacks.apart hRoom hAdd hResolve).1
  have hByte : ∀ k, (m₁.memory.setByte p.val.toNat b).byte k =
      if k = p.val.toNat then b else m₁.memory.byte k :=
    fun k => Memory.byte_setByte _ (Memory.lt_of_holds hHolds) b k
  have hHere : s.Stores m.memory buffer bytes.length p.val.toNat := ⟨a, p, hAdd, hResolve, rfl⟩
  have hLength : (bytes ++ [b]).length = bytes.length + 1 := List.length_append
  refine ⟨{ m₁ with memory := m₁.memory.setByte p.val.toNat b }, ?_,
    (h.same.mono ?_).setByte hHolds ⟨_, by omega, hHere⟩ b, fun i c hc => ?_⟩
  · rw [AddressSpace.writeByte_apply, AddressSpace.resolve_of_tables hTables, hResolve]
    simp only [hHolds, ↓reduceIte]
  · rintro k ⟨i, hi, hStores⟩
    exact ⟨i, by omega, hStores⟩
  · rcases getElem?_snoc hc with ⟨hLt, hOld⟩ | ⟨rfl, rfl⟩
    · -- A byte that is in place is another one than that which is stored.
      obtain ⟨k, hStores, hAt⟩ := h.stored i c hOld
      have hNe : k ≠ p.val.toNat := by
        rintro rfl
        exact Nat.ne_of_lt hLt (hBacks.eq_of_stores (by omega) hRoom hStores hHere)
      exact ⟨k, hStores, by rw [hByte, if_neg hNe, hAt]⟩
    · exact ⟨_, hHere, by rw [hByte, if_pos rfl]⟩

theorem blocked (hRoom : bytes.length < length)
    (hBlocked : ¬ s.Fillable m.memory buffer bytes.length) {a : VirtualAddress}
    (hAdd : buffer.add? bytes.length = some a) (b : UInt8) :
    s.userMemory.writeByte a b m₁ = .ok (.error ⟨a⟩) m₁ := by
  have hTables := h.agreeOn hBacks (Nat.le_of_lt hRoom)
  obtain ⟨o, hResolve⟩ := hBacks.resolved hRoom hAdd
  rw [AddressSpace.writeByte_apply, AddressSpace.resolve_of_tables hTables, hResolve]
  cases o with
  | none => rfl
  | some p => exact absurd ⟨_, a, p, hAdd, hResolve, rfl⟩ hBlocked

/-- The process reads what has been stored. -/
theorem spells (hRoom : bytes.length ≤ length) : (s.view m₁.memory).Spells buffer bytes := by
  intro i b hb
  obtain ⟨k, ⟨a, p, hAdd, hResolve, rfl⟩, hByte⟩ := h.stored i b hb
  obtain ⟨hUser, e, hLeaf, hAllows, hTranslate⟩ := AddressSpace.resolve_eq_some.1 hResolve
  have hRead : AddressSpace.allows e .read = true := by
    rw [AddressSpace.allows, Bool.and_eq_true] at hAllows
    exact hAllows.1
  refine ⟨a, hAdd, hUser, AddressSpace.view_eq_ok.2 ⟨p, ?_, hByte⟩⟩
  rw [AddressSpace.resolve_of_tables (h.agreeOn hBacks hRoom)]
  exact AddressSpace.resolve_eq_some.2 ⟨hUser, e, hLeaf, hRead, hTranslate⟩

end Filled

theorem Settled.of_ok (h : m.Settled s buffer bytes more (.ok ()) m₁) :
    (∀ i < more.length, s.Fillable m.memory buffer (bytes.length + i)) ∧
      m.Filled s buffer (bytes ++ more) m₁ := by
  cases h with
  | whole hAll hFilled => exact ⟨hAll, hFilled⟩

theorem Settled.of_error {e : UserFault} (h : m.Settled s buffer bytes more (.error e) m₁) :
    ∃ i < more.length, ¬ s.Fillable m.memory buffer (bytes.length + i) ∧
      (∀ j < i, s.Fillable m.memory buffer (bytes.length + j)) ∧
      m.Filled s buffer (bytes ++ more.take i) m₁ := by
  cases h with
  | @blocked _ i _ hLt hBlocked hBefore hFilled => exact ⟨i, hLt, hBlocked, hBefore, hFilled⟩

theorem Settled.append (h : m.Settled s buffer bytes more (.ok ()) m₁)
    (h' : m.Settled s buffer (bytes ++ more) rest o m₂) :
    m.Settled s buffer bytes (more ++ rest) o m₂ := by
  cases h with
  | whole hAll _ =>
    -- Behind `more` come the bytes of `rest`.
    have hSplit : ∀ i, bytes.length + (more.length + i) = (bytes ++ more).length + i := by
      intro i
      rw [List.length_append, Nat.add_assoc]
    have hUpTo : ∀ n, (∀ i < n, s.Fillable m.memory buffer ((bytes ++ more).length + i)) →
        ∀ i < more.length + n, s.Fillable m.memory buffer (bytes.length + i) := by
      intro n hRest i hi
      by_cases hLt : i < more.length
      · exact hAll i hLt
      · have hFill := hRest (i - more.length) (by omega)
        rwa [← hSplit, show more.length + (i - more.length) = i by omega] at hFill
    cases h' with
    | whole hRest hFilled =>
      rw [List.append_assoc] at hFilled
      refine .whole (fun i hi => hUpTo rest.length hRest i ?_) hFilled
      rwa [List.length_append] at hi
    | @blocked _ i e hLt hBlocked hBefore hFilled =>
      rw [← hSplit] at hBlocked
      rw [List.append_assoc, ← List.take_length_add_append] at hFilled
      exact .blocked e (by rw [List.length_append]; omega) hBlocked (hUpTo i hBefore) hFilled

end Machine

namespace UserMemory

variable {m m₁ : Machine} {s : AddressSpace} {buffer dst : VirtualAddress} {length done : Nat}
  {bytes : List UInt8}

theorem settled_writeAt (hBacks : s.Backs m.memory buffer length)
    (hFilled : m.Filled s buffer bytes m₁) (hBound : buffer.val.toNat + length ≤ 2 ^ 47)
    (hRoom : bytes.length < length) (hDst : buffer.add? done = some dst) {i : Nat}
    (hHere : done + i = bytes.length) (b : UInt8) :
    ∃ o m₂, s.userMemory.writeAt dst i b m₁ = .ok o m₂ ∧ m.Settled s buffer bytes [b] o m₂ := by
  obtain ⟨a, -, hAdd⟩ := @VirtualAddress.exists_add buffer bytes.length (by omega)
  have hUser : a.isUser = true := by
    rw [VirtualAddress.add?_eq_some] at hAdd
    exact VirtualAddress.isUser_of_toNat_lt (by omega)
  have hStep : userAddress dst i = .ok a := by
    rw [userAddress_eq_ok, VirtualAddress.add?_eq_some]
    rw [VirtualAddress.add?_eq_some] at hAdd hDst
    exact ⟨by omega, hUser⟩
  rw [writeAt, hStep]
  by_cases hFill : s.Fillable m.memory buffer bytes.length
  · obtain ⟨k, a', p, hAdd', hResolve, -⟩ := hFill
    obtain rfl : a' = a := Option.some.inj (hAdd'.symm.trans hAdd)
    obtain ⟨m₂, hWrite, hNext⟩ := hFilled.push hBacks hRoom hAdd hResolve b
    refine ⟨_, m₂, hWrite, .whole (fun i hi => ?_) hNext⟩
    obtain rfl : i = 0 := by
      rw [List.length_singleton] at hi
      omega
    exact ⟨_, a', p, hAdd, hResolve, rfl⟩
  · have hNone : ∀ j < 0, s.Fillable m.memory buffer (bytes.length + j) :=
      fun j hj => absurd hj (Nat.not_lt_zero j)
    refine ⟨_, m₁, hFilled.blocked hBacks hRoom hFill hAdd b,
      .blocked _ (i := 0) Nat.one_pos hFill hNone ?_⟩
    rwa [List.take_zero, List.append_nil]

theorem settled_copyToAt (hBacks : s.Backs m.memory buffer length)
    (hFilled : m.Filled s buffer bytes m₁) (hBound : buffer.val.toNat + length ≤ 2 ^ 47)
    (more : List UInt8) (hRoom : bytes.length + more.length ≤ length)
    (hDst : buffer.add? done = some dst) {i : Nat} (hHere : done + i = bytes.length) :
    ∃ o m₂, s.userMemory.copyToAt dst i more m₁ = .ok o m₂ ∧ m.Settled s buffer bytes more o m₂ := by
  induction more generalizing bytes i m₁ with
  | nil =>
    refine ⟨_, m₁, rfl, .whole nofun ?_⟩
    rwa [List.append_nil]
  | cons b more ih =>
    rw [List.length_cons] at hRoom
    obtain ⟨o, m₂, hWrite, hSettled⟩ := settled_writeAt hBacks hFilled hBound (by omega) hDst hHere b
    rw [copyToAt, bind_ok hWrite]
    cases o with
    | error e =>
      -- The first of the bytes could not be stored.
      obtain ⟨i, hLt, hBlocked, hBefore, hFilled'⟩ := hSettled.of_error
      obtain rfl : i = 0 := by
        rw [List.length_singleton] at hLt
        omega
      exact ⟨_, m₂, rfl, .blocked e (Nat.succ_pos _) hBlocked hBefore hFilled'⟩
    | ok _ =>
      obtain ⟨o, m₃, hRest, hSettled'⟩ := ih hSettled.of_ok.2 (i := i + 1)
        (by rw [List.length_append, List.length_singleton]; omega)
        (by rw [List.length_append, List.length_singleton]; omega)
      exact ⟨o, m₃, hRest, hSettled.append hSettled'⟩

/-- A copy to the next bytes of a buffer ends with all of them stored, or before the first one that the
process may not write. -/
theorem settled_copyTo (hBacks : s.Backs m.memory buffer length)
    (hFilled : m.Filled s buffer bytes m₁) (hBound : buffer.val.toNat + length ≤ 2 ^ 47)
    (more : List UInt8) (hRoom : bytes.length + more.length ≤ length)
    (hDst : buffer.add? bytes.length = some dst) :
    ∃ o m₂, s.userMemory.copyTo dst more m₁ = .ok o m₂ ∧ m.Settled s buffer bytes more o m₂ :=
  settled_copyToAt hBacks hFilled hBound more hRoom hDst (Nat.add_zero _)

end UserMemory

namespace Plan.Tracks

variable {plan : Plan} {σ : System} {s : AddressSpace}

/-- After a run the pages of a space have frames of their own. -/
theorem ownFrames (h : plan.Tracks σ) (hs : σ.Knows s) (buffer : VirtualAddress) (length : Nat) :
    s.OwnFrames σ.machine.memory buffer length := by
  intro i j a b p q _ _ _ _ hP hQ hFrame
  obtain ⟨-, hPlace⟩ := h.place_of_resolve hs hP
  obtain ⟨-, hPlace'⟩ := h.place_of_resolve hs hQ
  rw [hFrame, hPlace'] at hPlace
  obtain ⟨-, hPath⟩ := Place.mk.inj (Option.some.inj hPlace)
  exact (VirtualAddress.path_eq_iff (AddressSpace.resolve_eq_some.1 hP).1
    (AddressSpace.resolve_eq_some.1 hQ).1).1 hPath.symm

/-- After a run every buffer is fit to be filled, in every space. -/
theorem backs (h : plan.Tracks σ) (hs : σ.Knows s) (buffer : VirtualAddress) (length : Nat) :
    s.Backs σ.machine.memory buffer length :=
  (h.sound hs).backs (h.ownFrames hs buffer length)

end Plan.Tracks

end PagedKernel
