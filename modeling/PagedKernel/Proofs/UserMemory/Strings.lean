import PagedKernel.Proofs.UserMemory.Recorded
import PagedKernel.Proofs.UserMemory.Views

/-!
# Reading strings

A string is read byte by byte, up to the first one that is out of reach or zero. What comes first decides
how reading it ends: a byte out of reach is a fault, a zero byte is the end of the string, and with neither
of them in sight the buffer is full before the string has ended. In each case the bytes before are in the
buffer, and what is behind them there is as it was.

User memory may answer differently each time it is asked. So the bytes of a string are told by the answers
that come back as they are read in turn. As long as reading a byte changes nothing, they are what the
addresses show.

* `UserMemory.Letters`: the bytes of a string that are read before it ends.
* `UserMemory.StringEnds`: how reading a string ends. `UserMemory.StringEnds.readsFirst`,
  `UserMemory.stringEnds_of_readString`: it does end so.
* `UserView.Stops`: a string that begins at an address goes no further. `UserMemory.exists_letters`: up to
  there its bytes are read.
* `UserMemory.readString_tooLong`, `UserMemory.readString_fault`, `UserMemory.readString_string`: the three
  ways.
* `UserMemory.readString_exact`: what reading a string comes to, and which addresses are read for it.
-/

namespace PagedKernel

open Stateful

/-! ## What the addresses show -/

namespace UserView

variable {view : UserView} {base : VirtualAddress} {i : Nat} {b : UInt8}

def Shows (view : UserView) (base : VirtualAddress) (i : Nat) (b : UInt8) : Prop :=
  ∃ a, base.add? i = some a ∧ a.isUser = true ∧ view a = .ok b

/-- A string at `base` comes to a stop `i` bytes further on, which is out of reach or a zero byte. -/
def Stops (view : UserView) (base : VirtualAddress) (i : Nat) : Prop :=
  ¬ view.Readable base i ∨ view.Shows base i 0

/-- A string at `src` goes on for `k` bytes at least, and they are these. -/
structure GoesOn (view : UserView) (src : VirtualAddress) (k : Nat) (name : List UInt8) : Prop where
  length_eq : name.length = k
  ne_zero : 0 ∉ name
  spells : view.Spells src name

def byteAt (view : UserView) (base : VirtualAddress) (i : Nat) : Except UserFault UInt8 :=
  (UserMemory.userAddress base i).bind view

theorem Shows.readable (h : view.Shows base i b) : view.Readable base i := by
  obtain ⟨a, hAdd, hUser, hByte⟩ := h
  exact ⟨a, b, hAdd, hUser, hByte⟩

theorem Readable.exists_shows (h : view.Readable base i) : ∃ b, view.Shows base i b := by
  obtain ⟨a, b, hAdd, hUser, hByte⟩ := h
  exact ⟨b, a, hAdd, hUser, hByte⟩

theorem byteAt_eq_ok : view.byteAt base i = .ok b ↔ view.Shows base i b := by
  rw [byteAt]
  constructor
  · intro h
    cases hAddress : UserMemory.userAddress base i with
    | error e =>
      rw [hAddress] at h
      cases h
    | ok a =>
      rw [hAddress] at h
      obtain ⟨hAdd, hUser⟩ := UserMemory.userAddress_eq_ok.1 hAddress
      exact ⟨a, hAdd, hUser, h⟩
  · rintro ⟨a, hAdd, hUser, hByte⟩
    rw [UserMemory.userAddress_eq_ok.2 ⟨hAdd, hUser⟩]
    exact hByte

theorem exists_byteAt_of_not_readable (h : ¬ view.Readable base i) : ∃ e, view.byteAt base i = .error e := by
  cases hByte : view.byteAt base i with
  | error e => exact ⟨e, rfl⟩
  | ok b => exact absurd (byteAt_eq_ok.1 hByte).readable h

theorem Shows.eq {b' : UInt8} (h : view.Shows base i b) (h' : view.Shows base i b') : b = b' :=
  Except.ok.inj ((byteAt_eq_ok.2 h).symm.trans (byteAt_eq_ok.2 h'))

theorem Shows.not_stops (h : view.Shows base i b) (hb : b ≠ 0) : ¬ view.Stops base i := by
  rintro (hOut | hZero)
  · exact hOut h.readable
  · exact hb (h.eq hZero)

theorem exists_shows_of_not_stops (h : ¬ view.Stops base i) : ∃ b, view.Shows base i b ∧ b ≠ 0 := by
  obtain ⟨hReadable, hZero⟩ := not_or.1 h
  obtain ⟨b, hShows⟩ := (not_not.1 hReadable).exists_shows
  refine ⟨b, hShows, ?_⟩
  rintro rfl
  exact hZero hShows

theorem GoesOn.not_stops {k : Nat} {name : List UInt8} (h : view.GoesOn base k name) (hi : i < k) :
    ¬ view.Stops base i := by
  have hLt : i < name.length := by rwa [h.length_eq]
  have hShows : view.Shows base i name[i] := h.spells i _ (List.getElem?_eq_getElem hLt)
  refine hShows.not_stops fun hZero => h.ne_zero ?_
  rw [← hZero]
  exact List.getElem_mem hLt

end UserView

namespace UserMemory

variable {σ : Type}

/-! ## Bytes that are read in turn -/

/-- From the state `m` on, the first bytes after `src` are read one after another and are these, none of them
zero. -/
inductive Letters (u : UserMemory σ) (src : VirtualAddress) (m : σ) : List UInt8 → σ → Prop
  | nil : Letters u src m [] m
  | snoc {name : List UInt8} {m₁ m₂ : σ} {b : UInt8} (hName : Letters u src m name m₁)
      (hByte : u.readAt src name.length m₁ = .ok (.ok b) m₂) (hb : b ≠ 0) :
      Letters u src m (name ++ [b]) m₂

/-- Reading a string at `src` into a buffer of `limit` bytes has read `n` bytes, of which those before the
last one that was asked for are in the buffer. -/
inductive StringEnds (u : UserMemory σ) (src : VirtualAddress) (m : σ) (limit : Nat) :
    (n : Nat) → List UInt8 → Except StringError (List UInt8) → σ → Prop
  | string {name : List UInt8} {m₁ m₂ : σ} (hName : u.Letters src m name m₁) (hRoom : name.length < limit)
      (hZero : u.readAt src name.length m₁ = .ok (.ok 0) m₂) :
      StringEnds u src m limit (name.length + 1) name (.ok name) m₂
  | fault {name : List UInt8} {m₁ m₂ : σ} {e : UserFault} (hName : u.Letters src m name m₁)
      (hRoom : name.length < limit) (hOut : u.readAt src name.length m₁ = .ok (.error e) m₂) :
      StringEnds u src m limit (name.length + 1) name (.error (.fault e)) m₂
  | tooLong {name : List UInt8} {m₁ : σ} (hName : u.Letters src m name m₁) (hFull : name.length = limit) :
      StringEnds u src m limit limit name (.error (.tooLong limit)) m₁

/-- Reading a string comes to an answer and to a state of the memory, and the first `n` bytes after `src` were
read for it, each once and in order. -/
def ReadsFirst (u : UserMemory σ) (src : VirtualAddress) (buffer : List UInt8) (m : σ) (n : Nat)
    (answer : List UInt8 × Except StringError (List UInt8)) (m' : σ) : Prop :=
  u.readString src buffer m = .ok answer m' ∧
    u.recorded.readString src buffer (m, []) = .ok answer (m', (addresses src n).reverse)

variable {u : UserMemory σ} {src : VirtualAddress} {m m₁ m' : σ} {limit n : Nat} {name buffer : List UInt8}
  {o : Except StringError (List UInt8)}

theorem Letters.ne_zero (h : u.Letters src m name m₁) : 0 ∉ name := by
  induction h with
  | nil => exact List.not_mem_nil
  | snoc _ _ hb ih =>
    rw [List.mem_append, List.mem_singleton, not_or]
    exact ⟨ih, hb.symm⟩

theorem Letters.recorded (h : u.Letters src m name m₁) :
    u.recorded.Letters src (m, []) name (m₁, (addresses src name.length).reverse ++ []) := by
  induction h with
  | nil => exact .nil
  | snoc _ hByte hb ih =>
    rw [List.length_append, List.length_singleton]
    exact ih.snoc (readAt_recorded hByte []) hb

theorem StringEnds.recorded (h : u.StringEnds src m limit n name o m') :
    u.recorded.StringEnds src (m, []) limit n name o (m', (addresses src n).reverse) := by
  rw [← List.append_nil (addresses src n).reverse]
  cases h with
  | string hName hRoom hZero => exact .string hName.recorded hRoom (readAt_recorded hZero [])
  | fault hName hRoom hOut => exact .fault hName.recorded hRoom (readAt_recorded hOut [])
  | tooLong hName hFull =>
    subst hFull
    exact .tooLong hName.recorded rfl

/-! ## Reading ends so -/

/-- Once the first bytes have been read, it is left to read the rest. -/
theorem Letters.readStringAt (h : u.Letters src m name m₁) (hRoom : name.length ≤ buffer.length)
    {rest : List UInt8}
    (hRest : u.readStringAt src limit name.length (buffer.drop name.length) m₁ = .ok (rest, o) m') :
    u.readStringAt src limit 0 buffer m = .ok (name ++ rest, o.map (name ++ ·)) m' := by
  induction h generalizing rest o with
  | nil =>
    rw [List.length_nil, List.drop_zero] at hRest
    rw [hRest]
    cases o <;> rfl
  | @snoc name m₁ m₂ b hName hByte hb ih =>
    rw [List.length_append, List.length_singleton] at hRoom hRest
    have hStep : u.readStringAt src limit name.length (buffer.drop name.length) m₁ =
        .ok (b :: rest, o.map (b :: ·)) m' := by
      rw [List.drop_eq_getElem_cons hRoom, UserMemory.readStringAt, bind_ok hByte]
      simp only [if_neg hb]
      show (UserMemory.readStringAt _ _ _ _ _ >>= _ : Stateful σ _) m₂ = _
      rw [bind_ok hRest]
      rfl
    rw [ih (Nat.le_of_lt hRoom) hStep]
    cases o <;> simp only [Except.map, List.append_assoc, List.singleton_append]

theorem StringEnds.readString (h : u.StringEnds src m buffer.length n name o m') :
    u.readString src buffer m = .ok (name ++ buffer.drop name.length, o) m' := by
  rw [UserMemory.readString]
  cases h with
  | @string name m₁ _ hName hRoom hZero =>
    have hStop : u.readStringAt src buffer.length name.length (buffer.drop name.length) m₁ =
        .ok (buffer.drop name.length, .ok []) m' := by
      rw [List.drop_eq_getElem_cons hRoom, readStringAt]
      exact bind_ok hZero
    rw [hName.readStringAt (Nat.le_of_lt hRoom) hStop, Except.map, List.append_nil]
  | fault hName hRoom hOut =>
    refine hName.readStringAt (o := .error _) (Nat.le_of_lt hRoom) ?_
    rw [List.drop_eq_getElem_cons hRoom, readStringAt, bind_ok hOut]
    rfl
  | tooLong hName hFull =>
    refine hName.readStringAt (o := .error _) (Nat.le_of_eq hFull) ?_
    rw [hFull, List.drop_length]
    rfl

theorem StringEnds.readsFirst (h : u.StringEnds src m buffer.length n name o m') :
    u.ReadsFirst src buffer m n (name ++ buffer.drop name.length, o) m' :=
  ⟨h.readString, h.recorded.readString⟩

/-- The first bytes have been read. If reading goes on to an end, the string ends in one of the three ways. -/
theorem Letters.exists_stringEnds (hName : u.Letters src m name m₁) {rest rest' : List UInt8}
    (hLimit : name.length + rest.length = limit)
    (hRest : u.readStringAt src limit name.length rest m₁ = .ok (rest', o) m') :
    ∃ n name' o', u.StringEnds src m limit n name' o' m' := by
  induction rest generalizing name m₁ rest' o with
  | nil =>
    rw [UserMemory.readStringAt] at hRest
    cases hRest
    exact ⟨_, _, _, .tooLong hName hLimit⟩
  | cons old rest ih =>
    rw [List.length_cons] at hLimit
    have hRoom : name.length < limit := by omega
    rw [UserMemory.readStringAt] at hRest
    obtain ⟨got, m₂, hByte, hRest⟩ := ok_of_bind hRest
    cases got with
    | error e =>
      cases hRest
      exact ⟨_, _, _, .fault hName hRoom hByte⟩
    | ok b =>
      by_cases hb : b = 0
      · subst hb
        cases hRest
        exact ⟨_, _, _, .string hName hRoom hByte⟩
      · simp only [if_neg hb] at hRest
        obtain ⟨⟨rest', o⟩, m₃, hMore, hEnd⟩ := ok_of_bind hRest
        cases hEnd
        have hLength : (name ++ [b]).length = name.length + 1 := List.length_append
        rw [← hLength] at hMore
        exact ih (hName.snoc hByte hb) (by omega) hMore

/-- A string that is read ends in one of the three ways. -/
theorem stringEnds_of_readString {buffer' : List UInt8}
    (h : u.readString src buffer m = .ok (buffer', o) m') :
    ∃ n name, u.StringEnds src m buffer.length n name o m' ∧ buffer' = name ++ buffer.drop name.length := by
  obtain ⟨n, name, o', hEnds⟩ := Letters.nil.exists_stringEnds (Nat.zero_add _) h
  have hSame := hEnds.readString.symm.trans h
  cases hSame
  exact ⟨n, name, hEnds, rfl⟩

/-! ## Memory that shows what a view says -/

section Reads

variable {view : UserView} {k : Nat} (hReads : u.Reads m view)

include hReads

theorem readAt_eq (i : Nat) : u.readAt src i m = .ok (view.byteAt src i) m := by
  rw [readAt, UserView.byteAt]
  cases userAddress src i with
  | error e => rfl
  | ok a => exact hReads a

theorem readAt_of_shows {i : Nat} {b : UInt8} (h : view.Shows src i b) : u.readAt src i m = .ok (.ok b) m := by
  rw [readAt_eq hReads, UserView.byteAt_eq_ok.2 h]

/-- The bytes that are read are what the addresses show. -/
theorem Letters.goesOn (h : u.Letters src m name m₁) : m₁ = m ∧ view.GoesOn src name.length name := by
  suffices hSpells : m₁ = m ∧ view.Spells src name from ⟨hSpells.1, rfl, h.ne_zero, hSpells.2⟩
  induction h with
  | nil => exact ⟨rfl, nofun⟩
  | snoc _ hByte _ ih =>
    obtain ⟨rfl, hSpells⟩ := ih
    rw [readAt_eq hReads] at hByte
    obtain ⟨hShows, rfl⟩ := (EStateM.Result.ok.injEq ..).mp hByte
    refine ⟨rfl, fun j c hc => ?_⟩
    rcases getElem?_snoc hc with ⟨-, hOld⟩ | ⟨rfl, rfl⟩
    · exact hSpells j c hOld
    · exact UserView.byteAt_eq_ok.1 hShows

/-- Up to the first stop the bytes are read. -/
theorem exists_letters (hOn : ∀ j < k, ¬ view.Stops src j) :
    ∃ name, view.GoesOn src k name ∧ u.Letters src m name m := by
  suffices hLetters : ∃ name, name.length = k ∧ u.Letters src m name m by
    obtain ⟨name, rfl, hName⟩ := hLetters
    exact ⟨name, (hName.goesOn hReads).2, hName⟩
  induction k with
  | zero => exact ⟨[], rfl, .nil⟩
  | succ k ih =>
    obtain ⟨name, rfl, hName⟩ := ih fun j hj => hOn j (Nat.lt_succ_of_lt hj)
    obtain ⟨b, hShows, hb⟩ := UserView.exists_shows_of_not_stops (hOn name.length (Nat.lt_succ_self _))
    exact ⟨name ++ [b], List.length_append, hName.snoc (readAt_of_shows hReads hShows) hb⟩

theorem stringEnds_tooLong (hOn : ∀ j < limit, ¬ view.Stops src j) : ∃ name, view.GoesOn src limit name ∧
    u.StringEnds src m limit limit name (.error (.tooLong limit)) m := by
  obtain ⟨name, hGoesOn, hName⟩ := exists_letters hReads hOn
  exact ⟨name, hGoesOn, .tooLong hName hGoesOn.length_eq⟩

variable (hRoom : k < limit) (hOn : ∀ j < k, ¬ view.Stops src j)

include hRoom hOn

theorem stringEnds_fault {e : UserFault} (hOut : view.byteAt src k = .error e) :
    ∃ name, view.GoesOn src k name ∧ u.StringEnds src m limit (k + 1) name (.error (.fault e)) m := by
  obtain ⟨name, hGoesOn, hName⟩ := exists_letters hReads hOn
  obtain rfl := hGoesOn.length_eq
  exact ⟨name, hGoesOn, .fault hName hRoom (by rw [readAt_eq hReads, hOut])⟩

theorem stringEnds_string (hZero : view.Shows src k 0) :
    ∃ name, view.GoesOn src k name ∧ u.StringEnds src m limit (k + 1) name (.ok name) m := by
  obtain ⟨name, hGoesOn, hName⟩ := exists_letters hReads hOn
  obtain rfl := hGoesOn.length_eq
  exact ⟨name, hGoesOn, .string hName hRoom (readAt_of_shows hReads hZero)⟩

end Reads

section First

variable {view : UserView} {k : Nat} (hReads : u.Reads m view)

include hReads

variable (hRoom : k < buffer.length) (hOn : ∀ j < k, ¬ view.Stops src j)

include hRoom hOn

end First

/-! ## What reading a string comes to -/

/-- Whatever user memory answers, a string is read up to the first byte that is out of reach or zero: the bytes
before it are in the buffer, what is behind them there is as it was, no byte after it is read, and which of the
two it is decides how reading ends. Without such a byte within the buffer the string is too long. Reading
comes to an end when the memory always answers, and the buffer is asked for its length only. While reading a
byte changes nothing, the first stop is that of what the addresses show, and a string is too long only when
all the bytes of a buffer are shown before a stop. -/
theorem readString_exact (u : UserMemory σ) (src : VirtualAddress) (buffer : List UInt8) (m : σ) :
    (∀ n name o m', u.StringEnds src m buffer.length n name o m' →
      u.ReadsFirst src buffer m n (name ++ buffer.drop name.length, o) m') ∧
    (∀ buffer' o m', u.readString src buffer m = .ok (buffer', o) m' →
      (∃ n name, u.StringEnds src m buffer.length n name o m' ∧
        buffer' = name ++ buffer.drop name.length) ∧
      ∀ other : List UInt8, other.length = buffer.length →
        ∃ other', u.readString src other m = .ok (other', o) m') ∧
    ((∀ a m, ∃ o m', u.readByte a m = .ok o m') →
      ∃ buffer' o m', u.readString src buffer m = .ok (buffer', o) m') ∧
    ∀ view, u.Reads m view →
      (∀ k < buffer.length, (∀ j < k, ¬ view.Stops src j) → view.Shows src k 0 →
        ∃ name, view.GoesOn src k name ∧
          u.ReadsFirst src buffer m (k + 1) (name ++ buffer.drop k, .ok name) m) ∧
      (∀ k < buffer.length, (∀ j < k, ¬ view.Stops src j) → ¬ view.Readable src k →
        ∃ name e, view.GoesOn src k name ∧ view.byteAt src k = .error e ∧
          u.ReadsFirst src buffer m (k + 1) (name ++ buffer.drop k, .error (.fault e)) m) ∧
      ((∀ j < buffer.length, ¬ view.Stops src j) →
        ∃ name, view.GoesOn src buffer.length name ∧
          u.ReadsFirst src buffer m buffer.length (name, .error (.tooLong buffer.length)) m) ∧
      ∀ buffer' limit m', u.readString src buffer m = .ok (buffer', .error (.tooLong limit)) m' →
        limit = buffer.length ∧ ∀ j < buffer.length, ¬ view.Stops src j := by
  refine ⟨fun _ _ _ _ hEnds => hEnds.readsFirst, fun buffer' o m' hRead => ?_, fun hAnswers => ?_,
    fun view hReads => ⟨fun k hRoom hOn hZero => ?_, fun k hRoom hOn hOut => ?_, fun hOn => ?_,
      fun buffer' limit m' hRead => ?_⟩⟩
  · obtain ⟨n, name, hEnds, hBuffer⟩ := stringEnds_of_readString hRead
    refine ⟨⟨n, name, hEnds, hBuffer⟩, fun other hLength => ?_⟩
    rw [← hLength] at hEnds
    exact ⟨_, hEnds.readString⟩
  · have hSame := readString_simulates (V := fun _ => False) (fun a => .of_answers (hAnswers a)) src buffer
    obtain ⟨⟨buffer', o⟩, m', _, hRead, -⟩ := hSame.exists_ok (rfl : m = m)
    exact ⟨buffer', o, m', hRead⟩
  · obtain ⟨name, hGoesOn, hEnds⟩ := stringEnds_string hReads hRoom hOn hZero
    have hFirst := hEnds.readsFirst
    rw [hGoesOn.length_eq] at hFirst
    exact ⟨name, hGoesOn, hFirst⟩
  · obtain ⟨e, hByte⟩ := UserView.exists_byteAt_of_not_readable hOut
    obtain ⟨name, hGoesOn, hEnds⟩ := stringEnds_fault hReads hRoom hOn hByte
    have hFirst := hEnds.readsFirst
    rw [hGoesOn.length_eq] at hFirst
    exact ⟨name, e, hGoesOn, hByte, hFirst⟩
  · obtain ⟨name, hGoesOn, hEnds⟩ := stringEnds_tooLong hReads hOn
    have hFirst := hEnds.readsFirst
    rw [hGoesOn.length_eq, List.drop_length, List.append_nil] at hFirst
    exact ⟨name, hGoesOn, hFirst⟩
  · obtain ⟨n, name, hEnds, -⟩ := stringEnds_of_readString hRead
    cases hEnds with
    | tooLong hName hFull =>
      obtain ⟨-, hGoesOn⟩ := hName.goesOn hReads
      rw [hFull] at hGoesOn
      exact ⟨rfl, fun j hj => hGoesOn.not_stops hj⟩

/-- The letter `a` stands in front of a zero byte, and once more at the last user address. Read into a buffer
with room for it, the string is the letter; a buffer of one byte is full before the string ends; and after the
last user address there is nothing to read. -/
theorem readString_exact_letter : ∃ (u : UserMemory Unit) (view : UserView), u.Reads () view ∧
    view.Shows ⟨0x400000⟩ 1 0 ∧ ¬ view.Readable ⟨0x7fffffffffff⟩ 1 ∧
    u.ReadsFirst ⟨0x400000⟩ [1, 2, 3] () 2 ([97, 2, 3], .ok [97]) () ∧
    u.ReadsFirst ⟨0x400000⟩ [1] () 1 ([97], .error (.tooLong 1)) () ∧
    u.ReadsFirst ⟨0x7fffffffffff⟩ [1, 2] () 2 ([97, 2], .error (.fault ⟨⟨0x7fffffffffff⟩⟩)) () ∧
    ∃ buffer' o m', u.readString ⟨0⟩ [] () = .ok (buffer', o) m' ∧
      ∃ n name, u.StringEnds ⟨0⟩ () 0 n name o m' ∧ u.ReadsFirst ⟨0⟩ [] () n (name, o) m' := by
  obtain ⟨view, hView⟩ : ∃ view : UserView,
    view = fun a => .ok (if a.val = 0x400000 ∨ a.val = 0x7fffffffffff then 97 else 0) := ⟨_, rfl⟩
  obtain ⟨u, hU⟩ : ∃ u : UserMemory Unit,
    u = ⟨fun a => return view a, fun a _ => return .error ⟨a⟩⟩ := ⟨_, rfl⟩
  have hReads : u.Reads () view := by
    rw [hU]
    exact fun _ => rfl
  have hShows : ∀ {src i a b}, src.add? i = some a → a.isUser = true → view a = .ok b →
      view.Shows src i b := fun hAdd hUser hByte => ⟨_, hAdd, hUser, hByte⟩
  have hLetter : view.Shows ⟨0x400000⟩ 0 97 :=
    hShows (a := ⟨0x400000⟩) (by decide) (by decide) (by rw [hView]; rfl)
  have hZero : view.Shows ⟨0x400000⟩ 1 0 :=
    hShows (a := ⟨0x400001⟩) (by decide) (by decide) (by rw [hView]; rfl)
  have hLast : view.Shows ⟨0x7fffffffffff⟩ 0 97 :=
    hShows (a := ⟨0x7fffffffffff⟩) (by decide) (by decide) (by rw [hView]; rfl)
  have hEnd : view.byteAt ⟨0x7fffffffffff⟩ 1 = .error ⟨⟨0x7fffffffffff⟩⟩ := rfl
  have hOut : ¬ view.Readable ⟨0x7fffffffffff⟩ 1 := by
    intro hReadable
    obtain ⟨b, hByte⟩ := hReadable.exists_shows
    rw [UserView.byteAt_eq_ok.2 hByte] at hEnd
    cases hEnd
  have hOn : ∀ {src}, view.Shows src 0 97 → ∀ j < 1, ¬ view.Stops src j := by
    intro src hFirst j hj
    obtain rfl : j = 0 := by omega
    exact hFirst.not_stops (by decide)
  have hName : ∀ {src name}, view.Shows src 0 97 → view.GoesOn src 1 name → name = [97] := by
    intro src name hFirst hGoesOn
    obtain ⟨b, rfl⟩ := List.length_eq_one_iff.1 hGoesOn.length_eq
    rw [UserView.Shows.eq (hGoesOn.spells 0 b rfl) hFirst]
  obtain ⟨-, -, -, hHere⟩ := readString_exact u ⟨0x400000⟩ [1, 2, 3] ()
  obtain ⟨name, hGoesOn, hString⟩ := (hHere view hReads).1 1 (by decide) (hOn hLetter) hZero
  obtain rfl := hName hLetter hGoesOn
  obtain ⟨-, -, -, hShort⟩ := readString_exact u ⟨0x400000⟩ [1] ()
  obtain ⟨name, hGoesOn, hLong⟩ := (hShort view hReads).2.2.1 (hOn hLetter)
  obtain rfl := hName hLetter hGoesOn
  obtain ⟨-, -, -, hThere⟩ := readString_exact u ⟨0x7fffffffffff⟩ [1, 2] ()
  obtain ⟨name, e, hGoesOn, hByte, hFault⟩ := (hThere view hReads).2.1 1 (by decide) (hOn hLast) hOut
  obtain rfl := hName hLast hGoesOn
  obtain rfl : e = ⟨⟨0x7fffffffffff⟩⟩ := Except.error.inj (hByte.symm.trans hEnd)
  obtain ⟨hForth, hBack, hTotal, -⟩ := readString_exact u ⟨0⟩ [] ()
  obtain ⟨buffer', o, m', hRead⟩ := hTotal fun a m => ⟨view a, m, by rw [hU]; rfl⟩
  obtain ⟨⟨n, name, hEnds, -⟩, -⟩ := hBack buffer' o m' hRead
  have hNone := hForth n name o m' hEnds
  rw [List.drop_nil, List.append_nil] at hNone
  exact ⟨u, view, hReads, hZero, hOut, hString, hLong, hFault, buffer', o, m', hRead, n, name, hEnds, hNone⟩

end UserMemory

end PagedKernel
