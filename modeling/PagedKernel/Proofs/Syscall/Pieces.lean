import PagedKernel.Proofs.Syscall.Recorded
import PagedKernel.Proofs.UserMemory.Views

/-!
# Buffers piece by piece

A buffer goes to the host in pieces, all of the same size but for the last one. The console takes them
all; a file is offered one piece after another until it reports that it took less than it was offered.

* `pieces`: a buffer cut into pieces.
* `Host.Delivers`: what a file is offered, and how much of it is taken.
* `Host.Delivers.flatten_taken`: the bytes that are taken are the first ones.
* `CallM.sendPieces_console`, `CallM.sendPieces_file`: a readable buffer is sent so.
-/

namespace PagedKernel

open Stateful

/-! ## Pieces -/

/-- The bytes in pieces of `pieceSize`, the last of which may be shorter. -/
def pieces (bytes : List UInt8) : List (List UInt8) :=
  if _h : bytes = [] then [] else bytes.take pieceSize :: pieces (bytes.drop pieceSize)
termination_by bytes.length
decreasing_by
  have := List.length_pos_iff.2 _h
  simp only [List.length_drop, pieceSize]
  omega

@[simp] theorem pieces_nil : pieces [] = [] := by
  rw [pieces, dif_pos rfl]

theorem pieces_of_ne_nil {bytes : List UInt8} (h : bytes ≠ []) :
    pieces bytes = bytes.take pieceSize :: pieces (bytes.drop pieceSize) := by
  rw [pieces, dif_neg h]

theorem flatten_pieces (bytes : List UInt8) : (pieces bytes).flatten = bytes := by
  induction hLength : bytes.length using Nat.strongRecOn generalizing bytes with
  | ind n ih =>
    by_cases hNil : bytes = []
    · rw [hNil, pieces_nil, List.flatten_nil]
    · have hPos := List.length_pos_iff.2 hNil
      have hRest := ih (bytes.drop pieceSize).length
        (by simp only [List.length_drop, pieceSize]; omega) _ rfl
      rw [pieces_of_ne_nil hNil, List.flatten_cons, hRest, List.take_append_drop]

section Left

variable {bytes : List UInt8} {done left : Nat} (hLength : done + left = bytes.length)

include hLength

theorem length_piece : ((bytes.drop done).take pieceSize).length = min left pieceSize := by
  rw [List.length_take, List.length_drop]
  omega

theorem drop_piece : bytes.drop (done + min left pieceSize) = (bytes.drop done).drop pieceSize := by
  rw [List.drop_drop]
  by_cases hFull : pieceSize ≤ left
  · rw [Nat.min_eq_right hFull]
  · rw [List.drop_eq_nil_of_le (by omega), List.drop_eq_nil_of_le (by omega)]

end Left

/-! ## Deliveries -/

/-- A piece that a file was offered, and the count that the host reported for it. -/
structure Offer (F : Type) where
  file : F
  piece : List UInt8
  count : Nat

namespace Offer

variable {F : Type}

/-- The number of bytes that were taken: a count that exceeds the piece means all of it. -/
def taken (o : Offer F) : Nat := min o.count o.piece.length

def call (o : Offer F) : HostCall F := .writeHandle o.file o.piece

end Offer

/-- A file is offered pieces, one after another, until one is not taken whole. -/
inductive Host.Delivers {η F : Type} (host : Host η F) :
    F → η → List (List UInt8) → List (Offer F) → F → η → Prop
  | done (f : F) (h : η) : Delivers host f h [] [] f h
  | short {f f' : F} {h h' : η} {piece : List UInt8} {count : Nat} (rest : List (List UInt8))
      (hWrite : host.writeHandle f piece h = ((f', count), h')) (hShort : count < piece.length) :
      Delivers host f h (piece :: rest) [⟨f, piece, count⟩] f' h'
  | whole {f f₁ f' : F} {h h₁ h' : η} {piece : List UInt8} {count : Nat} {rest : List (List UInt8)}
      {offers : List (Offer F)} (hWrite : host.writeHandle f piece h = ((f₁, count), h₁))
      (hWhole : piece.length ≤ count) (next : Delivers host f₁ h₁ rest offers f' h') :
      Delivers host f h (piece :: rest) (⟨f, piece, count⟩ :: offers) f' h'

namespace Host.Delivers

variable {η F : Type} {host : Host η F} {f f' : F} {h h' : η} {rest : List (List UInt8)}
  {offers : List (Offer F)}

/-- The bytes that are taken are the first ones, without a gap. -/
theorem flatten_taken (hDelivers : host.Delivers f h rest offers f' h') :
    (offers.map fun o => o.piece.take o.taken).flatten =
      rest.flatten.take (offers.map Offer.taken).sum := by
  induction hDelivers with
  | done => rfl
  | @short f f' h h' piece count rest _ hShort =>
    have hTaken : Offer.taken ⟨f, piece, count⟩ = count := Nat.min_eq_left (Nat.le_of_lt hShort)
    simp only [List.map_cons, List.map_nil, List.flatten_cons, List.flatten_nil, List.append_nil,
      List.sum_cons, List.sum_nil, Nat.add_zero, hTaken]
    rw [List.take_append_of_le_length (Nat.le_of_lt hShort)]
  | @whole f f₁ f' h h₁ h' piece count rest offers _ hWhole _ ih =>
    have hTaken : Offer.taken ⟨f, piece, count⟩ = piece.length := Nat.min_eq_right hWhole
    simp only [List.map_cons, List.flatten_cons, List.sum_cons, hTaken, List.take_length]
    rw [List.take_length_add_append, ih]

theorem sum_taken_le (hDelivers : host.Delivers f h rest offers f' h') :
    (offers.map Offer.taken).sum ≤ rest.flatten.length := by
  induction hDelivers with
  | done => exact Nat.le_refl _
  | @short f f' h h' piece count rest _ hShort =>
    have hTaken : Offer.taken ⟨f, piece, count⟩ = count := Nat.min_eq_left (Nat.le_of_lt hShort)
    simp only [List.map_cons, List.map_nil, List.sum_cons, List.sum_nil, hTaken, List.flatten_cons,
      List.length_append]
    omega
  | @whole f f₁ f' h h₁ h' piece count rest offers _ hWhole _ ih =>
    have hTaken : Offer.taken ⟨f, piece, count⟩ = piece.length := Nat.min_eq_right hWhole
    simp only [List.map_cons, List.sum_cons, hTaken, List.flatten_cons, List.length_append]
    omega

end Host.Delivers

/-! ## Sending -/

namespace CallM

variable {σ η F : Type} {u : UserMemory σ} {view : UserView}
  {buffer : VirtualAddress} {bytes : List UInt8} {done left : Nat}

/-- The next piece of a readable buffer is read, and sent. -/
theorem sendPieces_of_spells {c : CallState σ η F} {send : List UInt8 → CallM σ η F Nat}
    (hReads : u.Reads c.memory view) (hSpells : view.Spells buffer bytes)
    (hBound : buffer.val.toNat + bytes.length ≤ 2 ^ 47) (hLength : done + left = bytes.length)
    (hLeft : left ≠ 0) :
    sendPieces u send buffer done left c =
      (do
        let sent := min (← send ((bytes.drop done).take pieceSize)) (min left pieceSize)
        if sent < min left pieceSize then return .ok (done + sent)
        else sendPieces u send buffer (done + min left pieceSize) (left - min left pieceSize) :
          CallM σ η F Transfer) c := by
  obtain ⟨src, hAdd, hSrc⟩ := @VirtualAddress.exists_add buffer done (by omega)
  have hPiece := length_piece hLength
  have hCopy : u.copyFrom src (List.replicate (min left pieceSize) 0) c.memory =
      .ok ((bytes.drop done).take pieceSize, .ok ()) c.memory :=
    UserMemory.copyFrom_of_spells hReads (by rw [hPiece, List.length_replicate]) (hSpells.piece hSrc)
  have hRead : (onMemory (u.copyFrom src (List.replicate (min left pieceSize) 0)) :
      CallM σ η F _) c = .ok ((bytes.drop done).take pieceSize, .ok ()) c := by
    simp only [onMemory, hCopy]
  rw [sendPieces, dif_neg hLeft]
  show (liftM (buffer.add done) >>= _ : CallM σ η F _) c = _
  rw [bind_ok (lift_ok hAdd), bind_ok hRead]

/-- The console is sent all pieces. -/
theorem sendPieces_console (host : Host η F) {c : RecordedState σ η F} (done left : Nat)
    (hReads : u.Reads c.memory view) (hSpells : view.Spells buffer bytes)
    (hBound : buffer.val.toNat + bytes.length ≤ 2 ^ 47) (hLength : done + left = bytes.length) :
    ∃ c', sendPieces u (sendConsole host.recorded) buffer done left c = .ok (.ok bytes.length) c' ∧
      c'.memory = c.memory ∧ c'.files = c.files ∧
      c'.asked = ((pieces (bytes.drop done)).map HostCall.writeConsole).reverse ++ c.asked := by
  induction left using Nat.strongRecOn generalizing done c with
  | ind left ih =>
    by_cases hLeft : left = 0
    · subst hLeft
      refine ⟨c, ?_, rfl, rfl, ?_⟩
      · rw [sendPieces, dif_pos rfl, ← hLength]
        rfl
      · rw [List.drop_eq_nil_of_le (by omega), pieces_nil]
        rfl
    · have hPiece := length_piece hLength
      have hNil : bytes.drop done ≠ [] := by
        rw [← List.length_pos_iff, List.length_drop]
        omega
      have hSize : pieceSize = 256 := rfl
      have hSend : sendConsole host.recorded ((bytes.drop done).take pieceSize) c =
          .ok (min left pieceSize)
            { c with host := host.recorded.writeConsole ((bytes.drop done).take pieceSize) c.host } := by
        rw [sendConsole, bind_ok (onHost_apply _ c), hPiece]
        rfl
      obtain ⟨c', hRest, hMemory, hFiles, hAsked⟩ := ih (left - min left pieceSize) (by omega)
        (done + min left pieceSize)
        (c := { c with host := host.recorded.writeConsole ((bytes.drop done).take pieceSize) c.host })
        hReads (by omega)
      refine ⟨c', ?_, hMemory, hFiles, ?_⟩
      · rw [sendPieces_of_spells hReads hSpells hBound hLength hLeft, bind_ok hSend]
        simp only [Nat.min_self, Nat.lt_irrefl, ↓reduceIte]
        exact hRest
      · rw [hAsked, drop_piece hLength, pieces_of_ne_nil hNil, List.map_cons, List.reverse_cons,
          List.append_assoc]
        rfl

/-- A file is offered pieces until one is not taken whole, and no other file is touched. -/
theorem sendPieces_file (host : Host η F) {c : RecordedState σ η F} (done left : Nat)
    (hReads : u.Reads c.memory view) (hSpells : view.Spells buffer bytes)
    (hBound : buffer.val.toNat + bytes.length ≤ 2 ^ 47) (hLength : done + left = bytes.length) {fd : Int} {f : F} (hFile : c.files.get? fd = some f) :
    ∃ offers f' c',
      sendPieces u (sendFile host.recorded fd) buffer done left c =
        .ok (.ok (done + (offers.map Offer.taken).sum)) c' ∧
      host.Delivers f c.host.1 (pieces (bytes.drop done)) offers f' c'.host.1 ∧
      c'.memory = c.memory ∧ c'.files = c.files.put fd (some f') ∧
      c'.asked = (offers.map Offer.call).reverse ++ c.asked := by
  induction left using Nat.strongRecOn generalizing done c f with
  | ind left ih =>
    by_cases hLeft : left = 0
    · subst hLeft
      refine ⟨[], f, c, ?_, ?_, rfl, (DescriptorTable.put_self hFile).symm, rfl⟩
      · rw [sendPieces, dif_pos rfl]
        rfl
      · rw [List.drop_eq_nil_of_le (by omega), pieces_nil]
        exact .done f c.host.1
    · have hPiece := length_piece hLength
      have hNil : bytes.drop done ≠ [] := by
        rw [← List.length_pos_iff, List.length_drop]
        omega
      have hSize : pieceSize = 256 := rfl
      -- What the host does with the piece.
      obtain ⟨f₁, count, h₁, hWrite⟩ : ∃ f₁ count h₁,
          host.writeHandle f ((bytes.drop done).take pieceSize) c.host.1 = ((f₁, count), h₁) :=
        ⟨_, _, _, rfl⟩
      obtain ⟨c₁, hC₁⟩ : ∃ c₁ : RecordedState σ η F, c₁ = ⟨c.memory,
          (h₁, .writeHandle f ((bytes.drop done).take pieceSize) :: c.asked),
          c.files.put fd (some f₁), c.log⟩ := ⟨_, rfl⟩
      have hSend : sendFile host.recorded fd ((bytes.drop done).take pieceSize) c = .ok count c₁ := by
        have hGet : askFiles (·.get? fd) c = .ok (some f) c := by
          simp only [askFiles, query, hFile]
        rw [sendFile, bind_ok hGet]
        show (onHost _ >>= _ : CallM σ _ F _) c = _
        rw [bind_ok (onHost_apply _ c), hC₁]
        simp only [Host.recorded, hWrite]
        rfl
      rw [sendPieces_of_spells hReads hSpells hBound hLength hLeft, bind_ok hSend,
        pieces_of_ne_nil hNil]
      by_cases hShort : count < min left pieceSize
      · have hTaken : Offer.taken ⟨f, (bytes.drop done).take pieceSize, count⟩ = count := by
          rw [Offer.taken, hPiece]
          exact Nat.min_eq_left (Nat.le_of_lt hShort)
        refine ⟨[⟨f, (bytes.drop done).take pieceSize, count⟩], f₁, c₁, ?_, ?_, by rw [hC₁], by rw [hC₁],
          by rw [hC₁]; rfl⟩
        · simp only [Nat.min_eq_left (Nat.le_of_lt hShort), hShort, ↓reduceIte, List.map_cons,
            List.map_nil, List.sum_cons, List.sum_nil, Nat.add_zero, hTaken]
          rfl
        · rw [hC₁]
          exact .short _ hWrite (by omega)
      · have hTaken : Offer.taken ⟨f, (bytes.drop done).take pieceSize, count⟩ = min left pieceSize := by
          rw [Offer.taken, hPiece]
          exact Nat.min_eq_right (Nat.le_of_not_lt hShort)
        have hReads₁ : u.Reads c₁.memory view := by rw [hC₁]; exact hReads
        have hFile₁ : c₁.files.get? fd = some f₁ := by
          rw [hC₁]
          exact DescriptorTable.get?_put hFile f₁
        obtain ⟨offers, f', c', hRest, hDelivers, hMemory, hFiles, hAsked⟩ :=
          ih (left - min left pieceSize) (by omega) (done + min left pieceSize) hReads₁
            (by omega) hFile₁
        refine ⟨⟨f, (bytes.drop done).take pieceSize, count⟩ :: offers, f', c', ?_, ?_, ?_, ?_, ?_⟩
        · simp only [Nat.min_eq_right (Nat.le_of_not_lt hShort), Nat.lt_irrefl, ↓reduceIte,
            List.map_cons, List.sum_cons, hTaken, ← Nat.add_assoc]
          exact hRest
        · rw [drop_piece hLength, hC₁] at hDelivers
          exact .whole hWrite (by omega) hDelivers
        · rw [hMemory, hC₁]
        · rw [hFiles, hC₁, DescriptorTable.put_put]
        · rw [hAsked, hC₁, List.map_cons, List.reverse_cons, List.append_assoc]
          rfl

end CallM

end PagedKernel
