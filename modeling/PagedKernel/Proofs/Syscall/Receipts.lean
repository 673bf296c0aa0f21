import PagedKernel.Proofs.Syscall.Recorded
import PagedKernel.Proofs.UserMemory.Filling

/-!
# What the host supplies

The bytes for a buffer come from the console or from a file, which are asked for one piece after another:
as many bytes as are left, but at most `pieceSize`. A source is asked again only when it has supplied
the whole piece and all of it could be stored.

A source is handed a piece to fill. It replaces the front of the piece and reports a count; what it has
supplied are that many bytes of the piece, or all of them if it reports more.

* `Source`, `DescriptorTable.source?`: where the bytes for a descriptor come from.
* `Receipt.supplied`: the bytes that one answer supplies.
* `Host.Supplies`: what a source is asked for, and what it supplies.
* `Host.Supplies.length_supplied_le`, `Host.Supplies.length_piece`: how much is asked for, at most and at a
  time.
* `CallM.receivePieces_settled`: a buffer is filled so.
-/

namespace PagedKernel

open Stateful

/-! ## Sources -/

inductive Source (F : Type) where
  | console
  | file (f : F)

def DescriptorTable.source? {F : Type} (t : DescriptorTable F) (fd : Int) : Option (Source F) :=
  if fd = stdin then some .console else (t.get? fd).map .file

def DescriptorTable.keep {F : Type} (t : DescriptorTable F) (fd : Int) : Source F → DescriptorTable F
  | .console => t
  | .file f => t.put fd (some f)

/-- A source fills a piece. The answer holds what the source has become, the bytes that replace the front
of the piece, and the number of bytes that are said to have been stored. -/
def Host.fill {η F : Type} (host : Host η F) :
    Source F → List UInt8 → η → (Source F × List UInt8 × Nat) × η
  | .console, piece, h => ((.console, (host.readConsole piece h).1), (host.readConsole piece h).2)
  | .file f, piece, h =>
    let ((f, stored, count), h) := host.readHandle f piece h
    ((.file f, stored, count), h)

/-- A piece that a source was handed, and its answer. -/
structure Receipt (F : Type) where
  source : Source F
  piece : List UInt8
  stored : List UInt8
  count : Nat

namespace Receipt

variable {F : Type}

def call (x : Receipt F) : HostCall F :=
  match x.source with
  | .console => .readConsole x.piece
  | .file f => .readHandle f x.piece

/-- The bytes that the source has supplied. A count that exceeds the piece means all of it. -/
def supplied (x : Receipt F) : List UInt8 := (overlay x.stored x.piece).take x.count

theorem length_supplied (x : Receipt F) : x.supplied.length = min x.count x.piece.length := by
  rw [supplied, List.length_take, length_overlay]

end Receipt

/-- A source is asked for the bytes of a buffer from the offset `done` on, with the pieces cut from the
front of `chunk`. It is not asked again once it has supplied less than a piece, or a byte at an offset
that is not `able` to take it. -/
inductive Host.Supplies {η F : Type} (host : Host η F) (able : Nat → Prop) (length : Nat) :
    Nat → List UInt8 → Source F → η → List (Receipt F) → Source F → η → Prop
  | done (chunk : List UInt8) (source : Source F) (h : η) :
      Supplies host able length length chunk source h [] source h
  | short {done n count : Nat} {chunk stored : List UInt8} {source source' : Source F} {h h' : η}
      (hLeft : done < length) (hPiece : n = min (length - done) pieceSize)
      (hFill : host.fill source (chunk.take n) h = ((source', stored, count), h')) (hShort : count < n)
      (hAble : ∀ i < count, able (done + i)) :
      Supplies host able length done chunk source h [⟨source, chunk.take n, stored, count⟩] source' h'
  | blocked {done n count i : Nat} {chunk stored : List UInt8} {source source' : Source F} {h h' : η}
      (hLeft : done < length) (hPiece : n = min (length - done) pieceSize)
      (hFill : host.fill source (chunk.take n) h = ((source', stored, count), h')) (hLt : i < min count n)
      (hBlocked : ¬ able (done + i)) :
      Supplies host able length done chunk source h [⟨source, chunk.take n, stored, count⟩] source' h'
  | whole {done n count : Nat} {chunk stored : List UInt8} {source source₁ source' : Source F}
      {h h₁ h' : η} {receipts : List (Receipt F)} (hLeft : done < length)
      (hPiece : n = min (length - done) pieceSize)
      (hFill : host.fill source (chunk.take n) h = ((source₁, stored, count), h₁)) (hWhole : n ≤ count)
      (hAble : ∀ i < n, able (done + i))
      (next : Supplies host able length (done + n) (overlay (stored.take n) chunk) source₁ h₁ receipts
        source' h') :
      Supplies host able length done chunk source h (⟨source, chunk.take n, stored, count⟩ :: receipts)
        source' h'

/-- No more is supplied than is asked for. -/
theorem Host.Supplies.length_supplied_le {η F : Type} {host : Host η F} {able : Nat → Prop}
    {length done : Nat} {chunk : List UInt8} {source source' : Source F} {h h' : η}
    {receipts : List (Receipt F)}
    (hSupplies : host.Supplies able length done chunk source h receipts source' h') :
    done + (receipts.flatMap Receipt.supplied).length ≤ length := by
  induction hSupplies with
  | done => exact Nat.le_refl _
  | short hLeft hPiece =>
    rw [List.flatMap_singleton, Receipt.length_supplied, List.length_take]
    omega
  | blocked hLeft hPiece =>
    rw [List.flatMap_singleton, Receipt.length_supplied, List.length_take]
    omega
  | whole hLeft hPiece _ _ _ _ ih =>
    rw [List.flatMap_cons, List.length_append, Receipt.length_supplied, List.length_take]
    omega

theorem Host.Supplies.length_piece {η F : Type} {host : Host η F} {able : Nat → Prop}
    {length done : Nat} {chunk : List UInt8} {source source' : Source F} {h h' : η}
    {receipts : List (Receipt F)}
    (hSupplies : host.Supplies able length done chunk source h receipts source' h')
    (hChunk : chunk.length = pieceSize) {i : Nat} {x : Receipt F} (hx : receipts[i]? = some x) :
    x.piece.length = min (length - (done + i * pieceSize)) pieceSize := by
  have hSize : pieceSize = 256 := rfl
  induction hSupplies generalizing i with
  | done => cases hx
  | short _ hPiece =>
    obtain ⟨rfl, rfl⟩ : i = 0 ∧ _ = x := by simpa [List.getElem?_singleton] using hx
    rw [List.length_take]
    omega
  | blocked _ hPiece =>
    obtain ⟨rfl, rfl⟩ : i = 0 ∧ _ = x := by simpa [List.getElem?_singleton] using hx
    rw [List.length_take]
    omega
  | whole _ hPiece _ _ _ _ ih =>
    cases i with
    | zero =>
      obtain rfl : _ = x := Option.some.inj hx
      rw [List.length_take]
      omega
    | succ i =>
      rw [ih ((length_overlay ..).trans hChunk) hx, Nat.succ_mul]
      omega

/-! ## The table during a read -/

namespace DescriptorTable

variable {F : Type} {t t' : DescriptorTable F} {fd : Int} {source source' : Source F}

theorem source?_eq_console : t.source? fd = some .console ↔ fd = stdin := by
  rw [source?]
  split
  next hStdin => exact iff_of_true rfl hStdin
  next hNot => simp [hNot]

theorem source?_eq_file {f : F} : t.source? fd = some (.file f) ↔ fd ≠ stdin ∧ t.get? fd = some f := by
  rw [source?]
  split
  next hStdin => simp [hStdin]
  next hNot => simp [hNot]

theorem keep_self (h : t.source? fd = some source) : t.keep fd source = t := by
  cases source with
  | console => rfl
  | file f => exact put_self (source?_eq_file.1 h).2

/-- Only the last file that is put back counts. The descriptor names the same kind of source all the
time. -/
theorem keep_keep (h : t.source? fd = some source) (h' : t'.source? fd = some source')
    (start : DescriptorTable F) : (start.keep fd source).keep fd source' = start.keep fd source' := by
  cases source with
  | console => rfl
  | file f =>
    cases source' with
    | console => exact absurd (source?_eq_console.1 h') (source?_eq_file.1 h).1
    | file f' => exact put_put _ _ _ _

end DescriptorTable

/-! ## Receiving -/

theorem take_overlay (stored chunk : List UInt8) (n : Nat) :
    (overlay (stored.take n) chunk).take n = overlay stored (chunk.take n) := by
  apply List.ext_getElem?
  intro i
  simp only [overlay, List.getElem?_take, List.getElem?_append, List.getElem?_drop, List.length_take]
  grind

namespace CallM

variable {σ η F : Type} {host : Host η F} {fd : Int}

theorem receive_of_source {c : RecordedState σ η F} {source source' : Source F} {piece stored : List UInt8}
    {count : Nat} {h' : η} (hSource : c.files.source? fd = some source)
    (hFill : host.fill source piece c.host.1 = ((source', stored, count), h')) :
    ((if fd = stdin then receiveConsole host.recorded else receiveFile host.recorded fd) :
        List UInt8 → CallM σ (η × List (HostCall F)) F (List UInt8 × Nat)) piece c =
      .ok (stored, count) ⟨c.memory, (h', Receipt.call ⟨source, piece, stored, count⟩ :: c.asked),
        c.files.keep fd source', c.log⟩ ∧
    (c.files.keep fd source').source? fd = some source' := by
  cases source with
  | console =>
    have hStdin := DescriptorTable.source?_eq_console.1 hSource
    simp only [Host.fill, Prod.mk.injEq] at hFill
    obtain ⟨⟨rfl, hAnswer⟩, rfl⟩ := hFill
    rw [if_pos hStdin, receiveConsole, onHost_apply]
    refine ⟨?_, hSource⟩
    simp only [Host.recorded, hAnswer]
    rfl
  | file f =>
    obtain ⟨hNot, hGet⟩ := DescriptorTable.source?_eq_file.1 hSource
    simp only [Host.fill, Prod.mk.injEq] at hFill
    obtain ⟨⟨rfl, rfl, rfl⟩, rfl⟩ := hFill
    have hAsk : askFiles (·.get? fd) c = .ok (some f) c := by
      simp only [askFiles, query, hGet]
    refine ⟨?_, DescriptorTable.source?_eq_file.2 ⟨hNot, DescriptorTable.get?_put hGet _⟩⟩
    rw [if_neg hNot, receiveFile, bind_ok hAsk]
    show (onHost _ >>= _ : CallM σ _ F _) c = _
    rw [bind_ok (onHost_apply _ c)]
    rfl

variable (host) {m : Machine} {s : AddressSpace} {buffer : VirtualAddress} {length : Nat}
  (hBacks : s.Backs m.memory buffer length) (hBound : buffer.val.toNat + length ≤ 2 ^ 47)
  {c : RecordedState Machine η F} {source : Source F} (hSource : c.files.source? fd = some source)
  {bytes chunk : List UInt8} (hFilled : m.Filled s buffer bytes c.memory)

include hBacks hBound hSource hFilled

/-- One piece is received: its source supplies bytes, and these are stored. -/
theorem receivePieces_step {left n : Nat} (hLength : bytes.length + left = length) (hLeft : left ≠ 0)
    (hPiece : n = min left pieceSize) {source₁ : Source F} {stored : List UInt8} {count : Nat} {h₁ : η}
    (hFill : host.fill source (chunk.take n) c.host.1 = ((source₁, stored, count), h₁)) {x : Receipt F}
    (hReceipt : x = ⟨source, chunk.take n, stored, count⟩) :
    ∃ o c₁, m.Settled s buffer bytes x.supplied o c₁.memory ∧ c₁.host = (h₁, x.call :: c.asked) ∧
      c₁.files = c.files.keep fd source₁ ∧
      receivePieces s.userMemory
          (if fd = stdin then receiveConsole host.recorded else receiveFile host.recorded fd) buffer
          chunk bytes.length left c =
        (match o with
          | .error e => return .error e
          | .ok () =>
            if min count n < n then return .ok (bytes.length + min count n)
            else receivePieces s.userMemory
              (if fd = stdin then receiveConsole host.recorded else receiveFile host.recorded fd) buffer
              (overlay (stored.take n) chunk) (bytes.length + n) (left - n) :
          CallM Machine (η × List (HostCall F)) F Transfer) c₁ := by
  have hSupplied : (overlay (stored.take n) chunk).take (min count n) = x.supplied := by
    rw [hReceipt, Receipt.supplied, ← take_overlay, List.take_take]
  have hCount : x.supplied.length ≤ n := by
    rw [← hSupplied, List.length_take]
    omega
  obtain ⟨hReceive, -⟩ := receive_of_source hSource hFill
  rw [← hReceipt] at hReceive
  obtain ⟨dst, hAdd, hDst⟩ := @VirtualAddress.exists_add buffer bytes.length (by omega)
  obtain ⟨o, m₁, hCopy, hSettled⟩ := UserMemory.settled_copyTo hBacks hFilled hBound x.supplied
    (by omega) hDst
  refine ⟨o, ⟨m₁, (h₁, x.call :: c.asked), c.files.keep fd source₁, c.log⟩, hSettled, rfl, rfl, ?_⟩
  have hStore : (onMemory (s.userMemory.copyTo dst x.supplied) :
      CallM Machine (η × List (HostCall F)) F _)
        ⟨c.memory, (h₁, x.call :: c.asked), c.files.keep fd source₁, c.log⟩ =
      .ok o ⟨m₁, (h₁, x.call :: c.asked), c.files.keep fd source₁, c.log⟩ := by
    simp only [onMemory, hCopy]
  rw [receivePieces, dif_neg hLeft, ← hPiece]
  refine (bind_ok hReceive).trans ?_
  show (liftM (buffer.add bytes.length) >>= _ : CallM Machine _ F _) _ = _
  rw [bind_ok (lift_ok hAdd), hSupplied]
  refine (bind_ok hStore).trans ?_
  cases o <;> rfl

/-- A buffer is filled with what its source supplies, up to the first byte that the process may not
write. -/
theorem receivePieces_settled (hChunk : chunk.length = pieceSize) (left : Nat)
    (hLength : bytes.length + left = length) :
    ∃ receipts source' o c',
      receivePieces s.userMemory
          (if fd = stdin then receiveConsole host.recorded else receiveFile host.recorded fd) buffer
          chunk bytes.length left c =
        .ok (o.map fun _ => bytes.length + (receipts.flatMap Receipt.supplied).length) c' ∧
      host.Supplies (s.Fillable m.memory buffer) length bytes.length chunk source c.host.1 receipts
        source' c'.host.1 ∧
      m.Settled s buffer bytes (receipts.flatMap Receipt.supplied) o c'.memory ∧
      c'.asked = (receipts.map Receipt.call).reverse ++ c.asked ∧
      c'.files = c.files.keep fd source' ∧ c'.files.source? fd = some source' := by
  induction left using Nat.strongRecOn generalizing bytes chunk source c with
  | ind left ih =>
    by_cases hLeft : left = 0
    · subst hLeft
      obtain rfl : length = bytes.length := hLength.symm
      refine ⟨[], source, .ok (), c, ?_, .done chunk source c.host.1, .whole nofun ?_, rfl,
        (DescriptorTable.keep_self hSource).symm, hSource⟩
      · rw [receivePieces, dif_pos rfl]
        rfl
      · rwa [List.flatMap_nil, List.append_nil]
    obtain ⟨n, hPiece⟩ : ∃ n, n = min left pieceSize := ⟨_, rfl⟩
    have hSize : pieceSize = 256 := rfl
    have hSpan : n = min (length - bytes.length) pieceSize := by omega
    -- What the source does with the piece.
    obtain ⟨source₁, stored, count, h₁, hFill⟩ : ∃ source₁ stored count h₁,
        host.fill source (chunk.take n) c.host.1 = ((source₁, stored, count), h₁) := ⟨_, _, _, _, rfl⟩
    obtain ⟨x, hReceipt⟩ : ∃ x : Receipt F, x = ⟨source, chunk.take n, stored, count⟩ := ⟨_, rfl⟩
    have hCount : x.supplied.length = min count n := by
      rw [x.length_supplied, hReceipt]
      show min count (chunk.take n).length = _
      rw [List.length_take]
      omega
    obtain ⟨-, hSource₁⟩ := receive_of_source hSource hFill
    obtain ⟨o, c₁, hSettled, hHost, hFiles, hStep⟩ := receivePieces_step host hBacks hBound hSource hFilled
      hLength hLeft hPiece hFill hReceipt
    have hAsked : c₁.asked = x.call :: c.asked := congrArg Prod.snd hHost
    have hState : h₁ = c₁.host.1 := (congrArg Prod.fst hHost).symm
    rw [← hFiles] at hSource₁
    rw [hState] at hFill
    cases o with
    | error e =>
      obtain ⟨i, hLt, hBlocked, -⟩ := hSettled.of_error
      rw [hCount] at hLt
      refine ⟨[x], source₁, .error e, c₁, hStep, ?_, ?_, ?_, hFiles, hSource₁⟩
      · rw [hReceipt]
        exact .blocked (by omega) hSpan hFill hLt hBlocked
      · rwa [List.flatMap_singleton]
      · rw [hAsked]
        rfl
    | ok _ =>
      obtain ⟨hAll, hStored⟩ := hSettled.of_ok
      by_cases hShort : min count n < n
      · refine ⟨[x], source₁, .ok (), c₁, ?_, ?_, ?_, ?_, hFiles, hSource₁⟩
        · rw [hStep, List.flatMap_singleton, hCount]
          exact congrFun (if_pos hShort) c₁
        · rw [hReceipt]
          exact .short (by omega) hSpan hFill (by omega) fun i hi => hAll i (by omega)
        · rwa [List.flatMap_singleton]
        · rw [hAsked]
          rfl
      · have hFull : (bytes ++ x.supplied).length = bytes.length + n := by
          rw [List.length_append]
          omega
        obtain ⟨receipts, source', o, c', hRest, hSupplies, hSettled', hAsked', hFiles', hSource'⟩ :=
          ih (left - n) (by omega) hSource₁ hStored
            ((length_overlay (stored.take n) chunk).trans hChunk) (by omega)
        rw [hFull] at hRest hSupplies
        refine ⟨x :: receipts, source', o, c', ?_, ?_, ?_, ?_, ?_, hSource'⟩
        · rw [hStep]
          refine (congrFun (if_neg hShort) c₁).trans (hRest.trans ?_)
          rw [List.flatMap_cons, List.length_append, ← Nat.add_assoc, show x.supplied.length = n by omega]
        · rw [hReceipt]
          exact .whole (by omega) hSpan hFill (by omega) (fun i hi => hAll i (by omega)) hSupplies
        · rw [List.flatMap_cons]
          exact hSettled.append hSettled'
        · rw [hAsked', hAsked, List.map_cons, List.reverse_cons, List.append_assoc]
          rfl
        · rw [hFiles', hFiles, DescriptorTable.keep_keep hSource₁ hSource']

end CallM

end PagedKernel
