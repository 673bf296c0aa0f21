import PagedKernel.DirectMap
import PagedKernel.Word.Bytes

/-!
# Simulated memory

Memory is a whole number of frames; frame `n` holds the bytes from `4096 * n` on. It is seen in two
ways: as bytes, and as words of eight bytes.

* `Memory.byte`, `Memory.setByte`: one byte. `byte_setByte` says what a byte is after a write.
* `Memory.word`, `Memory.setWord`: one word. `byte_setWord`, `word_setWord` and
  `word_setWord_of_disjoint` say what bytes and words are after a write.
* `Memory.read`, `Memory.write`: byte strings at a physical address, which may cross frames. A write
  that runs past the end stores what fits and is then a violation.
-/

namespace PagedKernel

theorem size_set (bytes : ByteArray) (i : Nat) (h : i < bytes.size) (b : UInt8) :
    (bytes.set i b h).size = bytes.size := by
  cases bytes
  simp [ByteArray.set, ByteArray.size]

theorem getElem_set (bytes : ByteArray) (i j : Nat) (h : i < bytes.size) (b : UInt8)
    (hj : j < (bytes.set i b h).size) :
    (bytes.set i b h)[j] =
      if i = j then b else GetElem.getElem bytes j (size_set bytes i h b ▸ hj) := by
  cases bytes
  exact Array.getElem_set ..

/-- The bytes of a number of frames. -/
structure Memory where
  bytes : ByteArray
  frames : Nat
  size_eq : bytes.size = 4096 * frames

namespace Memory

def zeroed (frames : Nat) : Memory where
  bytes := ⟨Array.replicate (4096 * frames) 0⟩
  frames := frames
  size_eq := by simp [ByteArray.size]

/-- The byte at address `i`, zero past the end. -/
def byte (m : Memory) (i : Nat) : UInt8 := if h : i < m.bytes.size then m.bytes[i] else 0

@[irreducible] def setByte (m : Memory) (i : Nat) (b : UInt8) : Memory :=
  if h : i < m.bytes.size then
    { m with bytes := m.bytes.set i b h, size_eq := by rw [size_set, m.size_eq] }
  else m

@[simp] theorem frames_setByte (m : Memory) (i : Nat) (b : UInt8) :
    (m.setByte i b).frames = m.frames := by
  unfold setByte
  split <;> rfl

theorem byte_setByte (m : Memory) {i : Nat} (hi : i < 4096 * m.frames) (b : UInt8) (j : Nat) :
    (m.setByte i b).byte j = if j = i then b else m.byte j := by
  have hSize : i < m.bytes.size := m.size_eq ▸ hi
  simp only [setByte, hSize, ↓reduceDIte, byte, size_set, getElem_set]
  by_cases hj : j = i
  · subst hj
    simp [hSize]
  · simp [hj, Ne.symm hj]

/-- The word whose lowest byte is at address `i`. -/
def word (m : Memory) (i : Nat) : UInt64 := ofBytes fun k => m.byte (i + k)

def setWord (m : Memory) (i : Nat) (w : UInt64) : Memory :=
  (((((((m.setByte i (byteOf w 0)).setByte (i + 1) (byteOf w 1)).setByte (i + 2)
    (byteOf w 2)).setByte (i + 3) (byteOf w 3)).setByte (i + 4) (byteOf w 4)).setByte (i + 5)
    (byteOf w 5)).setByte (i + 6) (byteOf w 6)).setByte (i + 7) (byteOf w 7)

@[simp] theorem frames_setWord (m : Memory) (i : Nat) (w : UInt64) :
    (m.setWord i w).frames = m.frames := by
  simp [setWord]

theorem byte_setWord (m : Memory) {i : Nat} (hi : i + 8 ≤ 4096 * m.frames) (w : UInt64) (j : Nat) :
    (m.setWord i w).byte j = if i ≤ j ∧ j < i + 8 then byteOf w (j - i) else m.byte j := by
  unfold setWord
  rw [byte_setByte _ (by simp only [frames_setByte]; omega),
    byte_setByte _ (by simp only [frames_setByte]; omega),
    byte_setByte _ (by simp only [frames_setByte]; omega),
    byte_setByte _ (by simp only [frames_setByte]; omega),
    byte_setByte _ (by simp only [frames_setByte]; omega),
    byte_setByte _ (by simp only [frames_setByte]; omega),
    byte_setByte _ (by simp only [frames_setByte]; omega), byte_setByte _ (by omega)]
  by_cases hIn : i ≤ j ∧ j < i + 8
  · obtain ⟨k, rfl⟩ : ∃ k, j = i + k := ⟨j - i, by omega⟩
    have hk : k < 8 := by omega
    match k, hk with
    | 0, _ | 1, _ | 2, _ | 3, _ | 4, _ | 5, _ | 6, _ | 7, _ => simp
  · rw [if_neg hIn]
    iterate 8 rw [if_neg (by omega)]

theorem word_setWord (m : Memory) {i : Nat} (hi : i + 8 ≤ 4096 * m.frames) (w : UInt64) :
    (m.setWord i w).word i = w := by
  rw [word]
  refine (ofBytes_congr fun k hk => ?_).trans (ofBytes_byteOf w)
  rw [byte_setWord m hi, if_pos ⟨by omega, by omega⟩, show i + k - i = k by omega]

theorem word_setWord_of_disjoint (m : Memory) {i j : Nat} (hi : i + 8 ≤ 4096 * m.frames)
    (hDisjoint : j + 8 ≤ i ∨ i + 8 ≤ j) (w : UInt64) : (m.setWord i w).word j = m.word j := by
  refine ofBytes_congr fun k hk => ?_
  rw [byte_setWord m hi, if_neg (by omega)]

def holds (m : Memory) (f : Frame) : Bool := f.number.toNat < m.frames

/-- The byte at a physical address, which memory must hold. -/
def load (m : Memory) (a : PhysicalAddress) : Checked UInt8 :=
  if m.holds a.frame then .ok (m.byte a.val.toNat) else .error (.beyondMemory a)

def store (a : PhysicalAddress) (b : UInt8) : Stateful Memory Unit := fun m =>
  if m.holds a.frame then .ok () (m.setByte a.val.toNat b) else .error (.beyondMemory a) m

/-- The bytes of `n` addresses, from the `i`-th after `a` on. -/
def readFrom (m : Memory) (a : PhysicalAddress) (i : Nat) : (n : Nat) → Checked (List UInt8)
  | 0 => return []
  | n + 1 => do
    let b ← m.load (← a.add i)
    let rest ← m.readFrom a (i + 1) n
    return b :: rest

def read (m : Memory) (a : PhysicalAddress) (n : Nat) : Checked (List UInt8) := m.readFrom a 0 n

def writeFrom (a : PhysicalAddress) (i : Nat) : List UInt8 → Stateful Memory Unit
  | [] => return ()
  | b :: rest => do
    store (← a.add i) b
    writeFrom a (i + 1) rest

def write (a : PhysicalAddress) (bytes : List UInt8) : Stateful Memory Unit := writeFrom a 0 bytes

/-- The physical address that the kernel sees at `v`, which must be an alias. -/
def behind (v : VirtualAddress) : Checked PhysicalAddress := demand v.physical? (.notKernelAlias v)

def readAlias (m : Memory) (v : VirtualAddress) (n : Nat) : Checked (List UInt8) := do
  m.read (← behind v) n

def writeAlias (v : VirtualAddress) (bytes : List UInt8) : Stateful Memory Unit := do
  write (← behind v) bytes

def clearFrame (f : Frame) : Stateful Memory Unit := write f.base (List.replicate 4096 0)

/-- An object of `n` bytes may be placed at `a`: memory holds its frame, which the object does not
leave. -/
def requireObject (m : Memory) (a : PhysicalAddress) (n : Nat) : Checked Unit := do
  unless m.holds a.frame do throw (.beyondMemory a)
  unless a.offset.val.toNat + n ≤ 4096 do throw (.crossesFrame a)

def object (m : Memory) (a : PhysicalAddress) (n : Nat) : Checked (List UInt8) := do
  m.requireObject a n
  return (List.range n).map fun k => m.byte (a.val.toNat + k)

end Memory

end PagedKernel
