/-!
# The host of the system calls

What the system-call layer needs from the rest of the kernel: a console, files and a power switch. A
host is any implementation over a state `η`, with files of type `F`. Nothing is assumed of the
counts that it reports.
-/

namespace PagedKernel

/-- The services behind the system calls. -/
structure Host (η F : Type) where
  powerOff : η → η
  openFile : List UInt8 → η → Option F × η
  writeConsole : List UInt8 → η → η
  /-- Fill a buffer from the keyboard. The answer holds the bytes that replace the front of the
  buffer, and the number of bytes that are said to have been stored. -/
  readConsole : List UInt8 → η → (List UInt8 × Nat) × η
  /-- Write bytes to a file. The answer holds the file and the number of bytes that are said to have
  been written. -/
  writeHandle : F → List UInt8 → η → (F × Nat) × η
  readHandle : F → List UInt8 → η → (F × List UInt8 × Nat) × η
  closeHandle : F → η → η

/-- A buffer whose front is replaced by the bytes stored in it. -/
def overlay (stored buffer : List UInt8) : List UInt8 :=
  stored.take buffer.length ++ buffer.drop stored.length

@[simp] theorem length_overlay (stored buffer : List UInt8) :
    (overlay stored buffer).length = buffer.length := by
  simp only [overlay, List.length_append, List.length_take, List.length_drop]
  omega

end PagedKernel
