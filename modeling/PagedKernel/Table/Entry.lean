import PagedKernel.Violation
import PagedKernel.Word.Field

/-!
# Page-table entries

One 64-bit word serves every level: above the leaf level an entry points at the next table, at the
leaf level it maps a page. Fourteen fields divide the word among them.

* `Entry.get`, `Entry.set`: a field is read, or replaced by a value that fits it.
* `Entry.link`, `Entry.userLeaf`, `Entry.kernelLeaf`: the entries that are ever composed.
* `Entry.target`: the frame that an entry points at, visible only while the entry is present.
* `Entry.Edit`: a change of one public field, as a caller asks for it.
-/

namespace PagedKernel

@[ext] structure Entry where
  bits : UInt64
deriving DecidableEq, Inhabited

namespace Entry

/-- The fields of an entry, lowest bit first. -/
inductive Field where
  | present
  | writable
  | user
  | writeThrough
  | cacheDisable
  | accessed
  | dirty
  | pageSize
  | global
  | osAvailableLow
  | frameNumber
  | osAvailableHigh
  | protectionKey
  | noExecute
deriving DecidableEq, Repr

namespace Field

def range : Field → WordField
  | present => .flag 0
  | writable => .flag 1
  | user => .flag 2
  | writeThrough => .flag 3
  | cacheDisable => .flag 4
  | accessed => .flag 5
  | dirty => .flag 6
  | pageSize => .flag 7
  | global => .flag 8
  | osAvailableLow => { shift := 9, width := 3 }
  | frameNumber => .frameNumber
  | osAvailableHigh => { shift := 52, width := 7 }
  | protectionKey => { shift := 59, width := 4 }
  | noExecute => .flag 63

def all : List Field :=
  [present, writable, user, writeThrough, cacheDisable, accessed, dirty, pageSize, global,
    osAvailableLow, frameNumber, osAvailableHigh, protectionKey, noExecute]

def name : Field → String
  | present => "present"
  | writable => "writable"
  | user => "user"
  | writeThrough => "write_through"
  | cacheDisable => "cache_disable"
  | accessed => "accessed"
  | dirty => "dirty"
  | pageSize => "page_size"
  | global => "global"
  | osAvailableLow => "os_available_low"
  | frameNumber => "frame_number"
  | osAvailableHigh => "os_available_high"
  | protectionKey => "protection_key"
  | noExecute => "no_execute"

def isFlag (f : Field) : Bool := f.range.width == 1

/-- Whether callers may change the field on its own. The frame number belongs to the mapping, and
pages larger than 4 KiB do not exist. -/
def isPublic (f : Field) : Bool := f != pageSize && f != frameNumber

def ofName? (s : String) : Option Field := all.find? (fun f => f.isPublic && f.name == s)

end Field

def empty : Entry := ⟨0⟩

def get (e : Entry) (f : Field) : UInt64 := f.range.get e.bits

def flag (e : Entry) (f : Field) : Bool := e.get f != 0

/-- The entry with a field replaced by the low bits of `v`. -/
def put (e : Entry) (f : Field) (v : UInt64) : Entry := ⟨f.range.put e.bits v⟩

def putFlag (e : Entry) (f : Field) (on : Bool) : Entry := e.put f (if on then 1 else 0)

/-- The entry with a field replaced, if the value fits the field. -/
def set? (e : Entry) (f : Field) (v : UInt64) : Option Entry :=
  if v ≤ f.range.max then some (e.put f v) else none

def set (e : Entry) (f : Field) (v : UInt64) : Checked Entry :=
  demand (e.set? f v) (.fieldOverflow f.range.max)

def present (e : Entry) : Bool := e.flag .present

def writable (e : Entry) : Bool := e.flag .writable

def user (e : Entry) : Bool := e.flag .user

def accessed (e : Entry) : Bool := e.flag .accessed

def dirty (e : Entry) : Bool := e.flag .dirty

/-- The entry that points at a table. It allows everything, so that the leaf decides. -/
def link (t : Frame) : Checked Entry :=
  (((empty.putFlag .present true).putFlag .writable true).putFlag .user true).set
    .frameNumber t.number

def userLeaf (f : Frame) (writable : Bool) : Checked Entry :=
  (((empty.putFlag .present true).putFlag .writable writable).putFlag .user true).set
    .frameNumber f.number

/-- The leaf that maps a frame for the kernel alone, in every address space. -/
def kernelLeaf (f : Frame) (writable : Bool) : Checked Entry :=
  (((empty.putFlag .present true).putFlag .writable writable).putFlag .global true).set
    .frameNumber f.number

/-- The frame that the entry points at, if it is present: the next table above the leaf level, the
mapped page on it. -/
def target (e : Entry) : Checked (Option Frame) :=
  if e.present then
    if e.flag .pageSize then .error .hugePage
    else .ok (some (Frame.ofNumber (e.get .frameNumber)))
  else .ok none

def inspectField (e : Entry) (f : Field) : String :=
  if f.isFlag then s!"{f.name}: {e.flag f}" else s!"{f.name}: {e.get f}"

def inspect (e : Entry) : String :=
  let fields := String.intercalate ", " (Field.all.map e.inspectField)
  s!"PageTableEntry \x7b {fields} \x7d"

/-- A change of one field. -/
structure Edit where
  /-- Whether a value that does not fit is refused; otherwise it is a violation. -/
  checked : Bool
  field : Field
  value : UInt64

/-- Make the change. The answer tells whether it was accepted. -/
def Edit.apply (d : Edit) (e : Entry) : Checked (Bool × Entry) :=
  match e.set? d.field d.value with
  | some e => .ok (true, e)
  | none => if d.checked then .ok (false, e) else .error (.fieldOverflow d.field.range.max)

end Entry

end PagedKernel
