import PagedKernel.Limits

/-!
# Tables of open files

A process names its open files by descriptors. Those below `firstFileDescriptor` belong to the
console and never name a file; the others, up to the size of the table, each name at most one.

* `DescriptorTable.install`: give a file the lowest free descriptor.
* `DescriptorTable.get?`, `replace`, `remove`, `isOpen`: the file of a descriptor.
* `DescriptorTable.drain`, `takeFirst`: take out all files, or the first few, lowest descriptor
  first.
-/

namespace PagedKernel

/-- The open files of a process, by descriptor. -/
structure DescriptorTable (F : Type) where
  /-- The file of each descriptor, from `firstFileDescriptor` on. -/
  slots : List (Option F)
deriving DecidableEq

namespace DescriptorTable

variable {F : Type}

/-- The table of `size` descriptors, those of the console included, without open files. -/
def ofSize (size : Nat) : DescriptorTable F := ⟨List.replicate (size - firstFileDescriptor) none⟩

def descriptor (k : Nat) : Int := Int.ofNat (firstFileDescriptor + k)

/-- The slot of a descriptor, if it can name a file. -/
def slot? (t : DescriptorTable F) (fd : Int) : Option Nat :=
  if descriptor 0 ≤ fd ∧ fd < descriptor t.slots.length then some (fd - descriptor 0).toNat
  else none

def get? (t : DescriptorTable F) (fd : Int) : Option F :=
  (t.slot? fd).bind fun k => (t.slots[k]?).join

def isOpen (t : DescriptorTable F) (fd : Int) : Bool := (t.get? fd).isSome

/-- The table with the slot of a descriptor overwritten, if it has one. -/
def put (t : DescriptorTable F) (fd : Int) (f : Option F) : DescriptorTable F :=
  match t.slot? fd with
  | some k => ⟨t.slots.set k f⟩
  | none => t

/-- Give a file the lowest free descriptor. It is handed back when every descriptor is taken. -/
def install (t : DescriptorTable F) (f : F) : Except F (Int × DescriptorTable F) :=
  match t.slots.findIdx? (·.isNone) with
  | some k => .ok (descriptor k, ⟨t.slots.set k (some f)⟩)
  | none => .error f

/-- Put a file in the place of an open one. The answer is the file that was there. -/
def replace (t : DescriptorTable F) (fd : Int) (f : F) : Option F × DescriptorTable F :=
  match t.get? fd with
  | some old => (some old, t.put fd (some f))
  | none => (none, t)

def remove (t : DescriptorTable F) (fd : Int) : Option F × DescriptorTable F :=
  match t.get? fd with
  | some f => (some f, t.put fd none)
  | none => (none, t)

def files (t : DescriptorTable F) : List F := t.slots.filterMap id

def size (t : DescriptorTable F) : Nat := t.files.length

def isEmpty (t : DescriptorTable F) : Bool := t.size == 0

def descriptors (t : DescriptorTable F) : List Int :=
  ((List.range t.slots.length).map descriptor).filter t.isOpen

def takeSlots : Nat → List (Option F) → List F × List (Option F)
  | _, [] => ([], [])
  | 0, slots => ([], slots)
  | n + 1, some f :: rest =>
    let (taken, rest) := takeSlots n rest
    (f :: taken, none :: rest)
  | n + 1, none :: rest =>
    let (taken, rest) := takeSlots (n + 1) rest
    (taken, none :: rest)

/-- Take the first `n` files out of the table, lowest descriptor first. The others stay. -/
def takeFirst (t : DescriptorTable F) (n : Nat) : List F × DescriptorTable F :=
  let (taken, slots) := takeSlots n t.slots
  (taken, ⟨slots⟩)

def drain (t : DescriptorTable F) : List F × DescriptorTable F :=
  (t.files, ⟨t.slots.map fun _ => none⟩)

end DescriptorTable

end PagedKernel
