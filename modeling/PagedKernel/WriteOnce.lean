/-!
# A cell that is assigned once

The first value that is offered to the cell stays in it for good; later offers are refused and
handed back. A value is first written and then shown, so that those who look in between find nothing.

* `WriteOnce.get`, `WriteOnce.set`: look at the cell, offer it a value.
* `WriteOnce.drop`: the values that go with the cell.
* `WriteOnce.Step`, `WriteOnce.run`: a history of the cell, with the values that nobody holds any
  more.
-/

namespace PagedKernel

inductive WriteOnce.Stage where
  | empty
  /-- Somebody has taken the cell, but shows no value yet. -/
  | writing
  | full
deriving DecidableEq

/-- A cell that holds at most one value, and keeps the first. -/
structure WriteOnce (α : Type) where
  stage : WriteOnce.Stage
  storage : Option α
  written : stage = .full → storage.isSome
deriving DecidableEq

namespace WriteOnce

variable {α : Type}

def empty : WriteOnce α := ⟨.empty, none, nofun⟩

def value (c : WriteOnce α) (h : c.stage = .full) : α := c.storage.get (c.written h)

def get (c : WriteOnce α) : Option α := if h : c.stage = .full then some (c.value h) else none

def beginInit (c : WriteOnce α) : Option (WriteOnce α) :=
  if c.stage = .empty then some ⟨.writing, c.storage, nofun⟩ else none

/-- Put a value in the place of what is there, which is forgotten. -/
def write (c : WriteOnce α) (a : α) : WriteOnce α :=
  { c with storage := some a, written := fun _ => rfl }

def publish (c : WriteOnce α) (a : α) : WriteOnce α :=
  { c.write a with stage := .full, written := fun _ => rfl }

/-- Offer a value. The answer is the value now in the cell, or the offer handed back. -/
def set (c : WriteOnce α) (a : α) : Except α α × WriteOnce α :=
  match c.beginInit with
  | none => (.error a, c)
  | some c => (.ok ((c.publish a).value rfl), c.publish a)

/-- The values that go with the cell. -/
def drop (c : WriteOnce α) : List α := if h : c.stage = .full then [c.value h] else []

inductive Step (α : Type) where
  | get
  | set (a : α)
deriving DecidableEq

inductive Answer (α : Type) where
  | found (a : Option α)
  | accepted (a : α)
  | refused (a : α)
deriving DecidableEq

def step (c : WriteOnce α) : Step α → Answer α × WriteOnce α
  | .get => (.found c.get, c)
  | .set a =>
    match c.set a with
    | (.ok b, c) => (.accepted b, c)
    | (.error b, c) => (.refused b, c)

/-- The values that an answer leaves with nobody. -/
def Answer.dropped : Answer α → List α
  | .refused a => [a]
  | _ => []

/-- Steps in order, after each of which its answer is dropped. Every answer comes with all values
dropped so far; at the end stands the cell with the same record. -/
def runFrom (c : WriteOnce α) (dropped : List α) :
    List (Step α) → List (Answer α × List α) × WriteOnce α × List α
  | [] => ([], c, dropped)
  | s :: rest =>
    let (answer, c) := c.step s
    let dropped := dropped ++ answer.dropped
    let (answers, last) := runFrom c dropped rest
    ((answer, dropped) :: answers, last)

/-- The life of a cell that starts empty and is dropped at the end: the answers, and the values
dropped in order. -/
def run (steps : List (Step α)) : List (Answer α × List α) × List α :=
  let (answers, c, dropped) := runFrom empty [] steps
  (answers, dropped ++ c.drop)

end WriteOnce

end PagedKernel
