import PagedKernel.Table.Entry

/-!
# Page tables

A page table is one frame of 512 entries.

* `PageTable.get`, `PageTable.set`: one entry.
* `PageTable.used`: the entries that are not zero, with their indices.
-/

namespace PagedKernel

structure PageTable where
  entries : Vector Entry 512
deriving DecidableEq

namespace PageTable

def zeroed : PageTable := ⟨Vector.replicate 512 .empty⟩

def get (t : PageTable) (i : TableIndex) : Entry := t.entries[i]

def set (t : PageTable) (i : TableIndex) (e : Entry) : PageTable := ⟨t.entries.set i e⟩

/-- The entries that are not zero, ascending. -/
def used (t : PageTable) : List (TableIndex × Entry) :=
  (TableIndex.all.map fun i => (i, t.get i)).filter fun p => p.2 != .empty

@[simp] theorem get_zeroed (i : TableIndex) : zeroed.get i = .empty := by
  simp [zeroed, get]

theorem get_set (t : PageTable) (i j : TableIndex) (e : Entry) :
    (t.set i e).get j = if j = i then e else t.get j := by
  simp only [get, set, Fin.getElem_fin, Vector.getElem_set, Fin.val_inj, eq_comm]

end PageTable

end PagedKernel
