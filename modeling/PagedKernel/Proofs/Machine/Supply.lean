import PagedKernel.FrameAllocator
import Mathlib.Data.List.Nodup

/-!
# The supply of the allocator

What the allocator can still give is bounded by its free list and by its budget. Served requests
take the front of the free list; a frame that comes back goes there again.

* `FrameAllocator.supply`, `FrameAllocator.serve`: the requests that will still be served, and the
  allocator after some of them.
* `alloc_of_supply_pos`, `alloc_of_supply_eq_zero`: what a request gets.
* `release_of_mem`: what giving back does.
* `FrameAllocator.releaseAll`: frames that are given back one after another.
-/

namespace PagedKernel.FrameAllocator

/-- The number of requests that will still be served. -/
def supply (a : FrameAllocator) : Nat :=
  match a.budget with
  | none => a.free.length
  | some n => min n a.free.length

/-- The allocator after `n` requests were served. -/
def serve (n : Nat) (a : FrameAllocator) : FrameAllocator where
  free := a.free.drop n
  inUse := (a.free.take n).reverse ++ a.inUse
  budget := a.budget.map (· - n)

def refuse (a : FrameAllocator) : FrameAllocator := { a with budget := a.budget.map (· - 1) }

theorem supply_limitTo (n : Nat) (a : FrameAllocator) : (a.limitTo n).supply = min n a.free.length := rfl

theorem supply_le_length (a : FrameAllocator) : a.supply ≤ a.free.length := by
  unfold supply
  split
  · exact Nat.le_refl _
  · exact Nat.min_le_right _ _

theorem exists_free_of_supply {a : FrameAllocator} (h : 0 < a.supply) :
    ∃ f rest, a.free = f :: rest :=
  List.exists_cons_of_length_pos (Nat.lt_of_lt_of_le h a.supply_le_length)

theorem serve_zero (a : FrameAllocator) : a.serve 0 = a := by
  obtain ⟨free, inUse, budget⟩ := a
  cases budget <;> simp [serve]

theorem supply_serve (n : Nat) (a : FrameAllocator) : (a.serve n).supply = a.supply - n := by
  obtain ⟨free, inUse, budget⟩ := a
  cases budget with
  | none => simp [supply, serve]
  | some b =>
    simp only [supply, serve, Option.map_some, List.length_drop]
    omega

theorem serve_serve (m n : Nat) (a : FrameAllocator) : (a.serve m).serve n = a.serve (m + n) := by
  obtain ⟨free, inUse, budget⟩ := a
  cases budget with
  | none => simp [serve, List.drop_drop, List.take_add]
  | some b => simp [serve, List.drop_drop, List.take_add, Nat.sub_sub]

theorem alloc_of_supply_pos {a : FrameAllocator} {f : Frame} {rest : List Frame}
    (hFree : a.free = f :: rest) (hNew : f ∉ a.inUse) (h : 0 < a.supply) :
    a.alloc = (some f, a.serve 1) := by
  obtain ⟨free, inUse, budget⟩ := a
  obtain rfl : free = f :: rest := hFree
  cases budget with
  | none => simp_all [alloc, pop, serve]
  | some b =>
    obtain _ | b := b
    · simp [supply] at h
    · simp_all [alloc, pop, serve]

theorem alloc_of_supply_eq_zero {a : FrameAllocator} (h : a.supply = 0) :
    a.alloc = (none, a.refuse) := by
  obtain ⟨free, inUse, budget⟩ := a
  cases budget with
  | none =>
    obtain rfl : free = [] := by simpa [supply] using h
    rfl
  | some b =>
    obtain _ | b := b
    · rfl
    · obtain rfl : free = [] := by
        rw [← List.length_eq_zero_iff]
        simp only [supply] at h
        omega
      rfl

theorem release_of_mem {a : FrameAllocator} {f : Frame} (h : f ∈ a.inUse) :
    release f a = .ok () { a with free := f :: a.free, inUse := a.inUse.erase f } := by
  rw [release, if_pos h]

def releaseAll (fs : List Frame) (a : FrameAllocator) : FrameAllocator :=
  { a with free := fs.reverse ++ a.free, inUse := a.inUse.diff fs }

theorem releaseAll_append (fs gs : List Frame) (a : FrameAllocator) :
    a.releaseAll (fs ++ gs) = (a.releaseAll fs).releaseAll gs := by
  simp [releaseAll, List.diff_append]

theorem release_eq_releaseAll {a : FrameAllocator} {f : Frame} (h : f ∈ a.inUse) :
    release f a = .ok () (a.releaseAll [f]) := by
  simp [release_of_mem h, releaseAll, List.diff_cons]

end PagedKernel.FrameAllocator
