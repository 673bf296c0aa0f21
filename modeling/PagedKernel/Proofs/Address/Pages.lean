import Mathlib.Data.Prod.Lex
import PagedKernel.Proofs.Table.Entries

/-!
# Pages and offsets

An address is the start of its page and an offset, and every start of a page together with an offset is an
address. What holds of words in this respect holds of virtual and of physical addresses.

* `floor_add_offset`, `floor_of_add`, `offset_of_add`: a word is taken apart and put together.
* `lt_iff_toLex`: the order of words is that of their pages and then of their offsets.
* `Page.page_join`, `Frame.frame_join` and their like: the same of addresses.
* `VirtualAddress.isAligned_iff`: an address is aligned when it is a multiple of the page size.
* `Frame.number_ofNumber_iff`: the numbers that belong to frames.
-/

namespace PagedKernel

/-! ## Words -/

theorem toNat_floor (w : UInt64) : (w / 4096 * 4096).toNat = w.toNat / 4096 * 4096 :=
  VirtualAddress.toNat_base_page ⟨w⟩

theorem floor_add_offset (w : UInt64) : w / 4096 * 4096 + w % 4096 = w := by
  have hBound := w.toNat_lt
  apply UInt64.toNat_inj.1
  rw [UInt64.toNat_add, toNat_floor, UInt64.toNat_mod]
  simp only [UInt64.reduceToNat]
  omega

theorem floor_eq_iff {w : UInt64} : w / 4096 * 4096 = w ↔ w % 4096 = 0 := by
  refine ⟨fun h => h ▸ floor_mod_eq_zero w, fun h => ?_⟩
  have hSum := floor_add_offset w
  rwa [h, UInt64.add_zero] at hSum

section Joined

variable {w o : UInt64} (hw : w % 4096 = 0) (ho : o < 4096)

include hw ho

theorem toNat_parts : w.toNat % 4096 = 0 ∧ o.toNat < 4096 :=
  ⟨congrArg UInt64.toNat hw, UInt64.lt_iff_toNat_lt.1 ho⟩

/-- There is room for an offset behind the start of a page. -/
theorem toNat_add_offset : (w + o).toNat = w.toNat + o.toNat := by
  obtain ⟨hAligned, hOffset⟩ := toNat_parts hw ho
  have hBound := w.toNat_lt
  rw [UInt64.toNat_add]
  omega

theorem floor_of_add : (w + o) / 4096 * 4096 = w := by
  obtain ⟨hAligned, hOffset⟩ := toNat_parts hw ho
  apply UInt64.toNat_inj.1
  rw [toNat_floor, toNat_add_offset hw ho]
  omega

theorem offset_of_add : (w + o) % 4096 = o := by
  obtain ⟨hAligned, hOffset⟩ := toNat_parts hw ho
  apply UInt64.toNat_inj.1
  rw [UInt64.toNat_mod, toNat_add_offset hw ho]
  simp only [UInt64.reduceToNat]
  omega

end Joined

theorem mul_add_lt_iff {m n x y b : Nat} (hx : x < b) (hy : y < b) :
    m * b + x < n * b + y ↔ m < n ∨ m = n ∧ x < y := by
  rcases Nat.lt_trichotomy m n with hLt | rfl | hGt
  · have hStep : (m + 1) * b ≤ n * b := Nat.mul_le_mul_right b hLt
    rw [Nat.succ_mul] at hStep
    exact iff_of_true (by omega) (Or.inl hLt)
  · simp
  · have hStep : (n + 1) * b ≤ m * b := Nat.mul_le_mul_right b hGt
    rw [Nat.succ_mul] at hStep
    exact iff_of_false (by omega) (by omega)

/-- Words are in the order of their pages, and on one page in the order of their offsets. -/
theorem lt_iff_toLex (w v : UInt64) :
    w < v ↔ toLex (w / 4096 * 4096, w % 4096) < toLex (v / 4096 * 4096, v % 4096) := by
  have hW := Nat.mod_lt w.toNat (show 4096 > 0 by decide)
  have hV := Nat.mod_lt v.toNat (show 4096 > 0 by decide)
  have hLex := mul_add_lt_iff (m := w.toNat / 4096) (n := v.toNat / 4096) hW hV
  rw [Prod.Lex.toLex_lt_toLex, ← UInt64.toNat_inj, UInt64.lt_iff_toNat_lt, UInt64.lt_iff_toNat_lt,
    UInt64.lt_iff_toNat_lt, toNat_floor, toNat_floor, UInt64.toNat_mod, UInt64.toNat_mod]
  simp only [UInt64.reduceToNat]
  omega

/-! ## Virtual addresses -/

theorem VirtualAddress.toNat_offset (a : VirtualAddress) : a.offset.val.toNat = a.val.toNat % 4096 :=
  UInt64.toNat_mod ..

theorem VirtualAddress.isAligned_iff {a : VirtualAddress} : a.isAligned = true ↔ a.val.toNat % 4096 = 0 := by
  rw [isAligned, beq_iff_eq, ← UInt64.toNat_inj, UInt64.toNat_mod]
  rfl

theorem VirtualAddress.join_page_offset (a : VirtualAddress) : a.page.join a.offset = a :=
  VirtualAddress.ext (floor_add_offset a.val)

theorem VirtualAddress.base_page_eq_iff {a : VirtualAddress} : a.page.base = a ↔ a.val % 4096 = 0 := by
  rw [VirtualAddress.ext_iff, ← floor_eq_iff]
  rfl

namespace Page

theorem page_join (p : Page) (o : PageOffset) : (p.join o).page = p :=
  Page.ext (VirtualAddress.ext (floor_of_add p.aligned o.lt))

theorem offset_join (p : Page) (o : PageOffset) : (p.join o).offset = o :=
  PageOffset.ext (offset_of_add p.aligned o.lt)

/-- Only the start of a page is taken for one. -/
theorem ofAligned?_eq_some {a : VirtualAddress} {p : Page} :
    ofAligned? a = some p ↔ a.page.base = a ∧ p = a.page := by
  rw [VirtualAddress.base_page_eq_iff]
  by_cases h : a.val % 4096 = 0
  · have hSelf : (⟨a, h⟩ : Page) = a.page := Page.ext (VirtualAddress.base_page_eq_iff.2 h).symm
    rw [ofAligned?, dif_pos h, Option.some_inj, hSelf, and_iff_right h, eq_comm]
  · rw [ofAligned?, dif_neg h]
    simp [h]

end Page

/-! ## Physical addresses -/

theorem PhysicalAddress.join_frame_offset (a : PhysicalAddress) : a.frame.join a.offset = a :=
  PhysicalAddress.ext (floor_add_offset a.val)

theorem PhysicalAddress.base_frame_eq_iff {a : PhysicalAddress} : a.frame.base = a ↔ a.val % 4096 = 0 := by
  rw [PhysicalAddress.ext_iff, ← floor_eq_iff]
  rfl

namespace Frame

theorem toNat_join (f : Frame) (o : PageOffset) :
    (f.join o).val.toNat = f.base.val.toNat + o.val.toNat :=
  toNat_add_offset f.aligned o.lt

theorem frame_join (f : Frame) (o : PageOffset) : (f.join o).frame = f :=
  Frame.ext (PhysicalAddress.ext (floor_of_add f.aligned o.lt))

theorem offset_join (f : Frame) (o : PageOffset) : (f.join o).offset = o :=
  PageOffset.ext (offset_of_add f.aligned o.lt)

theorem ofAligned?_eq_some {a : PhysicalAddress} {f : Frame} :
    ofAligned? a = some f ↔ a.frame.base = a ∧ f = a.frame := by
  rw [PhysicalAddress.base_frame_eq_iff]
  by_cases h : a.val % 4096 = 0
  · have hSelf : (⟨a, h⟩ : Frame) = a.frame := Frame.ext (PhysicalAddress.base_frame_eq_iff.2 h).symm
    rw [ofAligned?, dif_pos h, Option.some_inj, hSelf, and_iff_right h, eq_comm]
  · rw [ofAligned?, dif_neg h]
    simp [h]

/-- Frames have numbers of 52 bits. -/
theorem number_ofNumber_iff {n : UInt64} : (ofNumber n).number = n ↔ n.toNat < 2 ^ 52 := by
  have hBound := n.toNat_lt
  rw [← UInt64.toNat_inj, ofNumber, number]
  simp only [UInt64.toNat_div, UInt64.toNat_mul, UInt64.reduceToNat]
  omega

end Frame

end PagedKernel
