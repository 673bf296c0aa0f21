import Mathlib.Algebra.Group.Nat.Defs
import PagedKernel.Table.Level

/-!
# The path of an address

A walk for an address takes one entry in each table. The indices that it takes, the last one first,
are the path of the address; what they leave over above a leaf table is the path of that table.

* `VirtualAddress.pathTo`, `VirtualAddress.path`: the path to a table, and to the page.
* `pathTo_pt_eq_iff`, `path_eq_iff`: on user addresses the path to the leaf table stands for the
  region of 2 MiB around the address, and the whole path for its page. `path_eq_iff_of_isKernel`: on
  kernel addresses, too.
* `InUserHalf`, `InKernelHalf`: the half of the root table where a path starts.
-/

namespace PagedKernel

namespace Level

/-- What holds of the leaf level, and of a level whenever it holds of the level below, holds of all
levels. -/
theorem descent {motive : Level → Prop} (leaf : motive .pt)
    (inner : ∀ level below, level.next? = some below → motive below → motive level)
    (level : Level) : motive level := by
  have hPd := inner .pd .pt rfl leaf
  have hPdpt := inner .pdpt .pd rfl hPd
  cases level with
  | pml4 => exact inner .pml4 .pdpt rfl hPdpt
  | pdpt => exact hPdpt
  | pd => exact hPd
  | pt => exact leaf

theorem next?_eq_none {level : Level} : level.next? = none ↔ level = .pt := by
  cases level <;> simp [next?]

theorem exists_next? {level : Level} (h : level ≠ .pt) : ∃ below, level.next? = some below :=
  Option.ne_none_iff_exists'.1 (mt next?_eq_none.1 h)

theorem ne_pt_of_next? {level below : Level} (h : level.next? = some below) : level ≠ .pt := by
  rintro rfl
  cases h

theorem ne_pt_of_height {level : Level} (h : 0 < level.height) : level ≠ .pt := by
  rintro rfl
  exact absurd h (Nat.lt_irrefl 0)

theorem height_eq_zero {level : Level} : level.height = 0 ↔ level = .pt := by
  cases level <;> simp [height]

theorem height_le (level : Level) : level.height ≤ 3 := by
  cases level <;> decide

theorem height_of_next? {level below : Level} (h : level.next? = some below) :
    level.height = below.height + 1 := by
  cases level <;> cases h <;> rfl

theorem depth_of_next? {level below : Level} (h : level.next? = some below) :
    below.depth = level.depth + 1 := by
  cases level <;> cases h <;> rfl

theorem depth_inj {level l : Level} (h : level.depth = l.depth) : level = l := by
  revert h
  cases level <;> cases l <;> decide

theorem depth_lt (level : Level) : level.depth < 4 := by
  cases level <;> decide

theorem exists_depth {n : Nat} (h : n < 4) : ∃ level : Level, n = level.depth := by
  match n, h with
  | 0, _ => exact ⟨.pml4, rfl⟩
  | 1, _ => exact ⟨.pdpt, rfl⟩
  | 2, _ => exact ⟨.pd, rfl⟩
  | 3, _ => exact ⟨.pt, rfl⟩

theorem val_indexOf (level : Level) (a : VirtualAddress) :
    (level.indexOf a).val = a.val.toNat / 2 ^ level.shift % 512 := by
  simp only [indexOf, UInt64.toNat_mod, UInt64.toNat_div, toNat_span, Nat.one_shiftLeft,
    UInt64.reduceToNat]

end Level

theorem Page.page_base (p : Page) : p.base.page = p := by
  have hAligned := congrArg UInt64.toNat p.aligned
  simp only [UInt64.toNat_mod, UInt64.reduceToNat] at hAligned
  rw [Page.ext_iff, VirtualAddress.ext_iff, ← UInt64.toNat_inj, VirtualAddress.toNat_base_page]
  omega

theorem kernelRootStart_eq : kernelRootStart = 256 := by decide

/-- The path starts in the user half of the root table, or stays there. -/
def InUserHalf (path : List TableIndex) : Prop := ∀ i ∈ path.getLast?, i.val < kernelRootStart

def InKernelHalf (path : List TableIndex) : Prop := ∀ i ∈ path.getLast?, kernelRootStart ≤ i.val

namespace VirtualAddress

variable {a b : VirtualAddress}

/-- The low 48 bits stay, and those above them are all set or all clear. -/
theorem toNat_signExtend (w : UInt64) : (signExtend w).val.toNat =
    w.toNat % 2 ^ 48 + if w.toNat % 2 ^ 48 < 2 ^ 47 then 0 else 0xffff000000000000 := by
  have hMod : (w % 0x1000000000000).toNat = w.toNat % 2 ^ 48 := rfl
  have hLow : w % 0x1000000000000 < 0x800000000000 ↔ w.toNat % 2 ^ 48 < 2 ^ 47 :=
    UInt64.lt_iff_toNat_lt
  by_cases h : w.toNat % 2 ^ 48 < 2 ^ 47
  · rw [signExtend, if_pos (hLow.2 h), if_pos h]
    exact hMod
  · rw [signExtend, if_neg (mt hLow.1 h), if_neg h]
    simp only [UInt64.toNat_add, hMod, UInt64.reduceToNat]
    omega

theorem isCanonical_iff : a.isCanonical = true ↔ signExtend a.val = a := by
  rw [isCanonical, beq_iff_eq]

/-- The indices that lead to the table of `a` at a level, the last one first. -/
def pathTo (a : VirtualAddress) : Level → List TableIndex
  | .pml4 => []
  | .pdpt => [Level.pml4.indexOf a]
  | .pd => [Level.pdpt.indexOf a, Level.pml4.indexOf a]
  | .pt => [Level.pd.indexOf a, Level.pdpt.indexOf a, Level.pml4.indexOf a]

/-- The indices that lead to the page of `a`, the last one first. -/
def path (a : VirtualAddress) : List TableIndex := Level.pt.indexOf a :: a.pathTo .pt

/-- The number of the 2 MiB that one leaf table covers. -/
def region (a : VirtualAddress) : Nat := a.val.toNat / 2 ^ 21

theorem pathTo_of_next? {level below : Level} (h : level.next? = some below) :
    a.pathTo below = level.indexOf a :: a.pathTo level := by
  cases level <;> cases h <;> rfl

@[simp] theorem length_pathTo (level : Level) : (a.pathTo level).length = level.depth := by
  cases level <;> rfl

theorem length_pathTo_lt (level : Level) : (a.pathTo level).length < 4 := by
  rw [length_pathTo]
  exact level.depth_lt

theorem length_pathTo_lt_of_next? {level below : Level} (h : level.next? = some below) :
    (a.pathTo level).length < 3 := by
  have hDepth := Level.depth_of_next? h
  have hBelow := below.depth_lt
  rw [length_pathTo]
  omega

theorem pathTo_suffix (a : VirtualAddress) {l level : Level} (h : l.depth ≤ level.depth) :
    a.pathTo l <:+ a.pathTo level := by
  cases l <;> cases level <;> simp [pathTo, Level.depth, List.suffix_cons_iff] at h ⊢

theorem inUserHalf_pathTo (h : (Level.pml4.indexOf a).val < kernelRootStart) (level : Level) :
    InUserHalf (a.pathTo level) := by
  cases level <;> simp [InUserHalf, pathTo, h]

theorem inKernelHalf_pathTo (h : kernelRootStart ≤ (Level.pml4.indexOf a).val) (level : Level) :
    InKernelHalf (a.pathTo level) := by
  cases level <;> simp [InKernelHalf, pathTo, h]

theorem toNat_lt_of_isUser (h : a.isUser = true) : a.val.toNat < 2 ^ 47 := by
  have hLt : a.val < userSpaceEnd := by simpa [isUser] using h
  exact UInt64.lt_iff_toNat_lt.1 hLt

theorem isUser_of_toNat_lt (h : a.val.toNat < 2 ^ 47) : a.isUser = true := by
  have hLt : a.val < userSpaceEnd := UInt64.lt_iff_toNat_lt.2 h
  simpa [isUser] using hLt

theorem indexOf_pml4_lt (h : a.isUser = true) :
    (Level.pml4.indexOf a).val < kernelRootStart := by
  have hLt := toNat_lt_of_isUser h
  rw [kernelRootStart_eq, Level.val_indexOf, Level.shift]
  omega

theorem toNat_ge_of_isKernel (h : a.isKernel = true) : 0xffff800000000000 ≤ a.val.toNat := by
  have hLe : kernelSpaceStart ≤ a.val := by simpa [isKernel] using h
  exact UInt64.le_iff_toNat_le.1 hLe

theorem le_indexOf_pml4 (h : a.isKernel = true) :
    kernelRootStart ≤ (Level.pml4.indexOf a).val := by
  have hNat := toNat_ge_of_isKernel h
  have hBound := a.val.toNat_lt
  rw [kernelRootStart_eq, Level.val_indexOf, Level.shift]
  omega

theorem pathTo_pt_eq_iff (ha : a.isUser = true) (hb : b.isUser = true) :
    a.pathTo .pt = b.pathTo .pt ↔ a.region = b.region := by
  have hA := toNat_lt_of_isUser ha
  have hB := toNat_lt_of_isUser hb
  simp only [pathTo, List.cons.injEq, and_true, Fin.ext_iff, Level.val_indexOf, Level.shift, region]
  omega

theorem page_eq_iff : a.page = b.page ↔ a.val.toNat / 4096 = b.val.toNat / 4096 := by
  rw [Page.ext_iff, VirtualAddress.ext_iff, ← UInt64.toNat_inj, toNat_base_page, toNat_base_page]
  omega

/-- Where the bits above the indices are the same, the path stands for the page. -/
theorem path_eq_iff_of_high (h : a.val.toNat / 2 ^ 48 = b.val.toNat / 2 ^ 48) :
    a.path = b.path ↔ a.page = b.page := by
  simp only [page_eq_iff, path, pathTo, List.cons.injEq, and_true, Fin.ext_iff, Level.val_indexOf,
    Level.shift]
  omega

theorem path_eq_iff (ha : a.isUser = true) (hb : b.isUser = true) :
    a.path = b.path ↔ a.page = b.page := by
  have hA := toNat_lt_of_isUser ha
  have hB := toNat_lt_of_isUser hb
  exact path_eq_iff_of_high (by omega)

theorem path_eq_iff_of_isKernel (ha : a.isKernel = true) (hb : b.isKernel = true) :
    a.path = b.path ↔ a.page = b.page := by
  have hA := toNat_ge_of_isKernel ha
  have hB := toNat_ge_of_isKernel hb
  have hBoundA := a.val.toNat_lt
  have hBoundB := b.val.toNat_lt
  exact path_eq_iff_of_high (by omega)

end VirtualAddress

end PagedKernel
