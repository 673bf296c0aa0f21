import Mathlib.Data.List.Induction
import PagedKernel.Proofs.Address.Pages
import PagedKernel.Register.Cr3

/-!
# Roots and flags in a register

A register value holds the number of the root frame and two flags. The number has 40 bits, so a value can
be composed for the frames below 2 ^ 52 only; and the flags lie outside of it, so they can be switched at
will without moving the root.

* `Cr3.root_eq_of_bit_eq`: the root is read off the forty bits from bit 12 on.
* `Cr3.ofRoot_eq_ok`, `Cr3.ofRoot_eq_error`: the frames that a value can be composed for.
* `Cr3.Flag`, `Cr3.switch`, `Cr3.switchAll`: the flags, and switching them one after another.
* `Cr3.bit_switchAll`: a flag is as it was switched last, and every other bit is as it was.
* `encodings_invert`: pages and offsets, numbers of frames and register values can be read back.
-/

namespace PagedKernel

namespace Cr3

variable {r r' : Cr3}

/-! ## The root -/

theorem root_eq_of_bit_eq (h : ∀ i, 12 ≤ i → i < 52 → bit r'.bits i = bit r.bits i) : r'.root = r.root := by
  have hNumber : rootNumber.get r'.bits = rootNumber.get r.bits := by
    apply eq_of_bit_eq
    intro i _
    rw [WordField.bit_get, WordField.bit_get]
    by_cases hi : i < 40
    · rw [h (rootNumber.shift + i) (Nat.le_add_right 12 i) (Nat.add_lt_add_left hi 12)]
    · rw [decide_eq_false (show ¬ i < rootNumber.width from hi), Bool.false_and, Bool.false_and]
  rw [root, root, hNumber]

/-- The number of a frame has forty bits just when the frame lies below 2 ^ 52. -/
theorem number_le_iff {f : Frame} : f.number ≤ rootNumber.max ↔ f.base.val.toNat < 2 ^ 52 := by
  have hMax : rootNumber.max.toNat = 2 ^ 40 - 1 := rfl
  have hBase := f.toNat_number
  rw [UInt64.le_iff_toNat_le]
  omega

theorem ofRoot_eq_ok {f : Frame} (h : f.base.val.toNat < 2 ^ 52) : ∃ r, ofRoot f = .ok r ∧ r.root = f := by
  have hLe := number_le_iff.2 h
  refine ⟨_, if_pos hLe, ?_⟩
  rw [root, rootNumber.get_put 0 hLe, Frame.ofNumber_number]

theorem ofRoot_eq_error {f : Frame} (h : 2 ^ 52 ≤ f.base.val.toNat) :
    ofRoot f = .error (.fieldOverflow 0xffffffffff) :=
  if_neg fun hLe => Nat.not_lt.2 h (number_le_iff.1 hLe)

/-! ## The flags -/

inductive Flag where
  | writeThrough
  | cacheDisable
deriving DecidableEq

def Flag.place : Flag → Nat
  | writeThrough => 3
  | cacheDisable => 4

def has (r : Cr3) : Flag → Bool
  | .writeThrough => r.writesThrough
  | .cacheDisable => r.bypassesCache

def switch (r : Cr3) : Flag → Bool → Cr3
  | .writeThrough, on => r.setWriteThrough on
  | .cacheDisable, on => r.setCacheDisable on

def switchAll (r : Cr3) (edits : List (Flag × Bool)) : Cr3 := edits.foldl (fun r p => r.switch p.1 p.2) r

/-- How a flag was switched last, if it was. -/
def lastSwitched (flag : Flag) (edits : List (Flag × Bool)) : Option Bool :=
  (edits.filter (·.1 = flag)).getLast?.map (·.2)

theorem get_flag_ne_zero (i : BitVec 6) (w : UInt64) : ((WordField.flag i).get w != 0) = bit w i.toNat := by
  have hFirst : bit ((WordField.flag i).get w) 0 = bit w i.toNat := by
    rw [WordField.bit_get]
    rfl
  have hOther : ∀ j, j ≠ 0 → bit ((WordField.flag i).get w) j = false := by
    intro j hj
    rw [WordField.bit_get, decide_eq_false (show ¬ j < (WordField.flag i).width from
      fun hLt => hj (Nat.lt_one_iff.1 hLt)), Bool.false_and]
  cases hBit : bit w i.toNat with
  | true =>
    refine bne_iff_ne.2 fun hZero => ?_
    rw [hZero, hBit] at hFirst
    exact absurd hFirst (by decide)
  | false =>
    refine bne_eq_false_iff_eq.2 (eq_of_bit_eq fun j _ => ?_)
    by_cases hj : j = 0
    · rw [hj, hFirst, hBit]
      rfl
    · rw [hOther j hj]
      simp [bit]

theorem bit_put_flag (i : BitVec 6) (w : UInt64) (on : Bool) (j : Nat) :
    bit ((WordField.flag i).put w (if on then 1 else 0)) j = if j = i.toNat then on else bit w j := by
  have hRange : i.toNat ≤ j ∧ j < i.toNat + 1 ↔ j = i.toNat := by omega
  rw [WordField.bit_put]
  simp only [WordField.flag, hRange]
  by_cases hj : j = i.toNat
  · rw [if_pos hj, if_pos hj, hj, Nat.sub_self]
    cases on <;> rfl
  · rw [if_neg hj, if_neg hj]

theorem has_eq_bit (r : Cr3) (flag : Flag) : r.has flag = bit r.bits flag.place := by
  cases flag with
  | writeThrough => exact get_flag_ne_zero 3 r.bits
  | cacheDisable => exact get_flag_ne_zero 4 r.bits

theorem bit_switch (r : Cr3) (flag : Flag) (on : Bool) (i : Nat) :
    bit (r.switch flag on).bits i = if i = flag.place then on else bit r.bits i := by
  cases flag with
  | writeThrough => exact bit_put_flag 3 r.bits on i
  | cacheDisable => exact bit_put_flag 4 r.bits on i

theorem Flag.place_inj {flag flag' : Flag} : flag.place = flag'.place ↔ flag = flag' := by
  cases flag <;> cases flag' <;> decide

theorem lastSwitched_append (flag : Flag) (edits : List (Flag × Bool)) (edit : Flag × Bool) :
    lastSwitched flag (edits ++ [edit]) =
      if edit.1 = flag then some edit.2 else lastSwitched flag edits := by
  by_cases h : edit.1 = flag <;> simp [lastSwitched, List.filter_append, h]

/-- The bit of a flag is as the flag was switched last. -/
theorem bit_switchAll (r : Cr3) (edits : List (Flag × Bool)) (flag : Flag) :
    bit (r.switchAll edits).bits flag.place = (lastSwitched flag edits).getD (bit r.bits flag.place) := by
  induction edits using List.reverseRecOn with
  | nil => rfl
  | append_singleton edits edit ih =>
    rw [switchAll, List.foldl_append, List.foldl_cons, List.foldl_nil, bit_switch, ← switchAll,
      lastSwitched_append, ih]
    by_cases h : edit.1 = flag
    · rw [if_pos (congrArg Flag.place h.symm), if_pos h, Option.getD_some]
    · rw [if_neg fun hPlace => h (Flag.place_inj.1 hPlace.symm), if_neg h]

theorem bit_switchAll_of_ne (r : Cr3) (edits : List (Flag × Bool)) {i : Nat} (h : ∀ flag : Flag, i ≠ flag.place) :
    bit (r.switchAll edits).bits i = bit r.bits i := by
  induction edits generalizing r with
  | nil => rfl
  | cons edit edits ih =>
    rw [switchAll, List.foldl_cons, ← switchAll, ih, bit_switch, if_neg (h edit.1)]

end Cr3

open Cr3 in
/-- An address is read back from its page and its offset, and these from it; the order of addresses is that of
their pages and then of their offsets; and just the starts of pages are taken for pages. A frame is read back
from its number, and every number of 52 bits from its frame. A register value can be composed for the frames
below 2 ^ 52, whose root is then that frame, and for no others. Switching the two flags of a value, however
often, leaves its root and all other bits alone, and each flag is as it was switched last. -/
theorem encodings_invert :
    ((∀ a : VirtualAddress, a.page.join a.offset = a) ∧ ∀ a : PhysicalAddress, a.frame.join a.offset = a) ∧
    (∀ w : UInt64, w < 4096 → ∃ o : PageOffset, PageOffset.ofWord w = .ok o ∧ o.val = w ∧
      (∀ p : Page, (p.join o).page = p ∧ (p.join o).offset = o) ∧
      ∀ f : Frame, (f.join o).frame = f ∧ (f.join o).offset = o) ∧
    ((∀ a b : VirtualAddress, a.val < b.val ↔
        toLex (a.page.base.val, a.offset.val) < toLex (b.page.base.val, b.offset.val)) ∧
      ∀ a b : PhysicalAddress, a.val < b.val ↔
        toLex (a.frame.base.val, a.offset.val) < toLex (b.frame.base.val, b.offset.val)) ∧
    ((∀ (a : VirtualAddress) (p : Page), Page.ofAligned? a = some p ↔ a.page.base = a ∧ p = a.page) ∧
      ∀ (a : PhysicalAddress) (f : Frame), Frame.ofAligned? a = some f ↔ a.frame.base = a ∧ f = a.frame) ∧
    ((∀ f : Frame, Frame.ofNumber f.number = f) ∧
      ∀ n : UInt64, (Frame.ofNumber n).number = n ↔ n.toNat < 2 ^ 52) ∧
    ((∀ f : Frame, f.base.val.toNat < 2 ^ 52 → ∃ r, ofRoot f = .ok r ∧ r.root = f) ∧
      ∀ f : Frame, 2 ^ 52 ≤ f.base.val.toNat → ofRoot f = .error (.fieldOverflow 0xffffffffff)) ∧
    ∀ (r : Cr3) (edits : List (Flag × Bool)),
      (r.switchAll edits).root = r.root ∧
      (∀ i, i ≠ 3 → i ≠ 4 → bit (r.switchAll edits).bits i = bit r.bits i) ∧
      ∀ flag, (r.switchAll edits).has flag = (lastSwitched flag edits).getD (r.has flag) := by
  refine ⟨⟨VirtualAddress.join_page_offset, PhysicalAddress.join_frame_offset⟩, fun w hw => ?_,
    ⟨fun a b => lt_iff_toLex a.val b.val, fun a b => lt_iff_toLex a.val b.val⟩,
    ⟨fun _ _ => Page.ofAligned?_eq_some, fun _ _ => Frame.ofAligned?_eq_some⟩,
    ⟨Frame.ofNumber_number, fun _ => Frame.number_ofNumber_iff⟩,
    ⟨fun _ => ofRoot_eq_ok, fun _ => ofRoot_eq_error⟩, fun r edits => ?_⟩
  · have hOffset : PageOffset.ofWord w = .ok ⟨w, hw⟩ := by
      rw [PageOffset.ofWord, PageOffset.ofWord?, dif_pos hw, demand]
    exact ⟨⟨w, hw⟩, hOffset, rfl, fun p => ⟨p.page_join _, p.offset_join _⟩,
      fun f => ⟨f.frame_join _, f.offset_join _⟩⟩
  · have hOther : ∀ i, i ≠ 3 → i ≠ 4 → bit (r.switchAll edits).bits i = bit r.bits i := by
      intro i hThree hFour
      refine bit_switchAll_of_ne r edits fun flag => ?_
      cases flag with
      | writeThrough => exact hThree
      | cacheDisable => exact hFour
    refine ⟨root_eq_of_bit_eq fun i hLow _ => hOther i (by omega) (by omega), hOther, fun flag => ?_⟩
    rw [has_eq_bit, has_eq_bit, bit_switchAll]

open Cr3 in
/-- The last byte of a page has the largest offset. Frame 5 can be a root, and the frame at 2 ^ 52 is the first
that cannot. Of three switches the last one of each flag counts, and the root is still frame 5. -/
theorem encodings_invert_five : ∃ (o : PageOffset) (r : Cr3), (0xfff : UInt64) < 4096 ∧
    PageOffset.ofWord 0xfff = .ok o ∧ ((⟨0x400fff⟩ : VirtualAddress).page.join o).offset = o ∧
    (Frame.ofNumber 5).base.val.toNat < 2 ^ 52 ∧ ofRoot (Frame.ofNumber 5) = .ok r ∧
    2 ^ 52 ≤ (Frame.ofNumber 0x10000000000).base.val.toNat ∧
    ofRoot (Frame.ofNumber 0x10000000000) = .error (.fieldOverflow 0xffffffffff) ∧
    (r.switchAll [(.writeThrough, true), (.cacheDisable, true), (.writeThrough, false)]).root =
      Frame.ofNumber 5 ∧
    bit (r.switchAll [(.writeThrough, true), (.cacheDisable, true), (.writeThrough, false)]).bits 12 =
      bit r.bits 12 ∧
    (r.switchAll [(.writeThrough, true), (.cacheDisable, true), (.writeThrough, false)]).has .writeThrough =
      false ∧
    (r.switchAll [(.writeThrough, true), (.cacheDisable, true), (.writeThrough, false)]).has .cacheDisable =
      true := by
  obtain ⟨-, hOffset, -, -, -, ⟨hRoot, hRefused⟩, hSwitch⟩ := encodings_invert
  obtain ⟨o, hWord, -, hPage, -⟩ := hOffset 0xfff (by decide)
  obtain ⟨r, hOk, hSame⟩ := hRoot (Frame.ofNumber 5) (by decide)
  obtain ⟨hKept, hBit, hFlag⟩ :=
    hSwitch r [(.writeThrough, true), (.cacheDisable, true), (.writeThrough, false)]
  exact ⟨o, r, by decide, hWord, (hPage _).2, by decide, hOk, by decide, hRefused _ (by decide),
    hKept.trans hSame, hBit 12 (by decide) (by decide), hFlag .writeThrough, hFlag .cacheDisable⟩

end PagedKernel
