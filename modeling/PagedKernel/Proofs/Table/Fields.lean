import PagedKernel.Proofs.Machine.Steps
import PagedKernel.Proofs.Table.Entries

/-!
# The fields of an entry

The fourteen fields of an entry divide its 64 bits among them: every bit lies in exactly one. An entry is
therefore known by its fields, and an edit of one field is known by what it does to each.

* `WordField.Covers`, `Entry.Field.existsUnique_covers`: the bits of a field, and the field of a bit.
* `Entry.ext_get`: entries with the same fields are the same.
* `Entry.Edited`: one field has a new value, and all else is as it was. `Entry.Edited.eq` and
  `Entry.Edited.comm`: there is one such entry, and edits of different fields can change places.
* `Entry.Edit.inPlace`: an edit of an entry that somebody holds.
* `Entry.edits_one_field`: what the four ways to edit a field do.
-/

namespace PagedKernel

open Stateful

/-! ## Bits of a field -/

namespace WordField

variable {f g : WordField} {i : Nat}

def Covers (f : WordField) (i : Nat) : Prop := f.shift ≤ i ∧ i < f.shift + f.width

instance (f : WordField) (i : Nat) : Decidable (f.Covers i) := inferInstanceAs (Decidable (_ ∧ _))

theorem Disjoint.not_covers (h : f.Disjoint g) (hi : f.Covers i) : ¬ g.Covers i := by
  unfold Disjoint at h
  unfold Covers at *
  omega

theorem le_max_iff (f : WordField) {v : UInt64} : v ≤ f.max ↔ v.toNat < 2 ^ f.width := by
  have hPos : 0 < 2 ^ f.width := Nat.two_pow_pos _
  rw [UInt64.le_iff_toNat_le, toNat_max, Nat.one_shiftLeft]
  omega

theorem get_le_max (f : WordField) (w : UInt64) : f.get w ≤ f.max := by
  rw [get, UInt64.le_iff_toNat_le, UInt64.toNat_and]
  exact Nat.and_le_right

theorem bit_eq_of_covers (hi : f.Covers i) (w : UInt64) : bit w i = bit (f.get w) (i - f.shift) := by
  obtain ⟨hLow, hHigh⟩ := hi
  rw [bit_get, decide_eq_true (by omega), Bool.true_and, Nat.add_sub_of_le hLow]

theorem bit_put_of_not_covers (hi : ¬ f.Covers i) (w v : UInt64) : bit (f.put w v) i = bit w i := by
  rw [bit_put]
  exact if_neg hi

end WordField

namespace Entry

variable {e e' e'' : Entry} {f g : Field} {v w : UInt64}

/-! ## The field of a bit -/

namespace Field

theorem mem_all (f : Field) : f ∈ all := by cases f <;> decide

theorem nodup_all : all.Nodup := by decide

/-- Every bit of a word belongs to one field, and to no other. -/
theorem existsUnique_covers {i : Nat} (h : i < 64) : ∃! f : Field, f.range.Covers i := by
  have hSome : ∀ i < 64, ∃ f ∈ all, f.range.Covers i := by decide
  obtain ⟨f, -, hf⟩ := hSome i h
  refine ⟨f, hf, fun g hg => ?_⟩
  by_contra hNe
  exact (range_disjoint hNe).not_covers hg hf

end Field

theorem ext_get (h : ∀ f, e'.get f = e.get f) : e' = e := by
  refine Entry.ext (eq_of_bit_eq fun i hi => ?_)
  obtain ⟨f, hf, -⟩ := Field.existsUnique_covers hi
  have hField : f.range.get e'.bits = f.range.get e.bits := h f
  rw [WordField.bit_eq_of_covers hf, WordField.bit_eq_of_covers hf, hField]

/-! ## One field after an edit -/

/-- One field of the entry has got the value `v`, and all else is as it was. -/
structure Edited (e : Entry) (f : Field) (v : UInt64) (e' : Entry) : Prop where
  get_eq : e'.get f = v
  get_other {g : Field} : g ≠ f → e'.get g = e.get g
  bit_eq {i : Nat} : ¬ f.range.Covers i → bit e'.bits i = bit e.bits i

theorem edited_put (e : Entry) (h : v ≤ f.range.max) : e.Edited f v (e.put f v) where
  get_eq := get_put e h
  get_other hNe := get_put_of_ne e (Ne.symm hNe) v
  bit_eq hi := WordField.bit_put_of_not_covers hi e.bits v

namespace Edited

theorem eq (h : e.Edited f v e') (h' : e.Edited f v e'') : e' = e'' := by
  refine ext_get fun g => ?_
  by_cases hg : g = f
  · subst hg
    rw [h.get_eq, h'.get_eq]
  · rw [h.get_other hg, h'.get_other hg]

theorem self (e : Entry) (f : Field) : e.Edited f (e.get f) e := ⟨rfl, fun _ => rfl, fun _ => rfl⟩

/-- Of two edits of a field the last one counts. -/
theorem trans (h : e.Edited f v e') (h' : e'.Edited f w e'') : e.Edited f w e'' where
  get_eq := h'.get_eq
  get_other hg := (h'.get_other hg).trans (h.get_other hg)
  bit_eq hi := (h'.bit_eq hi).trans (h.bit_eq hi)

/-- Edits of different fields can change places. -/
theorem comm {e₁ e₂ : Entry} (hNe : f ≠ g) (h : e.Edited f v e') (h₁ : e'.Edited g w e₁)
    (h' : e.Edited g w e'') (h₂ : e''.Edited f v e₂) : e₁ = e₂ := by
  refine ext_get fun k => ?_
  by_cases hf : k = f
  · subst hf
    rw [h₁.get_other hNe, h.get_eq, h₂.get_eq]
  by_cases hg : k = g
  · subst hg
    rw [h₁.get_eq, h₂.get_other hf, h'.get_eq]
  · rw [h₁.get_other hg, h.get_other hf, h₂.get_other hf, h'.get_other hg]

end Edited

/-! ## The ways to edit a field -/

/-- Change an entry where it is. The new entry is stored when the value was found to fit. -/
def Edit.inPlace (d : Edit) : Stateful Entry Bool := do
  let (accepted, e) ← d.apply (← MonadState.get)
  MonadState.set e
  return accepted

theorem Edit.inPlace_ok {d : Edit} {accepted : Bool} (h : d.apply e = .ok (accepted, e')) :
    d.inPlace e = .ok accepted e' := by
  rw [inPlace, get_bind, bind_ok (lift_ok h)]
  rfl

theorem Edit.inPlace_error {d : Edit} {violation : Violation} (h : d.apply e = .error violation) :
    d.inPlace e = .error violation e := by
  rw [inPlace, get_bind, bind_error (lift_error h)]

/-- A value that fits is stored, whichever way it comes. -/
theorem edits_of_fits (e : Entry) (h : v ≤ f.range.max) :
    e.set? f v = some (e.put f v) ∧ e.set f v = .ok (e.put f v) ∧
      ∀ checked, Edit.inPlace ⟨checked, f, v⟩ e = .ok true (e.put f v) := by
  have hSet : e.set? f v = some (e.put f v) := if_pos h
  refine ⟨hSet, by rw [set, hSet, demand], fun checked => Edit.inPlace_ok ?_⟩
  simp only [Edit.apply, hSet]

/-- A value that does not fit is refused, or it is a violation; the entry stays as it is. -/
theorem edits_of_not_fits (e : Entry) (h : ¬ v ≤ f.range.max) :
    e.set? f v = none ∧ e.set f v = .error (.fieldOverflow f.range.max) ∧
      Edit.inPlace ⟨true, f, v⟩ e = .ok false e ∧
      Edit.inPlace ⟨false, f, v⟩ e = .error (.fieldOverflow f.range.max) e := by
  have hSet : e.set? f v = none := if_neg h
  refine ⟨hSet, by rw [set, hSet, demand], Edit.inPlace_ok ?_, Edit.inPlace_error ?_⟩
  · simp only [Edit.apply, hSet, ↓reduceIte]
  · simp only [Edit.apply, hSet, Bool.false_eq_true, ↓reduceIte]

theorem get_present (h : e.present = true) : e.get .present = 1 := by
  have hLe : (e.get .present).toNat < 2 := (WordField.le_max_iff _).1 (WordField.get_le_max _ e.bits)
  have hNe : e.get .present ≠ 0 := by simpa [present, flag] using h
  rw [← UInt64.toNat_inj]
  rw [Ne, ← UInt64.toNat_inj] at hNe
  simp only [UInt64.toNat_zero, UInt64.toNat_one] at *
  omega

theorem exists_target {t : Frame} (h : t.number.toNat < 2 ^ 40) (writable : Bool) {c : Checked Entry}
    (hc : c ∈ [link t, userLeaf t writable, kernelLeaf t writable]) :
    ∃ e, c = .ok e ∧ e.target = .ok (some t) := by
  simp only [List.mem_cons, List.not_mem_nil, or_false] at hc
  obtain rfl | rfl | rfl := hc
  · exact ⟨_, link_eq h, target_compose true .user rfl (by decide) h⟩
  · exact ⟨_, userLeaf_eq h writable, target_compose writable .user rfl (by decide) h⟩
  · exact ⟨_, kernelLeaf_eq h writable, target_compose writable .global rfl (by decide) h⟩

/-- An entry that is no longer present hides its frame, and it is the same entry when it is present again. -/
theorem exists_hidden (h : e.present = true) :
    ∃ hidden, e.set .present 0 = .ok hidden ∧ hidden.target = .ok none ∧
      hidden.set .present 1 = .ok e := by
  have hHidden := edited_put e (show 0 ≤ Field.present.range.max by decide)
  have hAgain := edited_put (e.put .present 0) (show 1 ≤ Field.present.range.max by decide)
  have hSame : (e.put .present 0).put .present 1 = e := by
    refine (hHidden.trans hAgain).eq ?_
    rw [← get_present h]
    exact .self e .present
  obtain ⟨-, hSet, -⟩ := edits_of_fits e (show 0 ≤ Field.present.range.max by decide)
  obtain ⟨-, hSet', -⟩ := edits_of_fits (e.put .present 0) (show 1 ≤ Field.present.range.max by decide)
  refine ⟨_, hSet, target_eq_none.2 ?_, hSet'.trans (by rw [hSame])⟩
  rw [present, flag, hHidden.get_eq]
  rfl

/-- A value that has no more bits than a field is stored there, and nothing else changes; a value with more
bits is refused or a violation, and nothing changes at all. The fourteen fields divide the bits among them,
so that an entry is known by its fields and edits of different fields can change places. The entries that are
composed for a frame point at it. An entry that is not present hides its frame and keeps it. -/
theorem edits_one_field (e : Entry) :
    (∀ (f : Field) (v : UInt64), v.toNat < 2 ^ f.range.width →
      ∃ e', e.set f v = .ok e' ∧ e.set? f v = some e' ∧
        (∀ checked, Edit.inPlace ⟨checked, f, v⟩ e = .ok true e') ∧ e.Edited f v e') ∧
    (∀ (f : Field) (v : UInt64), 2 ^ f.range.width ≤ v.toNat →
      e.set f v = .error (.fieldOverflow f.range.max) ∧ e.set? f v = none ∧
        Edit.inPlace ⟨true, f, v⟩ e = .ok false e ∧
        Edit.inPlace ⟨false, f, v⟩ e = .error (.fieldOverflow f.range.max) e) ∧
    (Field.all.length = 14 ∧ Field.all.Nodup ∧ (∀ f, f ∈ Field.all) ∧
      ∀ i < 64, ∃! f : Field, f.range.Covers i) ∧
    (∀ e', (∀ f, e'.get f = e.get f) → e' = e) ∧
    (∀ (f g : Field) (v w : UInt64), f ≠ g → v.toNat < 2 ^ f.range.width →
      w.toNat < 2 ^ g.range.width →
      ∃ e', (e.set f v >>= (·.set g w)) = .ok e' ∧ (e.set g w >>= (·.set f v)) = .ok e') ∧
    (∀ (t : Frame) (writable : Bool), t.number.toNat < 2 ^ 40 →
      ∀ c ∈ [link t, userLeaf t writable, kernelLeaf t writable],
        ∃ e', c = .ok e' ∧ e'.target = .ok (some t)) ∧
    (e.present = true → ∃ hidden, e.set .present 0 = .ok hidden ∧ hidden.target = .ok none ∧
      hidden.set .present 1 = .ok e) := by
  refine ⟨fun f v hFits => ?_, fun f v hFits => ?_, ⟨rfl, Field.nodup_all, Field.mem_all, fun i =>
    Field.existsUnique_covers⟩, fun e' => ext_get, fun f g v w hNe hv hw => ?_, fun t writable hNumber c =>
    exists_target hNumber writable, exists_hidden⟩
  · have hLe := f.range.le_max_iff.2 hFits
    obtain ⟨hChecked, hSet, hInPlace⟩ := edits_of_fits e hLe
    exact ⟨_, hSet, hChecked, hInPlace, edited_put e hLe⟩
  · have hNot : ¬ v ≤ f.range.max := fun hLe => Nat.not_lt.2 hFits (f.range.le_max_iff.1 hLe)
    obtain ⟨hChecked, hSet, hRefused, hViolation⟩ := edits_of_not_fits e hNot
    exact ⟨hSet, hChecked, hRefused, hViolation⟩
  · have hv := f.range.le_max_iff.2 hv
    have hw := g.range.le_max_iff.2 hw
    have hSame := Edited.comm hNe (edited_put e hv) (edited_put (e.put f v) hw) (edited_put e hw)
      (edited_put (e.put g w) hv)
    refine ⟨(e.put f v).put g w, ?_, ?_⟩
    · rw [(edits_of_fits e hv).2.1]
      exact (edits_of_fits (e.put f v) hw).2.1
    · rw [(edits_of_fits e hw).2.1, hSame]
      exact (edits_of_fits (e.put g w) hv).2.1

/-- Three bits hold 5 and not 8. The leaf keeps the number of its frame through the edit, and when it was not
present for a while. -/
theorem edits_one_field_leaf : ∃ e' hidden, (5 : UInt64).toNat < 2 ^ Field.osAvailableLow.range.width ∧
    2 ^ Field.osAvailableLow.range.width ≤ (8 : UInt64).toNat ∧
    (⟨0x7067⟩ : Entry).set .osAvailableLow 5 = .ok e' ∧ e'.get .osAvailableLow = 5 ∧
    e'.get .frameNumber = 7 ∧
    Edit.inPlace ⟨false, .osAvailableLow, 8⟩ ⟨0x7067⟩ = .error (.fieldOverflow 7) ⟨0x7067⟩ ∧
    (⟨0x7067⟩ : Entry).present = true ∧ (⟨0x7067⟩ : Entry).set .present 0 = .ok hidden ∧
    hidden.target = .ok none ∧ hidden.set .present 1 = .ok ⟨0x7067⟩ := by
  obtain ⟨hFits, hNotFits, -, -, -, -, hPresent⟩ := edits_one_field ⟨0x7067⟩
  obtain ⟨e', hSet, -, -, hEdited⟩ := hFits .osAvailableLow 5 (by decide)
  obtain ⟨-, -, -, hViolation⟩ := hNotFits .osAvailableLow 8 (by decide)
  obtain ⟨hidden, hHide, hNone, hAgain⟩ := hPresent (by decide)
  refine ⟨e', hidden, by decide, by decide, hSet, hEdited.get_eq, ?_, hViolation, by decide, hHide, hNone,
    hAgain⟩
  exact (hEdited.get_other (by decide)).trans (by decide)

end Entry

end PagedKernel
