import PagedKernel.Proofs.Machine.Steps
import PagedKernel.Probe.Recovery

/-!
# The test for a probe

The registers of a fault may hold anything, so recovery goes by where they point: the fault is to lie behind
the entry of a probe and before the label, and the label close behind the entry. This is the whole test, since
the subtraction in it is only made where there is no underflow.

After recovery every bit of `rax` is set. A label so high in the address space is far from every entry that
leaves some room for its code.

* `FaultContext.IsInside`: the test, for one probe.
* `ProbeEntries.recover_eq`: recovery is this test of the two probes.
* `ProbeEntries.recoverFault`: recovery on the registers in place.
-/

namespace PagedKernel

namespace FaultContext

variable {entry : UInt64}

/-- The fault is between an entry and its label, and the label is close. -/
def IsInside (c : FaultContext) (entry : UInt64) : Prop :=
  entry ≤ c.rip ∧ c.rip < c.rax ∧ c.rax.toNat ≤ entry.toNat + 16

instance (c : FaultContext) (entry : UInt64) : Decidable (c.IsInside entry) :=
  inferInstanceAs (Decidable (_ ∧ _ ∧ _))

theorem isInside_of_near {x y : UInt64} {n : Nat} (hFits : entry.toNat + n < 2 ^ 64) (hNear : n ≤ 16)
    (hAccess : 0 < y.toNat) (hLabel : x.toNat + y.toNat = n) :
    IsInside ⟨entry + x, entry + x + y⟩ entry := by
  have hRip : (entry + x).toNat = entry.toNat + x.toNat := by
    rw [UInt64.toNat_add]
    omega
  have hRax : (entry + x + y).toNat = entry.toNat + n := by
    rw [UInt64.toNat_add]
    omega
  refine ⟨?_, ?_, ?_⟩
  · show entry ≤ entry + x
    rw [UInt64.le_iff_toNat_le]
    omega
  · show entry + x < entry + x + y
    rw [UInt64.lt_iff_toNat_lt]
    omega
  · show (entry + x + y).toNat ≤ entry.toNat + 16
    omega

/-- With every bit of the label set, only an entry at the end of the address space is close to it. -/
theorem not_isInside_of_failed {rip : UInt64} (hRoom : entry.toNat < 2 ^ 64 - 32) :
    ¬ IsInside ⟨rip, 0xffffffffffffffff⟩ entry := by
  rintro ⟨-, -, hNear⟩
  have hLabel : 0xffffffffffffffff ≤ entry.toNat + 16 := hNear
  omega

end FaultContext

namespace ProbeEntries

theorem covers_eq (entry : UInt64) (c : FaultContext) : covers entry c = .ok (decide (c.IsInside entry)) := by
  rw [covers]
  by_cases hBetween : entry ≤ c.rip ∧ c.rip < c.rax
  · have hLe : entry ≤ c.rax := UInt64.le_of_lt (UInt64.lt_of_le_of_lt hBetween.1 hBetween.2)
    have hNear : c.rax - entry ≤ reach ↔ c.IsInside entry := by
      have hReach : reach.toNat = 16 := rfl
      rw [FaultContext.IsInside, and_iff_right hBetween.1, and_iff_right hBetween.2, UInt64.le_iff_toNat_le,
        UInt64.toNat_sub_of_le _ _ hLe, hReach]
      rw [UInt64.le_iff_toNat_le] at hLe
      omega
    rw [if_pos hBetween, distance, if_pos hLe]
    exact congrArg Except.ok (decide_eq_decide.2 hNear)
  · rw [if_neg hBetween, decide_eq_false fun hInside => hBetween ⟨hInside.1, hInside.2.1⟩]
    rfl

/-- The fault is recovered from when it is one of the kernel, while a probe runs, inside one of the two. -/
def Recovers (e : ProbeEntries) (kernelMode active : Bool) (c : FaultContext) : Prop :=
  kernelMode = true ∧ active = true ∧ ∃ entry ∈ [e.reader, e.writer], c.IsInside entry

instance (e : ProbeEntries) (kernelMode active : Bool) (c : FaultContext) :
    Decidable (e.Recovers kernelMode active c) :=
  inferInstanceAs (Decidable (_ ∧ _ ∧ _))

theorem recover_eq (e : ProbeEntries) (kernelMode active : Bool) (c : FaultContext) :
    e.recover kernelMode active c =
      .ok (if e.Recovers kernelMode active c then some ⟨c.rax, 0xffffffffffffffff⟩ else none) := by
  rw [recover, covers_eq, covers_eq]
  cases kernelMode
  · rfl
  cases active
  · rfl
  by_cases hReader : c.IsInside e.reader
  · have hRecovers : e.Recovers true true c := ⟨rfl, rfl, e.reader, List.mem_cons_self, hReader⟩
    rw [decide_eq_true hReader, if_pos hRecovers]
    rfl
  by_cases hWriter : c.IsInside e.writer
  · have hRecovers : e.Recovers true true c :=
      ⟨rfl, rfl, e.writer, List.mem_cons_of_mem _ List.mem_cons_self, hWriter⟩
    rw [decide_eq_false hReader, decide_eq_true hWriter, if_pos hRecovers]
    rfl
  · have hOutside : ¬ e.Recovers true true c := by
      rintro ⟨-, -, entry, hEntry, hInside⟩
      rcases List.mem_pair.1 hEntry with rfl | rfl
      · exact hReader hInside
      · exact hWriter hInside
    rw [decide_eq_false hReader, decide_eq_false hWriter, if_neg hOutside]
    rfl

/-- Recovery on the registers that the fault has left. It tells whether they have changed. -/
def recoverFault (e : ProbeEntries) (kernelMode active : Bool) : Stateful FaultContext Bool := do
  match ← e.recover kernelMode active (← get) with
  | some c =>
    set c
    return true
  | none => return false

theorem recoverFault_apply (e : ProbeEntries) (kernelMode active : Bool) (c : FaultContext) :
    e.recoverFault kernelMode active c =
      if e.Recovers kernelMode active c then .ok true ⟨c.rax, 0xffffffffffffffff⟩ else .ok false c := by
  show (liftM (e.recover kernelMode active c) >>= _ : Stateful FaultContext _) c = _
  rw [Stateful.bind_ok (Stateful.lift_ok (e.recover_eq kernelMode active c))]
  by_cases hRecovers : e.Recovers kernelMode active c
  · rw [if_pos hRecovers, if_pos hRecovers]
    rfl
  · rw [if_neg hRecovers, if_neg hRecovers]
    rfl

end ProbeEntries

end PagedKernel
