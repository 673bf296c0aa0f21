import PagedKernel.Proofs.Machine.Supply
import PagedKernel.Proofs.Memory.Agreement
import PagedKernel.AddressSpace.Basic

/-!
# Running the steps of paging

What each step that paging is made of does to the machine, as one equation, and how a computation
goes on after a step of which the outcome is known.
-/

namespace PagedKernel

namespace Stateful

variable {σ α β : Type} {x : Stateful σ α} {f : α → Stateful σ β} {s s' : σ}

theorem bind_ok {a : α} (h : x s = .ok a s') : (x >>= f) s = f a s' := by
  simp only [bind, EStateM.bind, h]

theorem bind_error {v : Violation} (h : x s = .error v s') : (x >>= f) s = .error v s' := by
  simp only [bind, EStateM.bind, h]

theorem get_bind {f : σ → Stateful σ β} : (get >>= f) s = f s s := rfl

theorem ok_of_bind {b : β} (h : (x >>= f) s = .ok b s') :
    ∃ a s₁, x s = .ok a s₁ ∧ f a s₁ = .ok b s' := by
  cases hx : x s with
  | ok a s₁ => exact ⟨a, s₁, rfl, by rwa [bind_ok hx] at h⟩
  | error v s₁ =>
    rw [bind_error hx] at h
    cases h

theorem lift_ok {c : Checked α} {a : α} (h : c = .ok a) : (liftM c : Stateful σ α) s = .ok a s := by
  subst h
  rfl

theorem lift_error {c : Checked α} {v : Violation} (h : c = .error v) :
    (liftM c : Stateful σ α) s = .error v s := by
  subst h
  rfl

end Stateful

namespace Memory

theorem requireTable_of_holds {m : Memory} {f : Frame} (h : m.holds f = true) :
    m.requireTable f = .ok () := by
  have hOffset : f.base.offset.val.toNat = 0 := by
    have := Frame.toNat_number f
    simp only [PhysicalAddress.offset, PageOffset.ofLowBits, UInt64.toNat_mod, UInt64.reduceToNat]
    omega
  simp [requireTable, requireObject, hOffset, h, pure, Except.pure]

theorem holds_of_requireTable {m : Memory} {f : Frame} (h : m.requireTable f = .ok ()) :
    m.holds f = true := by
  rw [requireTable, requireObject, Frame.frame_base] at h
  by_contra hHolds
  simp only [hHolds] at h
  cases h

end Memory

namespace MachineM

variable {α : Type} {s : Machine}

theorem look_ok {f : Memory → Checked α} {a : α} (h : f s.memory = .ok a) :
    look f s = .ok a s := by
  simp only [look, query, h]

theorem look_value (f : Memory → α) : look (fun m => .ok (f m)) s = .ok (f s.memory) s := rfl

theorem look_target {slot : Slot} {o : Option Frame} (h : (s.memory.entry slot).target = .ok o) :
    look (fun m => (m.entry slot).target) s = .ok o s :=
  look_ok (f := fun m => (m.entry slot).target) h

theorem takeFrame?_of_alloc {f : Option Frame} {a : FrameAllocator} (h : s.frames.alloc = (f, a)) :
    takeFrame? s = .ok f { s with frames := a } := by
  simp only [takeFrame?, onFrames, h]

theorem giveFrame_of_mem {f : Frame} (h : f ∈ s.frames.inUse) :
    giveFrame f s = .ok () { s with frames := s.frames.releaseAll [f] } := by
  simp only [giveFrame, onFrames, FrameAllocator.release_eq_releaseAll h]

theorem setEntry_apply (slot : Slot) (e : Entry) :
    setEntry slot e s = .ok () { s with memory := s.memory.setEntry slot e } := rfl

theorem writeTable_of_holds {f : Frame} (h : s.memory.holds f = true) (t : PageTable) :
    writeTable f t s = .ok () { s with memory := s.memory.setTable f t } := by
  rw [writeTable, Stateful.bind_ok (look_ok (Memory.requireTable_of_holds h))]
  rfl

theorem note_apply (n : Notice) : note n s = .ok () { s with log := n :: s.log } := rfl

theorem tell_apply (f : Mmu → Mmu) : tell f s = .ok () { s with mmu := f s.mmu } := rfl

end MachineM

end PagedKernel
