import PagedKernel.Proofs.AddressSpace.Scripts
import PagedKernel.Proofs.AddressSpace.Traversal
import PagedKernel.Proofs.Machine.Tlb
import PagedKernel.Proofs.Run.Invariant

/-!
# Runs on a unit that remembers

A run of paging on a machine whose memory-management unit remembers entries. Requests are served step
by step, and the unit takes up entries as it likes, between the requests and in the midst of them. The
active space is not destroyed, and visitors do not edit the entries that they see.

* `Request.script`: the steps of a request.
* `System.machine_perform`: they lead to the machine that the request leads to.
* `CachedRun`: the systems that requests lead to, with what the unit remembers then.
* `CachedRun.run`: the unit makes no difference to the system.
* `Run.cached`: every run is one on such a unit.
-/

namespace PagedKernel

open Script

namespace Script

variable {α : Type} {J : Mmu → Prop} {x : Script α} {m : Machine}

def void (x : Script α) : Script Unit := do
  let _ ← x

theorem KeepsMmu.void (h : KeepsMmu J x) : KeepsMmu J (void x) := h.bind fun _ => .pure ()

theorem Coheres.void (h : Coheres x m) : Coheres (void x) m := h.bind fun _ m _ => .done _ m

end Script

namespace Request

/-- The steps of a request, if it is one of paging. -/
def script (k : KernelSpace) : Request → Option (Script Unit)
  | .alloc => some (void takeFrame?)
  | .free f => some (void (giveFrame f))
  | .limit n => some (void (Script.perform (.frames (·.limitTo n))))
  | .unlimit => some (void (Script.perform (.frames (·.unlimited))))
  | .create => some (void (Script.create k))
  | .map s page kernelAlias writable => some (void (Script.map s page kernelAlias writable))
  | .unmap s page => some (void (Script.unmap s page))
  | .markDirty s a on => some (void (Script.setLeafFlag s .dirty a on))
  | .markAccessed s a on => some (void (Script.setLeafFlag s .accessed a on))
  | .activate s => some (void (Script.activate? s k))
  | .destroy s => some (void (Script.destroy s))
  | .copyTo _ _ _ | .copyFrom _ _ _ | .write _ _ => none

def space? : Request → Option AddressSpace
  | .map s _ _ _ | .unmap s _ | .markDirty s _ _ | .markAccessed s _ _ | .destroy s
  | .copyTo s _ _ | .copyFrom s _ _ => some s
  | .activate s => s
  | .alloc | .free _ | .limit _ | .unlimit | .create | .write _ _ => none

variable {request : Request} {k : KernelSpace} {x : Script Unit} {J : Mmu → Prop}

theorem keepsMmu (hScript : request.script k = some x) (hLoad : ∀ s, request ≠ .activate s)
    (hForget : ∀ s, request.space? = some s → ∀ u, J u → u.active = s.root →
      ∀ u', J u' → ∀ p, J (u'.invalidate p)) : KeepsMmu J x := by
  cases request <;> cases hScript
  case alloc => exact KeepsMmu.takeFrame?.void
  case free f => exact (KeepsMmu.giveFrame f).void
  case limit n => exact (KeepsMmu.perform fun _ => id).void
  case unlimit => exact (KeepsMmu.perform fun _ => id).void
  case create => exact (KeepsMmu.create k).void
  case map s page kernelAlias writable => exact (KeepsMmu.map page kernelAlias writable).void
  case unmap s page =>
    exact (KeepsMmu.unmap fun u hu hOn u' hu' => hForget s rfl u hu hOn u' hu' page.page).void
  case markDirty s a on =>
    exact (KeepsMmu.setLeafFlag (fun u hu hOn u' hu' => hForget s rfl u hu hOn u' hu' a.page) _ on).void
  case markAccessed s a on =>
    exact (KeepsMmu.setLeafFlag (fun u hu hOn u' hu' => hForget s rfl u hu hOn u' hu' a.page) _ on).void
  case activate s => exact absurd rfl (hLoad s)
  case destroy s => exact KeepsMmu.destroy.void

end Request

namespace System

variable {σ : System} {request : Request} {x : Script Unit} {m : Machine} {outcome : Checked Unit}

def Spares (σ : System) : Request → Prop
  | .destroy s => s.root ≠ σ.machine.mmu.active
  | _ => True

theorem machine_conclude {α : Type} {x : Script α} {y : MachineM α}
    {after : α → System → Reply × System} (hAfter : ∀ a τ, (after a τ).2.machine = τ.machine)
    (hRun : (void x).run σ.machine = (Script.done outcome).run m) (hx : x.run = y) :
    (σ.conclude y after).2.machine = m := by
  subst hx
  rw [void, run_bind] at hRun
  cases hEnd : x.run σ.machine with
  | ok a m₁ =>
    rw [Stateful.bind_ok hEnd] at hRun
    rw [conclude_ok hEnd, hAfter]
    cases outcome <;> cases hRun
    rfl
  | error v m₁ =>
    rw [Stateful.bind_error hEnd] at hRun
    rw [conclude_error hEnd]
    cases outcome <;> cases hRun
    rfl

/-- The steps of a request lead to the machine that the request leads to. -/
theorem machine_perform (hScript : request.script σ.kernel = some x)
    (hRun : x.run σ.machine = (Script.done outcome).run m) : (σ.perform request).2.machine = m := by
  cases request <;> cases hScript
  case alloc => exact machine_conclude (fun _ _ => rfl) hRun run_takeFrame?
  case free f => exact machine_conclude (fun _ _ => rfl) hRun (run_giveFrame f)
  case limit n =>
    cases outcome <;> cases hRun
    rfl
  case unlimit =>
    cases outcome <;> cases hRun
    rfl
  case create =>
    refine machine_conclude (fun o _ => ?_) hRun (run_create σ.kernel)
    cases o <;> rfl
  case map s page kernelAlias writable =>
    refine machine_conclude (fun o τ => ?_) hRun (run_map s page kernelAlias writable)
    cases o with
    | error e => rfl
    | ok u => exact machine_giveUp τ kernelAlias
  case unmap s page => exact machine_conclude (fun _ _ => rfl) hRun (run_unmap s page)
  case markDirty s a on =>
    exact machine_conclude (fun _ _ => rfl) hRun (run_setLeafFlag s .dirty a on)
  case markAccessed s a on =>
    exact machine_conclude (fun _ _ => rfl) hRun (run_setLeafFlag s .accessed a on)
  case activate s => exact machine_conclude (fun _ _ => rfl) hRun (run_activate? s σ.kernel)
  case destroy s => exact machine_conclude (fun _ _ => rfl) hRun (run_destroy s)

theorem mmu_perform {J : Mmu → Prop} (hScript : request.script σ.kernel = some x)
    (hKeeps : KeepsMmu J x) (hJ : J σ.machine.mmu) : J (σ.perform request).2.machine.mmu := by
  obtain ⟨outcome, m, hRun⟩ := exists_run x σ.machine
  rw [machine_perform hScript hRun]
  exact hKeeps.of_run hJ hRun

/-- A request about a space that is not active makes the unit forget nothing. -/
theorem dropped_perform (hScript : request.script σ.kernel = some x)
    (hOther : ∀ s, request.space? = some s → s.root ≠ σ.machine.mmu.active) :
    (σ.perform request).2.machine.mmu.dropped = σ.machine.mmu.dropped := by
  by_cases hLoad : ∃ s, request = .activate s
  · obtain ⟨s, rfl⟩ := hLoad
    cases s <;> rfl
  · have hKeeps : KeepsMmu (fun u => u.active = σ.machine.mmu.active ∧
        u.dropped = σ.machine.mmu.dropped) x := by
      refine Request.keepsMmu hScript (fun s hs => hLoad ⟨s, hs⟩) fun s hs u hu hOn => ?_
      exact absurd (hOn.symm.trans hu.1) (hOther s hs)
    exact (mmu_perform hScript hKeeps ⟨rfl, rfl⟩).2

theorem conclude_visit {κ β : Type} {visitor : Visitor κ β} (hReads : visitor.Reads) (root : Frame)
    (slots : List TableIndex) (k : κ) :
    (σ.conclude (Leaves.run visitor root slots k) fun _ σ => (.done, σ)).2 = σ := by
  have hEnd := Leaves.keeps_run hReads root slots k σ.machine _ _ ⟨rfl, rfl⟩
  rw [conclude]
  generalize Leaves.run visitor root slots k σ.machine = out at hEnd
  cases hEnd with
  | ok a hState =>
    obtain ⟨-, rfl⟩ := hState
    rfl
  | error _ hState =>
    obtain ⟨-, rfl⟩ := hState
    rfl

end System

/-- Requests are served one after another, while the unit takes up entries as it likes. The events are
listed latest first. -/
inductive CachedRun (start : System) : List Event → System → Tlb → Prop
  | start : CachedRun start [] start []
  | fill {events : List Event} {σ : System} {tlb tlb' : Tlb} (before : CachedRun start events σ tlb)
      (hFill : Fills σ.machine tlb tlb') : CachedRun start events σ tlb'
  | next {events : List Event} {σ : System} {tlb tlb' : Tlb} (before : CachedRun start events σ tlb)
      (request : Request) (hAllowed : σ.Allowed request) (hSpares : σ.Spares request)
      {x : Script Unit} (hScript : request.script σ.kernel = some x) {outcome : Checked Unit}
      {m : Machine} (hRuns : x.Runs σ.machine tlb outcome m tlb') :
      CachedRun start (⟨request, (σ.perform request).1⟩ :: events) (σ.perform request).2 tlb'
  | visit {events : List Event} {σ : System} {tlb : Tlb} (before : CachedRun start events σ tlb)
      {s : AddressSpace} (hs : σ.Knows s) {κ β : Type} {visitor : Visitor κ β}
      (hReads : visitor.Reads) (slots : List TableIndex) (k : κ) :
      CachedRun start events (σ.conclude (Leaves.run visitor s.root slots k) fun _ σ => (.done, σ)).2
        tlb

variable {start σ : System} {events : List Event} {tlb : Tlb}

/-- The unit makes no difference to the system. -/
theorem CachedRun.run (h : CachedRun start events σ tlb) : Run start events σ := by
  induction h with
  | start => exact .start
  | fill _ _ ih => exact ih
  | next _ request hAllowed _ _ _ ih => exact ih.next request hAllowed
  | visit _ _ hReads slots k ih =>
    rw [System.conclude_visit hReads]
    exact ih

/-- A request of paging can be served, whatever is remembered. -/
theorem CachedRun.exists_next (h : CachedRun start events σ tlb) (request : Request)
    (hAllowed : σ.Allowed request) (hSpares : σ.Spares request)
    (hScript : (request.script σ.kernel).isSome) :
    ∃ tlb', CachedRun start (⟨request, (σ.perform request).1⟩ :: events) (σ.perform request).2 tlb' := by
  obtain ⟨x, hx⟩ := Option.isSome_iff_exists.1 hScript
  obtain ⟨outcome, m, tlb', hRuns⟩ := exists_runs x σ.machine tlb
  exact ⟨tlb', h.next request hAllowed hSpares hx hRuns⟩

/-- A run of paging in which no space is destroyed is one on a unit that remembers. -/
theorem Run.cached (h : Run start events σ)
    (hPaging : ∀ e ∈ events, (∀ k, (e.request.script k).isSome) ∧ ∀ s, e.request ≠ .destroy s) :
    ∃ tlb, CachedRun start events σ tlb := by
  induction h with
  | start => exact ⟨[], .start⟩
  | @next events σ _ request hAllowed ih =>
    obtain ⟨tlb, hCached⟩ := ih fun e he => hPaging e (List.mem_cons_of_mem _ he)
    obtain ⟨hScript, hNot⟩ := hPaging _ List.mem_cons_self
    refine hCached.exists_next request hAllowed ?_ (hScript σ.kernel)
    cases request with
    | destroy s => exact absurd rfl (hNot s)
    | _ => trivial

end PagedKernel
