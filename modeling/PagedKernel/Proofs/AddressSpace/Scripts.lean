import PagedKernel.AddressSpace.Release
import PagedKernel.Proofs.AddressSpace.Mapping
import PagedKernel.Proofs.Machine.Script

/-!
# The operations on address spaces, step by step

`Script.map` and its like are the operations on address spaces, spelled out line by line as scripts.
Running the script is the operation: `Script.run_map` and its like.
-/

namespace PagedKernel.Script

/-- A fresh table is cleared, and then linked. -/
def hang (slot : Slot) (f : Frame) : Script Unit := do
  writeTable f .zeroed
  perform (.setEntry slot (← done (Entry.link f)))

def keepOrCut (slot : Slot) (f : Frame) : Except WalkError Slot → Script (Except WalkError Slot)
  | .ok leaf => return .ok leaf
  | .error e => do
    perform (.setEntry slot .empty)
    giveFrame f
    return .error e

def lookupCreatingFrom (a : VirtualAddress) (level : Level) (table : Frame) :
    Script (Except WalkError Slot) := do
  ask (·.requireTable table)
  let slot : Slot := ⟨table, level.indexOf a⟩
  match _h : level.next? with
  | none => return .ok slot
  | some below =>
    match ← ask fun m => (m.entry slot).target with
    | some next => lookupCreatingFrom a below next
    | none =>
      match ← takeFrame? with
      | none =>
        perform (.note (.tableRefused below a))
        return .error (.outOfMemory below)
      | some fresh =>
        hang slot fresh
        keepOrCut slot fresh (← lookupCreatingFrom a below fresh)
termination_by level.height
decreasing_by all_goals exact Level.height_lt_of_next? (by assumption)

def create (k : KernelSpace) : Script (Except SpaceError AddressSpace) := do
  match ← takeFrame? with
  | none =>
    perform (.note .rootRefused)
    return .error .outOfMemory
  | some root =>
    ask (·.requireTable k.root)
    writeTable root (← ask fun m => .ok (m.table k.root))
    perform (.note (.spaceCreated root))
    return .ok ⟨root, k.root⟩

def mapLeaf (page : VirtualAddress) (frame : Frame) (writable : Bool) :
    Except WalkError Slot → Script (Except MapError Unit)
  | .error e => return .error (.ofWalk e)
  | .ok slot => do
    if ← ask fun m => .ok (m.entry slot).present then fail (.alreadyMapped page)
    perform (.setEntry slot (← done (Entry.userLeaf frame writable)))
    perform (.note (.mapped page frame writable))
    return .ok ()

def map (s : AddressSpace) (page kernelAlias : VirtualAddress) (writable : Bool) :
    Script (Except MapError Unit) := do
  unless page.isAligned do fail (.unalignedUserPage page)
  unless kernelAlias.isAligned do fail (.unalignedKernelPage kernelAlias)
  done (s.requireMutable page)
  let frame := (← done (Memory.behind kernelAlias)).frame
  mapLeaf page frame writable (← lookupCreatingFrom page .pml4 s.root)

def forget (s : AddressSpace) (a : VirtualAddress) : Script Unit :=
  look fun m => if m.mmu.active = s.root then perform (.invalidate a.page) else pure ()

/-- An entry is stored for an address, and what is remembered of the page is forgotten. -/
def edit (s : AddressSpace) (a : VirtualAddress) (slot : Slot) (e : Entry) : Script Unit := do
  perform (.setEntry slot e)
  forget s a

def unmapLeaf (s : AddressSpace) (page : VirtualAddress) : Except WalkError Slot → Script Unit
  | .error _ => return ()
  | .ok slot => do
    let e ← ask fun m => .ok (m.entry slot)
    if e.present then
      edit s page slot (e.putFlag .present false)
      perform (.note (.unmapped page))

def unmap (s : AddressSpace) (page : VirtualAddress) : Script Unit := do
  unless page.isAligned do fail (.unalignedUserPage page)
  done (s.requireMutable page)
  unmapLeaf s page (← ask (·.lookup s.root page))

def flagLeaf (s : AddressSpace) (f : Entry.Field) (a : VirtualAddress) (on : Bool) :
    Except WalkError Slot → Script Unit
  | .error _ => return ()
  | .ok slot => do edit s a slot ((← ask fun m => .ok (m.entry slot)).putFlag f on)

def setLeafFlag (s : AddressSpace) (f : Entry.Field) (a : VirtualAddress) (on : Bool) :
    Script Unit := do
  done (s.requireMutable a)
  flagLeaf s f a on (← ask (·.lookup s.root a))

def activate? (s : Option AddressSpace) (k : KernelSpace) : Script Unit :=
  perform (.load (s.elim k.root (·.root)))

def sumOver (f : TableIndex → Script Nat) : List TableIndex → Script Nat
  | [] => return 0
  | i :: is => do
    let n ← f i
    return n + (← sumOver f is)

def atTarget (slot : Slot) (f : Frame → Script Nat) : Script Nat := do
  match ← ask fun m => (m.entry slot).target with
  | some next => f next
  | none => return 0

def freeTable (level : Level) (table : Frame) : Script Nat := do
  ask (·.requireTable table)
  let released ← match _h : level.next? with
    | some below => sumOver (fun i => atTarget ⟨table, i⟩ fun next => freeTable below next) TableIndex.all
    | none =>
      sumOver (fun i => atTarget ⟨table, i⟩ fun page => do
        giveFrame page
        return 1) TableIndex.all
  giveFrame table
  return released + 1
termination_by level.height
decreasing_by exact Level.height_lt_of_next? (by assumption)

def destroy (s : AddressSpace) : Script Unit := do
  if s.isKernel then fail .kernelSpaceDestroyed
  ask (·.requireTable s.root)
  let released ← sumOver (fun i => atTarget ⟨s.root, i⟩ (freeTable .pdpt)) TableIndex.userHalf
  giveFrame s.root
  perform (.note (.spaceDestroyed s.root (released + 1)))

/-! ## Running them -/

theorem run_done {α : Type} (c : Checked α) : (done c).run = (liftM c : MachineM α) := by
  funext m
  cases c <;> rfl

theorem lookupCreatingFrom_inner {level below : Level} (hNext : level.next? = some below)
    (a : VirtualAddress) (table : Frame) :
    lookupCreatingFrom a level table = (do
      ask (·.requireTable table)
      match ← ask fun m => (m.entry ⟨table, level.indexOf a⟩).target with
      | some next => lookupCreatingFrom a below next
      | none =>
        match ← takeFrame? with
        | none =>
          perform (.note (.tableRefused below a))
          return .error (.outOfMemory below)
        | some fresh =>
          hang ⟨table, level.indexOf a⟩ fresh
          keepOrCut ⟨table, level.indexOf a⟩ fresh (← lookupCreatingFrom a below fresh)) := by
  rw [lookupCreatingFrom]
  cases level <;> cases hNext <;> rfl

theorem run_hang (slot : Slot) (f : Frame) :
    (hang slot f).run = (do
      MachineM.writeTable f .zeroed
      MachineM.setEntry slot (← Entry.link f)) := by
  simp only [hang, run_bind, run_writeTable, run_done, run_setEntry]

theorem run_keepOrCut (slot : Slot) (f : Frame) (o : Except WalkError Slot) :
    (keepOrCut slot f o).run = PagedKernel.keepOrCut slot f o := by
  cases o with
  | ok leaf => rfl
  | error e => simp only [keepOrCut, PagedKernel.keepOrCut, run_bind, run_setEntry, run_giveFrame, run_pure]

theorem run_lookupCreatingFrom (a : VirtualAddress) (level : Level) (table : Frame) :
    (lookupCreatingFrom a level table).run = PagedKernel.lookupCreatingFrom a level table := by
  induction level using Level.descent generalizing table with
  | leaf =>
    rw [lookupCreatingFrom, PagedKernel.lookupCreatingFrom, run_bind, run_ask]
    rfl
  | inner level below hNext ih =>
    rw [lookupCreatingFrom_inner hNext, PagedKernel.lookupCreatingFrom, run_bind, run_ask]
    refine congrArg _ (funext fun _ => ?_)
    cases level <;> cases hNext <;> simp only [Level.next?, run_bind, run_ask]
    all_goals
      refine congrArg _ (funext fun o => ?_)
      cases o with
      | some next => exact ih next
      | none =>
        simp only [run_bind, run_takeFrame?]
        refine congrArg _ (funext fun o => ?_)
        cases o with
        | none => rfl
        | some fresh =>
          simp only [run_bind, run_hang, ih, run_keepOrCut, bind_assoc]
          rfl

theorem run_create (k : KernelSpace) : (create k).run = AddressSpace.create k := by
  rw [create, AddressSpace.create, run_bind, run_takeFrame?]
  refine congrArg _ (funext fun o => ?_)
  cases o with
  | none => rfl
  | some root => simp only [run_bind, run_ask, run_writeTable, run_note, run_pure]

theorem run_mapLeaf (page : VirtualAddress) (frame : Frame) (writable : Bool)
    (o : Except WalkError Slot) :
    (mapLeaf page frame writable o).run = AddressSpace.mapLeaf page frame writable o := by
  cases o with
  | error e => rfl
  | ok slot =>
    simp only [mapLeaf, AddressSpace.mapLeaf, apply_ite run, run_bind, run_ask, run_fail, run_done,
      run_setEntry, run_note, run_pure]

theorem run_map (s : AddressSpace) (page kernelAlias : VirtualAddress) (writable : Bool) :
    (map s page kernelAlias writable).run = s.map page kernelAlias writable := by
  rw [map, AddressSpace.map]
  simp only [apply_ite run, run_bind, run_fail, run_done, run_lookupCreatingFrom, run_mapLeaf]
  rfl

theorem run_forget (s : AddressSpace) (a : VirtualAddress) : (forget s a).run = s.forget a := by
  funext m
  show Script.run (if m.mmu.active = s.root then _ else _) m = _
  rw [AddressSpace.forget, MachineM.tell_apply]
  split <;> rfl

theorem run_edit (s : AddressSpace) (a : VirtualAddress) (slot : Slot) (e : Entry) :
    (edit s a slot e).run = (do MachineM.setEntry slot e; s.forget a) := by
  rw [edit, run_bind, run_setEntry, run_forget]

theorem run_unmap (s : AddressSpace) (page : VirtualAddress) : (unmap s page).run = s.unmap page := by
  rw [unmap, AddressSpace.unmap]
  by_cases hAligned : page.isAligned = true
  · simp only [hAligned, ↓reduceIte, run_bind, run_done, run_ask]
    refine congrArg _ (funext fun _ => congrArg _ (funext fun o => ?_))
    cases o with
    | error e => rfl
    | ok slot =>
      simp only [unmapLeaf, apply_ite run, run_bind, run_ask, run_edit, run_note, run_pure, bind_assoc]
  · simp only [hAligned]
    rfl

theorem run_setLeafFlag (s : AddressSpace) (f : Entry.Field) (a : VirtualAddress) (on : Bool) :
    (setLeafFlag s f a on).run = s.setLeafFlag f a on := by
  rw [setLeafFlag, AddressSpace.setLeafFlag]
  simp only [run_bind, run_done, run_ask]
  refine congrArg _ (funext fun _ => congrArg _ (funext fun o => ?_))
  cases o with
  | error e => rfl
  | ok slot => simp only [flagLeaf, run_bind, run_ask, run_edit]

theorem run_activate? (s : Option AddressSpace) (k : KernelSpace) :
    (activate? s k).run = AddressSpace.activate? s k := by
  cases s <;> rfl

theorem run_sumOver {f : TableIndex → Script Nat} {g : TableIndex → MachineM Nat}
    (h : ∀ i, (f i).run = g i) (is : List TableIndex) :
    (sumOver f is).run = AddressSpace.sumOver g is := by
  induction is with
  | nil => rfl
  | cons i is ih => simp only [sumOver, AddressSpace.sumOver, run_bind, run_pure, h, ih]

theorem run_atTarget {f : Frame → Script Nat} {g : Frame → MachineM Nat}
    (h : ∀ next, (f next).run = g next) (slot : Slot) :
    (atTarget slot f).run = (do
      match ← AddressSpace.targetAt slot with
      | some next => g next
      | none => return 0) := by
  rw [atTarget, run_bind, run_ask, AddressSpace.targetAt]
  refine congrArg _ (funext fun o => ?_)
  cases o with
  | none => rfl
  | some next => exact h next

theorem run_freeTable (level : Level) (table : Frame) :
    (freeTable level table).run = AddressSpace.freeTable level table := by
  have hPage : ∀ page, (do giveFrame page; return 1 : Script Nat).run =
      (do MachineM.giveFrame page; return 1) := by
    intro page
    rw [run_bind, run_giveFrame]
    rfl
  induction level using Level.descent generalizing table with
  | leaf =>
    rw [freeTable, AddressSpace.freeTable]
    simp only [Level.next?, run_bind, run_ask, run_giveFrame, run_pure]
    refine congrArg _ (funext fun _ => congrArg (· >>= _) ?_)
    exact run_sumOver (fun i => run_atTarget hPage ⟨table, i⟩) _
  | inner level below hNext ih =>
    rw [freeTable, AddressSpace.freeTable]
    cases level <;> cases hNext
    all_goals
      simp only [Level.next?, run_bind, run_ask, run_giveFrame, run_pure]
      refine congrArg _ (funext fun _ => congrArg (· >>= _) ?_)
      exact run_sumOver (fun i => run_atTarget ih ⟨table, i⟩) _

theorem run_destroy (s : AddressSpace) : (destroy s).run = s.destroy := by
  rw [destroy, AddressSpace.destroy]
  by_cases hKernel : s.isKernel = true
  · simp only [hKernel, ↓reduceIte]
    rfl
  · simp only [hKernel, Bool.false_eq_true, ↓reduceIte, run_bind, run_ask, run_giveFrame, run_note]
    refine congrArg _ (funext fun _ => congrArg (· >>= _) ?_)
    exact run_sumOver (fun i => run_atTarget (run_freeTable .pdpt) ⟨s.root, i⟩) _

/-! ## What becomes of the unit -/

namespace KeepsMmu

variable {J : Mmu → Prop} {s : AddressSpace}

theorem unless_bind {α : Type} {c : Bool} {v : Violation} {x : Script α} (h : KeepsMmu J x) :
    KeepsMmu J (if c = true then x else fail v >>= fun _ : PUnit => x) := by
  split
  · exact h
  · exact .done _

theorem hang (slot : Slot) (f : Frame) : KeepsMmu J (hang slot f) :=
  (writeTable f _).bind fun _ => (KeepsMmu.done _).bind fun _ => perform fun _ => id

theorem keepOrCut (slot : Slot) (f : Frame) (o : Except WalkError Slot) :
    KeepsMmu J (keepOrCut slot f o) := by
  cases o with
  | ok leaf => exact .pure _
  | error e => exact (perform fun _ => id).bind fun _ => (giveFrame f).bind fun _ => .pure _

theorem lookupCreatingFrom (a : VirtualAddress) (level : Level) (table : Frame) :
    KeepsMmu J (lookupCreatingFrom a level table) := by
  induction level using Level.descent generalizing table with
  | leaf =>
    rw [Script.lookupCreatingFrom]
    exact (ask _).bind fun _ => .pure _
  | inner level below hNext ih =>
    rw [lookupCreatingFrom_inner hNext]
    refine (ask _).bind fun _ => (ask _).bind fun o => ?_
    cases o with
    | some next => exact ih next
    | none =>
      refine takeFrame?.bind fun o => ?_
      cases o with
      | none => exact (perform fun _ => id).bind fun _ => .pure _
      | some fresh => exact (hang _ fresh).bind fun _ => (ih fresh).bind fun o => keepOrCut _ fresh o

theorem create (k : KernelSpace) : KeepsMmu J (create k) := by
  refine takeFrame?.bind fun o => ?_
  cases o with
  | none => exact (perform fun _ => id).bind fun _ => .pure _
  | some root =>
    exact (ask _).bind fun _ => (ask _).bind fun t => (writeTable root t).bind fun _ =>
      (perform fun _ => id).bind fun _ => .pure _

theorem map (page kernelAlias : VirtualAddress) (writable : Bool) :
    KeepsMmu J (map s page kernelAlias writable) := by
  refine unless_bind (unless_bind ((KeepsMmu.done _).bind fun _ => (KeepsMmu.done _).bind fun p =>
    (lookupCreatingFrom page .pml4 s.root).bind fun o => ?_))
  cases o with
  | error e => exact .pure _
  | ok slot =>
    refine (ask _).bind fun b => ?_
    cases b with
    | true => exact .done _
    | false =>
      exact (KeepsMmu.done _).bind fun e => (perform fun _ => id).bind fun _ =>
        (perform fun _ => id).bind fun _ => .pure _

section Edits

variable {a : VirtualAddress}
  (hForget : ∀ u, J u → u.active = s.root → ∀ u', J u' → J (u'.invalidate a.page))

include hForget

theorem edit (slot : Slot) (e : Entry) : KeepsMmu J (edit s a slot e) := by
  refine (perform fun _ => id).bind fun _ => .look fun m hJ => ?_
  split
  next hActive => exact perform fun m' => hForget m.mmu hJ hActive m'.mmu
  next => exact .pure ()

theorem unmap : KeepsMmu J (unmap s a) := by
  refine unless_bind ((KeepsMmu.done _).bind fun _ => (ask _).bind fun o => ?_)
  cases o with
  | error e => exact .pure ()
  | ok slot =>
    refine (ask _).bind fun e => ?_
    split
    · exact (edit hForget slot _).bind fun _ => perform fun _ => id
    · exact .pure ()

theorem setLeafFlag (f : Entry.Field) (on : Bool) : KeepsMmu J (setLeafFlag s f a on) := by
  refine (KeepsMmu.done _).bind fun _ => (ask _).bind fun o => ?_
  cases o with
  | error e => exact .pure ()
  | ok slot => exact (ask _).bind fun e => edit hForget slot _

end Edits

theorem sumOver {f : TableIndex → Script Nat} (h : ∀ i, KeepsMmu J (f i)) (is : List TableIndex) :
    KeepsMmu J (sumOver f is) := by
  induction is with
  | nil => exact .pure 0
  | cons i is ih => exact (h i).bind fun n => ih.bind fun _ => .pure _

theorem atTarget {f : Frame → Script Nat} (h : ∀ next, KeepsMmu J (f next)) (slot : Slot) :
    KeepsMmu J (atTarget slot f) := by
  refine (ask _).bind fun o => ?_
  cases o with
  | none => exact .pure 0
  | some next => exact h next

theorem freeTable (level : Level) (table : Frame) : KeepsMmu J (freeTable level table) := by
  have hPage : ∀ page, KeepsMmu J (do Script.giveFrame page; return 1 : Script Nat) :=
    fun page => (giveFrame page).bind fun _ => .pure 1
  induction level using Level.descent generalizing table with
  | leaf =>
    rw [Script.freeTable]
    exact (ask _).bind fun _ => (sumOver (fun i => atTarget hPage ⟨table, i⟩) _).bind fun _ =>
      (giveFrame table).bind fun _ => .pure _
  | inner level below hNext ih =>
    rw [Script.freeTable]
    refine (ask _).bind fun _ => ?_
    cases level <;> cases hNext <;>
      exact (sumOver (fun i => atTarget ih ⟨table, i⟩) _).bind fun _ =>
        (giveFrame table).bind fun _ => .pure _

theorem destroy : KeepsMmu J (destroy s) := by
  rw [Script.destroy]
  split
  · exact .done _
  · exact (ask _).bind fun _ => (sumOver (fun i => atTarget (freeTable .pdpt) ⟨s.root, i⟩) _).bind
      fun _ => (giveFrame s.root).bind fun _ => perform fun _ => id

end KeepsMmu

end PagedKernel.Script
