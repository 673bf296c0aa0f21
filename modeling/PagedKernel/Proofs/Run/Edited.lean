import PagedKernel.Proofs.AddressSpace.Visits
import PagedKernel.Proofs.Run.Invariant

/-!
# Runs with visitors that edit

A run can also traverse address spaces with visitors that edit what they see. The caller then does the
books anew: it holds what it held and what was mapped, less what is mapped now.

* `System.AtDepth`, `System.Maps`: the frames of the trees, and those that leaves map.
* `System.Visits`: a traversal leads from one system to another.
* `Entry.SamePage`: the visitor has changed flags and left the page.
* `System.Disciplined`: or it has redirected leaves, to frames of the caller.
* `EditedRun`: the systems that disciplined requests and such traversals lead to.
* `System.Followed`: a plan for the system before such a traversal gives one for the system after.
* `EditedRun.tracks`: a plan tracks the systems of a run.
* `Plan.Tracks.exists_visits`, `Plan.Tracks.exists_marked`: visitors that can be sent.
-/

namespace PagedKernel

variable {σ σ' : System} {plan : Plan} {n : Nat} {f : Frame}

/-- The frame hangs in the tree of a space, at the end of a path of `n` indices. -/
def System.AtDepth (σ : System) (n : Nat) (f : Frame) : Prop :=
  ∃ s, σ.Knows s ∧ ∃ path, path.length = n ∧ σ.machine.memory.Leads s.root path f

def System.Maps (σ : System) (f : Frame) : Prop := σ.AtDepth 4 f

/-- The system after a computation on the machine, however it ended. -/
def System.after {α : Type} (σ : System) (x : MachineM α) : System :=
  (σ.conclude x fun _ σ => (.done, σ)).2

/-- The traversal of all leaves of a space, or of those of the user half alone. -/
def AddressSpace.visit {κ β : Type} (s : AddressSpace) (userOnly : Bool) (visitor : Visitor κ β)
    (k : κ) : MachineM (Flow β × κ) :=
  if userOnly then s.visitUserLeaves visitor k else s.visitLeaves visitor k

theorem AddressSpace.visit_eq_run {κ β : Type} (s : AddressSpace) (userOnly : Bool)
    (visitor : Visitor κ β) (k : κ) : s.visit userOnly visitor k = Leaves.run visitor s.root
      (if userOnly then TableIndex.userHalf else TableIndex.all) k := by
  rw [visit]
  split
  next => rw [visitUserLeaves]
  next => rw [visitLeaves]

theorem System.live_after {α : Type} (x : MachineM α) : (σ.after x).live = σ.live := by
  rw [after, conclude]
  split <;> rfl

theorem System.kernel_after {α : Type} (x : MachineM α) : (σ.after x).kernel = σ.kernel := by
  rw [after, conclude]
  split <;> rfl

/-- The caller has done its books: it holds what it held and what was mapped, less what is mapped now. -/
structure System.Rebooked (σ σ' : System) : Prop where
  nodup : σ'.held.Nodup
  mem_iff (f : Frame) : f ∈ σ'.held ↔ (f ∈ σ.held ∨ σ.Maps f) ∧ ¬ σ'.Maps f

/-- A traversal leads from one system to another, whether it comes to its end, is stopped or breaks a
precondition. Its visitor keeps to a rule at the addresses that it can come to. -/
inductive System.Visits (rule : VirtualAddress → Entry → Entry → Prop) (σ : System) : System → Prop
  | intro {s : AddressSpace} (hs : σ.Knows s) {κ β : Type} {visitor : Visitor κ β} {userOnly : Bool}
      (hObeys : visitor.Obeys fun a e e' => (userOnly = true → a.isUser = true) → rule a e e')
      (k : κ) {held : List Frame}
      (hBooks : σ.Rebooked { σ.after (s.visit userOnly visitor k) with held := held }) :
      Visits rule σ { σ.after (s.visit userOnly visitor k) with held := held }

theorem System.Visits.imp {rule rule' : VirtualAddress → Entry → Entry → Prop}
    (h : σ.Visits rule σ') (hRule : ∀ a e e', rule a e e' → rule' a e e') : σ.Visits rule' σ' := by
  cases h with
  | intro hs hObeys k hBooks =>
    exact .intro hs (hObeys.imp fun a e e' h hUser => hRule a e e' (h hUser)) k hBooks

/-- The entries differ in flags at most: they name the same frame, and are huge pages or not alike. -/
structure Entry.SamePage (e e' : Entry) : Prop where
  frame_eq : e'.get .frameNumber = e.get .frameNumber
  pageSize_eq : e'.flag .pageSize = e.flag .pageSize

/-- What the leaves map afterwards was mapped before or is the caller's, no two leaves map one frame,
and none maps a huge page. -/
structure System.Disciplined (σ σ' : System) : Prop where
  small {t : Frame} : σ.AtDepth 3 t → ∀ i,
    (σ'.machine.memory.entry ⟨t, i⟩).flag .pageSize = false
  page {t f : Frame} {i : TableIndex} : σ.AtDepth 3 t →
    (σ'.machine.memory.entry ⟨t, i⟩).target = .ok (some f) → f ∈ σ.held ∨ σ.Maps f
  once {t u f : Frame} {i j : TableIndex} : σ.AtDepth 3 t → σ.AtDepth 3 u →
    (σ'.machine.memory.entry ⟨t, i⟩).target = .ok (some f) →
    (σ'.machine.memory.entry ⟨u, j⟩).target = .ok (some f) → (⟨t, i⟩ : Slot) = ⟨u, j⟩

/-- Disciplined requests, and traversals as `visits` says, lead from one system to another. -/
inductive EditedRun (visits : System → System → Prop) (start : System) : System → Prop
  | start : EditedRun visits start start
  | request {σ : System} (before : EditedRun visits start σ) (request : Request)
      (hAllowed : σ.Allowed request) : EditedRun visits start (σ.perform request).2
  | visit {σ σ' : System} (before : EditedRun visits start σ) (hVisit : visits σ σ') :
      EditedRun visits start σ'

theorem Entry.may_trans {p : Prop} {e e' e'' : Entry} (h : p ∨ e' = e) (h' : p ∨ e'' = e') :
    p ∨ e'' = e := by
  rcases h with hp | rfl
  · exact Or.inl hp
  · exact h'

namespace Entry.SamePage

variable {e e' e'' : Entry}

theorem trans (h : e.SamePage e') (h' : e'.SamePage e'') : e.SamePage e'' :=
  ⟨h'.frame_eq.trans h.frame_eq, h'.pageSize_eq.trans h.pageSize_eq⟩

theorem target_eq (h : e.SamePage e') (hPresent : e.present = true)
    (hTarget : e'.target = .ok (some f)) : e.target = .ok (some f) := by
  obtain ⟨-, hSmall, hFrame⟩ := Entry.target_eq_some.1 hTarget
  exact Entry.target_eq_some.2 ⟨hPresent, h.pageSize_eq ▸ hSmall, h.frame_eq ▸ hFrame⟩

theorem putFlag (e : Entry) {g : Field} (hFlag : g.isFlag = true) (hSmall : g ≠ .pageSize)
    (on : Bool) : e.SamePage (e.putFlag g on) := by
  refine ⟨e.get_putFlag_of_ne ?_ on, ?_⟩
  · rintro rfl
    cases hFlag
  · rw [e.flag_putFlag hFlag, if_neg hSmall.symm]

end Entry.SamePage

namespace Plan

/-- Paths lead to the frames that the plan has at their depth. -/
theorem Fits.atDepth_iff (h : plan.Fits σ.kernel.root (σ.live.map (·.root)) σ.machine.memory) :
    σ.AtDepth n f ↔ plan.AtDepth n f := by
  constructor
  · rintro ⟨s, hs, path, hLength, hLeads⟩
    obtain ⟨r, hPlace⟩ := h.exists_place_of_leads (Tracks.knows_root hs) hLeads
    exact ⟨r, path, hPlace, hLength⟩
  · rintro ⟨r, path, hPlace, hLength⟩
    have hRoot := (h.root_of_place hPlace).2
    have hLeads := ((h.leads_iff hRoot).2 hPlace).1
    rcases hRoot with rfl | hr
    · exact ⟨σ.kernel.view, Or.inr rfl, path, hLength, hLeads⟩
    · obtain ⟨s, hs, rfl⟩ := List.mem_map.1 hr
      exact ⟨s, Or.inl hs, path, hLength, hLeads⟩

/-- When leaves have been rewritten and the books are done, a plan tracks the system. -/
theorem Tracks.rewritten (h : plan.Tracks σ) {m : Memory}
    (hWritten : plan.Rewritten σ.held σ.machine.memory m) {held : List Frame}
    (hBooks : σ.Rebooked { σ.withMachine { σ.machine with memory := m } with held := held }) :
    ∃ plan' : Plan, Releafed plan plan' m ∧
      plan'.Tracks { σ.withMachine { σ.machine with memory := m } with held := held } := by
  have hFrames : { σ.machine with memory := m }.frames = σ.machine.frames := rfl
  obtain ⟨plan', hPlan, hFits, hDescribes⟩ := h.describes.rewritten hWritten hFrames
  refine ⟨plan', hPlan, hDescribes held hBooks.nodup fun f => ?_, h.kernelRoot⟩
  have hMem := hBooks.mem_iff f
  rwa [System.Maps, System.Maps, h.describes.fits.atDepth_iff, Fits.atDepth_iff hFits] at hMem

/-- A traversal edits leaf entries alone, as the rule of its visitor says. -/
theorem Tracks.edited_after (h : plan.Tracks σ) {s : AddressSpace} (hs : σ.Knows s) {κ β : Type}
    {visitor : Visitor κ β} {rule : VirtualAddress → Entry → Entry → Prop} {userOnly : Bool}
    (hObeys : visitor.Obeys fun a e e' => (userOnly = true → a.isUser = true) → rule a e e')
    (hTrans : ∀ a e e' e'', rule a e e' → rule a e' e'' → rule a e e'') (k : κ) :
    ∃ m, Leaves.Edited plan TableIndex.all rule σ.machine.memory m ∧
      σ.after (s.visit userOnly visitor k) = σ.withMachine { σ.machine with memory := m } := by
  have hFits := h.describes.fits
  have hRoot := hFits.place_of_root (knows_root hs)
  obtain ⟨m, hEdited, hEnd⟩ := Leaves.edited_run hFits hObeys
    (fun a e e' e'' he he' hUser => hTrans a e e' e'' (he hUser) (he' hUser)) hRoot
    (if userOnly then TableIndex.userHalf else TableIndex.all) k
  refine ⟨m, ⟨hEdited.agree, fun {t r path} ht hLength i => ?_⟩, ?_⟩
  · refine (hEdited.leaf ht hLength i).imp_right fun ⟨hPresent, hSlots, hRule⟩ =>
      ⟨hPresent, fun j _ => TableIndex.mem_all j, hRule fun hOnly => ?_⟩
    have hFour : (i :: path).length = 4 := by rw [List.length_cons, hLength]
    refine (VirtualAddress.isUser_ofPath hFour).2 fun j hj => ?_
    have hMem := hSlots j hj
    rw [if_pos hOnly] at hMem
    exact of_decide_eq_true (List.mem_filter.1 hMem).2
  · rw [← AddressSpace.visit_eq_run] at hEnd
    rcases hEnd with ⟨o, hOk⟩ | ⟨v, hError⟩
    · rw [System.after, System.conclude_ok hOk]
    · rw [System.after, System.conclude_error hError]

theorem Tracks.of_visits (h : plan.Tracks σ) {rule : VirtualAddress → Entry → Entry → Prop}
    (hVisit : σ.Visits rule σ') (hTrans : ∀ a e e' e'', rule a e e' → rule a e' e'' → rule a e e'') :
    ∃ m held, Leaves.Edited plan TableIndex.all rule σ.machine.memory m ∧
      σ' = { σ.withMachine { σ.machine with memory := m } with held := held } ∧ σ.Rebooked σ' := by
  cases hVisit with
  | @intro s hs κ β visitor userOnly hObeys k held hBooks =>
    obtain ⟨m, hEdited, hAfter⟩ := h.edited_after hs hObeys hTrans k
    rw [hAfter] at hBooks ⊢
    exact ⟨m, held, hEdited, rfl, hBooks⟩

/-- Changing flags rewrites leaves. -/
theorem Tracks.rewritten_of_samePage (h : plan.Tracks σ) {m : Memory}
    {rule : VirtualAddress → Entry → Entry → Prop}
    (hEdited : Leaves.Edited plan TableIndex.all rule σ.machine.memory m)
    (hPages : ∀ a e e', rule a e e' → e.SamePage e') :
    plan.Rewritten σ.held σ.machine.memory m := by
  have hFits := h.describes.fits
  have hOld : ∀ {t r path i f}, plan t = some ⟨r, path⟩ → path.length = 3 →
      (m.entry ⟨t, i⟩).target = .ok (some f) → plan f = some ⟨r, i :: path⟩ := by
    intro t r path i f ht hLength hTarget
    refine (hFits.leaf ht hLength i).2 f ?_
    rcases hEdited.leaf ht hLength i with hSame | ⟨hPresent, -, hRule⟩
    · rwa [hSame] at hTarget
    · exact (hPages _ _ _ hRule).target_eq hPresent hTarget
  refine ⟨hEdited.agree, ?_, ?_, ?_⟩
  · rintro t ⟨r, path, ht, hLength⟩ i
    have hSmall := (hFits.leaf ht hLength i).1
    rcases hEdited.leaf ht hLength i with hSame | ⟨-, -, hRule⟩
    · rw [hSame, hSmall]
    · rw [(hPages _ _ _ hRule).pageSize_eq, hSmall]
  · rintro t f i ⟨r, path, ht, hLength⟩ hTarget
    exact Or.inr ⟨r, i :: path, hOld ht hLength hTarget, by rw [List.length_cons, hLength]⟩
  · rintro t u f i j ⟨r, p, ht, hp⟩ ⟨r', q, hu, hq⟩ hTarget hTarget'
    have hPlace := hOld ht hp hTarget
    rw [hOld hu hq hTarget'] at hPlace
    obtain ⟨rfl, rfl, rfl⟩ : r' = r ∧ j = i ∧ q = p := by simpa using hPlace
    rw [hFits.place_inj ht hu]

theorem Tracks.rewritten_of_disciplined (h : plan.Tracks σ)
    {rule : VirtualAddress → Entry → Entry → Prop}
    (hEdited : Leaves.Edited plan TableIndex.all rule σ.machine.memory σ'.machine.memory)
    (hDisciplined : σ.Disciplined σ') :
    plan.Rewritten σ.held σ.machine.memory σ'.machine.memory := by
  have hAt : ∀ {n f}, plan.AtDepth n f → σ.AtDepth n f := h.describes.fits.atDepth_iff.2
  refine ⟨hEdited.agree, fun ht => hDisciplined.small (hAt ht), fun ht hTarget => ?_, fun ht hu =>
    hDisciplined.once (hAt ht) (hAt hu)⟩
  exact (hDisciplined.page (hAt ht) hTarget).imp_right h.describes.fits.atDepth_iff.1

theorem Rewritten.disciplined (h : plan.Tracks σ)
    (hWritten : plan.Rewritten σ.held σ.machine.memory σ'.machine.memory) : σ.Disciplined σ' := by
  have hAt : ∀ {n f}, σ.AtDepth n f → plan.AtDepth n f := h.describes.fits.atDepth_iff.1
  refine ⟨fun ht => hWritten.small (hAt ht), fun ht hTarget => ?_, fun ht hu =>
    hWritten.once (hAt ht) (hAt hu)⟩
  exact (hWritten.page (hAt ht) hTarget).imp_right h.describes.fits.atDepth_iff.2

end Plan

/-- A traversal by a visitor that changes flags at the addresses that `may` selects, and nothing else. -/
def System.EditsFlags (may : VirtualAddress → Prop) (σ σ' : System) : Prop :=
  σ.Visits (fun a e e' => e.SamePage e' ∧ (may a ∨ e' = e)) σ'

/-- A traversal by a visitor that edits leaves of user pages alone, and redirects them with discipline. -/
def System.EditsUserLeaves (σ σ' : System) : Prop :=
  σ.Visits (fun a e e' => a.isUser = true ∨ e' = e) σ' ∧ σ.Disciplined σ'

/-- The traversals edit leaf entries as the rule says, and a plan that tracks the system before gives
one that tracks it after. -/
def System.Followed (rule : VirtualAddress → Entry → Entry → Prop) (visits : System → System → Prop) :
    Prop :=
  ∀ {σ σ' : System} {plan : Plan}, plan.Tracks σ → visits σ σ' →
    σ'.kernel = σ.kernel ∧ σ'.live = σ.live ∧
      Leaves.Edited plan TableIndex.all rule σ.machine.memory σ'.machine.memory ∧
      ∃ plan' : Plan, Plan.Releafed plan plan' σ'.machine.memory ∧ plan'.Tracks σ'

namespace System

theorem Followed.imp {rule rule' : VirtualAddress → Entry → Entry → Prop}
    {visits : System → System → Prop} (h : Followed rule visits)
    (hRule : ∀ a e e', rule a e e' → rule' a e e') : Followed rule' visits := by
  intro σ σ' plan hTracks hVisit
  obtain ⟨hKernel, hLive, hEdited, hPlan⟩ := h hTracks hVisit
  refine ⟨hKernel, hLive, ⟨hEdited.agree, fun ht hLength i => ?_⟩, hPlan⟩
  exact (hEdited.leaf ht hLength i).imp_right fun ⟨hPresent, hSlots, h⟩ => ⟨hPresent, hSlots, hRule _ _ _ h⟩

theorem followed_editsFlags (may : VirtualAddress → Prop) :
    Followed (fun a e e' => e.SamePage e' ∧ (may a ∨ e' = e)) (EditsFlags may) := by
  intro σ σ' plan hTracks hVisit
  have hTrans : ∀ a (e e' e'' : Entry), e.SamePage e' ∧ (may a ∨ e' = e) →
      e'.SamePage e'' ∧ (may a ∨ e'' = e') → e.SamePage e'' ∧ (may a ∨ e'' = e) := by
    rintro a e e' e'' ⟨hPage, hMay⟩ ⟨hPage', hMay'⟩
    exact ⟨hPage.trans hPage', Entry.may_trans hMay hMay'⟩
  obtain ⟨m, held, hEdited, rfl, hBooks⟩ := hTracks.of_visits hVisit hTrans
  have hWritten := hTracks.rewritten_of_samePage hEdited fun _ _ _ h => h.1
  exact ⟨rfl, rfl, hEdited, hTracks.rewritten hWritten hBooks⟩

theorem followed_editsUserLeaves : Followed (fun a e e' => a.isUser = true ∨ e' = e) EditsUserLeaves := by
  rintro σ σ' plan hTracks ⟨hVisit, hDisciplined⟩
  obtain ⟨m, held, hEdited, rfl, hBooks⟩ := hTracks.of_visits hVisit fun _ _ _ _ => Entry.may_trans
  have hWritten := hTracks.rewritten_of_disciplined hEdited hDisciplined
  exact ⟨rfl, rfl, hEdited, hTracks.rewritten hWritten hBooks⟩

theorem editsUserLeaves_of_editsFlags (h : plan.Tracks σ)
    (hVisit : σ.EditsFlags (fun a => a.isUser = true) σ') : σ.EditsUserLeaves σ' := by
  obtain ⟨-, -, hEdited, -⟩ := followed_editsFlags _ h hVisit
  refine ⟨hVisit.imp fun _ _ _ h => h.2, Plan.Rewritten.disciplined h ?_⟩
  exact h.rewritten_of_samePage hEdited fun _ _ _ h => h.1

end System

variable {start : System} {rule : VirtualAddress → Entry → Entry → Prop}
  {visits : System → System → Prop}

/-- A plan tracks every system that such a run leads to. -/
theorem EditedRun.tracks (hRun : EditedRun visits start σ) (hFollowed : System.Followed rule visits)
    (hStart : ∃ plan : Plan, plan.Tracks start) :
    σ.kernel = start.kernel ∧ ∃ plan : Plan, plan.Tracks σ := by
  induction hRun with
  | start => exact ⟨rfl, hStart⟩
  | request before request hAllowed ih =>
    obtain ⟨hKernel, plan, hTracks⟩ := ih
    obtain ⟨-, hSame, plan', hTracks', -⟩ := hTracks.step hAllowed
    exact ⟨hSame.trans hKernel, plan', hTracks'⟩
  | visit before hVisit ih =>
    obtain ⟨hKernel, plan, hTracks⟩ := ih
    obtain ⟨hSame, -, -, plan', -, hTracks'⟩ := hFollowed hTracks hVisit
    exact ⟨hSame.trans hKernel, plan', hTracks'⟩

/-- The caller can always do its books: the frames are among those in use. -/
theorem Plan.Tracks.exists_rebooked (h : plan.Tracks σ) (σ' : System) :
    ∃ held, σ.Rebooked { σ' with held := held } := by
  classical
  have hUse : ∀ f, f ∈ σ.held ∨ σ.Maps f → f ∈ σ.machine.frames.inUse := by
    intro f hf
    rw [h.describes.accounts.mem_inUse, Option.isSome_iff_exists]
    refine hf.imp_right fun hMaps => ?_
    obtain ⟨r, path, hPlace, -⟩ := h.describes.fits.atDepth_iff.1 hMaps
    exact ⟨_, hPlace⟩
  refine ⟨σ.machine.frames.inUse.filter fun f => (f ∈ σ.held ∨ σ.Maps f) ∧ ¬ σ'.Maps f, ?_, ?_⟩
  · exact h.describes.accounts.sound.inUse_nodup.filter _
  · intro f
    rw [List.mem_filter, decide_eq_true_eq]
    exact and_iff_right_of_imp fun hf => hUse f hf.1

/-- So every visitor that keeps to the rule can be sent through every space. -/
theorem Plan.Tracks.exists_visits (h : plan.Tracks σ) {s : AddressSpace} (hs : σ.Knows s) {κ β : Type}
    {visitor : Visitor κ β} {userOnly : Bool}
    (hObeys : visitor.Obeys fun a e e' => (userOnly = true → a.isUser = true) → rule a e e') (k : κ) :
    ∃ σ', σ.Visits rule σ' ∧ σ'.live = σ.live := by
  obtain ⟨held, hBooks⟩ := h.exists_rebooked (σ.after (s.visit userOnly visitor k))
  exact ⟨_, .intro hs hObeys k hBooks, σ.live_after _⟩

theorem Plan.Tracks.exists_marked (h : plan.Tracks σ) {s : AddressSpace} (hs : σ.Knows s)
    (g : Entry.Field) (on userOnly : Bool) (hFlag : g.isFlag = true) (hSmall : g ≠ .pageSize)
    {may : VirtualAddress → Prop}
    (hMay : ∀ a : VirtualAddress, (userOnly = true → a.isUser = true) → may a) :
    ∃ σ', σ.EditsFlags may σ' ∧ σ'.live = σ.live := by
  have hObeys : (Visitor.mark (κ := Unit) (β := Unit) g on).Obeys fun a e e' =>
      (userOnly = true → a.isUser = true) → e.SamePage e' ∧ (may a ∨ e' = e) :=
    Visitor.obeys_mark fun a e hUser => ⟨.putFlag e hFlag hSmall on, Or.inl (hMay a hUser)⟩
  exact h.exists_visits hs hObeys ()

theorem EditedRun.of_run {events : List Event} (hRun : Run start events σ) : EditedRun visits start σ := by
  induction hRun with
  | start => exact .start
  | next before request hAllowed ih => exact .request ih request hAllowed

end PagedKernel
