import PagedKernel.Proofs.AddressSpace.KernelTables
import PagedKernel.Proofs.Run.Edited

/-!
# What the kernel has stays

No request writes a table of the kernel's tree, and a traversal writes leaf tables alone. So what the
kernel has at an address stays what it is in every run whose visitors leave the kernel's leaves alone,
and what a space has in the kernel half with it.

* `Plan.Tracks.agreeOn_perform`: what lies aside of the spaces, after a request.
* `Plan.Tracks.agreeOn_kernelTables`: the kernel's tables do.
* `Plan.Tracks.entry_kernelTable`: the entries after a traversal.
* `EditedRun.leaf?_kernel`: what the kernel has, after a run.
-/

namespace PagedKernel

variable {plan : Plan} {σ σ' start : System} {request : Request} {t : Frame} {m : Memory}
  {rule : VirtualAddress → Entry → Entry → Prop} {slots : List TableIndex}

theorem System.agreeOn_conclude {α : Type} {keep : Frame → Prop} {x : MachineM α}
    {after : α → System → Reply × System} (hx : KeepsFrames keep σ.machine x)
    (hAfter : ∀ o σ', (after o σ').2.machine = σ'.machine) :
    σ.machine.memory.AgreeOn keep (σ.conclude x after).2.machine.memory := by
  have hEnd := hx σ.machine rfl
  cases hRun : x σ.machine with
  | ok o m =>
    rw [hRun] at hEnd
    rw [conclude_ok hRun, hAfter]
    exact hEnd
  | error v m =>
    rw [hRun] at hEnd
    rw [conclude_error hRun]
    exact hEnd

namespace Plan.Tracks

/-- No request writes a frame that lies aside of the spaces, unless the caller may write it. -/
theorem agreeOn_perform (h : plan.Tracks σ) (hAllowed : σ.Allowed request) {keep : Frame → Prop}
    (hAside : plan.Aside σ.kernel.root σ.machine keep)
    (hWrite : ∀ p bytes, request = .write p bytes →
      ∀ i < bytes.length, ∀ q, p.add i = .ok q → ¬ keep q.frame) :
    σ.machine.memory.AgreeOn keep (σ.perform request).2.machine.memory := by
  have hLive : ∀ {s}, σ.Knows s → s.isKernel = false → s.root ∈ σ.live.map (·.root) :=
    fun hs hKernel => root_mem (live_of_knows hs hKernel)
  cases request with
  | alloc =>
    refine System.agreeOn_conclude ?_ fun _ _ => rfl
    rw [MachineM.takeFrame?]
    exact .onFrames _
  | free f =>
    refine System.agreeOn_conclude ?_ fun _ _ => rfl
    rw [MachineM.giveFrame]
    exact .onFrames _
  | limit n => exact .refl _ _
  | unlimit => exact .refl _ _
  | create =>
    refine System.agreeOn_conclude (h.describes.keepsFrames_create hAside rfl) fun o σ' => ?_
    cases o <;> rfl
  | map s page kernelAlias writable =>
    refine System.agreeOn_conclude (h.describes.keepsFrames_map hAside (hLive hAllowed.1) page kernelAlias writable)
      fun o σ' => ?_
    cases o with
    | error e => rfl
    | ok _ =>
      show (σ'.giveUp kernelAlias).machine = _
      rw [System.giveUp]
      split <;> rfl
  | unmap s page =>
    exact System.agreeOn_conclude (h.describes.keepsFrames_unmap hAside (hLive hAllowed) page) fun _ _ => rfl
  | markDirty s a on =>
    exact System.agreeOn_conclude (h.describes.keepsFrames_setLeafFlag hAside (hLive hAllowed) .dirty a on)
      fun _ _ => rfl
  | markAccessed s a on =>
    exact System.agreeOn_conclude (h.describes.keepsFrames_setLeafFlag hAside (hLive hAllowed) .accessed a on)
      fun _ _ => rfl
  | activate s =>
    cases s <;> exact .refl _ _
  | destroy s =>
    exact System.agreeOn_conclude (h.describes.keepsFrames_destroy (hLive hAllowed)) fun _ _ => rfl
  | copyTo s dst bytes =>
    obtain ⟨o, m, hCopy, hFrames, hAgree⟩ := h.describes.copyTo_eq (knows_root hAllowed) dst bytes
    exact System.agreeOn_conclude (.of_ok hCopy (hAgree.mono fun f hf _ _ hPlace =>
      (hAside.place hf hPlace).2)) fun _ _ => rfl
  | copyFrom s src buffer =>
    obtain ⟨o, hCopy⟩ := h.describes.copyFrom_eq (knows_root hAllowed) src buffer
    exact System.agreeOn_conclude (.of_ok_self hCopy) fun _ _ => rfl
  | write p bytes =>
    obtain ⟨memory, hAgree, -, hAfter⟩ := σ.write_cases keep (hWrite p bytes rfl)
    rw [hAfter]
    exact hAgree

theorem agreeOn_kernelTables (h : plan.Tracks σ) (hAllowed : σ.Allowed request) :
    σ.machine.memory.AgreeOn (plan.KernelTable σ.kernel.root)
      (σ.perform request).2.machine.memory := by
  refine h.agreeOn_perform hAllowed h.describes.aside_kernelTable ?_
  rintro p bytes rfl j hj q hq ⟨path, hPlace, hLength⟩
  exact h.not_table_of_mayWrite (hAllowed j hj q hq) hPlace hLength

theorem leaf?_perform (h : plan.Tracks σ) (hAllowed : σ.Allowed request) (a : VirtualAddress) :
    (σ.perform request).2.machine.memory.leaf? σ.kernel.root a =
      σ.machine.memory.leaf? σ.kernel.root a := by
  have hAgree := h.agreeOn_kernelTables hAllowed
  exact h.describes.fits.leaf?_of_kernelTables hAgree.frames_eq (fun t ht i => hAgree.entry ht) a

section Edited

variable (h : plan.Tracks σ) (hRule : ∀ a e e', rule a e e' → a.isUser = true ∨ e' = e)
  (hEdited : Leaves.Edited plan slots rule σ.machine.memory m)

include h hRule hEdited

/-- A traversal that leaves all but the leaves of user pages alone writes no table of the kernel's
tree: the leaves there have addresses in the kernel half. -/
theorem entry_kernelTable (ht : plan.KernelTable σ.kernel.root t) (i : TableIndex) :
    m.entry ⟨t, i⟩ = σ.machine.memory.entry ⟨t, i⟩ := by
  obtain ⟨path, hPlace, -⟩ := ht
  by_cases hLength : path.length = 3
  · rcases hEdited.leaf hPlace hLength i with hSame | ⟨-, -, hRuled⟩
    · exact hSame
    · refine (hRule _ _ _ hRuled).resolve_left ?_
      have hFour : (i :: path).length = 4 := by rw [List.length_cons, hLength]
      have hOwn : OwnPath σ.kernel.root σ.kernel.root (i :: path) :=
        ownPath_cons.2 ⟨branches_of_length hLength, h.describes.fits.ownPath hPlace⟩
      have hKernel := (VirtualAddress.isKernel_ofPath hFour).2 (Fits.ownPath_kernel.1 hOwn)
      rw [VirtualAddress.isUser_eq_false hKernel]
      exact nofun
  · exact hEdited.entry_eq hPlace hLength i

theorem leaf?_edited (a : VirtualAddress) :
    m.leaf? σ.kernel.root a = σ.machine.memory.leaf? σ.kernel.root a :=
  h.describes.fits.leaf?_of_kernelTables hEdited.agree.frames_eq
    (fun _ ht i => h.entry_kernelTable hRule hEdited ht i) a

theorem leaf?_edited_upper {s : AddressSpace} (hs : σ.Knows s) {a : VirtualAddress}
    (ha : a.isKernel = true) :
    m.leaf? s.root a = σ.machine.memory.leaf? σ.kernel.root a := by
  have hFits := h.describes.fits
  have hUpper := VirtualAddress.le_indexOf_pml4 ha
  rcases knows_root hs with hRoot | hRoot
  · rw [hRoot]
    exact h.leaf?_edited hRule hEdited a
  · rw [← hFits.leaf?_upper hRoot hUpper]
    refine hFits.leaf?_upper_of_kernelTables hEdited.agree.frames_eq
      (fun _ ht i => h.entry_kernelTable hRule hEdited ht i) hRoot (fun i => ?_) hUpper
    exact hEdited.entry_eq (hFits.root_place hRoot) (by simp) i

end Edited

end Plan.Tracks

/-- What the kernel has at an address stays in every run whose visitors leave its leaves alone. -/
theorem EditedRun.leaf?_kernel {visits : System → System → Prop} (hRun : EditedRun visits start σ)
    (hFollowed : System.Followed (fun a e e' => a.isUser = true ∨ e' = e) visits)
    (hStart : ∃ plan : Plan, plan.Tracks start) (a : VirtualAddress) :
    σ.machine.memory.leaf? start.kernel.root a = start.machine.memory.leaf? start.kernel.root a := by
  induction hRun with
  | start => rfl
  | request before request hAllowed ih =>
    obtain ⟨hKernel, plan, hTracks⟩ := before.tracks hFollowed hStart
    rw [← ih, ← hKernel]
    exact hTracks.leaf?_perform hAllowed a
  | visit before hVisit ih =>
    obtain ⟨hKernel, plan, hTracks⟩ := before.tracks hFollowed hStart
    obtain ⟨-, -, hEdited, -⟩ := hFollowed hTracks hVisit
    rw [← ih, ← hKernel]
    exact hTracks.leaf?_edited (fun _ _ _ h => h) hEdited a

end PagedKernel
