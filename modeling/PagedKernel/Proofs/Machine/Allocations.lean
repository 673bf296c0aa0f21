import PagedKernel.Proofs.Machine.Supply
import PagedKernel.Proofs.Stateful.Sessions
import PagedKernel.Proofs.Table.Entries

/-!
# What the allocator keeps

Whatever is asked of the allocator, frames only change sides: all of them are free or in use, and none is
both. So a frame that was handed out is not handed out again before it has come back. Frames that are not in
use cannot be given back, and after a limit was set, the requests beyond it are refused.

* `FrameAllocator.Call`, `FrameAllocator.Answer`, `FrameAllocator.answer`: what is asked, and what comes of it.
* `FrameAllocator.mem_ofFrames`, `FrameAllocator.nodup_ofFrames`: the frames at the start.
* `FrameAllocator.Splits`, `FrameAllocator.Splits.answer`: the frames are free or in use, and remain so.
* `FrameAllocator.Moves`, `FrameAllocator.Splits.moves`: at most one frame changes sides.
* `FrameAllocator.Splits.takenBack_of_given`: what must happen before a frame is handed out.
* `FrameAllocator.granted_of_budget`: which requests are refused under a limit.
* `FrameAllocator.keeps_frames`: so it is after any sequence of calls.
-/

namespace PagedKernel.FrameAllocator

variable {a a' : FrameAllocator} {f : Frame} {frames n : Nat} {all : List Frame}

/-! ## Calls -/

inductive Call where
  | alloc
  | release (f : Frame)
  | limitTo (n : Nat)
  | unlimited

/-- Whether the call leaves the limit on requests to those who make them. -/
def Call.keepsLimit : Call → Bool
  | .alloc | .release _ => true
  | .limitTo _ | .unlimited => false

inductive Answer where
  /-- The frame that was asked for, if there is one. -/
  | given (f : Option Frame)
  | takenBack (f : Frame)
  | done
  | broken (v : Violation)
deriving DecidableEq

def Answer.granted? : Answer → Option (Option Frame)
  | .given f => some f
  | .takenBack _ | .done | .broken _ => none

def answer (a : FrameAllocator) : Call → Answer × FrameAllocator
  | .alloc => let (f, a) := a.alloc; (.given f, a)
  | .release f =>
    match release f a with
    | .ok () a => (.takenBack f, a)
    | .error v a => (.broken v, a)
  | .limitTo n => (.done, a.limitTo n)
  | .unlimited => (.done, a.unlimited)

theorem answer_release_of_mem (h : f ∈ a.inUse) :
    a.answer (.release f) = (.takenBack f, a.releaseAll [f]) := by
  simp only [answer, release_eq_releaseAll h]

theorem answer_release_of_not_mem (h : f ∉ a.inUse) :
    a.answer (.release f) = (.broken (.notAllocated f), a) := by
  simp only [answer, release, if_neg h]

/-! ## The frames at the start -/

/-- Addresses of 64 bits tell `2 ^ 52` frames apart. -/
theorem mem_ofFrames (hFrames : frames ≤ 2 ^ 52) :
    f ∈ (ofFrames frames).free ↔ 1 ≤ f.number.toNat ∧ f.number.toNat < frames := by
  rw [ofFrames, List.mem_map]
  constructor
  · rintro ⟨n, hn, rfl⟩
    have hBounds := List.mem_range'_1.1 hn
    rw [Frame.toNat_number_ofNumber (by omega)]
    omega
  · rintro ⟨hLow, hHigh⟩
    refine ⟨f.number.toNat, List.mem_range'_1.2 (by omega), ?_⟩
    rw [UInt64.ofNat_toNat, Frame.ofNumber_number]

theorem nodup_ofFrames (hFrames : frames ≤ 2 ^ 52) : (ofFrames frames).free.Nodup := by
  have hNumber : ∀ n ∈ List.range' 1 (frames - 1),
      (Frame.ofNumber (UInt64.ofNat n)).number.toNat = n := by
    intro n hn
    have hBounds := List.mem_range'_1.1 hn
    exact Frame.toNat_number_ofNumber (by omega)
  refine List.Nodup.map_on (fun n hn n' hn' hEq => ?_) List.nodup_range'
  rw [← hNumber n hn, ← hNumber n' hn', hEq]

/-- Of more frames than that, one would be taken for frame zero. -/
theorem zero_mem_ofFrames (hFrames : 2 ^ 52 < frames) : Frame.ofNumber 0 ∈ (ofFrames frames).free := by
  refine List.mem_map.2 ⟨2 ^ 52, List.mem_range'_1.2 (by omega), ?_⟩
  decide

/-! ## The frames change sides -/

/-- What can come of a call: all frames stay where they are, or one is handed out or taken back. -/
inductive Moves (a : FrameAllocator) : Answer × FrameAllocator → Prop where
  | stay {r : Answer} {a' : FrameAllocator} (hFree : a'.free = a.free) (hUse : a'.inUse = a.inUse)
      (hNone : ∀ f, r ≠ .given (some f)) : Moves a (r, a')
  | handOut {f : Frame} (hFree : f ∈ a.free) (hUse : f ∈ (a.serve 1).inUse) :
      Moves a (.given (some f), a.serve 1)
  | takeBack {f : Frame} (hUse : f ∈ a.inUse) : Moves a (.takenBack f, a.releaseAll [f])

/-- These are the frames, each of them free or in use. -/
def Splits (a : FrameAllocator) (all : List Frame) : Prop := (a.free ++ a.inUse).Perm all

theorem splits_ofFrames (frames : Nat) : (ofFrames frames).Splits (ofFrames frames).free := by
  rw [Splits]
  exact List.Perm.of_eq (List.append_nil _)

namespace Splits

theorem congr (h : a.Splits all) (hFree : a'.free = a.free) (hUse : a'.inUse = a.inUse) :
    a'.Splits all := by
  rw [Splits, hFree, hUse]
  exact h

theorem nodup (h : a.Splits all) (hAll : all.Nodup) :
    a.free.Nodup ∧ a.inUse.Nodup ∧ a.free.Disjoint a.inUse :=
  List.nodup_append'.1 (h.nodup_iff.2 hAll)

theorem mem_iff (h : a.Splits all) : f ∈ a.free ∨ f ∈ a.inUse ↔ f ∈ all := by
  rw [← List.mem_append]
  exact List.Perm.mem_iff h

theorem serve (h : a.Splits all) (n : Nat) : (a.serve n).Splits all := by
  refine List.Perm.trans ?_ h
  show (a.free.drop n ++ ((a.free.take n).reverse ++ a.inUse)).Perm (a.free ++ a.inUse)
  rw [← List.append_assoc]
  refine List.Perm.append_right _ (((List.reverse_perm _).append_left _).trans ?_)
  exact List.perm_append_comm.trans (List.Perm.of_eq (List.take_append_drop n a.free))

theorem giveBack (h : a.Splits all) (hUse : f ∈ a.inUse) : (a.releaseAll [f]).Splits all := by
  refine List.Perm.trans ?_ h
  show (f :: a.free ++ a.inUse.diff [f]).Perm (a.free ++ a.inUse)
  rw [List.diff_cons, List.diff_nil]
  exact List.perm_middle.symm.trans ((List.perm_cons_erase hUse).symm.append_left a.free)

/-- A request for a frame is served from the front of the free list. -/
theorem alloc_served (h : a.Splits all) (hAll : all.Nodup) {rest : List Frame} (hFree : a.free = f :: rest)
    (hSupply : 0 < a.supply) : a.alloc = (some f, a.serve 1) :=
  alloc_of_supply_pos hFree ((h.nodup hAll).2.2 (hFree ▸ List.mem_cons_self)) hSupply

/-- It is refused, or it is served. -/
theorem alloc_cases (h : a.Splits all) (hAll : all.Nodup) :
    a.alloc = (none, a.refuse) ∨
      ∃ f, f ∈ a.free ∧ a.alloc = (some f, a.serve 1) ∧ f ∈ (a.serve 1).inUse := by
  rcases Nat.eq_zero_or_pos a.supply with hNone | hSome
  · exact Or.inl (alloc_of_supply_eq_zero hNone)
  · obtain ⟨f, rest, hFree⟩ := exists_free_of_supply hSome
    refine Or.inr ⟨f, hFree ▸ List.mem_cons_self, h.alloc_served hAll hFree hSome, ?_⟩
    simp [FrameAllocator.serve, hFree]

theorem moves (h : a.Splits all) (hAll : all.Nodup) (c : Call) : a.Moves (a.answer c) := by
  cases c with
  | alloc =>
    rw [FrameAllocator.answer]
    rcases h.alloc_cases hAll with hAlloc | ⟨f, hFree, hAlloc, hUse⟩
    · rw [hAlloc]
      exact .stay rfl rfl nofun
    · rw [hAlloc]
      exact .handOut hFree hUse
  | release f =>
    by_cases hUse : f ∈ a.inUse
    · rw [answer_release_of_mem hUse]
      exact .takeBack hUse
    · rw [answer_release_of_not_mem hUse]
      exact .stay rfl rfl nofun
  | limitTo n => exact .stay rfl rfl nofun
  | unlimited => exact .stay rfl rfl nofun

theorem answer (hAll : all.Nodup) (a : FrameAllocator) (c : Call) (h : a.Splits all) :
    (a.answer c).2.Splits all := by
  have hMoves := h.moves hAll c
  generalize a.answer c = out at hMoves ⊢
  cases hMoves with
  | stay hFree hUse _ => exact h.congr hFree hUse
  | handOut _ _ => exact h.serve 1
  | takeBack hUse => exact h.giveBack hUse

/-! ## Before a frame is handed out -/

/-- A frame that is handed out was free, and is in use then. -/
theorem of_given (h : a.Splits all) (hAll : all.Nodup) {c : Call}
    (hGiven : (a.answer c).1 = .given (some f)) : f ∈ a.free ∧ f ∈ (a.answer c).2.inUse := by
  have hMoves := h.moves hAll c
  generalize a.answer c = out at hMoves hGiven ⊢
  cases hMoves with
  | stay _ _ hNone => exact absurd hGiven (hNone f)
  | handOut hFree hUse =>
    cases hGiven
    exact ⟨hFree, hUse⟩
  | takeBack _ => cases hGiven

theorem of_inUse (h : a.Splits all) (hAll : all.Nodup) (hUse : f ∈ a.inUse) (c : Call) :
    (a.answer c).1 = .takenBack f ∨ f ∈ (a.answer c).2.inUse := by
  have hMoves := h.moves hAll c
  generalize a.answer c = out at hMoves ⊢
  cases hMoves with
  | stay _ hSame _ => exact Or.inr (hSame ▸ hUse)
  | handOut _ _ => exact Or.inr (List.mem_append_right _ hUse)
  | @takeBack g _ =>
    by_cases hEq : g = f
    · exact Or.inl (congrArg Answer.takenBack hEq)
    · refine Or.inr ?_
      show f ∈ a.inUse.diff [g]
      rw [List.diff_cons, List.diff_nil]
      exact (List.mem_erase_of_ne (Ne.symm hEq)).2 hUse

/-- Before a frame that is in use is handed out, it is taken back. -/
theorem takenBack_of_inUse (h : a.Splits all) (hAll : all.Nodup) (hUse : f ∈ a.inUse) {calls : List Call}
    {before after : List Answer}
    (hAnswers : (answerAll FrameAllocator.answer a calls).1 = before ++ .given (some f) :: after) :
    .takenBack f ∈ before := by
  induction calls generalizing a before with
  | nil => simp [answerAll] at hAnswers
  | cons c calls ih =>
    rw [answerAll_cons] at hAnswers
    cases before with
    | nil =>
      obtain ⟨hFree, -⟩ := h.of_given hAll (List.cons.inj hAnswers).1
      exact absurd hUse ((h.nodup hAll).2.2 hFree)
    | cons first before =>
      obtain ⟨hFirst, hRest⟩ := List.cons.inj hAnswers
      rcases h.of_inUse hAll hUse c with hBack | hStill
      · exact List.mem_cons.2 (Or.inl (hBack.symm.trans hFirst))
      · exact List.mem_cons_of_mem first (ih (.answer hAll a c h) hStill hRest)

/-- Between two times that a frame is handed out, it is taken back. -/
theorem takenBack_of_given (h : a.Splits all) (hAll : all.Nodup) {calls : List Call}
    {before between after : List Answer}
    (hAnswers : (answerAll FrameAllocator.answer a calls).1 =
      before ++ .given (some f) :: (between ++ .given (some f) :: after)) :
    .takenBack f ∈ between := by
  induction calls generalizing a before with
  | nil => simp [answerAll] at hAnswers
  | cons c calls ih =>
    rw [answerAll_cons] at hAnswers
    have hNext := h.answer hAll a c
    cases before with
    | nil =>
      obtain ⟨hFirst, hRest⟩ := List.cons.inj hAnswers
      exact hNext.takenBack_of_inUse hAll (h.of_given hAll hFirst).2 hRest
    | cons first before => exact ih hNext (List.cons.inj hAnswers).2

end Splits

/-! ## Under a limit -/

/-- A frame that comes back is no answer to a request, and does not count for the limit. -/
theorem answer_release (a : FrameAllocator) (f : Frame) :
    (a.answer (.release f)).1.granted? = none ∧ (a.answer (.release f)).2.budget = a.budget := by
  by_cases hUse : f ∈ a.inUse
  · rw [answer_release_of_mem hUse]
    exact ⟨rfl, rfl⟩
  · rw [answer_release_of_not_mem hUse]
    exact ⟨rfl, rfl⟩

/-- Of the requests under a limit of `n`, those after the first `n` are refused. -/
theorem granted_of_budget (hBudget : a.budget = some n) {calls : List Call}
    (hKeep : ∀ c ∈ calls, c.keepsLimit = true) :
    ∀ o ∈ ((answerAll answer a calls).1.filterMap Answer.granted?).drop n, o = none := by
  induction calls generalizing a n with
  | nil => simp [answerAll]
  | cons c calls ih =>
    have hRest : ∀ c ∈ calls, c.keepsLimit = true := fun c hc => hKeep c (List.mem_cons_of_mem _ hc)
    rw [answerAll_cons]
    cases c with
    | alloc =>
      have hGranted : (a.answer .alloc).1.granted? = some a.alloc.1 := rfl
      rw [List.filterMap_cons_some hGranted]
      obtain ⟨free, inUse, budget⟩ := a
      obtain rfl : budget = some n := hBudget
      cases n with
      | zero =>
        -- Nothing is left of the limit, and nothing is taken off.
        intro o ho
        rcases List.mem_cons.1 ho with rfl | hLater
        · rfl
        · exact @ih ⟨free, inUse, some 0⟩ 0 rfl hRest o hLater
      | succ n =>
        rw [List.drop_succ_cons]
        refine ih ?_ hRest
        cases free <;> rfl
    | release f =>
      obtain ⟨hNone, hSame⟩ := a.answer_release f
      rw [List.filterMap_cons_none hNone]
      exact ih (hSame.trans hBudget) hRest
    | limitTo _ | unlimited => exact absurd (hKeep _ List.mem_cons_self) Bool.false_ne_true

/-- There is something to serve while a frame is free and the limit is not used up. -/
theorem supply_pos {rest : List Frame} (hFree : a.free = f :: rest) (hLimit : a.budget ≠ some 0) :
    0 < a.supply := by
  rw [supply, hFree]
  split
  next => exact Nat.succ_pos _
  next n hBudget =>
    have hPos : n ≠ 0 := fun hZero => hLimit (hZero ▸ hBudget)
    rw [List.length_cons]
    omega

theorem frames_of_refused (h : a.alloc = (none, a')) : a'.free = a.free ∧ a'.inUse = a.inUse := by
  obtain ⟨free, inUse, budget⟩ := a
  cases free with
  | nil =>
    obtain _ | _ | n := budget <;> cases h <;> exact ⟨rfl, rfl⟩
  | cons f rest =>
    obtain _ | _ | n := budget <;> cases h
    exact ⟨rfl, rfl⟩

/-- There are at most `2 ^ 52` frames, as a physical address has 64 bits. Those from 1 up to the last remain
the same, and each is free or in use. No other is ever handed out, and none is handed out a second time
before it was taken back. Just those in use can be given back; for any other frame nothing changes. A request
is served as long as there is a free frame and the limit is not used up, and one that is refused changes
neither list; after a limit was set, all requests beyond it are refused until it is set again or lifted. -/
theorem keeps_frames (hFrames : frames ≤ 2 ^ 52) (calls : List Call) :
    ∃ answers a, answerAll answer (ofFrames frames) calls = (answers, a) ∧
      (a.free.Nodup ∧ a.inUse.Nodup ∧ a.free.Disjoint a.inUse) ∧
      (∀ f, f ∈ a.free ∨ f ∈ a.inUse ↔ 1 ≤ f.number.toNat ∧ f.number.toNat < frames) ∧
      a.free.length + a.inUse.length = frames - 1 ∧
      (∀ f, .given (some f) ∈ answers → 1 ≤ f.number.toNat ∧ f.number.toNat < frames) ∧
      (∀ f before between after,
        answers = before ++ .given (some f) :: (between ++ .given (some f) :: after) →
          .takenBack f ∈ between) ∧
      (∀ f, (f ∈ a.inUse → ∃ a', release f a = .ok () a' ∧ a'.free = f :: a.free ∧
          ∀ g, g ∈ a'.inUse ↔ g ≠ f ∧ g ∈ a.inUse) ∧
        (f ∉ a.inUse → release f a = .error (.notAllocated f) a)) ∧
      (∀ n later, (∀ c ∈ later, c.keepsLimit = true) →
        ∀ o ∈ ((answerAll answer a (.limitTo n :: later)).1.filterMap Answer.granted?).drop n, o = none) ∧
      (∀ f rest, a.free = f :: rest → a.budget ≠ some 0 →
        ∃ a', a.alloc = (some f, a') ∧ a'.free = rest ∧ a'.inUse = f :: a.inUse) ∧
      (∀ a', a.alloc = (none, a') → a'.free = a.free ∧ a'.inUse = a.inUse) := by
  have hAll := nodup_ofFrames hFrames
  have hKeep := fun a c => Splits.answer hAll a c
  have hSplits := answerAll_keeps hKeep (splits_ofFrames frames) calls
  obtain ⟨hFree, hUse, hDisjoint⟩ := hSplits.nodup hAll
  refine ⟨_, _, rfl, ⟨hFree, hUse, hDisjoint⟩, fun f => hSplits.mem_iff.trans (mem_ofFrames hFrames), ?_,
    fun f hGiven => ?_, fun f before between after hAnswers => ?_, fun f => ⟨fun hMem => ?_, fun hMem => ?_⟩,
    fun n later hLater => ?_, fun f rest hFirst hLimit => ?_, fun a' => frames_of_refused⟩
  · rw [← List.length_append, hSplits.length_eq]
    simp [ofFrames]
  · obtain ⟨a', c, hSplits', hAnswer⟩ := mem_answerAll hKeep (splits_ofFrames frames) hGiven
    exact (mem_ofFrames hFrames).1 (hSplits'.mem_iff.1 (Or.inl (hSplits'.of_given hAll hAnswer).1))
  · exact (splits_ofFrames frames).takenBack_of_given hAll hAnswers
  · exact ⟨_, release_of_mem hMem, rfl, fun g => hUse.mem_erase_iff⟩
  · rw [release, if_neg hMem]
  · exact granted_of_budget (a := limitTo n _) rfl hLater
  · refine ⟨_, hSplits.alloc_served hAll hFirst (supply_pos hFirst hLimit), ?_, ?_⟩
    · rw [serve, hFirst, List.drop_one, List.tail_cons]
    · rw [serve, hFirst]
      rfl

/-- Of three frames two are handed out and one is taken back, but not twice. With a limit of one it is handed
out again, and nothing after it. -/
theorem keeps_frames_four : ∃ a, 4 ≤ 2 ^ 52 ∧
    answerAll answer (ofFrames 4)
        [.alloc, .alloc, .release (.ofNumber 1), .release (.ofNumber 1), .limitTo 1, .alloc, .alloc] =
      ([.given (some (.ofNumber 1)), .given (some (.ofNumber 2)), .takenBack (.ofNumber 1),
        .broken (.notAllocated (.ofNumber 1)), .done, .given (some (.ofNumber 1)), .given none], a) ∧
    a.free.length + a.inUse.length = 3 ∧
    release (.ofNumber 3) a = .error (.notAllocated (.ofNumber 3)) a := by
  obtain ⟨answers, a, hRun, -, -, hLength, -, -, hRelease, -⟩ := keeps_frames (show 4 ≤ 2 ^ 52 by decide)
    [.alloc, .alloc, .release (.ofNumber 1), .release (.ofNumber 1), .limitTo 1, .alloc, .alloc]
  obtain ⟨rfl, rfl⟩ := Prod.mk.inj hRun
  exact ⟨_, by decide, rfl, hLength, (hRelease _).2 (by decide)⟩

end PagedKernel.FrameAllocator
