import PagedKernel.Proofs.Probe.Execution
import PagedKernel.Proofs.UserMemory.PageView
import PagedKernel.Proofs.UserMemory.Recorded

/-!
# Which pages are sampled

Sampling goes from page to page until it comes to the page of the last byte, and reads one byte on each. The
number of pages need not be known for that: what is said here of the loop only compares pages.

Where the addresses of a page are readable together, a byte tells about its page. So sampling stops on the
first page that is out of reach, having read a byte of that page and of all the pages before it.

* `UserMemory.Samples`: the loop, with the addresses that it reads.
* `UserMemory.sampleFrom_eq_ok_iff`: sampling a known number of pages is the loop.
* `UserMemory.Samples.ascending`, `UserMemory.Samples.inside`: at most one byte on each page, in order, and
  none outside of the buffer.
* `UserMemory.Samples.touches_iff`, `UserMemory.Samples.exists_fault`: the pages that a byte is read on, and where a
  fault comes from.
* `UserMemory.samplePages_scans`: all this of a buffer in user space.
-/

namespace PagedKernel

open Stateful

theorem VirtualAddress.base_page_lt_iff {a b : VirtualAddress} :
    a.page.base.val < b.page.base.val ↔ a.val.toNat / 4096 < b.val.toNat / 4096 := by
  rw [UInt64.lt_iff_toNat_lt, toNat_base_page, toNat_base_page]
  omega

/-- A fault names the address that was asked for. -/
def UserView.Names (view : UserView) : Prop := ∀ a e, view a = .error e → e.address = a

def VirtualAddress.InBuffer (a buffer : VirtualAddress) (length : UInt64) : Prop :=
  buffer.val.toNat ≤ a.val.toNat ∧ a.val.toNat < buffer.val.toNat + length.toNat

namespace UserMemory

variable {σ : Type} {u : UserMemory σ} {a b c last : VirtualAddress} {m m' : σ}
  {touched : List VirtualAddress} {o : Except UserFault Unit} {o' : Except UserFault UInt8} {view : UserView}

/-! ## The loop -/

/-- As long as the page of `a` is not that of `last`, a byte is read and `a` moves on to the start of the next
page; on the page of `last`, that byte is read. The addresses that were read are `touched`. -/
inductive Samples (u : UserMemory σ) (last : VirtualAddress) :
    VirtualAddress → σ → List VirtualAddress → Except UserFault Unit → σ → Prop
  | last {a : VirtualAddress} {m m' : σ} {o : Except UserFault UInt8} (hPage : a.page = last.page)
      (hByte : u.readByte last m = .ok o m') : Samples u last a m [last] (o.map fun _ => ()) m'
  | fault {a : VirtualAddress} {m m' : σ} {e : UserFault} (hPage : a.page ≠ last.page)
      (hByte : u.readByte a m = .ok (.error e) m') : Samples u last a m [a] (.error e) m'
  | next {a b : VirtualAddress} {m m₁ m' : σ} {x : UInt8} {touched : List VirtualAddress}
      {o : Except UserFault Unit} (hPage : a.page ≠ last.page) (hByte : u.readByte a m = .ok (.ok x) m₁)
      (hNext : a.page.base.add pageSize.toNat = .ok b) (hRest : Samples u last b m₁ touched o m') :
      Samples u last a m (a :: touched) o m'

theorem toNat_next (h : a.page.base.add pageSize.toNat = .ok b) :
    b.val.toNat = (a.val.toNat / 4096 + 1) * 4096 := by
  have hSize : pageSize.toNat = 4096 := rfl
  rw [VirtualAddress.add_eq_ok, VirtualAddress.toNat_base_page] at h
  omega

theorem Samples.sampleFrom (h : u.Samples last a m touched o m') {pages : Nat}
    (hPages : last.val.toNat / 4096 = a.val.toNat / 4096 + pages) :
    sampleFrom u last pages a m = .ok o m' := by
  induction h generalizing pages with
  | last hPage hByte =>
    obtain rfl : pages = 0 := by
      have hSame := VirtualAddress.page_eq_iff.1 hPage
      omega
    rw [PagedKernel.sampleFrom, bind_ok hByte]
    rfl
  | fault hPage hByte =>
    have hMore : pages ≠ 0 := by
      rintro rfl
      exact hPage (VirtualAddress.page_eq_iff.2 hPages.symm)
    obtain ⟨pages, rfl⟩ := Nat.exists_eq_succ_of_ne_zero hMore
    rw [PagedKernel.sampleFrom, bind_ok hByte]
    rfl
  | next hPage hByte hNext hRest ih =>
    have hMore : pages ≠ 0 := by
      rintro rfl
      exact hPage (VirtualAddress.page_eq_iff.2 hPages.symm)
    obtain ⟨pages, rfl⟩ := Nat.exists_eq_succ_of_ne_zero hMore
    have hNumber := toNat_next hNext
    rw [PagedKernel.sampleFrom, bind_ok hByte]
    show (liftM _ >>= _ : Stateful σ _) _ = _
    rw [bind_ok (lift_ok hNext)]
    exact ih (by omega)

/-- Sampling that comes to an end is a loop that comes to the same end. -/
theorem exists_samples {pages : Nat} (hPages : last.val.toNat / 4096 = a.val.toNat / 4096 + pages)
    (h : sampleFrom u last pages a m = .ok o m') : ∃ touched, u.Samples last a m touched o m' := by
  induction pages generalizing a m with
  | zero =>
    have hPage : a.page = last.page := VirtualAddress.page_eq_iff.2 hPages.symm
    obtain ⟨got, m₁, hByte, hEnd⟩ := ok_of_bind h
    cases hEnd
    exact ⟨[last], .last hPage hByte⟩
  | succ pages ih =>
    have hPage : a.page ≠ last.page := fun hSame => by
      have hNumber := VirtualAddress.page_eq_iff.1 hSame
      omega
    obtain ⟨got, m₁, hByte, hEnd⟩ := ok_of_bind h
    cases got with
    | error e =>
      cases hEnd
      exact ⟨[a], .fault hPage hByte⟩
    | ok x =>
      obtain ⟨b, m₂, hLift, hRest⟩ := ok_of_bind hEnd
      cases hNext : a.page.base.add pageSize.toNat with
      | error v =>
        rw [hNext] at hLift
        cases hLift
      | ok c =>
        rw [hNext] at hLift
        cases hLift
        have hNumber := toNat_next hNext
        obtain ⟨touched, hSamples⟩ := ih (by omega) hRest
        exact ⟨a :: touched, .next hPage hByte hNext hSamples⟩

/-- The loop and sampling come to an end together. -/
theorem sampleFrom_eq_ok_iff {pages : Nat} (hPages : last.val.toNat / 4096 = a.val.toNat / 4096 + pages) :
    sampleFrom u last pages a m = .ok o m' ↔ ∃ touched, u.Samples last a m touched o m' :=
  ⟨exists_samples hPages, fun ⟨_, hSamples⟩ => hSamples.sampleFrom hPages⟩

theorem Reads.eq_of_readByte (hReads : u.Reads m view) (h : u.readByte a m = .ok o' m') :
    view a = o' ∧ m' = m := by
  have hEq := (hReads a).symm.trans h
  cases hEq
  exact ⟨rfl, rfl⟩

theorem readByte_recorded (h : u.readByte a m = .ok o' m') (trace : List VirtualAddress) :
    u.recorded.readByte a (m, trace) = .ok o' (m', a :: trace) := by
  simp only [recorded, h]

namespace Samples

/-- The addresses that are read are those that the memory is asked for. -/
theorem recorded (h : u.Samples last a m touched o m') (trace : List VirtualAddress) :
    u.recorded.Samples last a (m, trace) touched o (m', touched.reverse ++ trace) := by
  induction h generalizing trace with
  | last hPage hByte => exact .last hPage (readByte_recorded hByte trace)
  | fault hPage hByte => exact .fault hPage (readByte_recorded hByte trace)
  | @next a b m m₁ m' x touched o hPage hByte hNext hRest ih =>
    have hTail := ih (a :: trace)
    rw [← List.singleton_append, ← List.append_assoc, ← List.reverse_cons] at hTail
    exact .next hPage (readByte_recorded hByte trace) hNext hTail

/-! ## The addresses -/

theorem next_le (hLe : a.val.toNat ≤ last.val.toNat) (hPage : a.page ≠ last.page)
    (hNext : a.page.base.add pageSize.toNat = .ok b) :
    a.val.toNat / 4096 < b.val.toNat / 4096 ∧ a.val.toNat < b.val.toNat ∧ b.val.toNat ≤ last.val.toNat := by
  have hNumber := toNat_next hNext
  have hNe : a.val.toNat / 4096 ≠ last.val.toNat / 4096 := mt VirtualAddress.page_eq_iff.2 hPage
  omega

/-- Every byte that is read lies between the first one and the last one. -/
theorem inside (h : u.Samples last a m touched o m') (hLe : a.val.toNat ≤ last.val.toNat) :
    ∀ c ∈ touched, a.val.toNat ≤ c.val.toNat ∧ c.val.toNat ≤ last.val.toNat := by
  induction h with
  | last hPage hByte =>
    intro c hc
    obtain rfl := List.mem_singleton.1 hc
    exact ⟨hLe, Nat.le_refl _⟩
  | fault hPage hByte =>
    intro c hc
    obtain rfl := List.mem_singleton.1 hc
    exact ⟨Nat.le_refl _, hLe⟩
  | next hPage hByte hNext hRest ih =>
    obtain ⟨-, hBefore, hEnd⟩ := next_le hLe hPage hNext
    intro c hc
    rcases List.mem_cons.1 hc with rfl | hc
    · exact ⟨Nat.le_refl _, hLe⟩
    · obtain ⟨hFirst, hLast⟩ := ih hEnd c hc
      exact ⟨by omega, hLast⟩

/-- The pages of the bytes that are read ascend, so there is one byte on each. -/
theorem ascending (h : u.Samples last a m touched o m') (hLe : a.val.toNat ≤ last.val.toNat) :
    touched.Pairwise fun b c => b.page.base.val < c.page.base.val := by
  induction h with
  | last hPage hByte => exact List.pairwise_singleton _ _
  | fault hPage hByte => exact List.pairwise_singleton _ _
  | next hPage hByte hNext hRest ih =>
    obtain ⟨hPages, -, hEnd⟩ := next_le hLe hPage hNext
    refine List.pairwise_cons.2 ⟨fun c hc => ?_, ih hEnd⟩
    obtain ⟨hFirst, -⟩ := hRest.inside hEnd c hc
    rw [VirtualAddress.base_page_lt_iff]
    omega

/-! ## The pages -/

section Reads

variable (hReads : u.Reads m view)

include hReads

/-- A byte is read on a page of the buffer just when all pages before it are readable. -/
theorem touches_iff (h : u.Samples last a m touched o m') (hUniform : view.Uniform)
    (hLast : last.isUser = true) (hLe : a.val.toNat ≤ last.val.toNat) {c : VirtualAddress}
    (hFirst : a.val.toNat ≤ c.val.toNat) (hEnd : c.val.toNat ≤ last.val.toNat) :
    (∃ b ∈ touched, b.page = c.page) ↔ ∀ d : VirtualAddress, a.val.toNat ≤ d.val.toNat →
      d.page.base.val < c.page.base.val → ∃ x, view d = .ok x := by
  have hSpace := VirtualAddress.toNat_lt_of_isUser hLast
  simp only [VirtualAddress.base_page_lt_iff, VirtualAddress.page_eq_iff]
  induction h with
  | last hPage hByte =>
    have hSame := VirtualAddress.page_eq_iff.1 hPage
    refine iff_of_true ⟨_, List.mem_singleton_self _, by omega⟩ fun d hd hLt => ?_
    omega
  | @fault a m m' e hPage hByte =>
    obtain ⟨hView, -⟩ := hReads.eq_of_readByte hByte
    simp only [List.mem_singleton, exists_eq_left]
    refine ⟨fun hSame d hd hLt => by omega, fun hAll => ?_⟩
    by_contra hNe
    obtain ⟨x, hx⟩ := hAll a (Nat.le_refl _) (by omega)
    rw [hView] at hx
    cases hx
  | @next a b m m₁ m' x touched o hPage hByte hNext hRest ih =>
    obtain ⟨hView, rfl⟩ := hReads.eq_of_readByte hByte
    have hNumber := toNat_next hNext
    obtain ⟨hPages, hBefore, hBound⟩ := next_le hLe hPage hNext
    by_cases hHere : a.val.toNat / 4096 = c.val.toNat / 4096
    · refine iff_of_true ⟨a, List.mem_cons_self, hHere⟩ fun d hd hLt => ?_
      omega
    · have hLater : b.val.toNat ≤ c.val.toNat := by omega
      rw [List.exists_mem_cons_iff, or_iff_right hHere]
      refine (ih hReads hBound hLater).trans ⟨fun hAll d hd hLt => ?_, fun hAll d hd => hAll d (by omega)⟩
      -- The addresses before the next page are in the page of the first one.
      by_cases hBehind : b.val.toNat ≤ d.val.toNat
      · exact hAll d hBehind hLt
      · exact hUniform a d x (VirtualAddress.isUser_of_toNat_lt (by omega))
          (VirtualAddress.isUser_of_toNat_lt (by omega)) (VirtualAddress.page_eq_iff.2 (by omega)) hView

theorem exists_fault (h : u.Samples last a m touched o m') {e : UserFault} (hFault : o = .error e) :
    ∃ b ∈ touched, view b = .error e := by
  induction h with
  | @last a m m' o hPage hByte =>
    obtain ⟨hView, -⟩ := hReads.eq_of_readByte hByte
    cases o with
    | ok x => cases hFault
    | error e' =>
      cases hFault
      exact ⟨last, List.mem_singleton_self _, hView⟩
  | @fault a m m' e' hPage hByte =>
    obtain ⟨hView, -⟩ := hReads.eq_of_readByte hByte
    cases hFault
    exact ⟨a, List.mem_singleton_self _, hView⟩
  | next hPage hByte hNext hRest ih =>
    obtain ⟨-, rfl⟩ := hReads.eq_of_readByte hByte
    obtain ⟨b, hb, hView⟩ := ih hReads hFault
    exact ⟨b, List.mem_cons_of_mem _ hb, hView⟩

end Reads

end Samples

end UserMemory

/-! ## The two ways to user memory -/

theorem AddressSpace.view_names (s : AddressSpace) (m : Memory) : (s.view m).Names := by
  intro a e h
  rw [view] at h
  split at h
  · cases h
  · cases h
    rfl

namespace LiveMemory

variable {L : LiveMemory} {a : VirtualAddress}

def view (L : LiveMemory) : UserView := fun a =>
  match if a.isUser then L.byte? a else none with
  | some b => .ok b
  | none => .error ⟨a⟩

theorem reads_userMemory {e : ProbeEntries} (hFits : e.reader.toNat + 11 < 2 ^ 64) (hQuiet : L.probing = false) :
    e.userMemory.Reads L L.view := by
  intro a
  rw [ProbeEntries.readByte_apply hFits hQuiet, view]
  cases if a.isUser then L.byte? a else none <;> rfl

theorem view_eq_ok_iff (hUser : a.isUser = true) :
    (∃ b, L.view a = .ok b) ↔ ∃ p ∈ L.pages, p.page = a.page := by
  have hFind := @List.find?_isSome _ L.pages fun p => p.page = a.page
  simp only [decide_eq_true_eq] at hFind
  rw [← hFind, view, if_pos hUser, byte?]
  cases L.pages.find? fun p => p.page = a.page <;> simp

theorem view_uniform (L : LiveMemory) : L.view.Uniform := by
  intro a a' b hUser hUser' hPage hByte
  rw [view_eq_ok_iff hUser', ← hPage, ← view_eq_ok_iff hUser]
  exact ⟨b, hByte⟩

theorem view_names (L : LiveMemory) : L.view.Names := by
  intro a e h
  rw [view] at h
  split at h
  · cases h
  · cases h
    rfl

end LiveMemory

namespace UserMemory

variable {σ : Type} {u : UserMemory σ} {last : VirtualAddress} {m : σ} {view : UserView}

/-! ## Buffers -/

theorem samplePages_eq {buffer : VirtualAddress} {length : UInt64}
    (hLast : buffer.add (length.toNat - 1) = .ok last) (u : UserMemory σ) (m : σ) :
    samplePages u buffer length m =
      sampleFrom u last ((last.page.base.val - buffer.page.base.val) / pageSize).toNat buffer m := by
  rw [samplePages]
  show (liftM (buffer.add (length.toNat - 1)) >>= _ : Stateful σ _) m = _
  rw [bind_ok (lift_ok hLast)]

/-- Sampling a buffer in user space is a loop that comes to an end without overflow and changes nothing. It
reads one byte on each page, in ascending order and within the buffer, up to the first page that is out of
reach, and it succeeds just when all bytes of the buffer are readable. A fault is that of a byte on the first
page out of reach, and names it where faults name what was asked for. -/
theorem samplePages_scans (hReads : u.Reads m view) (hUniform : view.Uniform) {buffer : VirtualAddress}
    {length : UInt64} (hLength : length ≠ 0) (hSpace : inUserSpace buffer length = true) :
    ∃ last touched o, buffer.add (length.toNat - 1) = .ok last ∧ u.Samples last buffer m touched o m ∧
      samplePages u buffer length m = .ok o m ∧
      (∀ trace, samplePages u.recorded buffer length (m, trace) = .ok o (m, touched.reverse ++ trace)) ∧
      (touched.Pairwise fun a b => a.page.base.val < b.page.base.val) ∧
      (∀ a ∈ touched, a.InBuffer buffer length) ∧
      (∀ a : VirtualAddress, a.InBuffer buffer length → ((∃ b ∈ touched, b.page = a.page) ↔
        ∀ d : VirtualAddress, d.InBuffer buffer length → d.page.base.val < a.page.base.val →
          ∃ x, view d = .ok x)) ∧
      (o = .ok () ↔ ∀ i < length.toNat, view.Readable buffer i) ∧
      ∀ e, o = .error e → ∃ a ∈ touched, view a = .error e ∧
        (∀ d : VirtualAddress, d.InBuffer buffer length → d.page.base.val < a.page.base.val →
          ∃ x, view d = .ok x) ∧
        (view.Names → e.address = a) := by
  have hEnd := le_of_inUserSpace hSpace
  have hPos : length.toNat ≠ 0 := fun hZero => hLength (UInt64.toNat_inj.1 hZero)
  obtain ⟨last, hAdd, -⟩ := @VirtualAddress.exists_add buffer (length.toNat - 1) (by omega)
  have hLast := VirtualAddress.add_eq_ok.1 hAdd
  have hUser : last.isUser = true := VirtualAddress.isUser_of_toNat_lt (by omega)
  have hLe : buffer.val.toNat ≤ last.val.toNat := by omega
  have hPages : last.val.toNat / 4096 = buffer.val.toNat / 4096 +
      ((last.page.base.val - buffer.page.base.val) / pageSize).toNat := by
    rw [toNat_pagesBetween hLe]
    omega
  obtain ⟨o, hSample, hIff⟩ := samplePages_iff hReads hUniform hLength hSpace
  obtain ⟨touched, hSamples⟩ :=
    (sampleFrom_eq_ok_iff hPages).1 ((samplePages_eq hAdd u m).symm.trans hSample)
  have hInBuffer : ∀ {a : VirtualAddress}, a.InBuffer buffer length ↔
      buffer.val.toNat ≤ a.val.toNat ∧ a.val.toNat ≤ last.val.toNat := by
    intro a
    rw [VirtualAddress.InBuffer]
    omega
  have hTouches : ∀ a : VirtualAddress, a.InBuffer buffer length → ((∃ b ∈ touched, b.page = a.page) ↔
      ∀ d : VirtualAddress, d.InBuffer buffer length → d.page.base.val < a.page.base.val →
        ∃ x, view d = .ok x) := by
    intro a ha
    obtain ⟨hFirst, hBound⟩ := hInBuffer.1 ha
    refine (hSamples.touches_iff hReads hUniform hUser hLe hFirst hBound).trans ⟨fun hAll d hd =>
      hAll d hd.1, fun hAll d hd hLt => hAll d (hInBuffer.2 ⟨hd, ?_⟩) hLt⟩
    rw [VirtualAddress.base_page_lt_iff] at hLt
    omega
  refine ⟨last, touched, o, hAdd, hSamples, hSample, fun trace => ?_, hSamples.ascending hLe,
    fun a ha => hInBuffer.2 (hSamples.inside hLe a ha), hTouches, hIff, fun e hFault => ?_⟩
  · rw [samplePages_eq hAdd]
    exact (sampleFrom_eq_ok_iff hPages).2 ⟨touched, hSamples.recorded trace⟩
  · obtain ⟨a, ha, hView⟩ := hSamples.exists_fault hReads hFault
    exact ⟨a, ha, hView, (hTouches a (hInBuffer.2 (hSamples.inside hLe a ha))).1 ⟨a, ha, rfl⟩,
      fun hNames => hNames a e hView⟩

/-- The probes at two megabytes, with two pages mapped at 4 MiB. A buffer of four pages that begins two bytes
before the second one is sampled up to the third page: a byte is read there, none on the fourth, and the fault
names the third page. A buffer within the two pages is sampled to its end. -/
theorem samplePages_scans_probes : ∃ (e : ProbeEntries) (L : LiveMemory), e.userMemory.Reads L L.view ∧
    L.view.Uniform ∧ inUserSpace ⟨0x400ffe⟩ 0x2004 = true ∧ inUserSpace ⟨0x400ffe⟩ 0x1002 = true ∧
    (∃ (touched : List VirtualAddress) (fault : UserFault), samplePages e.userMemory.recorded ⟨0x400ffe⟩ 0x2004 (L, []) =
        .ok (.error fault) (L, touched.reverse) ∧
      fault.address.page = VirtualAddress.page ⟨0x402000⟩ ∧
      (∃ b ∈ touched, b.page = VirtualAddress.page ⟨0x402000⟩) ∧
      ¬ ∃ b ∈ touched, b.page = VirtualAddress.page ⟨0x403000⟩) ∧
    samplePages e.userMemory ⟨0x400ffe⟩ 0x1002 L = .ok (.ok ()) L := by
  obtain ⟨L, hPages, hQuiet⟩ : ∃ L : LiveMemory, L.pages.map LivePage.page =
      [VirtualAddress.page ⟨0x400000⟩, VirtualAddress.page ⟨0x401000⟩] ∧ L.probing = false :=
    ⟨⟨[⟨_, true, .replicate 4096 0⟩, ⟨_, false, .replicate 4096 0⟩], false⟩, rfl, rfl⟩
  have hReads : (⟨0x200000, 0x200010⟩ : ProbeEntries).userMemory.Reads L L.view :=
    LiveMemory.reads_userMemory (by decide) hQuiet
  -- The first two pages can be read and nothing else.
  have hMapped : ∀ a : VirtualAddress, a.isUser = true →
      ((∃ b, L.view a = .ok b) ↔ a.val.toNat / 4096 = 0x400 ∨ a.val.toNat / 4096 = 0x401) := by
    intro a hUser
    have hMem : (∃ p ∈ L.pages, p.page = a.page) ↔ a.page ∈ L.pages.map LivePage.page := by
      rw [List.mem_map]
    rw [LiveMemory.view_eq_ok_iff hUser, hMem, hPages, List.mem_cons, List.mem_singleton,
      VirtualAddress.page_eq_iff, VirtualAddress.page_eq_iff]
    rfl
  refine ⟨⟨0x200000, 0x200010⟩, L, hReads, L.view_uniform, by decide, by decide, ?_, ?_⟩
  · obtain ⟨-, touched, o, -, -, -, hTrace, -, hInside, hTouches, hIff, hFault⟩ :=
      @samplePages_scans _ _ L _ hReads L.view_uniform ⟨0x400ffe⟩ 0x2004 (by decide) (by decide)
    have hTouched : ∀ a ∈ touched, 0x400ffe ≤ a.val.toNat ∧ a.val.toNat < 0x403002 := hInside
    cases o with
    | ok done =>
      obtain ⟨a, b, hAdd, hUser, hByte⟩ := hIff.1 rfl 0x1002 (by decide)
      have hNat : a.val.toNat = 0x400ffe + 0x1002 := VirtualAddress.toNat_of_add? hAdd
      have hPage := (hMapped a hUser).1 ⟨b, hByte⟩
      omega
    | error fault =>
      obtain ⟨a, ha, hView, hBefore, hNames⟩ := hFault fault rfl
      obtain ⟨hFirst, hEnd⟩ := hTouched a ha
      have hUser : a.isUser = true := VirtualAddress.isUser_of_toNat_lt (by omega)
      have hOut : ¬ (a.val.toNat / 4096 = 0x400 ∨ a.val.toNat / 4096 = 0x401) := fun hIn => by
        obtain ⟨b, hByte⟩ := (hMapped a hUser).2 hIn
        rw [hView] at hByte
        cases hByte
      -- The first byte of the third page is in the buffer and cannot be read.
      have hThird : ¬ ∃ b, L.view ⟨0x402000⟩ = .ok b := fun hByte =>
        absurd ((hMapped ⟨0x402000⟩ (by decide)).1 hByte) (by decide)
      have hPage : a.page = VirtualAddress.page ⟨0x402000⟩ := by
        rw [VirtualAddress.page_eq_iff]
        show a.val.toNat / 4096 = 0x402
        by_contra hNe
        refine hThird (hBefore ⟨0x402000⟩ ⟨by decide, by decide⟩ ?_)
        rw [VirtualAddress.base_page_lt_iff]
        show 0x402 < a.val.toNat / 4096
        omega
      refine ⟨touched, fault, ?_, ?_, ⟨a, ha, hPage⟩, fun hFourth => ?_⟩
      · rw [← List.append_nil touched.reverse]
        exact hTrace []
      · rw [hNames L.view_names, hPage]
      · exact hThird ((hTouches ⟨0x403000⟩ ⟨by decide, by decide⟩).1 hFourth ⟨0x402000⟩
          ⟨by decide, by decide⟩ (by decide))
  · obtain ⟨-, touched, o, -, -, hSample, -, -, -, -, hIff, -⟩ :=
      @samplePages_scans _ _ L _ hReads L.view_uniform ⟨0x400ffe⟩ 0x1002 (by decide) (by decide)
    obtain rfl : o = .ok () := hIff.2 fun i hi => by
      have hShort : i < 0x1002 := hi
      obtain ⟨a, hAdd, hAdd?⟩ := @VirtualAddress.exists_add ⟨0x400ffe⟩ i (by
        show 0x400ffe + i < 2 ^ 64
        omega)
      have hNat : a.val.toNat = 0x400ffe + i := VirtualAddress.toNat_of_add? hAdd?
      have hUser : a.isUser = true := VirtualAddress.isUser_of_toNat_lt (by omega)
      obtain ⟨b, hByte⟩ := (hMapped a hUser).2 (by omega)
      exact ⟨a, b, hAdd?, hUser, hByte⟩
    exact hSample

end UserMemory

end PagedKernel
