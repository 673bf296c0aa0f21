import PagedKernel.Proofs.Probe.Recovery
import PagedKernel.UserMemory.Probe

/-!
# What the probes do

The two probes are run instruction by instruction. An access that does not fault goes through; after
one that does, recovery sends the processor to the last instruction with every bit of the result set.
So a probe tells in its result whether it has touched the byte, and it always comes to an end.

All that is asked of the place of a probe is that its code does not run past the end of the address
space.

* `ProbeEntries.recover_at`: a fault at the access of a probe is recovered from.
* `ProbeEntries.run_reader`, `ProbeEntries.run_writer`: the probes as a whole.
* `ProbeEntries.readByte_apply`, `ProbeEntries.writeByte_apply`: single bytes of user memory.
-/

namespace PagedKernel

namespace LiveMemory

variable {m m' : LiveMemory} {a : VirtualAddress} {b : UInt8}

@[simp] theorem byte?_probing (on : Bool) : { m with probing := on }.byte? a = m.byte? a := rfl

theorem setByte?_probing (on : Bool) : { m with probing := on }.setByte? a b =
    (m.setByte? a b).map fun m' => { m' with probing := on } := by
  rw [setByte?, setByte?, Option.map_map]
  rfl

theorem probing_of_setByte? (h : m.setByte? a b = some m') : m'.probing = m.probing := by
  obtain ⟨pages, -, rfl⟩ := Option.map_eq_some_iff.1 h
  rfl

end LiveMemory

namespace ProbeEntries

variable {e : ProbeEntries} {entry here : UInt64} {c : FaultContext} {r : ProbeRegisters}
  {code : List Instruction} {m m' : LiveMemory}

/-! ## Instructions -/

variable {a : VirtualAddress} {b : UInt8} {rax : UInt64}

theorem run_loadLabel (d : UInt64) : e.run (.loadLabel d :: code) here ⟨here, rax, a, b⟩ m =
    e.run code (here + 7) ⟨here + 7, here + 7 + d, a, b⟩ m := by
  show (if here ≠ here then _ else _ : Stateful LiveMemory _) m = _
  rw [if_neg (not_not_intro rfl)]
  rfl

theorem run_clearResult : e.run (.clearResult :: code) here ⟨here, rax, a, b⟩ m =
    e.run code (here + 2) ⟨here + 2, 0, a, b⟩ m := by
  show (if here ≠ here then _ else _ : Stateful LiveMemory _) m = _
  rw [if_neg (not_not_intro rfl)]
  rfl

theorem run_leave : e.run (.leave :: code) here ⟨here, rax, a, b⟩ m = .ok rax m := by
  show (if here ≠ here then _ else _ : Stateful LiveMemory _) m = _
  rw [if_neg (not_not_intro rfl)]
  rfl

theorem run_skip {i : Instruction} (h : r.rip ≠ here) :
    e.run (i :: code) here r m = e.run code (here + i.size) r m := by
  show (if r.rip ≠ here then _ else _ : Stateful LiveMemory _) m = _
  rw [if_pos h]

theorem handleFault_of_recover (hRecover : e.recover true m.probing ⟨r.rip, r.rax⟩ = .ok (some c)) :
    e.handleFault r m = .ok { r with rip := c.rip, rax := c.rax } m := by
  show (liftM (e.recover true m.probing ⟨r.rip, r.rax⟩) >>= _ : Stateful LiveMemory _) m = _
  rw [Stateful.bind_ok (Stateful.lift_ok hRecover)]
  rfl

theorem run_loadByte {x : UInt8} (hByte : m.byte? a = some x) :
    e.run (.loadByte :: code) here ⟨here, rax, a, b⟩ m =
      e.run code (here + 4) ⟨here + 4, x.toUInt64, a, b⟩ m := by
  show (if here ≠ here then _ else _ : Stateful LiveMemory _) m = _
  rw [if_neg (not_not_intro rfl), Stateful.get_bind]
  simp only [hByte]
  rfl

theorem run_loadByte_none (hByte : m.byte? a = none) :
    e.run (.loadByte :: code) here ⟨here, rax, a, b⟩ m =
      (e.handleFault ⟨here, rax, a, b⟩ >>= e.run code (here + 4)) m := by
  show (if here ≠ here then _ else _ : Stateful LiveMemory _) m = _
  rw [if_neg (not_not_intro rfl), Stateful.get_bind]
  simp only [hByte]
  rfl

theorem run_loadByte_fault (hByte : m.byte? a = none)
    (hRecover : e.recover true m.probing ⟨here, rax⟩ = .ok (some c)) :
    e.run (.loadByte :: code) here ⟨here, rax, a, b⟩ m =
      e.run code (here + 4) ⟨c.rip, c.rax, a, b⟩ m := by
  rw [run_loadByte_none hByte]
  exact Stateful.bind_ok (handleFault_of_recover hRecover)

theorem run_storeByte (hByte : m.setByte? a b = some m') :
    e.run (.storeByte :: code) here ⟨here, rax, a, b⟩ m =
      e.run code (here + 3) ⟨here + 3, rax, a, b⟩ m' := by
  show (if here ≠ here then _ else _ : Stateful LiveMemory _) m = _
  rw [if_neg (not_not_intro rfl), Stateful.get_bind]
  simp only [hByte]
  rfl

theorem run_storeByte_none (hByte : m.setByte? a b = none) :
    e.run (.storeByte :: code) here ⟨here, rax, a, b⟩ m =
      (e.handleFault ⟨here, rax, a, b⟩ >>= e.run code (here + 3)) m := by
  show (if here ≠ here then _ else _ : Stateful LiveMemory _) m = _
  rw [if_neg (not_not_intro rfl), Stateful.get_bind]
  simp only [hByte]
  rfl

theorem run_storeByte_fault (hByte : m.setByte? a b = none)
    (hRecover : e.recover true m.probing ⟨here, rax⟩ = .ok (some c)) :
    e.run (.storeByte :: code) here ⟨here, rax, a, b⟩ m =
      e.run code (here + 3) ⟨c.rip, c.rax, a, b⟩ m := by
  rw [run_storeByte_none hByte]
  exact Stateful.bind_ok (handleFault_of_recover hRecover)

/-! ## The probes -/

/-- A fault at an access close to the entry, with a label close behind it, is recovered from. -/
theorem recover_at {x y : UInt64} {n : Nat} (hEntry : entry = e.reader ∨ entry = e.writer)
    (hFits : entry.toNat + n < 2 ^ 64) (hNear : n ≤ 16) (hAccess : 0 < y.toNat)
    (hLabel : x.toNat + y.toNat = n) (hProbing : m.probing = true) :
    e.recover true m.probing ⟨entry + x, entry + x + y⟩ =
      .ok (some ⟨entry + x + y, 0xffffffffffffffff⟩) := by
  have hInside := FaultContext.isInside_of_near hFits hNear hAccess hLabel
  rw [hProbing, recover_eq, if_pos ⟨rfl, rfl, entry, List.mem_pair.2 hEntry, hInside⟩]

theorem run_reader (hFits : e.reader.toNat + 11 < 2 ^ 64) (a : VirtualAddress)
    (hProbing : m.probing = true) :
    e.run readerCode e.reader ⟨e.reader, 0, a, 0⟩ m =
      .ok (match m.byte? a with | some b => b.toUInt64 | none => 0xffffffffffffffff) m := by
  rw [readerCode, run_loadLabel]
  cases hByte : m.byte? a with
  | some b => rw [run_loadByte hByte, run_leave]
  | none =>
    rw [run_loadByte_fault hByte
      (recover_at (Or.inl rfl) hFits (by decide) (by decide) (by decide) hProbing)]
    exact run_leave

theorem run_writer (hFits : e.writer.toNat + 12 < 2 ^ 64) (a : VirtualAddress) (b : UInt8)
    (hProbing : m.probing = true) :
    e.run writerCode e.writer ⟨e.writer, 0, a, b⟩ m =
      match m.setByte? a b with
      | some m' => .ok 0 m'
      | none => .ok 0xffffffffffffffff m := by
  rw [writerCode, run_loadLabel]
  cases hByte : m.setByte? a b with
  | some m' => rw [run_storeByte hByte, run_clearResult, run_leave]
  | none =>
    -- The processor goes on behind the instruction that would have cleared the result.
    have hNext : e.writer + 7 + 5 = e.writer + 7 + 3 + 2 := by
      rw [UInt64.add_assoc (e.writer + 7)]
      rfl
    have hSkip : e.writer + 7 + 5 ≠ e.writer + 7 + 3 := by
      intro hEq
      rw [UInt64.add_right_inj] at hEq
      exact absurd hEq (by decide)
    rw [run_storeByte_fault hByte
      (recover_at (Or.inr rfl) hFits (by decide) (by decide) (by decide) hProbing), run_skip hSkip,
      hNext]
    exact run_leave

/-! ## Single bytes -/

theorem probed_apply {α : Type} {f : Stateful LiveMemory α} {x : α} (m' : LiveMemory)
    (hProbing : m.probing = false)
    (hRun : f { m with probing := true } = .ok x { m' with probing := true }) :
    probed f m = .ok x { m' with probing := false } := by
  obtain ⟨pages, probing⟩ := m
  obtain rfl : probing = false := hProbing
  show (f >>= _ : Stateful LiveMemory _) ⟨pages, true⟩ = _
  rw [Stateful.bind_ok hRun]
  rfl

theorem probing_eta (hProbing : m.probing = false) : { m with probing := false } = m := by
  rw [← hProbing]

/-- A byte is read where it is mapped. -/
theorem readByte_apply (hFits : e.reader.toNat + 11 < 2 ^ 64) (hProbing : m.probing = false)
    (a : VirtualAddress) :
    e.userMemory.readByte a m =
      match (if a.isUser then m.byte? a else none) with
      | some b => .ok (.ok b) m
      | none => .ok (.error ⟨a⟩) m := by
  by_cases hUser : a.isUser = true
  · have hRun := probed_apply m hProbing
      (run_reader (m := { m with probing := true }) hFits a rfl)
    rw [LiveMemory.byte?_probing, probing_eta hProbing] at hRun
    show (if a.isUser = true then _ else _ : Stateful LiveMemory _) m = _
    rw [if_pos hUser, if_pos hUser, Stateful.bind_ok hRun]
    cases m.byte? a with
    | none => rfl
    | some b =>
      -- Every byte is told from the result of a probe that has failed.
      have hSmall : b.toUInt64 < 256 := by
        rw [UInt64.lt_iff_toNat_lt, UInt8.toNat_toUInt64]
        exact b.toNat_lt
      show EStateM.Result.ok
        (if b.toUInt64 < 256 then Except.ok b.toUInt64.toUInt8 else Except.error (UserFault.mk a)) m = _
      rw [if_pos hSmall, UInt8.toUInt8_toUInt64]
  · show (if a.isUser = true then _ else _ : Stateful LiveMemory _) m = _
    rw [if_neg hUser, if_neg hUser]
    rfl

/-- A byte is stored where it is mapped and may be written. -/
theorem writeByte_apply (hFits : e.writer.toNat + 12 < 2 ^ 64) (hProbing : m.probing = false)
    (a : VirtualAddress) (b : UInt8) :
    e.userMemory.writeByte a b m =
      match (if a.isUser then m.setByte? a b else none) with
      | some m' => .ok (.ok ()) m'
      | none => .ok (.error ⟨a⟩) m := by
  by_cases hUser : a.isUser = true
  · have hRun := run_writer (m := { m with probing := true }) hFits a b rfl
    rw [LiveMemory.setByte?_probing] at hRun
    show (if a.isUser = true then _ else _ : Stateful LiveMemory _) m = _
    rw [if_pos hUser, if_pos hUser]
    cases hByte : m.setByte? a b with
    | none =>
      rw [hByte] at hRun
      rw [Stateful.bind_ok (probed_apply m hProbing hRun), probing_eta hProbing]
      rfl
    | some m' =>
      rw [hByte] at hRun
      have hQuiet : m'.probing = false := (LiveMemory.probing_of_setByte? hByte).trans hProbing
      rw [Stateful.bind_ok (probed_apply m' hProbing hRun), probing_eta hQuiet]
      rfl
  · show (if a.isUser = true then _ else _ : Stateful LiveMemory _) m = _
    rw [if_neg hUser, if_neg hUser]
    rfl

end ProbeEntries

end PagedKernel
