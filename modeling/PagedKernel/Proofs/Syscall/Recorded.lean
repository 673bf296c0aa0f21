import PagedKernel.Proofs.Syscall.OpenFiles

/-!
# What a host is asked for

A host can write down all that it is asked for, with the bytes, and gives the same answers when it
does. So what a system call asks of a host is a list that can be talked about.

* `HostCall`, `Host.recorded`: a host that writes down what it is asked for.
* `Host.alike_recorded`: this makes no difference to it.
* `CallState.Ended`: the process has ended, and the host was asked for nothing but to close its files.
* `CallM.terminate_ended`, `CallM.leave_ended`: the calls that end it.
-/

namespace PagedKernel

open Stateful

inductive HostCall (F : Type) where
  | powerOff
  | openFile (name : List UInt8)
  | writeConsole (bytes : List UInt8)
  | readConsole (buffer : List UInt8)
  | writeHandle (f : F) (bytes : List UInt8)
  | readHandle (f : F) (buffer : List UInt8)
  | closeHandle (f : F)

/-- The host, with a list of what it was asked for, latest first. -/
def Host.recorded {η F : Type} (host : Host η F) : Host (η × List (HostCall F)) F where
  powerOff x := (host.powerOff x.1, .powerOff :: x.2)
  openFile name x :=
    let (a, h) := host.openFile name x.1
    (a, h, .openFile name :: x.2)
  writeConsole bytes x := (host.writeConsole bytes x.1, .writeConsole bytes :: x.2)
  readConsole buffer x :=
    let (a, h) := host.readConsole buffer x.1
    (a, h, .readConsole buffer :: x.2)
  writeHandle f bytes x :=
    let (a, h) := host.writeHandle f bytes x.1
    (a, h, .writeHandle f bytes :: x.2)
  readHandle f buffer x :=
    let (a, h) := host.readHandle f buffer x.1
    (a, h, .readHandle f buffer :: x.2)
  closeHandle f x := (host.closeHandle f x.1, .closeHandle f :: x.2)

theorem Host.Alike.recorded {η η' F : Type} {S : η → η' → Prop} {host : Host η F} {host' : Host η' F}
    (h : Host.Alike S host host') :
    Host.Alike (fun x y => S x.1 y.1 ∧ x.2 = y.2) host.recorded host'.recorded where
  powerOff := fun hS => ⟨h.powerOff hS.1, congrArg _ hS.2⟩
  openFile name := fun hS =>
    ⟨(h.openFile name hS.1).1, (h.openFile name hS.1).2, congrArg _ hS.2⟩
  writeConsole bytes := fun hS => ⟨h.writeConsole bytes hS.1, congrArg _ hS.2⟩
  readConsole buffer := fun hS =>
    ⟨(h.readConsole buffer hS.1).1, (h.readConsole buffer hS.1).2, congrArg _ hS.2⟩
  writeHandle f bytes := fun hS =>
    ⟨(h.writeHandle f bytes hS.1).1, (h.writeHandle f bytes hS.1).2, congrArg _ hS.2⟩
  readHandle f buffer := fun hS =>
    ⟨(h.readHandle f buffer hS.1).1, (h.readHandle f buffer hS.1).2, congrArg _ hS.2⟩
  closeHandle f := fun hS => ⟨h.closeHandle f hS.1, congrArg _ hS.2⟩

def CallState.recorded {σ η F : Type} (c : CallState σ η F) :
    CallState σ (η × List (HostCall F)) F :=
  ⟨c.memory, (c.host, []), c.files, c.log⟩

/-- A host gives the same answers when it is recorded. -/
theorem Host.alike_recorded {η F : Type} (host : Host η F) :
    Host.Alike (fun x y => x.1 = y) host.recorded host where
  powerOff := fun hS => congrArg _ hS
  openFile name := fun hS => by subst hS; exact ⟨rfl, rfl⟩
  writeConsole bytes := fun hS => congrArg _ hS
  readConsole buffer := fun hS => by subst hS; exact ⟨rfl, rfl⟩
  writeHandle f bytes := fun hS => by subst hS; exact ⟨rfl, rfl⟩
  readHandle f buffer := fun hS => by subst hS; exact ⟨rfl, rfl⟩
  closeHandle f := fun hS => congrArg _ hS

abbrev RecordedState (σ η F : Type) := CallState σ (η × List (HostCall F)) F

namespace CallState

variable {σ η F : Type}

/-- What the host was asked for, latest first. -/
def asked (c : RecordedState σ η F) : List (HostCall F) := c.host.2

/-- The process has ended: its files were closed, lowest descriptor first, and nothing else was asked of
the host. -/
structure Ended (c c' : RecordedState σ η F) : Prop where
  memory_eq : c'.memory = c.memory
  files_eq : c'.files.files = []
  asked_eq : c'.asked = (c.files.files.map HostCall.closeHandle).reverse ++ c.asked

/-- If the host was asked for nothing before, it was asked to close the files. -/
theorem Ended.reverse_asked {c c' : RecordedState σ η F} (h : c.Ended c') (hNone : c.asked = []) :
    c'.asked.reverse = c.files.files.map HostCall.closeHandle := by
  rw [h.asked_eq, hNone, List.append_nil, List.reverse_reverse]

end CallState

def Outcome.registers (r : Registers) : Outcome → Registers
  | .result v => r.withResult (Int64.ofInt v)
  | .leave _ => r

namespace CallM

variable {σ η F : Type} {host : Host η F}

theorem forM_closeRecorded (files : List F) (c : RecordedState σ η F) :
    ∃ h, (files.forM fun f => onHost fun h => ((), host.recorded.closeHandle f h) :
        CallM σ (η × List (HostCall F)) F Unit) c =
      .ok () { c with host := (h, (files.map HostCall.closeHandle).reverse ++ c.asked) } := by
  induction files generalizing c with
  | nil => exact ⟨c.host.1, rfl⟩
  | cons f files ih =>
    obtain ⟨h, hRest⟩ := ih { c with host := host.recorded.closeHandle f c.host }
    refine ⟨h, ?_⟩
    show (onHost _ >>= fun _ => files.forM _) c = _
    rw [bind_ok (onHost_apply _ c), hRest, List.map_cons, List.reverse_cons, List.append_assoc]
    rfl

theorem terminate_ended (status : Int) (c : RecordedState σ η F) :
    ∃ c', terminate host.recorded status c = .ok (.exit status) c' ∧ c.Ended c' := by
  obtain ⟨h, hClose⟩ := @forM_closeRecorded σ η F host c.files.drain.1 { c with files := c.files.drain.2 }
  rw [terminate, bind_ok (onFiles_apply _ c), bind_ok hClose]
  exact ⟨_, rfl, rfl, DescriptorTable.files_drain _, rfl⟩

theorem leave_ended (n : CallNotice) (c : RecordedState σ η F) :
    ∃ c', (do note n; return Outcome.leave (← terminate host.recorded (-1)) :
        CallM σ (η × List (HostCall F)) F Outcome) c = .ok (.leave (.exit (-1))) c' ∧ c.Ended c' := by
  obtain ⟨c', hEnd, hEnded⟩ :=
    @terminate_ended σ η F host (-1) { c with log := n :: c.log }
  refine ⟨c', ?_, hEnded.memory_eq, hEnded.files_eq, hEnded.asked_eq⟩
  show (terminate host.recorded (-1) >>= _) { c with log := n :: c.log } = _
  rw [bind_ok hEnd]
  rfl

theorem handle_of_serve {u : UserMemory σ} {host : Host η F} {r : Registers} {call : Call}
    (hCall : Call.ofNumber r.number = .ok call) {c c' : CallState σ η F} {o : Outcome}
    (hServe : serve u host call r.rdi r.rsi r.rdx
      { c with log := .called call r.rdi r.rsi r.rdx :: c.log } = .ok o c') :
    handle u host r c = .ok (o.fate, o.registers r) c' := by
  rw [handle, hCall]
  show (serve u host call r.rdi r.rsi r.rdx >>= _)
    { c with log := .called call r.rdi r.rsi r.rdx :: c.log } = _
  rw [bind_ok hServe]
  cases o <;> rfl

end CallM

end PagedKernel
