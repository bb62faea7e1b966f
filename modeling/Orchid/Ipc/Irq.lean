import Orchid.Device.KbdBuf
import Orchid.Ipc.Sleepers

/-! # Interrupts as messages

A model of `kernel/irq.c` and `kernel/isr_handler.c`. A driver registers a port for
an interrupt line, and `irq_handler` sends an empty message to that port when the
line is raised.

* `isr_handler` returns before it comes to `irq_handler` if the vector is that of
  the keyboard, so line 1 is never forwarded (`forwarded_iff`).
* `ipc_kernel_send` has no place for a message that nobody waits for, so an
  interrupt that arrives while the driver is busy is lost (`notified_iff`).

`schedule` in the timer interrupt switches away; the rest of `isr_handler` is reached
when the interrupted thread is dispatched again, and is a step of its own here.
-/

namespace Orchid

open Machine Ledger Function Relation

/-! ## Model -/

/-- An element of `irq_table`. -/
structure IrqEntry where
  port : Nat
  inUse : Bool
  deriving DecidableEq, Repr

/-- `irq_table`, which has 16 elements. -/
abbrev IrqTable := Nat → IrqEntry

/-- `irq_init`. -/
def irqInit (table : IrqTable) : IrqTable := fun i =>
  if i < 16 then { table i with inUse := false } else table i

/-- `irq_register`. -/
def irqRegister (irq port : Nat) (table : IrqTable) : Int × IrqTable :=
  if 16 ≤ irq then (-1, table) else
  if (table irq).inUse then (-1, table) else
  (0, update table irq ⟨port, true⟩)

/-- The port `irq_handler` sends to. -/
def irqTarget (irq : Nat) (table : IrqTable) : Option Nat :=
  if irq < 16 ∧ (table irq).inUse then some (table irq).port else none

/-- The table of `scancode_to_ascii`; it ends with zeros. -/
def scancodes : List UInt8 :=
  [0, 0, 49, 50, 51, 52, 53, 54, 55, 56, 57, 48, 45, 61, 0, 0,
   113, 119, 101, 114, 116, 121, 117, 105, 111, 112, 91, 93, 0, 0, 97, 115,
   100, 102, 103, 104, 106, 107, 108, 59, 39, 96, 0, 92, 122, 120, 99,
   118, 98, 110, 109, 44, 46, 47, 0, 0, 0, 32, 0]

/-- `scancode_to_ascii`. -/
def scancodeToAscii (sc : UInt8) : UInt8 :=
  if sc < 128 then scancodes.getD sc.toNat 0 else 0

/-- The keyboard part of `isr_handler`, with the scancode it reads. -/
def keyboard (sc : UInt8) (kbd : KbdBuf) : KbdBuf :=
  if sc &&& 0x80 = 0 then
    if scancodeToAscii sc ≠ 0 then kbdBufPut (scancodeToAscii sc) kbd else kbd
  else kbd

/-- `ipc_kernel_send`. -/
def ipcKernelSend (fuel port : Nat) (msg : IpcMessage) (w : Timed) : Option Timed :=
  ((ipcKernelSendLocked port msg w.ipc).1.run fuel w.sched).map fun s =>
    { w with
      sched := s
      ipc := (ipcKernelSendLocked port msg w.ipc).2
      asleep := w.stillAsleep s }

/-- What the interrupt handlers work on. -/
structure Irqs where
  timed : Timed
  table : IrqTable
  kbd : KbdBuf

namespace Irqs

/-- `irq_handler`; `data` is what the message on its stack happens to hold. -/
def irqHandler (fuel irq : Nat) (data : ByteMem) (w : Irqs) : Option Irqs :=
  match irqTarget irq w.table with
  | some port => (ipcKernelSend fuel port ⟨0, data⟩ w.timed).map fun timed =>
    { w with timed := timed }
  | none => some w

/-- The end of `isr_handler`. -/
def isrForward (fuel intNo : Nat) (data : ByteMem) (w : Irqs) : Option Irqs :=
  if 32 ≤ intNo ∧ intNo ≤ 47 then w.irqHandler fuel (intNo - 32) data else some w

/-- `isr_handler`, in the timer interrupt up to its call of `schedule`. -/
def isrHandler (fuel intNo : Nat) (sc : UInt8) (data : ByteMem) (w : Irqs) : Option Irqs :=
  if intNo = 14 then
    -- `page_fault_handler`
    (schedule fuel (threadExitMark w.timed.sched)).map fun s =>
      { w with timed := { w.timed with sched := s, asleep := w.timed.stillAsleep s } }
  else if intNo = 32 then
    (timerTick fuel w.timed.timer w.timed.sched).bind fun (timer, s) =>
      let timed := { w.timed with sched := s, timer := timer, asleep := w.timed.stillAsleep s }
      (schedule fuel s).map fun s =>
        { w with timed := { timed with sched := s, asleep := timed.stillAsleep s } }
  else if intNo = 33 then some { w with kbd := keyboard sc w.kbd }
  else w.isrForward fuel intNo data

/-! ## Runs -/

def Init (w : Irqs) : Prop := w.timed.Init ∧ ∃ table, w.table = irqInit table

/-- A call of a thread, a registration, or an interrupt. The ticks do not wrap, and the idle
thread does not fault. -/
inductive Next : Irqs → Irqs → Prop where
  | call {w : Irqs} {op : TimedOp} {timed : Timed} :
      w.timed.Does timed op → Next w { w with timed := timed }
  | register {w : Irqs} (irq port : Nat) :
      Next w { w with table := (irqRegister irq port w.table).2 }
  | interrupt {w w' : Irqs} {fuel intNo : Nat} {sc : UInt8} {data : ByteMem} :
      (intNo = 14 → w.timed.sched.idleThreadPtr ≠ w.timed.sched.currentThread) →
      (intNo = 32 → w.timed.timer.ticks + 1 < 2 ^ 64) →
      w.isrHandler fuel intNo sc data = some w' → Next w w'
  | resume {w w' : Irqs} {fuel : Nat} {data : ByteMem} :
      w.isrForward fuel 32 data = some w' → Next w w'

/-- What `isr_handler` does about a line. -/
def deliver (fuel irq : Nat) (sc : UInt8) (data : ByteMem) (w : Irqs) : Option Irqs :=
  if irq = 0 then w.isrForward fuel 32 data else w.isrHandler fuel (32 + irq) sc data

end Irqs

/-! ## The table -/

section Table

variable {table : IrqTable} {irq port : Nat}

/-- A line keeps its port. -/
theorem irqRegister_keeps (h : (table irq).inUse) (irq' port' : Nat) :
    (irqRegister irq' port' table).2 irq = table irq := by
  unfold irqRegister
  split
  · rfl
  split
  · rfl
  · next hfree =>
    apply update_of_ne
    rintro rfl
    exact hfree h

end Table

/-! ## Every run -/

namespace Irqs

variable {w w' : Irqs} {fuel irq intNo port : Nat} {sc : UInt8} {data : ByteMem}

/-- `ipc_kernel_send` is a call on a port. -/
theorem does_ipcKernelSend {msg : IpcMessage} {timed timed' : Timed}
    (h : ipcKernelSend fuel port msg timed = some timed') :
    timed.Does timed' (.port fuel (.kernelSend port msg)) := by
  rcases Option.map_eq_some_iff.mp h with ⟨s, hrun, rfl⟩
  exact ⟨nofun, s, hrun, rfl⟩

theorem irqHandler_step (h : w.irqHandler fuel irq data = some w') :
    w'.table = w.table ∧ (w.timed.Inv → w'.timed.Inv) := by
  unfold irqHandler at h
  split at h
  · rcases Option.map_eq_some_iff.mp h with ⟨timed, hsend, rfl⟩
    exact ⟨rfl, fun hinv => hinv.step (does_ipcKernelSend hsend)⟩
  · cases h
    exact ⟨rfl, id⟩

theorem isrForward_step (h : w.isrForward fuel intNo data = some w') :
    w'.table = w.table ∧ (w.timed.Inv → w'.timed.Inv) := by
  unfold isrForward at h
  split at h
  · exact irqHandler_step h
  · cases h
    exact ⟨rfl, id⟩

/-- The interrupts are made up of calls that keep the invariant. -/
theorem isrHandler_step (hfault : intNo = 14 → w.timed.sched.idleThreadPtr ≠ w.timed.sched.currentThread)
    (hwrap : intNo = 32 → w.timed.timer.ticks + 1 < 2 ^ 64)
    (h : w.isrHandler fuel intNo sc data = some w') :
    w'.table = w.table ∧ (w.timed.Inv → w'.timed.Inv) := by
  unfold isrHandler at h
  split at h
  · next hno =>
    rcases Option.map_eq_some_iff.mp h with ⟨s, hret, rfl⟩
    refine ⟨rfl, fun hinv => ?_⟩
    rcases hinv.seats.steady with ⟨idle, cur, l, hqueued, -⟩
    have hcalls : w.timed.Calls cur := by
      refine ⟨hqueued.current, ?_⟩
      rw [← hqueued.current]
      exact hfault hno
    have hstep : w.timed.Does { w.timed with sched := s, asleep := w.timed.stillAsleep s }
        (.threadExit fuel cur) := ⟨hcalls, s, hret, rfl⟩
    exact hinv.step hstep
  split at h
  · next hno =>
    rcases Option.bind_eq_some_iff.mp h with ⟨⟨timer, s⟩, htick, hsched⟩
    rcases Option.map_eq_some_iff.mp hsched with ⟨s', hret, rfl⟩
    refine ⟨rfl, fun hinv => ?_⟩
    have hticked : w.timed.Does { w.timed with
        sched := s
        timer := timer
        asleep := w.timed.stillAsleep s } (.timerTick fuel) := ⟨hwrap hno, timer, s, htick, rfl⟩
    have hswitch : ({ w.timed with
        sched := s
        timer := timer
        asleep := w.timed.stillAsleep s } : Timed).Does _ (.schedule fuel) := ⟨s', hret, rfl⟩
    exact (hinv.step hticked).step hswitch
  split at h
  · cases h
    exact ⟨rfl, id⟩
  · exact isrForward_step h

theorem Next.keeps (h : Next w w') (hinv : w.timed.Inv) :
    w'.timed.Inv ∧ ∀ irq, (w.table irq).inUse → w'.table irq = w.table irq := by
  cases h with
  | call hstep => exact ⟨hinv.step hstep, fun _ _ => rfl⟩
  | register irq' port' => exact ⟨hinv, fun irq hused => irqRegister_keeps hused irq' port'⟩
  | interrupt hfault hwrap hcall =>
    rcases isrHandler_step hfault hwrap hcall with ⟨htable, hkeeps⟩
    exact ⟨hkeeps hinv, fun irq _ => by rw [htable]⟩
  | resume hcall =>
    rcases isrForward_step hcall with ⟨htable, hkeeps⟩
    exact ⟨hkeeps hinv, fun irq _ => by rw [htable]⟩

theorem inv (h : Reachable Init Next w) : w.timed.Inv :=
  h.invariant (fun _ hinit => Timed.Init.inv hinit.1) fun _ _ hstep hinv => (hstep.keeps hinv).1

/-- Before any call. -/
def quietIrqs : Irqs where
  timed := Timed.quietTimed
  table := irqInit fun _ => ⟨0, false⟩
  kbd := ⟨fun _ => 0, 0, 0⟩

end Irqs

/-! ## Interrupts nobody waits for -/

/-- A call of `irq_handler` for a registered line, with the message it sends and whether a
receiver was waiting. -/
structure Interrupt where
  irq : Nat
  call : SendCall
  awaited : Bool

/-- Threads that send and receive, and the interrupts so far. -/
structure Notify where
  net : Rendezvous
  table : IrqTable
  raised : List Interrupt

namespace Notify

variable {w w' : Notify} {i : Interrupt}

/-- `irq_handler` has sent to a port. -/
def interrupted (w : Notify) (irq port : Nat) (data : ByteMem) (ipc : Ipc) (sched : Sched) :
    Notify :=
  let c : SendCall := ⟨w.net.calls, port, none, ⟨0, data⟩⟩
  { w with
    net := w.net.sent c ipc sched
    raised := ⟨irq, c, !(w.net.ipc.ports port).recvers.isEmpty⟩ :: w.raised }

def Init (w : Notify) : Prop := Rendezvous.Init w.net ∧ w.raised = []

/-- A step of the threads, a registration, or an interrupt on a registered line, whoever is
current. -/
inductive Next : Notify → Notify → Prop where
  | threads {w : Notify} {net : Rendezvous} :
      Rendezvous.Next w.net net → Next w { w with net := net }
  | register {w : Notify} (irq port : Nat) :
      Next w { w with table := (irqRegister irq port w.table).2 }
  | irqHandler {w : Notify} {irq port fuel : Nat} {data : ByteMem} {tail : Tail} {ipc : Ipc}
      {q : Sched} :
      irqTarget irq w.table = some port → port < maxPorts →
      ipcKernelSendLocked port ⟨0, data⟩ w.net.ipc = (tail, ipc) →
      tail.run fuel w.net.sched = some q → Next w (w.interrupted irq port data ipc q)

/-- The driver has received the message of an interrupt, or will with a later call. -/
def Notified (w : Notify) (driver : Tid) (i : Interrupt) : Prop :=
  (∃ d ∈ w.net.deliveries, d.parcel = i.call.parcel ∧ d.request.thread = driver) ∨
    i.call.parcel ∈ w.net.ipc.parcelsAt i.call.port

/-- Deliveries and losses are final. -/
theorem grows {net net' : Rendezvous} (h : Rendezvous.Next net net') :
    net.deliveries ⊆ net'.deliveries ∧ net.dropped ⊆ net'.dropped := by
  have hsent : ∀ (c : SendCall) (ipc : Ipc) (s : Sched),
      net.deliveries ⊆ (net.sent c ipc s).deliveries ∧ net.dropped ⊆ (net.sent c ipc s).dropped := by
    intro c ipc s
    refine ⟨List.subset_append_right _ _, ?_⟩
    show net.dropped ⊆ if _ then c :: net.dropped else net.dropped
    split
    · exact List.subset_cons_self _ _
    · exact List.Subset.refl _
  cases h with
  | send => exact hsent _ _ _
  | kernelSend => exact hsent _ _ _
  | recv => exact ⟨List.subset_append_right _ _, List.Subset.refl _⟩
  | schedule => exact ⟨List.Subset.refl _, List.Subset.refl _⟩
  | threadCreate => exact ⟨List.Subset.refl _, List.Subset.refl _⟩
  | threadExit => exact ⟨List.Subset.refl _, List.Subset.refl _⟩

/-- The message of an interrupt was delivered if a receiver was waiting, and is lost if
not. -/
def Settled (net : Rendezvous) (i : Interrupt) : Prop :=
  i.call.parcel ∈ if i.awaited then net.deliveries.map Delivery.parcel
    else net.dropped.map SendCall.parcel

structure Inv (w : Notify) : Prop where
  net : w.net.Inv
  settled : ∀ i ∈ w.raised, Settled w.net i

theorem Settled.mono {net net' : Rendezvous} (h : Settled net i)
    (hdeliveries : net.deliveries ⊆ net'.deliveries) (hdropped : net.dropped ⊆ net'.dropped) :
    Settled net' i := by
  unfold Settled at h ⊢
  split at h
  · next haw =>
    rw [if_pos haw]
    exact List.map_subset _ hdeliveries h
  · next haw =>
    rw [if_neg haw]
    exact List.map_subset _ hdropped h

theorem Inv.step (h : w.Inv) (hstep : w.Next w') : w'.Inv := by
  cases hstep with
  | threads hnext =>
    rcases grows hnext with ⟨hdeliveries, hdropped⟩
    exact ⟨Rendezvous.step_inv h.net hnext,
      fun i hi => (h.settled i hi).mono hdeliveries hdropped⟩
  | register irq port => exact ⟨h.net, h.settled⟩
  | @irqHandler irq port fuel data tail ipc q _ hport hcall hret =>
    have hnext : Rendezvous.Next w.net (w.net.sent ⟨w.net.calls, port, none, ⟨0, data⟩⟩ ipc q) :=
      .kernelSend hport hcall hret
    rcases grows hnext with ⟨hdeliveries, hdropped⟩
    refine ⟨Rendezvous.step_inv h.net hnext, ?_⟩
    intro i hi
    rcases List.mem_cons.mp hi with rfl | hi
    · -- the new one
      rcases hrecvers : (w.net.ipc.ports port).recvers with _ | ⟨node, rest⟩
      · simp [Settled, interrupted, Rendezvous.sent, hrecvers]
      · simp [Settled, interrupted, Rendezvous.sent, hrecvers]
    · exact (h.settled i hi).mono hdeliveries hdropped

/-- If a port belongs to a driver, which alone receives there, the message of an interrupt
reaches the driver if and only if the driver was waiting for it. -/
theorem notified_iff {driver : Tid} (h : Reachable Init Next w) (hi : i ∈ w.raised)
    (hdriver : ∀ r ∈ w.net.recvs, r.port = i.call.port → r.thread = driver) :
    w.Notified driver i ↔ i.awaited := by
  have hinv : w.Inv := by
    apply h.invariant _ fun _ _ hstep hinv => hinv.step hstep
    intro w hinit
    exact ⟨Rendezvous.init_inv hinit.1, by rw [hinit.2]; exact nofun⟩
  have hsettled := hinv.settled i hi
  unfold Settled at hsettled
  constructor
  · intro hnotified
    by_contra hmissed
    rw [if_neg hmissed] at hsettled
    have hwaiting : i.call.parcel ∈ gather maxPorts w.net.ipc.parcelsAt ++
        w.net.dropped.map SendCall.parcel := List.mem_append_right _ hsettled
    rcases hnotified with ⟨d, hd, hparcel, -⟩ | hpending
    · -- it is not delivered as well
      apply hinv.net.parcels.notMem_closed hwaiting
      exact List.mem_map.mpr ⟨d, hd, hparcel⟩
    · -- nor does it wait: only threads have nodes
      rcases List.mem_map.mp hpending with ⟨node, -, hnode⟩
      rcases List.mem_map.mp hsettled with ⟨c, hc, hcall⟩
      have hthread : c.thread = some node.thread := by
        have heq : c.parcel.thread = (node.parcel i.call.port).thread := by rw [hcall, hnode]
        exact heq
      rw [hinv.net.dropped c hc] at hthread
      cases hthread
  · intro hawaited
    rw [if_pos hawaited] at hsettled
    rcases List.mem_map.mp hsettled with ⟨d, hd, hparcel⟩
    rcases hinv.net.delivered hd with ⟨c, -, hcall, hrequest, hport, -⟩
    refine Or.inl ⟨d, hd, hparcel, hdriver d.request hrequest ?_⟩
    have hsame : c.parcel.port = i.call.parcel.port := by rw [← hcall, hparcel]
    exact hport.trans hsame

/-- Before any call; line 5 is registered to port 0. -/
def quietNotify : Notify where
  net := Rendezvous.quiet
  table := (irqRegister 5 0 (irqInit fun _ => ⟨0, false⟩)).2
  raised := []

/-- Thread 1 waits for line 5, which is raised once, and again while the thread is at work
on the first interrupt. -/
theorem exists_twoInterrupts : ∃ w i j, Reachable Init Next w ∧ w.raised = [j, i] ∧
    i.awaited = true ∧ (∀ r ∈ w.net.recvs, r.thread = 1) ∧ j.call.call = 2 ∧
    w.net.deliveries.map (·.parcel.call) = [1] ∧ w.net.ipc.parcelsAt j.call.port = [] := by
  have h₀ : Reachable Init Next quietNotify := .init ⟨Rendezvous.init_quiet, rfl⟩
  have h₁ := h₀.step (.threads (@Rendezvous.Next.recv Rendezvous.quiet 1 0 0x100 2 .sleep _ _ rfl
    (by decide) (by decide) rfl rfl))
  have h₂ := h₁.step (@Next.irqHandler _ 5 0 2 (fun _ => 0) (.wake 1) _ _ rfl (by decide) rfl rfl)
  have h₃ := h₂.step (@Next.irqHandler _ 5 0 2 (fun _ => 0) .done _ _ rfl (by decide) rfl rfl)
  refine ⟨_, _, _, h₃, rfl, rfl, ?_, rfl, rfl, rfl⟩
  intro r hr
  cases List.mem_singleton.mp hr
  rfl

/-- The first interrupt reaches the thread. -/
theorem notified_iff_first : ∃ w i, Reachable Init Next w ∧ i ∈ w.raised ∧ i.awaited = true ∧
    w.Notified 1 i := by
  rcases exists_twoInterrupts with ⟨w, i, j, hreach, hraised, hawaited, hdriver, -⟩
  have hi : i ∈ w.raised := by
    rw [hraised]
    exact List.mem_cons_of_mem _ List.mem_cons_self
  refine ⟨w, i, hreach, hi, hawaited, (notified_iff hreach hi ?_).mpr hawaited⟩
  intro r hr _
  exact hdriver r hr

/-- The second interrupt is lost. -/
theorem second_interrupt_lost : ∃ w i, Reachable Init Next w ∧ i ∈ w.raised ∧
    (∀ r ∈ w.net.recvs, r.thread = 1) ∧ ¬ w.Notified 1 i := by
  rcases exists_twoInterrupts with
    ⟨w, i, j, hreach, hraised, -, hdriver, hcall, hdeliveries, hpending⟩
  refine ⟨w, j, hreach, by rw [hraised]; exact List.mem_cons_self, hdriver, ?_⟩
  rintro (⟨d, hd, hparcel, -⟩ | hmem)
  · have hone : d.parcel.call ∈ w.net.deliveries.map (·.parcel.call) := List.mem_map_of_mem hd
    rw [hdeliveries, hparcel] at hone
    have heq : j.call.call = 1 := List.mem_singleton.mp hone
    rw [hcall] at heq
    cases heq
  · rw [hpending] at hmem
    cases hmem

end Notify

end Orchid
