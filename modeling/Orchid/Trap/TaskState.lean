import Orchid.Core.Rules
import Orchid.Core.Segments
import Orchid.Scheduler.Model

/-! # The task state segment

A model of `kernel/tss.c`, with the calls that `schedule` makes of it. The processor
takes two things from the segment: the stack on which it enters the kernel from user
mode, and the bitmap of ports that user mode may access.

* The stack is the one of the current thread (`entry_stack_own`).
* `tss_init` clears the segment, the offset of the bitmap with it, and nobody calls
  `tss_set_io_bitmap`. So the segment itself is the bitmap, and a program may access
  all ports below 832, except for those at which the stack pointer happens to have a
  bit set (`ports_permitted_iff`).
-/

namespace Orchid

open ByteMem X86 Machine

/-! ## `tss.c` -/

/-- `sizeof(struct tss64)`. -/
def sizeofTss : Nat := 104

/-- The stores of `tss_init`, with what `kmalloc` returned. -/
def tssInit (tss : Nat) (m : ByteMem) : ByteMem := if tss = 0 then m else fill m tss 0 sizeofTss

/-- `tss_set_rsp0`. -/
def tssSetRsp0 (tss rsp0 : Nat) (m : ByteMem) : ByteMem :=
  if tss = 0 then m else write64 m (tss + 4) rsp0

/-- `tss_set_io_bitmap`. -/
def tssSetIoBitmap (tss : Nat) (full : Bool) (m : ByteMem) : ByteMem :=
  if tss = 0 then m else writeLE m (tss + 102) 2 (if full then 0xFFFF else sizeofTss)

/-- The scheduler with the segment. `dispatched` and `io` are ghosts: whether a thread was
dispatched since `tss_init`, and the last call of `tss_set_io_bitmap`. -/
structure TaskState where
  sched : Sched
  tss : Nat
  mem : ByteMem
  dispatched : Bool
  io : Option Bool

namespace TaskState

/-- After `tss_init`, with the block that it got. -/
def Init : StatePred TaskState := fun s =>
  s.tss ≠ 0 ∧ (∃ mem, s.mem = tssInit s.tss mem) ∧ (∃ cur, s.sched.currentThread = some cur) ∧
    s.dispatched = false ∧ s.io = none

/-- The calls of `schedule`, from `thread_block` and `thread_exit` too. -/
inductive Switches (fuel : Nat) (s q : Sched) : Prop where
  | schedule : Orchid.schedule fuel s = some q → Switches fuel s q
  | block : Orchid.schedule fuel (threadBlockMark s) = some q → Switches fuel s q
  | exit : Orchid.schedule fuel (threadExitMark s) = some q → Switches fuel s q

inductive Next : Action TaskState where
  | switch {s : TaskState} {fuel : Nat} {q : Sched} : Switches fuel s.sched q →
      Next s { s with sched := q, mem := tssSetRsp0 s.tss q.rsp0 s.mem, dispatched := true }
  | unblock {s : TaskState} {fuel : Nat} {t : Tid} {q : Sched} :
      threadUnblock fuel t s.sched = some q → Next s { s with sched := q }
  /-- A new thread has a record of its own. -/
  | create {s : TaskState} {t : Tid} (words stack cr3 : Nat) (proc : Option ProcPtr) :
      s.sched.currentThread ≠ some t →
      Next s { s with sched := initThread words t stack cr3 proc s.sched }
  | ioBitmap {s : TaskState} (full : Bool) :
      Next s { s with mem := tssSetIoBitmap s.tss full s.mem, io := some full }
  /-- The rest of the kernel's memory changes. -/
  | store {s : TaskState} {mem : ByteMem} :
      (∀ x, s.tss ≤ x → x < s.tss + sizeofTss → mem x = s.mem x) → Next s { s with mem := mem }

/-- The top of the current thread's kernel stack, once a thread was dispatched. -/
def stackTop (s : TaskState) : Nat :=
  if s.dispatched then (s.sched.currentThread.elim 0 fun t => (s.sched.threads t).kernelStack) else 0

/-- `io_map_base`. -/
def ioMapBase (io : Option Bool) : Nat :=
  match io with
  | none => 0
  | some full => if full then 0xFFFF else sizeofTss

/-- The bytes of the segment: zero but for two fields. -/
def bytes (rsp0 map i : Nat) : UInt8 :=
  if 4 ≤ i ∧ i < 12 then UInt8.ofNat (rsp0 / 256 ^ (i - 4))
  else if 102 ≤ i ∧ i < 104 then UInt8.ofNat (map / 256 ^ (i - 102))
  else 0

structure Inv (s : TaskState) : Prop where
  placed : s.tss ≠ 0
  current : ∃ cur, s.sched.currentThread = some cur
  bytes : ∀ i < sizeofTss, s.mem (s.tss + i) = bytes s.stackTop (ioMapBase s.io) i

/-! ## One step -/

section Steps

variable {s s' : TaskState} {fuel : Nat} {q : Sched}

/-- `schedule` stores the stack of the thread that it dispatches. -/
theorem schedule_rsp0 {u : Sched} {cur : Tid} (hcur : u.currentThread = some cur)
    (h : schedule fuel u = some q) :
    ∃ n, q.currentThread = some n ∧ q.rsp0 = (q.threads n).kernelStack := by
  unfold schedule at h
  rw [hcur] at h
  dsimp only at h
  split at h
  · cases h
  · rcases Option.map_eq_some_iff.mp h with ⟨n, -, rfl⟩
    exact ⟨n, rfl, rfl⟩

theorem switches_rsp0 {u : Sched} {cur : Tid} (hcur : u.currentThread = some cur)
    (h : Switches fuel u q) :
    ∃ n, q.currentThread = some n ∧ q.rsp0 = (q.threads n).kernelStack := by
  cases h with
  | schedule h => exact schedule_rsp0 hcur h
  | block h =>
    refine @schedule_rsp0 fuel q (threadBlockMark u) cur ?_ h
    rw [threadBlockMark, hcur]
    exact hcur
  | exit h =>
    refine @schedule_rsp0 fuel q (threadExitMark u) cur ?_ h
    rw [threadExitMark, hcur]
    exact hcur

theorem init_inv (h : Init s) : s.Inv := by
  rcases h with ⟨hplaced, ⟨mem, hmem⟩, hcur, hdispatched, hio⟩
  refine ⟨hplaced, hcur, ?_⟩
  intro i hi
  have hzero : s.mem (s.tss + i) = 0 := by
    rw [hmem, tssInit, if_neg hplaced, fill_apply, if_pos (by omega)]
  have hstack : s.stackTop = 0 := by
    rw [stackTop, hdispatched]
    rfl
  rw [hzero, hstack, hio]
  unfold TaskState.bytes ioMapBase
  simp

/-- Storing another stack pointer. -/
theorem bytes_setRsp0 {tss rsp0 old map i : Nat} {m : ByteMem} (hplaced : tss ≠ 0)
    (h : m (tss + i) = TaskState.bytes old map i) :
    tssSetRsp0 tss rsp0 m (tss + i) = TaskState.bytes rsp0 map i := by
  rw [tssSetRsp0, if_neg hplaced]
  unfold TaskState.bytes at h ⊢
  by_cases hin : 4 ≤ i ∧ i < 12
  · rw [if_pos hin, write64, writeLE, if_pos (by omega)]
    congr 3
    omega
  · rw [if_neg hin] at h ⊢
    rw [write64_apply_of_outside (by omega)]
    exact h

theorem bytes_setIoBitmap {tss rsp0 old i : Nat} {m : ByteMem} (full : Bool) (hplaced : tss ≠ 0)
    (h : m (tss + i) = TaskState.bytes rsp0 old i) :
    tssSetIoBitmap tss full m (tss + i) = TaskState.bytes rsp0 (ioMapBase (some full)) i := by
  rw [tssSetIoBitmap, if_neg hplaced]
  unfold TaskState.bytes at h ⊢
  by_cases hrsp : 4 ≤ i ∧ i < 12
  · rw [if_pos hrsp] at h ⊢
    rw [writeLE_apply_of_outside (by omega)]
    exact h
  · rw [if_neg hrsp] at h ⊢
    by_cases hin : 102 ≤ i ∧ i < 104
    · rw [if_pos hin, writeLE, if_pos (by omega)]
      congr 3
      omega
    · rw [if_neg hin] at h ⊢
      rw [writeLE_apply_of_outside (by omega)]
      exact h

theorem initThread_stack {u : Sched} {t v : Tid} (words stack cr3 : Nat) (proc : Option ProcPtr)
    (hv : v ≠ t) : ((initThread words t stack cr3 proc u).threads v).kernelStack =
      (u.threads v).kernelStack := by
  simp [initThread, schedulerAddThread, Sched.setNext, Sched.modify, hv]

theorem step_inv (h : s.Inv) (hnext : Next s s') : s'.Inv := by
  have hplaced := h.placed
  rcases h.current with ⟨cur, hcur⟩
  cases hnext with
  | @switch _ fuel q hswitch =>
    rcases switches_rsp0 hcur hswitch with ⟨n, hn, hrsp0⟩
    refine ⟨hplaced, ⟨n, hn⟩, ?_⟩
    intro i hi
    have htop : stackTop { s with
        sched := q, mem := tssSetRsp0 s.tss q.rsp0 s.mem, dispatched := true } = q.rsp0 := by
      simp only [stackTop, if_true, hn, Option.elim_some, hrsp0]
    rw [htop]
    exact bytes_setRsp0 hplaced (h.bytes i hi)
  | @unblock _ fuel t q hunblock =>
    rcases threadUnblock_fixed hunblock with ⟨hsame, -, hfixed⟩
    have hstack : (q.threads cur).kernelStack = (s.sched.threads cur).kernelStack :=
      congrArg (fun r => r.2.1) (hfixed cur)
    refine ⟨hplaced, ⟨cur, hsame.trans hcur⟩, ?_⟩
    have htop : stackTop { s with sched := q } = s.stackTop := by
      simp only [stackTop, hsame, hcur, Option.elim_some, hstack]
    rw [htop]
    exact h.bytes
  | @create _ t words stack cr3 proc hne =>
    have hcurt : cur ≠ t := fun heq => hne (heq ▸ hcur)
    refine ⟨hplaced, ⟨cur, hcur⟩, ?_⟩
    have htop : stackTop { s with sched := initThread words t stack cr3 proc s.sched } =
        s.stackTop := by
      have hsame : (initThread words t stack cr3 proc s.sched).currentThread =
          s.sched.currentThread := rfl
      simp only [stackTop, hsame, hcur, Option.elim_some, initThread_stack _ _ _ _ hcurt]
    rw [htop]
    exact h.bytes
  | ioBitmap full =>
    refine ⟨hplaced, ⟨cur, hcur⟩, ?_⟩
    intro i hi
    exact bytes_setIoBitmap full hplaced (h.bytes i hi)
  | store hmem =>
    refine ⟨hplaced, ⟨cur, hcur⟩, ?_⟩
    intro i hi
    exact (hmem (s.tss + i) (by omega) (by omega)).trans (h.bytes i hi)

theorem reachable_inv (h : Reachable Init Next s) : s.Inv :=
  h.invariant (fun _ => init_inv) fun _ _ hnext hinv => step_inv hinv hnext

end Steps

/-! ## What the processor takes from it -/

section Processor

variable {s : TaskState}

theorem Inv.rsp0 (h : s.Inv) : read64 s.mem (s.tss + 4) = s.stackTop % 2 ^ 64 := by
  have hdigits : ∀ i < 8, s.mem (s.tss + 4 + i) = UInt8.ofNat (s.stackTop / 256 ^ i) := by
    intro i hi
    rw [Nat.add_assoc, h.bytes _ (by simp only [sizeofTss]; omega), TaskState.bytes,
      if_pos (by omega)]
    congr 3
    omega
  exact readLE_of_digits hdigits

theorem Inv.ioMapBase (h : s.Inv) : readLE s.mem (s.tss + 102) 2 = ioMapBase s.io := by
  have hdigits : ∀ i < 2, s.mem (s.tss + 102 + i) =
      UInt8.ofNat (TaskState.ioMapBase s.io / 256 ^ i) := by
    intro i hi
    rw [Nat.add_assoc, h.bytes _ (by simp only [sizeofTss]; omega), TaskState.bytes,
      if_neg (by omega), if_pos (by omega)]
    congr 3
    omega
  rw [readLE_of_digits hdigits]
  unfold TaskState.ioMapBase
  split
  · rfl
  · split <;> rfl

/-- The bit of a port, in a segment whose bitmap is the segment itself. -/
theorem bytes_testBit {rsp0 port : Nat} :
    (TaskState.bytes rsp0 (TaskState.ioMapBase none) (port / 8)).toNat.testBit (port % 8) = false ↔
      (32 ≤ port → port < 96 → rsp0.testBit (port - 32) = false) := by
  unfold TaskState.bytes
  by_cases hin : 4 ≤ port / 8 ∧ port / 8 < 12
  · have hpow : 256 ^ (port / 8 - 4) = 2 ^ (8 * (port / 8 - 4)) := by
      rw [pow_mul]
      rfl
    have hindex : port % 8 + 8 * (port / 8 - 4) = port - 32 := by omega
    have hsmall : port % 8 < 8 := Nat.mod_lt _ (by omega)
    rw [if_pos hin, UInt8.toNat_ofNat', hpow, Nat.testBit_mod_two_pow, Nat.testBit_div_two_pow,
      hindex, decide_eq_true hsmall, Bool.true_and]
    constructor
    · intro hbit _ _
      exact hbit
    · intro hbit
      exact hbit (by omega) (by omega)
  · have hzero : (if 102 ≤ port / 8 ∧ port / 8 < 104 then
        UInt8.ofNat (TaskState.ioMapBase none / 256 ^ (port / 8 - 102)) else 0) = 0 := by
      simp [TaskState.ioMapBase]
    rw [if_neg hin, hzero]
    refine iff_of_true (Nat.zero_testBit _) ?_
    omega

/-- In every state after the first dispatch the processor enters the kernel, from user mode,
on the stack of the thread that is current. -/
theorem entry_stack_own (h : Reachable Init Next s) (hdispatched : s.dispatched = true) :
    ∃ cur, s.sched.currentThread = some cur ∧
      read64 s.mem (s.tss + 4) = (s.sched.threads cur).kernelStack % 2 ^ 64 := by
  have hinv := reachable_inv h
  rcases hinv.current with ⟨cur, hcur⟩
  refine ⟨cur, hcur, ?_⟩
  rw [hinv.rsp0, stackTop, if_pos hdispatched, hcur]
  rfl

/-- The idle thread alone, dispatched once. -/
def idleDispatched : TaskState where
  sched := dispatch 1 ⟨fun _ => ⟨0, 0x5000, .ready, 0, 0, none, none⟩, some 1, none, some 1, 1, none, 0⟩
  tss := 0x1000
  mem := tssSetRsp0 0x1000 0x5000 (tssInit 0x1000 fun _ => 7)
  dispatched := true
  io := none

theorem reachable_idleDispatched : Reachable Init Next idleDispatched := by
  let s : TaskState :=
    ⟨⟨fun _ => ⟨0, 0x5000, .ready, 0, 0, none, none⟩, some 1, none, some 1, 1, none, 0⟩, 0x1000,
      tssInit 0x1000 fun _ => 7, false, none⟩
  have hinit : Init s := ⟨by decide, ⟨_, rfl⟩, ⟨1, rfl⟩, rfl, rfl⟩
  have hschedule : schedule 0 s.sched = some idleDispatched.sched := rfl
  exact .step (.init hinit) (.switch (.schedule hschedule))

/-- The idle thread, and a thread with another stack in the queue. -/
def twoStacks : Sched where
  threads t := ⟨0, if t = 2 then 0x6000 else 0x5000, .ready, 0, 0, none, none⟩
  currentThread := some 1
  readyQueue := some 2
  idleThreadPtr := some 1
  threadCount := 2
  currentProcess := none
  rsp0 := 0

/-- The thread gets the processor, and when it blocks the idle thread does. -/
theorem entry_stack_own_twoStacks : ∃ s s' : TaskState, Reachable Init Next s ∧ Next s s' ∧
    s.sched.currentThread = some 2 ∧ read64 s.mem (s.tss + 4) = 0x6000 ∧
    s'.sched.currentThread = some 1 ∧ read64 s'.mem (s'.tss + 4) = 0x5000 := by
  have hinit : Init ⟨twoStacks, 0x1000, tssInit 0x1000 fun _ => 7, false, none⟩ :=
    ⟨by decide, ⟨_, rfl⟩, ⟨1, rfl⟩, rfl, rfl⟩
  let q := (schedule 1 twoStacks).get rfl
  let q' := (schedule 1 (threadBlockMark q)).get rfl
  have hfirst : schedule 1 twoStacks = some q := rfl
  have hsecond : schedule 1 (threadBlockMark q) = some q' := rfl
  let mem := tssSetRsp0 0x1000 q.rsp0 (tssInit 0x1000 fun _ => 7)
  have h : Reachable Init Next ⟨q, 0x1000, mem, true, none⟩ :=
    .step (.init hinit) (.switch (.schedule hfirst))
  have hnext : Next ⟨q, 0x1000, mem, true, none⟩
      ⟨q', 0x1000, tssSetRsp0 0x1000 q'.rsp0 mem, true, none⟩ := .switch (.block hsecond)
  rcases entry_stack_own h rfl with ⟨cur, hcur, hstack⟩
  rcases entry_stack_own (h.step hnext) rfl with ⟨cur', hcur', hstack'⟩
  obtain rfl : 2 = cur := Option.some.inj hcur
  obtain rfl : 1 = cur' := Option.some.inj hcur'
  exact ⟨_, _, h, hnext, rfl, hstack, rfl, hstack'⟩

/-- In every state a program, which has no I/O privilege, may access a port if and only if
`tss_set_io_bitmap` was never called, the port is below 832, and it is not one of the 64 ports
from 32 on whose bit is set in the stack pointer of the current thread. -/
theorem ports_permitted_iff (h : Reachable Init Next s) (port : Nat) :
    ioPermitted s.mem s.tss sizeofTss port 1 = true ↔
      s.io = none ∧ port < 832 ∧
        (32 ≤ port → port < 96 → s.stackTop.testBit (port - 32) = false) := by
  have hinv := reachable_inv h
  rw [ioPermitted_one hinv.ioMapBase]
  cases hio : s.io with
  | some full =>
    refine iff_of_false ?_ ?_
    · -- either offset lies at the end of the segment or beyond
      have hfar : sizeofTss ≤ TaskState.ioMapBase (some full) := by
        unfold TaskState.ioMapBase
        dsimp only
        split <;> decide
      omega
    · rintro ⟨hnone, -⟩
      cases hnone
  | none =>
    have hzero : TaskState.ioMapBase none = 0 := rfl
    rw [hzero, Nat.zero_add]
    by_cases hlimit : port / 8 + 1 ≤ sizeofTss
    · have hport : port < 832 := by
        simp only [sizeofTss] at hlimit
        omega
      rw [hinv.bytes _ hlimit, hio]
      simp only [hlimit, hport, true_and]
      exact bytes_testBit
    · refine iff_of_false (fun hboth => hlimit hboth.1) ?_
      rintro ⟨-, hport, -⟩
      simp only [sizeofTss] at hlimit
      omega

/-- The keyboard controller can be reached, the serial port cannot. -/
theorem ports_permitted_idle :
    ioPermitted idleDispatched.mem idleDispatched.tss sizeofTss 0x60 1 = true ∧
      ¬ ioPermitted idleDispatched.mem idleDispatched.tss sizeofTss 0x3F8 1 = true := by
  rw [ports_permitted_iff reachable_idleDispatched, ports_permitted_iff reachable_idleDispatched]
  constructor
  · exact ⟨rfl, by decide, fun _ hport => absurd hport (by decide)⟩
  · rintro ⟨-, hport, -⟩
    exact absurd hport (by decide)

end Processor

end TaskState

end Orchid
