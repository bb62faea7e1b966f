import Orchid.Core.Interrupts
import Orchid.Sync.LockOrder

/-! # Handlers and the code they interrupt

`spin_lock` leaves interrupts on, and the handlers of `isr_handler` take
locks that kernel threads take too: the timer and scheduler locks at every
tick, the heap lock when a sleeper wakes, the lock of a driver's port, the
keyboard lock. A handler that arrives while the thread below it holds one of
these never returns.

`never_spins_iff` says when this cannot happen: exactly if every interrupt is
kept away for as long as the thread holds a lock of its handler.
-/

namespace Orchid

open Machine SpinLock

namespace Locking

def kbdBufPut : Prog Lock := .lock .kbd <| .unlock .kbd .skip

-- an empty buffer yields and tries again
def kbdBufGet : Prog Lock :=
  .seq (.loop (.lock .kbd <| .unlock .kbd schedule)) <| .lock .kbd <| .unlock .kbd .skip

theorem kbdBufPut_keeps : kbdBufPut.Keeps rank 0 := .lock (.unlock .skip) le_rfl

theorem kbdBufGet_keeps : kbdBufGet.Keeps rank 3 := by
  refine .seq (.loop ?_) ?_
  · exact .lock (.unlock schedule_keeps) (by decide)
  · exact .lock (.unlock .skip) (by decide)

end Locking

/-- What a kernel thread runs with interrupts on. -/
inductive ThreadOp where
  | ipcSend (port : ℕ)
  | ipcRecv (port : ℕ)
  | kmalloc
  | kfree
  | threadBlock
  | threadUnblock
  | sleepUntil
  | irqRegister (line : ℕ)
  | kbdBufGet
  deriving DecidableEq, Repr

def ThreadOp.prog : ThreadOp → Prog Lock
  | .ipcSend port => Locking.ipcSend port
  | .ipcRecv port => Locking.ipcRecv port
  | .kmalloc => Locking.kmalloc
  | .kfree => Locking.kfree
  | .threadBlock => Locking.threadBlock
  | .threadUnblock => Locking.threadUnblock
  | .sleepUntil => Locking.sleepUntil
  | .irqRegister line => Locking.irqRegister line
  | .kbdBufGet => Locking.kbdBufGet

def threadOps : Set (Prog Lock) := Set.range ThreadOp.prog

/-- The interrupts, `port` being what `irq_table` holds for the line. -/
inductive Handler where
  | timer (port : ℕ)
  | keyboard
  | line (port : ℕ)
  deriving DecidableEq, Repr

/-- The paths through `isr_handler`. The timer's goes on to `irq_handler` once
its thread is back on the processor. -/
def Handler.prog : Handler → Prog Lock
  | .timer port => .seq Locking.timerTick <| .seq Locking.schedule <| Locking.irqHandler port
  -- a release code or a key without a character is dropped
  | .keyboard => .alt .skip Locking.kbdBufPut
  | .line port => Locking.irqHandler port

/-- The locks of `irq_handler` with the message to `port`. -/
def lineLocks (port : ℕ) : List Lock :=
  .irq :: if h : port < maxPorts then [.port ⟨port, h⟩, .sched, .heap] else []

/-- The locks a handler takes. -/
def Handler.locks : Handler → List Lock
  | .timer port => .timer :: .sched :: .heap :: lineLocks port
  | .keyboard => [.kbd]
  | .line port => lineLocks port

theorem ThreadOp.prog_keeps (op : ThreadOp) : op.prog.Keeps Locking.rank 3 := by
  cases op with
  | ipcSend port => exact Locking.meet_keeps port
  | ipcRecv port => exact Locking.meet_keeps port
  | kmalloc => exact Locking.kmalloc_keeps.mono (by decide)
  | kfree => exact Locking.kfree_keeps.mono (by decide)
  | threadBlock => exact Locking.threadBlock_keeps
  | threadUnblock => exact Locking.threadUnblock_keeps.mono (by decide)
  | sleepUntil => exact Locking.sleepUntil_keeps
  | irqRegister line => exact (Locking.irqRegister_keeps line).mono (by decide)
  | kbdBufGet => exact Locking.kbdBufGet_keeps

theorem Handler.prog_keeps (k : Handler) : k.prog.Keeps Locking.rank 3 := by
  cases k with
  | timer port =>
    exact .seq Locking.timerTick_keeps (.seq Locking.schedule_keeps (Locking.irqHandler_keeps port))
  | keyboard => exact .alt .skip (Locking.kbdBufPut_keeps.mono (by decide))
  | line port => exact Locking.irqHandler_keeps port

/-! ## What the handlers request -/

namespace Locking

theorem not_requests_ipcInit (l : Lock) : ¬ ipcInit.Requests l := by
  unfold ipcInit
  induction List.finRange maxPorts with
  | nil => exact id
  | cons i is ih => simpa using ih

theorem requests_irqHandler {port : ℕ} {l : Lock} :
    (irqHandler port).Requests l ↔ l ∈ lineLocks port := by
  by_cases hport : port < maxPorts
  · simp [irqHandler, ipcKernelSend, onPort, threadUnblock, kfree, lineLocks, hport,
      not_requests_ipcInit]
  · simp [irqHandler, ipcKernelSend, onPort, lineLocks, hport, not_requests_ipcInit]

theorem requests_timerTick {l : Lock} :
    timerTick.Requests l ↔ l ∈ [.timer, .sched, .heap] := by
  simp [timerTick, threadUnblock, kfree]

theorem requests_schedule {l : Lock} : schedule.Requests l ↔ l = .sched := by
  simp [schedule]

theorem schedule_trace : schedule.Trace [.lock .sched, .unlock .sched, .switch] :=
  .lock (.right (.unlock (.act .switch)))

/-- A thread is woken and its node freed. -/
def wakePath : List (Act Lock) := [.lock .sched, .unlock .sched, .lock .heap, .unlock .heap]

theorem wakePath_trace : (Prog.seq threadUnblock kfree).Trace wakePath :=
  .seq (.lock (.unlock .skip)) (.right (.lock (.unlock .skip)))

/-- The longest path of `ipc_kernel_send` once the ports are set up. -/
def sendPath (port : ℕ) : List (Act Lock) :=
  if h : port < maxPorts then .lock (.port ⟨port, h⟩) :: .unlock (.port ⟨port, h⟩) :: wakePath
  else []

theorem sendPath_trace (port : ℕ) : (ipcKernelSend port).Trace (sendPath port) := by
  have hinit : (Prog.alt .skip ipcInit).Trace [] := .left .skip
  rw [← List.nil_append (sendPath port)]
  apply hinit.seq
  by_cases hport : port < maxPorts
  · rw [sendPath, dif_pos hport, dif_pos hport]
    exact .lock (.left (.unlock wakePath_trace))
  · rw [sendPath, dif_neg hport, dif_neg hport]
    exact .skip

/-- The path of `irq_handler` for a line in use. -/
def linePath (port : ℕ) : List (Act Lock) := .lock .irq :: .unlock .irq :: sendPath port

theorem linePath_trace (port : ℕ) : (irqHandler port).Trace (linePath port) :=
  .lock (.left (.unlock (sendPath_trace port)))

theorem mem_linePath {port : ℕ} {l : Lock} (h : l ∈ lineLocks port) :
    .lock l ∈ linePath port := by
  by_cases hport : port < maxPorts
  · simpa [lineLocks, linePath, sendPath, wakePath, hport] using h
  · simpa [lineLocks, linePath, sendPath, hport] using h

theorem clear_notMem_linePath (port : ℕ) (l : Lock) : .clear l ∉ linePath port := by
  by_cases hport : port < maxPorts
  · simp [linePath, sendPath, wakePath, hport]
  · simp [linePath, sendPath, hport]

end Locking

theorem Handler.requests_iff {k : Handler} {l : Lock} : k.prog.Requests l ↔ l ∈ k.locks := by
  cases k with
  | timer port =>
    simp only [prog, locks, Prog.requests_seq, Locking.requests_timerTick,
      Locking.requests_schedule, Locking.requests_irqHandler, List.mem_cons, List.not_mem_nil,
      or_false]
    tauto
  | keyboard => simp [prog, locks, Locking.kbdBufPut]
  | line port => exact Locking.requests_irqHandler

open Locking in
/-- Each handler has one path that takes all its locks and clears none. -/
theorem Handler.exists_path (k : Handler) :
    ∃ zs, k.prog.Trace zs ∧ (∀ l ∈ k.locks, .lock l ∈ zs) ∧ ∀ l, .clear l ∉ zs := by
  cases k with
  | timer port =>
    have htick : Locking.timerTick.Trace (.lock .timer :: (wakePath ++ [.unlock .timer])) :=
      .lock (.seq (.again (.left wakePath_trace) .done) (.unlock .skip))
    refine ⟨_, htick.seq (schedule_trace.seq (linePath_trace port)), ?_, ?_⟩
    · intro l hl
      simp only [locks, List.mem_cons] at hl
      rcases hl with rfl | rfl | rfl | hl
      · simp
      · simp
      · simp [wakePath]
      · simp [mem_linePath hl]
    · intro l
      simp [wakePath, clear_notMem_linePath]
  | keyboard =>
    have hput : Locking.kbdBufPut.Trace [.lock .kbd, .unlock .kbd] := .lock (.unlock .skip)
    exact ⟨_, .right hput, by simp [locks], by simp⟩
  | line port =>
    exact ⟨_, linePath_trace port, fun l hl => mem_linePath hl, clear_notMem_linePath port⟩

/-! ## When handlers do not spin -/

/-- No handler ever spins on a lock of the thread it interrupted, exactly if
interrupts are let through only at points where the thread holds no lock of
the handler. -/
theorem never_spins_iff {T : Type} [DecidableEq T] [Inhabited T]
    (allowed : List Lock → Handler → Prop) :
    (∀ s : SpinLock.Cpu T Lock,
        Reachable SpinLock.Cpu.Init (SpinLock.Cpu.Next threadOps Handler.prog allowed) s →
        ¬ s.Spins) ↔
      ∀ (op : ThreadOp) xs ys, op.prog.Trace (xs ++ ys) → ∀ k, allowed (holding xs []) k →
        ∀ l ∈ holding xs [], l ∉ k.locks := by
  have hops : ∀ p ∈ threadOps, p.Keeps Locking.rank 3 := by
    rintro _ ⟨op, rfl⟩
    exact op.prog_keeps
  have hpath : ∀ (k : Handler) l, k.prog.Requests l →
      ∃ zs, k.prog.Trace zs ∧ .lock l ∈ zs ∧ ∀ m, .clear m ∉ zs := by
    intro k l hreq
    obtain ⟨zs, htrace, hmem, hclear⟩ := k.exists_path
    exact ⟨zs, htrace, hmem l (Handler.requests_iff.mp hreq), hclear⟩
  rw [SpinLock.Cpu.forall_not_spins_iff hops Handler.prog_keeps hpath]
  constructor
  · intro hmask op xs ys htrace k hallowed l hl hmem
    exact hmask _ ⟨op, rfl⟩ xs ys htrace k hallowed l hl (Handler.requests_iff.mpr hmem)
  · rintro hmask _ ⟨op, rfl⟩ xs ys htrace k hallowed l hl hreq
    exact hmask op xs ys htrace k hallowed l hl (Handler.requests_iff.mp hreq)

/-- With interrupts on, the timer arrives while `thread_unblock` is in its
critical section, and `schedule` spins on the scheduler lock. -/
theorem timer_spins_on_unblock : ∃ s : SpinLock.Cpu Unit Lock,
    Reachable SpinLock.Cpu.Init (SpinLock.Cpu.Next threadOps Handler.prog fun _ _ => True) s ∧
      s.Spins := by
  have hunblock : Locking.threadUnblock.Trace [.lock .sched, .unlock .sched] :=
    .lock (.unlock .skip)
  -- no sleeper is due, nobody has the line
  have htick : Locking.timerTick.Trace [.lock .timer, .unlock .timer] :=
    .lock (.seq .done (.unlock .skip))
  have hline : (Locking.irqHandler 0).Trace [.lock .irq, .unlock .irq] :=
    .lock (.right (.unlock .skip))
  have hirq : (Handler.timer 0).prog.Trace _ := htick.seq (Locking.schedule_trace.seq hline)
  have h₀ : Reachable SpinLock.Cpu.Init (SpinLock.Cpu.Next threadOps Handler.prog fun _ _ => True)
      (⟨fun _ => false, (), fun _ => ⟨⟨[], []⟩, none⟩⟩ : SpinLock.Cpu Unit Lock) :=
    .init ⟨fun _ => rfl, fun _ => rfl⟩
  have h₁ := h₀.step (.start rfl ⟨.threadUnblock, rfl⟩ hunblock)
  have h₂ := h₁.step (.op () rfl rfl rfl)
  have h₃ := h₂.step (.interrupt rfl trivial hirq)
  have h₄ := h₃.step (.irq () rfl rfl rfl)
  have h₅ := h₄.step (.irq () rfl trivial rfl)
  exact ⟨_, h₅, _, .sched, _, _, rfl, rfl, List.mem_cons_self⟩

end Orchid
