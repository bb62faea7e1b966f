import Orchid.Core.Rules
import Orchid.Scheduler.Model

/-! # The result of a system call

`syscall_handler` leaves its result in the variable `syscall_retval`, from which
`syscall_entry` loads it, and `sys_fork` takes the address at which the child resumes from
the variable `saved_user_rip`. Both exist once, for all threads, and are protected by
nothing but the interrupt flag: SYSCALL clears it. `__switch_to` does not change it.

* A thread that waits in `schedule` inside of its call goes on with the flag that the thread
  before it left. Calls, interrupts and returns to interrupted code leave it as it should
  be; a kernel thread that blocks or ends with interrupts enabled does not.
* As long as no kernel thread does that, every call returns its own result and every fork
  uses its own address (`results_own`).
-/

namespace Orchid

open Machine Function

/-! ## Model -/

/-- Where a thread is. -/
inductive CallPos where
  /-- In its own code. -/
  | outside
  /-- In `syscall_handler`, entered from the address, before any call of `schedule`. -/
  | entered (rip : UInt64)
  /-- In `schedule`, called by the handler. -/
  | waiting
  /-- Back from there. -/
  | resumed
  /-- In `schedule`, called for the SYSCALL in `kbd_buf_get`. -/
  | nested
  /-- Back from there: SYSRET will make the next instruction fault. -/
  | faulting
  /-- The result is in `syscall_retval`, and is loaded next. -/
  | stored (v : UInt64)
  /-- In `schedule`, called by the timer interrupt. -/
  | preempted (pos : CallPos)
  /-- In `schedule`, called by a kernel thread, or not started yet. -/
  | yielded
  | ended
  deriving DecidableEq

/-- The threads, the interrupt flag and the two variables. `results` has, for each call that
returned, what its handler stored and what the program got, and `forks`, for each fork, the
caller's address and the one that was used. -/
structure Retvals where
  pos : Tid → CallPos
  current : Tid
  intFlag : Bool
  syscallRetval : UInt64
  savedUserRip : UInt64
  results : List (UInt64 × UInt64)
  forks : List (UInt64 × UInt64)

namespace Retvals

/-- The current thread goes to `pos`. -/
def goto (pos : CallPos) (s : Retvals) : Retvals :=
  { s with pos := update s.pos s.current pos }

/-- A thread that `schedule` may choose, and where it goes on, with the interrupt flag. Only
`iretq` loads the flag, and it was set when the interrupt came. Which selectors `iretq` accepts
is not asked here, so that a thread may be resumed which the processor would not return to. -/
def arrive (intFlag : Bool) : CallPos → Option (CallPos × Bool)
  | .waiting => some (.resumed, intFlag)
  | .nested => some (.faulting, intFlag)
  | .preempted pos => some (pos, true)
  | .yielded => some (.outside, intFlag)
  | _ => none

/-- The end of `schedule`: thread `u` goes on. -/
def switchTo (u : Tid) (s : Retvals) : Option Retvals :=
  (arrive s.intFlag (s.pos u)).map fun (pos, intFlag) =>
    { s with pos := update s.pos u pos, current := u, intFlag := intFlag }

/-- In the handler, with nothing stored. -/
def Handling : CallPos → Prop
  | .entered _ => True
  | .resumed => True
  | _ => False

/-- A step of the current thread. `kernel` says which threads are kernel threads. They block
and end with interrupts off. -/
inductive Next (kernel : Tid → Prop) : Action Retvals where
  | enter {s : Retvals} (rip : UInt64) (huser : ¬ kernel s.current)
      (hpos : s.pos s.current = .outside) :
      Next kernel s { s.goto (.entered rip) with intFlag := false, savedUserRip := rip }
  | fork {s : Retvals} {rip : UInt64} (v : UInt64) (hpos : s.pos s.current = .entered rip) :
      Next kernel s { s.goto (.stored v) with
        syscallRetval := v, forks := s.forks ++ [(rip, s.savedUserRip)] }
  | store {s : Retvals} (v : UInt64) (hpos : Handling (s.pos s.current)) :
      Next kernel s { s.goto (.stored v) with syscallRetval := v }
  /-- SYSRET loads the program's flags. -/
  | sysret {s : Retvals} {v : UInt64} (hpos : s.pos s.current = .stored v) :
      Next kernel s { s.goto .outside with
        intFlag := true, results := s.results ++ [(v, s.syscallRetval)] }
  | wait {s s' : Retvals} {u : Tid} (hpos : Handling (s.pos s.current))
      (hswitch : (s.goto .waiting).switchTo u = some s') : Next kernel s s'
  | nest {s s' : Retvals} {u : Tid} (rip : UInt64) (hpos : Handling (s.pos s.current))
      (hswitch : ({ s.goto .nested with intFlag := false, savedUserRip := rip }).switchTo u =
        some s') : Next kernel s s'
  | fault {s s' : Retvals} {u : Tid} (hpos : s.pos s.current = .faulting)
      (hswitch : ({ s.goto .ended with intFlag := false, syscallRetval := 0 }).switchTo u =
        some s') : Next kernel s s'
  | exit {s s' : Retvals} {u : Tid} (hpos : Handling (s.pos s.current))
      (hswitch : (s.goto .ended).switchTo u = some s') : Next kernel s s'
  | timer {s s' : Retvals} {u : Tid} (hif : s.intFlag = true)
      (hswitch : ({ s.goto (.preempted (s.pos s.current)) with intFlag := false }).switchTo u =
        some s') : Next kernel s s'
  | enable {s : Retvals} (hkernel : kernel s.current) (hpos : s.pos s.current = .outside) :
      Next kernel s { s with intFlag := true }
  | block {s s' : Retvals} {u : Tid} (hkernel : kernel s.current)
      (hpos : s.pos s.current = .outside) (hif : s.intFlag = false)
      (hswitch : (s.goto .yielded).switchTo u = some s') : Next kernel s s'
  | finish {s s' : Retvals} {u : Tid} (hkernel : kernel s.current)
      (hpos : s.pos s.current = .outside) (hif : s.intFlag = false)
      (hswitch : (s.goto .ended).switchTo u = some s') : Next kernel s s'

/-- The boot thread is running. Kernel threads are not started yet, and user threads start with
an `iretq`. -/
structure Init (s : Retvals) : Prop where
  boot : s.pos s.current = .outside
  others : ∀ t, t ≠ s.current →
    s.pos t = .yielded ∨ s.pos t = .preempted .outside ∨ s.pos t = .ended
  results : s.results = []
  forks : s.forks = []

/-- Each call got its own result, and each fork used its own address. -/
def Own (s : Retvals) : Prop := (∀ e ∈ s.results, e.1 = e.2) ∧ ∀ e ∈ s.forks, e.1 = e.2

/-! ## The invariant -/

/-- A thread that is not running, none of them with a result to load. -/
def Parked : CallPos → Prop
  | .waiting => True
  | .nested => True
  | .preempted pos => pos = .outside
  | .yielded => True
  | .ended => True
  | _ => False

/-- What the current thread relies on. -/
def Running (s : Retvals) : CallPos → Prop
  | .outside => True
  | .entered rip => s.intFlag = false ∧ s.savedUserRip = rip
  | .resumed => s.intFlag = false
  | .faulting => s.intFlag = false
  | .stored v => s.intFlag = false ∧ s.syscallRetval = v
  | _ => False

structure Inv (s : Retvals) : Prop where
  parked : ∀ t, t ≠ s.current → Parked (s.pos t)
  running : Running s (s.pos s.current)
  own : s.Own

section Steps

variable {kernel : Tid → Prop} {s s' : Retvals} {u : Tid} {pos : CallPos}

theorem Init.inv (h : s.Init) : s.Inv := by
  constructor
  · intro t ht
    rcases h.others t ht with hpos | hpos | hpos <;> rw [hpos]
    · trivial
    · rfl
    · trivial
  · rw [h.boot]
    trivial
  · constructor
    · rw [h.results]
      simp
    · rw [h.forks]
      simp

/-- The current thread goes on, in a place where it has what it relies on. -/
theorem Inv.goes (h : s.Inv) (hothers : ∀ t, t ≠ s.current → s'.pos t = s.pos t)
    (hcurrent : s'.current = s.current) (hrunning : Running s' (s'.pos s'.current))
    (hown : s'.Own) : s'.Inv := by
  refine ⟨?_, hrunning, hown⟩
  intro t ht
  rw [hcurrent] at ht
  rw [hothers t ht]
  exact h.parked t ht

/-- A parked thread goes on in its own code, or in the handler with interrupts off. -/
theorem arrive_parked {p : CallPos} {f : Bool} (hp : Parked p)
    (h : arrive false p = some (pos, f)) :
    pos = .outside ∨ ((pos = .resumed ∨ pos = .faulting) ∧ f = false) := by
  cases p with
  | waiting =>
    rcases Option.some.inj h with ⟨rfl, rfl⟩
    exact .inr ⟨.inl rfl, rfl⟩
  | nested =>
    rcases Option.some.inj h with ⟨rfl, rfl⟩
    exact .inr ⟨.inr rfl, rfl⟩
  | preempted p =>
    rcases Option.some.inj h with ⟨rfl, rfl⟩
    exact .inl hp
  | yielded =>
    rcases Option.some.inj h with ⟨rfl, rfl⟩
    exact .inl rfl
  | _ => cases h

/-- With the interrupt flag clear and all threads parked, any of them can go on. -/
theorem inv_switchTo (hparked : ∀ t, Parked (s.pos t)) (hif : s.intFlag = false) (hown : s.Own)
    (hswitch : s.switchTo u = some s') : s'.Inv := by
  rcases Option.map_eq_some_iff.mp hswitch with ⟨⟨pos, intFlag⟩, harrive, rfl⟩
  rw [hif] at harrive
  constructor
  · intro t ht
    show Parked (update s.pos u pos t)
    rw [update_of_ne ht]
    exact hparked t
  · show Running _ (update s.pos u pos u)
    rw [update_self]
    rcases arrive_parked (hparked u) harrive with rfl | ⟨rfl | rfl, rfl⟩
    · trivial
    · rfl
    · rfl
  · exact hown

/-- The current thread gives up the processor with the interrupt flag clear. -/
theorem Inv.leaves (h : s.Inv) (pos : CallPos) (hpark : Parked pos) {t : Retvals}
    (hswitch : t.switchTo u = some s') (ht : t.pos = update s.pos s.current pos)
    (hif : t.intFlag = false) (hresults : t.results = s.results) (hforks : t.forks = s.forks) :
    s'.Inv := by
  apply inv_switchTo _ hif _ hswitch
  · intro v
    rw [ht]
    by_cases hv : v = s.current
    · rw [hv, update_self]
      exact hpark
    · rw [update_of_ne hv]
      exact h.parked v hv
  · unfold Own
    rw [hresults, hforks]
    exact h.own

/-- In the handler interrupts are off. -/
theorem Inv.handling (h : s.Inv) (hpos : Handling (s.pos s.current)) : s.intFlag = false := by
  have hrunning := h.running
  cases hp : s.pos s.current with
  | entered rip =>
    rw [hp] at hrunning
    exact hrunning.1
  | resumed =>
    rw [hp] at hrunning
    exact hrunning
  | _ =>
    rw [hp] at hpos
    exact hpos.elim

/-- With interrupts on the current thread is in its own code. -/
theorem Inv.interruptible (h : s.Inv) (hif : s.intFlag = true) : s.pos s.current = .outside := by
  have hrunning := h.running
  have hne : s.intFlag ≠ false := by simp [hif]
  cases hp : s.pos s.current with
  | outside => rfl
  | entered rip =>
    rw [hp] at hrunning
    exact absurd hrunning.1 hne
  | stored v =>
    rw [hp] at hrunning
    exact absurd hrunning.1 hne
  | resumed =>
    rw [hp] at hrunning
    exact absurd hrunning hne
  | faulting =>
    rw [hp] at hrunning
    exact absurd hrunning hne
  | _ =>
    rw [hp] at hrunning
    exact hrunning.elim

theorem goto_current (pos : CallPos) (s : Retvals) : (s.goto pos).pos s.current = pos :=
  update_self ..

theorem goto_of_ne (pos : CallPos) (s : Retvals) {t : Tid} (ht : t ≠ s.current) :
    (s.goto pos).pos t = s.pos t := update_of_ne ht ..

/-- A step keeps the invariant. -/
theorem Inv.next (h : s.Inv) (hnext : Next kernel s s') : s'.Inv := by
  cases hnext with
  | enter rip _ hpos =>
    refine h.goes (fun t ht => goto_of_ne _ s ht) rfl ?_ h.own
    show Running _ ((s.goto (.entered rip)).pos s.current)
    rw [goto_current]
    exact ⟨rfl, rfl⟩
  | @fork _ rip v hpos =>
    have hrunning := h.running
    rw [hpos] at hrunning
    refine h.goes (fun t ht => goto_of_ne _ s ht) rfl ?_ ⟨h.own.1, ?_⟩
    · show Running _ ((s.goto (.stored v)).pos s.current)
      rw [goto_current]
      exact ⟨hrunning.1, rfl⟩
    · intro e he
      rcases List.mem_append.mp he with hold | hnew
      · exact h.own.2 e hold
      · rw [List.mem_singleton.mp hnew]
        exact hrunning.2.symm
  | store v hpos =>
    refine h.goes (fun t ht => goto_of_ne _ s ht) rfl ?_ h.own
    show Running _ ((s.goto (.stored v)).pos s.current)
    rw [goto_current]
    exact ⟨h.handling hpos, rfl⟩
  | @sysret _ v hpos =>
    have hrunning := h.running
    rw [hpos] at hrunning
    refine h.goes (fun t ht => goto_of_ne _ s ht) rfl ?_ ⟨?_, h.own.2⟩
    · show Running _ ((s.goto .outside).pos s.current)
      rw [goto_current]
      trivial
    · intro e he
      rcases List.mem_append.mp he with hold | hnew
      · exact h.own.1 e hold
      · rw [List.mem_singleton.mp hnew]
        exact hrunning.2.symm
  | wait hpos hswitch => exact h.leaves .waiting trivial hswitch rfl (h.handling hpos) rfl rfl
  | nest rip hpos hswitch => exact h.leaves .nested trivial hswitch rfl rfl rfl rfl
  | fault hpos hswitch => exact h.leaves .ended trivial hswitch rfl rfl rfl rfl
  | exit hpos hswitch => exact h.leaves .ended trivial hswitch rfl (h.handling hpos) rfl rfl
  | timer hif hswitch =>
    -- only a thread in its own code is interrupted
    exact h.leaves (.preempted (s.pos s.current)) (h.interruptible hif) hswitch rfl rfl rfl rfl
  | enable _ hpos =>
    refine h.goes (fun _ _ => rfl) rfl ?_ h.own
    show Running _ (s.pos s.current)
    rw [hpos]
    trivial
  | block _ _ hif hswitch => exact h.leaves .yielded trivial hswitch rfl hif rfl rfl
  | finish _ _ hif hswitch => exact h.leaves .ended trivial hswitch rfl hif rfl rfl

end Steps

/-! ## Runs -/

/-- In every interleaving of system calls, timer interrupts and kernel threads in which no
kernel thread blocks or ends with interrupts enabled, every call returns the result that its
own handler stored, and every fork takes its own caller's address. -/
theorem results_own (kernel : Tid → Prop) {s : Retvals}
    (h : Reachable Init (Next kernel) s) : s.Own := by
  have hinv : s.Inv :=
    h.invariant (fun _ hinit => hinit.inv) fun _ _ hnext hinv => hinv.next hnext
  exact hinv.own

/-- A kernel thread and two programs, before they start. -/
def threeThreads : Retvals where
  pos t := if t = 0 then .outside else .preempted .outside
  current := 0
  intFlag := true
  syscallRetval := 0
  savedUserRip := 0
  results := []
  forks := []

theorem init_threeThreads : Init threeThreads := by
  refine ⟨rfl, ?_, rfl, rfl⟩
  intro t ht
  exact .inr (.inl (if_neg ht))

/-- Thread 1 waits in its call. Meanwhile the kernel thread is preempted, and thread 2 forks
and waits in a second call. Each of them gets its own result, and the fork its own address. -/
theorem results_own_wait : ∃ s, Reachable Init (Next fun t => t = 0) s ∧
    s.results = [(7, 7), (5, 5)] ∧ s.forks = [(0x400020, 0x400020)] ∧ s.Own := by
  have h₀ : Reachable Init (Next fun t => t = 0) threeThreads := .init init_threeThreads
  have h₁ := h₀.step (@Next.timer _ _ _ 1 rfl rfl)
  have h₂ := h₁.step (.enter 0x400010 (by decide) rfl)
  have h₃ := h₂.step (@Next.wait _ _ _ 0 trivial rfl)
  have h₄ := h₃.step (@Next.timer _ _ _ 2 rfl rfl)
  have h₅ := h₄.step (.enter 0x400020 (by decide) rfl)
  have h₆ := (h₅.step (.fork 7 rfl)).step (.sysret rfl)
  have h₇ := h₆.step (.enter 0x400030 (by decide) rfl)
  have h₈ := h₇.step (@Next.wait _ _ _ 1 trivial rfl)
  have h₁₀ := (h₈.step (.store 5 trivial)).step (.sysret rfl)
  exact ⟨_, h₁₀, rfl, rfl, results_own _ h₁₀⟩

end Retvals

end Orchid
