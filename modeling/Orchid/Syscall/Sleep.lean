import Orchid.Ipc.Sleepers
import Orchid.Scheduler.RunQueue

/-! # How long a thread sleeps

`do_sleep` and `do_nanosleep` of `kernel/syscalls.c` read `ticks`, add the ticks
to wait and call `sleep_until`. The machine runs them among the calls on ports,
with an interrupt possible between any two locked sections, and counts the ticks
without the wrap of the counter.

* A thread that has entered itself into a port or into `timer_queue` is referred
  to by that node or entry, or by the one `thread_unblock` that its taker still
  has to make, and by nothing else (`Inv.refs`). So nobody but `timer_tick` wakes
  a thread that sleeps.
* It is back in its own code when as many ticks have passed as the deadline lies
  ahead. The deadline is the one asked for unless a sum passed `2^64` on the way.
-/

namespace Orchid

open Machine Ledger Function

/-! ## The deadlines -/

/-- The calls, with their argument. -/
inductive SleepCall where
  | sleep (seconds : Nat)
  | nanosleep (nanoseconds : Nat)
  deriving DecidableEq, Repr

/-- The deadline of `do_sleep`. -/
def doSleep (now seconds : Nat) : Nat := (now + seconds * 100 % 2 ^ 64) % 2 ^ 64

/-- The deadline of `do_nanosleep`. -/
def doNanosleep (now nanoseconds : Nat) : Nat :=
  let ticksToWait := (nanoseconds + 9999999) % 2 ^ 64 / 10000000
  (now + ticksToWait) % 2 ^ 64

namespace SleepCall

variable {c : SleepCall} {now elapsed : Nat}

def argument : SleepCall → Nat
  | .sleep seconds => seconds
  | .nanosleep nanoseconds => nanoseconds

/-- What `sleep_until` is called with. -/
def deadline (now : Nat) : SleepCall → Nat
  | .sleep seconds => doSleep now seconds
  | .nanosleep nanoseconds => doNanosleep now nanoseconds

/-- So many ticks of 10 ms are as long as asked. -/
def Slept (elapsed : Nat) : SleepCall → Prop
  | .sleep seconds => 100 * seconds ≤ elapsed
  | .nanosleep nanoseconds => nanoseconds ≤ elapsed * 10000000

/-- No sum on the way to the deadline passes `2^64`. -/
def Fits (now : Nat) : SleepCall → Prop
  | .sleep seconds => now + 100 * seconds < 2 ^ 64
  | .nanosleep nanoseconds => nanoseconds + 9999999 < 2 ^ 64 ∧
      now + (nanoseconds + 9999999) / 10000000 < 2 ^ 64

/-- The ticks asked for. -/
def need : SleepCall → Nat
  | .sleep seconds => 100 * seconds
  | .nanosleep nanoseconds => (nanoseconds + 9999999) / 10000000

theorem slept_iff : c.Slept elapsed ↔ c.need ≤ elapsed := by
  cases c with
  | sleep seconds => exact Iff.rfl
  | nanosleep nanoseconds =>
    show nanoseconds ≤ elapsed * 10000000 ↔ (nanoseconds + 9999999) / 10000000 ≤ elapsed
    omega

theorem deadline_lt : c.deadline now < 2 ^ 64 := by
  cases c with
  | sleep seconds => exact Nat.mod_lt _ (by decide)
  | nanosleep nanoseconds => exact Nat.mod_lt _ (by decide)

theorem Fits.deadline (h : c.Fits now) : c.deadline now = now + c.need := by
  cases c with
  | sleep seconds =>
    simp only [Fits] at h
    simp only [SleepCall.deadline, doSleep, need]
    omega
  | nanosleep nanoseconds =>
    simp only [Fits] at h
    simp only [SleepCall.deadline, doNanosleep, need]
    omega

/-- Where a sum wraps the deadline comes too early. -/
theorem deadline_early (h : ¬ c.Fits now) (hnow : now < 2 ^ 64) (harg : c.argument < 2 ^ 64) :
    c.deadline now < now + c.need ∧ 0 < c.need := by
  cases c with
  | sleep seconds =>
    simp only [Fits] at h
    simp only [SleepCall.deadline, doSleep, need]
    omega
  | nanosleep nanoseconds =>
    simp only [Fits] at h
    simp only [argument] at harg
    simp only [SleepCall.deadline, doNanosleep, need]
    omega

end SleepCall

/-! ## The machine -/

/-- Where a thread stands in a call, as far as `Pc` does not say it. -/
inductive Stage where
  | own
  /-- The deadline is computed and `sleep_until` comes next. -/
  | due (tickDeadline : Nat)
  /-- A node or an entry is published and `thread_block` comes next. -/
  | published
  deriving DecidableEq, Repr

structure Clocked where
  run : RunState
  ipc : Ipc
  timer : Timer
  stage : Tid → Stage
  /-- The threads that each thread still has to call `thread_unblock` on. -/
  wakes : Tid → List Tid
  /-- The ticks so far, without the wrap of `ticks`. -/
  beats : Nat
  /-- The last call of each thread, with the ticks so far when it read `ticks`. -/
  asked : Tid → Option (Nat × SleepCall)

namespace Clocked

/-- The thread is back in its own code, and has the processor. -/
def Resumed (w : Clocked) (t : Tid) : Prop :=
  w.run.sched.currentThread = some t ∧ w.run.pc t = .own ∧ w.stage t = .own

/-- The thread can make a call; the idle thread makes none. -/
def Calls (w : Clocked) (cur : Tid) : Prop :=
  w.Resumed cur ∧ w.run.sched.idleThreadPtr ≠ some cur ∧ w.wakes cur = []

/-- `cur` has released the lock of a call. -/
def leave (cur : Tid) : Tail → Clocked → Clocked
  | .done, w => w
  | .wake t, w => { w with wakes := update w.wakes cur (t :: w.wakes cur) }
  | .sleep, w => { w with stage := update w.stage cur .published }

/-- One step: a locked section of the current thread, or an interrupt on top of what it is
doing. `kmalloc` gives `sleep_until` its entry. -/
inductive Next : Clocked → Clocked → Prop where
  /-- `ipc_send` or `ipc_recv` by the current thread, or `ipc_kernel_send` by an interrupt. -/
  | port {w : Clocked} {cur : Tid} {call : Nat} {c : PortCall} {tail : Tail} {ipc : Ipc} :
      w.run.sched.currentThread = some cur →
      (∀ t, c.caller = some t → t = cur ∧ w.Calls cur) →
      c.run call w.ipc = (tail, ipc) → Next w (leave cur tail { w with ipc := ipc })
  | readTicks {w : Clocked} {cur : Tid} (c : SleepCall) :
      w.Calls cur →
      Next w { w with
        stage := update w.stage cur (.due (c.deadline w.timer.ticks))
        asked := update w.asked cur (some (w.beats, c)) }
  | sleepUntil {w : Clocked} {cur : Tid} {d : Nat} {tail : Tail} {timer : Timer} :
      w.run.sched.currentThread = some cur → w.stage cur = .due d →
      sleepUntilLocked true cur d w.timer = (tail, timer) →
      Next w (leave cur tail { w with
        timer := timer
        stage := update w.stage cur .own })
  | threadUnblock {w : Clocked} {cur t : Tid} {rest : List Tid} {fuel : Nat} {q : Sched} :
      w.run.sched.currentThread = some cur → w.wakes cur = t :: rest →
      threadUnblock fuel t w.run.sched = some q →
      Next w { w with
        run := { w.run with sched := q }
        wakes := update w.wakes cur rest }
  | threadBlock {w : Clocked} {cur : Tid} :
      w.run.sched.currentThread = some cur → w.stage cur = .published →
      Next w { w with
        run := { w.run with
          sched := threadBlockMark w.run.sched
          pc := update w.run.pc cur .inBlock }
        stage := update w.stage cur .own }
  | threadBlockReturn {w : Clocked} {cur : Tid} {fuel : Nat} {q : Sched} :
      w.run.sched.currentThread = some cur → w.run.pc cur = .inBlock →
      schedule fuel w.run.sched = some q →
      Next w { w with run := { w.run with sched := q, pc := update w.run.pc cur .own } }
  /-- `SYS_yield`, or the end of a timer interrupt. -/
  | schedule {w : Clocked} {fuel : Nat} {q : Sched} :
      schedule fuel w.run.sched = some q → Next w { w with run := { w.run with sched := q } }
  | timerTick {w : Clocked} {fuel : Nat} {timer : Timer} {q : Sched} :
      timerTick fuel w.timer w.run.sched = some (timer, q) →
      Next w { w with
        run := { w.run with sched := q }
        timer := timer
        beats := w.beats + 1 }
  | threadCreate {w : Clocked} {cur t : Tid} (stack cr3 : Nat) (proc : Option ProcPtr) :
      w.Resumed cur → t ∉ w.run.threads →
      Next w { w with run := { w.run with
        sched := threadCreate t stack cr3 proc w.run.sched
        threads := insert t w.run.threads
        pc := update w.run.pc t .own } }
  | threadCreateUser {w : Clocked} {cur t : Tid} (stack cr3 : Nat) (proc : Option ProcPtr) :
      w.Resumed cur → t ∉ w.run.threads →
      Next w { w with run := { w.run with
        sched := threadCreateUser t stack cr3 proc w.run.sched
        threads := insert t w.run.threads
        pc := update w.run.pc t .own } }
  | threadExit {w : Clocked} {cur : Tid} :
      w.Calls cur →
      Next w { w with run := { w.run with
        sched := threadExitMark w.run.sched
        exited := insert cur w.run.exited
        pc := update w.run.pc cur .inExit } }
  | threadExitReturn {w : Clocked} {cur : Tid} {fuel : Nat} {q : Sched} :
      w.run.sched.currentThread = some cur → w.run.pc cur = .inExit →
      schedule fuel w.run.sched = some q → Next w { w with run := { w.run with sched := q } }

/-- The kernel has booted, and no thread but idle has been made. -/
def Init : StatePred Clocked := fun w =>
  RunState.Init w.run ∧ (∀ p, w.ipc.ports p = ⟨[], []⟩) ∧ w.timer = ⟨0, []⟩ ∧
    (∀ t, w.stage t = .own) ∧ (∀ t, w.wakes t = []) ∧ w.beats = 0 ∧ ∀ t, w.asked t = none

/-! ## Who refers to a waiting thread -/

variable {w w' : Clocked} {idle cur t : Tid}

/-- The threads of the nodes in the ports and of the entries of the queue. -/
def seats (w : Clocked) : List Tid :=
  gather maxPorts w.ipc.waitersAt ++ w.timer.queue.map (·.thread)

/-- The thread has published a node or an entry, and has not been woken since. -/
def Waits (w : Clocked) (t : Tid) : Prop :=
  t ∈ w.run.threads ∧ (w.stage t = .published ∨ w.run.sched.state t = .blocked)

structure Inv (w : Clocked) (idle : Tid) : Prop where
  run : ∃ cur l, RunState.Inv w.run idle cur l
  blank : w.ipc.Blank
  ticks : w.timer.ticks = w.beats % 2 ^ 64
  /-- A thread in the middle of a call is one that could make it. -/
  stage : ∀ t, w.stage t ≠ .own → t ∈ w.run.threads ∧ t ≠ idle ∧ w.run.pc t = .own
  awake : ∀ t d, w.stage t = .due d → w.run.sched.state t ≠ .blocked
  /-- A node, an entry or a `thread_unblock` to come is the only one of its thread, and the
  thread waits. -/
  refs : Single w.Waits w.seats w.wakes

/-- The thread runs its code and waits for nothing. -/
structure Active (w : Clocked) (idle t : Tid) : Prop where
  made : t ∈ w.run.threads
  not_idle : t ≠ idle
  pc : w.run.pc t = .own
  unpublished : w.stage t ≠ .published
  awake : w.run.sched.state t ≠ .blocked

theorem Active.not_waits (h : w.Active idle t) : ¬ w.Waits t :=
  fun hwaits => hwaits.2.elim h.unpublished h.awake

/-- Only the waiting of the thread itself depends on where it stands. -/
theorem waits_restage {stage : Stage} {ipc : Ipc} {timer : Timer}
    {asked : Tid → Option (Nat × SleepCall)} {z : Tid} (hz : z ≠ t) (h : w.Waits z) :
    Waits { w with
      ipc := ipc, timer := timer, stage := update w.stage t stage, asked := asked } z := by
  refine ⟨h.1, h.2.imp_left fun hstage => ?_⟩
  show update w.stage t stage z = .published
  rw [update_of_ne hz, hstage]

theorem Inv.resumed_not_waits (h : w.Inv idle) (ht : w.Resumed t) : ¬ w.Waits t := by
  rcases ht with ⟨hcur, hpc, hstage⟩
  rcases h.run with ⟨c, l, hrun⟩
  rintro ⟨-, hpublished | hblocked⟩
  · rw [hstage] at hpublished
    cases hpublished
  · have htc : t = c := Option.some.inj (hcur.symm.trans hrun.wellQueued.current)
    by_cases hidle : t = idle
    · -- the idle thread is never blocked
      rw [hidle] at hblocked
      rcases hrun.wellQueued.idle_awake with hi | hi <;> rw [hi] at hblocked <;> cases hblocked
    · rw [htc] at hblocked hidle hpc
      rw [hrun.own_running hidle hpc] at hblocked
      cases hblocked

theorem Inv.active_of_calls (h : w.Inv idle) (hcalls : w.Calls cur) : w.Active idle cur := by
  rcases hcalls with ⟨hresumed, hidle, -⟩
  rcases h.run with ⟨c, l, hrun⟩
  rcases hrun.own_current hresumed.1 hidle hresumed.2.1 with ⟨rfl, hne, hstate⟩
  constructor
  · exact hrun.wellQueued.cur_mem
  · exact hne
  · exact hresumed.2.1
  · rw [hresumed.2.2]
    nofun
  · rw [hstate]
    nofun

theorem Inv.active_of_due {d : Nat} (h : w.Inv idle) (hdue : w.stage t = .due d) :
    w.Active idle t := by
  have hstage : w.stage t ≠ .own := by
    rw [hdue]
    nofun
  constructor
  · exact (h.stage t hstage).1
  · exact (h.stage t hstage).2.1
  · exact (h.stage t hstage).2.2
  · rw [hdue]
    nofun
  · exact h.awake t d hdue

/-- A thread that waits for nothing goes on in its call. -/
theorem Inv.restage {stage : Stage} (asked : Tid → Option (Nat × SleepCall)) (h : w.Inv idle)
    (hcur : w.Active idle cur) :
    Inv { w with stage := update w.stage cur stage, asked := asked } idle where
  run := h.run
  blank := h.blank
  ticks := h.ticks
  stage := by
    intro z hz
    by_cases hzc : z = cur
    · rw [hzc]
      exact ⟨hcur.made, hcur.not_idle, hcur.pc⟩
    · simp only [update_of_ne hzc] at hz
      exact h.stage z hz
  awake := by
    intro z d hz
    by_cases hzc : z = cur
    · rw [hzc]
      exact hcur.awake
    · simp only [update_of_ne hzc] at hz
      exact h.awake z d hz
  refs := h.refs.mono fun z hz => waits_restage (fun hzc => hcur.not_waits (hzc ▸ hz)) hz

/-- It publishes a node or an entry. -/
theorem Inv.publish {ipc : Ipc} {timer : Timer} (h : w.Inv idle) (hcur : w.Active idle cur)
    (hblank : ipc.Blank) (hticks : timer.ticks = w.timer.ticks)
    (hperm : (gather maxPorts ipc.waitersAt ++ timer.queue.map (·.thread)).Perm (cur :: w.seats)) :
    Inv { w with
      ipc := ipc, timer := timer, stage := update w.stage cur .published } idle where
  run := h.run
  blank := hblank
  ticks := hticks.trans h.ticks
  stage := (h.restage w.asked hcur).stage
  awake := (h.restage w.asked hcur).awake
  refs := by
    apply h.refs.add hcur.not_waits ⟨hcur.made, Or.inl (update_self ..)⟩ _ hperm
    exact fun z hz => waits_restage (fun hzc => hcur.not_waits (hzc ▸ hz)) hz

theorem Inv.port {call : Nat} {c : PortCall} {tail : Tail} {ipc : Ipc} (h : w.Inv idle)
    (hcaller : ∀ t, c.caller = some t → t = cur ∧ w.Calls cur)
    (hrun : c.run call w.ipc = (tail, ipc)) :
    (leave cur tail { w with ipc := ipc }).Inv idle := by
  have hblank : ipc.Blank := by
    have hafter : (c.run call w.ipc).2.Blank := (c.run_shift h.blank).1
    rwa [hrun] at hafter
  have hwaiters := c.run_waiters call h.blank
  rw [hrun] at hwaiters
  rcases hwaiters with ⟨rfl, hsame⟩ | ⟨t, rfl, hperm⟩ | ⟨t, ht, rfl, hperm⟩
  · refine ⟨h.run, hblank, h.ticks, h.stage, h.awake, ?_⟩
    have hseats : seats (leave cur .done { w with ipc := ipc }) = w.seats := by
      simp only [leave, seats, hsame]
    rw [hseats]
    exact h.refs
  · -- the node taken is the reference that the caller now has
    exact ⟨h.run, hblank, h.ticks, h.stage, h.awake, h.refs.take (hperm.append_right _)⟩
  · rcases hcaller t ht with ⟨rfl, hcalls⟩
    exact h.publish (h.active_of_calls hcalls) hblank rfl (hperm.append_right _)

theorem Inv.sleepUntil {d : Nat} {tail : Tail} {timer : Timer} (h : w.Inv idle)
    (hdue : w.stage cur = .due d) (hlocked : sleepUntilLocked true cur d w.timer = (tail, timer)) :
    (leave cur tail { w with
      timer := timer, stage := update w.stage cur .own }).Inv idle := by
  have hactive := h.active_of_due hdue
  rcases sleepUntilLocked_cases hlocked with ⟨-, rfl, rfl⟩ | ⟨-, rfl, rfl⟩
  · exact h.restage w.asked hactive
  · simp only [leave, update_idem]
    refine h.publish hactive h.blank rfl ?_
    have hperm := (insertEntry_perm ⟨cur, d⟩ w.timer.queue).map (·.thread)
    exact (hperm.append_left _).trans List.perm_middle

/-- The scheduler goes on, and blocks or unblocks nobody. -/
theorem Inv.move {r : RunState} {c : Tid} {l : List Tid} (h : w.Inv idle)
    (hrun : RunState.Inv r idle c l) (hpc : ∀ t, w.stage t ≠ .own → r.pc t = .own)
    (hthreads : w.run.threads ⊆ r.threads)
    (hblocked : ∀ t ∈ w.run.threads, r.sched.state t = .blocked ↔ w.run.sched.state t = .blocked) :
    Inv { w with run := r } idle where
  run := ⟨c, l, hrun⟩
  blank := h.blank
  ticks := h.ticks
  stage := by
    intro t ht
    rcases h.stage t ht with ⟨hmade, hidle, -⟩
    exact ⟨hthreads hmade, hidle, hpc t ht⟩
  awake := by
    intro t d ht hb
    have hactive := h.active_of_due ht
    exact hactive.awake ((hblocked t hactive.made).mp hb)
  refs := h.refs.mono fun t ht => ⟨hthreads ht.1, ht.2.imp_right (hblocked t ht.1).mpr⟩

theorem Inv.schedule {fuel : Nat} {q : Sched} (h : w.Inv idle) (pc : Tid → Pc)
    (hpc : ∀ t, w.stage t ≠ .own → pc t = .own)
    (hret : Orchid.schedule fuel w.run.sched = some q) :
    Inv { w with run := { w.run with sched := q, pc := pc } } idle := by
  rcases h.run with ⟨c, l, hrun⟩
  apply h.move (RunState.inv_schedule hrun hret pc) hpc (fun _ ht => ht)
  exact fun t _ => (steady_schedule hrun.wellQueued hret).2 t

theorem Inv.create {words stack cr3 : Nat} {proc : Option ProcPtr} (h : w.Inv idle)
    (ht : t ∉ w.run.threads) :
    Inv { w with run := { w.run with
      sched := initThread words t stack cr3 proc w.run.sched
      threads := insert t w.run.threads
      pc := update w.run.pc t .own } } idle := by
  rcases h.run with ⟨c, l, hrun⟩
  apply h.move (RunState.inv_initThread hrun ht)
  · intro z hz
    show update w.run.pc t .own z = .own
    rw [update_apply, (h.stage z hz).2.2, ite_self]
  · exact fun _ => Or.inr
  · intro z hz
    have hzt : z ≠ t := fun heq => ht (heq ▸ hz)
    simp only [(initThread_spec words t stack cr3 proc w.run.sched).1, update_of_ne hzt]

theorem Inv.exit (h : w.Inv idle) (hcalls : w.Calls cur) :
    Inv { w with run := { w.run with
      sched := threadExitMark w.run.sched
      exited := insert cur w.run.exited
      pc := update w.run.pc cur .inExit } } idle := by
  have hactive := h.active_of_calls hcalls
  rcases hcalls with ⟨⟨hcur, hpc, hstage⟩, hidle, -⟩
  rcases h.run with ⟨c, l, hrun⟩
  rcases RunState.inv_step (.threadExit hcur hidle hpc) hrun with ⟨c', l', hrun'⟩
  apply h.move hrun'
  · intro z hz
    have hzc : z ≠ cur := fun heq => hz (heq ▸ hstage)
    exact (update_of_ne hzc ..).trans (h.stage z hz).2.2
  · exact fun _ ht => ht
  · intro z _
    by_cases hzc : z = cur
    · simp [threadExitMark, hcur, hzc, hactive.awake]
    · simp [threadExitMark, hcur, hzc]

/-- The thread that published something is blocked. -/
theorem Inv.block (h : w.Inv idle) (hcur : w.run.sched.currentThread = some cur)
    (hpublished : w.stage cur = .published) :
    Inv { w with
      run := { w.run with
        sched := threadBlockMark w.run.sched
        pc := update w.run.pc cur .inBlock }
      stage := update w.stage cur .own } idle := by
  have hmid := h.stage cur (by simp [hpublished])
  rcases h.run with ⟨c, l, hrun⟩
  have hidle : w.run.sched.idleThreadPtr ≠ some cur := by
    rw [hrun.wellQueued.idlePtr]
    exact fun heq => hmid.2.1 (Option.some.inj heq).symm
  have hstate : (threadBlockMark w.run.sched).state =
      update w.run.sched.state cur .blocked := by
    simp only [threadBlockMark, hcur, Sched.setState_state]
  have hothers : ∀ z, update w.stage cur .own z ≠ .own → z ≠ cur ∧ w.stage z ≠ .own := by
    intro z hz
    have hzc : z ≠ cur := fun heq => hz (by rw [heq, update_self])
    rw [update_of_ne hzc] at hz
    exact ⟨hzc, hz⟩
  refine ⟨RunState.inv_step (.threadBlock hcur hidle hmid.2.2) hrun, h.blank, h.ticks, ?_, ?_, ?_⟩
  · intro z hz
    rcases hothers z hz with ⟨hzc, hz⟩
    rcases h.stage z hz with ⟨hmade, hne, hpc⟩
    exact ⟨hmade, hne, (update_of_ne hzc ..).trans hpc⟩
  · intro z d hz
    simp only at hz
    have hzc : z ≠ cur := (hothers z (by simp [hz])).1
    rw [update_of_ne hzc] at hz
    simp only [hstate, update_of_ne hzc]
    exact h.awake z d hz
  · apply h.refs.mono
    rintro z ⟨hmade, hz⟩
    refine ⟨hmade, ?_⟩
    simp only [hstate]
    by_cases hzc : z = cur
    · exact Or.inr (by rw [hzc, update_self])
    · rw [update_of_ne hzc, update_of_ne hzc]
      exact hz

theorem Inv.unblock {fuel : Nat} {q : Sched} {rest : List Tid} (h : w.Inv idle)
    (hwakes : w.wakes cur = t :: rest) (hret : threadUnblock fuel t w.run.sched = some q) :
    Inv { w with
      run := { w.run with sched := q }
      wakes := update w.wakes cur rest } idle := by
  have ht : t ∈ w.run.threads :=
    (h.refs.handed cur t (hwakes ▸ List.mem_cons_self)).1.1
  rcases h.run with ⟨c, l, hrun⟩
  refine ⟨RunState.inv_step (.threadUnblock ht hret) hrun, h.blank, h.ticks, h.stage, ?_, ?_⟩
  · intro z d hz hb
    exact h.awake z d hz (threadUnblock_blocked hret hb).1
  · apply h.refs.drop hwakes
    rintro z hzt ⟨hmade, hz⟩
    refine ⟨hmade, hz.imp_right fun hb => ?_⟩
    show q.state z = .blocked
    rw [(threadUnblock_state hret).2 z hzt, hb]

/-- The loop of `timer_tick` as steps of the scheduler. -/
theorem expire_run {r : RunState} {s s' : Sched} {q q' : List TimerEntry} {fuel ticks : Nat}
    (hrun : ∃ c l, RunState.Inv { r with sched := s } idle c l)
    (hq : ∀ e ∈ q, e.thread ∈ r.threads) (h : expire fuel ticks q s = some (q', s')) :
    ∃ c l, RunState.Inv { r with sched := s' } idle c l := by
  induction q generalizing s q' with
  | nil =>
    cases h
    exact hrun
  | cons e q ih =>
    have hrest : ∀ x ∈ q, x.thread ∈ r.threads := fun x hx => hq x (List.mem_cons_of_mem e hx)
    rcases expire_cons h with ⟨-, s₁, hunblock, hexpire⟩ | ⟨-, q₁, -, hexpire⟩
    · rcases hrun with ⟨c, l, hrun⟩
      have hnext : RunState.Next { r with sched := s } { r with sched := s₁ } :=
        .threadUnblock (hq e List.mem_cons_self) hunblock
      exact ih (RunState.inv_step hnext hrun) hrest hexpire
    · exact ih hrun hrest hexpire

theorem Inv.entry_waits {e : TimerEntry} (h : w.Inv idle) (he : e ∈ w.timer.queue) :
    w.Waits e.thread :=
  h.refs.placed e.thread (List.mem_append_right _ (List.mem_map_of_mem he))

/-- A tick takes the entries that are due, which are the only references to their threads. -/
theorem Inv.tick {fuel : Nat} {timer : Timer} {q : Sched} (h : w.Inv idle)
    (htick : timerTick fuel w.timer w.run.sched = some (timer, q)) :
    Inv { w with
      run := { w.run with sched := q }
      timer := timer
      beats := w.beats + 1 } idle := by
  rcases timerTick_cases htick with ⟨hticks, hexpire⟩
  have hqueue : timer.queue = w.timer.queue.filter (timer.ticks < ·.deadline) := expire_queue hexpire
  have hsub : (gather maxPorts w.ipc.waitersAt ++ timer.queue.map (·.thread)).Sublist w.seats := by
    rw [hqueue]
    exact (List.Sublist.refl _).append (List.filter_sublist.map _)
  refine ⟨?_, h.blank, ?_, h.stage, ?_, ?_⟩
  · exact expire_run h.run (fun e he => (h.entry_waits he).1) hexpire
  · show timer.ticks = (w.beats + 1) % 2 ^ 64
    rw [hticks, h.ticks, Nat.mod_add_mod]
  · intro t d ht hb
    exact h.awake t d ht ((expire_spec hexpire).2 t hb).1
  · apply h.refs.remove hsub
    rintro t ⟨hmade, ht⟩ hstays
    refine ⟨hmade, ht.imp_right fun hb => ?_⟩
    -- a thread with an entry that is due would have a second reference
    have hnotdue : ∀ e ∈ w.timer.queue, e.deadline ≤ timer.ticks → e.thread ≠ t := by
      rintro e he hdue rfl
      have hmem : e.thread ∈ gather maxPorts w.ipc.waitersAt ++ timer.queue.map (·.thread) :=
        hstays (List.mem_append_right _ (List.mem_map_of_mem he))
      have hnodup := List.nodup_append.mp h.refs.places_nodup
      rcases List.mem_append.mp hmem with hport | hentry
      · exact hnodup.2.2 _ hport _ (List.mem_map_of_mem he) rfl
      · rcases List.mem_map.mp hentry with ⟨e', he', heq⟩
        rw [hqueue, List.mem_filter] at he'
        have hsame : e' = e := List.inj_on_of_nodup_map hnodup.2.1 he'.1 he heq
        rw [hsame] at he'
        exact absurd hdue (Nat.not_le_of_lt (of_decide_eq_true he'.2))
    show q.state t = .blocked
    rw [expire_state hexpire hnotdue, hb]

theorem Inv.step (h : w.Inv idle) (hnext : Next w w') : w'.Inv idle := by
  cases hnext with
  | port _ hcaller hrun => exact h.port hcaller hrun
  | readTicks c hcalls => exact h.restage _ (h.active_of_calls hcalls)
  | sleepUntil _ hdue hlocked => exact h.sleepUntil hdue hlocked
  | threadUnblock _ hwakes hret => exact h.unblock hwakes hret
  | threadBlock hcur hpublished => exact h.block hcur hpublished
  | @threadBlockReturn cur _ _ _ _ hret =>
    refine h.schedule _ (fun t ht => ?_) hret
    rw [update_apply, (h.stage t ht).2.2, ite_self]
  | schedule hret => exact h.schedule w.run.pc (fun t ht => (h.stage t ht).2.2) hret
  | timerTick htick => exact h.tick htick
  | threadCreate stack cr3 proc _ ht => exact h.create ht
  | threadCreateUser stack cr3 proc _ ht => exact h.create ht
  | threadExit hcalls => exact h.exit hcalls
  | threadExitReturn _ _ hret => exact h.schedule w.run.pc (fun t ht => (h.stage t ht).2.2) hret

theorem Init.inv (h : Init w) : ∃ idle, w.Inv idle := by
  rcases h with ⟨hrun, hports, htimer, hstage, hwakes, hbeats, -⟩
  rcases RunState.inv_init hrun with ⟨idle, cur, l, hinv⟩
  have hseats : w.seats = [] := by
    simp only [seats, Ipc.waiters_nil hports, htimer, List.map_nil, List.append_nil]
  refine ⟨idle, ⟨cur, l, hinv⟩, fun _ => hports, ?_, ?_, ?_, ?_⟩
  · rw [htimer, hbeats, Nat.zero_mod]
  · exact fun t ht => absurd (hstage t) ht
  · intro t d ht
    rw [hstage t] at ht
    cases ht
  · rw [hseats]
    refine ⟨List.nodup_nil, nofun, ?_, ?_, ?_⟩
    · intro t z hz
      rw [hwakes t] at hz
      cases hz
    · intro t
      rw [hwakes t]
      exact List.nodup_nil
    · intro t t' z hz
      rw [hwakes t] at hz
      cases hz

/-! ## When a sleeper is back -/

/-- The deadline of a call made after `b` ticks. -/
def deadlineOf (b : Nat) (c : SleepCall) : Nat := c.deadline (b % 2 ^ 64)

/-- A call that sleeps is on its way, or its thread has an entry, or as many ticks have
passed as the deadline was ahead. -/
def Timely (w : Clocked) : Prop :=
  ∀ t b c, w.asked t = some (b, c) → b ≤ w.beats ∧
    (w.stage t = .due (deadlineOf b c) ∨ ⟨t, deadlineOf b c⟩ ∈ w.timer.queue ∨
      b + (deadlineOf b c - b % 2 ^ 64) ≤ w.beats)

/-- A counter that has come to `d` has counted up to it, in this round or in a later one. -/
theorem elapsed_of_le {b beats d : Nat} (hb : b ≤ beats) (hd : d ≤ beats % 2 ^ 64) :
    b + (d - b % 2 ^ 64) ≤ beats := by
  omega

theorem Timely.keep (h : w.Timely) (hasked : w'.asked = w.asked) (hbeats : w'.beats = w.beats)
    (hstage : ∀ t d, w.stage t = .due d → w'.stage t = .due d)
    (hqueue : w'.timer = w.timer) : w'.Timely := by
  intro t b c ht
  rw [hasked] at ht
  rw [hbeats, hqueue]
  exact (h t b c ht).imp_right (Or.imp_left (hstage t _))

theorem Timely.port {call : Nat} {c : PortCall} {tail : Tail} {ipc : Ipc} (h : w.Timely) (hinv : w.Inv idle)
    (hcaller : ∀ t, c.caller = some t → t = cur ∧ w.Calls cur)
    (hrun : c.run call w.ipc = (tail, ipc)) :
    (leave cur tail { w with ipc := ipc }).Timely := by
  have hwaiters := c.run_waiters call hinv.blank
  rw [hrun] at hwaiters
  rcases hwaiters with ⟨rfl, -⟩ | ⟨t, rfl, -⟩ | ⟨t, ht, rfl, -⟩
  · exact h.keep rfl rfl (fun _ _ hstage => hstage) rfl
  · exact h.keep rfl rfl (fun _ _ hstage => hstage) rfl
  · rcases hcaller t ht with ⟨rfl, ⟨-, -, hown⟩, -⟩
    refine h.keep rfl rfl (fun z d hstage => ?_) rfl
    have hzt : z ≠ t := by
      rintro rfl
      rw [hown] at hstage
      cases hstage
    exact (update_of_ne hzt ..).trans hstage

theorem Timely.readTicks (c : SleepCall) (h : w.Timely) (hinv : w.Inv idle) :
    Timely { w with
      stage := update w.stage cur (.due (c.deadline w.timer.ticks))
      asked := update w.asked cur (some (w.beats, c)) } := by
  intro t b c' ht
  by_cases htc : t = cur
  · subst htc
    simp only [update_self] at ht ⊢
    cases ht
    exact ⟨Nat.le_refl _, Or.inl (by rw [hinv.ticks, deadlineOf])⟩
  · simp only [update_of_ne htc] at ht ⊢
    exact h t b c' ht

theorem Timely.sleepUntil {d : Nat} {tail : Tail} {timer : Timer} (h : w.Timely)
    (hinv : w.Inv idle) (hdue : w.stage cur = .due d)
    (hlocked : sleepUntilLocked true cur d w.timer = (tail, timer)) :
    (leave cur tail { w with
      timer := timer, stage := update w.stage cur .own }).Timely := by
  rcases sleepUntilLocked_cases hlocked with ⟨hpassed, rfl, rfl⟩ | ⟨-, rfl, rfl⟩
  · intro t b c ht
    rcases h t b c ht with ⟨hb, hstage | hlater⟩
    · refine ⟨hb, ?_⟩
      by_cases htc : t = cur
      · -- `sleep_until` returns at once
        rw [htc, hdue] at hstage
        cases hstage
        rw [hinv.ticks] at hpassed
        exact Or.inr (Or.inr (elapsed_of_le hb hpassed))
      · exact Or.inl ((update_of_ne htc ..).trans hstage)
    · exact ⟨hb, Or.inr hlater⟩
  · intro t b c ht
    rcases h t b c ht with ⟨hb, hstage | hmem | hpassed⟩
    · refine ⟨hb, ?_⟩
      by_cases htc : t = cur
      · rw [htc, hdue] at hstage
        cases hstage
        rw [htc]
        exact Or.inr (Or.inl (mem_insertEntry.mpr (Or.inl rfl)))
      · simp only [leave, update_idem]
        exact Or.inl ((update_of_ne htc ..).trans hstage)
    · exact ⟨hb, Or.inr (Or.inl (mem_insertEntry.mpr (Or.inr hmem)))⟩
    · exact ⟨hb, Or.inr (Or.inr hpassed)⟩

theorem Timely.tick {fuel : Nat} {timer : Timer} {q : Sched} (h : w.Timely) (hinv : w.Inv idle)
    (htick : timerTick fuel w.timer w.run.sched = some (timer, q)) :
    Timely { w with
      run := { w.run with sched := q }
      timer := timer
      beats := w.beats + 1 } := by
  have hticks : timer.ticks = (w.beats + 1) % 2 ^ 64 := (hinv.tick htick).ticks
  rcases timerTick_cases htick with ⟨-, hexpire⟩
  intro t b c ht
  rcases h t b c ht with ⟨hb, hstage | hmem | hpassed⟩
  · exact ⟨Nat.le_succ_of_le hb, Or.inl hstage⟩
  · refine ⟨Nat.le_succ_of_le hb, Or.inr ?_⟩
    rcases (expire_spec hexpire).1 _ hmem with hkept | hdue
    · exact Or.inl hkept
    · rw [hticks] at hdue
      exact Or.inr (elapsed_of_le (Nat.le_succ_of_le hb) hdue)
  · exact ⟨Nat.le_succ_of_le hb, Or.inr (Or.inr (Nat.le_succ_of_le hpassed))⟩

theorem Timely.step (h : w.Timely) (hinv : w.Inv idle) (hnext : Next w w') : w'.Timely := by
  cases hnext with
  | port _ hcaller hrun => exact h.port hinv hcaller hrun
  | readTicks c _ => exact h.readTicks c hinv
  | sleepUntil _ hdue hlocked => exact h.sleepUntil hinv hdue hlocked
  | timerTick htick => exact h.tick hinv htick
  | @threadBlock cur _ hpublished =>
    refine h.keep rfl rfl (fun z d hstage => ?_) rfl
    have hzc : z ≠ cur := by
      rintro rfl
      rw [hpublished] at hstage
      cases hstage
    exact (update_of_ne hzc ..).trans hstage
  | _ => exact h.keep rfl rfl (fun _ _ hstage => hstage) rfl

theorem reachable_inv (h : Reachable Init Next w) : (∃ idle, w.Inv idle) ∧ w.Timely := by
  induction h with
  | init hinit =>
    refine ⟨hinit.inv, fun t b c ht => ?_⟩
    rw [hinit.2.2.2.2.2.2 t] at ht
    cases ht
  | step _ hnext ih =>
    rcases ih with ⟨⟨idle, hinv⟩, htimely⟩
    exact ⟨⟨idle, hinv.step hnext⟩, htimely.step hinv hnext⟩

/-- A thread that is back from its call has let as many ticks pass as the deadline was ahead. -/
theorem resumed_elapsed {b : Nat} {c : SleepCall} (h : Reachable Init Next w)
    (hasked : w.asked t = some (b, c)) (hresumed : w.Resumed t) :
    deadlineOf b c - b % 2 ^ 64 ≤ w.beats - b := by
  rcases reachable_inv h with ⟨⟨idle, hinv⟩, htimely⟩
  rcases htimely t b c hasked with ⟨hb, hstage | hmem | hpassed⟩
  · rw [hresumed.2.2] at hstage
    cases hstage
  · -- with an entry it would still wait
    exact absurd (hinv.entry_waits hmem) (hinv.resumed_not_waits hresumed)
  · exact Nat.le_sub_of_add_le' hpassed

/-! ## A thread that sleeps while nothing else happens -/

/-- Ticks before the first deadline. -/
theorem reachable_ticks (n : Nat) (h : Reachable Init Next w) (hwrap : w.timer.ticks + n < 2 ^ 64)
    (hahead : ∀ e ∈ w.timer.queue, w.timer.ticks + n < e.deadline) :
    Reachable Init Next
      { w with timer := ⟨w.timer.ticks + n, w.timer.queue⟩, beats := w.beats + n } := by
  induction n with
  | zero => exact h
  | succ n ih =>
    have hbefore := ih (by omega) fun e he => Nat.lt_of_succ_lt (hahead e he)
    have htick : timerTick 0 ⟨w.timer.ticks + n, w.timer.queue⟩ w.run.sched =
        some (⟨w.timer.ticks + n + 1, w.timer.queue⟩, w.run.sched) := by
      simp only [timerTick, Nat.mod_eq_of_lt hwrap, expire_of_ahead hahead, Nat.add_assoc,
        Option.map_some]
    exact hbefore.step (.timerTick htick)

/-- Idle is thread 1, and thread 2 has been made and dispatched. -/
def sleeperSched : Sched :=
  let sched := threadCreate 2 0x2000 0 none (schedulerInit 1 0x1000 0 RunState.blankSched)
  (Orchid.schedule 1 sched).getD sched

/-- So many ticks later. -/
def sleeper (now : Nat) : Clocked where
  run :=
    { sched := sleeperSched
      threads := insert 2 {1}
      exited := ∅
      pc := update (fun _ => .own) 2 .own }
  ipc := Rendezvous.quiet.ipc
  timer := ⟨now, []⟩
  stage := fun _ => .own
  wakes := fun _ => []
  beats := now
  asked := fun _ => none

/-- The kernel after `scheduler_init`. -/
def booted : Clocked :=
  { sleeper 0 with run :=
    { sched := schedulerInit 1 0x1000 0 RunState.blankSched
      threads := {1}
      exited := ∅
      pc := fun _ => .own } }

theorem init_booted : Init booted :=
  ⟨⟨RunState.blankSched, 1, 0x1000, 0, rfl, rfl, rfl, rfl, rfl⟩, fun _ => rfl, rfl,
    fun _ => rfl, fun _ => rfl, rfl, fun _ => rfl⟩

/-- Thread 2 is made, and dispatched. -/
theorem booted_steps : ∃ w, Next booted w ∧ w.ipc = booted.ipc ∧ Next w (sleeper 0) :=
  ⟨_, @Next.threadCreate booted 1 2 0x2000 0 none ⟨rfl, rfl, rfl⟩ (by simp [booted]), rfl,
    @Next.schedule _ 1 _ rfl⟩

theorem sleeper_reachable {now : Nat} (hnow : now < 2 ^ 64) :
    Reachable Init Next (sleeper now) := by
  rcases booted_steps with ⟨w, hmade, -, hdispatched⟩
  have hstart : Reachable Init Next (sleeper 0) :=
    ((Reachable.init init_booted).step hmade).step hdispatched
  have hticks : (sleeper 0).timer.ticks + now = now := Nat.zero_add now
  have hbeats : (sleeper 0).beats + now = now := Nat.zero_add now
  have hlater := reachable_ticks now hstart (hticks.symm ▸ hnow) nofun
  rw [hticks, hbeats] at hlater
  exact hlater

/-- Thread 2 sleeps and idle runs. -/
def asleepSched : Sched := (Orchid.schedule 1 (threadBlockMark sleeperSched)).getD sleeperSched

theorem sleeper_blocks {now : Nat} {c : SleepCall} (hnow : now < 2 ^ 64)
    (hd : now < c.deadline now) :
    ∃ w, Reachable Init Next w ∧ w.asked 2 = some (now, c) ∧ w.run.sched = asleepSched ∧
      w.run.pc 2 = .own ∧ w.stage 2 = .own ∧ w.timer = ⟨now, [⟨2, c.deadline now⟩]⟩ ∧
      w.beats = now := by
  have hcalls : (sleeper now).Calls 2 := ⟨⟨rfl, rfl, rfl⟩, nofun, rfl⟩
  have hlocked : sleepUntilLocked true 2 (c.deadline now) ⟨now, []⟩ =
      (.sleep, ⟨now, [⟨2, c.deadline now⟩]⟩) := if_neg (Nat.not_le_of_lt hd)
  have hread := (sleeper_reachable hnow).step (.readTicks c hcalls)
  have hpublished := hread.step (.sleepUntil rfl rfl hlocked)
  have hblocked := hpublished.step (@Next.threadBlock _ 2 rfl rfl)
  have hasleep := hblocked.step (@Next.threadBlockReturn _ 2 1 _ rfl rfl rfl)
  exact ⟨_, hasleep, rfl, rfl, rfl, rfl, rfl, rfl⟩

/-- Thread 2 is back when its deadline has come, or at once if it had passed. -/
theorem sleeper_resumes {now : Nat} (c : SleepCall) (hnow : now < 2 ^ 64) :
    ∃ w, Reachable Init Next w ∧ w.asked 2 = some (now, c) ∧ w.Resumed 2 ∧
      w.beats = max now (c.deadline now) := by
  by_cases hd : c.deadline now ≤ now
  · have hcalls : (sleeper now).Calls 2 := ⟨⟨rfl, rfl, rfl⟩, nofun, rfl⟩
    have hlocked : sleepUntilLocked true 2 (c.deadline now) ⟨now, []⟩ = (.done, ⟨now, []⟩) :=
      if_pos hd
    have hread := (sleeper_reachable hnow).step (.readTicks c hcalls)
    have hback := hread.step (.sleepUntil rfl rfl hlocked)
    exact ⟨_, hback, rfl, ⟨rfl, rfl, rfl⟩, (Nat.max_eq_left hd).symm⟩
  · rcases sleeper_blocks hnow (Nat.lt_of_not_le hd) with
      ⟨w, hasleep, hasked, hsched, hpc, hstage, htimer, hbeats⟩
    have hdeadline : c.deadline now < 2 ^ 64 := SleepCall.deadline_lt
    have hlast : now + (c.deadline now - now - 1) + 1 = c.deadline now := by omega
    -- the ticks up to the last one before the deadline
    have hticked := reachable_ticks (c.deadline now - now - 1) hasleep
      (by rw [htimer]; dsimp only; omega) (by
        intro e he
        rw [htimer] at he ⊢
        rw [List.mem_singleton.mp he]
        dsimp only
        omega)
    rw [htimer, hbeats] at hticked
    have htick : timerTick 1 ⟨now + (c.deadline now - now - 1), [⟨2, c.deadline now⟩]⟩ w.run.sched =
        (threadUnblock 1 2 asleepSched).map fun q => (⟨c.deadline now, []⟩, q) := by
      simp only [timerTick, hlast, Nat.mod_eq_of_lt hdeadline, expire, Nat.le_refl, if_true, hsched]
      rfl
    have hdue := hticked.step (.timerTick htick)
    have hback := hdue.step (@Next.schedule _ 1 _ rfl)
    refine ⟨_, hback, hasked, ⟨rfl, hpc, hstage⟩, ?_⟩
    rw [Nat.max_eq_right (by omega)]
    exact hlast

/-! ## Sleeping as long as asked -/

/-- A call made when `ticks` was `now` lasts as long as asked in every run, exactly if no
sum on the way to its deadline passes `2^64`. -/
theorem sleeps_enough_iff {now : Nat} {c : SleepCall} (hnow : now < 2 ^ 64)
    (harg : c.argument < 2 ^ 64) :
    (∀ w t b, Reachable Init Next w → w.asked t = some (b, c) → b % 2 ^ 64 = now →
      w.Resumed t → c.Slept (w.beats - b)) ↔ c.Fits now := by
  constructor
  · intro hall
    by_contra hfits
    rcases sleeper_resumes c hnow with ⟨w, hreach, hasked, hresumed, hbeats⟩
    have hslept := hall w 2 now hreach hasked (Nat.mod_eq_of_lt hnow) hresumed
    rw [SleepCall.slept_iff, hbeats] at hslept
    have hearly := SleepCall.deadline_early hfits hnow harg
    omega
  · intro hfits w t b hreach hasked hb hresumed
    have helapsed := resumed_elapsed hreach hasked hresumed
    rw [deadlineOf, hb, hfits.deadline, Nat.add_sub_cancel_left] at helapsed
    exact SleepCall.slept_iff.mpr helapsed

/-- One second from tick 5 on. -/
theorem sleeps_enough_one_second : ∃ w, Reachable Init Next w ∧ w.asked 2 = some (5, .sleep 1) ∧
    w.Resumed 2 ∧ (SleepCall.sleep 1).Slept (w.beats - 5) := by
  have hnow : 5 < 2 ^ 64 := by decide
  rcases sleeper_resumes (.sleep 1) hnow with ⟨w, hreach, hasked, hresumed, -⟩
  have hall := (sleeps_enough_iff hnow (by decide : (SleepCall.sleep 1).argument < 2 ^ 64)).mpr
    (by decide : 5 + 100 * 1 < 2 ^ 64)
  exact ⟨w, hreach, hasked, hresumed, hall w 2 5 hreach hasked (by decide) hresumed⟩

/-- The product of 184467440737095517 seconds wraps to 84 ticks, and the rounding of the
longest time in nanoseconds to none. -/
theorem sleeps_short :
    (∃ w, Reachable Init Next w ∧ w.asked 2 = some (0, .sleep 184467440737095517) ∧
      w.Resumed 2 ∧ w.beats = 84 ∧ ¬ (SleepCall.sleep 184467440737095517).Slept 84) ∧
    ∃ w, Reachable Init Next w ∧ w.asked 2 = some (0, .nanosleep (2 ^ 64 - 1)) ∧
      w.Resumed 2 ∧ w.beats = 0 ∧ ¬ (SleepCall.nanosleep (2 ^ 64 - 1)).Slept 0 := by
  constructor
  · rcases sleeper_resumes (.sleep 184467440737095517) (Nat.two_pow_pos 64) with
      ⟨w, hreach, hasked, hresumed, hbeats⟩
    refine ⟨w, hreach, hasked, hresumed, hbeats, ?_⟩
    rw [SleepCall.slept_iff]
    decide
  · rcases sleeper_resumes (.nanosleep (2 ^ 64 - 1)) (Nat.two_pow_pos 64) with
      ⟨w, hreach, hasked, hresumed, hbeats⟩
    refine ⟨w, hreach, hasked, hresumed, hbeats, ?_⟩
    rw [SleepCall.slept_iff]
    decide

end Clocked

end Orchid
