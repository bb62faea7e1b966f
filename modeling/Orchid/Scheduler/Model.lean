import Orchid.Core.LinkedList

/-! # The scheduler

A model of `kernel/scheduler.c`. Threads are `thread_t` records in kernel
memory, named by their address; the run queue is the intrusive list threaded
through their `next` fields from `ready_queue`.

* Every function below is the body between `spin_lock(&sched_lock)` and
  `spin_unlock(&sched_lock)` of its namesake. `thread_block` and `thread_exit`
  release the lock before they call `schedule`, so their first halves are
  functions of their own (`threadBlockMark`, `threadExitMark`).
* `thread_unblock` and `schedule` look for the last queued thread with an
  unbounded loop. They take the number of loop tests they may make and return
  `none` when it does not suffice; a call returns if some amount does.
* `thread_create` and `thread_create_user` are given the two blocks that
  `kmalloc` handed out. The words they store on the new kernel stack, and the
  registers that `__switch_to` saves there, are not part of this state.
-/

namespace Orchid

open LinkedList Function

/-- Address of a `thread_t`. -/
abbrev Tid := Nat

/-- Address of a `process_t`. -/
abbrev ProcPtr := Nat

/-- `state`: `0`, or one of the `THREAD_STATE_` constants. -/
inductive ThreadState where
  | exited
  | running
  | ready
  | blocked
  deriving DecidableEq, Repr

/-- `thread_t`. -/
structure Thread where
  rsp : Nat
  kernelStack : Nat
  state : ThreadState
  cr3 : Nat
  iopl : Nat
  process : Option ProcPtr
  next : Option Tid
  deriving DecidableEq, Repr

/-- The globals of `scheduler.c`, with `current_process` of `proc.c` and the
`rsp0` slot of the TSS, which `schedule` writes too. -/
structure Sched where
  threads : Tid → Thread
  currentThread : Option Tid
  readyQueue : Option Tid
  idleThreadPtr : Option Tid
  threadCount : Nat
  currentProcess : Option ProcPtr
  rsp0 : Nat

namespace Sched

/-- The `next` fields. -/
def next (s : Sched) (t : Tid) : Option Tid := (s.threads t).next

/-- The `state` fields. -/
def state (s : Sched) (t : Tid) : ThreadState := (s.threads t).state

/-- Overwrite the record at `t`. -/
def modify (s : Sched) (t : Tid) (f : Thread → Thread) : Sched :=
  { s with threads := update s.threads t (f (s.threads t)) }

/-- `t->next = v`. -/
def setNext (s : Sched) (t : Tid) (v : Option Tid) : Sched :=
  s.modify t fun th => { th with next := v }

/-- `t->state = v`. -/
def setState (s : Sched) (t : Tid) (v : ThreadState) : Sched :=
  s.modify t fun th => { th with state := v }

variable (s : Sched) (t : Tid)

@[simp] theorem setNext_next (v : Option Tid) :
    (s.setNext t v).next = update s.next t v := by
  funext u
  by_cases h : u = t
  · subst h; simp [setNext, modify, next]
  · simp [setNext, modify, next, h]

@[simp] theorem setNext_state (v : Option Tid) : (s.setNext t v).state = s.state := by
  funext u
  by_cases h : u = t
  · subst h; simp [setNext, modify, state]
  · simp [setNext, modify, state, h]

@[simp] theorem setState_next (v : ThreadState) : (s.setState t v).next = s.next := by
  funext u
  by_cases h : u = t
  · subst h; simp [setState, modify, next]
  · simp [setState, modify, next, h]

@[simp] theorem setState_state (v : ThreadState) :
    (s.setState t v).state = update s.state t v := by
  funext u
  by_cases h : u = t
  · subst h; simp [setState, modify, state]
  · simp [setState, modify, state, h]

@[simp] theorem modify_currentThread (f : Thread → Thread) :
    (s.modify t f).currentThread = s.currentThread := rfl

@[simp] theorem modify_readyQueue (f : Thread → Thread) :
    (s.modify t f).readyQueue = s.readyQueue := rfl

@[simp] theorem modify_idleThreadPtr (f : Thread → Thread) :
    (s.modify t f).idleThreadPtr = s.idleThreadPtr := rfl

@[simp] theorem setNext_currentThread (v : Option Tid) :
    (s.setNext t v).currentThread = s.currentThread := rfl

@[simp] theorem setNext_readyQueue (v : Option Tid) :
    (s.setNext t v).readyQueue = s.readyQueue := rfl

@[simp] theorem setNext_idleThreadPtr (v : Option Tid) :
    (s.setNext t v).idleThreadPtr = s.idleThreadPtr := rfl

@[simp] theorem setState_currentThread (v : ThreadState) :
    (s.setState t v).currentThread = s.currentThread := rfl

@[simp] theorem setState_readyQueue (v : ThreadState) :
    (s.setState t v).readyQueue = s.readyQueue := rfl

@[simp] theorem setState_idleThreadPtr (v : ThreadState) :
    (s.setState t v).idleThreadPtr = s.idleThreadPtr := rfl

end Sched

/-! ## The functions of `scheduler.c` -/

/-- `STACK_SIZE`. -/
def stackSize : Nat := 4096

/-- Link a thread in front of the run queue. -/
def schedulerAddThread (t : Tid) (s : Sched) : Sched :=
  { s.setNext t s.readyQueue with
    readyQueue := some t
    threadCount := s.threadCount + 1 }

/-- What both thread constructors do with a fresh `thread_t` at `t` and a
fresh stack at `stack`, of which they fill the topmost `words` words. -/
def initThread (words : Nat) (t : Tid) (stack cr3 : Nat) (proc : Option ProcPtr)
    (s : Sched) : Sched :=
  schedulerAddThread t <| s.modify t fun th =>
    { th with
      kernelStack := stack + stackSize
      cr3 := cr3
      iopl := 0
      process := proc
      rsp := stack + stackSize - 8 * words
      state := .ready }

/-- `thread_create`: six zeroed registers and the entry point. -/
def threadCreate (t : Tid) (stack cr3 : Nat) (proc : Option ProcPtr) (s : Sched) : Sched :=
  initThread 7 t stack cr3 proc s

/-- `thread_create_user`: an `iretq` frame of five words below the entry
trampoline and six zeroed registers. -/
def threadCreateUser (t : Tid) (stack pml4Phys : Nat) (proc : Option ProcPtr)
    (s : Sched) : Sched :=
  initThread 12 t stack pml4Phys proc s

/-- `scheduler_init`, given the blocks for the idle thread. -/
def schedulerInit (idle : Tid) (stack kernelCr3 : Nat) (s : Sched) : Sched :=
  { (threadCreate idle stack kernelCr3 none s).setState idle .ready with
    idleThreadPtr := some idle
    readyQueue := none
    currentThread := some idle }

/-- The queue code shared by `thread_unblock` and `schedule`: terminate `t`
and hang it behind the last queued thread. -/
def enqueueTail (fuel : Nat) (t : Tid) (s : Sched) : Option Sched :=
  let s := s.setNext t none
  match s.readyQueue with
  | none => some { s with readyQueue := some t }
  | some head =>
    match walkTail s.next fuel head with
    | none => none
    | some tail => some (s.setNext tail (some t))

/-- `thread_exit` up to its call of `schedule`. -/
def threadExitMark (s : Sched) : Sched :=
  match s.currentThread with
  | none => s
  | some cur => (s.setState cur .exited).setNext cur none

/-- `thread_block` up to its call of `schedule`. -/
def threadBlockMark (s : Sched) : Sched :=
  match s.currentThread with
  | none => s
  | some cur => s.setState cur .blocked

/-- `thread_unblock`. -/
def threadUnblock (fuel : Nat) (t : Tid) (s : Sched) : Option Sched :=
  if s.state t = .blocked then
    enqueueTail fuel t (s.setState t .ready)
  else
    some s

/-- The dispatch at the end of `schedule`: `n` becomes the current thread. -/
def dispatch (n : Tid) (s : Sched) : Sched :=
  let s := s.setState n .running
  { s with
    rsp0 := (s.threads n).kernelStack
    currentThread := some n
    -- a kernel thread leaves the previous process in place
    currentProcess := (s.threads n).process.or s.currentProcess }

/-- The head of the queue, taken off it, or else the idle thread. -/
def pickNext (s : Sched) : Option Tid × Sched :=
  match s.readyQueue with
  | none => (s.idleThreadPtr, s)
  | some t => (some t, { s with readyQueue := s.next t })

/-- The current thread goes back to the tail if it can still run. -/
def requeueCurrent (fuel : Nat) (cur : Tid) (s : Sched) : Option Sched :=
  if s.state cur = .running ∧ some cur ≠ s.idleThreadPtr then
    enqueueTail fuel cur (s.setState cur .ready)
  else
    some s

/-- `schedule`. With no idle thread and an empty queue it dereferences a null
pointer; such a call does not return either. -/
def schedule (fuel : Nat) (s : Sched) : Option Sched :=
  match s.currentThread with
  | none => some s
  | some cur =>
    match requeueCurrent fuel cur (pickNext s).2 with
    | none => none
    | some s' => (pickNext s).1.map fun n => dispatch n s'

/-! ## What the functions do to queue and states

One lemma for each function; nothing below unfolds them again. `Sched.Queue s l`
says that the run queue of `s` is the list `l`. -/

/-- Following `next` from `ready_queue` visits `l` and ends in `NULL`. -/
def Sched.Queue (s : Sched) (l : List Tid) : Prop := Chain s.next s.readyQueue l

@[simp] theorem Sched.queue_setState (s : Sched) (t : Tid) (v : ThreadState) {l : List Tid} :
    (s.setState t v).Queue l ↔ s.Queue l := by
  simp [Sched.Queue]

/-- Two scheduler states that differ in the queue links at most. -/
structure Sched.SameButQueue (s s' : Sched) : Prop where
  threads : ∀ u, { s'.threads u with next := none } = { s.threads u with next := none }
  currentThread : s'.currentThread = s.currentThread
  idleThreadPtr : s'.idleThreadPtr = s.idleThreadPtr
  currentProcess : s'.currentProcess = s.currentProcess

theorem Sched.SameButQueue.state {s s' : Sched} (h : s.SameButQueue s') :
    s'.state = s.state := by
  funext u
  have hu := congrArg Thread.state (h.threads u)
  exact hu

theorem Sched.SameButQueue.trans {s s' s'' : Sched} (h : s.SameButQueue s')
    (h' : s'.SameButQueue s'') : s.SameButQueue s'' where
  threads u := (h'.threads u).trans (h.threads u)
  currentThread := h'.currentThread.trans h.currentThread
  idleThreadPtr := h'.idleThreadPtr.trans h.idleThreadPtr
  currentProcess := h'.currentProcess.trans h.currentProcess

theorem Sched.sameButQueue_setNext (s : Sched) (t : Tid) (v : Option Tid) :
    s.SameButQueue (s.setNext t v) where
  threads u := by
    by_cases h : u = t
    · subst h; simp [setNext, modify]
    · simp [setNext, modify, h]
  currentThread := rfl
  idleThreadPtr := rfl
  currentProcess := rfl

/-- Appending at the tail, on a chain the thread is not on. -/
theorem enqueueTail_spec {s s' : Sched} {l : List Tid} {t : Tid} {fuel : Nat}
    (hq : s.Queue l) (ht : t ∉ l) (h : enqueueTail fuel t s = some s') :
    s'.Queue (l ++ [t]) ∧ s.SameButQueue s' := by
  simp only [enqueueTail, Sched.setNext_readyQueue] at h
  rcases List.eq_nil_or_concat l with rfl | ⟨r, z, rfl⟩
  · -- empty queue: the thread becomes the head
    have hnone : s.readyQueue = none := hq
    rw [hnone] at h
    simp only [Option.some.injEq] at h
    subst h
    refine ⟨?_, (s.sameButQueue_setNext t none).threads, rfl, rfl, rfl⟩
    show Chain (s.setNext t none).next (some t) [t]
    simp
  · -- otherwise the walk stops at the last thread `z`
    simp only [List.concat_eq_append, List.mem_append, List.mem_singleton, not_or] at ht hq ⊢
    have hq' : Chain (s.setNext t none).next s.readyQueue (r ++ [z]) := by
      refine Chain.congr hq fun a ha => ?_
      have hat : a ≠ t := by
        rintro rfl
        simp only [List.mem_append, List.mem_singleton] at ha
        exact ha.elim ht.1 ht.2
      simp [hat]
    cases hrq : s.readyQueue with
    | none =>
      rw [hrq] at hq'
      cases r <;> simp at hq'
    | some head =>
      rw [hrq] at h hq'
      cases hw : walkTail (s.setNext t none).next fuel head with
      | none => simp only [hw] at h; simp at h
      | some tail =>
        have htail : tail = z := by
          have hlong := walkTail_mono hw (Nat.le_max_left fuel (r.length + 1))
          have hz := walkTail_of_chain hq'
            (Nat.lt_of_lt_of_le (Nat.lt_succ_self _) (Nat.le_max_right fuel (r.length + 1)))
          exact Option.some.inj (hlong.symm.trans hz)
        simp only [hw, Option.some.injEq] at h
        subst h htail
        have hnd : (r ++ [tail]).Nodup := Chain.nodup hq'
        refine ⟨?_, (s.sameButQueue_setNext t none).trans (Sched.sameButQueue_setNext _ _ _)⟩
        rw [List.append_assoc, List.singleton_append]
        show Chain _ s.readyQueue _
        rw [hrq]
        refine Chain.snoc hq' (by simp) ?_ fun a ha => ?_
        · simp [ht.2]
        · have hat : a ≠ tail := by
            rintro rfl
            rw [List.nodup_append] at hnd
            exact hnd.2.2 a ha a (by simp) rfl
          simp [hat]

/-- Appending returns as soon as it may test once for each queued thread. -/
theorem enqueueTail_returns {s : Sched} {l : List Tid} {t : Tid} {fuel : Nat}
    (hq : s.Queue l) (ht : t ∉ l) (hfuel : l.length ≤ fuel) :
    ∃ s', enqueueTail fuel t s = some s' := by
  simp only [enqueueTail, Sched.setNext_readyQueue]
  cases hrq : s.readyQueue with
  | none => exact ⟨_, rfl⟩
  | some head =>
    rcases List.eq_nil_or_concat l with rfl | ⟨r, z, rfl⟩
    · rw [Sched.Queue, hrq] at hq
      simp at hq
    · rw [List.concat_eq_append] at hq ht hfuel
      have hq' : Chain (s.setNext t none).next (some head) (r ++ [z]) := by
        rw [← hrq]
        refine Chain.congr hq fun a ha => ?_
        have hat : a ≠ t := fun hat => ht (hat ▸ ha)
        simp [hat]
      have hw : walkTail (s.setNext t none).next fuel head = some z :=
        walkTail_of_chain hq' (by simp at hfuel; omega)
      simp only [hw]
      exact ⟨_, rfl⟩

/-- A new thread is ready, in front of the queue. -/
theorem initThread_spec (words : Nat) (t : Tid) (stack cr3 : Nat) (proc : Option ProcPtr)
    (s : Sched) :
    (initThread words t stack cr3 proc s).state = update s.state t .ready ∧
    (initThread words t stack cr3 proc s).next = update s.next t s.readyQueue := by
  constructor
  · funext u
    by_cases hu : u = t
    · subst hu; simp [initThread, schedulerAddThread, Sched.state, Sched.setNext, Sched.modify]
    · simp [initThread, schedulerAddThread, Sched.state, Sched.setNext, Sched.modify, hu]
  · funext u
    by_cases hu : u = t
    · subst hu; simp [initThread, schedulerAddThread, Sched.next, Sched.setNext, Sched.modify]
    · simp [initThread, schedulerAddThread, Sched.next, Sched.setNext, Sched.modify, hu]

/-- `thread_unblock` of a blocked thread appends it and makes it ready; of any
other thread it does nothing. -/
theorem threadUnblock_spec {s s' : Sched} {l : List Tid} {t : Tid} {fuel : Nat}
    (hq : s.Queue l) (ht : s.state t = .blocked → t ∉ l)
    (h : threadUnblock fuel t s = some s') :
    (s.state t ≠ .blocked ∧ s' = s) ∨
    (s.state t = .blocked ∧ s'.Queue (l ++ [t]) ∧
      s'.state = update s.state t .ready ∧
      s'.currentThread = s.currentThread ∧ s'.idleThreadPtr = s.idleThreadPtr) := by
  by_cases hb : s.state t = .blocked
  · right
    simp only [threadUnblock, hb, if_true] at h
    obtain ⟨hq₁, hsame⟩ := enqueueTail_spec ((s.queue_setState t .ready).mpr hq) (ht hb) h
    refine ⟨hb, hq₁, ?_, hsame.currentThread, hsame.idleThreadPtr⟩
    rw [hsame.state, Sched.setState_state]
  · left
    simp only [threadUnblock, hb, if_false, Option.some.injEq] at h
    exact ⟨hb, h.symm⟩

theorem threadUnblock_returns {s : Sched} {l : List Tid} {t : Tid} {fuel : Nat}
    (hq : s.Queue l) (ht : s.state t = .blocked → t ∉ l) (hfuel : l.length ≤ fuel) :
    ∃ s', threadUnblock fuel t s = some s' := by
  by_cases hb : s.state t = .blocked
  · simp only [threadUnblock, hb, if_true]
    exact enqueueTail_returns ((s.queue_setState t .ready).mpr hq) (ht hb) hfuel
  · simp only [threadUnblock, hb, if_false]
    exact ⟨s, rfl⟩

/-- The condition under which `schedule` puts the current thread back. -/
def Requeues (s : Sched) (cur : Tid) : Prop :=
  s.state cur = .running ∧ some cur ≠ s.idleThreadPtr

instance (s : Sched) (cur : Tid) : Decidable (Requeues s cur) :=
  inferInstanceAs (Decidable (_ ∧ _))

/-- The queue after `schedule`: the head is gone, the current thread is
possibly at the tail. -/
def queueAfter (s : Sched) (cur : Tid) (l : List Tid) : List Tid :=
  l.tail ++ if Requeues s cur then [cur] else []

/-- The states after the current thread was put back, before the dispatch. -/
def statesRequeued (s : Sched) (cur : Tid) : Tid → ThreadState :=
  if Requeues s cur then update s.state cur .ready else s.state

/-- Taking the head off leaves the tail queued. -/
theorem pickNext_spec {s : Sched} {l : List Tid} {idle : Tid} (hq : s.Queue l)
    (hidle : s.idleThreadPtr = some idle) :
    (pickNext s).1 = some (l.headD idle) ∧ (pickNext s).2.Queue l.tail ∧
      (pickNext s).2.threads = s.threads ∧ (pickNext s).2.currentThread = s.currentThread ∧
      (pickNext s).2.idleThreadPtr = s.idleThreadPtr ∧
      (pickNext s).2.currentProcess = s.currentProcess := by
  cases l with
  | nil =>
    have hnone : s.readyQueue = none := hq
    have hpick : pickNext s = (s.idleThreadPtr, s) := by simp only [pickNext, hnone]
    rw [hpick]
    exact ⟨hidle, hq, rfl, rfl, rfl, rfl⟩
  | cons a l =>
    have hsome : s.readyQueue = some a := hq.1
    have hpick : pickNext s = (some a, { s with readyQueue := s.next a }) := by
      simp only [pickNext, hsome]
    rw [hpick]
    exact ⟨rfl, hq.2, rfl, rfl, rfl, rfl⟩

/-- What a returning `schedule` has done, as seen by the queue and the states
of the threads. -/
theorem schedule_spec {s s' : Sched} {l : List Tid} {cur idle : Tid} {fuel : Nat}
    (hq : s.Queue l) (hcur : s.currentThread = some cur) (hidle : s.idleThreadPtr = some idle)
    (hnot : s.state cur = .running → cur ∉ l) (h : schedule fuel s = some s') :
    s'.Queue (queueAfter s cur l) ∧ s'.currentThread = some (l.headD idle) ∧
      s'.state = update (statesRequeued s cur) (l.headD idle) .running ∧
      s'.idleThreadPtr = some idle := by
  obtain ⟨hpick, hq₁, hthreads, -, hidle₁, -⟩ := pickNext_spec hq hidle
  have hstate₁ : (pickNext s).2.state = s.state := by
    funext u; simp [Sched.state, hthreads]
  have hdisp : ∀ (n : Tid) (q : Sched) (k : List Tid), q.Queue k → (dispatch n q).Queue k ∧
      (dispatch n q).currentThread = some n ∧
      (dispatch n q).state = update q.state n .running ∧
      (dispatch n q).idleThreadPtr = q.idleThreadPtr := by
    intro n q k hk
    refine ⟨?_, rfl, Sched.setState_state q n .running, rfl⟩
    exact (Sched.queue_setState q n .running).mpr hk
  simp only [schedule, hcur, hpick, Option.map_some] at h
  by_cases hr : Requeues s cur
  · -- the caller can still run: it goes to the tail
    have hr₁ : (pickNext s).2.state cur = .running ∧ some cur ≠ (pickNext s).2.idleThreadPtr := by
      rw [hstate₁, hidle₁]; exact hr
    simp only [requeueCurrent, hr₁, ne_eq, not_false_eq_true, and_self, if_true] at h
    cases he : enqueueTail fuel cur ((pickNext s).2.setState cur .ready) with
    | none => simp [he] at h
    | some q =>
      simp only [he, Option.some.injEq] at h
      subst h
      have hq₂ := ((pickNext s).2.queue_setState cur .ready).mpr hq₁
      obtain ⟨hq₃, hsame⟩ := enqueueTail_spec hq₂ (fun hm => hnot hr.1 (List.mem_of_mem_tail hm)) he
      obtain ⟨ha, hb, hc, hd⟩ := hdisp (l.headD idle) q _ hq₃
      refine ⟨by simpa [queueAfter, hr] using ha, hb, ?_, ?_⟩
      · rw [hc, hsame.state, Sched.setState_state, hstate₁]
        simp [statesRequeued, hr]
      · rw [hd, hsame.idleThreadPtr, Sched.setState_idleThreadPtr, hidle₁, hidle]
  · -- the caller is idle, blocked, already queued or gone
    have hr₁ : ¬ ((pickNext s).2.state cur = .running ∧
        some cur ≠ (pickNext s).2.idleThreadPtr) := by
      rw [hstate₁, hidle₁]; exact hr
    simp only [requeueCurrent, hr₁, if_false, Option.some.injEq] at h
    subst h
    obtain ⟨ha, hb, hc, hd⟩ := hdisp (l.headD idle) _ _ hq₁
    refine ⟨by simpa [queueAfter, hr] using ha, hb, ?_, ?_⟩
    · rw [hc, hstate₁]
      simp [statesRequeued, hr]
    · rw [hd, hidle₁, hidle]

theorem schedule_returns {s : Sched} {l : List Tid} {cur idle : Tid} {fuel : Nat}
    (hq : s.Queue l) (hcur : s.currentThread = some cur) (hidle : s.idleThreadPtr = some idle)
    (hnot : s.state cur = .running → cur ∉ l) (hfuel : l.length ≤ fuel) :
    ∃ s', schedule fuel s = some s' := by
  obtain ⟨hpick, hq₁, hthreads, -, hidle₁, -⟩ := pickNext_spec hq hidle
  have hstate₁ : (pickNext s).2.state = s.state := by
    funext u; simp [Sched.state, hthreads]
  simp only [schedule, hcur, hpick, Option.map_some]
  by_cases hr : (pickNext s).2.state cur = .running ∧ some cur ≠ (pickNext s).2.idleThreadPtr
  · have hq₂ := ((pickNext s).2.queue_setState cur .ready).mpr hq₁
    have hcurRun : s.state cur = .running := by rw [← hstate₁]; exact hr.1
    have hshort : l.tail.length ≤ fuel := by simp; omega
    obtain ⟨q, he⟩ := enqueueTail_returns hq₂
      (fun hm => hnot hcurRun (List.mem_of_mem_tail hm)) hshort
    simp only [requeueCurrent, hr, ne_eq, not_false_eq_true, and_self, if_true, he]
    exact ⟨_, rfl⟩
  · simp only [requeueCurrent, hr, if_false]
    exact ⟨_, rfl⟩

/-! ## What no function changes -/

/-- The fields of a `thread_t` that are set when it is made. -/
def Thread.fixed (th : Thread) : Nat × Nat × Nat × Option ProcPtr :=
  (th.rsp, th.kernelStack, th.cr3, th.process)

section Fixed

variable {s s' : Sched} {t : Tid} {fuel : Nat}

/-- The record of the new thread. -/
theorem threadCreateUser_self (t : Tid) (stack pml4Phys : Nat) (proc : Option ProcPtr)
    (s : Sched) :
    ((threadCreateUser t stack pml4Phys proc s).threads t).rsp =
        stack + stackSize - 8 * 12 ∧
      ((threadCreateUser t stack pml4Phys proc s).threads t).kernelStack =
        stack + stackSize ∧
      ((threadCreateUser t stack pml4Phys proc s).threads t).cr3 = pml4Phys := by
  simp [threadCreateUser, initThread, schedulerAddThread, Sched.setNext, Sched.modify]

theorem setNext_fixed (s : Sched) (t : Tid) (v : Option Tid) (u : Tid) :
    ((s.setNext t v).threads u).fixed = (s.threads u).fixed := by
  by_cases hu : u = t
  · subst hu; simp [Sched.setNext, Sched.modify, Thread.fixed]
  · simp [Sched.setNext, Sched.modify, hu]

theorem setState_fixed (s : Sched) (t : Tid) (v : ThreadState) (u : Tid) :
    ((s.setState t v).threads u).fixed = (s.threads u).fixed := by
  by_cases hu : u = t
  · subst hu; simp [Sched.setState, Sched.modify, Thread.fixed]
  · simp [Sched.setState, Sched.modify, hu]

/-- Whatever the queue looks like, the thread becomes the head or some record is linked to it. -/
theorem enqueueTail_cases (h : enqueueTail fuel t s = some s') :
    s' = { s.setNext t none with readyQueue := some t } ∨
      ∃ tail, s' = (s.setNext t none).setNext tail (some t) := by
  simp only [enqueueTail] at h
  split at h
  · exact Or.inl (Option.some.inj h).symm
  · split at h
    · cases h
    · exact Or.inr ⟨_, (Option.some.inj h).symm⟩

theorem enqueueTail_fixed (h : enqueueTail fuel t s = some s') (u : Tid) :
    (s'.threads u).fixed = (s.threads u).fixed := by
  rcases enqueueTail_cases h with rfl | ⟨tail, rfl⟩
  · exact setNext_fixed s t none u
  · rw [setNext_fixed, setNext_fixed]

/-- `thread_unblock` neither dispatches a thread nor changes a fixed field. -/
theorem threadUnblock_fixed (h : threadUnblock fuel t s = some s') :
    s'.currentThread = s.currentThread ∧ s'.currentProcess = s.currentProcess ∧
      ∀ u, (s'.threads u).fixed = (s.threads u).fixed := by
  unfold threadUnblock at h
  split at h
  · refine ⟨?_, ?_, fun u => by rw [enqueueTail_fixed h, setState_fixed]⟩ <;>
      rcases enqueueTail_cases h with rfl | ⟨tail, rfl⟩ <;> rfl
  · cases h
    exact ⟨rfl, rfl, fun _ => rfl⟩

/-- `schedule` dispatches some thread and leaves the fixed fields alone. -/
theorem schedule_fixed (h : schedule fuel s = some s') (u : Tid) :
    (s'.threads u).fixed = (s.threads u).fixed := by
  unfold schedule at h
  split at h
  · cases h
    rfl
  next cur hcur =>
  split at h
  · cases h
  next s₁ hrequeue =>
  rcases Option.map_eq_some_iff.mp h with ⟨n, -, rfl⟩
  have hpick : (pickNext s).2.threads = s.threads := by
    unfold pickNext
    split <;> rfl
  have hdispatch : ((dispatch n s₁).threads u).fixed = (s₁.threads u).fixed :=
    setState_fixed s₁ n .running u
  rw [hdispatch, ← hpick]
  unfold requeueCurrent at hrequeue
  split at hrequeue
  · rw [enqueueTail_fixed hrequeue, setState_fixed]
  · cases hrequeue
    rfl

end Fixed

end Orchid
