import Orchid.Core.Rules
import Orchid.Ipc.Model

/-! # Wakeups under preemption

Threads that call `ipc_send`, `ipc_recv` and `sleep_until`, with a timer
interrupt possible between any two of their locked sections. `todo` is what each
thread still has to run of the call it is in.

* A thread that goes to sleep publishes its wait node in one section and marks
  itself BLOCKED in a later one. In between it is `Section.mark` that is pending.
* A waker that takes the node off its list in that window calls `thread_unblock`
  on a thread that is not BLOCKED yet, which does nothing. The mark comes after
  it, and nobody is left to undo it.
* Where no `thread_unblock` falls into such a window, no wakeup is lost.
-/

namespace Orchid

open Machine Function

/-! ## The machine -/

/-- A locked section that a thread has yet to run. -/
inductive Section where
  | unblock (t : Tid)
  /-- The state change of `thread_block`. -/
  | mark
  /-- The call of `schedule` at the end of `thread_block`. -/
  | schedule
  deriving DecidableEq, Repr

/-- The sections left when the lock of a call is released. -/
def Tail.sections : Tail → List Section
  | .done => []
  | .wake t => [.unblock t]
  | .sleep => [.mark, .schedule]

/-- Some wait node refers to `t`. -/
def Ipc.Waits (s : Ipc) (t : Tid) : Prop :=
  ∃ p, (∃ n ∈ (s.ports p).senders, n.thread = t) ∨ ∃ n ∈ (s.ports p).recvers, n.thread = t

/-- The calls; `old` is what the memory of the wait node held. -/
inductive WaitCall where
  | send (port : Nat) (msg old : IpcMessage)
  | recv (port buffer : Nat)
  | kernelSend (port : Nat) (msg : IpcMessage)
  | sleepUntil (deadline : Nat)

/-- The scheduler, the ports, the timer, and where each thread stands. -/
structure Waiting where
  sched : Sched
  ipc : Ipc
  timer : Timer
  todo : Tid → List Section

namespace Waiting

/-- The first section of a call by `cur`, with `kmalloc` succeeding. -/
def firstSection (w : Waiting) (cur : Tid) : WaitCall → Tail × Ipc × Timer
  | .send port msg old =>
    let (tail, ipc) := ipcSendLocked (some old) 0 cur port msg w.ipc
    (tail, ipc, w.timer)
  | .recv port buffer =>
    let (tail, ipc) := ipcRecvLocked true 0 cur port buffer w.ipc
    (tail, ipc, w.timer)
  | .kernelSend port msg =>
    let (tail, ipc) := ipcKernelSendLocked port msg w.ipc
    (tail, ipc, w.timer)
  | .sleepUntil deadline =>
    let (tail, timer) := sleepUntilLocked true cur deadline w.timer
    (tail, w.ipc, timer)

/-- `cur` enters a call, on top of what it has to do. -/
def enter (w : Waiting) (cur : Tid) (call : WaitCall) : Waiting :=
  let (tail, ipc, timer) := w.firstSection cur call
  { w with
    ipc := ipc
    timer := timer
    todo := update w.todo cur (tail.sections ++ w.todo cur) }

/-- A pending section on the scheduler. -/
def runSection (fuel : Nat) : Section → Sched → Option Sched
  | .unblock t, s => threadUnblock fuel t s
  | .mark, s => some (threadBlockMark s)
  | .schedule, s => Orchid.schedule fuel s

/-- What can happen next. -/
inductive Act where
  /-- The current thread, in its own code, makes a call. -/
  | call (c : WaitCall)
  /-- An interrupt forwards a message, whatever the current thread is doing. -/
  | irq (port : Nat) (msg : IpcMessage)
  /-- The current thread runs its next section. -/
  | go (fuel : Nat)
  /-- A timer interrupt: `timer_tick`, then `schedule`. -/
  | timer (fuel : Nat)

/-- The state after it; `none` if it cannot happen or does not return. -/
def step (w : Waiting) (a : Act) : Option Waiting :=
  match w.sched.currentThread with
  | none => none
  | some cur =>
    match a with
    | .call c => if w.todo cur = [] then some (w.enter cur c) else none
    | .irq port msg => some (w.enter cur (.kernelSend port msg))
    | .go fuel =>
      match w.todo cur with
      | [] => none
      | sec :: rest => (runSection fuel sec w.sched).map fun s =>
        { w with sched := s, todo := update w.todo cur rest }
    | .timer fuel =>
      match timerTick fuel w.timer w.sched with
      | none => none
      | some (timer, s) => (Orchid.schedule fuel s).map fun s =>
        { w with sched := s, timer := timer }

/-- Nobody waits, nobody is blocked, and every thread is in its own code. -/
def Init : StatePred Waiting := fun w =>
  (∀ p, w.ipc.ports p = ⟨[], []⟩) ∧ w.timer.queue = [] ∧ (∀ t, w.todo t = []) ∧
    ∀ t, w.sched.state t ≠ .blocked

def Next : Action Waiting := fun w w' => ∃ a, w.step a = some w'

/-- A wait node or a timer entry refers to `t`. -/
def Referenced (w : Waiting) (t : Tid) : Prop :=
  w.ipc.Waits t ∨ ∃ e ∈ w.timer.queue, e.thread = t

/-- Some waker has `thread_unblock(t)` still ahead of it. -/
def ToBeWoken (w : Waiting) (t : Tid) : Prop := ∃ u, .unblock t ∈ w.todo u

/-- Every blocked thread can still be woken. -/
def NoLostWakeup (w : Waiting) : Prop :=
  ∀ t, w.sched.state t = .blocked → w.Referenced t ∨ w.ToBeWoken t

/-- The threads on which `thread_unblock` is called. -/
def woken (w : Waiting) : Act → List Tid
  | .go _ =>
    match w.sched.currentThread.map w.todo with
    | some (.unblock t :: _) => [t]
    | _ => []
  | .timer _ =>
    (w.timer.queue.filter fun e => e.deadline ≤ (w.timer.ticks + 1) % 2 ^ 64).map (·.thread)
  | _ => []

/-- `thread_unblock` is called on no thread that has published its node but has
not marked itself BLOCKED. -/
def Settled (w : Waiting) (a : Act) : Prop := ∀ t ∈ w.woken a, .mark ∉ w.todo t

/-- A step that unblocks no thread too early. -/
def NextSettled : Action Waiting := fun w w' => ∃ a, w.Settled a ∧ w.step a = some w'

end Waiting

/-! ## The sections that publish and take nodes -/

/-- Before `ipc_init` the ports are empty. -/
def Ipc.Blank (s : Ipc) : Prop := s.initialized = false → ∀ p, s.ports p = ⟨[], []⟩

section Sections

variable {s s' : Ipc} {cur t : Tid} {port : Nat} {msg : IpcMessage} {tail : Tail}

/-- What a locked section of `ipc.c` does to the nodes: those there before stay,
but for one whose thread is to be woken, and a caller that goes to sleep has
one. -/
structure Publishes (cur : Tid) (s s' : Ipc) (tail : Tail) : Prop where
  kept : ∀ t, s.Waits t → s'.Waits t ∨ tail = .wake t
  published : tail = .sleep → s'.Waits cur
  blank : s'.Blank

theorem ensureInit_ports (h : s.Blank) : (ipcEnsureInit s).ports = s.ports := by
  unfold ipcEnsureInit
  split
  · rfl
  · next hinit =>
    funext p
    exact (h (by simpa using hinit) p).symm

theorem ensureInit_initialized (s : Ipc) : (ipcEnsureInit s).initialized = true := by
  unfold ipcEnsureInit
  split
  · assumption
  · rfl

theorem blank_of_initialized (h : s.initialized = true) : s.Blank := by
  intro hfalse
  rw [h] at hfalse
  cases hfalse

/-- One port is replaced: what the new port does not keep is to be woken. -/
theorem publishes_setPort {ports : Nat → Port} {new : Port} (hports : ports = s.ports)
    (hs' : s'.ports = update ports port new) (hinit : s'.initialized = true)
    (hsenders : ∀ n ∈ (s.ports port).senders, n ∈ new.senders ∨ tail = .wake n.thread)
    (hrecvers : ∀ n ∈ (s.ports port).recvers, n ∈ new.recvers ∨ tail = .wake n.thread)
    (hsleep : tail = .sleep → s'.Waits cur) : Publishes cur s s' tail where
  kept := by
    rintro t ⟨p, hwait⟩
    by_cases hp : p = port
    · subst hp
      have hnew : s'.ports p = new := by rw [hs', update_self]
      rcases hwait with ⟨n, hn, rfl⟩ | ⟨n, hn, rfl⟩
      · refine (hsenders n hn).imp_left fun hmem => ⟨p, Or.inl ⟨n, ?_, rfl⟩⟩
        rw [hnew]
        exact hmem
      · refine (hrecvers n hn).imp_left fun hmem => ⟨p, Or.inr ⟨n, ?_, rfl⟩⟩
        rw [hnew]
        exact hmem
    · refine Or.inl ⟨p, ?_⟩
      rw [hs', update_of_ne hp, hports]
      exact hwait
  published := hsleep
  blank := blank_of_initialized hinit

/-- Nothing is taken or published. -/
theorem publishes_ensureInit (h : s.Blank) : Publishes cur s (ipcEnsureInit s) .done where
  kept := by
    intro t hwait
    left
    unfold Ipc.Waits
    rw [ensureInit_ports h]
    exact hwait
  published := fun hsleep => by cases hsleep
  blank := blank_of_initialized (ensureInit_initialized s)

/-- A receiver is taken off its list. -/
theorem publishes_handOver {node : RecvNode} {rest : List RecvNode} (h : s.Blank)
    (hrecvers : ((ipcEnsureInit s).ports port).recvers = node :: rest) :
    Publishes cur s (handOver port msg node rest (ipcEnsureInit s)) (.wake node.thread) := by
  have hports := ensureInit_ports h
  have hinit := ensureInit_initialized s
  have hs' : (handOver port msg node rest (ipcEnsureInit s)).ports =
      update (ipcEnsureInit s).ports port
        { (ipcEnsureInit s).ports port with recvers := rest } := by
    unfold handOver
    dsimp only
    split <;> rfl
  have hinit' : (handOver port msg node rest (ipcEnsureInit s)).initialized = true := by
    unfold handOver
    dsimp only
    split <;> exact hinit
  rw [hports] at hrecvers
  refine publishes_setPort hports hs' hinit' ?_ ?_ (fun hsleep => by cases hsleep)
  · intro n hn
    left
    rw [hports]
    exact hn
  · intro n hn
    rw [hrecvers] at hn
    rcases List.mem_cons.mp hn with rfl | hn
    · exact Or.inr rfl
    · exact Or.inl hn

theorem ipcSendLocked_publishes (node : Option IpcMessage) {call : Nat} (h : s.Blank)
    (hcall : ipcSendLocked node call cur port msg s = (tail, s')) :
    Publishes cur s s' tail := by
  unfold ipcSendLocked at hcall
  simp only at hcall
  split at hcall
  · cases hcall
    exact publishes_ensureInit h
  · split at hcall
    · next hrecvers =>
      cases hcall
      exact publishes_handOver h hrecvers
    · cases node with
      | none =>
        cases hcall
        exact publishes_ensureInit h
      | some old =>
      -- the sender waits
      cases hcall
      have hports := ensureInit_ports h
      refine publishes_setPort hports rfl (ensureInit_initialized s) ?_ ?_ ?_
      · intro n hn
        rw [hports]
        exact Or.inl (List.mem_cons_of_mem _ hn)
      · intro n hn
        rw [hports]
        exact Or.inl hn
      · intro _
        refine ⟨port, Or.inl ⟨⟨cur, copyMessage msg old, call⟩, ?_, rfl⟩⟩
        simp [Ipc.setPort]

theorem ipcRecvLocked_publishes {call buffer : Nat} (h : s.Blank)
    (hcall : ipcRecvLocked true call cur port buffer s = (tail, s')) :
    Publishes cur s s' tail := by
  unfold ipcRecvLocked at hcall
  simp only at hcall
  have hports := ensureInit_ports h
  split at hcall
  · cases hcall
    exact publishes_ensureInit h
  · split at hcall
    · next node rest hsenders =>
      -- a sender is taken off its list
      cases hcall
      rw [hports] at hsenders
      refine publishes_setPort hports rfl (ensureInit_initialized s) ?_ ?_
        (fun hsleep => by cases hsleep)
      · intro n hn
        rw [hsenders] at hn
        rcases List.mem_cons.mp hn with rfl | hn
        · exact Or.inr rfl
        · exact Or.inl hn
      · intro n hn
        rw [hports]
        exact Or.inl hn
    · -- the receiver waits
      simp only [Bool.not_true, Bool.false_eq_true, if_false] at hcall
      cases hcall
      refine publishes_setPort hports rfl (ensureInit_initialized s) ?_ ?_ ?_
      · intro n hn
        rw [hports]
        exact Or.inl hn
      · intro n hn
        rw [hports]
        exact Or.inl (List.mem_cons_of_mem _ hn)
      · intro _
        refine ⟨port, Or.inr ⟨⟨cur, buffer, call⟩, ?_, rfl⟩⟩
        simp [Ipc.setPort]

end Sections

/-! ## No wakeup is lost -/

namespace Waiting

section Runs

variable {w w' : Waiting} {cur t : Tid} {c : WaitCall} {a : Act}

/-- A thread that is blocked, or about to be, can still be woken. -/
structure Inv (w : Waiting) : Prop where
  wakeable : ∀ t, w.sched.state t = .blocked ∨ .mark ∈ w.todo t → w.Referenced t ∨ w.ToBeWoken t
  blank : w.ipc.Blank

theorem init_inv (h : Init w) : w.Inv := by
  rcases h with ⟨hports, -, htodo, hstate⟩
  refine ⟨?_, fun _ => hports⟩
  intro t hwaits
  rcases hwaits with hblocked | hmark
  · exact absurd hblocked (hstate t)
  · rw [htodo t] at hmark
    cases hmark

/-- What the first section of a call does to the nodes and entries. -/
structure Enters (cur : Tid) (w w' : Waiting) (tail : Tail) : Prop where
  kept : ∀ t, w.Referenced t → w'.Referenced t ∨ tail = .wake t
  published : tail = .sleep → w'.Referenced cur
  blank : w'.ipc.Blank
  sched : w'.sched = w.sched
  todo : w'.todo = update w.todo cur (tail.sections ++ w.todo cur)

/-- The calls of `ipc.c` leave the timer alone. -/
theorem enters_of_publishes {ipc : Ipc} {tail : Tail} (h : Publishes cur w.ipc ipc tail) :
    Enters cur w { w with
      ipc := ipc
      todo := update w.todo cur (tail.sections ++ w.todo cur) } tail where
  kept := by
    intro t href
    rcases href with hwaits | hentry
    · exact (h.kept t hwaits).imp_left Or.inl
    · exact Or.inl (Or.inr hentry)
  published := fun hsleep => Or.inl (h.published hsleep)
  blank := h.blank
  sched := rfl
  todo := rfl

/-- `sleep_until` leaves the ports alone. -/
theorem enters_sleepUntil {deadline : Nat} (hblank : w.ipc.Blank) :
    ∃ tail, Enters cur w (w.enter cur (.sleepUntil deadline)) tail := by
  unfold enter firstSection sleepUntilLocked
  dsimp only
  by_cases hdue : deadline ≤ w.timer.ticks
  · rw [if_pos hdue]
    exact ⟨.done, fun _ href => Or.inl href, (fun hsleep => by cases hsleep), hblank, rfl, rfl⟩
  · rw [if_neg hdue]
    refine ⟨.sleep, ?_, ?_, hblank, rfl, rfl⟩
    · intro t href
      rcases href with hwaits | ⟨e, he, ht⟩
      · exact Or.inl (Or.inl hwaits)
      · exact Or.inl (Or.inr ⟨e, mem_insertEntry.mpr (Or.inr he), ht⟩)
    · intro _
      exact Or.inr ⟨⟨cur, deadline⟩, mem_insertEntry.mpr (Or.inl rfl), rfl⟩

theorem enter_enters (hblank : w.ipc.Blank) : ∃ tail, Enters cur w (w.enter cur c) tail := by
  cases c with
  | send port msg old =>
    exact ⟨_, enters_of_publishes (ipcSendLocked_publishes (some old) hblank rfl)⟩
  | recv port buffer =>
    exact ⟨_, enters_of_publishes (ipcRecvLocked_publishes hblank rfl)⟩
  | kernelSend port msg =>
    exact ⟨_, enters_of_publishes (ipcSendLocked_publishes none hblank
      (ipcKernelSendLocked_eq 0 cur port msg w.ipc).symm)⟩
  | sleepUntil deadline => exact enters_sleepUntil hblank

theorem enter_inv (h : w.Inv) : (w.enter cur c).Inv := by
  rcases @enter_enters w cur c h.blank with ⟨tail, henters⟩
  refine ⟨?_, henters.blank⟩
  intro t hwaits
  have htodo : ∀ u sec, sec ∈ w.todo u → sec ∈ (w.enter cur c).todo u := by
    intro u sec hsec
    rw [henters.todo, update_apply]
    split
    · next hu =>
      rw [hu] at hsec
      exact List.mem_append_right _ hsec
    · exact hsec
  -- either this call goes to sleep, or `t` was waiting before
  have hold : (tail = .sleep ∧ t = cur) ∨ w.sched.state t = .blocked ∨ .mark ∈ w.todo t := by
    rcases hwaits with hblocked | hmark
    · rw [henters.sched] at hblocked
      exact Or.inr (Or.inl hblocked)
    · rw [henters.todo, update_apply] at hmark
      split at hmark
      · next ht =>
        rcases List.mem_append.mp hmark with hnew | hmark
        · refine Or.inl ⟨?_, ht⟩
          cases tail with
          | done => cases hnew
          | wake u => simp [Tail.sections] at hnew
          | sleep => rfl
        · rw [← ht] at hmark
          exact Or.inr (Or.inr hmark)
      · exact Or.inr (Or.inr hmark)
  rcases hold with ⟨hsleep, rfl⟩ | hold
  · exact Or.inl (henters.published hsleep)
  · rcases h.wakeable t hold with href | ⟨u, hu⟩
    · rcases henters.kept t href with hkept | hwake
      · exact Or.inl hkept
      · -- the node was taken: its waker is the caller
        refine Or.inr ⟨cur, ?_⟩
        rw [henters.todo, update_self, hwake]
        exact List.mem_append_left _ (List.mem_singleton.mpr rfl)
    · exact Or.inr ⟨u, htodo u _ hu⟩

/-- A pending section runs, and `thread_unblock` finds no thread that is about to
mark itself. -/
theorem go_inv {fuel : Nat} {sec : Section} {rest : List Section} {s : Sched} (h : w.Inv)
    (hcur : w.sched.currentThread = some cur) (htodo : w.todo cur = sec :: rest)
    (hsettled : ∀ t, sec = .unblock t → .mark ∉ w.todo t)
    (hrun : runSection fuel sec w.sched = some s) :
    { w with sched := s, todo := update w.todo cur rest : Waiting }.Inv := by
  have hsub : ∀ u x, x ∈ update w.todo cur rest u → x ∈ w.todo u := by
    intro u x hx
    rw [update_apply] at hx
    split at hx
    · next hu =>
      rw [hu, htodo]
      exact List.mem_cons_of_mem _ hx
    · exact hx
  -- what the section was not about is still pending
  have hleft : ∀ u x, x ∈ w.todo u → x ≠ sec → x ∈ update w.todo cur rest u := by
    intro u x hx hne
    rw [update_apply]
    split
    · next hu =>
      rw [hu, htodo] at hx
      exact (List.mem_cons.mp hx).resolve_left hne
    · exact hx
  -- whoever waits now was waiting before, and is not the thread just woken
  have hold : ∀ t, s.state t = .blocked ∨ .mark ∈ update w.todo cur rest t →
      (w.sched.state t = .blocked ∨ .mark ∈ w.todo t) ∧ sec ≠ .unblock t := by
    intro t hwaits
    cases sec with
    | unblock u =>
      rcases hwaits with hblocked | hmark
      · rcases threadUnblock_blocked hrun hblocked with ⟨hbefore, hne⟩
        exact ⟨Or.inl hbefore, fun heq => hne (Section.unblock.inj heq).symm⟩
      · have hbefore := hsub t _ hmark
        exact ⟨Or.inr hbefore, fun heq => hsettled t heq hbefore⟩
    | mark =>
      refine ⟨?_, fun heq => by cases heq⟩
      rcases hwaits with hblocked | hmark
      · by_cases ht : t = cur
        · -- the caller marks itself: this section was pending
          right
          rw [ht, htodo]
          exact List.mem_cons_self
        · left
          cases hrun
          simpa [threadBlockMark, hcur, ht] using hblocked
      · exact Or.inr (hsub t _ hmark)
    | schedule =>
      refine ⟨?_, fun heq => by cases heq⟩
      rcases hwaits with hblocked | hmark
      · exact Or.inl (schedule_blocked hrun hblocked)
      · exact Or.inr (hsub t _ hmark)
  refine ⟨?_, h.blank⟩
  intro t hwaits
  rcases hold t hwaits with ⟨hbefore, hne⟩
  rcases h.wakeable t hbefore with href | ⟨u, hu⟩
  · exact Or.inl href
  · exact Or.inr ⟨u, hleft u _ hu hne.symm⟩

/-- A tick removes entries only of threads that it wakes. -/
theorem timer_inv {fuel : Nat} {timer : Timer} {s s' : Sched} (h : w.Inv)
    (hsettled : w.Settled (.timer fuel)) (htick : timerTick fuel w.timer w.sched = some (timer, s))
    (hrun : Orchid.schedule fuel s = some s') :
    { w with sched := s', timer := timer : Waiting }.Inv := by
  rcases Option.map_eq_some_iff.mp htick with ⟨⟨q, s₁⟩, hexpire, heq⟩
  cases heq
  rcases expire_spec hexpire with ⟨hkept, hstates⟩
  refine ⟨?_, h.blank⟩
  intro t hwaits
  have hbefore : w.sched.state t = .blocked ∨ .mark ∈ w.todo t :=
    hwaits.imp_left fun hblocked => (hstates t (schedule_blocked hrun hblocked)).1
  have hentries : ∀ e ∈ w.timer.queue, e.thread = t → e ∈ q := by
    intro e he ht
    rcases hkept e he with hin | hdue
    · exact hin
    · -- an entry of a thread that still waits was not due
      exfalso
      rcases hwaits with hblocked | hmark
      · exact (hstates t (schedule_blocked hrun hblocked)).2 e he hdue ht
      · refine hsettled t ?_ hmark
        exact List.mem_map.mpr ⟨e, List.mem_filter.mpr ⟨he, decide_eq_true hdue⟩, ht⟩
  rcases h.wakeable t hbefore with (hwait | ⟨e, he, ht⟩) | hwoken
  · exact Or.inl (Or.inl hwait)
  · exact Or.inl (Or.inr ⟨e, hentries e he ht, ht⟩)
  · exact Or.inr hwoken

theorem step_inv (h : w.Inv) (hnext : NextSettled w w') : w'.Inv := by
  rcases hnext with ⟨a, hsettled, hstep⟩
  unfold step at hstep
  split at hstep
  · cases hstep
  next cur hcur =>
  cases a with
  | call c =>
    simp only at hstep
    split at hstep
    · cases hstep
      exact enter_inv h
    · cases hstep
  | irq port msg =>
    cases hstep
    exact enter_inv h
  | go fuel =>
    simp only at hstep
    split at hstep
    · cases hstep
    next sec rest htodo =>
    rcases Option.map_eq_some_iff.mp hstep with ⟨s, hrun, rfl⟩
    refine go_inv h hcur htodo ?_ hrun
    intro t ht
    apply hsettled t
    simp [woken, hcur, htodo, ht]
  | timer fuel =>
    simp only at hstep
    split at hstep
    · cases hstep
    next timer s htick =>
    rcases Option.map_eq_some_iff.mp hstep with ⟨s', hrun, rfl⟩
    exact timer_inv h hsettled htick hrun

/-- In every run in which no thread is unblocked between publishing its node and
marking itself, every blocked thread can still be woken. -/
theorem noLostWakeup_of_settled (h : Reachable Init NextSettled w) : w.NoLostWakeup := by
  have hinv : w.Inv := h.invariant (fun _ => init_inv) fun _ _ hnext hinv => step_inv hinv hnext
  intro t hblocked
  exact hinv.wakeable t (Or.inl hblocked)

/-- Thread 1 runs, thread 2 is ready, 3 is the idle thread. -/
def twoThreads : Waiting where
  sched :=
    { threads := fun t => ⟨0, 0, if t = 1 then .running else .ready, 0, 0, none, none⟩
      currentThread := some 1
      readyQueue := some 2
      idleThreadPtr := some 3
      threadCount := 3
      currentProcess := none
      rsp0 := 0 }
  ipc := ⟨fun _ => ⟨[], []⟩, false, fun _ => ⟨0, fun _ => 0⟩⟩
  timer := ⟨0, []⟩
  todo := fun _ => []

theorem init_twoThreads : Init twoThreads := by
  refine ⟨fun _ => rfl, rfl, fun _ => rfl, ?_⟩
  intro t
  change (if t = 1 then ThreadState.running else ThreadState.ready) ≠ .blocked
  split <;> decide

/-- Thread 1 sends and nobody receives: it sleeps, with its node in the port. -/
theorem noLostWakeup_of_settled_send :
    ∃ w : Waiting, Reachable Init NextSettled w ∧ w.sched.state 1 = .blocked ∧
      w.sched.currentThread = some 2 ∧ w.NoLostWakeup := by
  let msg : IpcMessage := ⟨1, fun _ => 65⟩
  have hnone : ∀ (w : Waiting) (a : Act), w.woken a = [] → w.Settled a := by
    intro w a hwoken t ht
    rw [hwoken] at ht
    cases ht
  have hrun : Reachable Init NextSettled _ :=
    .step (.step (.step (.init init_twoThreads)
      ⟨.call (.send 0 msg msg), hnone _ _ rfl, rfl⟩)
      ⟨.go 0, hnone _ _ rfl, rfl⟩)
      ⟨.go 0, hnone _ _ rfl, rfl⟩
  exact ⟨_, hrun, rfl, rfl, noLostWakeup_of_settled hrun⟩

/-- Thread 1 publishes its node and is preempted; thread 2 takes the message and
unblocks thread 1, which is not blocked; then thread 1 marks itself. -/
theorem send_loses_wakeup : ∃ w : Waiting, Reachable Init Next w ∧ ¬ w.NoLostWakeup := by
  let msg : IpcMessage := ⟨1, fun _ => 65⟩
  have hrun : Reachable Init Next _ :=
    .step (.step (.step (.step (.step (.step (.init init_twoThreads)
      ⟨.call (.send 0 msg msg), rfl⟩)
      ⟨.timer 2, rfl⟩)
      ⟨.call (.recv 0 1), rfl⟩)
      ⟨.go 0, rfl⟩)
      ⟨.timer 2, rfl⟩)
      ⟨.go 0, rfl⟩
  refine ⟨_, hrun, ?_⟩
  intro hnone
  rcases hnone 1 rfl with (⟨p, hwait⟩ | ⟨e, he, -⟩) | ⟨u, hu⟩
  · -- port 0 is empty again, and the others never changed
    cases p with
    | zero => rcases hwait with ⟨n, hn, -⟩ | ⟨n, hn, -⟩ <;> cases hn
    | succ p => rcases hwait with ⟨n, hn, -⟩ | ⟨n, hn, -⟩ <;> cases hn
  · cases he
  · -- thread 1 has its call of schedule left, and nobody else has anything
    rcases u with _ | _ | _ | u
    · cases hu
    · exact absurd hu (by decide)
    · cases hu
    · cases hu

end Runs

end Waiting

end Orchid
