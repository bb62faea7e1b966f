import Orchid.Ipc.Order

/-! # Sleeping threads

`sleep_until` enters the caller into `timer_queue` and blocks it, and `timer_tick`
wakes the threads whose deadline has come. The machine interleaves both with the
calls of `kernel/ipc.c` and of the scheduler; a call is one step with its
blocking, and `kmalloc` gives `sleep_until` an entry.

A blocked thread has one node of a port or one entry of the queue, so nothing but
a tick wakes a thread that sleeps (`timerQueue_ok`).
-/

namespace Orchid

open Machine Ledger Function

/-! ## The machine -/

structure Timed where
  sched : Sched
  threads : Set Tid
  ipc : Ipc
  timer : Timer
  /-- The deadline of a thread that has been blocked since it called `sleep_until`. -/
  asleep : Tid → Option Nat

/-- Who makes a call: the current thread, or an interrupt. -/
def PortCall.caller : PortCall → Option Tid
  | .send _ cur _ _ => some cur
  | .kernelSend _ _ => none
  | .recv _ cur _ _ => some cur

inductive TimedOp where
  | port (fuel : Nat) (c : PortCall)
  | sleepUntil (fuel : Nat) (cur : Tid) (tickDeadline : Nat)
  | timerTick (fuel : Nat)
  | schedule (fuel : Nat)
  | threadCreate (t : Tid) (stack cr3 : Nat) (proc : Option ProcPtr)
  | threadExit (fuel : Nat) (cur : Tid)

namespace Timed

/-- The thread calls from its own code; the idle thread calls nothing. -/
def Calls (w : Timed) (cur : Tid) : Prop :=
  w.sched.currentThread = some cur ∧ w.sched.idleThreadPtr ≠ some cur

/-- Who sleeps, when the scheduler has gone on to `s`. -/
def stillAsleep (w : Timed) (s : Sched) (t : Tid) : Option Nat :=
  if s.state t = .blocked then w.asleep t else none

/-- A step. The ticks do not wrap. -/
def Does (w w' : Timed) : TimedOp → Prop
  | .port fuel c => (∀ cur, c.caller = some cur → w.Calls cur) ∧
      ∃ s, (c.run 0 w.ipc).1.run fuel w.sched = some s ∧
        w' = { w with sched := s, ipc := (c.run 0 w.ipc).2, asleep := w.stillAsleep s }
  | .sleepUntil fuel cur tickDeadline => w.Calls cur ∧
      ∃ tail timer s, sleepUntilLocked true cur tickDeadline w.timer = (tail, timer) ∧
        tail.run fuel w.sched = some s ∧
        w' = { w with
          sched := s
          timer := timer
          asleep := if tail = .sleep then
              update (w.stillAsleep s) cur (some tickDeadline)
            else w.stillAsleep s }
  | .timerTick fuel => w.timer.ticks + 1 < 2 ^ 64 ∧
      ∃ timer s, Orchid.timerTick fuel w.timer w.sched = some (timer, s) ∧
        w' = { w with sched := s, timer := timer, asleep := w.stillAsleep s }
  | .schedule fuel => ∃ s, Orchid.schedule fuel w.sched = some s ∧
      w' = { w with sched := s, asleep := w.stillAsleep s }
  | .threadCreate t stack cr3 proc => t ∉ w.threads ∧
      w' = { w with
        sched := Orchid.threadCreate t stack cr3 proc w.sched
        threads := insert t w.threads
        asleep := w.stillAsleep (Orchid.threadCreate t stack cr3 proc w.sched) }
  | .threadExit fuel cur => w.Calls cur ∧
      ∃ s, Orchid.schedule fuel (threadExitMark w.sched) = some s ∧
        w' = { w with sched := s, asleep := w.stillAsleep s }

/-- Any threads, none of them blocked, empty ports and no entries. -/
def Init : StatePred Timed := fun w =>
  Steady w.sched w.threads ∧ (∀ t ∈ w.threads, w.sched.state t ≠ .blocked) ∧
  (∀ p, w.ipc.ports p = ⟨[], []⟩) ∧ w.timer.queue = [] ∧ ∀ t, w.asleep t = none

def Next : Action Timed := fun w w' => ∃ op, w.Does w' op

/-- `timer_queue` in order. -/
structure QueueOk (w : Timed) : Prop where
  sorted : w.timer.queue.Pairwise fun e e' => e.deadline ≤ e'.deadline
  ahead : ∀ e ∈ w.timer.queue, w.timer.ticks < e.deadline
  /-- A sleeping thread is blocked and has one entry. -/
  sleeper : ∀ t d, w.asleep t = some d → w.sched.state t = .blocked ∧
    w.timer.queue.filter (·.thread = t) = [⟨t, d⟩]
  /-- Every entry is that of a sleeping thread. -/
  entry : ∀ e ∈ w.timer.queue, w.asleep e.thread = some e.deadline

end Timed

/-! ## The loops of `timer.c` -/

section Loops

variable {s s' : Sched} {threads : Set Tid} {others : List Tid} {q q' : List TimerEntry}
  {entry : TimerEntry} {fuel ticks : Nat}

theorem insertEntry_perm (entry : TimerEntry) (q : List TimerEntry) :
    (insertEntry entry q).Perm (entry :: q) := by
  induction q with
  | nil => exact List.Perm.refl _
  | cons e q ih =>
    unfold insertEntry
    split
    · exact (ih.cons e).trans (List.Perm.swap entry e q)
    · exact List.Perm.refl _

theorem insertEntry_sorted (hq : q.Pairwise fun e e' => e.deadline ≤ e'.deadline) :
    (insertEntry entry q).Pairwise fun e e' => e.deadline ≤ e'.deadline := by
  induction q with
  | nil => exact List.pairwise_singleton _ _
  | cons e q ih =>
    rcases List.pairwise_cons.mp hq with ⟨hhead, htail⟩
    unfold insertEntry
    split
    · next hlt =>
      refine List.pairwise_cons.mpr ⟨?_, ih htail⟩
      intro e' he'
      rcases mem_insertEntry.mp he' with rfl | he'
      · exact hlt.le
      · exact hhead e' he'
    · next hge =>
      refine List.pairwise_cons.mpr ⟨?_, hq⟩
      intro e' he'
      rcases List.mem_cons.mp he' with rfl | he'
      · exact Nat.le_of_not_lt hge
      · exact (Nat.le_of_not_lt hge).trans (hhead e' he')

/-- The entries that are left. -/
theorem expire_queue (h : expire fuel ticks q s = some (q', s')) :
    q' = q.filter (ticks < ·.deadline) := by
  induction q generalizing s q' with
  | nil =>
    cases h
    rfl
  | cons e q ih =>
    rcases expire_cons h with ⟨hdue, s₁, -, hrest⟩ | ⟨hdue, q₁, rfl, hrest⟩
    · rw [List.filter_cons_of_neg (by simpa using hdue)]
      exact ih hrest
    · rw [List.filter_cons_of_pos (by simpa using hdue), ih hrest]

theorem threadUnblock_ready {t : Tid} (h : threadUnblock fuel t s = some s')
    (ht : s.state t = .blocked) : s'.state t = .ready := by
  unfold threadUnblock at h
  rw [if_pos ht] at h
  rw [enqueueTail_state h, Sched.setState_state, update_self]

/-- The threads of the other entries are ready, and nothing else has changed. -/
theorem expire_seats (hs : Seats s threads (others ++ q.map (·.thread)))
    (h : expire fuel ticks q s = some (q', s')) :
    Seats s' threads (others ++ q'.map (·.thread)) ∧
      (∀ e ∈ q, e.deadline ≤ ticks → s'.state e.thread = .ready) ∧
      ∀ u, (∀ e ∈ q, e.deadline ≤ ticks → e.thread ≠ u) → s'.state u = s.state u := by
  suffices hwoken : Seats s' threads (others ++ q'.map (·.thread)) ∧
      ∀ e ∈ q, e.deadline ≤ ticks → s'.state e.thread = .ready from
    ⟨hwoken.1, hwoken.2, fun u => expire_state h⟩
  induction q generalizing s q' others with
  | nil =>
    cases h
    exact ⟨hs, nofun⟩
  | cons e q ih =>
    rcases expire_cons h with ⟨hdue, s₁, hunblock, hrest⟩ | ⟨hdue, q₁, rfl, hrest⟩
    · have hfirst : s.state e.thread = .blocked :=
        ((hs.blocked e.thread).mp (List.mem_append_right _ List.mem_cons_self)).2
      have hperm : (others ++ (e :: q).map (·.thread)).Perm
          (e.thread :: (others ++ q.map (·.thread))) := List.perm_middle
      have hout := (List.nodup_cons.mp (hperm.nodup_iff.mp hs.nodup)).1
      rcases ih (hs.take hperm hunblock) hrest with ⟨hseats, hwoken⟩
      refine ⟨hseats, fun e' he' hdue' => ?_⟩
      rcases List.mem_cons.mp he' with rfl | he'
      · -- no later entry is of the same thread
        rw [expire_state hrest, threadUnblock_ready hunblock hfirst]
        intro x hx _ heq
        apply hout
        exact List.mem_append_right _ (List.mem_map.mpr ⟨x, hx, heq⟩)
      · exact hwoken e' he' hdue'
    · -- the entry stays, like those of the other threads
      have hsame : ∀ l : List TimerEntry, others ++ (e :: l).map (·.thread) =
          others ++ [e.thread] ++ l.map (·.thread) := by simp
      rw [hsame] at hs
      rcases ih hs hrest with ⟨hseats, hwoken⟩
      refine ⟨by rw [hsame]; exact hseats, fun e' he' hdue' => ?_⟩
      rcases List.mem_cons.mp he' with rfl | he'
      · exact absurd hdue' hdue
      · exact hwoken e' he' hdue'

/-- The loop comes to its end. -/
theorem expire_returns {idle cur : Tid} {l : List Tid} (hs : WellQueued s threads idle cur l)
    (hq : ∀ e ∈ q, e.thread ∈ threads) (hfuel : l.length + q.length ≤ fuel) :
    ∃ r, expire fuel ticks q s = some r := by
  induction q generalizing s l with
  | nil => exact ⟨_, rfl⟩
  | cons e q ih =>
    rw [List.length_cons] at hfuel
    have hrest : ∀ x ∈ q, x.thread ∈ threads := fun x hx => hq x (List.mem_cons_of_mem e hx)
    unfold expire
    split
    · have hlen : l.length ≤ fuel := by omega
      rcases threadUnblock_returns hs.queue hs.notMem_of_blocked hlen with ⟨s₁, hunblock⟩
      rcases hs.threadUnblock (hq e List.mem_cons_self) hunblock with ⟨l₁, hs₁⟩
      -- the run queue is longer by one thread at most
      have hlength : l₁.length ≤ l.length + 1 := by
        rcases threadUnblock_spec hs.queue hs.notMem_of_blocked hunblock with
          ⟨-, rfl⟩ | ⟨-, hqueue, -⟩
        · rw [LinkedList.Chain.unique hs₁.queue hs.queue]
          exact Nat.le_succ _
        · rw [LinkedList.Chain.unique hs₁.queue hqueue]
          simp
      rw [hunblock]
      exact ih hs₁ hrest (by omega)
    · rcases ih hs hrest (by omega) with ⟨r, hr⟩
      rw [hr]
      exact ⟨_, rfl⟩

end Loops

/-! ## Calls on ports -/

/-- What a call does to the threads with a node: the one it wakes has had a node, and the
caller has one if it blocks. -/
theorem PortCall.run_waiters {s : Ipc} (call : Nat) (c : PortCall) (h : s.Blank) :
    ((c.run call s).1 = .done ∧ gather maxPorts (c.run call s).2.waitersAt = gather maxPorts s.waitersAt) ∨
    (∃ t, (c.run call s).1 = .wake t ∧
      (gather maxPorts s.waitersAt).Perm (t :: gather maxPorts (c.run call s).2.waitersAt)) ∨
    ∃ cur, c.caller = some cur ∧ (c.run call s).1 = .sleep ∧
      (gather maxPorts (c.run call s).2.waitersAt).Perm (cur :: gather maxPorts s.waitersAt) := by
  have houtcome : c.Outcome call s (c.run call s).1 (c.run call s).2 := c.outcome h
  generalize (c.run call s).1 = tail, (c.run call s).2 = s' at houtcome
  cases houtcome with
  | nothing hports _ =>
    refine Or.inl ⟨rfl, gather_congr fun p _ => ?_⟩
    simp only [Ipc.waitersAt, hports]
  | serve hport hserves =>
    rcases hserves with ⟨hrecvers, hchanges, -⟩
    refine Or.inr (Or.inl ⟨_, rfl, gather_push hport (fun p hp => (hchanges.waitersAt hp).symm) ?_⟩)
    simp only [Ipc.waitersAt, hchanges.self, hrecvers, List.map_cons]
    exact List.perm_middle
  | @post _ _ cur port _ hport hrecvers hchanges =>
    refine Or.inr (Or.inr ⟨cur, rfl, rfl, gather_push hport (fun p => hchanges.waitersAt) ?_⟩)
    simp only [Ipc.waitersAt, hchanges.self, hrecvers, List.map_cons, List.cons_append]
    exact List.Perm.refl _
  | collect hport hsenders hchanges =>
    refine Or.inr (Or.inl ⟨_, rfl, gather_push hport (fun p hp => (hchanges.waitersAt hp).symm) ?_⟩)
    simp only [Ipc.waitersAt, hchanges.self, hsenders, List.map_cons, List.cons_append]
    exact List.Perm.refl _
  | @ask cur port _ _ hport hsenders hchanges =>
    refine Or.inr (Or.inr ⟨cur, rfl, rfl, gather_push hport (fun p => hchanges.waitersAt) ?_⟩)
    simp only [Ipc.waitersAt, hchanges.self, hsenders, List.map_cons, List.map_nil, List.nil_append]
    exact List.Perm.refl _

/-! ## The invariant -/

namespace Timed

variable {w w' : Timed} {op : TimedOp}

/-- The threads that wait in a port, and those that sleep. -/
def seats (w : Timed) : List Tid :=
  gather maxPorts w.ipc.waitersAt ++ w.timer.queue.map (·.thread)

structure Inv (w : Timed) : Prop where
  seats : Seats w.sched w.threads w.seats
  blank : w.ipc.Blank
  sorted : w.timer.queue.Pairwise fun e e' => e.deadline ≤ e'.deadline
  ahead : ∀ e ∈ w.timer.queue, w.timer.ticks < e.deadline
  asleep : ∀ t d, w.asleep t = some d ↔ ⟨t, d⟩ ∈ w.timer.queue

theorem Init.inv (h : Init w) : w.Inv := by
  rcases h with ⟨hsteady, hawake, hports, hqueue, hasleep⟩
  have hnobody : w.seats = [] := by
    simp only [Timed.seats, Ipc.waiters_nil hports, hqueue, List.map_nil, List.append_nil]
  constructor
  · rw [hnobody]
    refine ⟨hsteady, List.nodup_nil, fun t => ?_⟩
    constructor
    · intro ht
      cases ht
    · intro ht
      exact absurd ht.2 (hawake t ht.1)
  · exact fun _ => hports
  · rw [hqueue]
    exact .nil
  · rw [hqueue]
    exact nofun
  · intro t d
    rw [hasleep, hqueue]
    constructor
    · intro hnone
      cases hnone
    · intro hmem
      cases hmem

theorem Inv.blocked (h : w.Inv) {e : TimerEntry} (he : e ∈ w.timer.queue) :
    e.thread ∈ w.threads ∧ w.sched.state e.thread = .blocked :=
  (h.seats.blocked e.thread).mp (List.mem_append_right _ (List.mem_map_of_mem he))

/-- Who sleeps after a step is who slept before and is still blocked. -/
theorem stillAsleep_iff {s : Sched} {queue : List TimerEntry} (h : w.Inv)
    (hqueue : ∀ e, e ∈ queue ↔ e ∈ w.timer.queue ∧ s.state e.thread = .blocked) (t : Tid) (d : Nat) :
    w.stillAsleep s t = some d ↔ ⟨t, d⟩ ∈ queue := by
  unfold stillAsleep
  rw [hqueue]
  split
  · next hb =>
    rw [h.asleep]
    exact ⟨fun hmem => ⟨hmem, hb⟩, fun hmem => hmem.1⟩
  · next hb =>
    constructor
    · intro hnone
      cases hnone
    · intro hmem
      exact absurd hmem.2 hb

/-- A step that leaves the timer alone. -/
theorem Inv.elsewhere {s : Sched} {threads : Set Tid} {ipc : Ipc} (h : w.Inv)
    (hseats : Seats s threads (gather maxPorts ipc.waitersAt ++ w.timer.queue.map (·.thread)))
    (hblank : ipc.Blank) :
    Inv { w with sched := s, threads := threads, ipc := ipc, asleep := w.stillAsleep s } where
  seats := hseats
  blank := hblank
  sorted := h.sorted
  ahead := h.ahead
  asleep := by
    apply stillAsleep_iff h
    intro e
    constructor
    · intro he
      refine ⟨he, ((hseats.blocked e.thread).mp ?_).2⟩
      exact List.mem_append_right _ (List.mem_map_of_mem he)
    · exact fun he => he.1

theorem Inv.port {fuel : Nat} {c : PortCall} (h : w.Inv) (hstep : w.Does w' (.port fuel c)) :
    w'.Inv := by
  rcases hstep with ⟨hcaller, s, hrun, rfl⟩
  have hblank : (c.run 0 w.ipc).2.Blank := (c.run_shift h.blank).1
  rcases c.run_waiters 0 h.blank with ⟨htail, hsame⟩ | ⟨t, htail, hperm⟩ | ⟨cur, hcur, htail, hperm⟩
  · rw [htail] at hrun
    cases hrun
    refine h.elsewhere ?_ hblank
    rw [hsame]
    exact h.seats
  · rw [htail] at hrun
    exact h.elsewhere (h.seats.take (hperm.append_right _) hrun) hblank
  · rw [htail] at hrun
    rcases hcaller cur hcur with ⟨hcurrent, hidle⟩
    exact h.elsewhere (h.seats.sleep hcurrent hidle (hperm.append_right _) hrun) hblank

/-- The caller of `sleep_until` gets an entry and blocks, unless the deadline has passed. -/
theorem Inv.sleepUntil {fuel d : Nat} {cur : Tid} (h : w.Inv)
    (hstep : w.Does w' (.sleepUntil fuel cur d)) : w'.Inv := by
  rcases hstep with ⟨⟨hcur, hidle⟩, tail, timer, s, hlocked, hrun, rfl⟩
  rcases sleepUntilLocked_cases hlocked with ⟨-, rfl, rfl⟩ | ⟨hlate, rfl, rfl⟩
  · -- the deadline has passed
    cases hrun
    exact h.elsewhere h.seats h.blank
  · have hperm := insertEntry_perm ⟨cur, d⟩ w.timer.queue
    have hseats : Seats s w.threads (gather maxPorts w.ipc.waitersAt ++
        (insertEntry ⟨cur, d⟩ w.timer.queue).map (·.thread)) := by
      apply h.seats.sleep hcur hidle _ hrun
      exact ((hperm.map _).append_left _).trans List.perm_middle
    have hawake : w.sched.state cur ≠ .blocked :=
      (steady_block h.seats.steady hcur hidle hrun).2.1
    constructor
    · exact hseats
    · exact h.blank
    · exact insertEntry_sorted h.sorted
    · intro e he
      rcases mem_insertEntry.mp he with rfl | he
      · exact hlate
      · exact h.ahead e he
    · intro t e
      show (if Tail.sleep = .sleep then update (w.stillAsleep s) cur (some d)
        else w.stillAsleep s) t = some e ↔ _
      rw [if_pos rfl, mem_insertEntry]
      by_cases ht : t = cur
      · -- it had no entry before
        subst ht
        rw [update_self]
        constructor
        · intro heq
          cases heq
          exact Or.inl rfl
        · rintro (heq | hmem)
          · cases heq
            rfl
          · exact absurd (h.blocked hmem).2 hawake
      · rw [update_of_ne ht, stillAsleep_iff h]
        · constructor
          · exact Or.inr
          · rintro (heq | hmem)
            · cases heq
              exact absurd rfl ht
            · exact hmem
        · intro x
          constructor
          · intro hx
            refine ⟨hx, ((hseats.blocked x.thread).mp (List.mem_append_right _ ?_)).2⟩
            exact List.mem_map_of_mem (mem_insertEntry.mpr (Or.inr hx))
          · exact fun hx => hx.1

/-- What a tick does. -/
structure Ticked (w w' : Timed) : Prop where
  ticks : w'.timer.ticks = w.timer.ticks + 1
  queue : w'.timer.queue = w.timer.queue.filter (w.timer.ticks + 1 < ·.deadline)
  woken : ∀ e ∈ w.timer.queue, e.deadline ≤ w.timer.ticks + 1 → w'.sched.state e.thread = .ready
  kept : ∀ t, (∀ e ∈ w.timer.queue, e.deadline ≤ w.timer.ticks + 1 → e.thread ≠ t) →
    w'.sched.state t = w.sched.state t

theorem Inv.timerTick {fuel : Nat} (h : w.Inv) (hstep : w.Does w' (.timerTick fuel)) :
    w'.Inv ∧ Ticked w w' := by
  rcases hstep with ⟨hwrap, ⟨ticks, queue⟩, s, htick, rfl⟩
  rcases timerTick_cases htick with ⟨rfl, hexpire⟩
  simp only [Nat.mod_eq_of_lt hwrap] at hexpire
  rcases expire_seats h.seats hexpire with ⟨hseats, hwoken, hkept⟩
  have hqueue := expire_queue hexpire
  have hticked : Ticked w { w with
      sched := s
      timer := ⟨(w.timer.ticks + 1) % 2 ^ 64, queue⟩
      asleep := w.stillAsleep s } := by
    constructor
    · exact Nat.mod_eq_of_lt hwrap
    · exact hqueue
    · exact hwoken
    · exact hkept
  refine ⟨?_, hticked⟩
  constructor
  · exact hseats
  · exact h.blank
  · show queue.Pairwise _
    rw [hqueue]
    exact h.sorted.filter _
  · intro e he
    show (w.timer.ticks + 1) % 2 ^ 64 < e.deadline
    change e ∈ queue at he
    rw [hqueue, List.mem_filter] at he
    rw [Nat.mod_eq_of_lt hwrap]
    exact of_decide_eq_true he.2
  · apply stillAsleep_iff h
    intro e
    show e ∈ queue ↔ _
    constructor
    · intro he
      refine ⟨?_, ((hseats.blocked e.thread).mp ?_).2⟩
      · rw [hqueue] at he
        exact (List.mem_filter.mp he).1
      · exact List.mem_append_right _ (List.mem_map_of_mem he)
    · -- a thread that is still blocked was not woken
      rintro ⟨he, hb⟩
      rw [hqueue]
      refine List.mem_filter.mpr ⟨he, decide_eq_true ?_⟩
      apply Nat.lt_of_not_le
      intro hdue
      rw [hwoken e he hdue] at hb
      cases hb

theorem Inv.step (h : w.Inv) (hstep : w.Does w' op) : w'.Inv := by
  cases op with
  | port fuel c => exact h.port hstep
  | sleepUntil fuel cur d => exact h.sleepUntil hstep
  | timerTick fuel => exact (h.timerTick hstep).1
  | schedule fuel =>
    rcases hstep with ⟨s, hret, rfl⟩
    rcases h.seats.steady with ⟨idle, cur, l, hqueued, -⟩
    rcases steady_schedule hqueued hret with ⟨hsteady, hblocked⟩
    exact h.elsewhere (h.seats.move hsteady hblocked) h.blank
  | threadCreate t stack cr3 proc =>
    rcases hstep with ⟨ht, rfl⟩
    exact h.elsewhere (h.seats.create ht) h.blank
  | threadExit fuel cur =>
    rcases hstep with ⟨⟨hcur, hidle⟩, s, hret, rfl⟩
    rcases steady_exit h.seats.steady hcur hidle hret with ⟨hsteady, hblocked⟩
    exact h.elsewhere (h.seats.move hsteady hblocked) h.blank

/-- Only a tick removes entries. -/
theorem Does.mem_queue (hstep : w.Does w' op) (hop : ∀ fuel, op ≠ .timerTick fuel)
    {e : TimerEntry} (he : e ∈ w.timer.queue) : e ∈ w'.timer.queue := by
  cases op with
  | port fuel c =>
    rcases hstep with ⟨-, s, -, rfl⟩
    exact he
  | sleepUntil fuel cur d =>
    rcases hstep with ⟨-, tail, timer, s, hlocked, -, rfl⟩
    rcases sleepUntilLocked_cases hlocked with ⟨-, -, rfl⟩ | ⟨-, -, rfl⟩
    · exact he
    · exact mem_insertEntry.mpr (Or.inr he)
  | timerTick fuel => exact absurd rfl (hop fuel)
  | schedule fuel =>
    rcases hstep with ⟨s, -, rfl⟩
    exact he
  | threadCreate t stack cr3 proc =>
    rcases hstep with ⟨-, rfl⟩
    exact he
  | threadExit fuel cur =>
    rcases hstep with ⟨-, s, -, rfl⟩
    exact he

theorem Inv.queueOk (h : w.Inv) : w.QueueOk where
  sorted := h.sorted
  ahead := h.ahead
  sleeper := by
    intro t d ht
    have hmem : ⟨t, d⟩ ∈ w.timer.queue := (h.asleep t d).mp ht
    refine ⟨(h.blocked hmem).2, ?_⟩
    have hnodup : (w.timer.queue.map (·.thread)).Nodup := (List.nodup_append.mp h.seats.nodup).2.1
    rcases List.append_of_mem hmem with ⟨a, b, hqueue⟩
    rw [hqueue, List.map_append, List.map_cons, List.nodup_middle, List.nodup_cons] at hnodup
    -- the entries before and behind it are of other threads
    have hothers : ∀ e ∈ a ++ b, ¬ e.thread = t := by
      intro e he heq
      apply hnodup.1
      rw [← List.map_append]
      exact List.mem_map.mpr ⟨e, he, heq⟩
    have hnone : ∀ l : List TimerEntry, (∀ e ∈ l, e ∈ a ++ b) → l.filter (·.thread = t) = [] := by
      intro l hl
      apply List.filter_eq_nil_iff.mpr
      intro e he
      simpa using hothers e (hl e he)
    rw [hqueue, List.filter_append, List.filter_cons_of_pos (by simp),
      hnone a fun e he => List.mem_append_left _ he, hnone b fun e he => List.mem_append_right _ he]
    rfl
  entry := fun e he => (h.asleep e.thread e.deadline).mpr he

/-- A thread that sleeps goes on sleeping, or its deadline has come with this very step. -/
theorem Inv.sleeper_step (h : w.Inv) (hstep : w.Does w' op) {t : Tid} {d : Nat}
    (ht : w.asleep t = some d) :
    (w'.sched.state t = .blocked ∧ w'.asleep t = some d ∧ w'.timer.ticks < d) ∨
      (w'.sched.state t = .ready ∧ w'.timer.ticks = d ∧ ∃ fuel, op = .timerTick fuel) := by
  have hmem : ⟨t, d⟩ ∈ w.timer.queue := (h.asleep t d).mp ht
  have h' := h.step hstep
  have hstays : ⟨t, d⟩ ∈ w'.timer.queue →
      w'.sched.state t = .blocked ∧ w'.asleep t = some d ∧ w'.timer.ticks < d := by
    intro hmem'
    exact ⟨(h'.blocked hmem').2, (h'.asleep t d).mpr hmem', h'.ahead _ hmem'⟩
  by_cases hop : ∃ fuel, op = .timerTick fuel
  · rcases hop with ⟨fuel, rfl⟩
    have hticked := (h.timerTick hstep).2
    have hahead := h.ahead _ hmem
    by_cases hdue : d ≤ w.timer.ticks + 1
    · right
      refine ⟨hticked.woken _ hmem hdue, ?_, fuel, rfl⟩
      rw [hticked.ticks]
      exact Nat.le_antisymm hahead hdue
    · left
      apply hstays
      rw [hticked.queue]
      exact List.mem_filter.mpr ⟨hmem, decide_eq_true (Nat.lt_of_not_le hdue)⟩
  · left
    apply hstays
    exact Does.mem_queue hstep (fun fuel heq => hop ⟨fuel, heq⟩) hmem

theorem Inv.timerTick_returns (h : w.Inv) (hwrap : w.timer.ticks + 1 < 2 ^ 64) :
    ∃ fuel w', w.Does w' (.timerTick fuel) := by
  rcases h.seats.steady with ⟨idle, cur, l, hqueued, -⟩
  have hmade : ∀ e ∈ w.timer.queue, e.thread ∈ w.threads := fun e he => (h.blocked he).1
  have hreturns : ∃ r, expire (l.length + w.timer.queue.length) ((w.timer.ticks + 1) % 2 ^ 64)
      w.timer.queue w.sched = some r := expire_returns hqueued hmade (Nat.le_refl _)
  rcases hreturns with ⟨⟨queue, s⟩, hexpire⟩
  have htick : Orchid.timerTick (l.length + w.timer.queue.length) w.timer w.sched =
      some (⟨(w.timer.ticks + 1) % 2 ^ 64, queue⟩, s) := by
    unfold Orchid.timerTick
    dsimp only
    rw [hexpire]
    rfl
  exact ⟨_, _, hwrap, _, s, htick, rfl⟩

/-- In every reachable state the queue is sorted, its entries are those of the sleeping
threads and lie ahead; a tick returns, and wakes the threads whose deadline it reaches and
no others; and a thread that sleeps is woken by the first tick that reaches its deadline
and by nothing else. -/
theorem timerQueue_ok (h : Reachable Init Next w) :
    w.QueueOk ∧
    (∀ fuel w', w.Does w' (.timerTick fuel) → Ticked w w') ∧
    (∀ op w', w.Does w' op → ∀ t d, w.asleep t = some d →
      (w'.sched.state t = .blocked ∧ w'.asleep t = some d ∧ w'.timer.ticks < d) ∨
      (w'.sched.state t = .ready ∧ w'.timer.ticks = d ∧ ∃ fuel, op = .timerTick fuel)) ∧
    (w.timer.ticks + 1 < 2 ^ 64 → ∃ fuel w', w.Does w' (.timerTick fuel)) := by
  have hinv : w.Inv := h.invariant (fun _ => Init.inv) fun _ _ ⟨_, hstep⟩ hinv => hinv.step hstep
  refine ⟨hinv.queueOk, ?_, ?_, hinv.timerTick_returns⟩
  · intro fuel w' hstep
    exact (hinv.timerTick hstep).2
  · intro op w' hstep t d ht
    exact hinv.sleeper_step hstep ht

/-- Two threads and idle, before any call. -/
def quietTimed : Timed where
  sched := Rendezvous.quiet.sched
  threads := Rendezvous.quiet.threads
  ipc := Rendezvous.quiet.ipc
  timer := ⟨0, []⟩
  asleep := fun _ => none

theorem init_quietTimed : Init quietTimed := by
  rcases Rendezvous.init_quiet with ⟨hsteady, hawake, hports, -⟩
  exact ⟨hsteady, hawake, hports, rfl, fun _ => rfl⟩

/-- Thread 1 sleeps until tick 1. -/
theorem timerQueue_ok_sleeper : ∃ w : Timed, Reachable Init Next w ∧ w.asleep 1 = some 1 ∧
    w.QueueOk := by
  have hcalls : quietTimed.Calls 1 := ⟨rfl, by decide⟩
  have hrun : ∃ s, Tail.sleep.run 2 quietTimed.sched = some s := ⟨_, rfl⟩
  rcases hrun with ⟨s, hrun⟩
  have hreach := (Reachable.init init_quietTimed : Reachable Init Next quietTimed).step
    ⟨.sleepUntil 2 1 1, hcalls, .sleep, _, s, rfl, hrun, rfl⟩
  exact ⟨_, hreach, rfl, (timerQueue_ok hreach).1⟩

end Timed

end Orchid
