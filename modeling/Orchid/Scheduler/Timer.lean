import Mathlib.Algebra.Group.Nat.Defs
import Orchid.Scheduler.Model

/-! # Sleeping

A model of `kernel/timer.c`. The functions that put the caller to sleep, here
and in `kernel/ipc.c`, first record it under a lock of their own and call
`thread_block` or `thread_unblock` once they have given the lock up; `Tail` is
that second part. `timer_queue` is a list, nearest entry first.
-/

namespace Orchid

open Function

/-- What is left of a call when it has released its lock. -/
inductive Tail where
  | done
  /-- `thread_unblock(t)`. -/
  | wake (t : Tid)
  /-- `thread_block()`. -/
  | sleep
  deriving DecidableEq, Repr

/-- `timer_entry_t`. -/
structure TimerEntry where
  thread : Tid
  deadline : Nat
  deriving DecidableEq, Repr

/-- The static variables of `timer.c`. -/
structure Timer where
  ticks : Nat
  queue : List TimerEntry

/-- The insertion loop of `sleep_until`. -/
def insertEntry (entry : TimerEntry) : List TimerEntry → List TimerEntry
  | [] => [entry]
  | e :: q => if e.deadline < entry.deadline then e :: insertEntry entry q else entry :: e :: q

/-- `sleep_until` up to the release of its lock; `alloc` says whether `kmalloc`
gave it an entry. -/
def sleepUntilLocked (alloc : Bool) (cur : Tid) (tickDeadline : Nat) (timer : Timer) :
    Tail × Timer :=
  if tickDeadline ≤ timer.ticks then (.done, timer) else
  if !alloc then (.done, timer) else
  (.sleep, { timer with queue := insertEntry ⟨cur, tickDeadline⟩ timer.queue })

/-- The loop of `timer_tick`, with the entries it leaves in the queue. -/
def expire (fuel ticks : Nat) : List TimerEntry → Sched → Option (List TimerEntry × Sched)
  | [], s => some ([], s)
  | e :: q, s =>
    if e.deadline ≤ ticks then
      match threadUnblock fuel e.thread s with
      | none => none
      | some s => expire fuel ticks q s
    else (expire fuel ticks q s).map fun (q, s) => (e :: q, s)

/-- `timer_tick`. -/
def timerTick (fuel : Nat) (timer : Timer) (s : Sched) : Option (Timer × Sched) :=
  let ticks := (timer.ticks + 1) % 2 ^ 64
  (expire fuel ticks timer.queue s).map fun (q, s) => (⟨ticks, q⟩, s)

/-- `sleep_until` with an entry: the deadline has passed, or the caller is entered. -/
theorem sleepUntilLocked_cases {cur : Tid} {d : Nat} {timer timer' : Timer} {tail : Tail}
    (h : sleepUntilLocked true cur d timer = (tail, timer')) :
    (d ≤ timer.ticks ∧ tail = .done ∧ timer' = timer) ∨
      (timer.ticks < d ∧ tail = .sleep ∧
        timer' = { timer with queue := insertEntry ⟨cur, d⟩ timer.queue }) := by
  unfold sleepUntilLocked at h
  split at h
  · next hpassed =>
    cases h
    exact Or.inl ⟨hpassed, rfl, rfl⟩
  · next hlate =>
    cases h
    exact Or.inr ⟨Nat.lt_of_not_le hlate, rfl, rfl⟩

theorem timerTick_cases {fuel : Nat} {timer timer' : Timer} {s q : Sched}
    (h : timerTick fuel timer s = some (timer', q)) :
    timer'.ticks = (timer.ticks + 1) % 2 ^ 64 ∧
      expire fuel timer'.ticks timer.queue s = some (timer'.queue, q) := by
  unfold timerTick at h
  rcases Option.map_eq_some_iff.mp h with ⟨⟨queue, s₁⟩, hexpire, heq⟩
  cases heq
  exact ⟨rfl, hexpire⟩

/-- With every deadline ahead the loop does nothing. -/
theorem expire_of_ahead {fuel ticks : Nat} {q : List TimerEntry} {s : Sched}
    (h : ∀ e ∈ q, ticks < e.deadline) : expire fuel ticks q s = some (q, s) := by
  induction q with
  | nil => rfl
  | cons e q ih =>
    unfold expire
    rw [if_neg (Nat.not_le_of_lt (h e List.mem_cons_self)),
      ih fun x hx => h x (List.mem_cons_of_mem e hx)]
    rfl

/-! ## What they do to the states of the threads -/

section States

variable {s s' : Sched} {t u : Tid} {fuel : Nat}

theorem enqueueTail_state (h : enqueueTail fuel t s = some s') : s'.state = s.state := by
  rcases enqueueTail_cases h with rfl | ⟨tail, rfl⟩
  · exact s.setNext_state t none
  · rw [Sched.setNext_state, Sched.setNext_state]

/-- After `thread_unblock` the thread is not blocked, and the others are as they
were. -/
theorem threadUnblock_state (h : threadUnblock fuel t s = some s') :
    s'.state t ≠ .blocked ∧ ∀ u, u ≠ t → s'.state u = s.state u := by
  unfold threadUnblock at h
  split at h
  · rw [enqueueTail_state h, Sched.setState_state]
    refine ⟨?_, fun u hu => update_of_ne hu _ _⟩
    rw [update_self]
    decide
  · next hstate =>
    cases h
    exact ⟨hstate, fun _ _ => rfl⟩

theorem threadUnblock_blocked (h : threadUnblock fuel t s = some s') (hu : s'.state u = .blocked) :
    s.state u = .blocked ∧ u ≠ t := by
  rcases threadUnblock_state h with ⟨hself, hothers⟩
  by_cases hut : u = t
  · rw [hut] at hu
    exact absurd hu hself
  · rw [hothers u hut] at hu
    exact ⟨hu, hut⟩

/-- `schedule` blocks nobody. -/
theorem schedule_blocked (h : schedule fuel s = some s') (hu : s'.state u = .blocked) :
    s.state u = .blocked := by
  unfold schedule at h
  split at h
  · cases h
    exact hu
  next cur hcur =>
  split at h
  · cases h
  next s₁ hrequeue =>
  rcases Option.map_eq_some_iff.mp h with ⟨n, -, rfl⟩
  have hpick : (pickNext s).2.state = s.state := by
    unfold pickNext
    split <;> rfl
  -- the thread dispatched runs
  have hdispatch : (dispatch n s₁).state = update s₁.state n .running :=
    Sched.setState_state s₁ n .running
  rw [hdispatch, update_apply] at hu
  split at hu
  · cases hu
  -- the thread put back is ready
  unfold requeueCurrent at hrequeue
  split at hrequeue
  · rw [enqueueTail_state hrequeue, Sched.setState_state, update_apply] at hu
    split at hu
    · cases hu
    · rw [← hpick]
      exact hu
  · cases hrequeue
    rw [← hpick]
    exact hu

/-- The first entry is due and its thread is woken, or it stays where it is. -/
theorem expire_cons {ticks : Nat} {e : TimerEntry} {q q' : List TimerEntry}
    (h : expire fuel ticks (e :: q) s = some (q', s')) :
    (e.deadline ≤ ticks ∧ ∃ s₁, threadUnblock fuel e.thread s = some s₁ ∧
      expire fuel ticks q s₁ = some (q', s')) ∨
    (¬ e.deadline ≤ ticks ∧ ∃ q₁, q' = e :: q₁ ∧ expire fuel ticks q s = some (q₁, s')) := by
  unfold expire at h
  split at h
  · next hdue =>
    split at h
    · cases h
    next s₁ hunblock => exact Or.inl ⟨hdue, s₁, hunblock, h⟩
  · next hdue =>
    rcases Option.map_eq_some_iff.mp h with ⟨⟨q₁, s₁⟩, hrest, heq⟩
    cases heq
    exact Or.inr ⟨hdue, q₁, rfl, hrest⟩

/-- A tick wakes the threads whose entries it removes. -/
theorem expire_spec {ticks : Nat} {q q' : List TimerEntry} (h : expire fuel ticks q s = some (q', s')) :
    (∀ e ∈ q, e ∈ q' ∨ e.deadline ≤ ticks) ∧
      ∀ u, s'.state u = .blocked → s.state u = .blocked ∧
        ∀ e ∈ q, e.deadline ≤ ticks → e.thread ≠ u := by
  induction q generalizing s q' with
  | nil =>
    cases h
    simp
  | cons e q ih =>
    rcases expire_cons h with ⟨hdue, s₁, hunblock, hrest⟩ | ⟨hdue, q₁, rfl, hrest⟩
    · rcases ih hrest with ⟨hkept, hstates⟩
      constructor
      · intro e' he'
        rcases List.mem_cons.mp he' with rfl | he'
        · exact Or.inr hdue
        · exact hkept e' he'
      · intro u hu
        rcases hstates u hu with ⟨hblocked, hothers⟩
        rcases threadUnblock_blocked hunblock hblocked with ⟨hold, hne⟩
        refine ⟨hold, fun e' he' hdue' => ?_⟩
        rcases List.mem_cons.mp he' with rfl | he'
        · exact hne.symm
        · exact hothers e' he' hdue'
    · rcases ih hrest with ⟨hkept, hstates⟩
      constructor
      · intro e' he'
        rcases List.mem_cons.mp he' with rfl | he'
        · exact Or.inl List.mem_cons_self
        · exact (hkept e' he').imp_left (List.mem_cons_of_mem e)
      · intro u hu
        rcases hstates u hu with ⟨hold, hothers⟩
        refine ⟨hold, fun e' he' hdue' => ?_⟩
        rcases List.mem_cons.mp he' with rfl | he'
        · exact absurd hdue' hdue
        · exact hothers e' he' hdue'

/-- A thread none of whose entries is due is not touched. -/
theorem expire_state {ticks : Nat} {q q' : List TimerEntry}
    (h : expire fuel ticks q s = some (q', s'))
    (hu : ∀ e ∈ q, e.deadline ≤ ticks → e.thread ≠ u) : s'.state u = s.state u := by
  induction q generalizing s q' with
  | nil =>
    cases h
    rfl
  | cons e q ih =>
    have hrest : ∀ e ∈ q, e.deadline ≤ ticks → e.thread ≠ u := fun x hx =>
      hu x (List.mem_cons_of_mem e hx)
    rcases expire_cons h with ⟨hdue, s₁, hunblock, hexpire⟩ | ⟨-, q₁, -, hexpire⟩
    · rw [ih hexpire hrest]
      exact (threadUnblock_state hunblock).2 u (hu e List.mem_cons_self hdue).symm
    · exact ih hexpire hrest

theorem mem_insertEntry {entry e : TimerEntry} {q : List TimerEntry} :
    e ∈ insertEntry entry q ↔ e = entry ∨ e ∈ q := by
  induction q with
  | nil => simp [insertEntry]
  | cons x q ih =>
    unfold insertEntry
    split
    · rw [List.mem_cons, ih, List.mem_cons]
      tauto
    · rw [List.mem_cons]

end States

end Orchid
