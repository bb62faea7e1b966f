import Mathlib.Data.Set.Insert
import Orchid.Core.Rules
import Orchid.Scheduler.Model

/-! # The run queue over whole runs

`WellQueued` is the invariant of the run queue: a single acyclic list that
holds exactly the ready threads other than the idle one, with at most one
running thread outside of idle. Each scheduler function keeps it.

The second half puts the functions into a machine. A thread calls
`thread_create`, `thread_block`, `thread_unblock`, `thread_exit` or `schedule`
from its own code; between the two locked sections of `thread_block` and
`thread_exit` an interrupt may still call `thread_unblock` and `schedule`, so a
thread can be switched away from in the middle and come back to it. `Pc` records
where each thread stands.
-/

namespace Orchid

open LinkedList Function Relation

/-- The run queue of `s` is `l`; `threads` are the threads made so far. -/
structure WellQueued (s : Sched) (threads : Set Tid) (idle cur : Tid) (l : List Tid) : Prop where
  idlePtr : s.idleThreadPtr = some idle
  current : s.currentThread = some cur
  idle_mem : idle ∈ threads
  cur_mem : cur ∈ threads
  queue : s.Queue l
  mem_iff : ∀ t, t ∈ l ↔ t ∈ threads ∧ t ≠ idle ∧ s.state t = .ready
  running : ∀ t ∈ threads, t ≠ idle → s.state t = .running → t = cur
  idle_awake : s.state idle = .ready ∨ s.state idle = .running

namespace WellQueued

variable {s s' : Sched} {threads : Set Tid} {idle cur t : Tid} {l : List Tid} {fuel : Nat}

theorem notMem_of_state (h : WellQueued s threads idle cur l) (ht : s.state t ≠ .ready) :
    t ∉ l := fun hm => ht ((h.mem_iff t).mp hm).2.2

theorem notMem_of_running (h : WellQueued s threads idle cur l) (ht : s.state t = .running) :
    t ∉ l := by
  apply h.notMem_of_state
  rw [ht]
  simp

theorem notMem_of_blocked (h : WellQueued s threads idle cur l) (ht : s.state t = .blocked) :
    t ∉ l := by
  apply h.notMem_of_state
  rw [ht]
  simp

theorem idle_notMem (h : WellQueued s threads idle cur l) : idle ∉ l :=
  fun hm => ((h.mem_iff idle).mp hm).2.1 rfl

/-- A new thread goes in front of the queue. -/
theorem initThread {words stack cr3 : Nat} {proc : Option ProcPtr}
    (h : WellQueued s threads idle cur l) (ht : t ∉ threads) :
    WellQueued (initThread words t stack cr3 proc s) (insert t threads) idle cur (t :: l) := by
  have hti : t ≠ idle := fun he => ht (he ▸ h.idle_mem)
  obtain ⟨hstate, hnext⟩ := initThread_spec words t stack cr3 proc s
  have htl : t ∉ l := fun hm => ht ((h.mem_iff t).mp hm).1
  refine ⟨h.idlePtr, h.current, Or.inr h.idle_mem, Or.inr h.cur_mem, ?_, ?_, ?_, ?_⟩
  · refine Chain.push h.queue (by simp [hnext]) fun b hb => ?_
    have hbt : b ≠ t := fun he => htl (he ▸ hb)
    simp [hnext, hbt]
  · intro u
    rw [List.mem_cons, h.mem_iff u, hstate]
    by_cases hu : u = t
    · subst hu; simp [hti]
    · simp [hu]
  · intro u hu hui hrun
    rw [hstate] at hrun
    by_cases hut : u = t
    · subst hut; simp at hrun
    · rw [update_of_ne hut] at hrun
      exact h.running u (hu.resolve_left hut) hui hrun
  · rw [hstate, update_of_ne hti.symm]
    exact h.idle_awake

/-- Changing the state of the running thread to one that is not ready takes it
out of the scheduler's hands without touching the queue. -/
theorem leave (v : ThreadState) (h : WellQueued s threads idle cur l) (hcur : cur ≠ idle)
    (hrun : s.state cur = .running) (hv : v ≠ .ready)
    (hq : s'.Queue l) (hstate : s'.state = update s.state cur v)
    (hc : s'.currentThread = s.currentThread) (hi : s'.idleThreadPtr = s.idleThreadPtr) :
    WellQueued s' threads idle cur l := by
  refine ⟨hi.trans h.idlePtr, hc.trans h.current, h.idle_mem, h.cur_mem, hq, ?_, ?_, ?_⟩
  · intro u
    rw [h.mem_iff u, hstate]
    by_cases hu : u = cur
    · subst hu; simp [hrun, hv]
    · simp [hu]
  · intro u hu hui hr
    by_cases huc : u = cur
    · exact huc
    · rw [hstate, update_of_ne huc] at hr
      exact h.running u hu hui hr
  · rw [hstate, update_of_ne hcur.symm]
    exact h.idle_awake

theorem threadBlockMark (h : WellQueued s threads idle cur l) (hcur : cur ≠ idle)
    (hrun : s.state cur = .running) :
    WellQueued (threadBlockMark s) threads idle cur l := by
  have hdef : Orchid.threadBlockMark s = s.setState cur .blocked := by
    simp only [Orchid.threadBlockMark, h.current]
  rw [hdef]
  exact h.leave .blocked hcur hrun (by decide) ((s.queue_setState cur .blocked).mpr h.queue)
    (s.setState_state cur .blocked) rfl rfl

theorem threadExitMark (h : WellQueued s threads idle cur l) (hcur : cur ≠ idle)
    (hrun : s.state cur = .running) :
    WellQueued (threadExitMark s) threads idle cur l := by
  have hdef : Orchid.threadExitMark s = (s.setState cur .exited).setNext cur none := by
    simp only [Orchid.threadExitMark, h.current]
  have hnot : cur ∉ l := h.notMem_of_running hrun
  rw [hdef]
  refine h.leave .exited hcur hrun (by decide) ?_ (by simp) rfl rfl
  -- the thread is on no queue, so clearing its link is harmless
  refine Chain.congr h.queue fun a ha => ?_
  have hac : a ≠ cur := fun he => hnot (he ▸ ha)
  simp [hac]

/-- `thread_unblock`, of any thread made so far. -/
theorem threadUnblock (h : WellQueued s threads idle cur l) (ht : t ∈ threads)
    (hret : threadUnblock fuel t s = some s') :
    ∃ l', WellQueued s' threads idle cur l' := by
  rcases threadUnblock_spec h.queue h.notMem_of_blocked hret with
    ⟨-, rfl⟩ | ⟨hb, hq, hstate, hc, hi⟩
  · exact ⟨l, h⟩
  · have hti : t ≠ idle := by
      rintro rfl
      rcases h.idle_awake with hr | hr <;> rw [hr] at hb <;> cases hb
    refine ⟨l ++ [t], hi.trans h.idlePtr, hc.trans h.current, h.idle_mem, h.cur_mem, hq, ?_, ?_, ?_⟩
    · intro u
      rw [List.mem_append, List.mem_singleton, h.mem_iff u, hstate]
      by_cases hu : u = t
      · subst hu; simp [ht, hti]
      · simp [hu]
    · intro u hu hui hr
      by_cases hut : u = t
      · subst hut; rw [hstate] at hr; simp at hr
      · rw [hstate, update_of_ne hut] at hr
        exact h.running u hu hui hr
    · rw [hstate, update_of_ne hti.symm]
      exact h.idle_awake

/-- The dispatched thread has left the queue. -/
theorem head_notMem_queueAfter (h : WellQueued s threads idle cur l) :
    l.headD idle ∉ queueAfter s cur l := by
  have hnd : l.Nodup := Chain.nodup h.queue
  intro hm
  rcases List.mem_append.mp hm with htail | hlast
  · cases l with
    | nil => simp at htail
    | cons a r => exact (List.nodup_cons.mp hnd).1 htail
  · by_cases hr : Requeues s cur
    · simp only [hr, if_true, List.mem_singleton] at hlast
      cases l with
      | nil => exact hr.2 (by rw [h.idlePtr, ← hlast]; rfl)
      | cons a r => exact h.notMem_of_running hr.1 (by rw [← hlast]; simp)
    · simp [hr] at hlast

/-- Everyone else keeps its place, and the caller possibly gets one. -/
theorem mem_queueAfter (h : WellQueued s threads idle cur l) (ht : t ≠ l.headD idle) :
    t ∈ queueAfter s cur l ↔ t ∈ threads ∧ t ≠ idle ∧ statesRequeued s cur t = .ready := by
  have htail : t ∈ l.tail ↔ t ∈ l := by
    cases l with
    | nil => simp
    | cons a r =>
      have hta : t ≠ a := ht
      simp [hta]
  rw [queueAfter, List.mem_append, htail, h.mem_iff t, statesRequeued]
  by_cases hr : Requeues s cur
  · simp only [hr, if_true, List.mem_singleton]
    by_cases htc : t = cur
    · subst htc
      have hne : t ≠ idle := fun he => hr.2 (by rw [h.idlePtr, he])
      simp [h.cur_mem, hne]
    · simp [htc]
  · simp [hr]

/-- `schedule`, whoever is current and whatever its state. -/
theorem schedule (h : WellQueued s threads idle cur l)
    (hret : schedule fuel s = some s') :
    WellQueued s' threads idle (l.headD idle) (queueAfter s cur l) := by
  obtain ⟨hq, hc, hstate, hi⟩ :=
    schedule_spec h.queue h.current h.idlePtr h.notMem_of_running hret
  have hhead : l.headD idle ∈ threads := by
    cases l with
    | nil => exact h.idle_mem
    | cons a r => exact ((h.mem_iff a).mp (by simp)).1
  refine ⟨hi, hc, h.idle_mem, hhead, hq, ?_, ?_, ?_⟩
  · intro u
    rw [hstate]
    by_cases hu : u = l.headD idle
    · subst hu
      simp only [update_self, reduceCtorEq, and_false, iff_false]
      exact h.head_notMem_queueAfter
    · rw [update_of_ne hu]
      exact h.mem_queueAfter hu
  · intro u hu hui hrun
    by_contra hne
    rw [hstate, update_of_ne hne, statesRequeued] at hrun
    by_cases hr : Requeues s cur
    · simp only [hr, if_true] at hrun
      by_cases huc : u = cur
      · subst huc; simp at hrun
      · rw [update_of_ne huc] at hrun
        exact huc (h.running u hu hui hrun)
    · simp only [hr, if_false] at hrun
      have huc := h.running u hu hui hrun
      subst huc
      exact hr ⟨hrun, by rw [h.idlePtr]; simpa using hui⟩
  · by_cases hidle : idle = l.headD idle
    · rw [hstate, ← hidle, update_self]
      exact Or.inr rfl
    · rw [hstate, update_of_ne hidle, statesRequeued]
      by_cases hr : Requeues s cur
      · have hci : idle ≠ cur := fun he => hr.2 (by rw [h.idlePtr, he])
        simp only [hr, if_true, update_of_ne hci]
        exact h.idle_awake
      · simp only [hr, if_false]
        exact h.idle_awake

end WellQueued

/-! ## The machine -/

/-- Where a thread stands: in its own code, or between the locked section of
`thread_block` / `thread_exit` and the call of `schedule` that follows it. -/
inductive Pc where
  | own
  | inBlock
  | inExit
  deriving DecidableEq, Repr

/-- The scheduler, with the threads made so far, those that have called
`thread_exit`, and where each thread stands. -/
structure RunState where
  sched : Sched
  threads : Set Tid
  exited : Set Tid
  pc : Tid → Pc

/-- The state `scheduler_init` leaves when it runs on zeroed globals, whatever
the memory of the idle thread held before. -/
def RunState.Init (s : RunState) : Prop :=
  ∃ (boot : Sched) (idle : Tid) (stack kernelCr3 : Nat),
    boot.readyQueue = none ∧ boot.currentThread = none ∧ boot.idleThreadPtr = none ∧
    boot.threadCount = 0 ∧
    s = { sched := schedulerInit idle stack kernelCr3 boot
          threads := {idle}
          exited := ∅
          pc := fun _ => .own }

/-- One step: a call by the current thread from its own code, one half of
`thread_block` or `thread_exit`, or `thread_unblock` / `schedule` at any moment.
The idle thread neither blocks nor exits. -/
inductive RunState.Next : RunState → RunState → Prop where
  | threadCreate {s : RunState} {cur t : Tid} (stack cr3 : Nat) (proc : Option ProcPtr) :
      s.sched.currentThread = some cur → s.pc cur = .own → t ∉ s.threads →
      Next s { s with
        sched := threadCreate t stack cr3 proc s.sched
        threads := insert t s.threads
        pc := update s.pc t .own }
  | threadCreateUser {s : RunState} {cur t : Tid} (stack cr3 : Nat) (proc : Option ProcPtr) :
      s.sched.currentThread = some cur → s.pc cur = .own → t ∉ s.threads →
      Next s { s with
        sched := threadCreateUser t stack cr3 proc s.sched
        threads := insert t s.threads
        pc := update s.pc t .own }
  | threadUnblock {s : RunState} {t : Tid} {fuel : Nat} {q : Sched} :
      t ∈ s.threads → threadUnblock fuel t s.sched = some q → Next s { s with sched := q }
  | schedule {s : RunState} {fuel : Nat} {q : Sched} :
      schedule fuel s.sched = some q → Next s { s with sched := q }
  | threadBlock {s : RunState} {cur : Tid} :
      s.sched.currentThread = some cur → s.sched.idleThreadPtr ≠ some cur → s.pc cur = .own →
      Next s { s with
        sched := threadBlockMark s.sched
        pc := update s.pc cur .inBlock }
  | threadBlockReturn {s : RunState} {cur : Tid} {fuel : Nat} {q : Sched} :
      s.sched.currentThread = some cur → s.pc cur = .inBlock →
      Orchid.schedule fuel s.sched = some q →
      Next s { s with sched := q, pc := update s.pc cur .own }
  | threadExit {s : RunState} {cur : Tid} :
      s.sched.currentThread = some cur → s.sched.idleThreadPtr ≠ some cur → s.pc cur = .own →
      Next s { s with
        sched := threadExitMark s.sched
        exited := insert cur s.exited
        pc := update s.pc cur .inExit }
  | threadExitReturn {s : RunState} {cur : Tid} {fuel : Nat} {q : Sched} :
      s.sched.currentThread = some cur → s.pc cur = .inExit →
      Orchid.schedule fuel s.sched = some q → Next s { s with sched := q }

/-- The inductive invariant. In its own code a thread other than idle is
running, so it is on no queue when it blocks or exits. -/
structure RunState.Inv (s : RunState) (idle cur : Tid) (l : List Tid) : Prop where
  wellQueued : WellQueued s.sched s.threads idle cur l
  own_running : cur ≠ idle → s.pc cur = .own → s.sched.state cur = .running
  exited_state : ∀ t ∈ s.exited, t ≠ idle ∧ t ∈ s.threads ∧ s.sched.state t = .exited

namespace RunState

variable {s s' : RunState} {idle cur : Tid} {l : List Tid}

theorem inv_init (h : Init s) : ∃ idle cur l, Inv s idle cur l := by
  obtain ⟨boot, idle, stack, kernelCr3, -, -, -, -, rfl⟩ := h
  have hstate : (schedulerInit idle stack kernelCr3 boot).state idle = .ready := by
    have hset := Sched.setState_state (threadCreate idle stack kernelCr3 none boot) idle .ready
    exact (congrFun hset idle).trans (update_self ..)
  refine ⟨idle, idle, [], ⟨rfl, rfl, rfl, rfl, rfl, ?_, ?_, Or.inl hstate⟩, ?_, ?_⟩
  · intro t
    constructor
    · intro ht; simp at ht
    · rintro ⟨ht, hne, -⟩; exact absurd ht hne
  · intro t ht hne
    exact absurd ht hne
  · intro hne; exact absurd rfl hne
  · intro t ht; exact absurd ht (Set.notMem_empty t)

/-- A new thread disturbs neither the current one nor the exited ones. -/
theorem inv_initThread {t : Tid} {words stack cr3 : Nat} {proc : Option ProcPtr}
    (h : Inv s idle cur l) (ht : t ∉ s.threads) :
    Inv { s with
      sched := initThread words t stack cr3 proc s.sched
      threads := insert t s.threads
      pc := update s.pc t .own } idle cur (t :: l) := by
  obtain ⟨hstate, -⟩ := initThread_spec words t stack cr3 proc s.sched
  refine ⟨h.wellQueued.initThread ht, ?_, ?_⟩
  · intro hne hpc
    have hct : cur ≠ t := fun he => ht (he ▸ h.wellQueued.cur_mem)
    simp only [update_of_ne hct] at hpc
    simp only [hstate, update_of_ne hct]
    exact h.own_running hne hpc
  · intro u hu
    obtain ⟨hui, hum, hux⟩ := h.exited_state u hu
    have hut : u ≠ t := fun he => ht (he ▸ hum)
    simp only [hstate, update_of_ne hut]
    exact ⟨hui, Or.inr hum, hux⟩

/-- `schedule` dispatches the head of the queue or idle, never an exited
thread; who was in the middle of `thread_block` stays there, or has returned. -/
theorem inv_schedule {fuel : Nat} {q : Sched} (h : Inv s idle cur l)
    (hret : Orchid.schedule fuel s.sched = some q) (pc : Tid → Pc) :
    Inv { s with sched := q, pc := pc } idle (l.headD idle) (queueAfter s.sched cur l) := by
  have hwq := h.wellQueued
  obtain ⟨-, -, hstate, -⟩ :=
    schedule_spec hwq.queue hwq.current hwq.idlePtr hwq.notMem_of_running hret
  refine ⟨hwq.schedule hret, ?_, ?_⟩
  · intro _ _
    show q.state _ = _
    rw [hstate, update_self]
  · intro u hu
    obtain ⟨hui, hum, hux⟩ := h.exited_state u hu
    refine ⟨hui, hum, ?_⟩
    show q.state u = _
    have huh : u ≠ l.headD idle := by
      cases l with
      | nil => exact hui
      | cons a r =>
        rintro rfl
        have hready := ((hwq.mem_iff _).mp (List.mem_cons_self ..)).2.2
        rw [hready] at hux
        cases hux
    rw [hstate, update_of_ne huh, statesRequeued]
    by_cases hr : Requeues s.sched cur
    · have huc : u ≠ cur := by
        rintro rfl
        rw [hr.1] at hux
        cases hux
      simp only [hr, if_true, update_of_ne huc, hux]
    · simp only [hr, if_false, hux]

/-- A thread that makes a call from its own code is the current one, and it runs. -/
theorem Inv.own_current {c : Tid} (h : Inv s idle cur l) (hc : s.sched.currentThread = some c)
    (hidle : s.sched.idleThreadPtr ≠ some c) (hpc : s.pc c = .own) :
    c = cur ∧ cur ≠ idle ∧ s.sched.state cur = .running := by
  obtain rfl : c = cur := Option.some.inj (hc.symm.trans h.wellQueued.current)
  have hne : c ≠ idle := fun heq => hidle (heq ▸ h.wellQueued.idlePtr)
  exact ⟨rfl, hne, h.own_running hne hpc⟩

/-- Every step keeps the invariant, for some new queue and current thread. -/
theorem inv_step (hnext : Next s s') (h : Inv s idle cur l) :
    ∃ cur' l', Inv s' idle cur' l' := by
  have hwq := h.wellQueued
  cases hnext with
  | threadCreate stack cr3 proc _ _ ht => exact ⟨_, _, inv_initThread h ht⟩
  | threadCreateUser stack cr3 proc _ _ ht => exact ⟨_, _, inv_initThread h ht⟩
  | @threadUnblock t fuel q ht hret =>
    obtain ⟨l', hwq'⟩ := hwq.threadUnblock ht hret
    refine ⟨cur, l', hwq', ?_, ?_⟩
    all_goals
      rcases threadUnblock_spec hwq.queue hwq.notMem_of_blocked hret with
        ⟨-, rfl⟩ | ⟨hb, -, hstate, -, -⟩
    · exact h.own_running
    · intro hne hpc
      have hrun := h.own_running hne hpc
      have hct : cur ≠ t := by
        rintro rfl
        rw [hrun] at hb
        cases hb
      simp only [hstate, update_of_ne hct, hrun]
    · exact h.exited_state
    · intro u hu
      obtain ⟨hui, hum, hux⟩ := h.exited_state u hu
      have hut : u ≠ t := by
        rintro rfl
        rw [hux] at hb
        cases hb
      simp only [hstate, update_of_ne hut]
      exact ⟨hui, hum, hux⟩
  | schedule hret => exact ⟨_, _, inv_schedule h hret s.pc⟩
  | threadBlockReturn _ _ hret => exact ⟨_, _, inv_schedule h hret _⟩
  | threadExitReturn _ _ hret => exact ⟨_, _, inv_schedule h hret s.pc⟩
  | @threadBlock c hc hidle hpc =>
    rcases h.own_current hc hidle hpc with ⟨rfl, hci, hrun⟩
    refine ⟨c, l, hwq.threadBlockMark hci hrun, ?_, ?_⟩
    · intro _ hpc'
      simp at hpc'
    · intro u hu
      obtain ⟨hui, hum, hux⟩ := h.exited_state u hu
      have huc : u ≠ c := by
        rintro rfl
        rw [hrun] at hux
        cases hux
      refine ⟨hui, hum, ?_⟩
      simp only [Orchid.threadBlockMark, hc, Sched.setState_state, update_of_ne huc, hux]
  | @threadExit c hc hidle hpc =>
    rcases h.own_current hc hidle hpc with ⟨rfl, hci, hrun⟩
    refine ⟨c, l, hwq.threadExitMark hci hrun, ?_, ?_⟩
    · intro _ hpc'
      simp at hpc'
    · intro u hu
      simp only [Orchid.threadExitMark, hc, Sched.setNext_state, Sched.setState_state]
      rcases hu with rfl | hu
      · exact ⟨hci, hwq.cur_mem, update_self ..⟩
      · obtain ⟨hui, hum, hux⟩ := h.exited_state u hu
        by_cases huc : u = c
        · subst huc; exact ⟨hui, hum, update_self ..⟩
        · exact ⟨hui, hum, by rw [update_of_ne huc, hux]⟩

theorem reachable_inv (h : Machine.Reachable Init Next s) : ∃ idle cur l, Inv s idle cur l := by
  refine h.invariant (fun s => inv_init) ?_
  rintro s s' hnext ⟨idle, cur, l, hinv⟩
  obtain ⟨cur', l', hinv'⟩ := inv_step hnext hinv
  exact ⟨idle, cur', l', hinv'⟩

/-- `schedule` never picks a thread that has called `thread_exit`. -/
theorem Inv.schedule_ne_exited {fuel : Nat} {q : Sched} {t : Tid} (h : Inv s idle cur l)
    (ht : t ∈ s.exited) (hret : Orchid.schedule fuel s.sched = some q) :
    q.currentThread ≠ some t := by
  intro hq
  have hinv := inv_schedule h hret s.pc
  have hhead : l.headD idle = t := Option.some.inj (hinv.wellQueued.current.symm.trans hq)
  obtain ⟨hti, -, hexit⟩ := h.exited_state t ht
  cases l with
  | nil => exact hti hhead.symm
  | cons a r =>
    have hready := ((h.wellQueued.mem_iff a).mp (by simp)).2.2
    have hat : a = t := hhead
    rw [hat, hexit] at hready
    cases hready

/-- An exited thread stays exited, and once it is not the current thread it
does not become it. -/
theorem exited_step {t : Tid} (hinv : Inv s idle cur l) (hnext : Next s s')
    (ht : t ∈ s.exited) (hcur : s.sched.currentThread ≠ some t) :
    t ∈ s'.exited ∧ s'.sched.currentThread ≠ some t := by
  cases hnext with
  | threadCreate => exact ⟨ht, hcur⟩
  | threadCreateUser => exact ⟨ht, hcur⟩
  | @threadUnblock u fuel q hu hret =>
    obtain ⟨l', hwq'⟩ := hinv.wellQueued.threadUnblock hu hret
    exact ⟨ht, by rw [hwq'.current, ← hinv.wellQueued.current]; exact hcur⟩
  | schedule hret => exact ⟨ht, hinv.schedule_ne_exited ht hret⟩
  | threadBlock hc => exact ⟨ht, by simpa [Orchid.threadBlockMark, hc] using hcur⟩
  | threadBlockReturn _ _ hret => exact ⟨ht, hinv.schedule_ne_exited ht hret⟩
  | threadExit hc => exact ⟨Or.inr ht, by simpa [Orchid.threadExitMark, hc] using hcur⟩
  | threadExitReturn _ _ hret => exact ⟨ht, hinv.schedule_ne_exited ht hret⟩

/-- The run queue as the rest of the kernel relies on it. -/
structure QueueOk (s : RunState) (l : List Tid) : Prop where
  queue : s.sched.Queue l
  nodup : l.Nodup
  made : ∀ t ∈ l, t ∈ s.threads
  ready : ∀ t ∈ s.threads, s.sched.idleThreadPtr ≠ some t → (t ∈ l ↔ s.sched.state t = .ready)
  idle : ∀ t ∈ l, s.sched.idleThreadPtr ≠ some t
  running : ∀ t ∈ s.threads, s.sched.idleThreadPtr ≠ some t → s.sched.state t = .running →
    s.sched.currentThread = some t
  exited : ∀ t ∈ s.exited, t ∉ l

theorem Inv.queueOk (h : Inv s idle cur l) : QueueOk s l := by
  have hwq := h.wellQueued
  have hidle : ∀ t, s.sched.idleThreadPtr ≠ some t ↔ t ≠ idle := by
    intro t
    rw [hwq.idlePtr, ne_eq, Option.some.injEq]
    exact ⟨fun h' he => h' he.symm, fun h' he => h' he.symm⟩
  refine ⟨hwq.queue, Chain.nodup hwq.queue, ?_, ?_, ?_, ?_, ?_⟩
  · exact fun t ht => ((hwq.mem_iff t).mp ht).1
  · intro t ht hti
    rw [hwq.mem_iff t]
    exact ⟨fun h' => h'.2.2, fun h' => ⟨ht, (hidle t).mp hti, h'⟩⟩
  · exact fun t ht => (hidle t).mpr ((hwq.mem_iff t).mp ht).2.1
  · intro t ht hti hrun
    rw [hwq.current, hwq.running t ht ((hidle t).mp hti) hrun]
  · intro t ht
    exact hwq.notMem_of_state (by rw [(h.exited_state t ht).2.2]; decide)

/-- In every reachable state the run queue is in order; `thread_unblock` and
`schedule` return; and a thread that has called `thread_exit` is picked by no
`schedule`, so once another thread is current it never is again. -/
theorem runQueue_ok (h : Machine.Reachable Init Next s) :
    (∃ l, QueueOk s l) ∧
    (∃ fuel, (Orchid.schedule fuel s.sched).isSome ∧
      ∀ t, (Orchid.threadUnblock fuel t s.sched).isSome) ∧
    (∀ t ∈ s.exited,
      (∀ fuel q, Orchid.schedule fuel s.sched = some q → q.currentThread ≠ some t) ∧
      ∀ s₁ s₂, ReflTransGen Next s s₁ → s₁.sched.currentThread ≠ some t →
        ReflTransGen Next s₁ s₂ → s₂.sched.currentThread ≠ some t) := by
  obtain ⟨idle, cur, l, hinv⟩ := reachable_inv h
  have hwq := hinv.wellQueued
  refine ⟨⟨l, hinv.queueOk⟩, ⟨l.length, ?_, fun t => ?_⟩, fun t ht => ⟨?_, ?_⟩⟩
  · obtain ⟨q, hq⟩ := schedule_returns hwq.queue hwq.current hwq.idlePtr
      hwq.notMem_of_running (Nat.le_refl l.length)
    rw [hq]; rfl
  · obtain ⟨q, hq⟩ := threadUnblock_returns hwq.queue hwq.notMem_of_blocked (Nat.le_refl l.length)
    rw [hq]; rfl
  · exact fun fuel q hret => hinv.schedule_ne_exited ht hret
  · intro s₁ s₂ hrun₁ hne hrun₂
    have hexited : t ∈ s₁.exited := by
      refine h.stable hrun₁ (p := fun u => t ∈ u.exited) ?_ ht
      intro u u' _ hnext hu
      cases hnext with
      | threadExit => exact Or.inr hu
      | _ => exact hu
    have hlast := (h.steps hrun₁).stable hrun₂
      (p := fun u => t ∈ u.exited ∧ u.sched.currentThread ≠ some t) ?_ ⟨hexited, hne⟩
    · exact hlast.2
    · rintro u u' hu hnext ⟨hmem, hcur⟩
      obtain ⟨i, c, k, huinv⟩ := reachable_inv hu
      exact exited_step huinv hnext hmem hcur

/-! A boot, two threads, and the second one has exited. -/

/-- Zeroed globals and blank thread records. -/
def blankSched : Sched where
  threads _ := ⟨0, 0, .exited, 0, 0, none, none⟩
  currentThread := none
  readyQueue := none
  idleThreadPtr := none
  threadCount := 0
  currentProcess := none
  rsp0 := 0

/-- Idle is thread 1; threads 2 and 3 were made, 3 was dispatched and exited. -/
def exitedState : RunState :=
  let sched := threadCreate 3 0x3000 0 none
    (threadCreate 2 0x2000 0 none (schedulerInit 1 0x1000 0 blankSched))
  { sched := threadExitMark ((Orchid.schedule 1 sched).getD sched)
    threads := insert 3 (insert 2 {1})
    exited := insert 3 ∅
    pc := update (update (update (fun _ => .own) 2 .own) 3 .own) 3 .inExit }

theorem exitedState_reachable : Machine.Reachable Init Next exitedState := by
  have h₀ : Machine.Reachable Init Next _ :=
    .init ⟨blankSched, 1, 0x1000, 0, rfl, rfl, rfl, rfl, rfl⟩
  have h₁ := h₀.step (@Next.threadCreate _ 1 2 0x2000 0 none rfl rfl (by simp))
  have h₂ := h₁.step (@Next.threadCreate _ 1 3 0x3000 0 none rfl rfl (by simp))
  have h₃ := h₂.step (@Next.schedule _ 1 _ rfl)
  exact h₃.step (@Next.threadExit _ 3 rfl (by decide) rfl)

theorem runQueue_ok_exitedState :
    (∃ l, QueueOk exitedState l) ∧
    ∀ fuel q, Orchid.schedule fuel exitedState.sched = some q → q.currentThread ≠ some 3 :=
  ⟨(runQueue_ok exitedState_reachable).1,
    ((runQueue_ok exitedState_reachable).2.2 3 (Set.mem_insert 3 ∅)).1⟩

end RunState

end Orchid
