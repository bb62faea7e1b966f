import Orchid.Core.Turns
import Orchid.Scheduler.RunQueue

/-! # Who runs next

`schedule` takes the head of the run queue. A thread that is unblocked or preempted
goes to the tail, but a new thread is linked in front of all others. So threads
have their turns in the order in which they came, except that a new thread comes
before every thread that is waiting already (`roundRobin_iff`); `Logged` is the
machine of the run queue with the list of its turns.

The idle thread runs if the queue is empty. `schedule` looks at the queue before it
puts the caller back, so a caller that is alone gives way to the idle thread, too
(`idleOnly_iff`).
-/

namespace Orchid

open LinkedList Machine Turns

/-! ## Turns -/

/-- A call that takes the scheduler from `s` to the given state, as an event of the run
queue, if it is one. -/
inductive RunState.Emits (s : RunState) : Sched → List (Event Tid) → Prop where
  | create {t : Tid} (words stack cr3 : Nat) (proc : Option ProcPtr) :
      t ∉ s.threads → Emits s (initThread words t stack cr3 proc s.sched) [.front t]
  | unblock {t : Tid} {fuel : Nat} {q : Sched} :
      t ∈ s.threads → s.sched.state t = .blocked → threadUnblock fuel t s.sched = some q →
      Emits s q [.back t]
  | awake {t : Tid} {fuel : Nat} {q : Sched} :
      s.sched.state t ≠ .blocked → threadUnblock fuel t s.sched = some q → Emits s q []
  | schedule {cur n : Tid} {fuel : Nat} {q : Sched} :
      s.sched.currentThread = some cur → schedule fuel s.sched = some q →
      q.currentThread = some n →
      Emits s q [.turn n (if Requeues s.sched cur then some cur else none)]
  | block {cur : Tid} :
      s.sched.currentThread = some cur → s.sched.idleThreadPtr ≠ some cur → s.pc cur = .own →
      Emits s (threadBlockMark s.sched) []
  | exit {cur : Tid} :
      s.sched.currentThread = some cur → s.sched.idleThreadPtr ≠ some cur → s.pc cur = .own →
      Emits s (threadExitMark s.sched) []

/-- The machine of the run queue, with what has happened to the queue so far. -/
structure Logged where
  run : RunState
  log : List (Event Tid)

namespace Logged

def Init (l : Logged) : Prop := l.run.Init ∧ l.log = []

def Next (l l' : Logged) : Prop :=
  l.run.Next l'.run ∧ ∃ es, l.run.Emits l'.run.sched es ∧ l'.log = l.log ++ es

end Logged

section Turns

variable {s s' : RunState} {idle cur cur' : Tid} {q q' : List Tid} {es : List (Event Tid)}

/-- Every step is one of these calls. -/
theorem RunState.Next.emits (h : s.Next s') (hinv : s.Inv idle cur q) :
    ∃ es, s.Emits s'.sched es := by
  have hschedule : ∀ {fuel : Nat} {r : Sched}, Orchid.schedule fuel s.sched = some r →
      ∃ es, s.Emits r es := by
    intro fuel r hret
    have hnext := RunState.inv_schedule hinv hret s.pc
    exact ⟨_, .schedule hinv.wellQueued.current hret hnext.wellQueued.current⟩
  cases h with
  | threadCreate stack cr3 proc _ _ ht => exact ⟨_, .create 7 stack cr3 proc ht⟩
  | threadCreateUser stack cr3 proc _ _ ht => exact ⟨_, .create 12 stack cr3 proc ht⟩
  | @threadUnblock t fuel r ht hret =>
    by_cases hb : s.sched.state t = .blocked
    · exact ⟨_, .unblock ht hb hret⟩
    · exact ⟨_, .awake hb hret⟩
  | schedule hret => exact hschedule hret
  | threadBlock hc hidle hpc => exact ⟨_, .block hc hidle hpc⟩
  | threadBlockReturn _ _ hret => exact hschedule hret
  | threadExit hc hidle hpc => exact ⟨_, .exit hc hidle hpc⟩
  | threadExitReturn _ _ hret => exact hschedule hret

theorem RunState.Next.threads (h : s.Next s') : s.threads ⊆ s'.threads := by
  cases h with
  | threadCreate => exact Set.subset_insert _ _
  | threadCreateUser => exact Set.subset_insert _ _
  | _ => exact Set.Subset.refl _

/-- The run queue goes through these events. -/
theorem RunState.Emits.runs (h : s.Emits s'.sched es) (hinv : s.Inv idle cur q)
    (hinv' : s'.Inv idle cur' q') : Turns.Runs q es q' := by
  have hwq := hinv.wellQueued
  generalize hs' : s'.sched = r at h
  have hqueue : r.Queue q' := hs' ▸ hinv'.wellQueued.queue
  cases h with
  | @create t words stack cr3 proc ht =>
    have hmade : WellQueued (initThread words t stack cr3 proc s.sched) (insert t s.threads) idle
        cur (t :: q) := hwq.initThread ht
    rcases Chain.unique hqueue hmade.queue with rfl
    apply Turns.Runs.cons (.front _) .nil
    intro hmem
    exact ht ((hwq.mem_iff t).mp hmem).1
  | @unblock t fuel r ht hb hret =>
    have hnot : t ∉ q := hwq.notMem_of_blocked hb
    rcases threadUnblock_spec hwq.queue (fun _ => hnot) hret with ⟨hne, -⟩ | ⟨-, hafter, -⟩
    · exact absurd hb hne
    · rcases Chain.unique hqueue hafter with rfl
      exact .cons (.back hnot) .nil
  | @awake t fuel r hb hret =>
    have hsame : some s.sched = some r := (if_neg hb).symm.trans hret
    cases hsame
    rcases Chain.unique hqueue hwq.queue with rfl
    exact .nil
  | @schedule c n fuel r hc hret hn =>
    obtain rfl : c = cur := Option.some.inj (hc.symm.trans hwq.current)
    rcases schedule_spec hwq.queue hwq.current hwq.idlePtr hwq.notMem_of_running hret with
      ⟨hafter, hhead, -⟩
    obtain rfl : n = q.headD idle := Option.some.inj (hn.symm.trans hhead)
    rcases Chain.unique hqueue hafter with rfl
    have hagain : (if Requeues s.sched c then some c else none).toList =
        if Requeues s.sched c then [c] else [] := by
      split <;> rfl
    rw [queueAfter, ← hagain]
    cases q with
    | nil =>
      -- nobody waits, and the caller is not the idle thread
      apply Turns.Runs.cons (.outside _) .nil
      intro heq
      split at heq
      · next hr =>
        apply hr.2
        rw [hwq.idlePtr]
        exact heq
      · cases heq
    | cons a r =>
      apply Turns.Runs.cons (.turn _) .nil
      intro u hu
      split at hu
      · next hr =>
        obtain rfl : c = u := Option.some.inj hu
        exact hwq.notMem_of_running hr.1
      · cases hu
  | block hc hidle hpc =>
    rcases hinv.own_current hc hidle hpc with ⟨-, hne, hrun⟩
    rcases Chain.unique hqueue (hwq.threadBlockMark hne hrun).queue with rfl
    exact .nil
  | exit hc hidle hpc =>
    rcases hinv.own_current hc hidle hpc with ⟨-, hne, hrun⟩
    rcases Chain.unique hqueue (hwq.threadExitMark hne hrun).queue with rfl
    exact .nil

/-- A call is one event at most. Only a thread that does not exist yet is created, and who
has its turn is the current thread afterwards. -/
theorem RunState.Emits.event {r : Sched} (h : s.Emits r es) :
    es = [] ∨ ∃ e, es = [e] ∧ (∀ t, e = .front t → t ∉ s.threads) ∧
      ∀ t, e.Takes t → r.currentThread = some t := by
  cases h with
  | create _ _ _ _ ht =>
    refine Or.inr ⟨_, rfl, ?_, nofun⟩
    intro u hu
    cases hu
    exact ht
  | unblock => exact Or.inr ⟨_, rfl, nofun, nofun⟩
  | schedule _ _ hn =>
    refine Or.inr ⟨_, rfl, nofun, ?_⟩
    intro u hu
    cases hu
    exact hn
  | awake => exact Or.inl rfl
  | block => exact Or.inl rfl
  | exit => exact Or.inl rfl

/-- What the log says about the state: the queue is the one its events lead to, and who has
had a turn is made and not made again. -/
structure Logged.Inv (l : Logged) (idle cur : Tid) (q : List Tid) : Prop where
  run : l.run.Inv idle cur q
  queue : Turns.Runs [] l.log q
  made : ∀ e ∈ l.log, ∀ t, e.Takes t → t ∈ l.run.threads
  fresh : l.log.Pairwise fun d e => ∀ t, e = .front t → ¬ d.Takes t

theorem Logged.Init.inv {l : Logged} (h : l.Init) : ∃ idle cur q, l.Inv idle cur q := by
  rcases l with ⟨run, log⟩
  rcases h with ⟨hrun, hlog⟩
  change log = [] at hlog
  subst hlog
  rcases RunState.inv_init hrun with ⟨idle, cur, q, hinv⟩
  have hnil : q = [] := by
    obtain ⟨boot, i, stack, kernelCr3, -, -, -, -, rfl⟩ := hrun
    have hempty : (schedulerInit i stack kernelCr3 boot).Queue [] := by
      show Chain _ none []
      simp
    exact Chain.unique hinv.wellQueued.queue hempty
  subst hnil
  refine ⟨idle, cur, [], hinv, .nil, ?_, .nil⟩
  intro e he
  cases he

theorem Logged.Inv.step {l l' : Logged} (h : l.Inv idle cur q) (hstep : l.Next l') :
    ∃ cur' q', l'.Inv idle cur' q' := by
  rcases hstep with ⟨hnext, es, hemits, hlog⟩
  rcases RunState.inv_step hnext h.run with ⟨cur', q', hinv'⟩
  have hruns := hemits.runs h.run hinv'
  refine ⟨cur', q', hinv', ?_, ?_, ?_⟩
  · rw [hlog]
    exact h.queue.append hruns
  · intro e he t ht
    rw [hlog] at he
    rcases List.mem_append.mp he with he | he
    · exact hnext.threads (h.made e he t ht)
    · rcases hemits.event with rfl | ⟨d, rfl, -, hturn⟩
      · cases he
      · cases List.mem_singleton.mp he
        have hcur := hinv'.wellQueued.current.symm.trans (hturn t ht)
        exact Option.some.inj hcur ▸ hinv'.wellQueued.cur_mem
  · rw [hlog]
    rcases hemits.event with rfl | ⟨e, rfl, hfront, -⟩
    · rw [List.append_nil]
      exact h.fresh
    · rw [List.pairwise_append]
      refine ⟨h.fresh, List.pairwise_singleton _ _, ?_⟩
      intro d hd e' he t heq htakes
      cases List.mem_singleton.mp he
      exact hfront t heq (h.made d hd t htakes)

theorem Logged.inv {l : Logged} (h : Reachable Logged.Init Logged.Next l) :
    ∃ idle cur q, l.Inv idle cur q := by
  refine h.invariant (fun _ => Logged.Init.inv) ?_
  intro l l' hstep hinv
  rcases hinv with ⟨idle, cur, q, hinv⟩
  rcases hinv.step hstep with ⟨cur', q', hinv'⟩
  exact ⟨idle, cur', q', hinv'⟩

/-- Of two threads that wait in the run queue the one that came first is dispatched first,
unless the other one was created after it came; and between two dispatches of a thread
every thread is dispatched that was waiting all the time. -/
theorem roundRobin_iff {l : Logged} (h : Reachable Logged.Init Logged.Next l) :
    (∀ es₁ es₂ es₃ es₄ e f g A B, l.log = es₁ ++ e :: es₂ ++ f :: es₃ ++ g :: es₄ →
      Race e f g es₂ es₃ A B → ((∃ d ∈ es₃, d.Takes A) ↔ f ≠ .front B)) ∧
    (∀ es₁ es₂ es₃ e f A B, l.log = es₁ ++ e :: es₂ ++ f :: es₃ →
      e.Takes B → f.Takes B → Waits (es₁ ++ [e]) A → ∃ d ∈ es₂, d.Takes A) := by
  rcases Logged.inv h with ⟨idle, cur, q, hinv⟩
  have hruns := hinv.queue
  constructor
  · intro es₁ es₂ es₃ es₄ e f g A B hlog hrace
    rw [hlog] at hruns
    exact race_iff hruns hrace
  · intro es₁ es₂ es₃ e f A B hlog he hf hwaits
    rw [hlog] at hruns
    refine turn_between hruns he hf ?_ hwaits
    -- a thread that had a turn is not created again
    intro hmem
    have hfresh := hinv.fresh
    rw [hlog, List.append_assoc, List.pairwise_append, List.cons_append,
      List.pairwise_cons] at hfresh
    exact hfresh.2.1.1 _ (List.mem_append_left _ hmem) B rfl he

end Turns

/-! ## Two new threads -/

section Example

/-- After `scheduler_init`. -/
def bootRun : RunState where
  sched := schedulerInit 0x10 0x1000 0 RunState.blankSched
  threads := {0x10}
  exited := ∅
  pc := fun _ => .own

/-- The idle thread creates another thread. -/
def runCreate (t : Tid) (s : RunState) : RunState :=
  { s with
    sched := threadCreate t (0x1000 * t) 0 none s.sched
    threads := insert t s.threads
    pc := Function.update s.pc t .own }

theorem bootRun_init : bootRun.Init := ⟨RunState.blankSched, 0x10, 0x1000, 0, rfl, rfl, rfl, rfl, rfl⟩

theorem next_runCreate {s : RunState} {t : Tid} (hcur : s.sched.currentThread = some 0x10)
    (hpc : s.pc 0x10 = .own) (ht : t ∉ s.threads) : s.Next (runCreate t s) :=
  .threadCreate (0x1000 * t) 0 none hcur hpc ht

/-- Thread `1` is created, and then thread `2`. -/
theorem runs_twoCreated : Reachable Logged.Init Logged.Next ⟨runCreate 1 bootRun, [.front 1]⟩ ∧
    Logged.Next ⟨runCreate 1 bootRun, [.front 1]⟩
      ⟨runCreate 2 (runCreate 1 bootRun), [.front 1, .front 2]⟩ := by
  have h₀ : Reachable Logged.Init Logged.Next ⟨bootRun, []⟩ := .init ⟨bootRun_init, rfl⟩
  have hfirst : 1 ∉ bootRun.threads := by simp [bootRun]
  have hsecond : 2 ∉ (runCreate 1 bootRun).threads := by simp [runCreate, bootRun]
  constructor
  · exact h₀.step ⟨next_runCreate rfl rfl hfirst, _, .create 7 0x1000 0 none hfirst, rfl⟩
  · exact ⟨next_runCreate rfl rfl hsecond, _, .create 7 0x2000 0 none hsecond, rfl⟩

/-- Threads `1` and `2` are created, and `schedule` is called. -/
theorem exists_twoCreated : ∃ l : Logged, Reachable Logged.Init Logged.Next l ∧
    l.log = [.front 1, .front 2, .turn 2 none] := by
  have h₂ := runs_twoCreated.1.step runs_twoCreated.2
  have hcall : ∃ r, schedule 2 (runCreate 2 (runCreate 1 bootRun)).sched = some r ∧
      r.currentThread = some 2 := ⟨_, rfl, rfl⟩
  rcases hcall with ⟨r, hret, hcur⟩
  -- the idle thread does not go back to the queue
  have hidle : ¬ Requeues (runCreate 2 (runCreate 1 bootRun)).sched 0x10 := fun h => h.2 rfl
  refine ⟨⟨{ runCreate 2 (runCreate 1 bootRun) with sched := r },
    [.front 1, .front 2, .turn 2 none]⟩,
    h₂.step ⟨.schedule hret, _, .schedule rfl hret hcur, ?_⟩, rfl⟩
  rw [if_neg hidle]
  rfl

/-- Both are waiting when the second is dispatched, though the first came before it. -/
theorem created_overtakes : ∃ l : Logged, Reachable Logged.Init Logged.Next l ∧
    ∃ es₁ es₂ es₃ es₄ e f g A B, l.log = es₁ ++ e :: es₂ ++ f :: es₃ ++ g :: es₄ ∧
      Race e f g es₂ es₃ A B ∧ ¬ ∃ d ∈ es₃, d.Takes A := by
  rcases exists_twoCreated with ⟨l, hreach, hlog⟩
  refine ⟨l, hreach, [], [], [], [], .front 1, .front 2, .turn 2 none, 1, 2, hlog, ?_, by simp⟩
  constructor
  · decide
  · rfl
  · rfl
  · intro d hd
    cases List.mem_singleton.mp hd
    exact id
  · rfl
  · intro d hd
    cases hd

/-- In that run the second thread was created after the first. -/
theorem roundRobin_iff_twoCreated : ∃ l : Logged, Reachable Logged.Init Logged.Next l ∧
    l.log = [.front 1, .front 2, .turn 2 none] ∧
    ∀ es₁ es₂ es₃ es₄ e f g A B, l.log = es₁ ++ e :: es₂ ++ f :: es₃ ++ g :: es₄ →
      Race e f g es₂ es₃ A B → ((∃ d ∈ es₃, d.Takes A) ↔ f ≠ .front B) := by
  rcases exists_twoCreated with ⟨l, hreach, hlog⟩
  exact ⟨l, hreach, hlog, (roundRobin_iff hreach).1⟩

end Example

/-! ## The idle thread -/

/-- If the idle thread is current after a call of `schedule`, no other thread could run: no
thread was ready, and the caller was not running. -/
def IdleOnly (s : RunState) (q : Sched) : Prop :=
  q.currentThread = q.idleThreadPtr →
    ∀ t ∈ s.threads, s.sched.idleThreadPtr ≠ some t →
      s.sched.state t ≠ .ready ∧ (s.sched.currentThread = some t → s.sched.state t ≠ .running)

/-- That holds of a call if and only if a thread is queued, or the caller does not go back to
the queue: it is the idle thread, or it is not running. -/
theorem idleOnly_iff {s : RunState} {fuel : Nat} {q : Sched}
    (h : Reachable RunState.Init RunState.Next s) (hcall : schedule fuel s.sched = some q) :
    IdleOnly s q ↔
      s.sched.readyQueue ≠ none ∨
        ∀ cur, s.sched.currentThread = some cur → ¬ Requeues s.sched cur := by
  rcases RunState.reachable_inv h with ⟨idle, cur, l, hinv⟩
  have hwq := hinv.wellQueued
  rcases schedule_spec hwq.queue hwq.current hwq.idlePtr hwq.notMem_of_running hcall with
    ⟨-, hhead, -, hidle⟩
  cases l with
  | cons a r =>
    -- the head of the queue is not the idle thread
    have hready : s.sched.readyQueue = some a := hwq.queue.1
    constructor
    · intro _
      exact Or.inl (by rw [hready]; exact nofun)
    · intro _ heq
      rw [hhead, hidle] at heq
      exact absurd (Option.some.inj heq ▸ List.mem_cons_self) hwq.idle_notMem
  | nil =>
    have hempty : s.sched.readyQueue = none := hwq.queue
    have hnone : ∀ t ∈ s.threads, t ≠ idle → s.sched.state t ≠ .ready := by
      intro t ht hne hready
      exact absurd ((hwq.mem_iff t).mpr ⟨ht, hne, hready⟩) List.not_mem_nil
    constructor
    · intro honly
      refine Or.inr ?_
      intro c hc hr
      obtain rfl : c = cur := Option.some.inj (hc.symm.trans hwq.current)
      have hclear := honly (hhead.trans hidle.symm) c hwq.cur_mem (Ne.symm hr.2)
      exact hclear.2 hc hr.1
    · intro hcond _ t ht hne
      rcases hcond with hqueued | hcaller
      · exact absurd hempty hqueued
      · constructor
        · exact hnone t ht fun heq => hne (heq ▸ hwq.idlePtr)
        · intro hc hrun
          exact hcaller t hc ⟨hrun, Ne.symm hne⟩

/-- A thread is created, and the idle thread calls `schedule`. -/
theorem exists_oneCreated : ∃ s q, Reachable RunState.Init RunState.Next s ∧
    schedule 1 s.sched = some q ∧ s.sched.readyQueue = some 1 ∧
    Reachable RunState.Init RunState.Next { s with sched := q } ∧ q.currentThread = some 1 ∧
    q.idleThreadPtr = some 0x10 ∧ q.readyQueue = none ∧ q.state 1 = .running ∧
    1 ∈ s.threads := by
  have hnew : 1 ∉ bootRun.threads := by simp [bootRun]
  have h₁ : Reachable RunState.Init RunState.Next (runCreate 1 bootRun) :=
    .step (.init bootRun_init) (next_runCreate rfl rfl hnew)
  have hcall : ∃ q, schedule 1 (runCreate 1 bootRun).sched = some q ∧
      q.currentThread = some 1 ∧ q.idleThreadPtr = some 0x10 ∧ q.readyQueue = none ∧
      q.state 1 = .running := ⟨_, rfl, rfl, rfl, rfl, rfl⟩
  rcases hcall with ⟨q, hret, hcur, hidle, hqueue, hstate⟩
  exact ⟨_, q, h₁, hret, rfl, h₁.step (.schedule hret), hcur, hidle, hqueue, hstate,
    Set.mem_insert 1 _⟩

/-- The call that dispatches the new thread. -/
theorem idleOnly_iff_oneCreated : ∃ s q, Reachable RunState.Init RunState.Next s ∧
    schedule 1 s.sched = some q ∧ IdleOnly s q := by
  rcases exists_oneCreated with ⟨s, q, hreach, hcall, hready, -⟩
  refine ⟨s, q, hreach, hcall, (idleOnly_iff hreach hcall).mpr (Or.inl ?_)⟩
  rw [hready]
  exact nofun

/-- The new thread calls `schedule` in turn. It is the only one that can run, and the idle
thread is dispatched. -/
theorem idle_runs_instead : ∃ s q, Reachable RunState.Init RunState.Next s ∧
    schedule 1 s.sched = some q ∧ ¬ IdleOnly s q := by
  rcases exists_oneCreated with ⟨s, r, -, -, -, hreach, hcur, hidle, hqueue, hstate, hmade⟩
  have hne : r.idleThreadPtr ≠ some 1 := by
    rw [hidle]
    decide
  have hempty : r.Queue [] := hqueue
  rcases schedule_returns hempty hcur hidle (fun _ => List.not_mem_nil) (Nat.zero_le 1) with
    ⟨q, hcall⟩
  rcases schedule_spec hempty hcur hidle (fun _ => List.not_mem_nil) hcall with
    ⟨-, hhead, -, hidle'⟩
  refine ⟨{ s with sched := r }, q, hreach, hcall, ?_⟩
  intro honly
  exact (honly (hhead.trans hidle'.symm) 1 hmade hne).2 hcur hstate

end Orchid
