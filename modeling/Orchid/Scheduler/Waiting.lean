import Orchid.Scheduler.RoundRobin

/-! # How long a thread waits

A thread in the run queue has its turn when it is at the head. Every call of `schedule` takes
the head away, and every new thread is linked in front, so that the number of calls a thread
has to wait for is its place in the queue plus the number of threads that are created
meanwhile: an equation, which gives the bound without creations and says what can starve a
thread with them (`wait_exact`).
-/

namespace Orchid

open LinkedList Machine Turns Relation

section Waiting

variable {l l' : Logged} {idle cur t : Tid} {q : List Tid}

/-- The events of a run, and the queue they lead to. -/
theorem Logged.Inv.run_events (h : l.Inv idle cur q)
    (hrun : ReflTransGen Logged.Next l l') :
    ∃ es cur' q', l'.log = l.log ++ es ∧ l'.Inv idle cur' q' ∧ Turns.Runs q es q' := by
  induction hrun with
  | refl => exact ⟨[], cur, q, (List.append_nil _).symm, h, .nil⟩
  | tail _ hnext ih =>
    rcases ih with ⟨es, cur₁, q₁, hlog, hinv, hruns⟩
    rcases hinv.step hnext with ⟨cur₂, q₂, hinv₂⟩
    rcases hnext with ⟨-, ds, hemits, hlog₂⟩
    refine ⟨es ++ ds, cur₂, q₂, ?_, hinv₂, hruns.append (hemits.runs hinv.run hinv₂.run)⟩
    rw [hlog₂, hlog, List.append_assoc]

/-- A thread waits in the run queue, and any run of calls goes on from there. It has been
dispatched, or it is still waiting, and then the calls of `schedule` are as many as the places
it has come forward: with its place at the start counted from 0, and one more place for every
thread that was created. So without new threads it is dispatched by the call that its place
says. -/
theorem wait_exact (h : Reachable Logged.Init Logged.Next l)
    (hrun : ReflTransGen Logged.Next l l') (hq : l.run.sched.Queue q) (ht : t ∈ q) :
    ∃ es, l'.log = l.log ++ es ∧ ((∃ e ∈ es, e.Takes t) ∨
      ∃ q', l'.run.sched.Queue q' ∧ t ∈ q' ∧
        q'.idxOf t + es.countP Event.isTurn = q.idxOf t + es.countP Event.isFront) := by
  rcases Logged.inv h with ⟨idle, cur, q₀, hinv⟩
  rcases Chain.unique hq hinv.run.wellQueued.queue with rfl
  rcases hinv.run_events hrun with ⟨es, cur', q', hlog, hinv', hruns⟩
  refine ⟨es, hlog, ?_⟩
  by_cases htaken : ∃ e ∈ es, e.Takes t
  · exact .inl htaken
  · push Not at htaken
    rcases hruns.idxOf ht htaken with ⟨hmem, hcount⟩
    exact .inr ⟨q', hinv'.run.wellQueued.queue, hmem, hcount⟩

/-- A second thread is created while the first waits, and puts it one place back. -/
theorem wait_exact_twoCreated : ∃ l l' : Logged, Reachable Logged.Init Logged.Next l ∧
    ReflTransGen Logged.Next l l' ∧ l.run.sched.Queue [1] ∧
    ∃ q', l'.run.sched.Queue q' ∧ q'.idxOf 1 = 1 := by
  rcases runs_twoCreated with ⟨h₁, hnext⟩
  have hqueue : (runCreate 1 bootRun).sched.Queue [1] := ⟨rfl, rfl⟩
  refine ⟨_, _, h₁, .single hnext, hqueue, ?_⟩
  rcases wait_exact h₁ (.single hnext) hqueue (List.mem_singleton_self 1) with ⟨es, hlog, hcases⟩
  obtain rfl : [.front 2] = es := (List.cons.inj hlog).2
  rcases hcases with ⟨e, he, htakes⟩ | ⟨q', hq', -, hplace⟩
  · rw [List.mem_singleton.mp he] at htakes
    exact htakes.elim
  · exact ⟨q', hq', hplace⟩

end Waiting

end Orchid
