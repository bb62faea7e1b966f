import Orchid.Process.Footprint
import Orchid.Process.Isolation
import Orchid.Process.LoadQueue

/-! # Whose address space a system call uses

A system call reads `current_process->pml4_phys`, while the processor walks the
tables at the CR3 of the current thread. The two agree as long as each process has
one thread that can run, and nothing changes `pml4_phys` under it.

* `Lists` is what the scheduler needs to know: the threads that may run, and among
  them those on the run queue. It holds of a queue that is linked to itself too.
* `Owners` ties each of these threads to the process record it was made for.
* `sys_exec` replaces the thread of a process. When it fails after it has stored the
  new PML4, the old thread goes on with the old CR3 (`exec_leaves_space`).
-/

namespace Orchid

open HeapState Machine Function

/-! ## The operations -/

/-- The kernel between two operations, and the threads made so far. -/
structure Tasks where
  kernel : Kernel
  threads : List Tid

/-- An operation, with the fuel for its loops. -/
inductive Op where
  | schedule (fuel : Nat)
  | block (fuel : Nat)
  | unblock (fuel : Nat) (t : Tid)
  | exit (fuel : Nat)
  | load (fuel : Nat) (image : Nat → UInt8) (size : Nat)
  | fork (fuel : Nat)
  | exec (fuel : Nat) (image : Nat → UInt8) (size : Nat)

namespace Tasks

/-- The scheduler went on to the given state. -/
def resched (w : Tasks) (s : Option Sched) : Option Tasks :=
  s.map fun s => { w with kernel := { w.kernel with sched := s } }

/-- The kernel `k` has made a thread for the process `r`. -/
def made (w : Tasks) (r : Option ProcPtr) (k : Kernel) : Tasks :=
  ⟨k, (r.bind fun p => (k.procs p).mainThread).toList ++ w.threads⟩

/-- One operation, if it returns. The pointer given to `thread_unblock` is one of the
threads. A `sys_exec` that succeeds ends in `thread_exit`. -/
def step (w : Tasks) : Op → Option Tasks
  | .schedule fuel => w.resched (schedule fuel w.kernel.sched)
  | .block fuel => w.resched (schedule fuel (threadBlockMark w.kernel.sched))
  | .unblock fuel t =>
    if t ∈ w.threads then w.resched (threadUnblock fuel t w.kernel.sched) else none
  | .exit fuel => w.resched (schedule fuel (threadExitMark w.kernel.sched))
  | .load fuel image size => (elfLoad fuel image size w.kernel).map fun (r, k) => w.made r k
  | .fork fuel => (sysFork fuel w.kernel).map fun (r, k) => w.made r k
  | .exec fuel image size =>
    match sysExec fuel image size w.kernel with
    | none => none
    | some (false, k) => some { w with kernel := k }
    | some (true, k) =>
      (w.made k.sched.currentProcess k).resched (schedule fuel (threadExitMark k.sched))

/-- The state the operations start from: there are kernel threads only. -/
structure Boot (w : Tasks) : Prop where
  heap : ∃ live, (w.kernel.heapState live).Ready ∧ ∀ t ∈ w.threads, t ∈ live.map Prod.fst
  kernelThreads : ∀ t ∈ w.threads, (w.kernel.sched.threads t).process = none
  current : ∀ t, w.kernel.sched.currentThread = some t → t ∈ w.threads
  idle : ∀ t, w.kernel.sched.idleThreadPtr = some t → t ∈ w.threads
  head : ∀ t, w.kernel.sched.readyQueue = some t → t ∈ w.threads
  links : ∀ t ∈ w.threads, ∀ u, w.kernel.sched.next t = some u → u ∈ w.threads

/-- A system call of the current thread uses the tables the thread is running on. -/
def OwnSpace (w : Tasks) : Prop :=
  ∀ t p, w.kernel.sched.currentThread = some t → (w.kernel.sched.threads t).process = some p →
    w.kernel.sched.currentProcess = some p ∧
    (w.kernel.procs p).pml4Phys = (w.kernel.sched.threads t).cr3

/-- The process record and its thread stay in step: a `sys_exec` that succeeds is called by
the thread of a process, and one that fails does so before it stores the new PML4. -/
def Keeps (w : Tasks) : Op → Prop
  | .exec fuel image size => ∀ done k', sysExec fuel image size w.kernel = some (done, k') →
    if done then
      ∃ t p, w.kernel.sched.currentThread = some t ∧ (w.kernel.sched.threads t).process = some p
    else
      w.kernel.sched.currentProcess = none ∨
        (loadSpace w.kernel.kernelCr3 image size w.kernel.vm).1 = none
  | _ => True

/-- Any operation. -/
def Next (w w' : Tasks) : Prop := ∃ op, w.step op = some w'

/-- An operation that keeps them in step. -/
def NextKeeping (w w' : Tasks) : Prop := ∃ op, w.Keeps op ∧ w.step op = some w'

end Tasks

/-! ## The scheduler -/

section Scheduler

variable {s s' : Sched} {threads : List Tid} {A Q : Tid → Prop} {t : Tid} {fuel : Nat}

/-- The threads `A` are those that may run, and `Q` those on the run queue. -/
structure Lists (s : Sched) (threads : List Tid) (A Q : Tid → Prop) : Prop where
  made : ∀ t, A t → t ∈ threads
  gone : ∀ t ∈ threads, ¬ A t → s.state t = .exited
  idle : ∀ t, s.idleThreadPtr = some t → A t ∧ (s.threads t).process = none
  head : ∀ t, s.readyQueue = some t → Q t
  links : ∀ t u, Q t → s.next t = some u → Q u
  queued : ∀ t, Q t → A t

/-- The current thread is one of them, and `current_process` is its process. -/
structure Runs (s : Sched) (A : Tid → Prop) : Prop where
  active : ∀ t, s.currentThread = some t → A t
  process : ∀ t p, s.currentThread = some t → (s.threads t).process = some p →
    s.currentProcess = some p

theorem Thread.process_of_fixed {th th' : Thread} (h : th'.fixed = th.fixed) :
    th'.process = th.process := congrArg (fun x => x.2.2.2) h

theorem Thread.cr3_of_fixed {th th' : Thread} (h : th'.fixed = th.fixed) : th'.cr3 = th.cr3 :=
  congrArg (fun x => x.2.2.1) h

theorem Lists.setState (h : Lists s threads A Q) (ht : A t) (v : ThreadState) :
    Lists (s.setState t v) threads A Q where
  made := h.made
  gone := by
    intro u hu hnot
    rw [Sched.setState_state, update_of_ne]
    · exact h.gone u hu hnot
    · intro heq
      rw [heq] at hnot
      exact hnot ht
  idle := by
    intro u hu
    rw [Thread.process_of_fixed (setState_fixed s t v u)]
    exact h.idle u hu
  head := h.head
  links := by
    intro u w hu
    rw [Sched.setState_next]
    exact h.links u w hu
  queued := h.queued

theorem Lists.setNext (h : Lists s threads A Q) (t : Tid) {v : Option Tid}
    (hv : ∀ w, v = some w → Q w) : Lists (s.setNext t v) threads A Q where
  made := h.made
  gone := by
    rw [Sched.setNext_state]
    exact h.gone
  idle := by
    intro u hu
    rw [Thread.process_of_fixed (setNext_fixed s t v u)]
    exact h.idle u hu
  head := h.head
  links := by
    intro u w hu hw
    rw [Sched.setNext_next] at hw
    by_cases heq : u = t
    · rw [heq, update_self] at hw
      exact hv w hw
    · rw [update_of_ne heq] at hw
      exact h.links u w hu hw
  queued := h.queued

/-- A thread that is linked to the queue joins it. -/
theorem Lists.join (h : Lists s threads A Q) (ht : A t) (hnext : ∀ w, s.next t = some w → Q w) :
    Lists s threads A (fun u => Q u ∨ u = t) where
  made := h.made
  gone := h.gone
  idle := h.idle
  head := fun u hu => Or.inl (h.head u hu)
  links := by
    rintro u w (hu | rfl) hw
    · exact Or.inl (h.links u w hu hw)
    · exact Or.inl (hnext w hw)
  queued := by
    rintro u (hu | rfl)
    · exact h.queued u hu
    · exact ht

theorem Lists.setNext_join {v : Option Tid} (h : Lists s threads A Q) (ht : A t)
    (hv : ∀ w, v = some w → Q w) : Lists (s.setNext t v) threads A (fun u => Q u ∨ u = t) := by
  refine (h.setNext t hv).join ht ?_
  rw [Sched.setNext_next, update_self]
  exact hv

theorem Lists.enqueue (h : Lists s threads A Q) (ht : A t)
    (hcall : enqueueTail fuel t s = some s') : Lists s' threads A (fun u => Q u ∨ u = t) := by
  have hjoined : Lists (s.setNext t none) threads A (fun u => Q u ∨ u = t) :=
    h.setNext_join ht nofun
  rcases enqueueTail_cases hcall with rfl | ⟨tail, rfl⟩
  · exact { hjoined with head := fun u hu => Or.inr (Option.some.inj hu).symm }
  · exact hjoined.setNext tail fun w hw => Or.inr (Option.some.inj hw).symm

/-- `schedule` dispatches one of the threads that may run. -/
theorem Lists.schedule (h : Lists s threads A Q)
    (hcur : ∀ t, s.currentThread = some t → s.state t = .running → A t)
    (hcall : schedule fuel s = some s') : ∃ Q', Lists s' threads A Q' ∧ Runs s' A := by
  unfold Orchid.schedule at hcall
  split at hcall
  · next hnone =>
    cases hcall
    refine ⟨Q, h, ⟨?_, ?_⟩⟩
    · intro t ht
      rw [hnone] at ht
      cases ht
    · intro t p ht
      rw [hnone] at ht
      cases ht
  next cur hsome =>
  split at hcall
  · cases hcall
  next s₁ hrequeue =>
  rcases Option.map_eq_some_iff.mp hcall with ⟨n, hn, rfl⟩
  -- the next thread is the head of the queue or the idle thread
  have hpick : Lists (pickNext s).2 threads A Q ∧ A n ∧ (pickNext s).2.state = s.state := by
    unfold pickNext at hn ⊢
    split at hn
    · exact ⟨h, (h.idle n hn).1, rfl⟩
    · next t hhead =>
      obtain rfl : t = n := Option.some.inj hn
      have hQ := h.head t hhead
      exact ⟨⟨h.made, h.gone, h.idle, fun u hu => h.links t u hQ hu, h.links, h.queued⟩,
        h.queued t hQ, rfl⟩
  rcases hpick with ⟨hpicked, hAn, hstate⟩
  -- the current thread goes behind the queue if it is still running
  have hrequeued : ∃ Q', Lists s₁ threads A Q' := by
    unfold requeueCurrent at hrequeue
    split at hrequeue
    · next hrun =>
      have hA : A cur := hcur cur hsome (by rw [← hstate]; exact hrun.1)
      exact ⟨_, (hpicked.setState hA .ready).enqueue hA hrequeue⟩
    · cases hrequeue
      exact ⟨Q, hpicked⟩
  rcases hrequeued with ⟨Q', hlists⟩
  have hdispatched := hlists.setState hAn .running
  refine ⟨Q', ⟨hdispatched.made, hdispatched.gone, hdispatched.idle, hdispatched.head,
    hdispatched.links, hdispatched.queued⟩, ⟨?_, ?_⟩⟩
  · intro t ht
    cases ht
    exact hAn
  · intro t p ht hp
    cases ht
    have hprocess : ((s₁.setState n .running).threads n).process = some p := hp
    show ((s₁.setState n .running).threads n).process.or _ = some p
    rw [hprocess]
    rfl

/-- A thread is linked in front of the queue. -/
theorem Lists.push (h : Lists s threads A Q) (ht : A t) :
    Lists (schedulerAddThread t s) threads A (fun u => Q u ∨ u = t) :=
  { h.setNext_join ht h.head with head := fun _ hu => Or.inr (Option.some.inj hu).symm }

/-- A record that was not a thread becomes one. -/
theorem Lists.fresh (h : Lists s threads A Q) (ht : t ∉ threads) (f : Thread → Thread) :
    Lists (s.modify t f) (t :: threads) (fun u => A u ∨ u = t) Q := by
  have hne : ∀ u ∈ threads, u ≠ t := by
    intro u hu heq
    rw [heq] at hu
    exact ht hu
  have hsame : ∀ u ∈ threads, (s.modify t f).threads u = s.threads u := by
    intro u hu
    exact update_of_ne (hne u hu) _ _
  constructor
  · intro u hu
    rcases hu with hu | rfl
    · exact List.mem_cons_of_mem t (h.made u hu)
    · exact List.mem_cons_self
  · intro u hu hnot
    rw [not_or] at hnot
    have hmem := (List.mem_cons.mp hu).resolve_left hnot.2
    rw [Sched.state, hsame u hmem]
    exact h.gone u hmem hnot.1
  · intro u hu
    rcases h.idle u hu with ⟨hA, hnone⟩
    rw [hsame u (h.made u hA)]
    exact ⟨Or.inl hA, hnone⟩
  · exact h.head
  · intro u w hu hw
    rw [Sched.next, hsame u (h.made u (h.queued u hu))] at hw
    exact h.links u w hu hw
  · exact fun u hu => Or.inl (h.queued u hu)

theorem Lists.create {stack pml4Phys : Nat} {proc : Option ProcPtr} (h : Lists s threads A Q)
    (ht : t ∉ threads) :
    Lists (threadCreateUser t stack pml4Phys proc s) (t :: threads) (fun u => A u ∨ u = t)
      (fun u => Q u ∨ u = t) :=
  (h.fresh ht _).push (Or.inr rfl)

/-- The thread `t`, linked to itself, takes the place of the current thread, which ends. -/
theorem Lists.retire {c : Tid} (h : Lists s threads A Q) (hself : SelfLinked t s) (hA : A t)
    (hcur : s.currentThread = some c) (hne : c ≠ t) (hproc : (s.threads c).process ≠ none) :
    Lists (threadExitMark s) threads (fun u => A u ∧ u ≠ c) (fun u => u = t) := by
  have hmark : threadExitMark s = (s.setState c .exited).setNext c none := by
    simp only [threadExitMark, hcur]
  have hfixed : ∀ u, ((threadExitMark s).threads u).fixed = (s.threads u).fixed := by
    intro u
    rw [hmark, setNext_fixed, setState_fixed]
  constructor
  · exact fun u hu => h.made u hu.1
  · intro u hu hnot
    rw [hmark, Sched.setNext_state, Sched.setState_state]
    by_cases heq : u = c
    · rw [heq, update_self]
    · rw [update_of_ne heq]
      exact h.gone u hu fun hAu => hnot ⟨hAu, heq⟩
  · intro u hu
    rw [hmark] at hu
    rcases h.idle u hu with ⟨hAu, hnone⟩
    rw [Thread.process_of_fixed (hfixed u)]
    refine ⟨⟨hAu, ?_⟩, hnone⟩
    intro heq
    rw [heq] at hnone
    exact hproc hnone
  · intro u hu
    rw [hmark] at hu
    exact (Option.some.inj (hself.head.symm.trans hu)).symm
  · intro u w hu hw
    subst hu
    rw [hmark, Sched.setNext_next, update_of_ne (Ne.symm hne), Sched.setState_next,
      hself.next] at hw
    exact (Option.some.inj hw).symm
  · intro u hu
    subst hu
    exact ⟨hA, Ne.symm hne⟩

theorem Lists.blockMark (h : Lists s threads A Q) (hruns : Runs s A) :
    Lists (threadBlockMark s) threads A Q := by
  unfold threadBlockMark
  cases hcur : s.currentThread with
  | none => exact h
  | some c => exact h.setState (hruns.active c hcur) .blocked

theorem Lists.exitMark (h : Lists s threads A Q) (hruns : Runs s A) :
    Lists (threadExitMark s) threads A Q := by
  unfold threadExitMark
  cases hcur : s.currentThread with
  | none => exact h
  | some c => exact (h.setState (hruns.active c hcur) .exited).setNext c nofun

/-- A thread that is woken up may run: it was blocked, so it has not ended. -/
theorem Lists.unblock (h : Lists s threads A Q) (ht : t ∈ threads)
    (hcall : threadUnblock fuel t s = some s') : ∃ Q', Lists s' threads A Q' := by
  unfold threadUnblock at hcall
  split at hcall
  · next hblocked =>
    have hA : A t := by
      by_contra hnot
      have hexited := h.gone t ht hnot
      rw [hblocked] at hexited
      cases hexited
    exact ⟨_, (h.setState hA .ready).enqueue hA hcall⟩
  · cases hcall
    exact ⟨Q, h⟩

theorem Runs.unblock (h : Runs s A) (hcall : threadUnblock fuel t s = some s') : Runs s' A := by
  rcases threadUnblock_fixed hcall with ⟨hthread, hprocess, hfixed⟩
  constructor
  · intro u hu
    exact h.active u (hthread.symm.trans hu)
  · intro u p hu hp
    rw [Thread.process_of_fixed (hfixed u)] at hp
    exact hprocess.trans (h.process u p (hthread.symm.trans hu) hp)

theorem threadBlockMark_fixed (s : Sched) (u : Tid) :
    ((threadBlockMark s).threads u).fixed = (s.threads u).fixed := by
  unfold threadBlockMark
  split
  · rfl
  · exact setState_fixed s _ _ u

theorem threadExitMark_fixed (s : Sched) (u : Tid) :
    ((threadExitMark s).threads u).fixed = (s.threads u).fixed := by
  unfold threadExitMark
  split
  · rfl
  · rw [setNext_fixed, setState_fixed]

end Scheduler

/-! ## The processes of the threads -/

section Owners

variable {k k' : Kernel} {live live' : List (Nat × Nat)} {A B Q : Tid → Prop} {p : ProcPtr} {t : Tid}
  {fuel size : Nat} {image : Nat → UInt8}

/-- Each thread runs on the tables of its process, and is the only one of it. -/
structure Owners (k : Kernel) (live : List (Nat × Nat)) (A : Tid → Prop) : Prop where
  own : ∀ t p, A t → (k.sched.threads t).process = some p →
    p ∈ live.map Prod.fst ∧ (k.procs p).pml4Phys = (k.sched.threads t).cr3
  one : ∀ t u p, A t → A u → (k.sched.threads t).process = some p →
    (k.sched.threads u).process = some p → t = u

/-- Neither the fixed fields of the threads nor the PML4s change. -/
theorem Owners.congr (h : Owners k live A)
    (hfixed : ∀ u, (k'.sched.threads u).fixed = (k.sched.threads u).fixed)
    (hprocs : ∀ q ∈ live.map Prod.fst, (k'.procs q).pml4Phys = (k.procs q).pml4Phys) :
    Owners k' live A where
  own := by
    intro t p hA hp
    rw [Thread.process_of_fixed (hfixed t)] at hp
    rcases h.own t p hA hp with ⟨hlive, hpml4⟩
    rw [Thread.cr3_of_fixed (hfixed t), hprocs p hlive]
    exact ⟨hlive, hpml4⟩
  one := by
    intro t u p hA hA' hp hp'
    rw [Thread.process_of_fixed (hfixed _)] at hp hp'
    exact h.one t u p hA hA' hp hp'

theorem Owners.mono (h : Owners k live A) (hB : ∀ u, B u → A u) : Owners k live B :=
  ⟨fun t p ht => h.own t p (hB t ht), fun t u p ht hu => h.one t u p (hB t ht) (hB u hu)⟩

/-- Between `k` and `k'` the thread `t` was made for the process `p`. -/
structure Spawned (k k' : Kernel) (live live' : List (Nat × Nat)) (p : ProcPtr) (t : Tid) :
    Prop where
  heap : (k'.heapState live').Ready
  more : ∀ q ∈ live.map Prod.fst, q ∈ live'.map Prod.fst
  fresh : t ∉ live.map Prod.fst
  listed : t ∈ live'.map Prod.fst
  record : p ∈ live'.map Prod.fst
  sched : ∃ stack, k'.sched = threadCreateUser t stack (k'.procs p).pml4Phys (some p) k.sched
  others : ∀ q, q ≠ p → (k'.procs q).pml4Phys = (k.procs q).pml4Phys

/-- The fields of the threads after that. -/
theorem Spawned.fields (h : Spawned k k' live live' p t) :
    (k'.sched.threads t).process = some p ∧
    (k'.sched.threads t).cr3 = (k'.procs p).pml4Phys ∧
    ∀ u, u ≠ t → (k'.sched.threads u).fixed = (k.sched.threads u).fixed := by
  rcases h.sched with ⟨stack, hsched⟩
  rw [hsched]
  refine ⟨?_, ?_, fun u hu => ?_⟩
  · simp [threadCreateUser, initThread, schedulerAddThread, Sched.setNext, Sched.modify]
  · simp [threadCreateUser, initThread, schedulerAddThread, Sched.setNext, Sched.modify]
  · simp [threadCreateUser, initThread, schedulerAddThread, Sched.setNext, Sched.modify, hu]

/-- The new thread takes the place of those of its process. -/
theorem Owners.spawn (h : Owners k live A) (hspawned : Spawned k k' live live' p t)
    (hmade : ∀ u, A u → u ≠ t) (hB : ∀ u, B u → A u)
    (hno : ∀ u, B u → (k.sched.threads u).process ≠ some p) :
    Owners k' live' (fun u => B u ∨ u = t) := by
  rcases hspawned.fields with ⟨hprocess, hcr3, hfixed⟩
  have hold : ∀ u q, B u → (k'.sched.threads u).process = some q →
      (k.sched.threads u).process = some q ∧ q ≠ p := by
    intro u q hu hq
    rw [Thread.process_of_fixed (hfixed u (hmade u (hB u hu)))] at hq
    refine ⟨hq, ?_⟩
    intro heq
    rw [heq] at hq
    exact hno u hu hq
  constructor
  · intro u q hu hq
    rcases hu with hu | rfl
    · rcases hold u q hu hq with ⟨hq', hne⟩
      rcases h.own u q (hB u hu) hq' with ⟨hlive, hpml4⟩
      rw [hspawned.others q hne, Thread.cr3_of_fixed (hfixed u (hmade u (hB u hu)))]
      exact ⟨hspawned.more q hlive, hpml4⟩
    · obtain rfl : p = q := Option.some.inj (hprocess.symm.trans hq)
      exact ⟨hspawned.record, hcr3.symm⟩
  · intro u v q hu hv hq hq'
    rcases hu with hu | rfl
    · rcases hold u q hu hq with ⟨hqu, hne⟩
      rcases hv with hv | rfl
      · exact h.one u v q (hB u hu) (hB v hv) hqu (hold v q hv hq').1
      · exact absurd (Option.some.inj (hprocess.symm.trans hq')).symm hne
    · obtain rfl : p = q := Option.some.inj (hprocess.symm.trans hq)
      rcases hv with hv | rfl
      · exact absurd rfl (hold v p hv hq').2
      · rfl

/-- What `thread_create_user` returns for a process, from a state `k₁` in which the record
has its PML4. -/
theorem spawned_of_create {k₁ : Kernel} {live₁ : List (Nat × Nat)} {entry stack : Nat}
    (hs : (k₁.heapState live₁).Ready) (hmore : ∀ q ∈ live.map Prod.fst, q ∈ live₁.map Prod.fst)
    (hp : p ∈ live₁.map Prod.fst) (hsched : k₁.sched = k.sched)
    (hprocs : ∀ q, q ≠ p → (k₁.procs q).pml4Phys = (k.procs q).pml4Phys)
    (hcall : k₁.threadCreateUser fuel entry stack (k₁.procs p).pml4Phys (some p) =
      some (some t, k')) : ∃ live', Spawned k k' live live' p t := by
  rcases Kernel.threadCreateUser_spec hs hcall with ⟨live', hcreated⟩
  rcases (Kernel.threadCreateUser_sched hcall).2 t rfl with ⟨kstack, hthread⟩
  rcases hcreated.thread t rfl with ⟨hfresh, hlisted⟩
  have hsub : ∀ q ∈ live₁.map Prod.fst, q ∈ live'.map Prod.fst := by
    intro q hq
    exact (hcreated.more.map Prod.fst).subset hq
  have hprocs' : k'.procs = k₁.procs := by rw [hcreated.rest]
  refine ⟨live', hcreated.ready, fun q hq => hsub q (hmore q hq), fun hmem => hfresh (hmore t hmem),
    hlisted, hsub p hp, ⟨kstack, ?_⟩, ?_⟩
  · rw [hthread, hprocs', hsched]
  · intro q hq
    rw [hprocs']
    exact hprocs q hq

theorem loadRaw_spawned (hs : (k.heapState live).Ready) (hp : p ∈ live.map Prod.fst)
    (hload : loadRaw fuel image size p k = some (some t, k')) :
    ∃ live', Spawned k k' live live' p t := by
  cases loadRaw_outcome hload with
  | @space a vm _ _ hspace hthread =>
    have hlen := (loadSpace_free k.kernelCr3 image size k.vm).length_le
    rw [hspace] at hlen
    have hready : ((loaded p a vm k).heapState live).Ready := hs.mono hlen
    have hpml4 : ((loaded p a vm k).procs p).pml4Phys = a := by simp [loaded, Kernel.modifyProc]
    have hsched : (loaded p a vm k).sched = k.sched := rfl
    apply spawned_of_create hready (fun q hq => hq) hp hsched
    · intro q hq
      simp [loaded, Kernel.modifyProc, hq]
    · rw [hpml4]
      exact hthread

/-- A `load_raw` that fails changes at most the PML4 of the record. -/
theorem loadRaw_failed (hs : (k.heapState live).Ready)
    (hload : loadRaw fuel image size p k = some (none, k')) :
    (k'.heapState live).Ready ∧ k'.sched = k.sched ∧
    (∀ q, q ≠ p → k'.procs q = k.procs q) ∧
    ((loadSpace k.kernelCr3 image size k.vm).1 = none → k'.procs = k.procs) := by
  have hlen := (loadSpace_free k.kernelCr3 image size k.vm).length_le
  cases loadRaw_outcome hload with
  | noSpace hspace =>
    rw [hspace] at hlen
    exact ⟨hs.mono hlen, rfl, fun _ _ => rfl, fun _ => rfl⟩
  | @space a vm _ _ hspace hthread =>
    rw [hspace] at hlen ⊢
    have hready : ((loaded p a vm k).heapState live).Ready := hs.mono hlen
    rcases Kernel.threadCreateUser_spec hready hthread with ⟨live', hcreated⟩
    have hheap := hcreated.ready
    rw [hcreated.failed rfl] at hheap
    refine ⟨hheap, (Kernel.threadCreateUser_sched hthread).1 rfl, ?_, by simp⟩
    intro q hq
    rw [hcreated.rest]
    simp [loaded, Kernel.modifyProc, hq]

end Owners

/-! ## One operation -/

namespace Tasks

variable {w w' : Tasks} {live live' : List (Nat × Nat)} {A Q : Tid → Prop} {p : ProcPtr} {t : Tid}
  {fuel size : Nat} {image : Nat → UInt8} {k' : Kernel}

/-- The invariant, with the allocations, the threads that may run and those queued. -/
structure Ok (w : Tasks) (live : List (Nat × Nat)) (A Q : Tid → Prop) : Prop where
  heap : (w.kernel.heapState live).Ready
  alive : ∀ t ∈ w.threads, t ∈ live.map Prod.fst
  lists : Lists w.kernel.sched w.threads A Q
  runs : Runs w.kernel.sched A
  owners : Owners w.kernel live A

def Inv (w : Tasks) : Prop := ∃ live A Q, w.Ok live A Q

theorem Boot.inv (h : w.Boot) : w.Inv := by
  rcases h.heap with ⟨live, hready, halive⟩
  refine ⟨live, (· ∈ w.threads), (· ∈ w.threads), hready, halive, ?_, ?_, ?_⟩
  · exact ⟨fun _ ht => ht, fun t ht hnot => absurd ht hnot,
      fun t ht => ⟨h.idle t ht, h.kernelThreads t (h.idle t ht)⟩, h.head,
      fun t u ht hu => h.links t ht u hu, fun _ ht => ht⟩
  · refine ⟨h.current, fun t p ht hp => ?_⟩
    rw [h.kernelThreads t (h.current t ht)] at hp
    cases hp
  · constructor
    · intro t p ht hp
      rw [h.kernelThreads t ht] at hp
      cases hp
    · intro t u p ht _ hp
      rw [h.kernelThreads t ht] at hp
      cases hp

theorem Inv.ownSpace (h : w.Inv) : w.OwnSpace := by
  rcases h with ⟨live, A, Q, hok⟩
  intro t p ht hp
  exact ⟨hok.runs.process t p ht hp, (hok.owners.own t p (hok.runs.active t ht) hp).2⟩

/-- The scheduler went on, with the same threads. -/
theorem Ok.sched {s' : Sched} {Q' : Tid → Prop} (h : w.Ok live A Q)
    (hfixed : ∀ u, (s'.threads u).fixed = (w.kernel.sched.threads u).fixed)
    (hlists : Lists s' w.threads A Q') (hruns : Runs s' A) :
    Ok ⟨{ w.kernel with sched := s' }, w.threads⟩ live A Q' :=
  ⟨h.heap, h.alive, hlists, hruns, h.owners.congr hfixed fun _ _ => rfl⟩

/-- `schedule`, after a mark on the current thread. -/
theorem Ok.schedule {s s' : Sched} (h : w.Ok live A Q) (hlists : Lists s w.threads A Q)
    (hfixed : ∀ u, (s.threads u).fixed = (w.kernel.sched.threads u).fixed)
    (hcur : s.currentThread = w.kernel.sched.currentThread)
    (hcall : Orchid.schedule fuel s = some s') :
    Inv ⟨{ w.kernel with sched := s' }, w.threads⟩ := by
  have hactive : ∀ t, s.currentThread = some t → s.state t = .running → A t := by
    intro t ht _
    rw [hcur] at ht
    exact h.runs.active t ht
  rcases hlists.schedule hactive hcall with ⟨Q', hlists', hruns⟩
  refine ⟨live, A, Q', h.sched (fun u => ?_) hlists' hruns⟩
  rw [schedule_fixed hcall, hfixed]

/-- A failed call changed the heap and other records at most. -/
theorem Ok.failed (h : w.Ok live A Q) (hheap : (k'.heapState live).Ready)
    (hsched : k'.sched = w.kernel.sched)
    (hprocs : ∀ q ∈ live.map Prod.fst, (k'.procs q).pml4Phys = (w.kernel.procs q).pml4Phys) :
    Inv ⟨k', w.threads⟩ := by
  refine ⟨live, A, Q, hheap, h.alive, ?_, ?_, h.owners.congr (fun u => ?_) hprocs⟩
  · show Lists k'.sched w.threads A Q
    rw [hsched]
    exact h.lists
  · show Runs k'.sched A
    rw [hsched]
    exact h.runs
  · show (k'.sched.threads u).fixed = _
    rw [hsched]

theorem Ok.notMade (h : w.Ok live A Q) (hspawned : Spawned w.kernel k' live live' p t) :
    t ∉ w.threads := fun hmem => hspawned.fresh (h.alive t hmem)

theorem Ok.ne_new (h : w.Ok live A Q) (hspawned : Spawned w.kernel k' live live' p t) (u : Tid)
    (hu : A u) : u ≠ t := by
  intro heq
  rw [heq] at hu
  exact h.notMade hspawned (h.lists.made t hu)

/-- The scheduler with the new thread in front of the queue. -/
theorem Ok.created (h : w.Ok live A Q) (hspawned : Spawned w.kernel k' live live' p t) :
    Lists k'.sched (t :: w.threads) (fun u => A u ∨ u = t) (fun u => Q u ∨ u = t) ∧
    k'.sched.currentThread = w.kernel.sched.currentThread ∧
    k'.sched.currentProcess = w.kernel.sched.currentProcess := by
  rcases hspawned.sched with ⟨stack, hsched⟩
  rw [hsched]
  exact ⟨h.lists.create (h.notMade hspawned), rfl, rfl⟩

theorem Ok.aliveWith (h : w.Ok live A Q) (hspawned : Spawned w.kernel k' live live' p t) :
    ∀ u ∈ t :: w.threads, u ∈ live'.map Prod.fst := by
  intro u hu
  rcases List.mem_cons.mp hu with rfl | hu
  · exact hspawned.listed
  · exact hspawned.more u (h.alive u hu)

/-- A thread was made for a new process. -/
theorem Ok.spawn (h : w.Ok live A Q) (hspawned : Spawned w.kernel k' live live' p t)
    (hfresh : p ∉ live.map Prod.fst) :
    Ok ⟨k', t :: w.threads⟩ live' (fun u => A u ∨ u = t) (fun u => Q u ∨ u = t) := by
  rcases h.created hspawned with ⟨hlists, hcurrent, hprocess⟩
  rcases hspawned.fields with ⟨-, -, hfixed⟩
  refine ⟨hspawned.heap, h.aliveWith hspawned, hlists, ⟨?_, ?_⟩, ?_⟩
  · intro u hu
    exact Or.inl (h.runs.active u (hcurrent.symm.trans hu))
  · intro u q hu hq
    have hcur := hcurrent.symm.trans hu
    rw [Thread.process_of_fixed (hfixed u (h.ne_new hspawned u (h.runs.active u hcur)))] at hq
    exact hprocess.trans (h.runs.process u q hcur hq)
  · apply h.owners.spawn hspawned (h.ne_new hspawned) fun u hu => hu
    intro u hu hq
    exact hfresh (h.owners.own u p hu hq).1

/-- The main thread of the record is set, and the thread is linked in once more: neither the
fixed fields of the threads nor the PML4s change. -/
theorem installThread_fixed (p : ProcPtr) (t : Tid) (k : Kernel) :
    (∀ u, ((installThread p t k).sched.threads u).fixed = (k.sched.threads u).fixed) ∧
    ∀ q, ((installThread p t k).procs q).pml4Phys = (k.procs q).pml4Phys := by
  exact ⟨fun u => setNext_fixed k.sched t k.sched.readyQueue u, installThread_pml4Phys p t k⟩

/-- The thread is linked in front of the queue once more, and becomes the main thread. -/
theorem Ok.install {k : Kernel} {threads : List Tid} (h : Ok ⟨k, threads⟩ live A Q) (ht : A t) :
    Ok ⟨installThread p t k, threads⟩ live A (fun u => Q u ∨ u = t) := by
  rcases installThread_fixed p t k with ⟨hfixed, hprocs⟩
  refine ⟨h.heap, h.alive, h.lists.push ht, ⟨h.runs.active, ?_⟩,
    h.owners.congr hfixed fun q _ => hprocs q⟩
  intro u q hu hq
  rw [Thread.process_of_fixed (hfixed u)] at hq
  exact h.runs.process u q hu hq

/-- The state after the record of a new process was allocated. -/
theorem Ok.record {k₁ : Kernel} (h : w.Ok live A Q)
    (hmalloc : w.kernel.kmalloc fuel sizeofProcess = some (p, k₁)) (hp : p ≠ 0) :
    ((newRecord p k₁).heapState ((p, sizeofProcess) :: live)).Ready ∧ p ∉ live.map Prod.fst ∧
    (newRecord p k₁).sched = w.kernel.sched ∧
    ∀ q, q ≠ p → (newRecord p k₁).procs q = w.kernel.procs q := by
  have hready := (Kernel.kmalloc_spec h.heap (by decide) hmalloc).1
  rw [if_neg hp] at hready
  refine ⟨hready, Kernel.newest_notMem hready, ?_, ?_⟩
  · show k₁.sched = w.kernel.sched
    exact Kernel.kmalloc_sched hmalloc
  · intro q hq
    rw [← Kernel.kmalloc_procs hmalloc]
    exact newRecord_procs k₁ hq

/-- The record is given back. -/
theorem Ok.release {k₁ : Kernel} (h : w.Ok live A Q)
    (hheap : (k₁.heapState ((p, sizeofProcess) :: live)).Ready) (hfree : k₁.kfree fuel p = some k')
    (hsched : k₁.sched = w.kernel.sched) (hprocs : ∀ q, q ≠ p → k₁.procs q = w.kernel.procs q) :
    Inv ⟨k', w.threads⟩ := by
  rcases Kernel.kfree_spec hheap hfree with ⟨hready, hk'⟩
  apply h.failed hready
  · rw [hk']
    exact hsched
  · intro q hq
    have hne : q ≠ p := by
      intro heq
      rw [heq] at hq
      exact Kernel.newest_notMem hheap hq
    rw [hk']
    show (k₁.procs q).pml4Phys = _
    rw [hprocs q hne]

theorem Ok.load {r : Option ProcPtr} (h : w.Ok live A Q)
    (hcall : elfLoad fuel image size w.kernel = some (r, k')) : (w.made r k').Inv := by
  cases elfLoad_outcome hcall with
  | noRecord hmalloc =>
    rcases Kernel.kmalloc_spec h.heap (by decide) hmalloc with ⟨hready, -, hk'⟩
    apply h.failed hready (Kernel.kmalloc_sched hmalloc)
    intro q _
    rw [Kernel.kmalloc_procs hmalloc]
  | notLoaded hmalloc hp hload hfree =>
    rcases h.record hmalloc hp with ⟨hready, -, hsched, hprocs⟩
    rcases loadRaw_failed hready hload with ⟨hready₂, hsched₂, hprocs₂, -⟩
    apply h.release hready₂ hfree (hsched₂.trans hsched)
    intro q hq
    rw [hprocs₂ q hq, hprocs q hq]
  | @done p t k₁ k₂ hmalloc hp hload =>
    rcases h.record hmalloc hp with ⟨hready, hfresh, hsched, hprocs⟩
    rcases loadRaw_spawned hready List.mem_cons_self hload with ⟨live', hspawned⟩
    have hall : Spawned w.kernel k₂ live live' p t := by
      refine ⟨hspawned.heap, fun q hq => hspawned.more q (List.mem_cons_of_mem _ hq), fun hmem =>
        hspawned.fresh (List.mem_cons_of_mem _ hmem), hspawned.listed, hspawned.record, ?_, ?_⟩
      · rw [← hsched]
        exact hspawned.sched
      · intro q hq
        rw [hspawned.others q hq, hprocs q hq]
    have hmade : w.made (some p) (installThread p t k₂) =
        ⟨installThread p t k₂, t :: w.threads⟩ := by
      simp [made, installThread, Kernel.modifyProc]
    rw [hmade]
    exact ⟨live', _, _, (h.spawn hall hfresh).install (Or.inr rfl)⟩

theorem Ok.fork {r : Option ProcPtr} (h : w.Ok live A Q)
    (hcall : sysFork fuel w.kernel = some (r, k')) : (w.made r k').Inv := by
  cases sysFork_outcome hcall with
  | noProcess => exact ⟨live, A, Q, h⟩
  | noRecord _ hmalloc =>
    rcases Kernel.kmalloc_spec h.heap (by decide) hmalloc with ⟨hready, -, -⟩
    apply h.failed hready (Kernel.kmalloc_sched hmalloc)
    intro q _
    rw [Kernel.kmalloc_procs hmalloc]
  | @noPml4 _ p k₁ _ _ hmalloc hp halloc hfree =>
    rcases h.record hmalloc hp with ⟨hready, -, hsched, hprocs⟩
    have hlen : k₁.vm.allocPage.2.free.length ≤ k₁.vm.free.length := k₁.vm.allocPage_free.length_le
    have hready' : ({ newRecord p k₁ with vm := k₁.vm.allocPage.2 }.heapState
      ((p, sizeofProcess) :: live)).Ready := HeapState.Ready.mono hready hlen
    exact h.release hready' hfree hsched hprocs
  | @noSpace cur p k₁ _ vm _ hmalloc hp halloc hspace hfree =>
    rcases h.record hmalloc hp with ⟨hready, -, hsched, hprocs⟩
    -- with the PML4 back there are at most as many free frames as before
    have hlen : (vm.freePage k₁.vm.allocPage.1).free.length ≤ k₁.vm.free.length := by
      have hcount := fork_frames halloc hspace
      have hback := freePage_length k₁.vm.allocPage.1 vm
      omega
    have hready' : ({ newRecord p k₁ with vm := vm.freePage k₁.vm.allocPage.1 }.heapState
      ((p, sizeofProcess) :: live)).Ready := HeapState.Ready.mono hready hlen
    exact h.release hready' hfree hsched hprocs
  | @noThread cur p k₁ k₂ _ vm _ hmalloc hp halloc hspace hthread hfree =>
    rcases h.record hmalloc hp with ⟨hready, -, hsched, hprocs⟩
    have hcount := fork_frames halloc hspace
    have hready₁ : ((forkChild p k₁.vm.allocPage.1 vm k₁).heapState
      ((p, sizeofProcess) :: live)).Ready := HeapState.Ready.mono hready (Nat.le_of_succ_le hcount)
    rcases Kernel.threadCreateUser_spec hready₁ hthread with ⟨live', hcreated⟩
    have hready₂ := hcreated.ready
    rw [hcreated.failed rfl] at hready₂
    have hready' : ({ k₂ with vm := k₂.vm.freePage k₁.vm.allocPage.1 }.heapState
        ((p, sizeofProcess) :: live)).Ready := by
      apply HeapState.Ready.freePage hready₂
      have hroom : HasRoom k₁.heap k₁.vm := hready.2.1
      have hreach : reach k₂.heap k₂.vm ≤ reach k₁.heap vm := hcreated.growth.2
      unfold HasRoom at hroom
      unfold reach at *
      omega
    apply h.release hready' hfree
    · show k₂.sched = w.kernel.sched
      rw [(Kernel.threadCreateUser_sched hthread).1 rfl]
      exact hsched
    · intro q hq
      show k₂.procs q = w.kernel.procs q
      rw [hcreated.rest, ← hprocs q hq]
      simp [forkChild, Kernel.modifyProc, hq]
  | @done cur p t k₁ k₂ vm _ hmalloc hp halloc hspace hthread =>
    rcases h.record hmalloc hp with ⟨hready, hfresh, hsched, hprocs⟩
    have hcount := fork_frames halloc hspace
    have hready₁ : ((forkChild p k₁.vm.allocPage.1 vm k₁).heapState
      ((p, sizeofProcess) :: live)).Ready := HeapState.Ready.mono hready (Nat.le_of_succ_le hcount)
    have hpml4 : ((forkChild p k₁.vm.allocPage.1 vm k₁).procs p).pml4Phys = k₁.vm.allocPage.1 := by
      simp [forkChild, Kernel.modifyProc]
    have hspawned : ∃ live', Spawned w.kernel k₂ live live' p t := by
      have hsched₁ : (forkChild p k₁.vm.allocPage.1 vm k₁).sched = w.kernel.sched := hsched
      apply spawned_of_create hready₁ (fun q hq => List.mem_cons_of_mem _ hq) List.mem_cons_self
        hsched₁
      · intro q hq
        rw [← hprocs q hq]
        simp [forkChild, Kernel.modifyProc, hq]
      · rw [hpml4]
        exact hthread
    rcases hspawned with ⟨live', hspawned⟩
    set k₃ : Kernel := { k₂.modifyProc p fun r => { r with mainThread := some t, next :=
      k₂.processList } with processList := some p }
    have hmade : w.made (some p) k₃ = ⟨k₃, t :: w.threads⟩ := by
      simp [made, k₃, Kernel.modifyProc]
    have hok := h.spawn hspawned hfresh
    rw [hmade]
    refine ⟨live', _, _, hok.heap, hok.alive, hok.lists, hok.runs, hok.owners.congr (fun _ => rfl) ?_⟩
    exact fun q _ => Kernel.modifyProc_pml4Phys k₂ p (f := fun r =>
      { r with mainThread := some t, next := k₂.processList }) (fun _ => rfl) q

/-- A `sys_exec` that returns has not stored the new PML4. -/
theorem Ok.execReturns (h : w.Ok live A Q)
    (hkeeps : w.kernel.sched.currentProcess = none ∨
      (loadSpace w.kernel.kernelCr3 image size w.kernel.vm).1 = none)
    (hcall : sysExec fuel image size w.kernel = some (false, k')) : Inv ⟨k', w.threads⟩ := by
  cases sysExec_outcome hcall with
  | noProcess => exact ⟨live, A, Q, h⟩
  | notLoaded hcur hload =>
    rcases loadRaw_failed h.heap hload with ⟨hready, hsched, -, hprocs⟩
    have hnone := hkeeps.resolve_left (by rw [hcur]; simp)
    apply h.failed hready hsched
    intro q _
    rw [hprocs hnone]

/-- The thread `t` takes the place of the caller `c`, which ends. -/
theorem Ok.replace {c : Tid} {k : Kernel} {s' : Sched} (h : w.Ok live A Q)
    (hspawned : Spawned w.kernel k live live' p t)
    (hself : SelfLinked t (installThread p t k).sched)
    (hcur : w.kernel.sched.currentThread = some c)
    (hproc : (w.kernel.sched.threads c).process = some p)
    (hexit : Orchid.schedule fuel (threadExitMark (installThread p t k).sched) = some s') :
    Inv ⟨{ installThread p t k with sched := s' }, t :: w.threads⟩ := by
  have hA := h.runs.active c hcur
  have hne := h.ne_new hspawned
  rcases h.created hspawned with ⟨hlists, hcurrent, -⟩
  rcases hspawned.fields with ⟨-, -, hfixed⟩
  rcases installThread_fixed p t k with ⟨hfixed₁, hprocs₁⟩
  have hcur₁ : (installThread p t k).sched.currentThread = some c := hcurrent.trans hcur
  have hproc₁ : ((installThread p t k).sched.threads c).process ≠ none := by
    rw [Thread.process_of_fixed (hfixed₁ c), Thread.process_of_fixed (hfixed c (hne c hA)), hproc]
    simp
  -- the caller goes, and is not put back
  have hretired := (hlists.push (Or.inr rfl)).retire hself (Or.inr rfl) hcur₁ (hne c hA) hproc₁
  have hexited : ∀ u, (threadExitMark (installThread p t k).sched).currentThread = some u →
      (threadExitMark (installThread p t k).sched).state u = .running →
      (A u ∨ u = t) ∧ u ≠ c := by
    intro u hu hrun
    simp only [threadExitMark, hcur₁] at hu hrun
    obtain rfl : c = u := Option.some.inj (hcur₁.symm.trans hu)
    rw [Sched.setNext_state, Sched.setState_state, update_self] at hrun
    cases hrun
  rcases hretired.schedule hexited hexit with ⟨Q', hlists', hruns'⟩
  -- without the caller, the new thread is the only one of the process
  have howners : Owners k live' (fun u => (A u ∧ u ≠ c) ∨ u = t) := by
    apply h.owners.spawn hspawned hne fun u hu => hu.1
    intro u hu hq
    exact hu.2 (h.owners.one u c p hu.1 hA hq hproc)
  refine ⟨live', _, Q', hspawned.heap, h.aliveWith hspawned, hlists', hruns', ?_⟩
  apply (howners.mono fun u hu => ?_).congr
  · intro u
    rw [schedule_fixed hexit, threadExitMark_fixed, hfixed₁]
  · exact fun q _ => hprocs₁ q
  · rcases hu.1 with hAu | heq
    · exact Or.inl ⟨hAu, hu.2⟩
    · exact Or.inr heq

/-- A `sys_exec` that succeeds ends the thread that called it, and the new thread is the
next to run. -/
theorem Ok.execEnds {c : Tid} {k₁ : Kernel} {s' : Sched} (h : w.Ok live A Q)
    (hcur : w.kernel.sched.currentThread = some c)
    (hproc : (w.kernel.sched.threads c).process = some p)
    (hcall : sysExec fuel image size w.kernel = some (true, k₁))
    (hexit : Orchid.schedule fuel (threadExitMark k₁.sched) = some s') :
    Inv ⟨{ k₁ with sched := s' }, (w.made k₁.sched.currentProcess k₁).threads⟩ := by
  cases sysExec_outcome hcall with
  | @done p' t k₂ hcurrent hload =>
    -- the process is the caller's
    obtain rfl : p = p' :=
      Option.some.inj ((h.runs.process c p hcur hproc).symm.trans hcurrent)
    have hlive := (h.owners.own c p (h.runs.active c hcur) hproc).1
    rcases loadRaw_spawned h.heap hlive hload with ⟨live', hspawned⟩
    rcases loadRaw_queue hload with ⟨hhead, hstate⟩
    have hcurrent₁ : (installThread p t k₂).sched.currentProcess = some p :=
      (h.created hspawned).2.2.trans hcurrent
    have hmade : (w.made (installThread p t k₂).sched.currentProcess
        (installThread p t k₂)).threads = t :: w.threads := by
      rw [hcurrent₁]
      simp [made, installThread, Kernel.modifyProc]
    rw [hmade]
    exact h.replace hspawned (selfLinked_installThread hhead hstate) hcur hproc hexit

/-- Every operation that keeps process and thread in step keeps the invariant. -/
theorem Inv.step (h : w.Inv) (hstep : w.NextKeeping w') : w'.Inv := by
  rcases h with ⟨live, A, Q, hok⟩
  rcases hstep with ⟨op, hkeeps, hstep⟩
  cases op with
  | schedule fuel =>
    rcases Option.map_eq_some_iff.mp hstep with ⟨s, hcall, rfl⟩
    exact hok.schedule hok.lists (fun _ => rfl) rfl hcall
  | block fuel =>
    rcases Option.map_eq_some_iff.mp hstep with ⟨s, hcall, rfl⟩
    apply hok.schedule (hok.lists.blockMark hok.runs) (threadBlockMark_fixed _) _ hcall
    unfold threadBlockMark
    split <;> rfl
  | unblock fuel t =>
    simp only [Tasks.step] at hstep
    split at hstep
    · next ht =>
      rcases Option.map_eq_some_iff.mp hstep with ⟨s, hcall, rfl⟩
      rcases hok.lists.unblock ht hcall with ⟨Q', hlists⟩
      exact ⟨live, A, Q', hok.sched (threadUnblock_fixed hcall).2.2 hlists (hok.runs.unblock hcall)⟩
    · cases hstep
  | exit fuel =>
    rcases Option.map_eq_some_iff.mp hstep with ⟨s, hcall, rfl⟩
    apply hok.schedule (hok.lists.exitMark hok.runs) (threadExitMark_fixed _) _ hcall
    unfold threadExitMark
    split <;> rfl
  | load fuel image size =>
    rcases Option.map_eq_some_iff.mp hstep with ⟨⟨r, k⟩, hcall, rfl⟩
    exact hok.load hcall
  | fork fuel =>
    rcases Option.map_eq_some_iff.mp hstep with ⟨⟨r, k⟩, hcall, rfl⟩
    exact hok.fork hcall
  | exec fuel image size =>
    simp only [Tasks.step] at hstep
    split at hstep
    · cases hstep
    · next k hcall =>
      cases hstep
      exact hok.execReturns (hkeeps false k hcall) hcall
    · next k hcall =>
      rcases Option.map_eq_some_iff.mp hstep with ⟨s, hexit, rfl⟩
      rcases hkeeps true k hcall with ⟨c, p, hcur, hproc⟩
      exact hok.execEnds hcur hproc hcall hexit

end Tasks

/-- In every run in which each `sys_exec` that succeeds is called by the thread of a process,
and each that fails does so before it stores the new PML4, a system call uses the
tables the calling thread is running on. -/
theorem ownSpace_of_keeping {w : Tasks} (h : Reachable Tasks.Boot Tasks.NextKeeping w) :
    w.OwnSpace :=
  Tasks.Inv.ownSpace (h.invariant (fun _ => Tasks.Boot.inv) fun _ _ hstep hinv => hinv.step hstep)

/-! ## A run with too little memory -/

section Runs

/-- `schedule`, if the current thread does not go back to the queue and `t` is its head. -/
theorem schedule_of_waiting {s : Sched} {c t : Tid} (hcur : s.currentThread = some c)
    (hstate : s.state c ≠ .running) (hhead : s.readyQueue = some t) (fuel : Nat) :
    schedule fuel s = some (dispatch t { s with readyQueue := s.next t }) := by
  have hpick : pickNext s = (some t, { s with readyQueue := s.next t }) := by
    simp only [pickNext, hhead]
  have hstays : requeueCurrent fuel c { s with readyQueue := s.next t } =
      some { s with readyQueue := s.next t } := if_neg fun h => hstate h.1
  unfold schedule
  rw [hcur]
  simp only [hpick, hstays, Option.map_some]
  rw [hcur]

/-- Seven free frames, and empty tables. -/
def taskVm : Vm := ⟨fun _ => 0, pageRun 7⟩

/-- A kernel with an idle thread, and a heap of which little is left. -/
structure TaskBoot (k : Kernel) (idle : Tid) (live : List (Nat × Nat)) : Prop where
  boot : Tasks.Boot ⟨k, [idle]⟩
  cr3 : k.kernelCr3 = 0x1000
  vm : k.vm = taskVm
  noProcess : k.sched.currentProcess = none
  current : k.sched.currentThread = some idle
  state : k.sched.state idle = .ready
  size : k.heap.endVirt ≤ heapStartVirt + 65536
  spare : (k.heapState live).Spare 5400 3
  listed : idle ∈ live.map Prod.fst
  large : ∃ p, (p, 60000) ∈ live

theorem exists_taskBoot : ∃ k idle live, TaskBoot k idle live := by
  have hspare : ((bootKernel taskVm).heapState []).Spare (heapInitialPages * pageSize - headerSize)
      1 := freshHeap_spare (by decide)
  -- the block with the stack of the idle thread, then its record
  rcases Kernel.kmalloc_of_spare hspare 60000 (by decide) (by decide) (by decide : 1 < 8) with
    ⟨stack, k₁, hmalloc₁, -, hk₁, hspare₁⟩
  rcases Kernel.kmalloc_of_spare hspare₁ sizeofThread (by decide) (by decide) (by decide : 1 + 1 < 8)
    with ⟨idle, k₂, hmalloc₂, -, hk₂, hspare₂⟩
  have hend₁ := (Kernel.kmalloc_spec hspare.ready (by decide) hmalloc₁).2.1.endVirt_le (by rw [hk₁])
  have hend₂ := (Kernel.kmalloc_spec hspare₁.ready (by decide) hmalloc₂).2.1.endVirt_le
    (by rw [hk₂])
  have hsched : k₂.sched = (bootKernel taskVm).sched := by rw [hk₂, hk₁]
  refine ⟨{ k₂ with sched := schedulerInit idle stack k₂.kernelCr3 k₂.sched }, idle,
    [(idle, sizeofThread), (stack, 60000)], ?_⟩
  constructor
  · constructor
    · exact ⟨[(idle, sizeofThread), (stack, 60000)], hspare₂.ready, by simp⟩
    · intro t ht
      obtain rfl := List.mem_singleton.mp ht
      simp [schedulerInit, threadCreate, initThread, schedulerAddThread, Sched.setState,
        Sched.setNext, Sched.modify]
    · intro t ht
      cases ht
      exact List.mem_singleton_self _
    · intro t ht
      cases ht
      exact List.mem_singleton_self _
    · intro t ht
      cases ht
    · intro t ht u hu
      obtain rfl := List.mem_singleton.mp ht
      simp [schedulerInit, threadCreate, initThread, schedulerAddThread, Sched.setState,
        Sched.setNext, Sched.modify, Sched.next, hsched, bootKernel] at hu
  · show k₂.kernelCr3 = 0x1000
    rw [hk₂, hk₁]
    rfl
  · show k₂.vm = taskVm
    rw [hk₂, hk₁]
    rfl
  · show k₂.sched.currentProcess = none
    rw [hsched]
    rfl
  · rfl
  · simp [schedulerInit, Sched.state, Sched.setState, Sched.modify]
  · exact hend₂.trans hend₁
  · rcases hspare₂ with ⟨hinit, hroom, bs, ht, hl, hlen, b, hb, hfree, hsize⟩
    refine ⟨hinit, hroom, bs, ht, hl, hlen, b, hb, hfree, Nat.le_trans ?_ hsize⟩
    decide
  · simp
  · exact ⟨stack, by simp⟩

/-- The thread of the only process runs; there are two frames left, and too little of the
heap for another stack. -/
structure TaskFull (w : Tasks) (t : Tid) (p : ProcPtr) (live : List (Nat × Nat)) : Prop where
  reachable : Reachable Tasks.Boot Tasks.NextKeeping w
  current : w.kernel.sched.currentThread = some t
  process : (w.kernel.sched.threads t).process = some p
  frames : w.kernel.vm.free.length = 2
  freeOk : FreeOk w.kernel.vm.free
  inUse : (w.kernel.procs p).pml4Phys ∉ w.kernel.vm.free
  size : w.kernel.heap.endVirt ≤ heapStartVirt + 65536
  ready : (w.kernel.heapState live).Ready
  large : ∃ a, (a, 60000) ∈ live
  stack : ∃ a, (a, stackSize) ∈ live

theorem exists_taskFull : ∃ w t p live, TaskFull w t p live := by
  rcases exists_taskBoot with ⟨k, idle, live₀, hk⟩
  have hlen : k.vm.free.length = 7 := by
    rw [hk.vm]
    rfl
  have hwf : WellFormed k.kernelCr3 k.vm := by
    rw [hk.cr3, hk.vm]
    exact AddressSpace.wellFormed_zero (by decide) (by decide) (freeOk_pageRun (by decide))
  have hboot : World.Boot ⟨k, []⟩ :=
    boot_of_wellFormed hwf (by rw [hlen]; decide) hk.noProcess hk.spare.ready
  rcases hboot.inv with ⟨⟨D, E, live₁, htracks⟩, -⟩
  change Tracks D E live₁ k [] at htracks
  have habsent : child k.vm.mem k.kernelCr3 stackSlot = none := by
    rw [hk.vm]
    exact child_zero _ _
  -- the program is loaded
  rcases elfLoad_empty htracks.spaces habsent (by omega) hk.spare (by decide)
    (by decide : 3 + 2 < 8) (fun _ => 0) with
    ⟨p, k', live, -, hcall, -, -, hcount, hspare, ⟨stack, hstack, hmore⟩, hend⟩
  rcases htracks.elfLoad habsent hcall with ⟨D', E', live', htracks', -⟩
  have hload : Tasks.NextKeeping ⟨k, [idle]⟩ (Tasks.made ⟨k, [idle]⟩ (some p) k') := by
    refine ⟨.load 8 (fun _ => 0) 0, trivial, ?_⟩
    simp only [Tasks.step, hcall, Option.map_some]
  -- its thread is the head of the queue
  have hthread : ∃ t, k'.sched.readyQueue = some t ∧ (k'.sched.threads t).process = some p ∧
      k'.sched.currentThread = some idle ∧ k'.sched.state idle ≠ .running := by
    cases elfLoad_outcome hcall with
    | @done p t k₁ k₂ hmalloc hp hraw =>
      have hs₁ := (Kernel.kmalloc_spec hk.spare.ready (by decide) hmalloc).1
      rw [if_neg hp] at hs₁
      have hready : ((newRecord p k₁).heapState ((p, sizeofProcess) :: live₀)).Ready := hs₁
      rcases loadRaw_spawned hready (by simp) hraw with ⟨live₂, hspawned⟩
      have hsched : (newRecord p k₁).sched = k.sched := by
        show k₁.sched = k.sched
        exact Kernel.kmalloc_sched hmalloc
      have hne : idle ≠ t := fun heq => hspawned.fresh (heq ▸ List.mem_cons_of_mem _ hk.listed)
      refine ⟨t, rfl, ?_, ?_, ?_⟩
      · rw [Thread.process_of_fixed ((Tasks.installThread_fixed p t k₂).1 t)]
        exact hspawned.fields.1
      · rcases hspawned.sched with ⟨s, heq⟩
        show k₂.sched.currentThread = some idle
        rw [heq, hsched]
        exact hk.current
      · rcases hspawned.sched with ⟨s, heq⟩
        show (k₂.sched.setNext t k₂.sched.readyQueue).state idle ≠ .running
        rw [Sched.setNext_state, heq, hsched]
        have hstate := hk.state
        simp_all [Orchid.threadCreateUser, initThread, schedulerAddThread, Sched.setNext,
          Sched.modify, Sched.state]
  rcases hthread with ⟨t, hhead, hproc, hcur, hwaits⟩
  have hsched := schedule_of_waiting hcur hwaits hhead 0
  set s' := dispatch t { k'.sched with readyQueue := k'.sched.next t }
  refine ⟨⟨{ k' with sched := s' }, (Tasks.made ⟨k, [idle]⟩ (some p) k').threads⟩, t, p, live, ?_⟩
  constructor
  · -- and is dispatched
    refine .step (.step (.init hk.boot) hload) ⟨.schedule 0, trivial, ?_⟩
    show Tasks.resched _ (schedule 0 k'.sched) = _
    rw [hsched]
    rfl
  · rfl
  · have hsame := setState_fixed { k'.sched with readyQueue := k'.sched.next t } t .running t
    exact (Thread.process_of_fixed hsame).trans hproc
  · show k'.vm.free.length = 2
    omega
  · exact htracks'.spaces.forest.freeOk
  · exact htracks'.spaces.not_free (htracks'.owned p (by simp))
  · exact hend.trans hk.size
  · exact hspare.ready
  · exact hk.large.imp fun a ha => hmore.subset ha
  · exact ⟨stack, hstack⟩

/-- There is a run that loads a program and dispatches it. -/
theorem ownSpace_of_keeping_loaded : ∃ w : Tasks, Reachable Tasks.Boot Tasks.NextKeeping w ∧
    (∃ t p, w.kernel.sched.currentThread = some t ∧
      (w.kernel.sched.threads t).process = some p) ∧ w.OwnSpace := by
  rcases exists_taskFull with ⟨w, t, p, live, hw⟩
  exact ⟨w, hw.reachable, ⟨t, p, hw.current, hw.process⟩, ownSpace_of_keeping hw.reachable⟩

/-- A heap of 16 pages does not hold the large block and a second stack. -/
theorem TaskFull.noThread {w : Tasks} {t u : Tid} {p : ProcPtr} {live : List (Nat × Nat)}
    {k k' : Kernel} {fuel entry stack pml4Phys : Nat} {proc : Option ProcPtr}
    (h : TaskFull w t p live) (hk : (k.heapState live).Ready)
    (hend : k.heap.endVirt ≤ heapStartVirt + 65536) (hfree : k.vm.free = []) :
    k.threadCreateUser fuel entry stack pml4Phys proc ≠ some (some u, k') := by
  intro hcall
  cases Kernel.threadCreateUser_outcome hcall with
  | @done _ kstack k₁ k₂ hmalloc hu hstack hkstack =>
    rcases Kernel.kmalloc_spec hk (by decide) hmalloc with ⟨hs₁, hgrow₁, -⟩
    rw [if_neg hu] at hs₁
    rcases Kernel.kmalloc_spec hs₁ (by decide) hstack with ⟨hs₂, hgrow₂, -⟩
    rw [if_neg hkstack] at hs₂
    have hreach : reach k₂.heap k₂.vm ≤ reach k.heap k.vm := hgrow₂.2.trans hgrow₁.2
    unfold reach at hreach
    rw [hfree, List.length_nil] at hreach
    rcases h.large with ⟨a, ha⟩
    rcases h.stack with ⟨s, hs⟩
    -- three blocks at different addresses
    have hnew := Kernel.newest_notMem hs₂
    have hka : a ≠ kstack := by
      rintro rfl
      exact hnew (List.mem_cons_of_mem _ (List.mem_map_of_mem ha))
    have hks : s ≠ kstack := by
      rintro rfl
      exact hnew (List.mem_cons_of_mem _ (List.mem_map_of_mem hs))
    have has : s ≠ a := by
      rintro rfl
      rcases hk with ⟨-, -, bs, -, hl⟩
      have heq := List.inj_on_of_nodup_map hl.nodup ha hs rfl
      have hsizes : 60000 = stackSize := congrArg Prod.snd heq
      exact absurd hsizes (by decide)
    have hka' : (kstack, stackSize) ∈ (kstack, stackSize) :: (u, sizeofThread) :: live := by simp
    have ha' : (a, 60000) ∈ (kstack, stackSize) :: (u, sizeofThread) :: live := by simp [ha]
    have hs' : (s, stackSize) ∈ (kstack, stackSize) :: (u, sizeofThread) :: live := by simp [hs]
    -- which lie one behind the other in the heap
    have hin₁ := hs₂.inside hka'
    have hin₂ := hs₂.inside ha'
    have hin₃ := hs₂.inside hs'
    have hap₁ := hs₂.apart hka' ha' hka (by decide) (by decide)
    have hap₂ := hs₂.apart hka' hs' hks (by decide) (by decide)
    have hap₃ := hs₂.apart ha' hs' has (by decide) (by decide)
    have hsize : stackSize = 4096 := rfl
    simp only [Kernel.heapState] at hin₁ hin₂ hin₃
    omega

/-- A `sys_exec` of the running thread takes the two frames for the new PML4 and the stack
page, stores the PML4 in the record of the process, and finds no memory for the new thread.
It returns to the old thread, which still runs on the old tables. -/
theorem exec_leaves_space : ∃ w, Reachable Tasks.Boot Tasks.Next w ∧ ¬ w.OwnSpace := by
  rcases exists_taskFull with ⟨w, t, p, live, hw⟩
  have hinv : w.Inv :=
    hw.reachable.invariant (fun _ => Tasks.Boot.inv) fun _ _ hstep hinv => hinv.step hstep
  rcases hinv.ownSpace t p hw.current hw.process with ⟨hproc, hcr3⟩
  have hlen := hw.frames
  rcases hfree : w.kernel.vm.free with _ | ⟨a, _ | ⟨b, _ | ⟨c, rest⟩⟩⟩ <;>
    rw [hfree] at hlen <;> simp at hlen
  have ha : a ≠ 0 := hw.freeOk.nonzero a (by simp [hfree])
  have hb : b ≠ 0 := hw.freeOk.nonzero b (by simp [hfree])
  have hspace := loadSpace_empty w.kernel.kernelCr3 (fun _ => 0) hfree ha hb
  generalize hvm : vmmMapUser a userStackVaddr b userPageFlags true _ = vm at hspace
  have hempty : vm.free = [] := by
    rw [← hvm]
    exact List.eq_nil_of_suffix_nil (vmmMapUser_free _ _ _ _ _ _)
  -- the thread is asked for on the heap as it was
  have hnil : (loaded p a vm w.kernel).vm.free = [] := hempty
  have hready : ((loaded p a vm w.kernel).heapState live).Ready :=
    hw.ready.mono (by rw [hnil]; exact Nat.zero_le _)
  have hsize : (loaded p a vm w.kernel).heap.endVirt ≤ heapStartVirt + 65536 := hw.size
  have hfuel : walkBound (loaded p a vm w.kernel).heap (loaded p a vm w.kernel).vm < 3000 := by
    unfold walkBound reach headerSize
    rw [hnil, List.length_nil]
    omega
  rcases Kernel.threadCreateUser_returns userCodeVaddr (userStackVaddr + pageSize) a (some p)
    hready hfuel with ⟨r, k', hcall⟩
  cases r with
  | some u => exact absurd hcall (hw.noThread hready hsize hnil)
  | none =>
    have hexec : sysExec 3000 (fun _ => 0) 0 w.kernel = some (false, k') := by
      have hraw : loadRaw 3000 (fun _ => 0) 0 p w.kernel = some (none, k') := by
        simp only [loadRaw, hspace]
        exact hcall
      simp only [sysExec, hproc, hraw]
    refine ⟨{ w with kernel := k' }, .step (hw.reachable.mono ?_) ⟨.exec 3000 (fun _ => 0) 0, ?_⟩,
      ?_⟩
    · rintro _ _ ⟨op, -, hstep⟩
      exact ⟨op, hstep⟩
    · simp only [Tasks.step, hexec]
    · intro hown
      have hsched : k'.sched = w.kernel.sched := (Kernel.threadCreateUser_sched hcall).1 rfl
      rcases hown t p (by rw [hsched]; exact hw.current) (by rw [hsched]; exact hw.process) with
        ⟨-, hsame⟩
      rcases Kernel.threadCreateUser_spec hready hcall with ⟨live', hmade⟩
      have hroot : (k'.procs p).pml4Phys = a := by
        rw [hmade.rest]
        simp [loaded, Kernel.modifyProc]
      -- the new PML4 was a free frame, the old one was not
      have hold : (w.kernel.procs p).pml4Phys = a := by
        rw [hcr3, ← hroot, hsame]
        show (w.kernel.sched.threads t).cr3 = (k'.sched.threads t).cr3
        rw [hsched]
      exact hw.inUse (by rw [hold, hfree]; exact List.mem_cons_self)

end Runs

end Orchid
