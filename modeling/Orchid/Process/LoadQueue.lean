import Orchid.Process.HeapUse

/-! # Loading a program and the run queue

`load_raw` returns a thread that `thread_create_user` has already put in front
of the run queue. `elf_load` and `sys_exec` then call `scheduler_add_thread` for
it once more, which links the thread to itself: the queue is a loop of one
thread, the threads queued before are cut off, and the tail walks of
`thread_unblock` and `schedule` do not end. `sys_fork`, which makes its thread
the same way, has no such second call.
-/

namespace Orchid

open LinkedList Function

/-- What a load is to leave behind: a proper queue in which the new thread `t`
and each of the threads `l` queued before occur once, and on which the next
`thread_unblock` and `schedule` return. -/
structure KeepsQueue (l : List Tid) (t : Tid) (s : Sched) : Prop where
  queue : ∃ l', s.Queue l' ∧ l'.count t = 1 ∧ ∀ u ∈ l, l'.count u = 1
  unblock : ∀ u, ∃ fuel s', threadUnblock fuel u s = some s'
  schedule : ∃ fuel s', schedule fuel s = some s'

/-- The queue is the thread `t`, linked to itself. -/
structure SelfLinked (t : Tid) (s : Sched) : Prop where
  head : s.readyQueue = some t
  next : s.next t = some t
  state : s.state t = .ready

section SelfLinked

variable {s : Sched} {t u : Tid} {l : List Tid}

theorem SelfLinked.not_queue (h : SelfLinked t s) (l : List Tid) : ¬ s.Queue l := by
  intro hq
  rw [Sched.Queue, h.head] at hq
  exact not_chain_of_self_loop h.next l hq

theorem SelfLinked.not_keepsQueue (h : SelfLinked t s) : ¬ KeepsQueue l u s := by
  intro hkeeps
  obtain ⟨l', hq, -⟩ := hkeeps.queue
  exact h.not_queue l' hq

/-- Appending behind a self-linked thread never ends. -/
theorem SelfLinked.enqueueTail (h : SelfLinked t s) (hu : u ≠ t) (fuel : Nat) :
    enqueueTail fuel u s = none := by
  have hnext : (s.setNext u none).next t = some t := by
    rw [Sched.setNext_next, update_of_ne (Ne.symm hu), h.next]
  simp only [Orchid.enqueueTail, Sched.setNext_readyQueue, h.head, walkTail_self_loop hnext]

/-- Waking a blocked thread does not return. -/
theorem SelfLinked.threadUnblock (h : SelfLinked t s) (hu : s.state u = .blocked) (fuel : Nat) :
    threadUnblock fuel u s = none := by
  have hut : u ≠ t := by
    rintro rfl
    rw [h.state] at hu
    cases hu
  have hself : SelfLinked t (s.setState u .ready) := by
    refine ⟨h.head, ?_, ?_⟩
    · rw [Sched.setState_next, h.next]
    · rw [Sched.setState_state, update_of_ne (Ne.symm hut), h.state]
  rw [Orchid.threadUnblock, if_pos hu, hself.enqueueTail hut]

/-- Preempting a running thread other than idle does not return. -/
theorem SelfLinked.schedule {cur : Tid} (h : SelfLinked t s) (hcur : s.currentThread = some cur)
    (hrun : s.state cur = .running) (hidle : some cur ≠ s.idleThreadPtr) (fuel : Nat) :
    schedule fuel s = none := by
  have hct : cur ≠ t := by
    rintro rfl
    rw [h.state] at hrun
    cases hrun
  -- the head of the queue is taken off, and is the head again
  have hpick : pickNext s = (some t, { s with readyQueue := s.next t }) := by
    simp only [pickNext, h.head]
  have hself : SelfLinked t ({ s with readyQueue := s.next t }.setState cur .ready) := by
    refine ⟨h.next, ?_, ?_⟩
    · rw [Sched.setState_next]
      exact h.next
    · rw [Sched.setState_state, update_of_ne (Ne.symm hct)]
      exact h.state
  have hrequeue : requeueCurrent fuel cur { s with readyQueue := s.next t } = none := by
    have hcond : Sched.state { s with readyQueue := s.next t } cur = .running ∧
        some cur ≠ s.idleThreadPtr := ⟨hrun, hidle⟩
    rw [requeueCurrent, if_pos hcond, hself.enqueueTail hct]
  unfold Orchid.schedule
  rw [hcur]
  simp only [hpick]
  rw [hrequeue]

end SelfLinked

/-! ## The loaders -/

/-- A new user thread is ready, in front of the queue. -/
theorem Kernel.threadCreateUser_queue {fuel entry stack pml4Phys : Nat} {proc : Option ProcPtr}
    {k k' : Kernel} {t : Tid}
    (h : k.threadCreateUser fuel entry stack pml4Phys proc = some (some t, k')) :
    k'.sched.readyQueue = some t ∧ k'.sched.state t = .ready := by
  cases Kernel.threadCreateUser_outcome h with
  | @done _ kstack k₁ k₂ =>
    have hstates := (initThread_spec 12 t kstack pml4Phys proc k₂.sched).1
    exact ⟨rfl, (congrFun hstates t).trans (update_self _ _ _)⟩

/-- Adding a thread that is already the head links it to itself. -/
theorem selfLinked_installThread {proc : ProcPtr} {t : Tid} {k : Kernel}
    (hhead : k.sched.readyQueue = some t) (hstate : k.sched.state t = .ready) :
    SelfLinked t (installThread proc t k).sched := by
  refine ⟨rfl, ?_, ?_⟩
  · show (k.sched.setNext t k.sched.readyQueue).next t = some t
    rw [Sched.setNext_next, update_self, hhead]
  · show (k.sched.setNext t k.sched.readyQueue).state t = .ready
    rw [Sched.setNext_state, hstate]

theorem loadRaw_queue {fuel size : Nat} {image : Nat → UInt8} {proc : ProcPtr} {k k' : Kernel}
    {t : Tid} (h : loadRaw fuel image size proc k = some (some t, k')) :
    k'.sched.readyQueue = some t ∧ k'.sched.state t = .ready := by
  cases loadRaw_outcome h with
  | space _ hthread => exact Kernel.threadCreateUser_queue hthread

/-- After a successful `elf_load` the queue is the new thread, linked to itself. -/
theorem elfLoad_selfLinked {fuel size : Nat} {image : Nat → UInt8} {proc : ProcPtr}
    {k k' : Kernel} (h : elfLoad fuel image size k = some (some proc, k')) :
    ∃ t, (k'.procs proc).mainThread = some t ∧ SelfLinked t k'.sched := by
  cases elfLoad_outcome h with
  | @done _ t _ _ _ _ hload =>
    rcases loadRaw_queue hload with ⟨hhead, hstate⟩
    refine ⟨t, ?_, selfLinked_installThread hhead hstate⟩
    simp [installThread, Kernel.modifyProc]

/-- After a successful load `sys_exec` is in the same position. -/
theorem sysExec_selfLinked {fuel size : Nat} {image : Nat → UInt8} {k k' : Kernel}
    (h : sysExec fuel image size k = some (true, k')) :
    ∃ proc t, k.sched.currentProcess = some proc ∧ (k'.procs proc).mainThread = some t ∧
      SelfLinked t k'.sched := by
  cases sysExec_outcome h with
  | @done proc t _ hproc hload =>
    rcases loadRaw_queue hload with ⟨hhead, hstate⟩
    refine ⟨proc, t, hproc, ?_, selfLinked_installThread hhead hstate⟩
    simp [installThread, Kernel.modifyProc]

/-- What a load leaves behind instead: the queue is broken, and the next
`thread_unblock` of a blocked thread and the next preemption do not return. -/
structure BreaksQueue (l : List Tid) (t : Tid) (s : Sched) : Prop where
  queue : ¬ KeepsQueue l t s
  unblock : ∀ u, s.state u = .blocked → ∀ fuel, threadUnblock fuel u s = none
  schedule : ∀ cur, s.currentThread = some cur → s.state cur = .running →
    some cur ≠ s.idleThreadPtr → ∀ fuel, schedule fuel s = none

theorem SelfLinked.breaksQueue {s : Sched} {t : Tid} (h : SelfLinked t s) (l : List Tid) :
    BreaksQueue l t s :=
  ⟨h.not_keepsQueue, fun _ hu => h.threadUnblock hu,
    fun _ hcur hrun hidle => h.schedule hcur hrun hidle⟩

/-- No successful load keeps the run queue, whatever was queued before. -/
theorem loaders_break_queue (fuel : Nat) (image : Nat → UInt8) (size : Nat) (k : Kernel)
    (l : List Tid) :
    (∀ proc k', elfLoad fuel image size k = some (some proc, k') →
      ∃ t, (k'.procs proc).mainThread = some t ∧ BreaksQueue l t k'.sched) ∧
    ∀ k', sysExec fuel image size k = some (true, k') →
      ∃ proc t, k.sched.currentProcess = some proc ∧ (k'.procs proc).mainThread = some t ∧
        BreaksQueue l t k'.sched := by
  constructor
  · intro proc k' h
    obtain ⟨t, ht, hself⟩ := elfLoad_selfLinked h
    exact ⟨t, ht, hself.breaksQueue l⟩
  · intro k' h
    obtain ⟨proc, t, hproc, ht, hself⟩ := sysExec_selfLinked h
    exact ⟨proc, t, hproc, ht, hself.breaksQueue l⟩

/-- Thread 1 of process 2 is running, thread 3 is queued, 4 is idle; five pages
are free and the heap is as `heap_init` left it. -/
def busyKernel : Kernel where
  vm := ⟨fun _ => 0, [0x3000, 0x4000, 0x5000, 0x6000, 0x7000]⟩
  heap := freshHeap
  sched := {
    threads := fun t => ⟨0, 0, if t = 1 then .running else .ready, 0, 0, none, none⟩
    currentThread := some 1
    readyQueue := some 3
    idleThreadPtr := some 4
    threadCount := 3
    currentProcess := some 2
    rsp0 := 0 }
  procs := fun _ => ⟨1, 0x1000, some 1, none⟩
  processList := none
  nextPid := 2
  kernelCr3 := 0x1000
  savedUserRip := 0
  userspaceEntry := 0

theorem queue_busyKernel : busyKernel.sched.Queue [3] ∧ busyKernel.sched.state 3 = .ready :=
  ⟨⟨rfl, rfl⟩, rfl⟩

theorem spare_busyKernel :
    (busyKernel.heapState []).Spare (heapInitialPages * pageSize - headerSize) 1 :=
  freshHeap_spare (by decide)

/-- Loading an empty image there succeeds. -/
theorem elfLoad_busyKernel (image : Nat → UInt8) :
    ∃ p k', elfLoad 8 image 0 busyKernel = some (some p, k') := by
  have hspace := loadSpace_empty busyKernel.kernelCr3 image
    (rfl : busyKernel.vm.free = 0x3000 :: 0x4000 :: _) (by decide) (by decide)
  obtain ⟨p, k', -, -, h, -⟩ := elfLoad_of_spare hspace spare_busyKernel (by decide)
    (by decide : 1 + 2 < 8)
  exact ⟨p, k', h⟩

theorem sysExec_busyKernel (image : Nat → UInt8) :
    ∃ k', sysExec 8 image 0 busyKernel = some (true, k') := by
  have hspace := loadSpace_empty busyKernel.kernelCr3 image
    (rfl : busyKernel.vm.free = 0x3000 :: 0x4000 :: _) (by decide) (by decide)
  obtain ⟨t, k', -, h, -⟩ := loadRaw_of_spare 2 hspace spare_busyKernel (by decide)
    (by decide : 1 + 1 < 8)
  refine ⟨installThread 2 t k', ?_⟩
  have hproc : busyKernel.sched.currentProcess = some 2 := rfl
  simp only [sysExec, hproc, h]

theorem loaders_break_queue_busyKernel :
    (∃ p k' t, elfLoad 8 (fun _ => 0) 0 busyKernel = some (some p, k') ∧
      (k'.procs p).mainThread = some t ∧ BreaksQueue [3] t k'.sched) ∧
    ∃ k' proc t, sysExec 8 (fun _ => 0) 0 busyKernel = some (true, k') ∧
      (k'.procs proc).mainThread = some t ∧ BreaksQueue [3] t k'.sched := by
  constructor
  · obtain ⟨p, k', h⟩ := elfLoad_busyKernel fun _ => 0
    obtain ⟨t, ht, hbreak⟩ := (loaders_break_queue 8 (fun _ => 0) 0 busyKernel [3]).1 p k' h
    exact ⟨p, k', t, h, ht, hbreak⟩
  · obtain ⟨k', h⟩ := sysExec_busyKernel fun _ => 0
    obtain ⟨proc, t, -, ht, hbreak⟩ := (loaders_break_queue 8 (fun _ => 0) 0 busyKernel [3]).2 k' h
    exact ⟨k', proc, t, h, ht, hbreak⟩

/-- A proper queue before the load, none afterwards. -/
theorem elfLoad_loses_queue : ∃ k l p k' t,
    k.sched.Queue l ∧ (∀ u ∈ l, k.sched.state u = .ready) ∧
    elfLoad 8 (fun _ => 0) 0 k = some (some p, k') ∧ (k'.procs p).mainThread = some t ∧
    ¬ KeepsQueue l t k'.sched := by
  obtain ⟨hq, hready⟩ := queue_busyKernel
  obtain ⟨p, k', h⟩ := elfLoad_busyKernel fun _ => 0
  obtain ⟨t, ht, hself⟩ := elfLoad_selfLinked h
  refine ⟨busyKernel, [3], p, k', t, hq, ?_, h, ht, hself.not_keepsQueue⟩
  intro u hu
  rw [List.mem_singleton.mp hu]
  exact hready

end Orchid
