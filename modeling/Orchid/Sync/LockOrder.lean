import Orchid.Core.SpinLock
import Orchid.Ipc.Model

/-! # The kernel's spinlocks and the order they are taken in

Each operation as the `spin_lock` and `spin_unlock` steps it takes, branch by
branch. A call is the callee's program, `alt` a branch on data the locks do
not depend on (an empty list, a failed allocation), `loop` a loop of the
source. A branch on a callee's result is open whatever path the callee took,
which only adds sequences.

The safe order is written nowhere in the source. It is: the process lock, the
timer lock and the port locks first, then the heap lock, then the VMM lock,
then the PMM lock and the scheduler lock. The bus, IRQ and keyboard locks are
never held together with another one.
-/

namespace Orchid

open Machine SpinLock Relation

/-- The `spinlock_t` variables of the kernel. -/
inductive Lock where
  | pmm
  | vmm
  | heap
  | port (i : Fin maxPorts)
  | timer
  | proc
  | sched
  | bus
  | irq
  | kbd
  deriving DecidableEq, Repr

namespace Locking

/-! ## Memory -/

/-- `pmm_alloc_page`, which releases the lock on both of its branches. -/
def pmmAllocPage : Prog Lock :=
  .lock .pmm <| .alt (.unlock .pmm .skip) (.unlock .pmm .skip)

/-- `pmm_free_page`. -/
def pmmFreePage : Prog Lock := .lock .pmm <| .unlock .pmm .skip

/-- `ensure_page_table` takes no lock itself; its callers hold the one of the VMM. -/
def ensurePageTable : Prog Lock := .alt .skip pmmAllocPage

/-- The shape `vmm_map` and `vmm_map_user` share: nothing for the frame 0, and
an early return at each level whose table could not be allocated. -/
def mapLevels : Prog Lock :=
  .alt .skip <|
    .lock .vmm <|
      .seq ensurePageTable <| .alt (.unlock .vmm .skip) <|
      .seq ensurePageTable <| .alt (.unlock .vmm .skip) <|
      .seq ensurePageTable <| .alt (.unlock .vmm .skip) (.unlock .vmm .skip)

/-- `vmm_map`. -/
def vmmMap : Prog Lock := mapLevels

/-- `vmm_map_user`. -/
def vmmMapUser : Prog Lock := mapLevels

/-- `vmm_unmap` returns at each level that is not there. -/
def vmmUnmap : Prog Lock :=
  .lock .vmm <|
    .alt (.unlock .vmm .skip) <| .alt (.unlock .vmm .skip) <|
    .alt (.unlock .vmm .skip) (.unlock .vmm .skip)

/-- `vmm_virt_to_phys`: every early exit jumps to `out`, which releases the lock. -/
def vmmVirtToPhys : Prog Lock := .lock .vmm <| .unlock .vmm .skip

/-- `user_virt_to_phys` has a release of its own at each of its returns. -/
def userVirtToPhys : Prog Lock :=
  .lock .vmm <|
    .alt (.unlock .vmm .skip) <| .alt (.unlock .vmm .skip) <|
    .alt (.unlock .vmm .skip) <| .alt (.unlock .vmm .skip) (.unlock .vmm .skip)

/-- `heap_expand_locked`, by what it returns. -/
def heapExpandLocked (ok : Bool) : Prog Lock :=
  if ok then .seq pmmAllocPage vmmMap else pmmAllocPage

/-- `heap_init`, called with the heap lock held: the loop ends after its last page or breaks
at a failed allocation. -/
def heapInit : Prog Lock :=
  .seq (.loop (.seq pmmAllocPage vmmMap)) (.alt .skip pmmAllocPage)

/-- `kmalloc` holds its lock from the setup through all growths of the heap. -/
def kmalloc : Prog Lock :=
  .lock .heap <|
    .seq (.alt .skip heapInit) <|
    .seq (.loop (heapExpandLocked true)) <|
    .alt (.unlock .heap .skip) (.seq (heapExpandLocked false) <| .unlock .heap .skip)

/-- `kfree`, with nothing to do for a null pointer. -/
def kfree : Prog Lock := .alt .skip <| .lock .heap <| .unlock .heap .skip

/-! ## Scheduler -/

/-- `scheduler_add_thread`. -/
def schedulerAddThread : Prog Lock := .lock .sched <| .unlock .sched .skip

/-- `schedule` releases its lock before `__switch_to`. Without a current thread it returns. -/
def schedule : Prog Lock :=
  .lock .sched <| .alt (.unlock .sched .skip) (.unlock .sched <| .act .switch)

/-- `thread_exit` gives up the lock and takes it again in `schedule`. -/
def threadExit : Prog Lock := .lock .sched <| .unlock .sched schedule

/-- `thread_block` does the same. -/
def threadBlock : Prog Lock := .lock .sched <| .unlock .sched schedule

/-- `thread_unblock`. -/
def threadUnblock : Prog Lock := .lock .sched <| .unlock .sched .skip

/-- The shape `thread_create` and `thread_create_user` share: the record, the
stack, the run queue. -/
def createThread : Prog Lock :=
  .seq kmalloc <| .alt .skip <| .seq kmalloc <| .alt kfree schedulerAddThread

def threadCreate : Prog Lock := createThread

def threadCreateUser : Prog Lock := createThread

/-! ## Ports, timer, interrupts, bus -/

/-- `ipc_init` stores zero into every port's lock. -/
def ipcInit : Prog Lock :=
  (List.finRange maxPorts).foldr (fun i p => .seq (.act (.clear (.port i))) p) .skip

/-- How every call on a port starts: the module is set up on first use, and a
number out of range returns. -/
def onPort (port : ℕ) (body : Lock → Prog Lock) : Prog Lock :=
  .seq (.alt .skip ipcInit) <|
    if h : port < maxPorts then .lock (.port ⟨port, h⟩) (body (.port ⟨port, h⟩)) else .skip

/-- `ipc_kernel_send` wakes a receiver after it has released the port. -/
def ipcKernelSend (port : ℕ) : Prog Lock :=
  onPort port fun l =>
    .alt (.unlock l <| .seq threadUnblock kfree) (.unlock l .skip)

/-- A call that serves the other side's first waiter, or waits itself. -/
def meet (port : ℕ) : Prog Lock :=
  onPort port fun l =>
    .alt (.unlock l <| .seq threadUnblock kfree) <|
    .seq kmalloc <| .alt (.unlock l .skip) (.unlock l threadBlock)

def ipcSend (port : ℕ) : Prog Lock := meet port

def ipcRecv (port : ℕ) : Prog Lock := meet port

/-- `timer_tick` wakes threads and frees their entries with the timer lock held. -/
def timerTick : Prog Lock :=
  .lock .timer <| .seq (.loop (.alt (.seq threadUnblock kfree) .skip)) <| .unlock .timer .skip

/-- `sleep_until` allocates with the timer lock held, and blocks without it. -/
def sleepUntil : Prog Lock :=
  .lock .timer <|
    .alt (.unlock .timer .skip) <|
    .seq kmalloc <| .alt (.unlock .timer .skip) (.unlock .timer threadBlock)

/-- `irq_register`; a line out of range takes no lock. -/
def irqRegister (line : ℕ) : Prog Lock :=
  if line < 16 then .lock .irq <| .alt (.unlock .irq .skip) (.unlock .irq .skip) else .skip

/-- `irq_handler`, `port` being what the table holds for the line. -/
def irqHandler (port : ℕ) : Prog Lock :=
  .lock .irq <| .alt (.unlock .irq (ipcKernelSend port)) (.unlock .irq .skip)

/-- `bus_register`. -/
def busRegister : Prog Lock :=
  .lock .bus <| .alt (.unlock .bus .skip) (.unlock .bus .skip)

/-- `bus_lookup`. -/
def busLookup : Prog Lock :=
  .lock .bus <| .alt (.unlock .bus .skip) (.unlock .bus .skip)

/-! ## Processes -/

/-- `proc_alloc_pid`. -/
def procAllocPid : Prog Lock := .lock .proc <| .unlock .proc .skip

/-- The copy in `sys_fork`: an allocation for each table and page, up to the first that fails. -/
def forkAddressSpace : Prog Lock := .loop pmmAllocPage

/-- `sys_fork` holds the process lock throughout, over allocations of all kinds. -/
def sysFork : Prog Lock :=
  .lock .proc <|
    .alt (.unlock .proc .skip) <|
    .seq kmalloc <| .alt (.unlock .proc .skip) <|
    .seq pmmAllocPage <| .alt (.seq kfree <| .unlock .proc .skip) <|
    .seq forkAddressSpace <| .alt (.seq pmmFreePage <| .seq kfree <| .unlock .proc .skip) <|
    .seq threadCreateUser <|
      .alt (.seq pmmFreePage <| .seq kfree <| .unlock .proc .skip) (.unlock .proc .skip)

/-- `load_raw`: the loop over the image returns at a failed allocation, as does the stack page. -/
def loadRaw : Prog Lock :=
  .seq pmmAllocPage <| .alt .skip <|
    .seq (.loop (.seq pmmAllocPage vmmMapUser)) <|
    .seq pmmAllocPage <| .alt .skip <|
    .seq vmmMapUser threadCreateUser

/-- `elf_load`. -/
def elfLoad : Prog Lock :=
  .seq kmalloc <| .alt .skip <|
    .seq procAllocPid <| .seq loadRaw <| .alt kfree schedulerAddThread

/-- `sys_exec` ends the calling thread when the new one is in the queue. -/
def sysExec : Prog Lock :=
  .alt .skip <| .seq loadRaw <| .alt .skip <| .seq schedulerAddThread threadExit

/-! ## The order

Locks are taken downwards: under a lock only locks of smaller rank. -/

/-- The rank of a lock, from what its holders call. -/
def rank : Lock → ℕ
  | .proc => 3
  | .timer => 3
  | .port _ => 3
  | .heap => 2
  | .vmm => 1
  | .pmm => 0
  | .sched => 0
  | .bus => 0
  | .irq => 0
  | .kbd => 0

theorem rank_le (l : Lock) : rank l ≤ 3 := by
  cases l <;> simp [rank]

/-- The PMM calls nothing. -/
theorem pmmAllocPage_keeps : pmmAllocPage.Keeps rank 0 :=
  .lock (.alt (.unlock .skip) (.unlock .skip)) le_rfl

theorem pmmFreePage_keeps : pmmFreePage.Keeps rank 0 :=
  .lock (.unlock .skip) le_rfl

theorem ensurePageTable_keeps : ensurePageTable.Keeps rank 0 :=
  .alt .skip pmmAllocPage_keeps

/-- The VMM calls the PMM. -/
theorem mapLevels_keeps : mapLevels.Keeps rank 1 := by
  -- one level: the table, then the early return or the next level
  have hlevel : ∀ rest : Prog Lock, rest.Closes rank .vmm 1 →
      (Prog.seq ensurePageTable (.alt (.unlock .vmm .skip) rest)).Closes rank .vmm 1 :=
    fun rest h => .seq ensurePageTable_keeps (by decide) (by decide) (.alt (.unlock .skip) h)
  exact .alt .skip (.lock (hlevel _ (hlevel _ (hlevel _ (.unlock .skip)))) le_rfl)

theorem vmmMap_keeps : vmmMap.Keeps rank 1 := mapLevels_keeps

theorem vmmMapUser_keeps : vmmMapUser.Keeps rank 1 := mapLevels_keeps

theorem vmmUnmap_keeps : vmmUnmap.Keeps rank 1 :=
  .lock (.alt (.unlock .skip) (.alt (.unlock .skip) (.alt (.unlock .skip) (.unlock .skip)))) le_rfl

theorem vmmVirtToPhys_keeps : vmmVirtToPhys.Keeps rank 1 :=
  .lock (.unlock .skip) le_rfl

theorem userVirtToPhys_keeps : userVirtToPhys.Keeps rank 1 :=
  .lock (.alt (.unlock .skip) (.alt (.unlock .skip) (.alt (.unlock .skip)
    (.alt (.unlock .skip) (.unlock .skip))))) le_rfl

/-- A page for the heap, and its mapping. -/
theorem heapPage_keeps : (Prog.seq pmmAllocPage vmmMap).Keeps rank 1 :=
  .seq (pmmAllocPage_keeps.mono (by decide)) vmmMap_keeps

theorem heapInit_keeps : heapInit.Keeps rank 1 :=
  .seq (.loop heapPage_keeps) (.alt .skip (pmmAllocPage_keeps.mono (by decide)))

theorem heapExpandLocked_keeps (ok : Bool) : (heapExpandLocked ok).Keeps rank 1 := by
  cases ok with
  | true => exact heapPage_keeps
  | false => exact pmmAllocPage_keeps.mono (by decide)

/-- The heap calls the PMM and, for each new page, the VMM. -/
theorem kmalloc_keeps : kmalloc.Keeps rank 2 := by
  refine .lock ?_ (by decide)
  -- under the heap lock: the setup, the growth, and the last try
  apply Prog.Closes.seq (.alt .skip heapInit_keeps) (by decide) (by decide)
  apply Prog.Closes.seq (.loop (heapExpandLocked_keeps true)) (by decide) (by decide)
  apply Prog.Closes.alt (.unlock .skip)
  exact .seq (heapExpandLocked_keeps false) (by decide) (by decide) (.unlock .skip)

theorem kfree_keeps : kfree.Keeps rank 2 :=
  .alt .skip (.lock (.unlock .skip) le_rfl)

theorem schedulerAddThread_keeps : schedulerAddThread.Keeps rank 0 :=
  .lock (.unlock .skip) le_rfl

/-- `schedule` leaves the processor, so it is called with nothing held. -/
theorem schedule_keeps : schedule.Keeps rank 3 :=
  .lock (.alt (.unlock .skip) (.unlock (.switch rank_le))) (by decide)

theorem threadExit_keeps : threadExit.Keeps rank 3 :=
  .lock (.unlock schedule_keeps) (by decide)

theorem threadBlock_keeps : threadBlock.Keeps rank 3 :=
  .lock (.unlock schedule_keeps) (by decide)

theorem threadUnblock_keeps : threadUnblock.Keeps rank 0 :=
  .lock (.unlock .skip) le_rfl

/-- A new thread is two blocks of the heap and a place in the queue. -/
theorem createThread_keeps : createThread.Keeps rank 2 := by
  apply Prog.Keeps.seq kmalloc_keeps
  apply Prog.Keeps.alt .skip
  apply Prog.Keeps.seq kmalloc_keeps
  exact .alt kfree_keeps (schedulerAddThread_keeps.mono (by decide))

/-- Waking a thread and freeing its node. -/
theorem wake_keeps : (Prog.seq threadUnblock kfree).Keeps rank 2 :=
  .seq (threadUnblock_keeps.mono (by decide)) kfree_keeps

theorem ipcInit_keeps : ipcInit.Keeps rank 3 := by
  unfold ipcInit
  induction List.finRange maxPorts with
  | nil => exact .skip
  | cons i is ih => exact .seq (.clear le_rfl) ih

/-- What holds for every call on a port depends on what it does with the lock. -/
theorem onPort_keeps (port : ℕ) {body : Lock → Prog Lock}
    (h : ∀ i, (body (.port i)).Closes rank (.port i) 3) : (onPort port body).Keeps rank 3 := by
  apply Prog.Keeps.seq (.alt .skip ipcInit_keeps)
  split
  · exact .lock (h _) le_rfl
  · exact .skip

theorem ipcKernelSend_keeps (port : ℕ) : (ipcKernelSend port).Keeps rank 3 := by
  apply onPort_keeps
  intro i
  exact .alt (.unlock (wake_keeps.mono (by decide))) (.unlock .skip)

/-- A wait node is allocated under the caller's lock, which is released before
the caller blocks. -/
theorem waitOn_closes {l : Lock} (h : 2 < rank l) :
    (Prog.seq kmalloc (.alt (.unlock l .skip) (.unlock l threadBlock))).Closes rank l 3 :=
  .seq kmalloc_keeps h (by decide) (.alt (.unlock .skip) (.unlock threadBlock_keeps))

/-- The two sides of a rendezvous: wake the other side, or wait. -/
theorem meet_keeps (port : ℕ) : (meet port).Keeps rank 3 := by
  apply onPort_keeps
  intro i
  exact .alt (.unlock (wake_keeps.mono (by decide))) (waitOn_closes (Nat.lt_succ_self 2))

/-- The scheduler and the heap are called under the timer lock. -/
theorem timerTick_keeps : timerTick.Keeps rank 3 :=
  .lock (.seq (.loop (.alt wake_keeps .skip)) (by decide) (by decide) (.unlock .skip)) le_rfl

theorem sleepUntil_keeps : sleepUntil.Keeps rank 3 :=
  .lock (.alt (.unlock .skip) (waitOn_closes (by decide))) le_rfl

theorem irqRegister_keeps (line : ℕ) : (irqRegister line).Keeps rank 0 := by
  unfold irqRegister
  split
  · exact .lock (.alt (.unlock .skip) (.unlock .skip)) le_rfl
  · exact .skip

theorem irqHandler_keeps (port : ℕ) : (irqHandler port).Keeps rank 3 :=
  .lock (.alt (.unlock (ipcKernelSend_keeps port)) (.unlock .skip)) (by decide)

theorem busRegister_keeps : busRegister.Keeps rank 0 :=
  .lock (.alt (.unlock .skip) (.unlock .skip)) le_rfl

theorem busLookup_keeps : busLookup.Keeps rank 0 :=
  .lock (.alt (.unlock .skip) (.unlock .skip)) le_rfl

/-- Under the process lock everything but ports and timer is called. -/
theorem sysFork_keeps : sysFork.Keeps rank 3 := by
  refine .lock ?_ (by decide)
  have hundo : (Prog.seq kfree (.unlock .proc .skip)).Closes rank .proc 3 :=
    .seq kfree_keeps (by decide) (by decide) (.unlock .skip)
  have hundo' : (Prog.seq pmmFreePage (.seq kfree (.unlock .proc .skip))).Closes rank .proc 3 :=
    .seq pmmFreePage_keeps (by decide) (by decide) hundo
  -- no current process; the record; the root table; the copy; the thread
  apply Prog.Closes.alt (.unlock .skip)
  apply Prog.Closes.seq kmalloc_keeps (by decide) (by decide)
  apply Prog.Closes.alt (.unlock .skip)
  apply Prog.Closes.seq pmmAllocPage_keeps (by decide) (by decide)
  apply Prog.Closes.alt hundo
  apply Prog.Closes.seq (.loop pmmAllocPage_keeps) (by decide) (by decide)
  apply Prog.Closes.alt hundo'
  exact .seq createThread_keeps (by decide) (by decide) (.alt hundo' (.unlock .skip))

/-- Loading takes no lock of its own around what it calls. -/
theorem loadRaw_keeps : loadRaw.Keeps rank 2 := by
  have halloc : pmmAllocPage.Keeps rank 2 := pmmAllocPage_keeps.mono (by decide)
  have hmap : vmmMapUser.Keeps rank 2 := vmmMapUser_keeps.mono (by decide)
  apply Prog.Keeps.seq halloc
  apply Prog.Keeps.alt .skip
  apply Prog.Keeps.seq (.loop (.seq halloc hmap))
  apply Prog.Keeps.seq halloc
  exact .alt .skip (.seq hmap createThread_keeps)

theorem elfLoad_keeps : elfLoad.Keeps rank 3 := by
  have hpid : procAllocPid.Keeps rank 3 := .lock (.unlock .skip) le_rfl
  apply Prog.Keeps.seq (kmalloc_keeps.mono (by decide))
  apply Prog.Keeps.alt .skip
  apply Prog.Keeps.seq hpid
  apply Prog.Keeps.seq (loadRaw_keeps.mono (by decide))
  exact .alt (kfree_keeps.mono (by decide)) (schedulerAddThread_keeps.mono (by decide))

theorem sysExec_keeps : sysExec.Keeps rank 3 := by
  apply Prog.Keeps.alt .skip
  apply Prog.Keeps.seq (loadRaw_keeps.mono (by decide))
  apply Prog.Keeps.alt .skip
  exact .seq (schedulerAddThread_keeps.mono (by decide)) threadExit_keeps

end Locking

/-! ## Threads in the kernel -/

/-- The kernel operations a thread or an interrupt runs. -/
inductive KernelOp where
  | kmalloc
  | kfree
  | vmmMap
  | vmmMapUser
  | vmmUnmap
  | vmmVirtToPhys
  | userVirtToPhys
  | pmmAllocPage
  | pmmFreePage
  | ipcSend (port : ℕ)
  | ipcRecv (port : ℕ)
  | ipcKernelSend (port : ℕ)
  | sleepUntil
  | timerTick
  | sysFork
  | elfLoad
  | sysExec
  | busRegister
  | busLookup
  | irqRegister (line : ℕ)
  | irqHandler (port : ℕ)
  | schedule
  | threadBlock
  | threadUnblock
  | threadExit
  | threadCreate
  | threadCreateUser
  deriving DecidableEq, Repr

/-- What each of them does with the locks. -/
def KernelOp.prog : KernelOp → Prog Lock
  | .kmalloc => Locking.kmalloc
  | .kfree => Locking.kfree
  | .vmmMap => Locking.vmmMap
  | .vmmMapUser => Locking.vmmMapUser
  | .vmmUnmap => Locking.vmmUnmap
  | .vmmVirtToPhys => Locking.vmmVirtToPhys
  | .userVirtToPhys => Locking.userVirtToPhys
  | .pmmAllocPage => Locking.pmmAllocPage
  | .pmmFreePage => Locking.pmmFreePage
  | .ipcSend port => Locking.ipcSend port
  | .ipcRecv port => Locking.ipcRecv port
  | .ipcKernelSend port => Locking.ipcKernelSend port
  | .sleepUntil => Locking.sleepUntil
  | .timerTick => Locking.timerTick
  | .sysFork => Locking.sysFork
  | .elfLoad => Locking.elfLoad
  | .sysExec => Locking.sysExec
  | .busRegister => Locking.busRegister
  | .busLookup => Locking.busLookup
  | .irqRegister line => Locking.irqRegister line
  | .irqHandler port => Locking.irqHandler port
  | .schedule => Locking.schedule
  | .threadBlock => Locking.threadBlock
  | .threadUnblock => Locking.threadUnblock
  | .threadExit => Locking.threadExit
  | .threadCreate => Locking.threadCreate
  | .threadCreateUser => Locking.threadCreateUser

/-- The programs threads run. -/
def kernelOps : Set (Prog Lock) := Set.range KernelOp.prog

/-- All of them take locks downwards only. -/
theorem KernelOp.prog_keeps (op : KernelOp) : op.prog.Keeps Locking.rank 3 := by
  cases op with
  | kmalloc => exact Locking.kmalloc_keeps.mono (by decide)
  | kfree => exact Locking.kfree_keeps.mono (by decide)
  | vmmMap => exact Locking.vmmMap_keeps.mono (by decide)
  | vmmMapUser => exact Locking.vmmMapUser_keeps.mono (by decide)
  | vmmUnmap => exact Locking.vmmUnmap_keeps.mono (by decide)
  | vmmVirtToPhys => exact Locking.vmmVirtToPhys_keeps.mono (by decide)
  | userVirtToPhys => exact Locking.userVirtToPhys_keeps.mono (by decide)
  | pmmAllocPage => exact Locking.pmmAllocPage_keeps.mono (by decide)
  | pmmFreePage => exact Locking.pmmFreePage_keeps.mono (by decide)
  | ipcSend port => exact Locking.meet_keeps port
  | ipcRecv port => exact Locking.meet_keeps port
  | ipcKernelSend port => exact Locking.ipcKernelSend_keeps port
  | sleepUntil => exact Locking.sleepUntil_keeps
  | timerTick => exact Locking.timerTick_keeps
  | sysFork => exact Locking.sysFork_keeps
  | elfLoad => exact Locking.elfLoad_keeps
  | sysExec => exact Locking.sysExec_keeps
  | busRegister => exact Locking.busRegister_keeps.mono (by decide)
  | busLookup => exact Locking.busLookup_keeps.mono (by decide)
  | irqRegister line => exact (Locking.irqRegister_keeps line).mono (by decide)
  | irqHandler port => exact Locking.irqHandler_keeps port
  | schedule => exact Locking.schedule_keeps
  | threadBlock => exact Locking.threadBlock_keeps
  | threadUnblock => exact Locking.threadUnblock_keeps.mono (by decide)
  | threadExit => exact Locking.threadExit_keeps
  | threadCreate => exact Locking.createThread_keeps.mono (by decide)
  | threadCreateUser => exact Locking.createThread_keeps.mono (by decide)

/-- In every state that any number of threads running kernel operations get
to: no thread requests a lock it holds, a thread that has returned or is
about to be switched away from holds none, and no threads wait for each other
in a circle. -/
theorem no_circular_wait {T : Type} [DecidableEq T] (s : State T Lock)
    (h : Reachable Init (Next kernelOps) s) :
    (∀ t l xs, (s.frame t).todo = .lock l :: xs → l ∉ (s.frame t).held) ∧
      (∀ t, (s.frame t).todo = [] → (s.frame t).held = []) ∧
      (∀ t xs, (s.frame t).todo = .switch :: xs → (s.frame t).held = []) ∧
      ∀ t, ¬ TransGen (Waits s) t t := by
  have hops : ∀ p ∈ kernelOps, p.Keeps Locking.rank 3 := by
    rintro _ ⟨op, rfl⟩
    exact op.prog_keeps
  have hinv := orderly hops h
  refine ⟨?_, ?_, ?_, not_waits_cycle hinv⟩
  · intro t l xs htodo
    exact ((hinv t).above htodo).notMem
  · intro t htodo
    exact (hinv t).idle htodo
  · intro t xs htodo
    exact (hinv t).switch htodo

/-- Two threads: one sleeps and needs a timer entry while the other frees a
block. -/
theorem no_circular_wait_sleeper : ∃ s : State Bool Lock,
    Reachable Init (Next kernelOps) s ∧ Waits s false true ∧
      ∀ t, ¬ TransGen (Waits s) t t := by
  -- the paths taken: a free, and a sleep whose allocation needs no growth
  have hfree : Locking.kfree.Trace [.lock .heap, .unlock .heap] :=
    .right (.lock (.unlock .skip))
  have halloc : Locking.kmalloc.Trace [.lock .heap, .unlock .heap] :=
    .lock (.seq (.left .skip) (.seq .done (.left (.unlock .skip))))
  have hsleep : Locking.sleepUntil.Trace
      [.lock .timer, .lock .heap, .unlock .heap, .unlock .timer] :=
    .lock (.right (.seq halloc (.left (.unlock .skip))))
  have h₀ : Reachable Init (Next kernelOps)
      (⟨fun _ => false, fun _ => ⟨[], []⟩⟩ : State Bool Lock) :=
    .init ⟨fun _ => rfl, fun _ => rfl⟩
  have h₁ := h₀.step (.start true ⟨.kfree, rfl⟩ hfree rfl)
  have h₂ := h₁.step (.act true rfl rfl)
  have h₃ := h₂.step (.start false ⟨.sleepUntil, rfl⟩ hsleep rfl)
  have h₄ := h₃.step (.act false rfl rfl)
  refine ⟨_, h₄, ⟨.heap, [.unlock .heap, .unlock .timer], rfl, rfl, ?_⟩, ?_⟩
  · simp [Act.hold]
  · exact (no_circular_wait _ h₄).2.2.2

end Orchid
