import Orchid.Process.ForkChild
import Orchid.Scheduler.Switch

/-! # The way into user mode

A thread made by `thread_create_user` first runs when `__switch_to` pops six
registers off the stack that was prepared for it and returns to
`userspace_entry`, whose only instruction is `iretq`.

* `iretq` pops RIP, CS, RFLAGS, RSP and SS from increasing addresses. The five
  words are stored from increasing addresses in the opposite order, so RIP gets
  the selector 0x23 and RSP the selector 0x1B (`entersAsAsked_iff`).
* The child of a fork starts on such a stack, with its registers zero and in
  `rax` what `__switch_to` left there (`fork_returns_once`).
-/

namespace Orchid

open ByteMem Machine X86 Function Relation

/-! ## The machine -/

/-- The registers at the first instruction in user mode. -/
structure UserState where
  rip : UInt64
  cs : UInt64
  rflags : UInt64
  rsp : UInt64
  ss : UInt64
  rax : UInt64
  regs : CalleeSaved → UInt64

namespace Switching

/-- `userspace_entry`: `iretq` at the stack pointer of `m`. In `rax` is what
`__switch_to` has left there. -/
def userspaceEntry (m : Switching) : UserState where
  rip := word m.mem m.regs.rsp
  cs := word m.mem (m.regs.rsp + 8)
  rflags := word m.mem (m.regs.rsp + 16)
  rsp := word m.mem (m.regs.rsp + 24)
  ss := word m.mem (m.regs.rsp + 32)
  rax := m.regs.gpr .rax
  regs := m.regs.saved

/-- `thread_create_user`, given the blocks for the record and the stack;
`entry` is the address of `userspace_entry`. -/
def createUser (t : Tid) (stack pml4Phys : Nat) (proc : Option ProcPtr)
    (entry userEntry userStack : UInt64) (m : Switching) : Switching :=
  let frame := userFrame entry.toNat userEntry.toNat userStack.toNat
  { m with
    mem := storeWords m.mem (stack + stackSize - 8 * frame.length) frame
    sched := threadCreateUser t stack pml4Phys proc m.sched
    threads := insert t m.threads
    stack := update m.stack t (stack, stack + stackSize) }

/-- A step of the current thread, which may also make a user thread. -/
inductive UserNext : Action Switching where
  | kernel {m m' : Switching} : Next m m' → UserNext m m'
  | createUser {m : Switching} {t : Tid} {stack pml4Phys : Nat} {proc : Option ProcPtr}
      {entry userEntry userStack : UInt64} :
      t ∉ m.threads →
      (∀ u ∈ m.threads, stack + stackSize ≤ (m.stack u).1 ∨ (m.stack u).2 ≤ stack) →
      UserNext m (m.createUser t stack pml4Phys proc entry userEntry userStack)

/-- A step after which `t` does not run. -/
def UserAway (t : Tid) : Action Switching := fun m m' =>
  UserNext m m' ∧ m'.sched.currentThread ≠ some t

/-- `t` waits on the stack that `thread_create_user` prepared. -/
structure Starts (m : Switching) (t : Tid) (entry userEntry userStack : UInt64) : Prop where
  frame : HoldsWords m.mem (m.sched.threads t).rsp
    [0, 0, 0, 0, 0, 0, entry, 0x23, userStack, 0x202, 0x1B, userEntry]
  lower : (m.stack t).1 ≤ (m.sched.threads t).rsp
  upper : (m.sched.threads t).rsp + 96 ≤ (m.stack t).2

section Entry

variable {m m' m₂ m₃ : Switching} {t : Tid} {stack pml4Phys : Nat} {proc : Option ProcPtr}
  {entry userEntry userStack : UInt64}

theorem Starts.kept (h : m.Starts t entry userEntry userStack) (hkept : StackKept t m m') :
    m'.Starts t entry userEntry userStack := by
  have hrsp := fixed_rsp hkept.record
  have hlower := h.lower
  have hupper := h.upper
  constructor
  · rw [hrsp]
    apply h.frame.congr
    intro x hlo hhi
    simp only [List.length_cons, List.length_nil] at hhi
    apply hkept.bytes
    · omega
    · omega
  · rw [hrsp, hkept.stack]
    exact hlower
  · rw [hrsp, hkept.stack]
    exact hupper

/-- Its first seven words are a context: zero registers, and `userspace_entry`. -/
theorem Starts.suspended (h : m.Starts t entry userEntry userStack) :
    m.Suspended t ⟨entry, (m.sched.threads t).rsp + 56, fun _ => 0⟩ := by
  have hupper := h.upper
  rcases h.frame with ⟨h₁, h₂, h₃, h₄, h₅, h₆, h₇, -⟩
  refine ⟨⟨h₁, h₂, h₃, h₄, h₅, h₆, h₇, trivial⟩, rfl, h.lower, ?_⟩
  show (m.sched.threads t).rsp + 56 ≤ (m.stack t).2
  omega

/-- With that context the five words for `iretq` lie at the stack pointer. -/
theorem Starts.enters (h : m.Starts t entry userEntry userStack)
    (hresumed : m.Resumed t ⟨entry, (m.sched.threads t).rsp + 56, fun _ => 0⟩)
    (hrax : m.regs.gpr .rax = UInt64.ofNat (m.sched.threads t).cr3) :
    m.regs.rip = entry ∧ m.userspaceEntry = ⟨0x23, userStack, 0x202, 0x1B, userEntry,
      UInt64.ofNat (m.sched.threads t).cr3, fun _ => 0⟩ := by
  rcases hresumed with ⟨hcontext, -⟩
  have hrip : m.regs.rip = entry := congrArg Context.rip hcontext
  have hrsp : m.regs.rsp = (m.sched.threads t).rsp + 56 := congrArg Context.rsp hcontext
  have hregs : m.regs.saved = fun _ => 0 := congrArg Context.regs hcontext
  rcases h.frame with ⟨-, -, -, -, -, -, -, h₈, h₉, h₁₀, h₁₁, h₁₂, -⟩
  refine ⟨hrip, ?_⟩
  unfold userspaceEntry
  rw [hrsp, hregs, hrax]
  simp only [Nat.add_assoc, Nat.reduceAdd] at h₈ h₉ h₁₀ h₁₁ h₁₂ ⊢
  rw [h₈, h₉, h₁₀, h₁₁, h₁₂]

/-- The frame lies inside the new stack. -/
theorem storeWords_userFrame (mem : ByteMem) (a b c : Nat) {x : Nat}
    (hx : x < stack ∨ stack + stackSize ≤ x) :
    storeWords mem (stack + stackSize - 8 * (userFrame a b c).length) (userFrame a b c) x =
      mem x := by
  apply storeWords_apply_of_outside
  simp only [stackSize, userFrame, List.length_cons, List.length_nil] at hx ⊢
  omega

theorem createUser_stack (m : Switching) :
    (m.createUser t stack pml4Phys proc entry userEntry userStack).stack t =
      (stack, stack + stackSize) :=
  update_self ..

theorem userNext_inv (h : m.Inv) (hnext : UserNext m m') : m'.Inv := by
  cases hnext with
  | kernel hnext => exact step_inv h hnext
  | @createUser _ u stack pml4Phys proc entry userEntry userStack hfresh hroom =>
    rcases h.current with ⟨cur, hmem, hcur⟩
    exact ⟨⟨cur, Set.mem_insert_of_mem u hmem, hcur⟩,
      stacksApart_insert h.apart hfresh hroom rfl⟩

theorem userNext_kept (h : m.Inv) (ht : t ∈ m.threads) (haway : m.sched.currentThread ≠ some t)
    (hnext : UserNext m m') : t ∈ m'.threads ∧ StackKept t m m' := by
  cases hnext with
  | kernel hnext => exact step_kept h ht haway hnext
  | @createUser _ u stack pml4Phys proc entry userEntry userStack hfresh hroom =>
    exact ⟨Set.mem_insert_of_mem u ht, stackKept_new ht hfresh hroom fun x hx =>
      storeWords_userFrame m.mem _ _ _ hx⟩

/-- A run while `t` waits. -/
theorem userAway_kept (h : m.Inv) (ht : t ∈ m.threads)
    (haway : m.sched.currentThread ≠ some t) (hrun : ReflTransGen (UserAway t) m m₂) :
    m₂.Inv ∧ t ∈ m₂.threads ∧ StackKept t m m₂ ∧ m₂.sched.currentThread ≠ some t := by
  induction hrun with
  | refl => exact ⟨h, ht, .refl t m, haway⟩
  | tail _ hstep ih =>
    rcases ih with ⟨hinv, hmem, hkept, hne⟩
    rcases userNext_kept hinv hmem hne hstep.1 with ⟨hmem', hkept'⟩
    exact ⟨userNext_inv hinv hstep.1, hmem', hkept.trans hkept', hstep.2⟩

/-- When it is switched to, it enters user mode with the words in the order in
which they were stored. -/
theorem Starts.switched (h : m.Inv) (ht : t ∈ m.threads)
    (hs : m.Starts t entry userEntry userStack) (haway : m.sched.currentThread ≠ some t)
    (hrun : ReflTransGen (UserAway t) m m₂) (hswitch : UserNext m₂ m₃)
    (hcur : m₃.sched.currentThread = some t) :
    m₃.regs.rip = entry ∧ m₃.userspaceEntry = ⟨0x23, userStack, 0x202, 0x1B, userEntry,
      UInt64.ofNat (m.sched.threads t).cr3, fun _ => 0⟩ := by
  rcases userAway_kept h ht haway hrun with ⟨hinv₂, ht₂, hkept₂, hne₂⟩
  have hs₂ := hs.kept hkept₂
  rcases userNext_kept hinv₂ ht₂ hne₂ hswitch with ⟨-, hkept₃⟩
  have hcr3 : (m₃.sched.threads t).cr3 = (m.sched.threads t).cr3 := by
    have hrecord := hkept₃.record.trans hkept₂.record
    exact congrArg (fun r => r.2.2.1) hrecord
  rw [← hcr3]
  cases hswitch with
  | kernel hnext =>
    have hresumed := (step_suspended hinv₂ ht₂ hs₂.suspended hne₂ hnext).2.1 hcur
    rw [← fixed_rsp hkept₃.record] at hresumed
    exact (hs₂.kept hkept₃).enters hresumed (step_rax hne₂ hnext hcur)
  | createUser _ _ => exact absurd hcur hne₂

/-- `thread_create_user` prepares the stack. -/
theorem starts_createUser (m : Switching) (t : Tid) (stack pml4Phys : Nat)
    (proc : Option ProcPtr) (entry userEntry userStack : UInt64) :
    (m.createUser t stack pml4Phys proc entry userEntry userStack).Starts t entry userEntry
      userStack := by
  have hrsp : ((m.createUser t stack pml4Phys proc entry userEntry userStack).sched.threads t).rsp =
      stack + stackSize - 8 * 12 :=
    (threadCreateUser_self t stack pml4Phys proc m.sched).1
  constructor
  · rw [hrsp]
    exact holdsWords_storeWords m.mem _
      [0, 0, 0, 0, 0, 0, entry, 0x23, userStack, 0x202, 0x1B, userEntry]
  · rw [hrsp, createUser_stack]
    simp only [stackSize]
    omega
  · rw [hrsp, createUser_stack]
    simp only [stackSize]
    omega

/-- What `thread_create_user` was asked for. -/
def EntersAsAsked (userEntry userStack : UInt64) (u : UserState) : Prop :=
  u.rip = userEntry ∧ u.cs = 0x1B ∧ u.rflags = 0x202 ∧ u.rsp = userStack ∧ u.ss = 0x23 ∧
    u.regs = fun _ => 0

/-- The five words in the order in which they are stored. -/
theorem entersAsAsked_stored (userEntry userStack rax : UInt64) :
    EntersAsAsked userEntry userStack ⟨0x23, userStack, 0x202, 0x1B, userEntry, rax, fun _ => 0⟩ ↔
      userEntry = 0x23 ∧ userStack = 0x1B := by
  unfold EntersAsAsked
  constructor
  · rintro ⟨hrip, hcs, -, -, -, -⟩
    exact ⟨hrip.symm, hcs⟩
  · rintro ⟨rfl, rfl⟩
    exact ⟨rfl, rfl, rfl, rfl, rfl, rfl⟩

theorem inv_of_userReachable (h : Reachable Init UserNext m) (hfresh : t ∉ m.threads) :
    m.Inv ∧ m.sched.currentThread ≠ some t := by
  have hinv : m.Inv :=
    h.invariant (fun _ hinit => ⟨hinit.1, hinit.2⟩) fun _ _ hnext hinv => userNext_inv hinv hnext
  refine ⟨hinv, fun heq => ?_⟩
  rcases hinv.current with ⟨cur, hmem, hcurrent⟩
  obtain rfl : cur = t := Option.some.inj (hcurrent.symm.trans heq)
  exact hfresh hmem

/-- Whatever happens between `thread_create_user` and the first switch to the
thread, that switch goes to `userspace_entry`, and the thread enters user mode as
asked just if it was asked for the two selectors. -/
theorem entersAsAsked_iff (entry userEntry userStack : UInt64) (h : Reachable Init UserNext m)
    (hfresh : t ∉ m.threads)
    (hroom : ∀ u ∈ m.threads, stack + stackSize ≤ (m.stack u).1 ∨ (m.stack u).2 ≤ stack)
    (hrun : ReflTransGen (UserAway t)
      (m.createUser t stack pml4Phys proc entry userEntry userStack) m₂)
    (hswitch : UserNext m₂ m₃) (hcur : m₃.sched.currentThread = some t) :
    m₃.regs.rip = entry ∧
      (EntersAsAsked userEntry userStack m₃.userspaceEntry ↔
        userEntry = 0x23 ∧ userStack = 0x1B) := by
  rcases inv_of_userReachable h hfresh with ⟨hinv, haway⟩
  rcases (starts_createUser m t stack pml4Phys proc entry userEntry userStack).switched
    (userNext_inv hinv (.createUser hfresh hroom)) (Set.mem_insert t _) haway hrun hswitch hcur with
    ⟨hrip, hstate⟩
  refine ⟨hrip, ?_⟩
  rw [hstate]
  exact entersAsAsked_stored userEntry userStack _

end Entry

/-! ## The first user thread -/

section First

/-- The idle thread makes a user thread and switches to it. -/
theorem first_switch (userEntry userStack : UInt64) :
    ∃ m, UserNext (onlyIdle.createUser 2 0x3000 0x9000 none 0x1234 userEntry userStack) m ∧
      m.sched.currentThread = some 2 := by
  refine ⟨_, .kernel (@Next.schedule _ 1 2 1 _ 0x99 rfl rfl rfl (Set.mem_insert 2 _) ?_ ?_), rfl⟩
  · show 0x1000 + 56 ≤ 0x1800
    omega
  · show 0x1800 ≤ 0x2000
    omega

theorem roomFor_onlyIdle : ∀ u ∈ onlyIdle.threads,
    0x3000 + stackSize ≤ (onlyIdle.stack u).1 ∨ (onlyIdle.stack u).2 ≤ 0x3000 :=
  fun _ _ => Or.inr (Nat.le_of_ble_eq_true rfl)

theorem two_notMem_onlyIdle : 2 ∉ onlyIdle.threads := by simp [onlyIdle]

/-- Asked for 0x23 and 0x1B, the thread gets them. -/
theorem entersAsAsked_iff_selectors : ∃ m : Switching, m.sched.currentThread = some 2 ∧
    m.regs.rip = 0x1234 ∧ EntersAsAsked 0x23 0x1B m.userspaceEntry := by
  rcases first_switch 0x23 0x1B with ⟨m, hswitch, hcur⟩
  have henters := entersAsAsked_iff 0x1234 0x23 0x1B (.init init_onlyIdle) two_notMem_onlyIdle
    roomFor_onlyIdle .refl hswitch hcur
  exact ⟨m, hcur, henters.1, henters.2.mpr ⟨rfl, rfl⟩⟩

/-- Asked for what `load_raw` asks for, the thread starts at 0x23. -/
theorem loaded_thread_misses : ∃ m,
    UserNext (onlyIdle.createUser 2 0x3000 0x9000 none 0x1234 0x400000 0x800000001000) m ∧
      m.sched.currentThread = some 2 ∧ m.userspaceEntry.rip = 0x23 ∧
      m.userspaceEntry.rsp = 0x1B ∧
      ¬ EntersAsAsked 0x400000 0x800000001000 m.userspaceEntry := by
  rcases first_switch 0x400000 0x800000001000 with ⟨m, hswitch, hcur⟩
  have hinv : onlyIdle.Inv := ⟨init_onlyIdle.1, init_onlyIdle.2⟩
  rcases (starts_createUser onlyIdle 2 0x3000 0x9000 none 0x1234 0x400000 0x800000001000).switched
    (userNext_inv hinv (.createUser two_notMem_onlyIdle roomFor_onlyIdle)) (Set.mem_insert 2 _)
    (by decide) .refl hswitch hcur with ⟨-, hstate⟩
  refine ⟨m, hswitch, hcur, by rw [hstate], by rw [hstate], ?_⟩
  rw [hstate, entersAsAsked_stored]
  decide

end First

end Switching

/-! ## The child of a fork -/

section Fork

open Switching

variable {k k' : Kernel} {fuel : Nat} {p : ProcPtr} {t : Tid} {m m₂ m₃ : Switching}

/-- What `syscall_entry` has pushed when it calls the handler: the processor has
put RIP into `rcx` and RFLAGS into `r11`. -/
def UserState.pushed (u : UserState) (mem : ByteMem) : ByteMem :=
  write64 (write64 mem (u.rsp.toNat - 8) u.rflags.toNat) (u.rsp.toNat - 8 - 8) u.rip.toNat

/-- The end of `syscall_entry`, with `retval` in `syscall_retval` and `mem` as
the handler left it. The handler is compiled C, which keeps the stack pointer and
`rbx`, `rbp`, `r12` to `r15`. -/
def UserState.sysretq (u : UserState) (mem : ByteMem) (retval : UInt64) : UserState :=
  { u with
    rip := word mem (u.rsp.toNat - 8 - 8)
    rflags := word mem (u.rsp.toNat - 8)
    rax := retval }

/-- A handler that keeps the two words returns to where it was called from. -/
theorem UserState.sysretq_eq (u : UserState) {mem mem' : ByteMem} (retval : UInt64)
    (hrsp : 16 ≤ u.rsp.toNat)
    (hmem : ∀ x, u.rsp.toNat - 16 ≤ x → x < u.rsp.toNat → mem' x = u.pushed mem x) :
    u.sysretq mem' retval = { u with rax := retval } := by
  have hwords : HoldsWords (u.pushed mem) (u.rsp.toNat - 8 - 8) [u.rip, u.rflags] := by
    have hempty : HoldsWords mem u.rsp.toNat [] := trivial
    have hflags := hempty.push (v := u.rflags) (by omega)
    exact hflags.push (by omega)
  have hkept : HoldsWords mem' (u.rsp.toNat - 8 - 8) [u.rip, u.rflags] := by
    apply hwords.congr
    intro x hlo hhi
    simp only [List.length_cons, List.length_nil] at hhi
    exact hmem x (by omega) (by omega)
  rcases hkept with ⟨hrip, hrflags, -⟩
  rw [Nat.sub_add_cancel (by omega)] at hrflags
  unfold UserState.sysretq
  rw [hrip, hrflags]

/-- The child of the fork `k'` waits on the stack made for it, another thread
being current. -/
structure ForkWaits (k' : Kernel) (t : Tid) (m : Switching) : Prop where
  mem : m.mem = k'.heap.mem
  sched : m.sched = k'.sched
  inv : m.Inv
  thread : t ∈ m.threads
  away : m.sched.currentThread ≠ some t
  stack : m.stack t =
    ((k'.sched.threads t).kernelStack - stackSize, (k'.sched.threads t).kernelStack)

/-- A fork as it should be seen by its two processes. -/
def ReturnsTwice (parent child : UserState) (pid : UInt64) : Prop :=
  child.rip = parent.rip ∧ child.rsp = parent.rsp ∧ child.regs = parent.regs ∧ child.rax = 0 ∧
    parent.rax = pid ∧ pid ≠ 0

/-- What `thread_create_user` leaves: a record, with the frame below the top of
the new stack. -/
theorem threadCreateUser_frame {userEntry userStack pml4Phys : Nat} {proc : Option ProcPtr}
    (hcall : k.threadCreateUser fuel userEntry userStack pml4Phys proc = some (some t, k')) :
    ∃ kstack, k'.sched = Orchid.threadCreateUser t kstack pml4Phys proc k.sched ∧
      HoldsWords k'.heap.mem (kstack + stackSize - 8 * 12)
        [0, 0, 0, 0, 0, 0, UInt64.ofNat k.userspaceEntry, 0x23, UInt64.ofNat userStack, 0x202,
          0x1B, UInt64.ofNat userEntry] ∧
      k'.procs = k.procs ∧ headerSize ≤ t := by
  cases Kernel.threadCreateUser_outcome hcall with
  | @done _ kstack k₁ k₂ hrecord ht hstack _ =>
    have hk₁ := (Kernel.kmalloc_eq_some hrecord).2
    have hk₂ := (Kernel.kmalloc_eq_some hstack).2
    have hentry : k₂.userspaceEntry = k.userspaceEntry := by rw [hk₂, hk₁]
    have hsched : k₂.sched = k.sched := by rw [hk₂, hk₁]
    have hprocs : k₂.procs = k.procs := by rw [hk₂, hk₁]
    refine ⟨kstack, ?_, ?_, hprocs, Kernel.headerSize_le ht hrecord⟩
    · rw [← hsched]
      rfl
    · rw [← hentry]
      exact holdsWords_storeWords_ofNat k₂.heap.mem _ (userFrame k₂.userspaceEntry userEntry
        userStack)

/-- What a successful `sys_fork` leaves for the child. -/
theorem sysFork_frame (hfork : sysFork fuel k = some (some p, k'))
    (ht : (k'.procs p).mainThread = some t) :
    ∃ kstack, k'.sched =
        Orchid.threadCreateUser t kstack (k'.procs p).pml4Phys (some p) k.sched ∧
      HoldsWords k'.heap.mem (kstack + stackSize - 8 * 12)
        [0, 0, 0, 0, 0, 0, UInt64.ofNat k.userspaceEntry, 0x23, 0x800000001000, 0x202, 0x1B,
          UInt64.ofNat k.savedUserRip] ∧
      (k'.procs p).pml4Phys ≠ 0 ∧ (k'.procs p).pml4Phys ∈ k.vm.free ∧ headerSize ≤ t := by
  cases sysFork_outcome hfork with
  | @done cur _ t' k₁ k₂ vm _ hmalloc _ halloc _ hthread =>
    have htt : t' = t := by simpa [Kernel.modifyProc] using ht
    subst htt
    have hk₁ := (Kernel.kmalloc_eq_some hmalloc).2
    have hsched : (forkChild p k₁.vm.allocPage.1 vm k₁).sched = k.sched := by
      show k₁.sched = k.sched
      rw [hk₁]
    have hentry : (forkChild p k₁.vm.allocPage.1 vm k₁).userspaceEntry = k.userspaceEntry := by
      show k₁.userspaceEntry = k.userspaceEntry
      rw [hk₁]
    have hrip : k₁.savedUserRip = k.savedUserRip := by rw [hk₁]
    rcases threadCreateUser_frame hthread with ⟨kstack, hnew, hframe, hprocs, hthread⟩
    rw [hsched] at hnew
    rw [hentry, hrip] at hframe
    have hpml4 : ((k₂.modifyProc p fun r => { r with
        mainThread := some t', next := k₂.processList }).procs p).pml4Phys =
        k₁.vm.allocPage.1 := by
      rw [Kernel.modifyProc_self, hprocs]
      simp [forkChild, Kernel.modifyProc]
    refine ⟨kstack, ?_, hframe, ?_, ?_, hthread⟩
    · exact hnew.trans (congrArg (fun f => Orchid.threadCreateUser t' kstack f (some p) k.sched)
        hpml4.symm)
    · exact fun hzero => halloc (hpml4.symm.trans hzero)
    · rcases Vm.allocPage_of_ne halloc with ⟨a, rest, hfree, heq⟩
      have hmem : a ∈ k.vm.free := (Kernel.kmalloc_free hmalloc).subset (mem_of_eq_cons hfree)
      have hfirst : k₁.vm.allocPage.1 = a := by rw [heq]
      rw [← hfirst, ← hpml4] at hmem
      exact hmem

/-- The child's first state in user mode. -/
theorem fork_child_enters (hfork : sysFork fuel k = some (some p, k'))
    (ht : (k'.procs p).mainThread = some t) (hm : ForkWaits k' t m)
    (hrun : ReflTransGen (UserAway t) m m₂) (hswitch : UserNext m₂ m₃)
    (hcur : m₃.sched.currentThread = some t) :
    m₃.userspaceEntry = ⟨0x23, 0x800000001000, 0x202, 0x1B, UInt64.ofNat k.savedUserRip,
      UInt64.ofNat (k'.procs p).pml4Phys, fun _ => 0⟩ := by
  rcases sysFork_frame hfork ht with ⟨kstack, hsched, hframe, -⟩
  rcases threadCreateUser_self t kstack (k'.procs p).pml4Phys (some p) k.sched with
    ⟨hrsp, htop, hcr3⟩
  rw [← hsched, ← hm.sched] at hrsp htop hcr3
  have hstack : m.stack t = (kstack, kstack + stackSize) := by
    rw [hm.stack, ← hm.sched, htop, Nat.add_sub_cancel]
  have hstarts : m.Starts t (UInt64.ofNat k.userspaceEntry) (UInt64.ofNat k.savedUserRip)
      0x800000001000 := by
    constructor
    · rw [hrsp, hm.mem]
      exact hframe
    · rw [hrsp, hstack]
      simp only [stackSize]
      omega
    · rw [hrsp, hstack]
      simp only [stackSize]
      omega
  rw [← hcr3]
  exact (hstarts.switched hm.inv hm.thread hm.away hrun hswitch hcur).2

/-- For every context in which a process forks successfully: its own system call
returns with that context and the pid, and the child starts with RIP 0x23, RSP
0x1B and zero registers. In `rax` it has the address of its PML4, so it never
takes itself for the child. -/
theorem fork_returns_once (u : UserState) {mem mem' : ByteMem}
    (hframes : ∀ f ∈ k.vm.free, f < 2 ^ 64) (hsaved : k.savedUserRip = u.rip.toNat)
    (hrsp : 16 ≤ u.rsp.toNat)
    (hmem : ∀ x, u.rsp.toNat - 16 ≤ x → x < u.rsp.toNat → mem' x = u.pushed mem x)
    (hfork : sysFork fuel k = some (some p, k')) (ht : (k'.procs p).mainThread = some t)
    (hm : ForkWaits k' t m) (hrun : ReflTransGen (UserAway t) m m₂)
    (hswitch : UserNext m₂ m₃) (hcur : m₃.sched.currentThread = some t) :
    u.sysretq mem' (UInt64.ofNat (k'.procs p).pid) =
        { u with rax := UInt64.ofNat (k'.procs p).pid } ∧
      m₃.userspaceEntry = ⟨0x23, 0x800000001000, 0x202, 0x1B, u.rip,
        UInt64.ofNat (k'.procs p).pml4Phys, fun _ => 0⟩ ∧
      ¬ ReturnsTwice (u.sysretq mem' (UInt64.ofNat (k'.procs p).pid)) m₃.userspaceEntry
        (UInt64.ofNat (k'.procs p).pid) := by
  rcases sysFork_frame hfork ht with ⟨-, -, -, hne, hfree, -⟩
  have hchild := fork_child_enters hfork ht hm hrun hswitch hcur
  rw [hsaved, UInt64.ofNat_toNat] at hchild
  refine ⟨u.sysretq_eq _ hrsp hmem, hchild, ?_⟩
  rintro ⟨-, -, -, hrax, -, -⟩
  rw [hchild] at hrax
  -- the PML4 is a nonzero word
  have hzero : (k'.procs p).pml4Phys % 2 ^ 64 = 0 := by
    have h := congrArg UInt64.toNat hrax
    rwa [UInt64.toNat_ofNat'] at h
  rw [Nat.mod_eq_of_lt (hframes _ hfree)] at hzero
  exact hne hzero

/-! ## A fork -/

/-- A process with one page runs in the idle thread. -/
def forkedBy (rip : UInt64) : Kernel :=
  { forkKernel onePageMem 6 with
    sched := { onlyIdle.sched with currentProcess := some 7 }
    savedUserRip := rip.toNat }

/-- The machine after the fork, the idle thread having its stack above that of
the child. -/
def afterFork (k' : Kernel) (t : Tid) (kstack : Nat) : Switching where
  regs := ⟨fun _ => 7, kstack + stackSize + 0x800, 0, 0, 0x08, 0x10⟩
  mem := k'.heap.mem
  cr3 := 0
  sched := k'.sched
  threads := {1, t}
  stack := fun u => if u = t then (kstack, kstack + stackSize) else
    (kstack + stackSize, kstack + stackSize + stackSize)

/-- The idle thread's `schedule` goes to a thread just made. -/
theorem schedule_created {t : Tid} (ht : t ≠ 1) (kstack pml4Phys : Nat) (p : ProcPtr) :
    ∃ q, Orchid.schedule 1 (Orchid.threadCreateUser t kstack pml4Phys (some p)
        (forkedBy 0).sched) = some q ∧ q.currentThread = some t := by
  have hone : (1 : Tid) ≠ t := ht.symm
  simp [Orchid.schedule, pickNext, requeueCurrent, Orchid.threadCreateUser, initThread,
    schedulerAddThread, forkedBy, onlyIdle, Sched.setNext, Sched.modify, Sched.state, dispatch,
    hone]

/-- It forks, and the child is switched to. -/
theorem forkedBy_switches (rip : UInt64) : ∃ p k' t m m₃,
    sysFork 8 (forkedBy rip) = some (some p, k') ∧ (k'.procs p).pml4Phys = 0x10000 ∧
      (k'.procs p).mainThread = some t ∧ ForkWaits k' t m ∧ UserNext m m₃ ∧
      m₃.sched.currentThread = some t := by
  rcases plainMemory_onePageMem.fork_sched (cost_onePageMem.trans_le (by omega))
    { onlyIdle.sched with currentProcess := some 7 } rip.toNat rfl with ⟨p, k', hfork, hpml4⟩
  have hmain : ∃ t, (k'.procs p).mainThread = some t := by
    cases sysFork_outcome hfork with
    | @done _ _ t => exact ⟨t, by rw [Kernel.modifyProc_self]⟩
  rcases hmain with ⟨t, hmain⟩
  rcases sysFork_frame hfork hmain with ⟨kstack, hsched, -, -, -, hge⟩
  have ht : t ≠ 1 := by
    rintro rfl
    exact absurd hge (by decide)
  have htop : (k'.sched.threads t).kernelStack = kstack + stackSize := by
    rw [hsched]
    exact (threadCreateUser_self t kstack _ _ _).2.1
  have hcurrent : k'.sched.currentThread = some 1 := by
    rw [hsched]
    rfl
  have hstack : (afterFork k' t kstack).stack t = (kstack, kstack + stackSize) := if_pos rfl
  have hstack' : (afterFork k' t kstack).stack 1 =
      (kstack + stackSize, kstack + stackSize + stackSize) := if_neg ht.symm
  rcases schedule_created ht kstack (k'.procs p).pml4Phys p with ⟨q, hcall, hnext⟩
  refine ⟨p, k', t, afterFork k' t kstack, _, hfork, hpml4, hmain, ⟨rfl, rfl, ?_, ?_, ?_, ?_⟩,
    .kernel (@Next.schedule _ 1 t 1 q 0x99 hcurrent ?_ hnext ?_ ?_ ?_), ?_⟩
  · refine ⟨⟨1, Set.mem_insert 1 _, hcurrent⟩, ?_⟩
    intro a ha b hb hne
    unfold StacksApart
    rcases ha with rfl | rfl
    · rcases hb with rfl | rfl
      · exact absurd rfl hne
      · rw [hstack, hstack']
        exact Or.inr le_rfl
    · rcases hb with rfl | rfl
      · rw [hstack, hstack']
        exact Or.inl le_rfl
      · exact absurd rfl hne
  · exact Set.mem_insert_of_mem 1 rfl
  · show k'.sched.currentThread ≠ some t
    rw [hcurrent]
    exact fun heq => ht (Option.some.inj heq).symm
  · rw [hstack, htop, Nat.add_sub_cancel]
  · show Orchid.schedule 1 k'.sched = some q
    rw [hsched]
    exact hcall
  · exact Set.mem_insert_of_mem 1 rfl
  · rw [hstack']
    show kstack + stackSize + 56 ≤ kstack + stackSize + 0x800
    omega
  · rw [hstack']
    show kstack + stackSize + 0x800 ≤ kstack + stackSize + 0x1000
    omega
  · rw [callSwitchTo_currentThread]
    exact hnext

/-- The context in which a program at 0x400020 has called fork, with 1 in all its
registers. -/
def forking : UserState := ⟨0x400020, 0x1B, 0x202, 0x800000000F00, 0x23, 57, fun _ => 1⟩

theorem free_forkedBy (rip : UInt64) : ∀ f ∈ (forkedBy rip).vm.free, f < 2 ^ 64 := by
  intro f hf
  have hsmall := (freeOk_take 6).small f hf
  omega

/-- The call at 0x400020 returns there, and the child starts at 0x23. -/
theorem fork_returns_once_forking : ∃ p k' t m m₃,
    sysFork 8 (forkedBy 0x400020) = some (some p, k') ∧ ForkWaits k' t m ∧ UserNext m m₃ ∧
      m₃.sched.currentThread = some t ∧
      (forking.sysretq (forking.pushed fun _ => 0) (UInt64.ofNat (k'.procs p).pid)).rip =
        0x400020 ∧
      m₃.userspaceEntry.rip = 0x23 := by
  rcases forkedBy_switches 0x400020 with ⟨p, k', t, m, m₃, hfork, -, ht, hm, hswitch, hcur⟩
  rcases fork_returns_once forking (free_forkedBy 0x400020) rfl (by decide)
    (fun x _ _ => Eq.refl (forking.pushed (fun _ => 0) x)) hfork ht hm .refl hswitch hcur with ⟨hparent, hchild, -⟩
  refine ⟨p, k', t, m, m₃, hfork, hm, hswitch, hcur, ?_, ?_⟩
  · rw [hparent]
    rfl
  · rw [hchild]

/-- The child of the process above does not have its instruction pointer, its
stack pointer, its registers or the zero. -/
theorem fork_child_differs : ∃ p k' t m m₃,
    sysFork 8 (forkedBy 0x400020) = some (some p, k') ∧ (k'.procs p).mainThread = some t ∧
      ForkWaits k' t m ∧ UserNext m m₃ ∧ m₃.sched.currentThread = some t ∧
      m₃.userspaceEntry.rip = 0x23 ∧ m₃.userspaceEntry.rsp = 0x1B ∧
      m₃.userspaceEntry.regs ⟨.r12, by decide⟩ = 0 ∧ m₃.userspaceEntry.rax = 0x10000 := by
  rcases forkedBy_switches 0x400020 with ⟨p, k', t, m, m₃, hfork, hpml4, ht, hm, hswitch, hcur⟩
  have hchild := fork_child_enters hfork ht hm .refl hswitch hcur
  refine ⟨p, k', t, m, m₃, hfork, ht, hm, hswitch, hcur, ?_, ?_, ?_, ?_⟩
  · rw [hchild]
  · rw [hchild]
  · rw [hchild]
  · rw [hchild, hpml4]
    rfl

end Fork

end Orchid
