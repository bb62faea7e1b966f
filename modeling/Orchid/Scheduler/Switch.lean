import Orchid.Core.Rules
import Orchid.Core.X86
import Orchid.Scheduler.Model

/-! # Context switches

A model of `__switch_to` in `kernel/switch.s`, instruction by instruction, and
of the frame that `thread_create` builds for it. A thread that is switched away
from leaves six registers and its return address on its own stack, and the
address of the lowest of them in `thread_t.rsp`.

* A thread is suspended with a context when the seven words at its `rsp` hold
  it. The call of `__switch_to` suspends the caller with the context it has.
* Other threads write to their own stacks, so a suspended thread stays so until
  it is switched to, and then it has that context again.
-/

namespace Orchid

open ByteMem Machine X86 Function Relation

/-! ## The machine -/

/-- What a thread has at a call of `__switch_to`: where it returns to, and the
stack pointer and registers from before the call. -/
structure Context where
  rip : UInt64
  rsp : Nat
  regs : CalleeSaved → UInt64

/-- The registers of a suspended context, from the lowest address on. -/
def savedRegs : List CalleeSaved :=
  [⟨.r15, by decide⟩, ⟨.r14, by decide⟩, ⟨.r13, by decide⟩, ⟨.r12, by decide⟩, ⟨.rbx, by decide⟩,
    ⟨.rbp, by decide⟩]

/-- The words of a suspended context. -/
def Context.frame (c : Context) : List UInt64 := savedRegs.map c.regs ++ [c.rip]

/-- The processor on the kernel's threads. `stack` is where each thread has its
kernel stack: from the first address up to the second. -/
structure Switching extends Core where
  cr3 : Nat
  sched : Sched
  threads : Set Tid
  stack : Tid → Nat × Nat

namespace Switching

/-- What the current thread has in its registers, as a context. -/
def context (m : Switching) : Context := ⟨m.regs.rip, m.regs.rsp, m.regs.saved⟩

/-- Instructions that change registers and memory only. -/
def onCore (f : Core → Core) (m : Switching) : Switching := { m with toCore := f m.toCore }

/-- `__switch_to`, with `rdi`, `rsi` and `rdx` as arguments. -/
def switchTo (prev next : Tid) (newCr3 : Nat) (m : Switching) : Switching :=
  let m := m.onCore (exec ([.rbp, .rbx, .r12, .r13, .r14, .r15].map .push))
  -- movq %rsp, (%rdi)
  let m := { m with sched := m.sched.modify prev fun th => { th with rsp := m.regs.rsp } }
  -- movq (%rsi), %rsp
  let m := { m with regs := { m.regs with rsp := (m.sched.threads next).rsp } }
  -- movq %rdx, %rax and movq %cr3, %rcx
  let m := m.onCore (Core.setGpr .rax (UInt64.ofNat newCr3))
  let m := m.onCore (Core.setGpr .rcx (UInt64.ofNat m.cr3))
  let m := if m.cr3 = newCr3 then m else { m with cr3 := newCr3 }
  let m := m.onCore (exec ([.r15, .r14, .r13, .r12, .rbx, .rbp].map .pop))
  m.onCore Core.ret

/-- The end of `schedule`: the call of `__switch_to`, which returns to
`retAddr`. The records are those that the locked part has left. -/
def callSwitchTo (retAddr : UInt64) (prev next : Tid) (sched : Sched) (m : Switching) :
    Switching :=
  switchTo prev next (sched.threads next).cr3 ({ m with sched := sched }.onCore (Core.push retAddr))

/-- The words `thread_create` stores on a new stack. -/
def newFrame (entry : UInt64) : List UInt64 := [0, 0, 0, 0, 0, 0, entry]

/-- `thread_create`, given the blocks for the record and the stack. -/
def create (t : Tid) (stack cr3 : Nat) (proc : Option ProcPtr) (entry : UInt64) (m : Switching) :
    Switching :=
  { m with
    mem := storeWords m.mem (stack + stackSize - 8 * 7) ((newFrame entry).map UInt64.toNat)
    sched := threadCreate t stack cr3 proc m.sched
    threads := insert t m.threads
    stack := update m.stack t (stack, stack + stackSize) }

/-- `x` is not in the stack of `t`. -/
def Outside (m : Switching) (t : Tid) (x : Nat) : Prop := x < (m.stack t).1 ∨ (m.stack t).2 ≤ x

/-- Two stacks do not overlap. -/
def StacksApart (m : Switching) (t u : Tid) : Prop :=
  (m.stack t).2 ≤ (m.stack u).1 ∨ (m.stack u).2 ≤ (m.stack t).1

/-- Any threads with disjoint stacks, one of them running. -/
def Init : StatePred Switching := fun m =>
  (∃ cur ∈ m.threads, m.sched.currentThread = some cur) ∧
  ∀ t ∈ m.threads, ∀ u ∈ m.threads, t ≠ u → m.StacksApart t u

/-- One step of the current thread. -/
inductive Next : Action Switching where
  /-- It computes, and writes to its own stack only. -/
  | compute {m : Switching} {cur : Tid} {core : Core} :
      m.sched.currentThread = some cur → (∀ x, m.Outside cur x → core.mem x = m.mem x) →
      Next m { m with toCore := core }
  /-- It changes states and links of the scheduler, as `thread_unblock` does. -/
  | mark {m : Switching} {sched : Sched} :
      sched.currentThread = m.sched.currentThread →
      (∀ t, (sched.threads t).fixed = (m.sched.threads t).fixed) → Next m { m with sched := sched }
  /-- It calls `schedule`, with room for seven words on its stack. -/
  | schedule {m : Switching} {cur next : Tid} {fuel : Nat} {q : Sched} (retAddr : UInt64) :
      m.sched.currentThread = some cur → Orchid.schedule fuel m.sched = some q →
      q.currentThread = some next → next ∈ m.threads →
      (m.stack cur).1 + 56 ≤ m.regs.rsp → m.regs.rsp ≤ (m.stack cur).2 →
      Next m (m.callSwitchTo retAddr cur next q)
  /-- It makes a thread, with a stack apart from all others. -/
  | create {m : Switching} {t : Tid} {stack cr3 : Nat} {proc : Option ProcPtr} {entry : UInt64} :
      t ∉ m.threads →
      (∀ u ∈ m.threads, stack + stackSize ≤ (m.stack u).1 ∨ (m.stack u).2 ≤ stack) →
      Next m (m.create t stack cr3 proc entry)

/-! ## What `__switch_to` does -/

section Calls

variable {m m' : Switching} {prev next t : Tid} {retAddr : UInt64} {newCr3 : Nat} {q : Sched}
  {c : Context}

/-- The context of the caller. -/
def atCall (m : Switching) (retAddr : UInt64) : Context := ⟨retAddr, m.regs.rsp, m.regs.saved⟩

/-- The memory after the call and the six pushes. -/
def pushed (m : Switching) (retAddr : UInt64) : ByteMem :=
  (m.toCore.pushAll (m.atCall retAddr).frame.reverse).mem

theorem pushAll_frame_regs (m : Switching) (retAddr : UInt64) :
    (m.toCore.pushAll (m.atCall retAddr).frame.reverse).regs =
      { m.regs with rsp := m.regs.rsp - 56 } :=
  pushAll_regs _ m.toCore

theorem holdsWords_pushed (h : 56 ≤ m.regs.rsp) :
    HoldsWords (m.pushed retAddr) (m.regs.rsp - 56) (m.atCall retAddr).frame := by
  have hempty : HoldsWords m.mem m.regs.rsp [] := trivial
  have hroom : 8 * (m.atCall retAddr).frame.reverse.length ≤ m.regs.rsp := h
  have hwords := pushAll_holds hempty hroom
  rwa [pushAll_frame_regs, List.reverse_reverse, List.append_nil] at hwords

theorem pushed_apply_of_outside {x : Nat} (h : 56 ≤ m.regs.rsp)
    (hx : x < m.regs.rsp - 56 ∨ m.regs.rsp ≤ x) : m.pushed retAddr x = m.mem x := by
  have hroom : 8 * (m.atCall retAddr).frame.reverse.length ≤ m.regs.rsp := h
  exact pushAll_apply_of_outside hroom hx

/-- The registers after those of a context are popped. -/
def restored (c : Context) (gpr : Gpr → UInt64) : Gpr → UInt64 := fun r =>
  if h : r ∈ calleeSaved then c.regs ⟨r, h⟩ else gpr r

theorem restored_saved (c : Context) (gpr : Gpr → UInt64) (s : CalleeSaved) :
    restored c gpr s = c.regs s :=
  dif_pos s.2

/-- The pops and the return, from a stack pointer under which a context lies. -/
theorem pops_context (h : HoldsWords m.mem m.regs.rsp c.frame) :
    (m.onCore (exec ([.r15, .r14, .r13, .r12, .rbx, .rbp].map .pop))).onCore Core.ret =
      { m with regs :=
        { m.regs with
          gpr := restored c m.regs.gpr
          rsp := m.regs.rsp + 56
          rip := c.rip } } := by
  have hframe : HoldsWords m.mem m.regs.rsp
      ([Gpr.r15, .r14, .r13, .r12, .rbx, .rbp].map (restored c m.regs.gpr) ++ [c.rip]) := h
  rcases exec_pops (by decide) hframe with ⟨⟨hret, -⟩, hexec⟩
  have hgpr : (fun r => if r ∈ [Gpr.r15, .r14, .r13, .r12, .rbx, .rbp] then
      restored c m.regs.gpr r else m.regs.gpr r) = restored c m.regs.gpr := by
    funext r
    cases r <;> rfl
  simp only [List.length_cons, List.length_nil] at hret hexec
  simp only [onCore, hexec, hgpr, Core.ret, hret]

/-- The stack pointer that is loaded: the caller's own, if it is switched to. -/
def loadedRsp (m : Switching) (prev next : Tid) (q : Sched) : Nat :=
  if next = prev then m.regs.rsp - 56 else (q.threads next).rsp

/-- The registers at the pops: `rax` and `rcx` have been used for CR3. -/
def scratched (m : Switching) (newCr3 : Nat) : Gpr → UInt64 :=
  update (update m.regs.gpr .rax (UInt64.ofNat newCr3)) .rcx (UInt64.ofNat m.cr3)

/-- A switch to a thread under whose stack pointer a context lies. -/
theorem callSwitchTo_eq
    (hframe : HoldsWords (m.pushed retAddr) (m.loadedRsp prev next q) c.frame) :
    m.callSwitchTo retAddr prev next q =
      { m with
        regs :=
          { m.regs with
            gpr := restored c (m.scratched (q.threads next).cr3)
            rsp := m.loadedRsp prev next q + 56
            rip := c.rip }
        mem := m.pushed retAddr
        cr3 := (q.threads next).cr3
        sched := q.modify prev fun th => { th with rsp := m.regs.rsp - 56 } } := by
  have hrsp : ((q.modify prev fun th => { th with rsp := m.regs.rsp - 56 }).threads next).rsp =
      m.loadedRsp prev next q := by
    unfold loadedRsp
    split
    · next heq => simp [Sched.modify, heq]
    · next hne => simp [Sched.modify, hne]
  have hpushes : exec ([.rbp, .rbx, .r12, .r13, .r14, .r15].map .push) (m.toCore.push retAddr) =
      m.toCore.pushAll (m.atCall retAddr).frame.reverse := exec_pushes _ _
  -- the pushes, and the two moves to and from the records
  let n : Switching := { m with
    regs :=
      { m.regs with
        gpr := m.scratched (q.threads next).cr3
        rsp := m.loadedRsp prev next q }
    mem := m.pushed retAddr
    cr3 := (q.threads next).cr3
    sched := q.modify prev fun th => { th with rsp := m.regs.rsp - 56 } }
  have hmoves : m.callSwitchTo retAddr prev next q =
      (n.onCore (exec ([.r15, .r14, .r13, .r12, .rbx, .rbp].map .pop))).onCore Core.ret := by
    unfold callSwitchTo switchTo
    simp only [onCore, hpushes, pushAll_frame_regs, hrsp, Core.setGpr]
    split
    · next hcr3 =>
      simp only [n, scratched]
      rw [← hcr3]
      rfl
    · rfl
  rw [hmoves]
  exact pops_context hframe

/-- Whatever lies there is read as some context. -/
theorem exists_frame (mem : ByteMem) (a : Nat) : ∃ c : Context, HoldsWords mem a c.frame := by
  refine ⟨⟨word mem (a + 48), 0, fun s => word mem (a + 8 * savedRegs.idxOf s)⟩, ?_⟩
  exact ⟨rfl, rfl, rfl, rfl, rfl, rfl, rfl, trivial⟩

/-- The records and the memory after a switch do not depend on what is
loaded. -/
theorem callSwitchTo_kept (m : Switching) (retAddr : UInt64) (prev next : Tid) (q : Sched) :
    ∃ regs, m.callSwitchTo retAddr prev next q =
      { m with
        regs := regs
        mem := m.pushed retAddr
        cr3 := (q.threads next).cr3
        sched := q.modify prev fun th => { th with rsp := m.regs.rsp - 56 } } := by
  rcases exists_frame (m.pushed retAddr) (m.loadedRsp prev next q) with ⟨c, hframe⟩
  exact ⟨_, callSwitchTo_eq hframe⟩

end Calls

/-! ## Suspended threads -/

section Suspension

variable {m m' m₂ m₃ : Switching} {cur t : Tid} {c : Context}

/-- `t` has left `c` on its stack. -/
structure Suspended (m : Switching) (t : Tid) (c : Context) : Prop where
  frame : HoldsWords m.mem (m.sched.threads t).rsp c.frame
  rsp : c.rsp = (m.sched.threads t).rsp + 56
  lower : (m.stack t).1 ≤ (m.sched.threads t).rsp
  upper : c.rsp ≤ (m.stack t).2

/-- `t` runs with `c`, in its own address space. -/
def Resumed (m : Switching) (t : Tid) (c : Context) : Prop :=
  m.context = c ∧ m.cr3 = (m.sched.threads t).cr3

structure Inv (m : Switching) : Prop where
  current : ∃ cur ∈ m.threads, m.sched.currentThread = some cur
  apart : ∀ t ∈ m.threads, ∀ u ∈ m.threads, t ≠ u → m.StacksApart t u

/-- What stays of a suspended thread if its record and the bytes of its stack
stay. -/
theorem Suspended.keep (h : m.Suspended t c) (hstack : m'.stack t = m.stack t)
    (hrsp : (m'.sched.threads t).rsp = (m.sched.threads t).rsp)
    (hmem : ∀ x, (m.stack t).1 ≤ x → x < (m.stack t).2 → m'.mem x = m.mem x) :
    m'.Suspended t c := by
  have hlen : c.frame.length = 7 := rfl
  have hlower := h.lower
  have hupper := h.upper
  have heq := h.rsp
  refine ⟨?_, ?_, ?_, ?_⟩
  · rw [hrsp]
    refine h.frame.congr fun x hlo hhi => hmem x (by omega) (by omega)
  · rw [hrsp]
    exact heq
  · rw [hrsp, hstack]
    exact hlower
  · rw [hstack]
    exact hupper

theorem fixed_rsp {th th' : Thread} (h : th'.fixed = th.fixed) : th'.rsp = th.rsp :=
  congrArg Prod.fst h

/-- A stack in a place of its own is apart from the others, which are as they were. -/
theorem stacksApart_insert {u : Tid} {stack : Nat}
    (hapart : ∀ t ∈ m.threads, ∀ v ∈ m.threads, t ≠ v → m.StacksApart t v) (hfresh : u ∉ m.threads)
    (hroom : ∀ v ∈ m.threads, stack + stackSize ≤ (m.stack v).1 ∨ (m.stack v).2 ≤ stack)
    (hstack : m'.stack = update m.stack u (stack, stack + stackSize)) :
    ∀ t ∈ insert u m.threads, ∀ v ∈ insert u m.threads, t ≠ v → m'.StacksApart t v := by
  intro a ha b hb hab
  have hold : ∀ v ∈ m.threads, m'.stack v = m.stack v := by
    intro v hv
    have hvu : v ≠ u := fun heq => hfresh (heq ▸ hv)
    rw [hstack]
    exact update_of_ne hvu _ _
  have hnew : m'.stack u = (stack, stack + stackSize) := by
    rw [hstack]
    exact update_self ..
  unfold StacksApart
  rcases ha with rfl | ha
  · rcases hb with rfl | hb
    · exact absurd rfl hab
    · rw [hnew, hold b hb]
      exact hroom b hb
  · rcases hb with rfl | hb
    · rw [hnew, hold a ha]
      exact (hroom a ha).symm
    · rw [hold a ha, hold b hb]
      exact hapart a ha b hb hab

theorem step_inv (h : m.Inv) (hnext : Next m m') : m'.Inv := by
  rcases h with ⟨⟨cur, hmem, hcur⟩, hapart⟩
  cases hnext with
  | compute _ _ => exact ⟨⟨cur, hmem, hcur⟩, hapart⟩
  | mark hsame _ => exact ⟨⟨cur, hmem, hsame.trans hcur⟩, hapart⟩
  | @schedule _ cur next fuel q retAddr _ _ hpicked hmade _ _ =>
    rcases callSwitchTo_kept m retAddr cur next q with ⟨regs, heq⟩
    rw [heq]
    exact ⟨⟨next, hmade, hpicked⟩, hapart⟩
  | @create _ u stack cr3 proc entry hfresh hroom =>
    exact ⟨⟨cur, Set.mem_insert_of_mem u hmem, hcur⟩,
      stacksApart_insert hapart hfresh hroom rfl⟩

theorem callSwitchTo_currentThread (m : Switching) (retAddr : UInt64) (prev next : Tid)
    (q : Sched) : (m.callSwitchTo retAddr prev next q).sched.currentThread = q.currentThread := by
  rcases callSwitchTo_kept m retAddr prev next q with ⟨regs, hkept⟩
  rw [hkept]
  rfl

theorem callSwitchTo_threads (m : Switching) (retAddr : UInt64) (prev next : Tid) (q : Sched) :
    (m.callSwitchTo retAddr prev next q).threads = m.threads := by
  rcases callSwitchTo_kept m retAddr prev next q with ⟨regs, hkept⟩
  rw [hkept]

/-- Who is switched to has the context that lies under the loaded stack pointer. -/
theorem resumed_callSwitchTo {prev : Tid} {retAddr : UInt64} {q : Sched}
    (hframe : HoldsWords (m.pushed retAddr) (m.loadedRsp prev t q) c.frame)
    (hrsp : c.rsp = m.loadedRsp prev t q + 56) :
    (m.callSwitchTo retAddr prev t q).Resumed t c := by
  rw [callSwitchTo_eq hframe]
  constructor
  · unfold context
    rw [← hrsp]
    congr 1
    funext s
    exact restored_saved c _ s
  · -- the switch changes no field but the stack pointer
    by_cases heq : t = prev
    · simp [Sched.modify, heq]
    · simp [Sched.modify, heq]

/-- The pushes go to the stack of the caller. -/
theorem StacksApart.pushed {prev : Tid} {x : Nat} (h : m.StacksApart t prev) (retAddr : UInt64)
    (hlow : (m.stack prev).1 + 56 ≤ m.regs.rsp) (hhigh : m.regs.rsp ≤ (m.stack prev).2)
    (hlo : (m.stack t).1 ≤ x) (hhi : x < (m.stack t).2) : m.pushed retAddr x = m.mem x := by
  unfold StacksApart at h
  apply pushed_apply_of_outside
  · omega
  · omega

/-- The stack of `t`, its bytes and the record of `t` are the same. -/
structure StackKept (t : Tid) (m m' : Switching) : Prop where
  stack : m'.stack t = m.stack t
  record : (m'.sched.threads t).fixed = (m.sched.threads t).fixed
  bytes : ∀ x, (m.stack t).1 ≤ x → x < (m.stack t).2 → m'.mem x = m.mem x

theorem StackKept.refl (t : Tid) (m : Switching) : StackKept t m m :=
  ⟨rfl, rfl, fun _ _ _ => rfl⟩

theorem StackKept.trans (h : StackKept t m m') (h' : StackKept t m' m₂) : StackKept t m m₂ := by
  refine ⟨h'.stack.trans h.stack, h'.record.trans h.record, ?_⟩
  intro x hlo hhi
  rw [h'.bytes x (by rwa [h.stack]) (by rwa [h.stack]), h.bytes x hlo hhi]

theorem StackKept.suspended (h : StackKept t m m') (hs : m.Suspended t c) : m'.Suspended t c :=
  hs.keep h.stack (fixed_rsp h.record) h.bytes

/-- A new thread gets a stack and a record of its own. -/
theorem stackKept_new {u : Tid} {words stack cr3 : Nat} {proc : Option ProcPtr} {mem : ByteMem}
    {threads : Set Tid} (ht : t ∈ m.threads) (hfresh : u ∉ m.threads)
    (hroom : ∀ v ∈ m.threads, stack + stackSize ≤ (m.stack v).1 ∨ (m.stack v).2 ≤ stack)
    (hmem : ∀ x, x < stack ∨ stack + stackSize ≤ x → mem x = m.mem x) :
    StackKept t m
      { m with
        mem := mem
        sched := initThread words u stack cr3 proc m.sched
        threads := threads
        stack := update m.stack u (stack, stack + stackSize) } := by
  have hut : t ≠ u := fun heq => hfresh (heq ▸ ht)
  refine ⟨update_of_ne hut _ _, ?_, ?_⟩
  · simp [initThread, schedulerAddThread, Sched.setNext, Sched.modify, hut]
  · intro x hlo hhi
    have hapart := hroom t ht
    exact hmem x (by omega)

/-- Whatever another thread does, a thread keeps its stack. -/
theorem step_kept (h : m.Inv) (ht : t ∈ m.threads) (haway : m.sched.currentThread ≠ some t)
    (hnext : Next m m') : t ∈ m'.threads ∧ StackKept t m m' := by
  rcases h.current with ⟨cur, hmem, hcur⟩
  have hne : t ≠ cur := fun heq => haway (heq ▸ hcur)
  have hapart : m.StacksApart t cur := h.apart t ht cur hmem hne
  cases hnext with
  | @compute _ cur' core hcur' hown =>
    have heq : cur' = cur := Option.some.inj (hcur'.symm.trans hcur)
    subst heq
    refine ⟨ht, rfl, rfl, fun x hlo hhi => ?_⟩
    apply hown x
    unfold Outside
    unfold StacksApart at hapart
    omega
  | mark _ hfixed => exact ⟨ht, rfl, hfixed t, fun _ _ _ => rfl⟩
  | @schedule _ cur' next fuel q retAddr hcur' hsched _ _ hlow hhigh =>
    have heq : cur' = cur := Option.some.inj (hcur'.symm.trans hcur)
    subst heq
    rcases callSwitchTo_kept m retAddr cur' next q with ⟨regs, hkept⟩
    rw [hkept]
    refine ⟨ht, rfl, ?_, fun x hlo hhi => hapart.pushed retAddr hlow hhigh hlo hhi⟩
    rw [← schedule_fixed hsched t]
    simp [Sched.modify, hne]
  | @create _ u stack cr3 proc entry hfresh hroom =>
    refine ⟨Set.mem_insert_of_mem u ht, stackKept_new ht hfresh hroom fun x hx => ?_⟩
    apply storeWords_apply_of_outside
    simp only [stackSize, newFrame, List.length_map, List.length_cons, List.length_nil] at hx ⊢
    omega

/-- Only a switch makes another thread the current one. -/
theorem step_switched (haway : m.sched.currentThread ≠ some t) (hnext : Next m m')
    (hback : m'.sched.currentThread = some t) :
    ∃ prev retAddr q, t ≠ prev ∧ (q.threads t).fixed = (m.sched.threads t).fixed ∧
      m' = m.callSwitchTo retAddr prev t q := by
  cases hnext with
  | compute _ _ => exact absurd hback haway
  | mark hsame _ => exact absurd (hsame ▸ hback) haway
  | @schedule _ cur next fuel q retAddr hcur hsched hpicked _ _ _ =>
    rw [callSwitchTo_currentThread] at hback
    obtain rfl : next = t := Option.some.inj (hpicked.symm.trans hback)
    exact ⟨cur, retAddr, q, fun heq => haway (heq ▸ hcur), schedule_fixed hsched next, rfl⟩
  | create _ _ => exact absurd hback haway

/-- In `rax` a thread that is switched to has its own PML4, from the test of CR3. -/
theorem step_rax (haway : m.sched.currentThread ≠ some t) (hnext : Next m m')
    (hback : m'.sched.currentThread = some t) :
    m'.regs.gpr .rax = UInt64.ofNat (m'.sched.threads t).cr3 := by
  rcases step_switched haway hnext hback with ⟨prev, retAddr, q, hne, -, rfl⟩
  rcases exists_frame (m.pushed retAddr) (m.loadedRsp prev t q) with ⟨c, hframe⟩
  rw [callSwitchTo_eq hframe]
  simp [restored, scratched, calleeSaved, Sched.modify, hne]

/-- A suspended thread that is switched to has its context again. -/
theorem Suspended.resumed {prev : Tid} {retAddr : UInt64} {q : Sched} (h : m.Suspended t c)
    (hne : t ≠ prev) (hrecord : (q.threads t).fixed = (m.sched.threads t).fixed)
    (hkept : StackKept t m (m.callSwitchTo retAddr prev t q)) :
    (m.callSwitchTo retAddr prev t q).Resumed t c := by
  have hloaded : m.loadedRsp prev t q = (m.sched.threads t).rsp := by
    unfold loadedRsp
    rw [if_neg hne, fixed_rsp hrecord]
  have hmem : (m.callSwitchTo retAddr prev t q).mem = m.pushed retAddr := by
    rcases callSwitchTo_kept m retAddr prev t q with ⟨regs, heq⟩
    rw [heq]
  have hlen : c.frame.length = 7 := rfl
  have hlower := h.lower
  have hupper := h.upper
  have heq := h.rsp
  apply resumed_callSwitchTo
  · rw [hloaded, ← hmem]
    apply h.frame.congr
    intro x hlo hhi
    apply hkept.bytes
    · omega
    · omega
  · rw [hloaded]
    exact heq

/-- While another thread runs, a suspended thread stays suspended, and when it is
switched to it has its context again. -/
theorem step_suspended (h : m.Inv) (ht : t ∈ m.threads) (hs : m.Suspended t c)
    (haway : m.sched.currentThread ≠ some t) (hnext : Next m m') :
    t ∈ m'.threads ∧ (m'.sched.currentThread = some t → m'.Resumed t c) ∧
      (m'.sched.currentThread ≠ some t → m'.Suspended t c) := by
  rcases step_kept h ht haway hnext with ⟨hmem, hkept⟩
  refine ⟨hmem, fun hback => ?_, fun _ => hkept.suspended hs⟩
  rcases step_switched haway hnext hback with ⟨prev, retAddr, q, hne, hrecord, rfl⟩
  exact hs.resumed hne hrecord hkept

/-- How a thread comes to wait for a switch with context `c`: it calls
`schedule`, or it is made by `thread_create`. -/
inductive Leaves (t : Tid) : Context → Action Switching where
  | calls {m : Switching} {next : Tid} {fuel : Nat} {q : Sched} (retAddr : UInt64) :
      m.sched.currentThread = some t → Orchid.schedule fuel m.sched = some q →
      q.currentThread = some next → next ∈ m.threads →
      (m.stack t).1 + 56 ≤ m.regs.rsp → m.regs.rsp ≤ (m.stack t).2 →
      Leaves t (m.atCall retAddr) m (m.callSwitchTo retAddr t next q)
  | made {m : Switching} {stack cr3 : Nat} {proc : Option ProcPtr} {entry : UInt64} :
      t ∉ m.threads →
      (∀ u ∈ m.threads, stack + stackSize ≤ (m.stack u).1 ∨ (m.stack u).2 ≤ stack) →
      Leaves t ⟨entry, ((m.create t stack cr3 proc entry).sched.threads t).kernelStack, fun _ => 0⟩
        m (m.create t stack cr3 proc entry)

theorem Leaves.next (h : Leaves t c m m') : Next m m' := by
  cases h with
  | calls retAddr hcur hsched hpicked hmade hlow hhigh =>
    exact .schedule retAddr hcur hsched hpicked hmade hlow hhigh
  | made hfresh hroom => exact .create hfresh hroom

/-- A thread that leaves is suspended, or it was switched to itself. -/
theorem Leaves.suspended (h : m.Inv) (hleaves : Leaves t c m m') :
    t ∈ m'.threads ∧ (m'.sched.currentThread = some t → m'.Resumed t c) ∧
      (m'.sched.currentThread ≠ some t → m'.Suspended t c) := by
  rcases h.current with ⟨cur, hmem, hcur⟩
  cases hleaves with
  | @calls _ next fuel q retAddr hcur' hsched hpicked _ hlow hhigh =>
    have heq : t = cur := Option.some.inj (hcur'.symm.trans hcur)
    subst heq
    have hframe : HoldsWords (m.pushed retAddr) (m.regs.rsp - 56) (m.atCall retAddr).frame :=
      holdsWords_pushed (by omega)
    have hrsp : (m.atCall retAddr).rsp = m.regs.rsp := rfl
    rw [callSwitchTo_currentThread, callSwitchTo_threads]
    refine ⟨hmem, fun hback => ?_, fun _ => ?_⟩
    · -- to itself
      have hnt : next = t := Option.some.inj (hpicked.symm.trans hback)
      subst hnt
      have hloaded : m.loadedRsp next next q = m.regs.rsp - 56 := if_pos rfl
      apply resumed_callSwitchTo
      · rw [hloaded]
        exact hframe
      · rw [hloaded, hrsp]
        omega
    · rcases callSwitchTo_kept m retAddr t next q with ⟨regs, hkept⟩
      rw [hkept]
      have hrecord : ((q.modify t fun th => { th with rsp := m.regs.rsp - 56 }).threads t).rsp =
          m.regs.rsp - 56 := by
        simp [Sched.modify]
      refine ⟨?_, ?_, ?_, ?_⟩
      · rw [hrecord]
        exact hframe
      · rw [hrecord, hrsp]
        omega
      · rw [hrecord]
        dsimp only
        omega
      · exact hhigh
  | @made _ stack cr3 proc entry hfresh hroom =>
    have haway : (m.create t stack cr3 proc entry).sched.currentThread ≠ some t := by
      intro hback
      have heq : cur = t := Option.some.inj (hcur.symm.trans hback)
      exact hfresh (heq ▸ hmem)
    have hrsp : ((m.create t stack cr3 proc entry).sched.threads t).rsp =
        stack + stackSize - 8 * 7 := by
      simp [Switching.create, threadCreate, initThread, schedulerAddThread, Sched.setNext,
        Sched.modify]
    have htop : ((m.create t stack cr3 proc entry).sched.threads t).kernelStack =
        stack + stackSize := by
      simp [Switching.create, threadCreate, initThread, schedulerAddThread, Sched.setNext,
        Sched.modify]
    have hstack : (m.create t stack cr3 proc entry).stack t = (stack, stack + stackSize) :=
      update_self ..
    refine ⟨Set.mem_insert t _, fun hback => absurd hback haway, fun _ => ⟨?_, ?_, ?_, ?_⟩⟩
    · rw [hrsp]
      exact holdsWords_storeWords m.mem _ (newFrame entry)
    · rw [htop, hrsp]
      simp only [stackSize]
      omega
    · rw [hrsp, hstack]
      simp only [stackSize]
      omega
    · rw [htop, hstack]

/-- A step after which `t` does not run. -/
def Away (t : Tid) : Action Switching := fun m m' => Next m m' ∧ m'.sched.currentThread ≠ some t

/-- A run while `t` waits. -/
theorem run_suspended (h : m.Inv) (ht : t ∈ m.threads) (hs : m.Suspended t c)
    (haway : m.sched.currentThread ≠ some t) (hrun : ReflTransGen (Away t) m m₂) :
    m₂.Inv ∧ t ∈ m₂.threads ∧ m₂.Suspended t c ∧ m₂.sched.currentThread ≠ some t := by
  induction hrun with
  | refl => exact ⟨h, ht, hs, haway⟩
  | tail _ hstep ih =>
    rcases ih with ⟨hinv, hmem, hsusp, hne⟩
    rcases step_suspended hinv hmem hsusp hne hstep.1 with ⟨hmem', -, hstill⟩
    exact ⟨step_inv hinv hstep.1, hmem', hstill hstep.2, hstep.2⟩

/-- A thread that calls `__switch_to`, or was just made, has its context again
when it is next switched to, after any run of the other threads. -/
theorem switch_transparent (h : Reachable Init Next m) (hleaves : Leaves t c m m') :
    (m'.sched.currentThread = some t → m'.Resumed t c) ∧
    ∀ m₂ m₃, m'.sched.currentThread ≠ some t → ReflTransGen (Away t) m' m₂ →
      Next m₂ m₃ → m₃.sched.currentThread = some t → m₃.Resumed t c := by
  have hinv : m.Inv :=
    h.invariant (fun _ hinit => ⟨hinit.1, hinit.2⟩) fun _ _ hnext hinv => step_inv hinv hnext
  rcases hleaves.suspended hinv with ⟨hmem, hself, hsusp⟩
  refine ⟨hself, fun m₂ m₃ haway hrun hback hcur => ?_⟩
  rcases run_suspended (step_inv hinv hleaves.next) hmem (hsusp haway) haway hrun with
    ⟨hinv₂, hmem₂, hsusp₂, hne₂⟩
  exact (step_suspended hinv₂ hmem₂ hsusp₂ hne₂ hback).2.1 hcur

/-- The idle thread 1 runs, on a stack from 0x1000 to 0x2000. -/
def onlyIdle : Switching where
  regs := ⟨fun _ => 7, 0x1800, 0, 0, 0x08, 0x10⟩
  mem := fun _ => 0
  cr3 := 0
  sched :=
    { threads := fun _ => ⟨0, 0x2000, .ready, 0, 0, none, none⟩
      currentThread := some 1
      readyQueue := none
      idleThreadPtr := some 1
      threadCount := 1
      currentProcess := none
      rsp0 := 0 }
  threads := {1}
  stack := fun _ => (0x1000, 0x2000)

theorem init_onlyIdle : Init onlyIdle := by
  refine ⟨⟨1, rfl, rfl⟩, ?_⟩
  intro t ht u hu hne
  exact absurd (ht.trans hu.symm) hne

/-- Thread 2 is made, and the idle thread's `schedule` switches to it. -/
theorem switch_transparent_onlyIdle :
    ∃ m : Switching, m.sched.currentThread = some 2 ∧
      m.Resumed 2 ⟨0x1234, 0x4000, fun _ => 0⟩ := by
  have hroom : ∀ u ∈ onlyIdle.threads,
      0x3000 + stackSize ≤ (onlyIdle.stack u).1 ∨ (onlyIdle.stack u).2 ≤ 0x3000 :=
    fun _ _ => Or.inr (Nat.le_of_ble_eq_true rfl)
  have hfresh : 2 ∉ onlyIdle.threads := by simp [onlyIdle]
  have hmade : Leaves 2 ⟨0x1234, 0x4000, fun _ => 0⟩ onlyIdle
      (onlyIdle.create 2 0x3000 0 none 0x1234) := .made hfresh hroom
  have hswitch : Next (onlyIdle.create 2 0x3000 0 none 0x1234) _ :=
    @Next.schedule _ 1 2 1 _ 0x99 rfl rfl rfl (Set.mem_insert 2 _) (by decide) (by decide)
  exact ⟨_, rfl, (switch_transparent (.init init_onlyIdle) hmade).2 _ _ (by decide) .refl hswitch rfl⟩

end Suspension

end Switching

end Orchid
