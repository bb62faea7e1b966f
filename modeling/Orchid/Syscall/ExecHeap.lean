import Orchid.Syscall.Exec

/-! # What `SYS_exec` leaves on the heap

The handler of `SYS_exec` frees its buffer behind the call of `sys_exec`. If
`sys_exec` succeeds it ends in `thread_exit`, so the handler never gets there.

* A call that returns leaves allocated what was allocated before.
* One that does not return leaves three blocks more: the record and the stack of
  the new thread, and the buffer.
* In a run of such calls nothing gives the buffer back.
-/

namespace Orchid

open ByteMem HeapState Machine

/-- The blocks of the main thread of the current process: its `thread_t` and its kernel
stack. -/
def Kernel.threadBlocks (k : Kernel) : Set Nat :=
  { p | ∃ proc t, k.sched.currentProcess = some proc ∧ (k.procs proc).mainThread = some t ∧
    (p = t ∨ p + stackSize = (k.sched.threads t).kernelStack) }

theorem Kernel.threadBlocks_eq {k : Kernel} {proc : ProcPtr} {t : Tid} {kstack : Nat}
    (hcur : k.sched.currentProcess = some proc) (hmain : (k.procs proc).mainThread = some t)
    (htop : (k.sched.threads t).kernelStack = kstack + stackSize) : k.threadBlocks = {t, kstack} := by
  ext p
  constructor
  · rintro ⟨proc', t', hcur', hmain', hp⟩
    rw [hcur, Option.some.injEq] at hcur'
    subst hcur'
    rw [hmain, Option.some.injEq] at hmain'
    subst hmain'
    rw [htop, Nat.add_right_cancel_iff] at hp
    exact hp
  · intro hp
    refine ⟨proc, t, hcur, hmain, ?_⟩
    rw [htop, Nat.add_right_cancel_iff]
    exact hp

section Blocks

variable {k k' k₁ : Kernel} {live : List (Nat × Nat)} {fuel uaddr size kbuf retval : Nat}
  {image : Nat → UInt8}

/-! ## One call -/

/-- A thread takes a block for its record and one for its stack. -/
theorem Kernel.threadCreateUser_packed {entry stack pml4Phys : Nat} {proc : Option ProcPtr} {t : Tid}
    (hs : (k.heapState live).Packed)
    (h : k.threadCreateUser fuel entry stack pml4Phys proc = some (some t, k')) :
    ∃ kstack, (k'.heapState ((kstack, stackSize) :: (t, sizeofThread) :: live)).Packed ∧
      (k'.sched.threads t).kernelStack = kstack + stackSize := by
  cases Kernel.threadCreateUser_outcome h with
  | @done _ kstack k₁ k₂ hmalloc ht hstack hkstack =>
    have hs₁ := Kernel.kmalloc_packed hs (by decide) hmalloc
    rw [if_neg ht] at hs₁
    have hs₂ := Kernel.kmalloc_packed hs₁ (by decide) hstack
    rw [if_neg hkstack] at hs₂
    refine ⟨kstack, ?_, ?_⟩
    · exact hs₂.write List.mem_cons_self
        (Kernel.frame_write hs₂.ready (Kernel.userFrame_fits _ _ _))
    · exact (threadCreateUser_self t kstack pml4Phys proc k₂.sched).2.1

/-- The new address space only takes pages. -/
theorem loadSpace_length {r : Option Nat} {vm : Vm}
    (hspace : loadSpace k.kernelCr3 image size k.vm = (r, vm)) :
    vm.free.length ≤ k.vm.free.length := by
  have hlen := (loadSpace_free k.kernelCr3 image size k.vm).length_le
  rw [hspace] at hlen
  exact hlen

/-- A `sys_exec` that returns has given back what it allocated. -/
theorem sysExec_failed (hs : (k.heapState live).Packed)
    (h : sysExec fuel image size k = some (false, k')) :
    (k'.heapState live).Packed ∧ reach k'.heap k'.vm ≤ reach k.heap k.vm := by
  cases sysExec_outcome h with
  | noProcess hcur => exact ⟨hs, Nat.le_refl _⟩
  | @notLoaded p _ hcur hload =>
    cases loadRaw_outcome hload with
    | noSpace hspace => exact ⟨hs.mono (loadSpace_length hspace), reach_mono (loadSpace_length hspace)⟩
    | @space a vm _ _ hspace hthread =>
      have hs₁ : ((loaded p a vm k).heapState live).Packed := hs.mono (loadSpace_length hspace)
      rcases Kernel.threadCreateUser_failed hs₁ hthread with ⟨hs₂, ⟨-, hreach⟩, -⟩
      exact ⟨hs₂, hreach.trans (reach_mono (loadSpace_length hspace))⟩

/-- A `sys_exec` that does not return has made a thread. -/
theorem sysExec_done (hs : (k.heapState live).Packed)
    (h : sysExec fuel image size k = some (true, k')) :
    ∃ t kstack, (k'.heapState ((kstack, stackSize) :: (t, sizeofThread) :: live)).Packed ∧
      k'.threadBlocks = {t, kstack} := by
  cases sysExec_outcome h with
  | @done p t k₁ hcur hload =>
    cases loadRaw_outcome hload with
    | @space a vm _ _ hspace hthread =>
      have hs₁ : ((loaded p a vm k).heapState live).Packed := hs.mono (loadSpace_length hspace)
      rcases Kernel.threadCreateUser_packed hs₁ hthread with ⟨kstack, hs₂, htop⟩
      rcases Kernel.threadCreateUser_spec hs₁.ready hthread with ⟨live', hcreated⟩
      have hmain : ((installThread p t k₁).procs p).mainThread = some t := by
        simp [installThread, Kernel.modifyProc]
      refine ⟨t, kstack, hs₂, Kernel.threadBlocks_eq ?_ hmain ?_⟩
      · exact hcreated.process.trans hcur
      · have hfixed := setNext_fixed k₁.sched t k₁.sched.readyQueue t
        exact (congrArg (fun fields => fields.2.1) hfixed).trans htop

/-- The copy of the image stays within the buffer. -/
theorem Kernel.copyFromUser_packed {r : Bool} (hs : (k.heapState ((kbuf, size) :: live)).Packed)
    (h : k.copyFromUser kbuf uaddr size = (r, k')) :
    (k'.heapState ((kbuf, size) :: live)).Packed := by
  rw [(Kernel.copyFromUser_writes h).1]
  exact hs.write List.mem_cons_self (Kernel.copyFromUser_inPayload hs.ready h)

/-- Where `sys_exec` is called the buffer is allocated, and if the handler gives up before,
it is not. -/
theorem execStart_packed {r : Option Nat} (hs : (k.heapState live).Packed)
    (h : execStart fuel uaddr size k = some (r, k')) :
    (k'.heapState (r.elim live fun kbuf => (kbuf, size) :: live)).Packed := by
  cases execStart_outcome h with
  | tooLarge hsize => exact hs
  | noBuffer hsize hmalloc => exact Kernel.kmalloc_packed hs hsize hmalloc
  | notCopied hsize hmalloc hkbuf hcopy hfree =>
    have hs₁ := Kernel.kmalloc_packed hs hsize hmalloc
    rw [if_neg hkbuf] at hs₁
    exact (Kernel.kfree_packed (Kernel.copyFromUser_packed hs₁ hcopy) hfree).1
  | copied hsize hmalloc hkbuf hcopy =>
    have hs₁ := Kernel.kmalloc_packed hs hsize hmalloc
    rw [if_neg hkbuf] at hs₁
    exact Kernel.copyFromUser_packed hs₁ hcopy

/-- A call that returns leaves allocated what was allocated before. -/
theorem execCall_returned (hs : (k.heapState live).Packed)
    (h : execCall fuel uaddr size k = some (some retval, k')) : (k'.heapState live).Packed := by
  cases execCall_outcome h with
  | refused hstart => exact execStart_packed hs hstart
  | failed hstart hexec hfree =>
    exact (Kernel.kfree_packed (sysExec_failed (execStart_packed hs hstart) hexec).1 hfree).1

/-- A call that does not return leaves the new thread, and its buffer. -/
theorem execCall_ended (hs : (k.heapState live).Packed)
    (h : execCall fuel uaddr size k = some (none, k')) :
    ∃ kbuf t kstack, k'.threadBlocks = {t, kstack} ∧ (k'.heapState
      ((kstack, stackSize) :: (t, sizeofThread) :: (kbuf, size) :: live)).Packed := by
  cases execCall_outcome h with
  | @done kbuf _ _ hstart hexec =>
    rcases sysExec_done (execStart_packed hs hstart) hexec with ⟨t, kstack, hpacked, hblocks⟩
    exact ⟨kbuf, t, kstack, hblocks, hpacked⟩

/-! ## Calls that come to an end -/

theorem Kernel.copyFromUser_reach {r : Bool} (h : k.copyFromUser kbuf uaddr size = (r, k')) :
    reach k'.heap k'.vm = reach k.heap k.vm := by
  rw [(Kernel.copyFromUser_writes h).1]
  rfl

theorem execStart_reach (hs : (k.heapState live).Packed)
    (h : execStart fuel uaddr size k = some (some kbuf, k')) :
    reach k'.heap k'.vm ≤ reach k.heap k.vm := by
  cases execStart_outcome h with
  | copied hsize hmalloc hkbuf hcopy =>
    rw [Kernel.copyFromUser_reach hcopy]
    exact (Kernel.kmalloc_spec hs.ready hsize hmalloc).2.1.2

theorem execStart_returns (uaddr size : Nat) (hs : (k.heapState live).Packed)
    (hfuel : walkBound k.heap k.vm < fuel) : ∃ r k', execStart fuel uaddr size k = some (r, k') := by
  unfold execStart
  by_cases hsize : execLimit < size
  · rw [if_pos hsize]
    exact ⟨none, k, rfl⟩
  rw [if_neg hsize]
  rcases Kernel.kmalloc_returns hs.ready size hfuel with ⟨kbuf, k₁, hmalloc⟩
  simp only [hmalloc]
  by_cases hkbuf : kbuf = 0
  · rw [if_pos hkbuf]
    exact ⟨none, k₁, rfl⟩
  rw [if_neg hkbuf]
  have hlimit : size ≤ 2 ^ 20 := Nat.le_of_not_lt hsize
  have hs₁ := Kernel.kmalloc_packed hs hlimit hmalloc
  rw [if_neg hkbuf] at hs₁
  rcases hcopy : k₁.copyFromUser kbuf uaddr size with ⟨done, k₂⟩
  cases done with
  | true => exact ⟨some kbuf, k₂, rfl⟩
  | false =>
    -- the buffer has to be freed
    have hgrow := (Kernel.kmalloc_spec hs.ready hlimit hmalloc).2.1
    have hfuel₂ : walkBound k₂.heap k₂.vm < fuel := by
      apply (walkBound_mono _).trans_lt hfuel
      rw [Kernel.copyFromUser_reach hcopy]
      exact hgrow.2
    rcases Kernel.kfree_returns (Kernel.copyFromUser_packed hs₁ hcopy).ready hfuel₂ with ⟨k₃, hfree⟩
    simp only [hfree]
    exact ⟨none, k₃, rfl⟩

theorem loadRaw_returns (image : Nat → UInt8) (size : Nat) (proc : ProcPtr)
    (hs : (k.heapState live).Ready) (hfuel : walkBound k.heap k.vm < fuel) :
    ∃ r k', loadRaw fuel image size proc k = some (r, k') := by
  rcases hspace : loadSpace k.kernelCr3 image size k.vm with ⟨a, vm⟩
  cases a with
  | none =>
    refine ⟨none, { k with vm := vm }, ?_⟩
    simp only [loadRaw, hspace]
  | some a =>
    have hs₁ : ((loaded proc a vm k).heapState live).Ready := hs.mono (loadSpace_length hspace)
    have hfuel₁ : walkBound k.heap vm < fuel :=
      (walkBound_mono (reach_mono (loadSpace_length hspace))).trans_lt hfuel
    simp only [loadRaw, hspace]
    exact Kernel.threadCreateUser_returns _ _ a (some proc) hs₁ hfuel₁

theorem sysExec_returns (image : Nat → UInt8) (size : Nat) (hs : (k.heapState live).Ready)
    (hfuel : walkBound k.heap k.vm < fuel) :
    ∃ r k', sysExec fuel image size k = some (r, k') := by
  unfold sysExec
  cases hcur : k.sched.currentProcess with
  | none => exact ⟨false, k, rfl⟩
  | some p =>
    rcases loadRaw_returns image size p hs hfuel with ⟨r, k₁, hload⟩
    simp only [hload]
    cases r with
    | none => exact ⟨false, k₁, rfl⟩
    | some t => exact ⟨true, installThread p t k₁, rfl⟩

/-- With enough loop tests every call has a result. -/
theorem execCall_returns (uaddr size : Nat) (hs : (k.heapState live).Packed)
    (hfuel : walkBound k.heap k.vm < fuel) : ∃ r k', execCall fuel uaddr size k = some (r, k') := by
  rcases execStart_returns uaddr size hs hfuel with ⟨r, k₁, hstart⟩
  have hs₁ := execStart_packed hs hstart
  simp only [execCall, hstart]
  cases r with
  | none => exact ⟨some minusOne, k₁, rfl⟩
  | some kbuf =>
    have hfuel₁ := (walkBound_mono (execStart_reach hs hstart)).trans_lt hfuel
    rcases sysExec_returns (imageAt kbuf k₁) size hs₁.ready hfuel₁ with ⟨done, k₂, hexec⟩
    simp only [hexec]
    cases done with
    | true => exact ⟨none, k₂, rfl⟩
    | false =>
      rcases sysExec_failed hs₁ hexec with ⟨hs₂, hreach⟩
      rcases Kernel.kfree_returns hs₂.ready ((walkBound_mono hreach).trans_lt hfuel₁) with ⟨k₃, hfree⟩
      simp only [hfree]
      exact ⟨some 0, k₃, rfl⟩

end Blocks

/-! ## Runs -/

/-- A call of `SYS_exec`, with the kernel before and after it. -/
structure ExecEntry where
  before : Kernel
  /-- `syscall_retval`, or `none` if `sys_exec` did not return. -/
  retval : Option Nat
  after : Kernel

namespace ExecEntry

/-- The call has left what was allocated before it and, if it succeeded, the new thread's
record and stack, and nothing else. -/
def Balanced (e : ExecEntry) : Prop :=
  e.after.heap.allocations =
    e.before.heap.allocations ∪ if e.retval = none then e.after.threadBlocks else ∅

/-- What a call leaves allocated. -/
structure Leaves (e : ExecEntry) : Prop where
  returned : e.retval ≠ none → e.after.heap.allocations = e.before.heap.allocations
  ended : e.retval = none → ∃ kbuf ∉ e.before.heap.allocations ∪ e.after.threadBlocks,
    e.after.heap.allocations = insert kbuf (e.before.heap.allocations ∪ e.after.threadBlocks)

variable {e : ExecEntry}

theorem Leaves.balanced_iff (h : e.Leaves) : e.Balanced ↔ e.retval ≠ none := by
  unfold Balanced
  by_cases hend : e.retval = none
  · rw [if_pos hend]
    rcases h.ended hend with ⟨kbuf, hnew, hafter⟩
    constructor
    · intro hbalanced
      rw [hafter] at hbalanced
      exact absurd (hbalanced ▸ Set.mem_insert kbuf _) hnew
    · exact fun hne => absurd hend hne
  · rw [if_neg hend, Set.union_empty]
    exact ⟨fun _ => hend, h.returned⟩

/-- No call frees what was allocated before it. -/
theorem Leaves.grows (h : e.Leaves) : e.before.heap.allocations ⊆ e.after.heap.allocations := by
  by_cases hend : e.retval = none
  · rcases h.ended hend with ⟨kbuf, -, hafter⟩
    rw [hafter]
    exact Set.subset_union_left.trans (Set.subset_insert _ _)
  · rw [h.returned hend]

/-- The step of a run: what a call leaves, and that the heap stays in order. -/
theorem of_execCall {k k' : Kernel} {live : List (Nat × Nat)} {fuel uaddr size : Nat}
    {r : Option Nat} (hs : (k.heapState live).Packed)
    (hcall : execCall fuel uaddr size k = some (r, k')) :
    Leaves ⟨k, r, k'⟩ ∧ ∃ live', (k'.heapState live').Packed := by
  have hbefore : ∀ p, p ∈ k.heap.allocations ↔ p ∈ live.map Prod.fst :=
    fun _ => hs.mem_allocations
  cases r with
  | some retval =>
    have hs' := execCall_returned hs hcall
    have hafter : ∀ p, p ∈ k'.heap.allocations ↔ p ∈ live.map Prod.fst :=
      fun _ => hs'.mem_allocations
    refine ⟨⟨fun _ => ?_, fun hend => ?_⟩, live, hs'⟩
    · ext p
      rw [hafter, hbefore]
    · cases hend
  | none =>
    rcases execCall_ended hs hcall with ⟨kbuf, t, kstack, hblocks, hs'⟩
    have hafter : ∀ p, p ∈ k'.heap.allocations ↔
        p ∈ kstack :: t :: kbuf :: live.map Prod.fst := fun _ => hs'.mem_allocations
    refine ⟨⟨fun hne => absurd rfl hne, fun _ => ⟨kbuf, ?_, ?_⟩⟩, _, hs'⟩
    · -- the three new pointers differ from each other and from the older ones
      have hnodup : (kstack :: t :: kbuf :: live.map Prod.fst).Nodup := by
        rcases hs' with ⟨-, -, bs, -, hl, -⟩
        exact hl.nodup
      rw [List.nodup_cons, List.nodup_cons, List.nodup_cons] at hnodup
      rcases hnodup with ⟨hkstack, ht, hkbuf, -⟩
      rw [hblocks, Set.mem_union, hbefore]
      rintro (hold | rfl | rfl)
      · exact hkbuf hold
      · exact ht List.mem_cons_self
      · exact hkstack (List.mem_cons_of_mem _ List.mem_cons_self)
    · ext p
      rw [hafter, hblocks, Set.mem_insert_iff, Set.mem_union, hbefore, Set.mem_insert_iff,
        Set.mem_singleton_iff, List.mem_cons, List.mem_cons, List.mem_cons]
      tauto

end ExecEntry

/-- The kernel in a run of `SYS_exec` calls, and the calls so far. -/
structure ExecLog where
  kernel : Kernel
  calls : List ExecEntry

namespace ExecLog

/-- The heap is in use, and every used block of it is a live allocation. -/
def Init (s : ExecLog) : Prop := s.calls = [] ∧ ∃ live, (s.kernel.heapState live).Packed

/-- A call; or between two calls, a store to an allocation (the threads' stacks are on the
heap), or anything that leaves the heap alone. -/
inductive Next : ExecLog → ExecLog → Prop where
  | call {s : ExecLog} {fuel uaddr size : Nat} {r : Option Nat} {k' : Kernel}
      (hcall : execCall fuel uaddr size s.kernel = some (r, k')) :
      Next s ⟨k', s.calls ++ [⟨s.kernel, r, k'⟩]⟩
  | store {s : ExecLog} {p : Nat} {mem : ByteMem} (hp : p ∈ s.kernel.heap.allocations)
      (hout : ∀ x, ¬ InPayload s.kernel.heap p x → mem x = s.kernel.heap.mem x) :
      Next s ⟨{ s.kernel with heap := { s.kernel.heap with mem := mem } }, s.calls⟩
  | other {s : ExecLog} {k' : Kernel} (hheap : k'.heap = s.kernel.heap)
      (hroom : HasRoom k'.heap k'.vm) : Next s ⟨k', s.calls⟩

/-- The heap is in order, each call has left what it leaves, and all of it is still there. -/
structure Inv (s : ExecLog) : Prop where
  heap : ∃ live, (s.kernel.heapState live).Packed
  leaves : ∀ e ∈ s.calls, e.Leaves
  kept : ∀ e ∈ s.calls, e.after.heap.allocations ⊆ s.kernel.heap.allocations

theorem Init.inv {s : ExecLog} (h : s.Init) : s.Inv := by
  rcases h with ⟨hcalls, hheap⟩
  constructor
  · exact hheap
  · rw [hcalls]
    exact fun e he => absurd he List.not_mem_nil
  · rw [hcalls]
    exact fun e he => absurd he List.not_mem_nil

theorem Inv.step {s s' : ExecLog} (h : s.Inv) (hstep : Next s s') : s'.Inv := by
  rcases h.heap with ⟨live, hs⟩
  cases hstep with
  | @call fuel uaddr size r k' hcall =>
    rcases ExecEntry.of_execCall hs hcall with ⟨hleaves, hs'⟩
    constructor
    · exact hs'
    · intro e he
      rcases List.mem_append.mp he with he | he
      · exact h.leaves e he
      · rw [List.mem_singleton.mp he]
        exact hleaves
    · intro e he
      rcases List.mem_append.mp he with he | he
      · exact (h.kept e he).trans hleaves.grows
      · rw [List.mem_singleton.mp he]
  | @store p mem hp hout =>
    rcases List.mem_map.mp (hs.mem_allocations.mp hp) with ⟨⟨q, m⟩, hmem, rfl⟩
    have hs' := hs.write hmem hout
    refine ⟨⟨live, hs'⟩, h.leaves, fun e he x hx => ?_⟩
    exact hs'.mem_allocations.mpr (hs.mem_allocations.mp (h.kept e he hx))
  | @other k' hheap hroom =>
    refine ⟨⟨live, ?_⟩, h.leaves, ?_⟩
    · show Packed ⟨k'.heap, k'.vm, live⟩
      rw [hheap] at hroom ⊢
      exact ⟨hs.1, hroom, hs.2.2⟩
    · rw [hheap]
      exact h.kept

theorem reachable_inv {s : ExecLog} (hs : Reachable Init Next s) : s.Inv :=
  hs.invariant (fun _ => Init.inv) fun _ _ hstep hinv => hinv.step hstep

end ExecLog

/-- At any point of a run a call of `SYS_exec` comes to an end, and it leaves allocated what
was allocated before it and the thread it has made, and nothing else, if and only if it
returns. -/
theorem exec_balanced_iff {s : ExecLog} (hs : Reachable ExecLog.Init ExecLog.Next s) :
    (∀ uaddr size fuel : Nat, walkBound s.kernel.heap s.kernel.vm < fuel →
      ∃ r k', execCall fuel uaddr size s.kernel = some (r, k')) ∧
    ∀ e ∈ s.calls, (e.Balanced ↔ e.retval ≠ none) := by
  have hinv := ExecLog.reachable_inv hs
  constructor
  · intro uaddr size fuel hfuel
    rcases hinv.heap with ⟨live, hheap⟩
    exact execCall_returns uaddr size hheap hfuel
  · exact fun e he => (hinv.leaves e he).balanced_iff

/-- A run of one call. -/
theorem ExecLog.reachable_call {fuel uaddr size n : Nat} {r : Option Nat} {k' : Kernel}
    (hcall : execCall fuel uaddr size (forkKernel (fun _ => 0) n) = some (r, k')) :
    Reachable Init Next ⟨k', [⟨forkKernel (fun _ => 0) n, r, k'⟩]⟩ := by
  have hinit : Init ⟨forkKernel (fun _ => 0) n, []⟩ := ⟨rfl, [], freshHeap_packed (length_take_le n)⟩
  exact .step (.init hinit) (.call hcall)

/-- An image that cannot be copied: the buffer is freed. -/
theorem exec_balanced_unmapped : ∃ k',
    execCall 8 0 1 (forkKernel (fun _ => 0) 1) = some (some minusOne, k') ∧
    ExecEntry.Balanced ⟨forkKernel (fun _ => 0) 1, some minusOne, k'⟩ := by
  rcases execStart_unmapped with ⟨k', hstart⟩
  have hcall : execCall 8 0 1 (forkKernel (fun _ => 0) 1) = some (some minusOne, k') := by
    simp only [execCall, hstart]
  refine ⟨k', hcall, ?_⟩
  rw [(exec_balanced_iff (ExecLog.reachable_call hcall)).2 _ List.mem_cons_self]
  exact Option.some_ne_none minusOne

/-- With frames for a PML4 and a stack an empty image is loaded. -/
theorem execCall_empty : ∃ k', execCall 8 0 0 (forkKernel (fun _ => 0) 2) = some (none, k') := by
  rcases execStart_empty 2 with ⟨kbuf, k₁, hstart, hk₁, hspare⟩
  have hspace : ∃ a vm, loadSpace k₁.kernelCr3 (imageAt kbuf k₁) 0 k₁.vm = (some a, vm) := by
    rw [hk₁]
    exact ⟨_, _, loadSpace_empty _ _ (by rfl) (by decide) (by decide)⟩
  rcases hspace with ⟨a, vm, hspace⟩
  rcases loadRaw_of_spare 7 hspace hspare (by decide) (by decide : 2 + 1 < 8)
    with ⟨t, k₂, kstack, hload, -⟩
  have hcur : k₁.sched.currentProcess = some 7 := by
    rw [hk₁]
    rfl
  refine ⟨installThread 7 t k₂, ?_⟩
  simp only [execCall, hstart, sysExec, hcur, hload]

/-- Before that call nothing is allocated. Afterwards there is a block that is not the new
thread's. -/
theorem exec_leaks_buffer : ∃ k' kbuf,
    execCall 8 0 0 (forkKernel (fun _ => 0) 2) = some (none, k') ∧
    Reachable ExecLog.Init ExecLog.Next ⟨k', [⟨forkKernel (fun _ => 0) 2, none, k'⟩]⟩ ∧
    (forkKernel (fun _ => 0) 2).heap.allocations = ∅ ∧
    kbuf ∈ k'.heap.allocations ∧ kbuf ∉ k'.threadBlocks ∧
    ¬ ExecEntry.Balanced ⟨forkKernel (fun _ => 0) 2, none, k'⟩ := by
  rcases execCall_empty with ⟨k', hcall⟩
  have hpacked : ((forkKernel (fun _ => 0) 2).heapState []).Packed :=
    freshHeap_packed (length_take_le 2)
  have hleaves := (ExecEntry.of_execCall hpacked hcall).1
  rcases hleaves.ended rfl with ⟨kbuf, hnew, hafter⟩
  refine ⟨k', kbuf, hcall, ExecLog.reachable_call hcall, ?_, ?_, ?_, ?_⟩
  · ext p
    exact hpacked.mem_allocations.trans (by simp [Kernel.heapState])
  · rw [hafter]
    exact Set.mem_insert kbuf _
  · exact fun hmem => hnew (Or.inr hmem)
  · rw [hleaves.balanced_iff]
    exact fun hne => hne rfl

end Orchid
