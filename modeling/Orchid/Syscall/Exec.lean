import Orchid.Process.ForkFailed
import Orchid.Process.KernelHalf
import Orchid.Syscall.UserCopy

/-! # The system call `SYS_exec`

A model of the `SYS_exec` case of `syscall_handler`: the image is copied into a
buffer of the kernel heap, and `sys_exec` loads it.

* `sys_exec` has no result. Whatever made it return, the handler goes on with
  `syscall_retval = 0`.
* Until `sys_exec` is called, a failure changes nothing and is reported.
* What `load_raw` took by the time it fails is not given back.
-/

namespace Orchid

open ByteMem Radix HeapState

/-! ## The handler -/

/-- The limit on the size of an image. -/
def execLimit : Nat := 1024 * 1024

/-- The buffer at `kbuf` as the image that `sys_exec` is given. -/
def imageAt (kbuf : Nat) (k : Kernel) : Nat → UInt8 := fun i => k.heap.mem (kbuf + i)

/-- `copy_from_user` into the buffer at `kbuf`. -/
def Kernel.copyFromUser (kbuf uaddr size : Nat) (k : Kernel) : Bool × Kernel :=
  let pml4Phys := k.sched.currentProcess.map fun p => (k.procs p).pml4Phys
  let (done, s) := Orchid.copyFromUser pml4Phys kbuf uaddr size ⟨k.vm.mem, k.heap.mem, []⟩
  (done, { k with vm := { k.vm with mem := s.mem }, heap := { k.heap with mem := s.kernel } })

/-- `SYS_exec` up to its call of `sys_exec`: the buffer with the image, or `some none` if
the handler sets `syscall_retval` to -1 and returns before. -/
def execStart (fuel uaddr size : Nat) (k : Kernel) : Option (Option Nat × Kernel) :=
  if execLimit < size then some (none, k) else
  match k.kmalloc fuel size with
  | none => none
  | some (kbuf, k) =>
    if kbuf = 0 then some (none, k) else
    match k.copyFromUser kbuf uaddr size with
    | (true, k) => some (some kbuf, k)
    | (false, k) => (k.kfree fuel kbuf).map fun k => (none, k)

/-- `SYS_exec`: `syscall_retval` as the handler leaves it, or `some none` if `sys_exec` does
not return. -/
def execCall (fuel uaddr size : Nat) (k : Kernel) : Option (Option Nat × Kernel) :=
  match execStart fuel uaddr size k with
  | none => none
  | some (none, k) => some (some minusOne, k)
  | some (some kbuf, k) =>
    match sysExec fuel (imageAt kbuf k) size k with
    | none => none
    | some (true, k) => some (none, k)
    | some (false, k) => (k.kfree fuel kbuf).map fun k => (some 0, k)

/-- The frames that `load_raw` itself takes in the call. -/
def execPages (fuel uaddr size : Nat) (k : Kernel) : List Nat :=
  match execStart fuel uaddr size k with
  | some (some kbuf, k) => popped k.vm (loadSpace k.kernelCr3 (imageAt kbuf k) size k.vm).2
  | _ => []

/-! ## A call that returns -/

/-- The call that went from `k` to `k'` has changed nothing, and has said so. -/
structure ExecUndone (fuel uaddr size : Nat) (k k' : Kernel) (retval : Nat) : Prop where
  reported : retval = minusOne
  process : ∀ p, k.sched.currentProcess = some p →
    (k'.procs p).pml4Phys = (k.procs p).pml4Phys ∧
    (k'.procs p).mainThread = (k.procs p).mainThread
  queue : k'.sched = k.sched
  pages : ∀ c ∈ execPages fuel uaddr size k, c ∈ k'.vm.free

section ExecCall

variable {k k' k₁ : Kernel} {live : List (Nat × Nat)} {fuel uaddr size kbuf retval : Nat}

theorem Kernel.copyFromUser_rest {r : Bool} (h : k.copyFromUser kbuf uaddr size = (r, k₁)) :
    k₁.sched = k.sched ∧ k₁.procs = k.procs ∧ k₁.kernelCr3 = k.kernelCr3 := by
  rw [← show (k.copyFromUser kbuf uaddr size).2 = k₁ from congrArg Prod.snd h]
  exact ⟨rfl, rfl, rfl⟩

/-- The results of `SYS_exec` up to its call of `sys_exec`, by the point at which it gives
up. -/
inductive StartOutcome (fuel uaddr size : Nat) (k : Kernel) : Option Nat → Kernel → Prop where
  | tooLarge (hsize : execLimit < size) : StartOutcome fuel uaddr size k none k
  | noBuffer {k₁ : Kernel} (hsize : size ≤ execLimit) (hmalloc : k.kmalloc fuel size = some (0, k₁)) :
      StartOutcome fuel uaddr size k none k₁
  | notCopied {kbuf : Nat} {k₁ k₂ k' : Kernel} (hsize : size ≤ execLimit)
      (hmalloc : k.kmalloc fuel size = some (kbuf, k₁)) (hkbuf : kbuf ≠ 0)
      (hcopy : k₁.copyFromUser kbuf uaddr size = (false, k₂)) (hfree : k₂.kfree fuel kbuf = some k') :
      StartOutcome fuel uaddr size k none k'
  | copied {kbuf : Nat} {k₁ k₂ : Kernel} (hsize : size ≤ execLimit)
      (hmalloc : k.kmalloc fuel size = some (kbuf, k₁)) (hkbuf : kbuf ≠ 0)
      (hcopy : k₁.copyFromUser kbuf uaddr size = (true, k₂)) :
      StartOutcome fuel uaddr size k (some kbuf) k₂

theorem execStart_outcome {r : Option Nat} (h : execStart fuel uaddr size k = some (r, k₁)) :
    StartOutcome fuel uaddr size k r k₁ := by
  unfold execStart at h
  split at h
  · next hsize =>
    cases h
    exact .tooLarge hsize
  next hsize =>
  have hsize := Nat.le_of_not_lt hsize
  split at h
  · cases h
  next kbuf k₂ hmalloc =>
  split at h
  · next hkbuf =>
    subst hkbuf
    cases h
    exact .noBuffer hsize hmalloc
  next hkbuf =>
  split at h
  · next k₃ hcopy =>
    cases h
    exact .copied hsize hmalloc hkbuf hcopy
  · next k₃ hcopy =>
    rcases Option.map_eq_some_iff.mp h with ⟨k₄, hfree, heq⟩
    cases heq
    exact .notCopied hsize hmalloc hkbuf hcopy hfree

/-- Up to the call of `sys_exec` only the heap is used. -/
theorem execStart_rest {r : Option Nat} (h : execStart fuel uaddr size k = some (r, k₁)) :
    k₁.sched = k.sched ∧ k₁.procs = k.procs ∧ k₁.kernelCr3 = k.kernelCr3 := by
  cases execStart_outcome h with
  | tooLarge hsize => exact ⟨rfl, rfl, rfl⟩
  | noBuffer hsize hmalloc =>
    rw [(Kernel.kmalloc_eq_some hmalloc).2]
    exact ⟨rfl, rfl, rfl⟩
  | notCopied hsize hmalloc hkbuf hcopy hfree =>
    rcases Kernel.copyFromUser_rest hcopy with ⟨hsched, hprocs, hcr3⟩
    rw [Kernel.kfree_rest hfree]
    rw [(Kernel.kmalloc_eq_some hmalloc).2] at hsched hprocs hcr3
    exact ⟨hsched, hprocs, hcr3⟩
  | copied hsize hmalloc hkbuf hcopy =>
    rcases Kernel.copyFromUser_rest hcopy with ⟨hsched, hprocs, hcr3⟩
    rw [(Kernel.kmalloc_eq_some hmalloc).2] at hsched hprocs hcr3
    exact ⟨hsched, hprocs, hcr3⟩

/-- The results of `SYS_exec`: it gives up before it calls `sys_exec`, or `sys_exec` returns
and the buffer is freed, or `sys_exec` does not return. -/
inductive CallOutcome (fuel uaddr size : Nat) (k : Kernel) : Option Nat → Kernel → Prop where
  | refused {k' : Kernel} (hstart : execStart fuel uaddr size k = some (none, k')) :
      CallOutcome fuel uaddr size k (some minusOne) k'
  | failed {kbuf : Nat} {k₁ k₂ k' : Kernel} (hstart : execStart fuel uaddr size k = some (some kbuf, k₁))
      (hexec : sysExec fuel (imageAt kbuf k₁) size k₁ = some (false, k₂))
      (hfree : k₂.kfree fuel kbuf = some k') : CallOutcome fuel uaddr size k (some 0) k'
  | done {kbuf : Nat} {k₁ k' : Kernel} (hstart : execStart fuel uaddr size k = some (some kbuf, k₁))
      (hexec : sysExec fuel (imageAt kbuf k₁) size k₁ = some (true, k')) :
      CallOutcome fuel uaddr size k none k'

theorem execCall_outcome {r : Option Nat} (h : execCall fuel uaddr size k = some (r, k')) :
    CallOutcome fuel uaddr size k r k' := by
  unfold execCall at h
  split at h
  · cases h
  · next k₁ hstart =>
    cases h
    exact .refused hstart
  next kbuf k₁ hstart =>
  split at h
  · cases h
  · next k₂ hexec =>
    cases h
    exact .done hstart hexec
  · next k₂ hexec =>
    rcases Option.map_eq_some_iff.mp h with ⟨k₃, hfree, heq⟩
    cases heq
    exact .failed hstart hexec hfree

/-- A `SYS_exec` that returns has changed nothing and is reported exactly if it failed
before it called `sys_exec`: the image was too large, there was no buffer for it, or
it could not be copied from the caller. -/
theorem execCall_undone_iff (hcall : execCall fuel uaddr size k = some (some retval, k')) :
    ExecUndone fuel uaddr size k k' retval ↔ ∃ k₁, execStart fuel uaddr size k = some (none, k₁) := by
  cases execCall_outcome hcall with
  | refused hstart =>
    rcases execStart_rest hstart with ⟨hsched, hprocs, -⟩
    have hpages : execPages fuel uaddr size k = [] := by simp only [execPages, hstart]
    constructor
    · exact fun _ => ⟨k', hstart⟩
    · intro _
      constructor
      · rfl
      · intro p _
        rw [hprocs]
        exact ⟨rfl, rfl⟩
      · exact hsched
      · intro c hc
        rw [hpages] at hc
        cases hc
  | failed hstart hexec hfree =>
    constructor
    · intro hundone
      have hone := hundone.reported
      cases hone
    · rintro ⟨k₂, hnone⟩
      rw [hstart] at hnone
      cases hnone

/-! ## The copy of the image -/

theorem Kernel.copyFromUser_writes {r : Bool} (h : k.copyFromUser kbuf uaddr size = (r, k₁)) :
    k₁ = { k with heap := { k.heap with mem := k₁.heap.mem } } ∧
      ∀ x, x < kbuf ∨ kbuf + size ≤ x → k₁.heap.mem x = k.heap.mem x := by
  have hk₁ : (k.copyFromUser kbuf uaddr size).2 = k₁ := congrArg Prod.snd h
  rw [← hk₁]
  unfold Kernel.copyFromUser Orchid.copyFromUser
  cases k.sched.currentProcess with
  | none => exact ⟨rfl, fun _ _ => rfl⟩
  | some p =>
    rcases copyUser_moveIn (k.procs p).pml4Phys uaddr kbuf size ⟨k.vm.mem, k.heap.mem, []⟩ with
      ⟨hmem, hkernel⟩
    refine ⟨?_, hkernel⟩
    simp only [Option.map_some, hmem]

/-- The image is copied into the block of its buffer. -/
theorem Kernel.copyFromUser_inPayload {r : Bool} (hs : (k.heapState ((kbuf, size) :: live)).Ready)
    (h : k.copyFromUser kbuf uaddr size = (r, k₁)) :
    ∀ x, ¬ InPayload k.heap kbuf x → k₁.heap.mem x = k.heap.mem x := by
  have hlarge : size ≤ payloadSize k.heap kbuf := by
    rcases hs with ⟨-, -, bs, ht, hl⟩
    exact (Holds.liveOk ht hl List.mem_cons_self).large
  intro x hx
  apply (Kernel.copyFromUser_writes h).2 x
  unfold InPayload at hx
  omega

/-! ## An exec without memory -/

/-- A copy that moves nothing. -/
theorem Kernel.copyFromUser_of_same {p : ProcPtr} {r : Bool}
    (hcur : k.sched.currentProcess = some p)
    (h : copyUser moveIn (k.procs p).pml4Phys uaddr kbuf size ⟨k.vm.mem, k.heap.mem, []⟩ =
      (r, ⟨k.vm.mem, k.heap.mem, []⟩)) : k.copyFromUser kbuf uaddr size = (r, k) := by
  simp only [Kernel.copyFromUser, Orchid.copyFromUser, hcur, Option.map_some, h]

/-- No page of the caller is mapped: the copy fails, and the buffer is freed. -/
theorem execStart_unmapped : ∃ k', execStart 8 0 1 (forkKernel (fun _ => 0) 1) = some (none, k') := by
  rcases kmalloc_forkKernel (fun _ => 0) 1 (by decide : 1 ≤ 2 ^ 20) (by decide) with
    ⟨kbuf, k₁, hmalloc, hkbuf, hk₁, m, hspare⟩
  have hcopy : k₁.copyFromUser kbuf 0 1 = (false, k₁) := by
    have hphys : userVirtToPhys (fun _ => 0) 0x2000 (pageFloor 0) = 0 := by decide
    rw [hk₁]
    apply Kernel.copyFromUser_of_same rfl
    rw [copyUser, if_neg (by decide)]
    exact if_pos hphys
  rcases hspare.free_returns List.mem_cons_self (by decide : 2 ≤ 8) with ⟨heap, hkfree⟩
  have hfree : k₁.kfree 8 kbuf = some { k₁ with heap := heap } := by
    rw [Kernel.kfree, show Orchid.kfree 8 kbuf k₁.heap = some heap from hkfree]
    rfl
  refine ⟨{ k₁ with heap := heap }, ?_⟩
  have hsize : ¬ execLimit < 1 := by decide
  simp only [execStart, if_neg hsize, hmalloc, if_neg hkbuf, hcopy, hfree, Option.map_some]

/-- An empty image needs no page of the caller. -/
theorem execStart_empty (n : Nat) : ∃ kbuf k₁,
    execStart 8 0 0 (forkKernel (fun _ => 0) n) = some (some kbuf, k₁) ∧
    k₁ = { forkKernel (fun _ => 0) n with heap := k₁.heap } ∧
    (k₁.heapState [(kbuf, 0)]).Spare
      (heapInitialPages * pageSize - headerSize - roundUp 0 - headerSize) 2 := by
  have hspare : ((forkKernel (fun _ => 0) n).heapState []).Spare _ 1 := spare_forkKernel
  rcases Kernel.kmalloc_of_spare hspare 0 (by decide) (by decide) (by decide : 1 < 8)
    with ⟨kbuf, k₁, hmalloc, hkbuf, hk₁, hspare₁⟩
  have hcopy : k₁.copyFromUser kbuf 0 0 = (true, k₁) := by
    rw [hk₁]
    apply Kernel.copyFromUser_of_same rfl
    rw [copyUser, if_pos rfl]
  refine ⟨kbuf, k₁, ?_, hk₁, hspare₁⟩
  have hsize : ¬ execLimit < 0 := by decide
  simp only [execStart, if_neg hsize, hmalloc, if_neg hkbuf, hcopy]

/-- The copy fails, and the call says so. -/
theorem execCall_undone_iff_unmapped : ∃ k',
    execCall 8 0 1 (forkKernel (fun _ => 0) 1) = some (some minusOne, k') ∧
      ExecUndone 8 0 1 (forkKernel (fun _ => 0) 1) k' minusOne := by
  rcases execStart_unmapped with ⟨k', hstart⟩
  have hcall : execCall 8 0 1 (forkKernel (fun _ => 0) 1) = some (some minusOne, k') := by
    simp only [execCall, hstart]
  exact ⟨k', hcall, (execCall_undone_iff hcall).mpr ⟨k', hstart⟩⟩

/-- With one free frame there is a PML4 but no stack: the frame is lost, and the call
says that it succeeded. -/
theorem execCall_unreported : ∃ k', execCall 8 0 0 (forkKernel (fun _ => 0) 1) = some (some 0, k') ∧
    0x10000 ∈ execPages 8 0 0 (forkKernel (fun _ => 0) 1) ∧ k'.vm.free = [] ∧
    ¬ ExecUndone 8 0 0 (forkKernel (fun _ => 0) 1) k' 0 := by
  rcases execStart_empty 1 with ⟨kbuf, k₁, hstart, hk₁, hspare⟩
  -- the PML4 is made, and then there is no frame for the stack
  have hspace : ∃ vm, loadSpace k₁.kernelCr3 (imageAt kbuf k₁) 0 k₁.vm = (none, vm) ∧
      vm.free = [] := by
    rw [hk₁]
    refine ⟨⟨newPml4 0x1000 0x10000 (fun _ => 0), []⟩, ?_, rfl⟩
    show loadSpace 0x1000 _ 0 ⟨fun _ => 0, [0x10000]⟩ = _
    rw [loadSpace, loadImage, Vm.allocPage_of_cons rfl]
    simp only [if_neg (by decide : ¬ 0x10000 = 0)]
    rw [loadCode, if_pos rfl]
    rfl
  rcases hspace with ⟨vm, hspace, hempty⟩
  rcases hspare.free_returns List.mem_cons_self (by decide : 2 ≤ 8) with ⟨heap, hkfree⟩
  have hexec : sysExec 8 (imageAt kbuf k₁) 0 k₁ = some (false, { k₁ with vm := vm }) := by
    have hcur : k₁.sched.currentProcess = some 7 := by
      rw [hk₁]
      rfl
    simp only [sysExec, hcur, loadRaw, hspace]
  have hcall : execCall 8 0 0 (forkKernel (fun _ => 0) 1) =
      some (some 0, { k₁ with vm := vm, heap := heap }) := by
    simp only [execCall, hstart, hexec, Kernel.kfree]
    rw [show Orchid.kfree 8 kbuf k₁.heap = some heap from hkfree]
    rfl
  refine ⟨_, hcall, ?_, hempty, fun hundone => ?_⟩
  · have hfree : k₁.vm.free = [0x10000] ++ vm.free := by
      rw [hk₁, hempty]
      rfl
    simp only [execPages, hstart, hspace]
    rw [popped_eq hfree]
    exact List.mem_singleton_self _
  · have hreported := hundone.reported
    cases hreported

end ExecCall

end Orchid
