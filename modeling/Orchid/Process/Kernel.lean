import Orchid.Memory.HeapSafety
import Orchid.Scheduler.Model

/-! # The kernel's state, and the programs it loads

A model of `kernel/elf.c`, with the parts of the kernel that its functions go
through: physical memory, the kernel heap, the scheduler and the process
records of `kernel/proc.c`.

* `vmm_init` and `main` read CR3 into `pml4` and `kernel_cr3` one after the
  other, so the two are one value here.
* `thread_t` and `process_t` records are kept by their address. What `kmalloc`
  hands out still holds what was there before, so a fresh record has arbitrary
  contents until it is written.
* A function that allocates from the heap takes `fuel` for the walks in
  `kmalloc` and `kfree`; `none` means that one of them was still running.
-/

namespace Orchid

open ByteMem Function

/-- `process_t`. -/
structure Process where
  pid : Nat
  pml4Phys : Nat
  mainThread : Option Tid
  next : Option ProcPtr
  deriving DecidableEq, Repr

/-- What the modelled functions share. -/
structure Kernel where
  vm : Vm
  heap : Heap
  sched : Sched
  procs : ProcPtr → Process
  /-- `process_list`. -/
  processList : Option ProcPtr
  /-- `next_pid`. -/
  nextPid : Nat
  /-- `kernel_cr3`. -/
  kernelCr3 : Nat
  /-- `saved_user_rip`. -/
  savedUserRip : Nat
  /-- The address of `userspace_entry`. -/
  userspaceEntry : Nat

namespace Kernel

/-- `kmalloc`. -/
def kmalloc (fuel size : Nat) (k : Kernel) : Option (Nat × Kernel) :=
  (Orchid.kmalloc k.kernelCr3 fuel size k.heap k.vm).map fun (p, heap, vm) =>
    (p, { k with heap := heap, vm := vm })

/-- `kfree`. -/
def kfree (fuel ptr : Nat) (k : Kernel) : Option Kernel :=
  (Orchid.kfree fuel ptr k.heap).map fun heap => { k with heap := heap }

/-- Overwrite the record at `p`. -/
def modifyProc (k : Kernel) (p : ProcPtr) (f : Process → Process) : Kernel :=
  { k with procs := update k.procs p (f (k.procs p)) }

theorem modifyProc_self (k : Kernel) (p : ProcPtr) (f : Process → Process) :
    (k.modifyProc p f).procs p = f (k.procs p) :=
  update_self _ _ _

theorem modifyProc_of_ne {p q : ProcPtr} (k : Kernel) (f : Process → Process) (hq : q ≠ p) :
    (k.modifyProc p f).procs q = k.procs q :=
  update_of_ne hq _ _

/-- Stores to other fields leave every process its PML4. -/
theorem modifyProc_pml4Phys (k : Kernel) (p : ProcPtr) {f : Process → Process}
    (hf : ∀ r, (f r).pml4Phys = r.pml4Phys) (q : ProcPtr) :
    ((k.modifyProc p f).procs q).pml4Phys = (k.procs q).pml4Phys := by
  by_cases hq : q = p
  · rw [hq, modifyProc_self, hf]
  · rw [modifyProc_of_ne k f hq]

end Kernel

/-! ## `thread_create_user` -/

/-- `sizeof(thread_t)`. -/
def sizeofThread : Nat := 56

/-- `sizeof(process_t)`. -/
def sizeofProcess : Nat := 32

/-- The words `thread_create_user` stores below the top of the new kernel
stack, from the lowest address on: six registers, the trampoline, and five
words for `iretq`. -/
def userFrame (userspaceEntry userEntry userStack : Nat) : List Nat :=
  [0, 0, 0, 0, 0, 0, userspaceEntry, 0x23, userStack, 0x202, 0x1B, userEntry]

/-- `thread_create_user`; `some none` is its result NULL. -/
def Kernel.threadCreateUser (fuel userEntry userStack pml4Phys : Nat) (proc : Option ProcPtr)
    (k : Kernel) : Option (Option Tid × Kernel) :=
  match k.kmalloc fuel sizeofThread with
  | none => none
  | some (t, k) =>
    if t = 0 then some (none, k) else
    match k.kmalloc fuel stackSize with
    | none => none
    | some (kstack, k) =>
      if kstack = 0 then (k.kfree fuel t).map fun k => (none, k) else
      let frame := userFrame k.userspaceEntry userEntry userStack
      let mem := storeWords k.heap.mem (kstack + stackSize - 8 * frame.length) frame
      some (some t, { k with
        heap := { k.heap with mem := mem }
        sched := Orchid.threadCreateUser t kstack pml4Phys proc k.sched })

/-! ## `load_raw` -/

/-- `USER_CODE_VADDR`. -/
def userCodeVaddr : Nat := 0x400000

/-- `USER_STACK_VADDR`. -/
def userStackVaddr : Nat := 0x800000000000

/-- The flags `load_raw` maps user pages with. -/
def userPageFlags : Nat := vmmPresent ||| vmmUser ||| vmmWritable

/-- Fill a code page: `chunk` bytes of the image from `src` on, then zeros. -/
def fillCodePage (image : Nat → UInt8) (src chunk phys : Nat) (mem : ByteMem) : ByteMem :=
  let mem := store mem phys (fun i => image (src + i)) chunk
  if chunk < pageSize then fill mem (phys + chunk) 0 (pageSize - chunk) else mem

/-- The loop of `load_raw` over the image, with `left` bytes to go; the flag is
`false` if it returned NULL. -/
def loadCode (pml4Phys : Nat) (image : Nat → UInt8) (vaddr src left : Nat) (vm : Vm) : Bool × Vm :=
  if left = 0 then (true, vm) else
  let (phys, vm) := vm.allocPage
  if phys = 0 then (false, vm) else
  let vm := vmmMapUser pml4Phys vaddr phys userPageFlags true vm
  let chunk := min pageSize left
  let vm := { vm with mem := fillCodePage image src chunk phys vm.mem }
  loadCode pml4Phys image (vaddr + pageSize) (src + chunk) (left - chunk) vm
termination_by left
decreasing_by
  simp only [pageSize]
  omega

/-- The new PML4 of `load_raw`: cleared, then its upper half copied from the
kernel's. -/
def newPml4 (kernelCr3 pml4Phys : Nat) (mem : ByteMem) : ByteMem :=
  copyWords (fill mem pml4Phys 0 pageSize) pml4Phys kernelCr3 256 256

/-- `load_raw` up to the stack page: the PML4 and the page for the stack, or
`none` if it returned NULL before. -/
def loadImage (kernelCr3 : Nat) (image : Nat → UInt8) (size : Nat) (vm : Vm) :
    Option (Nat × Nat) × Vm :=
  let (pml4Phys, vm) := vm.allocPage
  if pml4Phys = 0 then (none, vm) else
  let vm := { vm with mem := newPml4 kernelCr3 pml4Phys vm.mem }
  match loadCode pml4Phys image userCodeVaddr 0 size vm with
  | (false, vm) => (none, vm)
  | (true, vm) =>
    let (stackPhys, vm) := vm.allocPage
    if stackPhys = 0 then (none, vm) else (some (pml4Phys, stackPhys), vm)

/-- `load_raw` up to `proc->pml4_phys = pml4_phys`: the new address space. -/
def loadSpace (kernelCr3 : Nat) (image : Nat → UInt8) (size : Nat) (vm : Vm) : Option Nat × Vm :=
  match loadImage kernelCr3 image size vm with
  | (none, vm) => (none, vm)
  | (some (pml4Phys, stackPhys), vm) =>
    (some pml4Phys, vmmMapUser pml4Phys userStackVaddr stackPhys userPageFlags true vm)

/-- `load_raw`; `some none` is its result NULL. -/
def loadRaw (fuel : Nat) (image : Nat → UInt8) (size : Nat) (proc : ProcPtr) (k : Kernel) :
    Option (Option Tid × Kernel) :=
  match loadSpace k.kernelCr3 image size k.vm with
  | (none, vm) => some (none, { k with vm := vm })
  | (some pml4Phys, vm) =>
    let k := { k with vm := vm }.modifyProc proc fun p => { p with pml4Phys := pml4Phys }
    k.threadCreateUser fuel userCodeVaddr (userStackVaddr + pageSize) pml4Phys (some proc)

/-! ## `elf_load` and `sys_exec` -/

/-- `proc_alloc_pid`. -/
def procAllocPid (k : Kernel) : Nat × Kernel :=
  (k.nextPid, { k with nextPid := (k.nextPid + 1) % 2 ^ 64 })

/-- What `elf_load` and `sys_exec` do with the thread `load_raw` returned. -/
def installThread (proc : ProcPtr) (t : Tid) (k : Kernel) : Kernel :=
  let k := k.modifyProc proc fun p => { p with mainThread := some t }
  { k with sched := schedulerAddThread t k.sched }

/-- `elf_load`: the process whose pid it returns, or `some none` for -1. -/
def elfLoad (fuel : Nat) (image : Nat → UInt8) (size : Nat) (k : Kernel) :
    Option (Option ProcPtr × Kernel) :=
  match k.kmalloc fuel sizeofProcess with
  | none => none
  | some (proc, k) =>
    if proc = 0 then some (none, k) else
    let (pid, k) := procAllocPid k
    let k := k.modifyProc proc fun p => { p with pid := pid, next := none }
    match loadRaw fuel image size proc k with
    | none => none
    | some (none, k) => (k.kfree fuel proc).map fun k => (none, k)
    | some (some t, k) => some (some proc, installThread proc t k)

/-- `sys_exec` up to its call of `thread_exit`; the flag says whether it gets
there. -/
def sysExec (fuel : Nat) (image : Nat → UInt8) (size : Nat) (k : Kernel) :
    Option (Bool × Kernel) :=
  match k.sched.currentProcess with
  | none => some (false, k)
  | some proc =>
    match loadRaw fuel image size proc k with
    | none => none
    | some (none, k) => some (false, k)
    | some (some t, k) => some (true, installThread proc t k)

end Orchid
