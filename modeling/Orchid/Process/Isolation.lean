import Orchid.Core.Rules
import Orchid.Process.Boot
import Orchid.Process.Owned

/-! # Process isolation

Runs of `elf_load`, `sys_fork` and `sys_exec`, with the scheduler switching
between the processes they make.

* `Tracks` is the invariant: the page tables of the whole system are a forest,
  and every process owns the user memory of a PML4 of its own.
* `Call.Apart` is what a call needs to keep it. A load needs the slot of the
  user stack, which lies in the half shared with the kernel, to be empty in the
  kernel's PML4. A fork needs it to be empty in the parent's, and it needs the
  frame it takes for the child's PML4, which it does not clear, to be empty
  where the parent is.
* A fork of a process whose stack is mapped shares the stack's page with its
  child, so isolation fails in the first such run.
-/

namespace Orchid

open ByteMem Radix Machine

/-! ## The runs -/

/-- The kernel, with the processes made so far. -/
structure World where
  kernel : Kernel
  procs : List ProcPtr

/-- What happens in a run. -/
inductive Call where
  | load (fuel : Nat) (image : Nat → UInt8) (size : Nat)
  | exec (fuel : Nat) (image : Nat → UInt8) (size : Nat)
  | fork (fuel : Nat)
  /-- Whatever the scheduler does; `current_process` is one of the processes. -/
  | switch (sched : Sched)

/-- The world after a call; `none` if the call does not return. -/
def World.step (w : World) : Call → Option World
  | .load fuel image size =>
    (elfLoad fuel image size w.kernel).map fun (r, k) => ⟨k, r.toList ++ w.procs⟩
  | .exec fuel image size => (sysExec fuel image size w.kernel).map fun (_, k) => ⟨k, w.procs⟩
  | .fork fuel => (sysFork fuel w.kernel).map fun (r, k) => ⟨k, r.toList ++ w.procs⟩
  | .switch sched =>
    if ∀ p ∈ sched.currentProcess, p ∈ w.procs then
      some { w with kernel := { w.kernel with sched := sched } }
    else none

/-- The kernel before the first process. The heap is in use, the tables of its
window are distinct, and they are not on the free stack. -/
structure World.Boot (w : World) : Prop where
  procs : w.procs = []
  current : w.kernel.sched.currentProcess = none
  aligned : Aligned w.kernel.kernelCr3
  freeOk : FreeOk w.kernel.vm.free
  few : w.kernel.vm.free.length ≤ maxFreeList
  tables : ∀ q f, SlotPath HeapSlot 3 q →
    walk (child w.kernel.vm.mem) w.kernel.kernelCr3 q = some f → f ∉ w.kernel.vm.free
  distinct : ∀ q q' f, SlotPath HeapSlot 3 q → SlotPath HeapSlot 3 q' →
    walk (child w.kernel.vm.mem) w.kernel.kernelCr3 q = some f →
    walk (child w.kernel.vm.mem) w.kernel.kernelCr3 q' = some f → q = q'
  heap : ∃ live, (w.kernel.heapState live).Ready

/-- User addresses: the lower half, and the page of the stack. -/
def UserPage (v : Nat) : Prop := pml4Index v < 256 ∨ pageOf v = pageOf userStackVaddr

/-- The frame that process `p` reaches at `v`. -/
def World.frameOf (w : World) (p : ProcPtr) (v : Nat) : Option Nat :=
  walk (child w.kernel.vm.mem) (w.kernel.procs p).pml4Phys (path v)

/-- No frame is mapped for user space in two processes. -/
def World.Isolated (w : World) : Prop :=
  ∀ p ∈ w.procs, ∀ p' ∈ w.procs, p ≠ p' → ∀ v v' f, UserPage v → UserPage v' →
    w.frameOf p v = some f → w.frameOf p' v' ≠ some f

/-- What a call needs to leave the processes apart. -/
def Call.Apart (w : World) : Call → Prop
  | .load _ _ _ => child w.kernel.vm.mem w.kernel.kernelCr3 stackSlot = none
  | .exec _ _ _ => child w.kernel.vm.mem w.kernel.kernelCr3 stackSlot = none
  | .fork fuel => ∀ cur p k c rest, w.kernel.sched.currentProcess = some cur →
    w.kernel.kmalloc fuel sizeofProcess = some (p, k) → k.vm.free = c :: rest →
    ForkApart k.vm.mem (w.kernel.procs cur).pml4Phys c
  | .switch _ => True

/-- Any call. -/
def World.Next (w w' : World) : Prop := ∃ c, w.step c = some w'

/-- A call that leaves the processes apart. -/
def World.NextApart (w w' : World) : Prop := ∃ c : Call, c.Apart w ∧ w.step c = some w'

/-! ## The invariant -/

/-- The processes `ps` own PML4s of their own, and their records are live. -/
structure Tracks (D E : Nat → List (Fin 512) → Prop) (live : List (Nat × Nat)) (k : Kernel)
    (ps : List ProcPtr) : Prop where
  spaces : SpacesOk D E k.kernelCr3 k.vm
  heap : (k.heapState live).Ready
  owned : ∀ p ∈ ps, Owns D E (k.procs p).pml4Phys
  live : ∀ p ∈ ps, p ∈ live.map Prod.fst
  apart : ∀ p ∈ ps, ∀ p' ∈ ps, p ≠ p' → (k.procs p).pml4Phys ≠ (k.procs p').pml4Phys

section Tracks

variable {D E : Nat → List (Fin 512) → Prop} {live live' : List (Nat × Nat)} {k k' : Kernel}
  {ps : List ProcPtr} {p : ProcPtr} {fuel size n : Nat} {image : Nat → UInt8}

/-- The invariant depends on a few fields only. -/
theorem Tracks.congr (h : Tracks D E live k ps) (hcr3 : k'.kernelCr3 = k.kernelCr3)
    (hvm : k'.vm = k.vm) (hheap : k'.heap = k.heap)
    (hprocs : ∀ p ∈ ps, (k'.procs p).pml4Phys = (k.procs p).pml4Phys) :
    Tracks D E live k' ps where
  spaces := by
    rw [hcr3, hvm]
    exact h.spaces
  heap := by
    have hready := h.heap
    unfold Kernel.heapState at hready ⊢
    rw [hheap, hvm]
    exact hready
  owned := by
    intro p hp
    rw [hprocs p hp]
    exact h.owned p hp
  live := h.live
  apart := by
    intro p hp p' hp' hne
    rw [hprocs p hp, hprocs p' hp']
    exact h.apart p hp p' hp' hne

theorem Tracks.subset {ps' : List ProcPtr} (h : Tracks D E live k ps) (hsub : ∀ p ∈ ps', p ∈ ps) :
    Tracks D E live k ps' where
  spaces := h.spaces
  heap := h.heap
  owned := fun p hp => h.owned p (hsub p hp)
  live := fun p hp => h.live p (hsub p hp)
  apart := fun p hp p' hp' => h.apart p (hsub p hp) p' (hsub p' hp')

/-- The heap grew, and more is live. -/
theorem Tracks.grows (h : Tracks D E live k ps) (hgrow : HeapGrowth k.kernelCr3 k.vm k'.vm)
    (hready : (k'.heapState live').Ready) (hmore : live <:+ live')
    (hcr3 : k'.kernelCr3 = k.kernelCr3) (hprocs : k'.procs = k.procs) :
    Tracks D E live' k' ps where
  spaces := by
    rw [hcr3]
    exact (h.spaces.growth hgrow).1
  heap := hready
  owned := by
    rw [hprocs]
    exact h.owned
  live := fun p hp => (hmore.map Prod.fst).subset (h.live p hp)
  apart := by
    rw [hprocs]
    exact h.apart

/-- A record that belongs to no process is given back. -/
theorem Tracks.kfree (h : Tracks D E ((p, n) :: live) k ps) (hp : p ∉ ps)
    (hcall : k.kfree fuel p = some k') : Tracks D E live k' ps := by
  obtain ⟨hready, hk'⟩ := Kernel.kfree_spec h.heap hcall
  have hlive : ∀ q ∈ ps, q ∈ live.map Prod.fst := by
    intro q hq
    rcases List.mem_cons.mp (h.live q hq) with rfl | hmem
    · exact absurd hq hp
    · exact hmem
  have hprocs : k'.procs = k.procs := by rw [hk']
  refine ⟨?_, hready, ?_, hlive, ?_⟩
  · rw [hk']
    exact h.spaces
  · rw [hprocs]
    exact h.owned
  · rw [hprocs]
    exact h.apart

/-- A new record, which belongs to no process yet. -/
theorem Tracks.kmalloc (h : Tracks D E live k ps) (hn : n ≤ 2 ^ 20)
    (hcall : k.kmalloc fuel n = some (p, k')) :
    Tracks D E (if p = 0 then live else (p, n) :: live) k' ps ∧
      k' = { k with heap := k'.heap, vm := k'.vm } ∧ (p ≠ 0 → p ∉ ps) ∧
      child k'.vm.mem k.kernelCr3 stackSlot = child k.vm.mem k.kernelCr3 stackSlot := by
  obtain ⟨hready, hgrow, hk'⟩ := Kernel.kmalloc_spec h.heap hn hcall
  refine ⟨?_, hk', ?_, h.spaces.growth_stack hgrow.1⟩
  · refine h.grows hgrow.1 hready ?_ (by rw [hk']) (by rw [hk'])
    split
    · exact List.suffix_refl _
    · exact List.suffix_cons _ _
  · intro hp0 hp
    rw [if_neg hp0] at hready
    obtain ⟨-, -, bs, -, hl⟩ := hready
    exact (List.nodup_cons.mp hl.nodup).1 (h.live p hp)

/-- A process gets the address space at `a`. -/
theorem Tracks.assign {a : Nat} (h : Tracks D E live k ps) (ha : Owns D E a)
    (hother : ∀ q ∈ ps, (k.procs q).pml4Phys ≠ a) (hp : p ∈ live.map Prod.fst) :
    Tracks D E live (k.modifyProc p fun r => { r with pml4Phys := a }) (p :: ps) := by
  have hself : ((k.modifyProc p fun r => { r with pml4Phys := a }).procs p).pml4Phys = a := by
    simp [Kernel.modifyProc]
  have hrest : ∀ q, q ≠ p →
      ((k.modifyProc p fun r => { r with pml4Phys := a }).procs q).pml4Phys =
        (k.procs q).pml4Phys := by
    intro q hq
    simp [Kernel.modifyProc, hq]
  have hmem : ∀ q ∈ p :: ps, q ≠ p → q ∈ ps := fun q hq hne =>
    (List.mem_cons.mp hq).resolve_left hne
  refine ⟨h.spaces, h.heap, ?_, ?_, ?_⟩
  · intro q hq
    by_cases hqp : q = p
    · rw [hqp, hself]
      exact ha
    · rw [hrest q hqp]
      exact h.owned q (hmem q hq hqp)
  · intro q hq
    by_cases hqp : q = p
    · rw [hqp]
      exact hp
    · exact h.live q (hmem q hq hqp)
  · intro q hq q' hq' hne
    by_cases hqp : q = p
    · have hqp' : q' ≠ p := fun heq => hne (hqp.trans heq.symm)
      rw [hqp, hself, hrest q' hqp']
      exact (hother q' (hmem q' hq' hqp')).symm
    · by_cases hqp' : q' = p
      · rw [hqp', hself, hrest q hqp]
        exact hother q (hmem q hq hqp)
      · rw [hrest q hqp, hrest q' hqp']
        exact h.apart q (hmem q hq hqp) q' (hmem q' hq' hqp') hne

/-- The page tables changed to those of a wider forest. -/
theorem Tracks.widen {D' E' : Nat → List (Fin 512) → Prop} {vm : Vm} (h : Tracks D E live k ps)
    (hwide : Wider D E D' E') (hspaces : SpacesOk D' E' k.kernelCr3 vm)
    (hlen : vm.free.length ≤ k.vm.free.length) : Tracks D' E' live { k with vm := vm } ps where
  spaces := hspaces
  heap := h.heap.mono hlen
  owned := fun p hp => (h.owned p hp).mono hwide
  live := h.live
  apart := h.apart

/-- `thread_create_user` grows the heap at most. -/
theorem Tracks.created {r : Option Tid} (h : Tracks D E live k ps)
    (hcreated : Kernel.Created k live r k' live') : Tracks D E live' k' ps := by
  refine h.grows hcreated.growth.1 hcreated.ready hcreated.more ?_ ?_
  · rw [hcreated.rest]
  · rw [hcreated.rest]

/-! ## The calls -/

theorem kfree_current (hcall : k.kfree fuel p = some k') :
    k'.sched.currentProcess = k.sched.currentProcess := by
  obtain ⟨heap, -, rfl⟩ := Option.map_eq_some_iff.mp hcall
  rfl

theorem Tracks.loadSpace (h : Tracks D E live k ps)
    (habsent : child k.vm.mem k.kernelCr3 stackSlot = none) (image : Nat → UInt8) (size : Nat) :
    ∃ D' E', Tracks D' E' live { k with vm := (loadSpace k.kernelCr3 image size k.vm).2 } ps ∧
      ∀ a, (Orchid.loadSpace k.kernelCr3 image size k.vm).1 = some a →
        Owns D' E' a ∧ ∀ q ∈ ps, (k.procs q).pml4Phys ≠ a := by
  obtain ⟨D', E', hwide, hspaces, hnew⟩ := h.spaces.load habsent image size
  refine ⟨D', E', h.widen hwide hspaces (loadSpace_free _ _ _ _).length_le, ?_⟩
  intro a ha
  obtain ⟨howns, hfree⟩ := hnew a ha
  refine ⟨howns, fun q hq heq => ?_⟩
  exact h.spaces.not_free (h.owned q hq) (heq ▸ hfree)

/-- `load_raw`: in any case the processes stay apart, and if it returns a thread
its process is one of them. -/
theorem Tracks.loadRaw {r : Option Tid} (h : Tracks D E live k ps)
    (habsent : child k.vm.mem k.kernelCr3 stackSlot = none) (hp : p ∈ live.map Prod.fst)
    (hcall : loadRaw fuel image size p k = some (r, k')) :
    ∃ D' E' live', (r = none → live' = live) ∧ Tracks D' E' live' k' ps ∧
      (r ≠ none → Tracks D' E' live' k' (p :: ps)) ∧
      k'.sched.currentProcess = k.sched.currentProcess := by
  obtain ⟨D', E', htracks, hnew⟩ := h.loadSpace habsent image size
  cases loadRaw_outcome hcall with
  | noSpace hspace =>
    rw [hspace] at htracks
    exact ⟨D', E', live, fun _ => rfl, htracks, fun hne => absurd rfl hne, rfl⟩
  | space hspace hthread =>
    rw [hspace] at htracks hnew
    obtain ⟨howns, hother⟩ := hnew _ rfl
    have hassigned := htracks.assign howns hother hp
    obtain ⟨live', hcreated⟩ := Kernel.threadCreateUser_spec hassigned.heap hthread
    have hall := hassigned.created hcreated
    refine ⟨D', E', live', hcreated.failed, hall.subset ?_, fun _ => hall, hcreated.process⟩
    exact fun q hq => List.mem_cons_of_mem p hq

theorem Tracks.installThread {t : Tid} (h : Tracks D E live k ps) (p : ProcPtr) :
    Tracks D E live (installThread p t k) ps :=
  h.congr rfl rfl rfl fun q _ => installThread_pml4Phys p t k q

/-- The first stores into a new record. -/
theorem Tracks.initRecord (h : Tracks D E live k ps) (p : ProcPtr) :
    Tracks D E live (newRecord p k) ps :=
  h.congr rfl rfl rfl fun q _ => newRecord_pml4Phys p k q

/-- The state after the record of a new process was allocated. -/
theorem Tracks.newRecord {k₁ : Kernel} (h : Tracks D E live k ps)
    (hmalloc : k.kmalloc fuel sizeofProcess = some (p, k₁)) (hp : p ≠ 0) :
    Tracks D E ((p, sizeofProcess) :: live) (newRecord p k₁) ps ∧ p ∉ ps ∧
      child (Orchid.newRecord p k₁).vm.mem (Orchid.newRecord p k₁).kernelCr3 stackSlot =
        child k.vm.mem k.kernelCr3 stackSlot ∧
      (Orchid.newRecord p k₁).sched = k.sched := by
  rcases h.kmalloc (by decide) hmalloc with ⟨h₁, hk₁, hfresh, hslot⟩
  rw [if_neg hp] at h₁
  have hcr3 : (Orchid.newRecord p k₁).kernelCr3 = k.kernelCr3 := by
    show k₁.kernelCr3 = k.kernelCr3
    rw [hk₁]
  refine ⟨h₁.initRecord p, hfresh hp, ?_, ?_⟩
  · rw [hcr3]
    exact hslot
  · show k₁.sched = k.sched
    exact Kernel.kmalloc_sched hmalloc

/-- `elf_load` keeps the processes apart. -/
theorem Tracks.elfLoad {r : Option ProcPtr} (h : Tracks D E live k ps)
    (habsent : child k.vm.mem k.kernelCr3 stackSlot = none)
    (hcall : elfLoad fuel image size k = some (r, k')) :
    ∃ D' E' live', Tracks D' E' live' k' (r.toList ++ ps) ∧
      k'.sched.currentProcess = k.sched.currentProcess := by
  cases elfLoad_outcome hcall with
  | noRecord hmalloc =>
    have h₁ := (h.kmalloc (by decide) hmalloc).1
    exact ⟨D, E, _, h₁, by rw [Kernel.kmalloc_sched hmalloc]⟩
  | notLoaded hmalloc hp hload hfree =>
    rcases h.newRecord hmalloc hp with ⟨h₁, hfresh, hslot, hsched⟩
    rcases h₁.loadRaw (hslot.trans habsent) List.mem_cons_self hload with
      ⟨D', E', live', hnone, h₂, -, hcur⟩
    rw [hnone rfl] at h₂
    refine ⟨D', E', live, h₂.kfree hfresh hfree, ?_⟩
    rw [kfree_current hfree, hcur, hsched]
  | @done p _ _ _ hmalloc hp hload =>
    rcases h.newRecord hmalloc hp with ⟨h₁, -, hslot, hsched⟩
    rcases h₁.loadRaw (hslot.trans habsent) List.mem_cons_self hload with
      ⟨D', E', live', -, -, h₂, hcur⟩
    exact ⟨D', E', live', (h₂ (by simp)).installThread p, hcur.trans (congrArg _ hsched)⟩

/-- `sys_exec` keeps the processes apart. -/
theorem Tracks.sysExec {b : Bool} (h : Tracks D E live k ps)
    (hcurrent : ∀ p ∈ k.sched.currentProcess, p ∈ ps)
    (habsent : child k.vm.mem k.kernelCr3 stackSlot = none)
    (hcall : sysExec fuel image size k = some (b, k')) :
    ∃ D' E' live', Tracks D' E' live' k' ps ∧
      k'.sched.currentProcess = k.sched.currentProcess := by
  cases sysExec_outcome hcall with
  | noProcess => exact ⟨D, E, live, h, rfl⟩
  | notLoaded hp hload =>
    obtain ⟨D', E', live', -, h₁, -, hcur⟩ := h.loadRaw habsent (h.live _ (hcurrent _ hp)) hload
    exact ⟨D', E', live', h₁, hcur⟩
  | @done p _ _ hp hload =>
    obtain ⟨D', E', live', -, h₁, -, hcur⟩ := h.loadRaw habsent (h.live _ (hcurrent _ hp)) hload
    exact ⟨D', E', live', h₁.installThread p, hcur⟩

/-- The end of a failed fork: the PML4 `a` is given back, and nothing of its
tree is tracked any more. -/
theorem Tracks.abandon {D' E' : Nat → List (Fin 512) → Prop} {a : Nat}
    (h : Tracks D' E' live k ps) (hp : p ∉ ps)
    (hspaces : SpacesOk D E k.kernelCr3 (k.vm.freePage a))
    (howned : ∀ q ∈ ps, Owns D E (k.procs q).pml4Phys)
    (hroom : reach k.heap k.vm + 4096 ≤ heapStartVirt + 2 ^ 39) (hlive : live = (p, n) :: live')
    (hcall : { k with vm := k.vm.freePage a }.kfree fuel p = some k') :
    Tracks D E live' k' ps := by
  subst hlive
  have hready : ({ k with vm := k.vm.freePage a }.heapState ((p, n) :: live')).Ready :=
    HeapState.Ready.freePage h.heap hroom
  have hfreed : Tracks D E ((p, n) :: live') { k with vm := k.vm.freePage a } ps :=
    ⟨hspaces, hready, howned, h.live, h.apart⟩
  exact hfreed.kfree hp hcall

/-- `sys_fork` after the record is made: the child's PML4 is the top of the free
stack. -/
theorem Tracks.forkSpace {P : Nat} (h : Tracks D E live k ps) (hP : Owns D E P)
    (hapart : ∀ c rest, k.vm.free = c :: rest → ForkApart k.vm.mem P c)
    (halloc : k.vm.allocPage.1 ≠ 0) {b : Bool} {vm : Vm}
    (hfork : forkAddressSpace P k.vm.allocPage.1 k.vm.allocPage.2 = (b, vm)) :
    ∃ m S, k.vm.allocPage.1 = pageRoot m ∧ SpacesOk.Fork D E k.kernelCr3 m S vm ∧
      reach k.heap vm + 4096 ≤ heapStartVirt + 2 ^ 39 ∧
      Tracks (WithTree D m S 3) (WithTree E m S 4) live { k with vm := vm } ps ∧
      (∀ q ∈ ps, (k.procs q).pml4Phys ≠ pageRoot m) ∧
      (b = true → Owns (WithTree D m S 3) (WithTree E m S 4) (pageRoot m)) := by
  rcases Vm.allocPage_of_ne halloc with ⟨a, rest, hfree, heq⟩
  rw [heq] at hfork ⊢
  obtain ⟨m, S, rfl, hspaces, hlen, howns⟩ := h.spaces.fork_apart hP hfree (hapart a rest hfree)
  rw [hfork] at hspaces hlen howns
  have hroom : HasRoom k.heap k.vm := h.heap.2.1
  refine ⟨m, S, rfl, hspaces, ?_, h.widen (wider_withTree D E m S) hspaces.spaces hlen.le, ?_,
    howns⟩
  · unfold HasRoom reach at hroom
    unfold reach
    simp only at hlen
    omega
  · intro q hq heq
    refine h.spaces.not_free (h.owned q hq) ?_
    rw [heq, hfree]
    exact List.mem_cons_self

/-- `sys_fork` keeps the processes apart. -/
theorem Tracks.sysFork {r : Option ProcPtr} (h : Tracks D E live k ps)
    (hcurrent : ∀ p ∈ k.sched.currentProcess, p ∈ ps)
    (hapart : ∀ cur p k₁ c rest, k.sched.currentProcess = some cur →
      k.kmalloc fuel sizeofProcess = some (p, k₁) → k₁.vm.free = c :: rest →
      ForkApart k₁.vm.mem (k.procs cur).pml4Phys c)
    (hcall : sysFork fuel k = some (r, k')) :
    ∃ D' E' live', Tracks D' E' live' k' (r.toList ++ ps) ∧
      k'.sched.currentProcess = k.sched.currentProcess := by
  cases sysFork_outcome hcall with
  | noProcess => exact ⟨D, E, live, h, rfl⟩
  | noRecord _ hmalloc =>
    have h₁ := (h.kmalloc (by decide) hmalloc).1
    exact ⟨D, E, _, h₁, by rw [Kernel.kmalloc_sched hmalloc]⟩
  | @noPml4 cur p k₁ _ hcur hmalloc hp halloc hfree =>
    rcases h.newRecord hmalloc hp with ⟨h₁, hfresh, -, hsched⟩
    have hempty : k₁.vm.allocPage.2 = k₁.vm := Vm.allocPage_of_zero h₁.spaces.forest.freeOk halloc
    rw [hempty] at hfree
    exact ⟨D, E, live, h₁.kfree hfresh hfree, (kfree_current hfree).trans (congrArg _ hsched)⟩
  | @noSpace cur p k₁ _ vm hcur hmalloc hp halloc hspace hfree =>
    -- out of frames during the copy
    rcases h.newRecord hmalloc hp with ⟨h₁, hfresh, -, hsched⟩
    rcases h₁.forkSpace (h.owned cur (hcurrent cur hcur))
      (fun c rest => hapart cur p k₁ c rest hcur hmalloc) halloc hspace with
      ⟨m, S, hroot, hspaces, hroom, h₂, -, -⟩
    change k₁.vm.allocPage.1 = pageRoot m at hroot
    rw [hroot] at hfree
    exact ⟨D, E, live, h₂.abandon hfresh hspaces.release h₁.owned hroom rfl hfree,
      (kfree_current hfree).trans (congrArg _ hsched)⟩
  | @noThread cur p k₁ k₂ _ vm hcur hmalloc hp halloc hspace hthread hfree =>
    -- no memory for the thread
    rcases h.newRecord hmalloc hp with ⟨h₁, hfresh, -, hsched⟩
    rcases h₁.forkSpace (h.owned cur (hcurrent cur hcur))
      (fun c rest => hapart cur p k₁ c rest hcur hmalloc) halloc hspace with
      ⟨m, S, hroot, hspaces, hroom, h₂, hother, howns⟩
    change k₁.vm.allocPage.1 = pageRoot m at hroot
    rw [hroot] at hthread hfree
    have h₃ := h₂.assign (howns rfl) hother List.mem_cons_self
    rcases Kernel.threadCreateUser_spec h₃.heap hthread with ⟨live', hcreated⟩
    have h₄ := (h₃.created hcreated).subset fun q hq => List.mem_cons_of_mem p hq
    have hcr3 : k₂.kernelCr3 = k₁.kernelCr3 := by rw [hcreated.rest]; rfl
    refine ⟨D, E, live, h₄.abandon hfresh ?_ ?_ ?_ (hcreated.failed rfl) hfree, ?_⟩
    · rw [hcr3]
      exact (hspaces.growth hcreated.growth.1).release
    · intro q hq
      have hqp : q ≠ p := by
        rintro rfl
        exact hfresh hq
      have hold := h₁.owned q hq
      rw [hcreated.rest]
      simpa [forkChild, Kernel.modifyProc, hqp] using hold
    · exact (Nat.add_le_add_right hcreated.growth.2 4096).trans hroom
    · rw [kfree_current hfree]
      exact hcreated.process.trans (congrArg _ hsched)
  | @done cur p t k₁ k₂ vm hcur hmalloc hp halloc hspace hthread =>
    rcases h.newRecord hmalloc hp with ⟨h₁, hfresh, -, hsched⟩
    rcases h₁.forkSpace (h.owned cur (hcurrent cur hcur))
      (fun c rest => hapart cur p k₁ c rest hcur hmalloc) halloc hspace with
      ⟨m, S, hroot, -, -, h₂, hother, howns⟩
    change k₁.vm.allocPage.1 = pageRoot m at hroot
    rw [hroot] at hthread
    have h₃ := h₂.assign (howns rfl) hother List.mem_cons_self
    rcases Kernel.threadCreateUser_spec h₃.heap hthread with ⟨live', hcreated⟩
    refine ⟨_, _, live', (h₃.created hcreated).congr rfl rfl rfl fun q _ => ?_,
      hcreated.process.trans (congrArg _ hsched)⟩
    exact Kernel.modifyProc_pml4Phys k₂ p (f := fun r =>
      { r with mainThread := some t, next := k₂.processList }) (fun _ => rfl) q

end Tracks

/-! ## Isolation -/

section Isolation

variable {w w' : World}

/-- What holds in every run of calls that leave the processes apart. -/
def World.Inv (w : World) : Prop :=
  (∃ D E live, Tracks D E live w.kernel w.procs) ∧
    ∀ p ∈ w.kernel.sched.currentProcess, p ∈ w.procs

/-- At boot only the heap's tables are tracked. -/
theorem World.Boot.inv (h : w.Boot) : w.Inv := by
  obtain ⟨n, hn⟩ := exists_pageRoot h.aligned
  obtain ⟨live, hready⟩ := h.heap
  have hforest : Forest pageRoot (fun m q => m = n ∧ SlotPath HeapSlot 3 q)
      (fun m q => m = n ∧ SlotPath HeapSlot 3 q) w.kernel.vm := by
    refine ⟨⟨?_, fun _ _ hq => hq, ?_⟩, ?_, ?_, ?_, h.freeOk⟩
    · rintro m p q ⟨rfl, hq⟩
      exact ⟨rfl, slotPath_closed _ _ p q hq⟩
    · rintro m q ⟨rfl, hq⟩ p j q' rfl
      exact ⟨rfl, slotPath_closed _ _ p (j :: q') hq⟩
    · intro m
      unfold Aligned pageRoot
      omega
    · rintro m q m' q' f ⟨rfl, hq⟩ ⟨rfl, hq'⟩ hf hf'
      rw [← hn] at hf hf'
      exact ⟨rfl, h.distinct q q' f hq hq' hf hf'⟩
    · rintro c hc m q ⟨rfl, hq⟩ hw
      rw [← hn] at hw
      exact h.tables q c hq hw hc
  refine ⟨⟨_, _, live, ⟨hforest, ?_, ⟨n, hn, fun q hq => ⟨rfl, hq⟩⟩, h.few⟩, hready, ?_, ?_, ?_⟩, ?_⟩
  · rintro m q ⟨-, hq⟩
    exact hq.1
  · simp [h.procs]
  · simp [h.procs]
  · simp [h.procs]
  · simp [h.current]

/-- One call that leaves the processes apart. -/
theorem World.Inv.step (h : w.Inv) (hstep : w.NextApart w') : w'.Inv := by
  obtain ⟨⟨D, E, live, htracks⟩, hcurrent⟩ := h
  obtain ⟨c, hapart, hstep⟩ := hstep
  cases c with
  | load fuel image size =>
    obtain ⟨⟨r, k⟩, hcall, rfl⟩ := Option.map_eq_some_iff.mp hstep
    obtain ⟨D', E', live', h', hcur⟩ := htracks.elfLoad hapart hcall
    refine ⟨⟨D', E', live', h'⟩, fun p hp => List.mem_append_right _ (hcurrent p ?_)⟩
    rw [← hcur]
    exact hp
  | exec fuel image size =>
    obtain ⟨⟨b, k⟩, hcall, rfl⟩ := Option.map_eq_some_iff.mp hstep
    obtain ⟨D', E', live', h', hcur⟩ := htracks.sysExec hcurrent hapart hcall
    refine ⟨⟨D', E', live', h'⟩, fun p hp => hcurrent p ?_⟩
    rw [← hcur]
    exact hp
  | fork fuel =>
    obtain ⟨⟨r, k⟩, hcall, rfl⟩ := Option.map_eq_some_iff.mp hstep
    obtain ⟨D', E', live', h', hcur⟩ := htracks.sysFork hcurrent hapart hcall
    refine ⟨⟨D', E', live', h'⟩, fun p hp => List.mem_append_right _ (hcurrent p ?_)⟩
    rw [← hcur]
    exact hp
  | switch sched =>
    simp only [World.step] at hstep
    split at hstep
    · next hsched =>
      obtain rfl := Option.some.inj hstep
      exact ⟨⟨D, E, live, htracks.congr rfl rfl rfl fun _ _ => rfl⟩, hsched⟩
    · cases hstep

theorem slotPath_userPage {v : Nat} (hv : UserPage v) : SlotPath UserSlot 4 (path v) := by
  rcases hv with hlow | hstack
  · rw [path, upperPath, List.cons_append, slotPath_cons]
    refine ⟨Nat.le_refl _, ?_⟩
    unfold UserSlot
    rw [val_ofNat_pml4]
    omega
  · rw [(path_eq_iff v userStackVaddr).mpr hstack, path, upperPath_userStackVaddr]
    exact slotPath_cons.mpr ⟨Nat.le_refl _, by decide⟩

theorem World.Inv.isolated (h : w.Inv) : w.Isolated := by
  obtain ⟨⟨D, E, live, htracks⟩, -⟩ := h
  intro p hp p' hp' hne v v' f hv hv' hf hf'
  obtain ⟨n, hn, -, hE⟩ := htracks.owned p hp
  obtain ⟨n', hn', -, hE'⟩ := htracks.owned p' hp'
  have hroots := htracks.apart p hp p' hp' hne
  unfold World.frameOf at hf hf'
  rw [hn] at hf hroots
  rw [hn'] at hf' hroots
  have hsame := htracks.spaces.forest.distinct n (path v) n' (path v') f
    (hE _ (slotPath_userPage hv)) (hE' _ (slotPath_userPage hv')) hf hf'
  exact hroots (congrArg pageRoot hsame.1)

/-- In every run whose calls leave the processes apart, no frame is mapped for
user space in two processes. -/
theorem isolated_of_apart (h : Reachable World.Boot World.NextApart w) : w.Isolated :=
  World.Inv.isolated (h.invariant (fun _ => World.Boot.inv) fun _ _ hstep hinv => hinv.step hstep)

end Isolation

/-! ## Runs from a booted kernel -/

section Runs

variable {D E : Nat → List (Fin 512) → Prop} {live : List (Nat × Nat)} {k k' : Kernel}
  {p : ProcPtr} {fuel m len : Nat} {w : World}

/-- A process just loaded from the empty image: it has its stack, and nothing in
the lower half. -/
structure OnlyStack (k : Kernel) (p : ProcPtr) : Prop where
  stack : ∃ b, walk (child k.vm.mem) (k.procs p).pml4Phys (path userStackVaddr) = some b
  lower : ∀ i : Fin 512, i.val < 256 → child k.vm.mem (k.procs p).pml4Phys i = none

/-- With five pages and room in the heap an empty image is loaded. -/
theorem elfLoad_empty (hspaces : SpacesOk D E k.kernelCr3 k.vm)
    (habsent : child k.vm.mem k.kernelCr3 stackSlot = none) (hfive : 5 ≤ k.vm.free.length)
    (hs : (k.heapState live).Spare m len)
    (hm : sizeofProcess + headerSize + Kernel.threadRoom + 8 ≤ m) (hfuel : len + 2 < fuel)
    (image : Nat → UInt8) :
    ∃ p k' live', (∃ k₁, k.kmalloc fuel sizeofProcess = some (p, k₁) ∧ p ≠ 0) ∧
      elfLoad fuel image 0 k = some (some p, k') ∧ OnlyStack k' p ∧
      child k'.vm.mem k'.kernelCr3 stackSlot = none ∧
      k.vm.free.length = k'.vm.free.length + 5 ∧
      (k'.heapState live').Spare (m - sizeofProcess - headerSize - Kernel.threadRoom) (len + 3) ∧
      (∃ s, (s, stackSize) ∈ live' ∧ live <:+ live') ∧ k'.heap.endVirt ≤ k.heap.endVirt := by
  rcases hfree : k.vm.free with _ | ⟨a, _ | ⟨b, rest⟩⟩
  · simp [hfree] at hfive
  · simp [hfree] at hfive
  rw [hfree, List.length_cons, List.length_cons] at hfive
  rcases hspaces.load_empty habsent image hfree (by omega) with
    ⟨vm', hspace, hfree', hstack, hlower, hkernel⟩
  rcases elfLoad_of_spare hspace hs hm hfuel with
    ⟨p, k', live', hmalloc, hcall, hroot, rfl, hcr3, hspare⟩
  refine ⟨p, k', live', hmalloc, hcall, ⟨⟨b, ?_⟩, ?_⟩, ?_, ?_, hspare⟩
  · rw [hroot]
    exact hstack
  · rw [hroot]
    exact hlower
  · rw [hcr3, hkernel]
    exact habsent
  · rw [List.length_cons, List.length_cons, hfree', List.length_drop]
    omega

/-- Parent and child of a fork have the same tables behind the slot of the
stack. -/
theorem walk_stack_of_copy {mem : ByteMem} {P C : Nat} (hP : Aligned P) (hC : Aligned C)
    (hPC : P ≠ C) (q : List (Fin 512)) :
    walk (child (copyWords mem C P 256 256)) C (stackSlot :: q) =
      walk (child (copyWords mem C P 256 256)) P (stackSlot :: q) := by
  have hsame : child (copyWords mem C P 256 256) P stackSlot = child mem P stackSlot := by
    exact child_congr fun x hx => copyUpper_apply fun hxC => hPC (inPage_unique hP hC hx hxC)
  rw [walk_cons, walk_cons, child_copyWords_upper hP hC hPC (Nat.le_refl 256), hsame]

/-- A fork of a process that has a stack: the child gets the same frame for
it. -/
theorem sysFork_shares (htracks : ∃ D E live, Tracks D E live k [p])
    (hcur : k.sched.currentProcess = some p) (honly : OnlyStack k p) (hone : k.vm.free ≠ [])
    (hs : (k.heapState live).Spare m len)
    (hm : sizeofProcess + headerSize + Kernel.threadRoom + 8 ≤ m) (hfuel : len + 2 < fuel) :
    ∃ p' k', sysFork fuel k = some (some p', k') ∧ p' ≠ p ∧
      ∃ b, walk (child k'.vm.mem) (k'.procs p).pml4Phys (path userStackVaddr) = some b ∧
        walk (child k'.vm.mem) (k'.procs p').pml4Phys (path userStackVaddr) = some b := by
  rcases htracks with ⟨D, E, live', htracks⟩
  have hforest := htracks.spaces.forest
  rcases List.exists_cons_of_ne_nil hone with ⟨c, rest, hfree⟩
  have hc : c ∈ k.vm.free := mem_of_eq_cons hfree
  have hca := hforest.freeOk.aligned c hc
  have hne := htracks.spaces.not_free (htracks.owned p List.mem_cons_self)
  rcases htracks.owned p List.mem_cons_self with ⟨n, hn, hD, -⟩
  have hpa : Aligned (k.procs p).pml4Phys := by
    rw [hn]
    exact hforest.aligned n
  have hPC : (k.procs p).pml4Phys ≠ c := by
    intro heq
    exact hne (heq ▸ hc)
  -- there is nothing to copy but the upper half
  have hfork : forkAddressSpace (k.procs p).pml4Phys c ⟨k.vm.mem, rest⟩ =
      (true, ⟨copyWords k.vm.mem c (k.procs p).pml4Phys 256 256, rest⟩) :=
    forkAddressSpace_of_empty hpa hca honly.lower
  rcases sysFork_of_spare hcur hfree (hforest.freeOk.nonzero c hc) hfork (Nat.le_refl _) hs hm
    hfuel with ⟨p', k', ⟨k₁, hmalloc, hp0⟩, hcall, hroot, hvm, hothers⟩
  have hp' : p' ≠ p := by
    rintro rfl
    exact (htracks.kmalloc (by decide) hmalloc).2.2.1 hp0 List.mem_cons_self
  rcases honly.stack with ⟨b, hb⟩
  -- the parent's own tables are as they were
  have hparent : walk (child k'.vm.mem) (k'.procs p).pml4Phys (path userStackVaddr) = some b := by
    have hbelow : Below (D n) (path userStackVaddr) := by
      intro q j q' heq
      apply hD
      have hslot : SlotPath UserSlot 4 (path userStackVaddr) := slotPath_userPage (Or.inr rfl)
      exact slotPath_below hslot q j q' heq
    rw [hothers p hp'.symm, hvm, ← hb, hn]
    exact hforest.walk_scribble (hforest.freshTables hc) hca (fun _ => copyUpper_apply) hbelow
  refine ⟨p', k', hcall, hp', b, hparent, ?_⟩
  rw [← hparent, hroot, hothers p hp'.symm, hvm]
  exact walk_stack_of_copy hpa hca hPC _

/-- The kernel's tables as a tree of their own, before the first process. -/
theorem boot_of_wellFormed (hwf : WellFormed k.kernelCr3 k.vm)
    (hfew : k.vm.free.length ≤ maxFreeList) (hcur : k.sched.currentProcess = none)
    (hready : (k.heapState live).Ready) : World.Boot ⟨k, []⟩ where
  procs := rfl
  current := hcur
  aligned := hwf.aligned
  freeOk := hwf.freeOk
  few := hfew
  tables := fun q f hq => hwf.notFree q f hq.1
  distinct := fun q q' f hq hq' => hwf.distinct q q' f hq.1 hq'.1
  heap := ⟨live, hready⟩

/-- There is a boot state with room for a few processes, and with nothing in the
slot of the stack. -/
theorem exists_boot : ∃ k, World.Boot ⟨k, []⟩ ∧
    child k.vm.mem k.kernelCr3 stackSlot = none ∧ 36 ≤ k.vm.free.length ∧
    (k.heapState []).Spare (heapInitialPages * pageSize - headerSize) 1 := by
  rcases exists_heapKernel (by decide : 64 ≤ 100) (by decide) with ⟨k, hcur, hmapped, hspare⟩
  have hlen : (pageRun 100).length = 100 := by simp [pageRun]
  have hfew : k.vm.free.length ≤ maxFreeList :=
    hmapped.free.length_le.trans (hlen.trans_le (by decide))
  refine ⟨k, boot_of_wellFormed hmapped.wellFormed hfew hcur hspare.ready, ?_, ?_, hspare⟩
  · exact (hmapped.others stackSlot (by decide)).trans (child_zero _ _)
  · have hleft := hmapped.length
    simp only [hlen, heapInitialPages] at hleft
    omega

/-- The first load on such a kernel. -/
theorem exists_firstLoad : ∃ k₀ p k live, World.Boot ⟨k₀, []⟩ ∧
    World.NextApart ⟨k₀, []⟩ ⟨k, [p]⟩ ∧ OnlyStack k p ∧
    child k.vm.mem k.kernelCr3 stackSlot = none ∧ 5 ≤ k.vm.free.length ∧
    (k.heapState live).Spare 60000 4 := by
  rcases exists_boot with ⟨k₀, hboot, habsent, hlen, hspare⟩
  rcases hboot.inv with ⟨⟨D, E, live, htracks⟩, -⟩
  have hspaces : SpacesOk D E k₀.kernelCr3 k₀.vm := htracks.spaces
  rcases elfLoad_empty hspaces habsent (by omega) hspare (by decide)
    (by decide : 1 + 2 < 20) (fun _ => 0) with
    ⟨p, k, live', -, hcall, honly, hslot, hcount, hleft, -⟩
  refine ⟨k₀, p, k, live', hboot, ⟨.load 20 (fun _ => 0) 0, habsent, ?_⟩, honly, hslot, by omega,
    ?_⟩
  · simp only [World.step, hcall]
    rfl
  · rcases hleft with ⟨hinit, hroom, bs, ht, hl, hbs, b, hb, hfit⟩
    refine ⟨hinit, hroom, bs, ht, hl, hbs, b, hb, hfit.1, ?_⟩
    have hsize := hfit.2
    simp only [heapInitialPages, pageSize, headerSize, sizeofProcess, Kernel.threadRoom,
      sizeofThread, stackSize] at hsize
    omega

theorem isolated_of_apart_twoLoads : ∃ w p p', Machine.Reachable World.Boot World.NextApart w ∧
    w.procs = [p', p] ∧ p' ≠ p ∧ w.Isolated := by
  rcases exists_firstLoad with ⟨k₀, p, k, live, hboot, hnext, -, hslot, hlen, hspare⟩
  have hfirst := Reachable.step (.init hboot) hnext
  have hinv : World.Inv ⟨k, [p]⟩ := hboot.inv.step hnext
  rcases hinv with ⟨⟨D, E, live', htracks⟩, -⟩
  rcases elfLoad_empty htracks.spaces hslot hlen hspare (by decide) (by decide : 4 + 2 < 20)
    (fun _ => 0) with ⟨p', k', -, ⟨k₁, hmalloc, hp0⟩, hcall, -⟩
  have hsecond : World.NextApart ⟨k, [p]⟩ ⟨k', [p', p]⟩ := by
    refine ⟨.load 20 (fun _ => 0) 0, hslot, ?_⟩
    simp only [World.step, hcall]
    rfl
  have hreach := hfirst.step hsecond
  refine ⟨⟨k', [p', p]⟩, p, p', hreach, rfl, ?_, isolated_of_apart hreach⟩
  rintro rfl
  exact (htracks.kmalloc (by decide) hmalloc).2.2.1 hp0 List.mem_cons_self

/-- After a load and a fork, parent and child have the same frame for their
stacks. -/
theorem fork_shares_stack : ∃ w, Machine.Reachable World.Boot World.Next w ∧ ¬ w.Isolated := by
  rcases exists_firstLoad with ⟨k₀, p, k, live, hboot, hnext, honly, -, hlen, hspare⟩
  have hinv : World.Inv ⟨k, [p]⟩ := hboot.inv.step hnext
  rcases hinv with ⟨⟨D, E, live', htracks⟩, -⟩
  rcases hnext with ⟨c, -, hload⟩
  -- the scheduler makes the process the current one
  set k₁ := { k with sched := { k.sched with currentProcess := some p } } with hk₁
  have hswitch : World.Next ⟨k, [p]⟩ ⟨k₁, [p]⟩ := by
    refine ⟨.switch { k.sched with currentProcess := some p }, ?_⟩
    simp [World.step, hk₁]
  have htracks₁ : Tracks D E live' k₁ [p] := htracks.congr rfl rfl rfl fun _ _ => rfl
  rcases sysFork_shares ⟨D, E, live', htracks₁⟩ rfl ⟨honly.stack, honly.lower⟩
    (List.ne_nil_of_length_pos (by show 0 < k.vm.free.length; omega))
    (hspare : (k₁.heapState live).Spare 60000 4) (by decide) (by decide : 4 + 2 < 20) with
    ⟨p', k₂, hcall, hne, b, hparent, hchild⟩
  have hfork : World.Next ⟨k₁, [p]⟩ ⟨k₂, [p', p]⟩ := by
    refine ⟨.fork 20, ?_⟩
    simp only [World.step, hcall]
    rfl
  refine ⟨⟨k₂, [p', p]⟩, (((Reachable.init hboot).step ⟨c, hload⟩).step hswitch).step
    hfork, ?_⟩
  intro hiso
  exact hiso p (by simp) p' (by simp) hne.symm userStackVaddr userStackVaddr b (Or.inr rfl)
    (Or.inr rfl) hparent hchild

end Runs

end Orchid
