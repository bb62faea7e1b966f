import Orchid.Core.LinkedList
import Orchid.Process.HeapVisible

/-! # The list of processes and their numbers

`process_list` and `next_pid` of `kernel/proc.c`, over runs of `elf_load`, `sys_fork` and
`sys_exec`, each succeeding or failing at any point, with the rest of the kernel using the
heap in between. Only `sys_fork` puts a process on the list.

* `SameRecords`: what all calls do that neither make a process nor number one.
* A record that is made is none of those in use, so that numbering it changes none of
  them (`HeapWorld.Inv.fresh`).
* `process_list_forks` is the result for whole runs.
-/

namespace Orchid

open Machine LinkedList

/-! ## Calls that make no process -/

/-- Every record has its number and its link, and the list and the counter are as before. -/
structure SameRecords (k k' : Kernel) : Prop where
  pid : ∀ q, (k'.procs q).pid = (k.procs q).pid
  next : ∀ q, (k'.procs q).next = (k.procs q).next
  nextPid : k'.nextPid = k.nextPid
  processList : k'.processList = k.processList

section Calls

variable {k k' k₁ : Kernel} {fuel size n : Nat} {p : ProcPtr} {image : Nat → UInt8}

theorem SameRecords.refl (k : Kernel) : SameRecords k k :=
  ⟨fun _ => rfl, fun _ => rfl, rfl, rfl⟩

theorem SameRecords.trans (h : SameRecords k k₁) (h' : SameRecords k₁ k') : SameRecords k k' where
  pid q := (h'.pid q).trans (h.pid q)
  next q := (h'.next q).trans (h.next q)
  nextPid := h'.nextPid.trans h.nextPid
  processList := h'.processList.trans h.processList

/-- A store to other fields of a record. -/
theorem sameRecords_modifyProc (k : Kernel) (p : ProcPtr) {f : Process → Process}
    (hpid : ∀ r, (f r).pid = r.pid) (hnext : ∀ r, (f r).next = r.next) :
    SameRecords k (k.modifyProc p f) := by
  refine ⟨?_, ?_, rfl, rfl⟩
  · intro q
    by_cases hq : q = p
    · rw [hq, Kernel.modifyProc_self, hpid]
    · rw [Kernel.modifyProc_of_ne k f hq]
  · intro q
    by_cases hq : q = p
    · rw [hq, Kernel.modifyProc_self, hnext]
    · rw [Kernel.modifyProc_of_ne k f hq]

theorem Kernel.kmalloc_sameRecords (h : k.kmalloc fuel n = some (p, k')) : SameRecords k k' := by
  rw [(Kernel.kmalloc_eq_some h).2]
  exact ⟨fun _ => rfl, fun _ => rfl, rfl, rfl⟩

theorem Kernel.kfree_sameRecords (h : k.kfree fuel p = some k') : SameRecords k k' := by
  rw [Kernel.kfree_rest h]
  exact ⟨fun _ => rfl, fun _ => rfl, rfl, rfl⟩

theorem Kernel.threadCreateUser_sameRecords {entry stack pml4Phys : Nat} {proc : Option ProcPtr}
    {r : Option Tid} (h : k.threadCreateUser fuel entry stack pml4Phys proc = some (r, k')) :
    SameRecords k k' := by
  cases Kernel.threadCreateUser_outcome h with
  | noRecord hmalloc => exact Kernel.kmalloc_sameRecords hmalloc
  | noStack hmalloc _ hstack hfree =>
    exact ((Kernel.kmalloc_sameRecords hmalloc).trans (Kernel.kmalloc_sameRecords hstack)).trans
      (Kernel.kfree_sameRecords hfree)
  | done hmalloc _ hstack _ =>
    have h₂ := (Kernel.kmalloc_sameRecords hmalloc).trans (Kernel.kmalloc_sameRecords hstack)
    exact ⟨h₂.pid, h₂.next, h₂.nextPid, h₂.processList⟩

theorem loadRaw_sameRecords {r : Option Tid} (h : loadRaw fuel image size p k = some (r, k')) :
    SameRecords k k' := by
  cases loadRaw_outcome h with
  | noSpace _ => exact ⟨fun _ => rfl, fun _ => rfl, rfl, rfl⟩
  | @space pml4Phys vm _ _ _ hthread =>
    have hstore := sameRecords_modifyProc k p (f := fun r => { r with pml4Phys := pml4Phys })
      (fun _ => rfl) (fun _ => rfl)
    have hloaded : SameRecords k (loaded p pml4Phys vm k) := ⟨hstore.pid, hstore.next, rfl, rfl⟩
    exact hloaded.trans (Kernel.threadCreateUser_sameRecords hthread)

theorem installThread_sameRecords (p : ProcPtr) (t : Tid) (k : Kernel) :
    SameRecords k (installThread p t k) := by
  have hstore := sameRecords_modifyProc k p (f := fun r => { r with mainThread := some t })
    (fun _ => rfl) (fun _ => rfl)
  exact ⟨hstore.pid, hstore.next, rfl, rfl⟩

theorem sysExec_sameRecords {r : Bool} (h : sysExec fuel image size k = some (r, k')) :
    SameRecords k k' := by
  cases sysExec_outcome h with
  | noProcess => exact .refl k
  | notLoaded _ hload => exact loadRaw_sameRecords hload
  | done _ hload => exact (loadRaw_sameRecords hload).trans (installThread_sameRecords _ _ _)

end Calls

/-! ## The records in use -/

/-- The records of the processes `ps`, the newest first, of which `forked` are on the list. -/
structure Records (k : Kernel) (ps forked : List ProcPtr) : Prop where
  numbered : ps.Pairwise fun p q => (k.procs q).pid < (k.procs p).pid
  range : ∀ p ∈ ps, 0 < (k.procs p).pid ∧ (k.procs p).pid < k.nextPid
  list : Chain (fun p => (k.procs p).next) k.processList forked
  sub : forked.Sublist ps
  positive : 0 < k.nextPid

section Records

variable {k k' k₁ : Kernel} {ps forked : List ProcPtr} {fuel size : Nat} {p : ProcPtr}
  {image : Nat → UInt8}

theorem Records.same (h : Records k ps forked) (hsame : SameRecords k k') :
    Records k' ps forked where
  numbered := by
    apply h.numbered.imp
    intro p q hlt
    rw [hsame.pid, hsame.pid]
    exact hlt
  range := by
    intro p hp
    rw [hsame.pid, hsame.nextPid]
    exact h.range p hp
  list := by
    rw [hsame.processList]
    apply h.list.congr
    intro q _
    exact hsame.next q
  sub := h.sub
  positive := by
    rw [hsame.nextPid]
    exact h.positive

/-- The new record has the number that the counter had. -/
theorem newRecord_self (p : ProcPtr) (k : Kernel) : ((newRecord p k).procs p).pid = k.nextPid := by
  unfold newRecord
  rw [Kernel.modifyProc_self]
  rfl

theorem newRecord_nextPid (hpids : k.nextPid + 1 < 2 ^ 64) :
    (newRecord p k).nextPid = k.nextPid + 1 := Nat.mod_eq_of_lt hpids

/-- A record is numbered that is not in use. -/
theorem Records.numberOther (h : Records k ps forked) (hp : p ∉ ps)
    (hpids : k.nextPid + 1 < 2 ^ 64) : Records (newRecord p k) ps forked := by
  have hold : ∀ q ∈ ps, (newRecord p k).procs q = k.procs q := by
    intro q hq
    apply newRecord_procs
    rintro rfl
    exact hp hq
  constructor
  · apply List.Pairwise.imp_of_mem _ h.numbered
    intro q r hq hr hlt
    rw [hold q hq, hold r hr]
    exact hlt
  · intro q hq
    have hrange := h.range q hq
    rw [hold q hq, newRecord_nextPid hpids]
    omega
  · apply Chain.congr (h.list : Chain _ (newRecord p k).processList forked)
    intro q hq
    rw [hold q (h.sub.subset hq)]
  · exact h.sub
  · rw [newRecord_nextPid hpids]
    omega

/-- From then on it is in use. -/
theorem Records.make (h : Records k ps forked) (hp : p ∉ ps) (hpids : k.nextPid + 1 < 2 ^ 64) :
    Records (newRecord p k) (p :: ps) forked := by
  have hother := h.numberOther hp hpids
  constructor
  · refine List.pairwise_cons.mpr ⟨?_, hother.numbered⟩
    intro q hq
    rw [newRecord_self, newRecord_procs k (by rintro rfl; exact hp hq)]
    exact (h.range q hq).2
  · intro q hq
    rcases List.mem_cons.mp hq with rfl | hq
    · have hpositive := h.positive
      rw [newRecord_self, newRecord_nextPid hpids]
      omega
    · exact hother.range q hq
  · exact hother.list
  · exact hother.sub.cons p
  · exact hother.positive

/-- The newest process is put on the list. -/
theorem Records.link (h : Records k (p :: ps) forked) (hp : p ∉ ps) (hsub : forked.Sublist ps)
    (t : Option Tid) :
    Records { k.modifyProc p fun r => { r with mainThread := t, next := k.processList } with
      processList := some p } (p :: ps) (p :: forked) := by
  have hpid : ∀ q, ((k.modifyProc p fun r =>
      { r with mainThread := t, next := k.processList }).procs q).pid = (k.procs q).pid := by
    intro q
    by_cases hq : q = p
    · rw [hq, Kernel.modifyProc_self]
    · rw [Kernel.modifyProc_of_ne k _ hq]
  constructor
  · apply h.numbered.imp
    intro q r hlt
    simp only [hpid]
    exact hlt
  · intro q hq
    simp only [hpid]
    exact h.range q hq
  · apply h.list.push
    · simp only [Kernel.modifyProc_self]
    · intro q hq
      have hne : q ≠ p := by
        rintro rfl
        exact hp (hsub.subset hq)
      simp only [Kernel.modifyProc_of_ne k _ hne]
  · exact hsub.cons_cons p
  · exact h.positive

/-- The record of a new process, before and after it counts. -/
theorem Records.started {k₁ : Kernel} (h : Records k ps forked) (hpids : k.nextPid + 1 < 2 ^ 64)
    (hmalloc : k.kmalloc fuel sizeofProcess = some (p, k₁)) (hnot : p ∉ ps) :
    Records (newRecord p k₁) ps forked ∧ Records (newRecord p k₁) (p :: ps) forked := by
  have hsame := Kernel.kmalloc_sameRecords hmalloc
  rw [← hsame.nextPid] at hpids
  exact ⟨(h.same hsame).numberOther hnot hpids, (h.same hsame).make hnot hpids⟩

/-- `elf_load`, if the record it may get is none of those in use. -/
theorem Records.elfLoad {r : Option ProcPtr} (h : Records k ps forked)
    (hpids : k.nextPid + 1 < 2 ^ 64)
    (hfresh : ∀ p k₁, k.kmalloc fuel sizeofProcess = some (p, k₁) → p ≠ 0 → p ∉ ps)
    (hcall : elfLoad fuel image size k = some (r, k')) : Records k' (r.toList ++ ps) forked := by
  cases elfLoad_outcome hcall with
  | noRecord hmalloc => exact h.same (Kernel.kmalloc_sameRecords hmalloc)
  | notLoaded hmalloc hp hload hfree =>
    have hnew := (h.started hpids hmalloc (hfresh _ _ hmalloc hp)).1
    exact hnew.same ((loadRaw_sameRecords hload).trans (Kernel.kfree_sameRecords hfree))
  | done hmalloc hp hload =>
    have hnew := (h.started hpids hmalloc (hfresh _ _ hmalloc hp)).2
    exact hnew.same ((loadRaw_sameRecords hload).trans (installThread_sameRecords _ _ _))

/-- A load takes one number. -/
theorem elfLoad_nextPid (hcall : elfLoad fuel image size k = some (some p, k')) :
    k'.nextPid = (k.nextPid + 1) % 2 ^ 64 := by
  cases elfLoad_outcome hcall with
  | done hmalloc hp hload =>
    rw [(installThread_sameRecords _ _ _).nextPid, (loadRaw_sameRecords hload).nextPid,
      ← (Kernel.kmalloc_sameRecords hmalloc).nextPid]
    rfl

theorem forkChild_sameRecords (p : ProcPtr) (childPml4 : Nat) (vm : Vm) (k : Kernel) :
    SameRecords (newRecord p k) (forkChild p childPml4 vm k) := by
  have hstore := sameRecords_modifyProc (newRecord p k) p (f := fun r =>
    { r with pml4Phys := childPml4 }) (fun _ => rfl) (fun _ => rfl)
  exact ⟨hstore.pid, hstore.next, rfl, rfl⟩

/-- `sys_fork`. Wherever it fails, the number is used up and the list is as before. -/
theorem Records.sysFork {r : Option ProcPtr} (h : Records k ps forked)
    (hpids : k.nextPid + 1 < 2 ^ 64)
    (hfresh : ∀ p k₁, k.kmalloc fuel sizeofProcess = some (p, k₁) → p ≠ 0 → p ∉ ps)
    (hcall : sysFork fuel k = some (r, k')) :
    Records k' (r.toList ++ ps) (r.toList ++ forked) := by
  cases sysFork_outcome hcall with
  | noProcess => exact h
  | noRecord _ hmalloc => exact h.same (Kernel.kmalloc_sameRecords hmalloc)
  | noPml4 _ hmalloc hp _ hfree =>
    have h₁ := (h.started hpids hmalloc (hfresh _ _ hmalloc hp)).1
    have hfreed := Kernel.kfree_sameRecords hfree
    exact h₁.same ⟨hfreed.pid, hfreed.next, hfreed.nextPid, hfreed.processList⟩
  | noSpace _ hmalloc hp _ _ hfree =>
    have h₁ := (h.started hpids hmalloc (hfresh _ _ hmalloc hp)).1
    have hfreed := Kernel.kfree_sameRecords hfree
    exact h₁.same ⟨hfreed.pid, hfreed.next, hfreed.nextPid, hfreed.processList⟩
  | @noThread _ p k₁ k₂ _ vm _ hmalloc hp _ _ hthread hfree =>
    have h₁ := (h.started hpids hmalloc (hfresh _ _ hmalloc hp)).1
    have h₂ := (forkChild_sameRecords p k₁.vm.allocPage.1 vm k₁).trans
      (Kernel.threadCreateUser_sameRecords hthread)
    have hfreed := Kernel.kfree_sameRecords hfree
    exact h₁.same (h₂.trans ⟨hfreed.pid, hfreed.next, hfreed.nextPid, hfreed.processList⟩)
  | @done _ p t k₁ k₂ vm _ hmalloc hp _ _ hthread =>
    have hnot := hfresh _ _ hmalloc hp
    have h₂ := (forkChild_sameRecords p k₁.vm.allocPage.1 vm k₁).trans
      (Kernel.threadCreateUser_sameRecords hthread)
    exact ((h.started hpids hmalloc hnot).2.same h₂).link hnot h.sub (some t)

end Records

/-! ## Whole runs -/

/-- The kernel, with the processes that `sys_fork` made. -/
structure ProcTable extends HeapWorld where
  forked : List ProcPtr

/-- The kernel before its first `kmalloc`, with the variables of `proc.c` as they are
initialized. -/
structure ProcTable.Boot (w : ProcTable) : Prop where
  world : w.toHeapWorld.Boot
  nextPid : w.kernel.nextPid = 1
  processList : w.kernel.processList = none
  forked : w.forked = []

/-- The steps of `HeapWorld.Next`, with the processes that forks make. Where a number is taken,
there is one left. -/
inductive ProcTable.Next : Action ProcTable where
  | fork {w : ProcTable} {fuel : Nat} {r : Option ProcPtr} {k : Kernel}
      (hpids : w.kernel.nextPid + 1 < 2 ^ 64) (hcall : sysFork fuel w.kernel = some (r, k)) :
      Next w ⟨⟨⟨k, r.toList ++ w.procs⟩, w.blocks⟩, r.toList ++ w.forked⟩
  | load {w : ProcTable} {fuel size : Nat} {image : Nat → UInt8} {r : Option ProcPtr} {k : Kernel}
      (hpids : w.kernel.nextPid + 1 < 2 ^ 64)
      (hcall : elfLoad fuel image size w.kernel = some (r, k)) :
      Next w ⟨⟨⟨k, r.toList ++ w.procs⟩, w.blocks⟩, w.forked⟩
  | exec {w : ProcTable} {fuel size : Nat} {image : Nat → UInt8} {r : Bool} {k : Kernel}
      (hcall : sysExec fuel image size w.kernel = some (r, k)) :
      Next w ⟨⟨⟨k, w.procs⟩, w.blocks⟩, w.forked⟩
  | switch {w : ProcTable} (sched : Sched) (hcur : ∀ p ∈ sched.currentProcess, p ∈ w.procs) :
      Next w ⟨⟨⟨{ w.kernel with sched := sched }, w.procs⟩, w.blocks⟩, w.forked⟩
  | malloc {w : ProcTable} {fuel n p : Nat} {k : Kernel}
      (hcall : w.kernel.kmalloc fuel n = some (p, k)) :
      Next w ⟨⟨⟨k, w.procs⟩, if p = 0 then w.blocks else p :: w.blocks⟩, w.forked⟩
  | freeNull {w : ProcTable} {fuel : Nat} {k : Kernel} (hcall : w.kernel.kfree fuel 0 = some k) :
      Next w ⟨⟨⟨k, w.procs⟩, w.blocks⟩, w.forked⟩
  | free {w : ProcTable} {fuel p : Nat} {k : Kernel} (hp : p ∈ w.blocks)
      (hcall : w.kernel.kfree fuel p = some k) :
      Next w ⟨⟨⟨k, w.procs⟩, w.blocks.filter fun b => b ≠ p⟩, w.forked⟩
  | write {w : ProcTable} {p : Nat} {mem : ByteMem} (hp : p ∈ w.blocks)
      (hout : ∀ x, ¬ InPayload w.kernel.heap p x → mem x = w.kernel.heap.mem x) :
      Next w ⟨⟨⟨{ w.kernel with heap := { w.kernel.heap with mem := mem } }, w.procs⟩, w.blocks⟩,
        w.forked⟩

section Runs

variable {w w' : ProcTable}

/-- A record that is made is none of those in use. -/
theorem HeapWorld.Inv.fresh {w : HeapWorld} {fuel : Nat} {p : ProcPtr} {k₁ : Kernel} (h : w.Inv)
    (hmalloc : w.kernel.kmalloc fuel sizeofProcess = some (p, k₁)) (hp : p ≠ 0) : p ∉ w.procs := by
  rcases h with hboot | ⟨roots, live, hruns⟩
  · rw [hboot.procs]
    exact List.not_mem_nil
  · rcases hruns.shares.newRecord hmalloc hp with ⟨-, hnot, -⟩
    intro hmem
    exact hnot (hruns.shares.record p hmem)

structure ProcTable.Inv (w : ProcTable) : Prop where
  world : w.toHeapWorld.Inv
  records : Records w.kernel w.procs w.forked

theorem ProcTable.Boot.inv (h : w.Boot) : w.Inv := by
  refine ⟨.inl h.world, ?_⟩
  rw [h.world.procs, h.forked]
  constructor
  · exact List.Pairwise.nil
  · simp
  · exact h.processList
  · exact List.Sublist.slnil
  · rw [h.nextPid]
    omega

/-- Nothing but the list of forks is added to the steps. -/
theorem ProcTable.Next.world (h : w.Next w') : w.toHeapWorld.Next w'.toHeapWorld := by
  cases h with
  | @fork _ fuel r k _ hcall =>
    have hstep : w.toWorld.step (.fork fuel) = some ⟨k, r.toList ++ w.procs⟩ := by
      simp only [World.step, hcall]
      rfl
    exact .call _ hstep
  | @load _ fuel size image r k _ hcall =>
    have hstep : w.toWorld.step (.load fuel image size) = some ⟨k, r.toList ++ w.procs⟩ := by
      simp only [World.step, hcall]
      rfl
    exact .call _ hstep
  | @exec _ fuel size image r k hcall =>
    have hstep : w.toWorld.step (.exec fuel image size) = some ⟨k, w.procs⟩ := by
      simp only [World.step, hcall]
      rfl
    exact .call _ hstep
  | switch sched hcur =>
    have hstep : w.toWorld.step (.switch sched) =
        some ⟨{ w.kernel with sched := sched }, w.procs⟩ := if_pos hcur
    exact .call _ hstep
  | malloc hcall => exact .malloc hcall
  | freeNull hcall => exact .freeNull hcall
  | free hp hcall => exact .free hp hcall
  | write hp hout => exact .write hp hout

theorem ProcTable.Inv.step (h : w.Inv) (hnext : w.Next w') : w'.Inv := by
  refine ⟨h.world.step hnext.world, ?_⟩
  cases hnext with
  | fork hpids hcall => exact h.records.sysFork hpids (fun _ _ => h.world.fresh) hcall
  | load hpids hcall => exact h.records.elfLoad hpids (fun _ _ => h.world.fresh) hcall
  | exec hcall => exact h.records.same (sysExec_sameRecords hcall)
  | switch => exact h.records.same ⟨fun _ => rfl, fun _ => rfl, rfl, rfl⟩
  | malloc hcall => exact h.records.same (Kernel.kmalloc_sameRecords hcall)
  | freeNull hcall => exact h.records.same (Kernel.kfree_sameRecords hcall)
  | free _ hcall => exact h.records.same (Kernel.kfree_sameRecords hcall)
  | write => exact h.records.same ⟨fun _ => rfl, fun _ => rfl, rfl, rfl⟩

end Runs

/-- In every run, as long as there are numbers left: `process_list` is a list that ends, of
exactly the processes that `sys_fork` made, the newest first. Those that `elf_load` made are not
on it. All processes have positive numbers below the counter, later ones larger numbers. -/
theorem process_list_forks {w : ProcTable} (h : Reachable ProcTable.Boot ProcTable.Next w) :
    Chain (fun p => (w.kernel.procs p).next) w.kernel.processList w.forked ∧
      w.forked.Sublist w.procs ∧
      w.procs.Pairwise (fun p q => (w.kernel.procs q).pid < (w.kernel.procs p).pid) ∧
      ∀ p ∈ w.procs, 0 < (w.kernel.procs p).pid ∧ (w.kernel.procs p).pid < w.kernel.nextPid := by
  have hinv : w.Inv := h.invariant (fun _ hboot => hboot.inv) fun _ _ hnext hinv => hinv.step hnext
  exact ⟨hinv.records.list, hinv.records.sub, hinv.records.numbered, hinv.records.range⟩

/-- The first load of a kernel with free pages, and a fork of the process when it runs. -/
theorem load_fork_coldKernel {n : Nat} (hlo : 71 ≤ n) (hhi : n ≤ maxFreeList) : ∃ p k p' k',
    elfLoad 20 (fun _ => 0) 0 (coldKernel n) = some (some p, k) ∧
      sysFork 20 { k with sched := { k.sched with currentProcess := some p } } =
        some (some p', k') ∧ p' ≠ p := by
  rcases heapInit_pageRun (by omega : 64 ≤ n) hhi with ⟨hmapped, hspare⟩
  have hleft : (pageRun n).length ≤ (coldKernel n).withHeap.vm.free.length + 64 := hmapped.length
  have hfew : (coldKernel n).withHeap.vm.free.length ≤ maxFreeList :=
    hmapped.free.length_le.trans ((length_pageRun n).trans_le hhi)
  rw [length_pageRun] at hleft
  have hboot : World.Boot ⟨(coldKernel n).withHeap, []⟩ :=
    boot_of_wellFormed hmapped.wellFormed hfew rfl hspare.ready
  rcases hboot.inv with ⟨⟨D, E, live, htracks⟩, -⟩
  have habsent : child (coldKernel n).withHeap.vm.mem (coldKernel n).withHeap.kernelCr3 stackSlot =
      none := (hmapped.others stackSlot (by decide)).trans (child_zero _ _)
  have hfive : 5 ≤ (coldKernel n).withHeap.vm.free.length := by omega
  rcases elfLoad_empty htracks.spaces habsent hfive hspare (by decide)
    (by decide : 1 + 2 < 20) (fun _ => 0) with
    ⟨p, k, live', -, hload, honly, -, hcount, hspare', -⟩
  have hnext : World.NextApart ⟨(coldKernel n).withHeap, []⟩ ⟨k, [p]⟩ := by
    refine ⟨.load 20 (fun _ => 0) 0, habsent, ?_⟩
    simp only [World.step, hload]
    rfl
  rcases hboot.inv.step hnext with ⟨⟨D', E', live'', htracks'⟩, -⟩
  rw [← elfLoad_withHeap rfl] at hload
  -- the scheduler makes the process the current one
  have hrun : Tracks D' E' live'' { k with sched := { k.sched with currentProcess := some p } } [p] :=
    htracks'.congr rfl rfl rfl fun _ _ => rfl
  have hcount' : (coldKernel n).withHeap.vm.free.length = k.vm.free.length + 5 := hcount
  have hone : k.vm.free ≠ [] := List.ne_nil_of_length_pos (by omega)
  rcases sysFork_shares ⟨D', E', live'', hrun⟩ rfl ⟨honly.stack, honly.lower⟩ hone hspare'
    (by decide) (by decide : 1 + 3 + 2 < 20) with ⟨p', k', hfork, hne, -⟩
  exact ⟨p, k, p', k', hload, hfork, hne⟩

/-- A process is loaded and forks. Its child is on the list and has a larger number. -/
theorem process_list_forks_child : ∃ (w : ProcTable) (p p' : ProcPtr),
    Reachable ProcTable.Boot ProcTable.Next w ∧ w.procs = [p', p] ∧ p' ≠ p ∧
      w.kernel.processList = some p' ∧ (w.kernel.procs p').next = none ∧
      (w.kernel.procs p).pid < (w.kernel.procs p').pid := by
  rcases (⟨100, by decide, by decide⟩ : ∃ n, 71 ≤ n ∧ n ≤ maxFreeList) with ⟨n, hlo, hhi⟩
  rcases load_fork_coldKernel hlo hhi with ⟨p, k, p', k', hload, hfork, hne⟩
  have hboot : ProcTable.Boot ⟨⟨⟨coldKernel n, []⟩, []⟩, []⟩ :=
    ⟨boot_coldKernel (by omega) hhi, rfl, rfl, rfl⟩
  have hloaded := (Reachable.init hboot).step (ProcTable.Next.load (by decide : 1 + 1 < 2 ^ 64) hload)
  have hpids : k.nextPid + 1 < 2 ^ 64 := by
    rw [elfLoad_nextPid hload]
    exact (by decide : (1 + 1) % 2 ^ 64 + 1 < 2 ^ 64)
  have hrun := hloaded.step
    (ProcTable.Next.switch { k.sched with currentProcess := some p } (by simp))
  have hreach := hrun.step (ProcTable.Next.fork hpids hfork)
  rcases process_list_forks hreach with ⟨⟨hhead, hlast⟩, -, hnumbered, -⟩
  exact ⟨_, p, p', hreach, rfl, hne, hhead, hlast, (List.pairwise_cons.mp hnumbered).1 p (by simp)⟩

end Orchid
