import Orchid.Process.LoadSpace

/-! # Forking a process

A model of `fork_address_space` and `sys_fork` of `kernel/proc.c`, and what the
copy does to the page tables.

* The four nested loops of `fork_address_space` have one shape: for each present
  entry of the parent's table take a frame, fill it, store the child's entry,
  and go one level down. `forkEntry` is that body, `forkEntries` the loop.
* Below the PML4 the child's tables are cleared before they are filled in, so
  the copy hangs frames into empty slots of a tree of its own (`Copies`).
* The PML4 itself is not cleared. The slots of the user half that the parent
  does not use keep what the frame held before, and the upper half, with the
  slot of the user stack, is shared with the parent.
-/

namespace Orchid

open ByteMem Radix

/-! ## The functions -/

/-- `memset` of a new table. -/
def clearPage (_oldPhys newPhys : Nat) (mem : ByteMem) : ByteMem := fill mem newPhys 0 pageSize

/-- `memcpy` of a user page. -/
def copyPage (oldPhys newPhys : Nat) (mem : ByteMem) : ByteMem := copy mem newPhys oldPhys pageSize

/-- The body of a loop of `fork_address_space`, for entry `i` of the table
`parent`; the flag is `false` if it returned -1. The parent's entry is read
again after each store, as in the source. -/
def forkEntry (prepare : Nat → Nat → ByteMem → ByteMem) (below : Nat → Nat → Vm → Bool × Vm)
    (parent child i : Nat) (vm : Vm) : Bool × Vm :=
  if ¬ Present (read64 vm.mem (parent + 8 * i)) then (true, vm) else
  let oldPhys := entryGetAddr (read64 vm.mem (parent + 8 * i))
  let (newPhys, vm) := vm.allocPage
  if newPhys = 0 then (false, vm) else
  let mem := prepare oldPhys newPhys vm.mem
  let mem := write64 mem (child + 8 * i) ((read64 mem (parent + 8 * i) &&& 0xFFF) ||| newPhys)
  below (entryGetAddr (read64 mem (parent + 8 * i))) newPhys { vm with mem := mem }

/-- A loop of `fork_address_space`: `n` entries from `i` on. -/
def forkEntries (entry : Nat → Vm → Bool × Vm) : Nat → Nat → Vm → Bool × Vm
  | _, 0, vm => (true, vm)
  | i, n + 1, vm =>
    match entry i vm with
    | (false, vm) => (false, vm)
    | (true, vm) => forkEntries entry (i + 1) n vm

/-- The innermost loop: a page table and the pages it maps. -/
def forkPt (parentPt childPt : Nat) : Vm → Bool × Vm :=
  forkEntries (forkEntry copyPage (fun _ _ vm => (true, vm)) parentPt childPt) 0 512

/-- The loop over a page directory. -/
def forkPd (parentPd childPd : Nat) : Vm → Bool × Vm :=
  forkEntries (forkEntry clearPage forkPt parentPd childPd) 0 512

/-- The loop over a page directory pointer table. -/
def forkPdpt (parentPdpt childPdpt : Nat) : Vm → Bool × Vm :=
  forkEntries (forkEntry clearPage forkPd parentPdpt childPdpt) 0 512

/-- `fork_address_space`; the flag says whether it returned 0. -/
def forkAddressSpace (parentPml4 childPml4 : Nat) (vm : Vm) : Bool × Vm :=
  forkEntries (forkEntry clearPage forkPdpt parentPml4 childPml4) 0 256
    { vm with mem := copyWords vm.mem childPml4 parentPml4 256 256 }

/-- The end of `sys_fork`: the child's thread, and its place in the list of
processes. -/
def forkThread (fuel childPml4 : Nat) (proc : ProcPtr) (k : Kernel) :
    Option (Option ProcPtr × Kernel) :=
  match k.threadCreateUser fuel k.savedUserRip (userStackVaddr + pageSize) childPml4
    (some proc) with
  | none => none
  | some (none, k) =>
    ({ k with vm := k.vm.freePage childPml4 }.kfree fuel proc).map fun k => (none, k)
  | some (some t, k) =>
    let k := k.modifyProc proc fun p => { p with mainThread := some t, next := k.processList }
    some (some proc, { k with processList := some proc })

/-- `sys_fork` from its call of `pmm_alloc_page` on, for the child `proc` of
`cur`. -/
def forkProcess (fuel : Nat) (cur proc : ProcPtr) (k : Kernel) :
    Option (Option ProcPtr × Kernel) :=
  let (childPml4, vm) := k.vm.allocPage
  let k := { k with vm := vm }
  if childPml4 = 0 then (k.kfree fuel proc).map fun k => (none, k) else
  match forkAddressSpace (k.procs cur).pml4Phys childPml4 k.vm with
  | (false, vm) =>
    ({ k with vm := vm.freePage childPml4 }.kfree fuel proc).map fun k => (none, k)
  | (true, vm) =>
    forkThread fuel childPml4 proc
      ({ k with vm := vm }.modifyProc proc fun p => { p with pml4Phys := childPml4 })

/-- `sys_fork`: the process whose pid it returns, or `some none` for -1. -/
def sysFork (fuel : Nat) (k : Kernel) : Option (Option ProcPtr × Kernel) :=
  match k.sched.currentProcess with
  | none => some (none, k)
  | some cur =>
    match k.kmalloc fuel sizeofProcess with
    | none => none
    | some (proc, k) =>
      if proc = 0 then some (none, k) else
      let (pid, k) := procAllocPid k
      forkProcess fuel cur proc (k.modifyProc proc fun p => { p with pid := pid, next := none })

/-! ## The ways a fork ends -/

/-- The kernel when the child's address space is made. -/
def forkChild (p : ProcPtr) (childPml4 : Nat) (vm : Vm) (k : Kernel) : Kernel :=
  { newRecord p k with vm := vm }.modifyProc p fun r => { r with pml4Phys := childPml4 }

/-- The results of `sys_fork`, by the point at which it returns. -/
inductive ForkOutcome (fuel : Nat) (k : Kernel) : Option ProcPtr → Kernel → Prop where
  | noProcess (hcur : k.sched.currentProcess = none) : ForkOutcome fuel k none k
  | noRecord {cur : ProcPtr} {k₁ : Kernel} (hcur : k.sched.currentProcess = some cur)
      (hmalloc : k.kmalloc fuel sizeofProcess = some (0, k₁)) : ForkOutcome fuel k none k₁
  | noPml4 {cur p : ProcPtr} {k₁ k' : Kernel} (hcur : k.sched.currentProcess = some cur)
      (hmalloc : k.kmalloc fuel sizeofProcess = some (p, k₁)) (hp : p ≠ 0)
      (halloc : k₁.vm.allocPage.1 = 0)
      (hfree : { newRecord p k₁ with vm := k₁.vm.allocPage.2 }.kfree fuel p = some k') :
      ForkOutcome fuel k none k'
  | noSpace {cur p : ProcPtr} {k₁ k' : Kernel} {vm : Vm} (hcur : k.sched.currentProcess = some cur)
      (hmalloc : k.kmalloc fuel sizeofProcess = some (p, k₁)) (hp : p ≠ 0)
      (halloc : k₁.vm.allocPage.1 ≠ 0)
      (hspace : forkAddressSpace (k.procs cur).pml4Phys k₁.vm.allocPage.1 k₁.vm.allocPage.2 =
        (false, vm))
      (hfree : { newRecord p k₁ with vm := vm.freePage k₁.vm.allocPage.1 }.kfree fuel p =
        some k') : ForkOutcome fuel k none k'
  | noThread {cur p : ProcPtr} {k₁ k₂ k' : Kernel} {vm : Vm}
      (hcur : k.sched.currentProcess = some cur)
      (hmalloc : k.kmalloc fuel sizeofProcess = some (p, k₁)) (hp : p ≠ 0)
      (halloc : k₁.vm.allocPage.1 ≠ 0)
      (hspace : forkAddressSpace (k.procs cur).pml4Phys k₁.vm.allocPage.1 k₁.vm.allocPage.2 =
        (true, vm))
      (hthread : (forkChild p k₁.vm.allocPage.1 vm k₁).threadCreateUser fuel k₁.savedUserRip
        (userStackVaddr + pageSize) k₁.vm.allocPage.1 (some p) = some (none, k₂))
      (hfree : { k₂ with vm := k₂.vm.freePage k₁.vm.allocPage.1 }.kfree fuel p = some k') :
      ForkOutcome fuel k none k'
  | done {cur p : ProcPtr} {t : Tid} {k₁ k₂ : Kernel} {vm : Vm}
      (hcur : k.sched.currentProcess = some cur)
      (hmalloc : k.kmalloc fuel sizeofProcess = some (p, k₁)) (hp : p ≠ 0)
      (halloc : k₁.vm.allocPage.1 ≠ 0)
      (hspace : forkAddressSpace (k.procs cur).pml4Phys k₁.vm.allocPage.1 k₁.vm.allocPage.2 =
        (true, vm))
      (hthread : (forkChild p k₁.vm.allocPage.1 vm k₁).threadCreateUser fuel k₁.savedUserRip
        (userStackVaddr + pageSize) k₁.vm.allocPage.1 (some p) = some (some t, k₂)) :
      ForkOutcome fuel k (some p)
        { k₂.modifyProc p fun r => { r with mainThread := some t, next := k₂.processList } with
          processList := some p }

theorem sysFork_outcome {fuel : Nat} {k k' : Kernel} {r : Option ProcPtr}
    (hcall : sysFork fuel k = some (r, k')) : ForkOutcome fuel k r k' := by
  unfold sysFork at hcall
  split at hcall
  · next hcur =>
    cases hcall
    exact .noProcess hcur
  next cur hcur =>
  split at hcall
  · cases hcall
  next p k₁ hmalloc =>
  split at hcall
  · next hp =>
    subst hp
    cases hcall
    exact .noRecord hcur hmalloc
  next hp =>
  -- the parent's PML4 is read from the records as they are now
  have hparent : ((newRecord p k₁).procs cur).pml4Phys = (k.procs cur).pml4Phys := by
    rw [← Kernel.kmalloc_procs hmalloc]
    exact newRecord_pml4Phys p k₁ cur
  change forkProcess fuel cur p (newRecord p k₁) = some (r, k') at hcall
  have hvm : (newRecord p k₁).vm = k₁.vm := rfl
  unfold forkProcess at hcall
  simp only [hvm, hparent] at hcall
  split at hcall
  · next halloc =>
    rcases Option.map_eq_some_iff.mp hcall with ⟨k₂, hfree, heq⟩
    cases heq
    exact .noPml4 hcur hmalloc hp halloc hfree
  next halloc =>
  split at hcall
  · next vm hspace =>
    rcases Option.map_eq_some_iff.mp hcall with ⟨k₂, hfree, heq⟩
    cases heq
    exact .noSpace hcur hmalloc hp halloc hspace hfree
  next vm hspace =>
  change forkThread fuel _ p (forkChild p k₁.vm.allocPage.1 vm k₁) = some (r, k') at hcall
  unfold forkThread at hcall
  split at hcall
  · cases hcall
  · next k₂ hthread =>
    rcases Option.map_eq_some_iff.mp hcall with ⟨k₃, hfree, heq⟩
    cases heq
    exact .noThread hcur hmalloc hp halloc hspace hthread hfree
  · next t k₂ hthread =>
    cases hcall
    exact .done hcur hmalloc hp halloc hspace hthread

/-! ## One entry -/

section Entry

variable {K : Type} [DecidableEq K] {root : K → Nat} {D E : K → List (Fin 512) → Prop} {vm : Vm}
  {kp kc : K} {p : List (Fin 512)} {i : Fin 512} {P C c e : Nat} {rest : List Nat}

/-- The child's entry is the new frame with the parent's flags. -/
theorem forkedEntry_eq (hc : Aligned c) (hsmall : c < 2 ^ 52) (e : Nat) :
    (e &&& 0xFFF) ||| c = makeEntry c e := by
  have hmask : c &&& 0x000FFFFFFFFFF000 = c := by
    rw [show c &&& 0x000FFFFFFFFFF000 = c / 4096 % 2 ^ 40 * 4096 from Bits.and_mask c 12 40]
    unfold Aligned at hc
    omega
  rw [makeEntry, hmask, Nat.or_comm]

theorem clearPage_apply {old x : Nat} {mem : ByteMem} (hx : ¬ InPage c x) :
    clearPage old c mem x = mem x := by
  rw [clearPage, fill_apply]
  exact if_neg hx

theorem copyPage_apply {old x : Nat} {mem : ByteMem} (hx : ¬ InPage c x) :
    copyPage old c mem x = mem x := by
  refine copy_apply_of_outside ?_
  unfold InPage at hx
  simp only [pageSize]
  omega

theorem child_clearPage (old : Nat) (mem : ByteMem) (j : Fin 512) :
    child (clearPage old c mem) c j = none := by
  rw [child, clearPage, pte_fill]
  rfl

/-- What one round of a loop does: skip an empty entry, fail for want of a frame,
or fill the top of the free stack, store the entry for it and go on below. -/
theorem forkEntry_cases (prepare : Nat → Nat → ByteMem → ByteMem)
    (below : Nat → Nat → Vm → Bool × Vm)
    (hprepare : ∀ old c mem x, ¬ InPage c x → prepare old c mem x = mem x)
    (hok : FreeOk vm.free) (hP : Aligned P) (hC : Aligned C) (hPC : P ≠ C) (hPfree : P ∉ vm.free)
    (i : Fin 512) :
    (child vm.mem P i = none ∧ forkEntry prepare below P C i vm = (true, vm)) ∨
    (vm.free = [] ∧ forkEntry prepare below P C i vm = (false, vm)) ∨
    ∃ c rest old, vm.free = c :: rest ∧ child vm.mem P i = some old ∧
      decode (makeEntry c (pte vm.mem P i)) = some c ∧
      forkEntry prepare below P C i vm = below old c
        ⟨write64 (prepare old c vm.mem) (C + 8 * i.val) (makeEntry c (pte vm.mem P i)), rest⟩ := by
  unfold forkEntry
  by_cases hpres : Present (read64 vm.mem (P + 8 * i.val))
  swap
  · -- nothing to copy
    rw [if_pos hpres]
    exact Or.inl ⟨if_neg hpres, rfl⟩
  simp only [hpres, not_true_eq_false, if_false]
  cases hfree : vm.free with
  | nil =>
    rw [Vm.allocPage_of_nil hfree]
    exact Or.inr (Or.inl ⟨rfl, rfl⟩)
  | cons c rest =>
    have hcmem : c ∈ vm.free := mem_of_eq_cons hfree
    have hca := hok.aligned c hcmem
    have hPc : P ≠ c := by
      rintro rfl
      exact hPfree hcmem
    rw [Vm.allocPage_of_cons hfree]
    simp only [if_neg (hok.nonzero c hcmem)]
    -- the parent's entry is still there when it is read again
    have hread : read64 (prepare (entryGetAddr (read64 vm.mem (P + 8 * i.val))) c vm.mem)
        (P + 8 * i.val) = pte vm.mem P i := by
      exact pte_congr fun x hx => hprepare _ _ _ _ fun hxc => hPc (inPage_unique hP hca hx hxc)
    rw [hread, forkedEntry_eq hca (hok.small c hcmem)]
    have hread' : read64 (write64 (prepare (entryGetAddr (read64 vm.mem (P + 8 * i.val))) c vm.mem)
        (C + 8 * i.val) (makeEntry c (pte vm.mem P i))) (P + 8 * i.val) = pte vm.mem P i := by
      refine Eq.trans (pte_write64 (j := i) hC hP (makeEntry_lt _ _)) ?_
      rw [if_neg (fun h => hPC h.1)]
      exact hread
    rw [hread']
    refine Or.inr (Or.inr ⟨c, rest, _, rfl, if_pos hpres, ?_, rfl⟩)
    exact decode_makeEntry hca (hok.small c hcmem) ((present_iff _).mp hpres)

end Entry

/-! ## The levels below the PML4 -/

section Levels

variable {K : Type} [DecidableEq K] {root : K → Nat} {D E : K → List (Fin 512) → Prop}
  {vm vm₁ : Vm} {kp kc : K} {p q : List (Fin 512)} {i : Fin 512} {P C : Nat} {taken : List Nat}

/-- The paths through one of the slots from `i` on of the table at `p`. -/
def FromSlot (p : List (Fin 512)) (i : Nat) (q : List (Fin 512)) : Prop :=
  ∃ j : Fin 512, i ≤ j.val ∧ p ++ [j] <+: q

/-- `below` copies the subtree at path `p` of address space `kp` to an empty
table at the same path of `kc`: it builds on `kc` below `p`. -/
def Copies (root : K → Nat) (D E : K → List (Fin 512) → Prop) (kp kc : K) (p : List (Fin 512))
    (below : Nat → Nat → Vm → Bool × Vm) : Prop :=
  ∀ vm P C, Forest root D E vm → walk (child vm.mem) (root kp) p = some P →
    walk (child vm.mem) (root kc) p = some C → (∀ j, child vm.mem C j = none) →
    ∃ taken, Forest root D E (below P C vm).2 ∧
      Built root D kc (FromSlot p 0) vm (below P C vm).2 taken

/-- What the copy of one entry keeps: it builds below its own slot only. -/
structure EntryCopied (root : K → Nat) (D E : K → List (Fin 512) → Prop) (kc : K)
    (p : List (Fin 512)) (i : Fin 512) (vm vm' : Vm) : Prop where
  forest : Forest root D E vm'
  built : ∃ taken, Built root D kc (fun q => p ++ [i] <+: q) vm vm' taken

omit [DecidableEq K] in
theorem EntryCopied.refl (h : Forest root D E vm) : EntryCopied root D E kc p i vm vm :=
  ⟨h, [], .refl⟩

theorem concat_not_prefix_self (p : List (Fin 512)) (i : Fin 512) : ¬ p ++ [i] <+: p := by
  intro h
  have hlen := h.length_le
  rw [List.length_append, List.length_singleton] at hlen
  omega

omit [DecidableEq K] in
/-- The table itself and its other slots are as they were. -/
theorem EntryCopied.slots (h : EntryCopied root D E kc p i vm vm₁) (hp : D kc p)
    (hC : walk (child vm.mem) (root kc) p = some C) :
    walk (child vm₁.mem) (root kc) p = some C ∧
      ∀ j, j ≠ i → child vm₁.mem C j = child vm.mem C j := by
  obtain ⟨taken, hbuilt⟩ := h.built
  have hclosed := h.forest.tracked.closed kc
  have hsame : walk (child vm₁.mem) (root kc) p = some C := by
    rcases hbuilt.walks kc p (hclosed.below hp) with heq | ⟨-, hpre, -⟩
    · exact heq.trans hC
    · exact absurd hpre (concat_not_prefix_self p i)
  refine ⟨hsame, fun j hj => ?_⟩
  rw [← walk_concat hsame, ← walk_concat hC]
  rcases hbuilt.walks kc (p ++ [j]) (hclosed.below_concat hp) with heq | ⟨-, hpre, -⟩
  · exact heq
  · -- a path of the same length is another slot only if it is the same slot
    have heq := hpre.eq_of_length (by simp)
    exact absurd (List.singleton_inj.mp (List.append_cancel_left heq)).symm hj

omit [DecidableEq K] in
theorem EntryCopied.parent (h : EntryCopied root D E kc p i vm vm₁) (hne : kp ≠ kc) (hp : D kp q) :
    walk (child vm₁.mem) (root kp) q = walk (child vm.mem) (root kp) q := by
  obtain ⟨taken, hbuilt⟩ := h.built
  exact hbuilt.walk_other hne ((h.forest.tracked.closed kp).below hp)

omit [DecidableEq K] in
/-- A loop copies entry after entry. -/
theorem forkEntries_copies {entry : Nat → Vm → Bool × Vm} (hne : kp ≠ kc) (hpp : D kp p)
    (hpc : D kc p)
    (hentry : ∀ (i : Fin 512) vm, Forest root D E vm → walk (child vm.mem) (root kp) p = some P →
      walk (child vm.mem) (root kc) p = some C → child vm.mem C i = none →
      EntryCopied root D E kc p i vm (entry i vm).2)
    (n i : Nat) (hn : i + n ≤ 512) (vm : Vm) (h : Forest root D E vm)
    (hP : walk (child vm.mem) (root kp) p = some P) (hC : walk (child vm.mem) (root kc) p = some C)
    (hempty : ∀ j : Fin 512, i ≤ j.val → child vm.mem C j = none) :
    ∃ taken, Forest root D E (forkEntries entry i n vm).2 ∧
      Built root D kc (FromSlot p i) vm (forkEntries entry i n vm).2 taken := by
  induction n generalizing i vm with
  | zero => exact ⟨[], h, .refl⟩
  | succ n ih =>
    obtain ⟨j, hj⟩ : ∃ j : Fin 512, j.val = i := ⟨⟨i, by omega⟩, rfl⟩
    have hcopied := hentry j vm h hP hC (hempty j (by omega))
    rw [hj] at hcopied
    obtain ⟨taken, hbuilt⟩ := hcopied.built
    have hbuilt' : Built root D kc (FromSlot p i) vm (entry i vm).2 taken :=
      hbuilt.mono fun q hq => ⟨j, by omega, hq⟩
    obtain ⟨hC', hslots⟩ := hcopied.slots hpc hC
    have hP' := (hcopied.parent hne hpp).trans hP
    have hforest := hcopied.forest
    unfold forkEntries
    generalize entry i vm = r at hforest hbuilt' hC' hP' hslots ⊢
    obtain ⟨_ | _, vm₁⟩ := r
    · -- out of frames: the loop ends here
      exact ⟨taken, hforest, hbuilt'⟩
    · have hempty' : ∀ j' : Fin 512, i + 1 ≤ j'.val → child vm₁.mem C j' = none := by
        intro j' hj'
        have hne' : j' ≠ j := by
          rintro rfl
          omega
        rw [hslots j' hne']
        exact hempty j' (by omega)
      obtain ⟨taken', hforest', hrest⟩ := ih (i + 1) (by omega) vm₁ hforest hP' hC' hempty'
      refine ⟨taken ++ taken', hforest', hbuilt'.trans (h.tracked.closed kc) (hrest.mono ?_)⟩
      rintro q ⟨j', hj', hq⟩
      exact ⟨j', by omega, hq⟩

/-- One entry of a page table: the page is copied. -/
theorem forkEntry_page (hne : kp ≠ kc) (hpp : D kp p) (hpc : D kc p) (hleaf : ¬ D kc (p ++ [i]))
    (h : Forest root D E vm) (hP : walk (child vm.mem) (root kp) p = some P)
    (hC : walk (child vm.mem) (root kc) p = some C) :
    EntryCopied root D E kc p i vm
      (forkEntry copyPage (fun _ _ vm => (true, vm)) P C i vm).2 := by
  rcases forkEntry_cases copyPage (fun _ _ vm => (true, vm)) (fun _ _ _ _ hx => copyPage_apply hx)
    h.freeOk (walk_aligned (h.aligned kp) hP) (walk_aligned (h.aligned kc) hC)
    (h.ne_of_ne hne hpp hpc hP hC) (h.not_free hpp hP) i with
    ⟨-, heq⟩ | ⟨-, heq⟩ | ⟨c, rest, old, hfree, -, hd, heq⟩
  · rw [heq]
    exact .refl h
  · rw [heq]
    exact .refl h
  · rw [heq]
    obtain ⟨hforest, hbuilt⟩ := h.hangLeaf hfree (fun x hx => copyPage_apply hx) hpc hC hleaf
      (makeEntry_lt _ _) hd
    exact ⟨hforest, [c], hbuilt.mono fun q hq => hq ▸ List.prefix_refl _⟩

/-- One entry of an upper table: the table below it is copied. -/
theorem forkEntry_table {below : Nat → Nat → Vm → Bool × Vm} (hne : kp ≠ kc) (hpp : D kp p)
    (hpc : D kc p) (hip : D kp (p ++ [i])) (hbelow : Copies root D E kp kc (p ++ [i]) below)
    (h : Forest root D E vm) (hP : walk (child vm.mem) (root kp) p = some P)
    (hC : walk (child vm.mem) (root kc) p = some C) (hempty : child vm.mem C i = none) :
    EntryCopied root D E kc p i vm (forkEntry clearPage below P C i vm).2 := by
  rcases forkEntry_cases clearPage below (fun _ _ _ _ hx => clearPage_apply hx)
    h.freeOk (walk_aligned (h.aligned kp) hP) (walk_aligned (h.aligned kc) hC)
    (h.ne_of_ne hne hpp hpc hP hC) (h.not_free hpp hP) i with
    ⟨-, heq⟩ | ⟨-, heq⟩ | ⟨c, rest, old, hfree, hold, hd, heq⟩
  · rw [heq]
    exact .refl h
  · rw [heq]
    exact .refl h
  · rw [heq]
    obtain ⟨hforest, hbuilt, hnew, hnone⟩ := h.hangTable hfree
      (fun x hx => clearPage_apply hx) (child_clearPage old vm.mem) hpc hC hempty
      (makeEntry_lt c (pte vm.mem P i)) hd
    -- the parent's table below is still found where it was
    have hold' := hbuilt.walk_other hne ((h.tracked.closed kp).below hip)
    rw [walk_concat hP, hold] at hold'
    obtain ⟨taken, hforest', hbuilt'⟩ := hbelow _ old c hforest hold' hnew hnone
    refine ⟨hforest', _, (hbuilt.mono ?_).trans (h.tracked.closed kc) (hbuilt'.mono ?_)⟩
    · intro q hq
      exact hq ▸ List.prefix_refl _
    · rintro q ⟨j, -, hq⟩
      exact (List.prefix_append (p ++ [i]) [j]).trans hq

theorem copies_forkPt (hne : kp ≠ kc) (hpp : D kp p) (hpc : D kc p)
    (hleaf : ∀ i, ¬ D kc (p ++ [i])) : Copies root D E kp kc p forkPt := by
  intro vm P C h hP hC hempty
  refine forkEntries_copies hne hpp hpc ?_ 512 0 (Nat.le_refl _) vm h hP hC fun j _ => hempty j
  intro i vm h hP hC _
  exact forkEntry_page hne hpp hpc (hleaf i) h hP hC

theorem copies_table {below : Nat → Nat → Vm → Bool × Vm} (hne : kp ≠ kc) (hpp : D kp p)
    (hpc : D kc p) (hip : ∀ i, D kp (p ++ [i]))
    (hbelow : ∀ i, Copies root D E kp kc (p ++ [i]) below) :
    Copies root D E kp kc p
      (fun P C => forkEntries (forkEntry clearPage below P C) 0 512) := by
  intro vm P C h hP hC hempty
  refine forkEntries_copies hne hpp hpc ?_ 512 0 (Nat.le_refl _) vm h hP hC fun j _ => hempty j
  intro i vm h hP hC hslot
  exact forkEntry_table hne hpp hpc (hip i) (hbelow i) h hP hC hslot

/-- The three inner loops copy everything below one slot of the PML4. -/
theorem copies_forkPdpt (hne : kp ≠ kc) (htp : ∀ q, q.length ≤ 2 → D kp (i :: q))
    (htc : ∀ q, q.length ≤ 2 → D kc (i :: q)) (hshort : ∀ q, D kc q → q.length ≤ 3) :
    Copies root D E kp kc [i] forkPdpt := by
  refine copies_table hne (htp [] (by simp)) (htc [] (by simp)) (fun j => htp [j] (by simp)) ?_
  intro j
  refine copies_table hne (htp [j] (by simp)) (htc [j] (by simp)) (fun l => htp [j, l] (by simp)) ?_
  intro l
  refine copies_forkPt hne (htp [j, l] (by simp)) (htc [j, l] (by simp)) ?_
  intro m hm
  exact absurd (hshort _ hm) (by simp)

end Levels

/-! ## The PML4 -/

section Root

variable {K : Type} [DecidableEq K] {root : K → Nat} {D E : K → List (Fin 512) → Prop}
  {vm₀ vm : Vm} {kp kc : K} {T : Fin 512 → Prop} {i : Nat}

/-- The slots of `T` that belong to the child's tree when the loop is at `i`:
those that are done, and those that the parent does not use. -/
def ForkSlots (mem : ByteMem) (parentPml4 : Nat) (T : Fin 512 → Prop) (i : Nat) (j : Fin 512) :
    Prop :=
  T j ∧ (j.val < i ∨ child mem parentPml4 j = none)

/-- The outer loop of `fork_address_space`, started in `vm₀`, before entry `i`. -/
structure RootLoop (root : K → Nat) (D E : K → List (Fin 512) → Prop) (kp kc : K)
    (T : Fin 512 → Prop) (vm₀ : Vm) (i : Nat) (vm : Vm) : Prop where
  forest : Forest root (WithTree D kc (ForkSlots vm₀.mem (root kp) T i) 3)
    (WithTree E kc (ForkSlots vm₀.mem (root kp) T i) 4) vm
  others : ∀ k q, k ≠ kc → Below (D k) q →
    walk (child vm.mem) (root k) q = walk (child vm₀.mem) (root k) q
  upper : ∀ j : Fin 512, 256 ≤ j.val → child vm.mem (root kc) j = child vm₀.mem (root kc) j
  free : vm.free <:+ vm₀.free

/-- The two address spaces of a fork: the user half of the parent is tracked,
and nothing of the child was before. -/
structure ForkPair (D E : K → List (Fin 512) → Prop) (kp kc : K) : Prop where
  ne : kp ≠ kc
  parent : ∀ q, SlotPath (fun j => j.val < 256) 3 q → D kp q
  childD : ∀ q, ¬ D kc q
  childE : ∀ q, ¬ E kc q

omit [DecidableEq K] in
theorem withTree_child (hpair : ForkPair D E kp kc) {S : Fin 512 → Prop} {len : Nat}
    {q : List (Fin 512)} : WithTree D kc S len kc q ↔ SlotPath S len q := by
  unfold WithTree
  constructor
  · rintro (h | ⟨-, h⟩)
    · exact absurd h (hpair.childD q)
    · exact h
  · exact fun h => Or.inr ⟨rfl, h⟩

omit [DecidableEq K] in
theorem below_withTree {k : K} {S : Fin 512 → Prop} {len : Nat}
    {q : List (Fin 512)} (h : Below (D k) q) : Below (WithTree D kc S len k) q :=
  fun p j q' heq => Or.inl (h p j q' heq)

omit [DecidableEq K] in
/-- An entry that the parent does not use is skipped. -/
theorem RootLoop.skip (h : RootLoop root D E kp kc T vm₀ i vm)
    (hnone : ∀ j : Fin 512, j.val = i → child vm₀.mem (root kp) j = none) :
    RootLoop root D E kp kc T vm₀ (i + 1) vm := by
  have hslots : ForkSlots vm₀.mem (root kp) T (i + 1) =
      ForkSlots vm₀.mem (root kp) T i := by
    funext j
    refine propext ⟨?_, ?_⟩
    · rintro ⟨hTj, hj | hj⟩
      · rcases Nat.lt_succ_iff_lt_or_eq.mp hj with hj | hj
        · exact ⟨hTj, Or.inl hj⟩
        · exact ⟨hTj, Or.inr (hnone j hj)⟩
      · exact ⟨hTj, Or.inr hj⟩
    · rintro ⟨hTj, hj | hj⟩
      · exact ⟨hTj, Or.inl (by omega)⟩
      · exact ⟨hTj, Or.inr hj⟩
  refine ⟨?_, h.others, h.upper, h.free⟩
  rw [hslots]
  exact h.forest

/-- An entry that is copied is overwritten without being read. -/
theorem forkEntry_overwrites (below : Nat → Nat → Vm → Bool × Vm) {P C c : Nat} {rest : List Nat}
    {j : Fin 512} (hP : Aligned P) (hC : Aligned C) (hPC : P ≠ C)
    (hpres : Present (pte vm.mem P j)) (hfree : vm.free = c :: rest) (hc : c ≠ 0) :
    forkEntry clearPage below P C j vm =
      forkEntry clearPage below P C j { vm with mem := write64 vm.mem (C + 8 * j.val) 0 } := by
  have hout : ∀ n < 8, P + 8 * j.val + n < C + 8 * j.val ∨ C + 8 * j.val + 8 ≤ P + 8 * j.val + n := by
    have hj := j.isLt
    unfold Aligned at hP hC
    omega
  have hread : read64 (write64 vm.mem (C + 8 * j.val) 0) (P + 8 * j.val) = pte vm.mem P j :=
    read64_congr fun n hn => write64_apply_of_outside (hout n hn)
  -- clearing the new table does not bring the old entry back
  have hclear : ∀ old x, (x < C + 8 * j.val ∨ C + 8 * j.val + 8 ≤ x) →
      clearPage old c (write64 vm.mem (C + 8 * j.val) 0) x = clearPage old c vm.mem x := by
    intro old x hx
    simp only [clearPage, fill_apply, write64_apply_of_outside hx]
  have hread' : ∀ old, read64 (clearPage old c (write64 vm.mem (C + 8 * j.val) 0)) (P + 8 * j.val) =
      read64 (clearPage old c vm.mem) (P + 8 * j.val) :=
    fun old => read64_congr fun n hn => hclear old _ (hout n hn)
  have hpres' : Present (read64 vm.mem (P + 8 * j.val)) := hpres
  simp only [forkEntry, hread, hpres', Vm.allocPage, hfree, pmmAllocPage, if_neg hc, hread',
    not_true_eq_false, if_false, pte]
  rw [write64_congr (hclear _)]

omit [DecidableEq K] in
/-- The parent's slots are as they were at the start. -/
theorem RootLoop.parent_slot (h : RootLoop root D E kp kc T vm₀ i vm) (ht : Tracked D E)
    (hpair : ForkPair D E kp kc) {j : Fin 512} (hj : j.val < 256) :
    child vm.mem (root kp) j = child vm₀.mem (root kp) j := by
  have hbelow : Below (D kp) [j] :=
    (ht.closed kp).below (hpair.parent [j] (slotPath_cons.mpr ⟨by simp, hj⟩))
  have hsame := h.others kp [j] hpair.ne hbelow
  rw [walk_singleton, walk_singleton] at hsame
  exact hsame

theorem child_clearSlot {mem : ByteMem} {C : Nat} (hC : Aligned C) (j l : Fin 512) :
    child (write64 mem (C + 8 * j.val) 0) C l = if l = j then none else child mem C l := by
  rw [child_write64 hC hC (by decide), Radix.set]
  simp only [true_and]
  rfl

omit [DecidableEq K] in
/-- With the old entry cleared, slot `i` of the child can be tracked. -/
theorem RootLoop.openSlot (h : RootLoop root D E kp kc T vm₀ i vm) (ht : Tracked D E)
    (hpair : ForkPair D E kp kc) {j : Fin 512} (hj : j.val = i)
    (hone : child vm₀.mem (root kp) j ≠ none) :
    Forest root (WithTree D kc (ForkSlots vm₀.mem (root kp) T (i + 1)) 3)
      (WithTree E kc (ForkSlots vm₀.mem (root kp) T (i + 1)) 4)
      { vm with mem := write64 vm.mem (root kc + 8 * j.val) 0 } := by
  have hclear : Forest root (WithTree D kc (ForkSlots vm₀.mem (root kp) T i) 3)
      (WithTree E kc (ForkSlots vm₀.mem (root kp) T i) 4)
      { vm with mem := write64 vm.mem (root kc + 8 * j.val) 0 } := by
    refine h.forest.storeUntracked (p := []) (Or.inr ⟨rfl, slotPath_nil _ _⟩) rfl ?_ (by decide)
    rintro q (hq | ⟨-, hq⟩) hpre
    · exact hpair.childE q hq
    · rcases hpre with ⟨q', rfl⟩
      rcases (slotPath_cons.mp hq).2 with ⟨-, hlt | hnone⟩
      · omega
      · exact hone hnone
  refine hclear.retrack (tracked_withTree ht kc _) ?_
  rintro k q (hq | ⟨rfl, hq⟩)
  · exact Or.inl (Or.inl hq)
  cases q with
  | nil => exact Or.inl (Or.inr ⟨rfl, slotPath_nil _ _⟩)
  | cons l q =>
    rcases slotPath_cons.mp hq with ⟨hlen, hlt, hslot⟩
    by_cases hlj : l = j
    · rw [walk_cons, child_clearSlot (h.forest.aligned _), if_pos hlj]
      exact Or.inr rfl
    · have hne : l.val ≠ i := fun heq => hlj (Fin.ext (heq.trans hj.symm))
      refine Or.inl (Or.inr ⟨rfl, slotPath_cons.mpr ⟨hlen, hlt, ?_⟩⟩)
      exact hslot.imp_left (by omega)

/-- An entry that the parent uses is copied. -/
theorem RootLoop.copy (h : RootLoop root D E kp kc T vm₀ i vm) (ht : Tracked D E)
    (hpair : ForkPair D E kp kc) (hi : i < 256)
    (hT : ∀ j : Fin 512, j.val < 256 → child vm₀.mem (root kp) j ≠ none → T j) {j : Fin 512}
    (hj : j.val = i) (hpres : child vm.mem (root kp) j ≠ none) (hfree : vm.free ≠ []) :
    RootLoop root D E kp kc T vm₀ (i + 1)
      (forkEntry clearPage forkPdpt (root kp) (root kc) i vm).2 := by
  have hpc := h.forest.aligned kc
  have hroots : root kp ≠ root kc := h.forest.ne_of_ne (p := []) (q := []) hpair.ne
    (Or.inl (hpair.parent [] (slotPath_nil _ _))) (Or.inr ⟨rfl, slotPath_nil _ _⟩) rfl rfl
  have hone : child vm₀.mem (root kp) j ≠ none := by
    rw [← h.parent_slot ht hpair (by omega : j.val < 256)]
    exact hpres
  obtain ⟨c, rest, hcons⟩ := List.exists_cons_of_ne_nil hfree
  have hc0 := h.forest.freeOk.nonzero c (mem_of_eq_cons hcons)
  have hpresent : Present (pte vm.mem (root kp) j) := by
    by_contra hno
    exact hpres (if_neg hno)
  have hover : forkEntry clearPage forkPdpt (root kp) (root kc) i vm =
      forkEntry clearPage forkPdpt (root kp) (root kc) j
        { vm with mem := write64 vm.mem (root kc + 8 * j.val) 0 } := by
    rw [← hj]
    exact forkEntry_overwrites forkPdpt (h.forest.aligned kp) hpc hroots hpresent hcons hc0
  rw [hover]
  have hroot : WithTree D kc (ForkSlots vm₀.mem (root kp) T i) 3 kc [] :=
    Or.inr ⟨rfl, slotPath_nil _ _⟩
  have hzero : ∀ l, child (write64 vm.mem (root kc + 8 * j.val) 0) (root kc) l =
      if l = j then none else child vm.mem (root kc) l := child_clearSlot hpc j
  have hnext := h.openSlot ht hpair hj hone
  have hcopies : Copies root (WithTree D kc (ForkSlots vm₀.mem (root kp) T (i + 1)) 3)
      (WithTree E kc (ForkSlots vm₀.mem (root kp) T (i + 1)) 4) kp kc [j] forkPdpt := by
    refine copies_forkPdpt hpair.ne ?_ ?_ ?_
    · intro q hq
      exact Or.inl (hpair.parent _ (slotPath_cons.mpr ⟨by omega, by omega⟩))
    · intro q hq
      exact Or.inr ⟨rfl, slotPath_cons.mpr ⟨by omega, hT j (by omega) hone, Or.inl (by omega)⟩⟩
    · intro q hq
      exact ((withTree_child hpair).mp hq).1
  have hcopied := forkEntry_table (p := []) (i := j) hpair.ne
    (Or.inl (hpair.parent [] (slotPath_nil _ _))) (Or.inr ⟨rfl, slotPath_nil _ _⟩)
    (Or.inl (hpair.parent [j] (slotPath_cons.mpr ⟨by simp, by omega⟩))) hcopies hnext rfl rfl
    (by rw [hzero j, if_pos rfl])
  generalize (forkEntry clearPage forkPdpt (root kp) (root kc) j
    { vm with mem := write64 vm.mem (root kc + 8 * j.val) 0 }).2 = vm' at hcopied ⊢
  obtain ⟨taken, hbuilt⟩ := hcopied.built
  refine ⟨hcopied.forest, ?_, ?_, ?_⟩
  · intro k q hk hq
    rw [hbuilt.walk_other hk (below_withTree hq), ← h.others k q hk hq]
    -- a store into a table of the child
    rw [walk_write64 (h.forest.aligned k) (h.forest.aligned kc) (by decide)]
    exact walk_set_elsewhere (p := []) h.forest.distinctTables hroot rfl (below_withTree hq)
      (fun heq => hk heq.1) _
  · intro l hl
    have hlj : l ≠ j := by
      rintro rfl
      omega
    rw [← h.upper l hl, (hcopied.slots (Or.inr ⟨rfl, slotPath_nil _ _⟩) rfl).2 l hlj]
    exact (hzero l).trans (if_neg hlj)
  · exact List.IsSuffix.trans ⟨taken, hbuilt.free.symm⟩ h.free

/-- One round of the outer loop. -/
theorem RootLoop.step (h : RootLoop root D E kp kc T vm₀ i vm) (ht : Tracked D E)
    (hpair : ForkPair D E kp kc) (hi : i < 256)
    (hT : ∀ j : Fin 512, j.val < 256 → child vm₀.mem (root kp) j ≠ none → T j) :
    ∃ i' ≤ i + 1, RootLoop root D E kp kc T vm₀ i'
        (forkEntry clearPage forkPdpt (root kp) (root kc) i vm).2 ∧
      ((forkEntry clearPage forkPdpt (root kp) (root kc) i vm).1 = true → i' = i + 1) := by
  obtain ⟨j, hj⟩ : ∃ j : Fin 512, j.val = i := ⟨⟨i, by omega⟩, rfl⟩
  have hD : ∀ k, WithTree D kc (ForkSlots vm₀.mem (root kp) T i) 3 k [] → root k ∉ vm.free :=
    fun k hk => h.forest.not_free (p := []) hk rfl
  have hpp : WithTree D kc (ForkSlots vm₀.mem (root kp) T i) 3 kp [] :=
    Or.inl (hpair.parent [] (slotPath_nil _ _))
  have hpc : WithTree D kc (ForkSlots vm₀.mem (root kp) T i) 3 kc [] :=
    Or.inr ⟨rfl, slotPath_nil _ _⟩
  have hroots : root kp ≠ root kc :=
    h.forest.ne_of_ne (p := []) (q := []) hpair.ne hpp hpc rfl rfl
  rcases forkEntry_cases clearPage forkPdpt (fun _ _ _ _ hx => clearPage_apply hx) h.forest.freeOk
    (h.forest.aligned kp) (h.forest.aligned kc) hroots (hD kp hpp) j with
    ⟨hnone, heq⟩ | ⟨-, heq⟩ | ⟨c, rest, old, hfree, hold, -, -⟩
  · -- the parent has nothing here
    rw [hj] at heq
    rw [heq]
    refine ⟨i + 1, Nat.le_refl _, h.skip ?_, fun _ => rfl⟩
    intro j' hj'
    obtain rfl : j' = j := Fin.ext (hj'.trans hj.symm)
    rw [← h.parent_slot ht hpair (by omega : j'.val < 256)]
    exact hnone
  · -- no frame: nothing happened yet
    rw [hj] at heq
    rw [heq]
    exact ⟨i, by omega, h, fun hfalse => by cases hfalse⟩
  · refine ⟨i + 1, Nat.le_refl _, h.copy ht hpair hi hT hj ?_ ?_, fun _ => rfl⟩
    · rw [hold]
      simp
    · rw [hfree]
      simp

/-- The outer loop. -/
theorem RootLoop.run (h : RootLoop root D E kp kc T vm₀ i vm) (ht : Tracked D E)
    (hpair : ForkPair D E kp kc)
    (hT : ∀ j : Fin 512, j.val < 256 → child vm₀.mem (root kp) j ≠ none → T j)
    (n : Nat) (hn : i + n = 256) :
    ∃ i' ≤ 256, RootLoop root D E kp kc T vm₀ i'
        (forkEntries (forkEntry clearPage forkPdpt (root kp) (root kc)) i n vm).2 ∧
      ((forkEntries (forkEntry clearPage forkPdpt (root kp) (root kc)) i n vm).1 = true →
        i' = 256) := by
  induction n generalizing i vm with
  | zero => exact ⟨i, by omega, h, fun _ => by omega⟩
  | succ n ih =>
    obtain ⟨i', hi', hloop, hflag⟩ := h.step ht hpair (by omega) hT
    unfold forkEntries
    generalize forkEntry clearPage forkPdpt (root kp) (root kc) i vm = r at hloop hflag ⊢
    obtain ⟨_ | _, vm₁⟩ := r
    · exact ⟨i', by omega, hloop, fun hfalse => by cases hfalse⟩
    · obtain rfl := hflag rfl
      exact ih hloop (by omega)

end Root

/-! ## The whole copy -/

section Whole

variable {K : Type} [DecidableEq K] {root : K → Nat} {D E : K → List (Fin 512) → Prop} {vm : Vm}
  {kp kc : K} {T : Fin 512 → Prop} {rest : List Nat}

/-- What `fork_address_space` leaves behind: the child's tree at the slots `S`,
the parent's and all other trees as they were, the upper half shared. -/
structure Forked (root : K → Nat) (D E : K → List (Fin 512) → Prop) (kp kc : K)
    (S : Fin 512 → Prop) (vm vm' : Vm) : Prop where
  forest : Forest root (WithTree D kc S 3) (WithTree E kc S 4) vm'
  others : ∀ k q, k ≠ kc → Below (D k) q →
    walk (child vm'.mem) (root k) q = walk (child vm.mem) (root k) q
  upper : ∀ j : Fin 512, 256 ≤ j.val → child vm'.mem (root kc) j = child vm.mem (root kp) j
  free : vm'.free.length < vm.free.length

/-- The outer loop, started in a memory `mem` in which the upper half of the
child's PML4 is the parent's. -/
theorem Forest.forkLoop (h : Forest root D E vm) (hpair : ForkPair D E kp kc)
    (hfree : vm.free = root kc :: rest) {mem : ByteMem}
    (hout : ∀ x, ¬ InPage (root kc) x → mem x = vm.mem x)
    (hupper : ∀ j : Fin 512, 256 ≤ j.val → child mem (root kc) j = child vm.mem (root kp) j)
    (hparent : ∀ j, child mem (root kp) j = child vm.mem (root kp) j)
    (hT : ∀ j : Fin 512, j.val < 256 → child vm.mem (root kp) j ≠ none → T j)
    (hempty : ∀ j, T j → child vm.mem (root kp) j = none → child mem (root kc) j = none)
    (hshared : ∀ j : Fin 512, 256 ≤ j.val → T j → child vm.mem (root kp) j = none)
    {r : Bool × Vm}
    (hr : forkEntries (forkEntry clearPage forkPdpt (root kp) (root kc)) 0 256 ⟨mem, rest⟩ = r) :
    ∃ S, Forked root D E kp kc S vm r.2 ∧ (r.1 = true → ∀ j, T j → S j) := by
  have hmem : root kc ∈ vm.free := by
    rw [hfree]
    exact List.mem_cons_self
  -- before the loop the child has the slots that the parent does not use
  have hstart : RootLoop root D E kp kc T ⟨mem, rest⟩ 0 ⟨mem, rest⟩ := by
    refine ⟨h.newRoot hfree hout ?_, fun _ _ _ _ => rfl, fun _ _ => rfl, List.suffix_refl _⟩
    rintro j ⟨hTj, hj | hj⟩
    · omega
    · exact hempty j hTj ((hparent j).symm.trans hj)
  have hT' : ∀ j : Fin 512, j.val < 256 → child mem (root kp) j ≠ none → T j := by
    intro j hj
    rw [hparent j]
    exact hT j hj
  obtain ⟨i, -, hloop, hflag⟩ := hstart.run h.tracked hpair hT' 256 rfl
  rw [hr] at hloop hflag
  refine ⟨_, ⟨hloop.forest, ?_, ?_, ?_⟩, ?_⟩
  · intro k q hk hq
    rw [hloop.others k q hk hq]
    exact h.walk_scribble (h.freshTables hmem) (h.aligned kc) hout hq
  · intro j hj
    exact (hloop.upper j hj).trans (hupper j hj)
  · have hlen := hloop.free.length_le
    rw [hfree, List.length_cons]
    exact Nat.lt_succ_of_le hlen
  · intro htrue j hj
    obtain rfl := hflag htrue
    rcases Nat.lt_or_ge j.val 256 with hlow | hhigh
    · exact ⟨hj, Or.inl hlow⟩
    · exact ⟨hj, Or.inr ((hparent j).trans (hshared j hhigh hj))⟩

/-- `fork_address_space` on a PML4 just taken from the free stack. The slots `T`
become the child's own, if they are empty before wherever the parent's are: the
lower ones in the frame that was taken, the upper ones as they are copied. -/
theorem Forest.fork (h : Forest root D E vm) (hpair : ForkPair D E kp kc)
    (hfree : vm.free = root kc :: rest)
    (hT : ∀ j : Fin 512, j.val < 256 → child vm.mem (root kp) j ≠ none → T j)
    (hshared : ∀ j : Fin 512, 256 ≤ j.val → T j → child vm.mem (root kp) j = none)
    (hclean : ∀ j : Fin 512, j.val < 256 → T j → child vm.mem (root kp) j = none →
      child vm.mem (root kc) j = none) :
    ∃ S, Forked root D E kp kc S vm (forkAddressSpace (root kp) (root kc) ⟨vm.mem, rest⟩).2 ∧
      ((forkAddressSpace (root kp) (root kc) ⟨vm.mem, rest⟩).1 = true → ∀ j, T j → S j) := by
  have hroots : root kp ≠ root kc := by
    intro heq
    refine h.not_free (p := []) (hpair.parent [] (slotPath_nil _ _)) rfl ?_
    rw [hfree, heq]
    exact List.mem_cons_self
  have ha := h.aligned kp
  have ha' := h.aligned kc
  have hout : ∀ x, ¬ InPage (root kc) x →
      copyWords vm.mem (root kc) (root kp) 256 256 x = vm.mem x := fun _ => copyUpper_apply
  refine h.forkLoop hpair hfree hout (fun j hj => child_copyWords_upper ha ha' hroots hj) ?_ hT ?_
    hshared rfl
  · intro j
    exact child_congr fun x hx => hout x fun hxc => hroots (inPage_unique ha ha' hx hxc)
  · intro j hTj hj
    rcases Nat.lt_or_ge j.val 256 with hlow | hhigh
    · rw [child_copyWords_lower hlow]
      exact hclean j hlow hTj hj
    · rw [child_copyWords_upper ha ha' hroots hhigh]
      exact hj

/-- A parent with an empty user half: there is nothing to copy but the upper half. -/
theorem forkAddressSpace_of_empty {P C : Nat} (hP : Aligned P) (hC : Aligned C)
    (hempty : ∀ j : Fin 512, j.val < 256 → child vm.mem P j = none) :
    forkAddressSpace P C vm = (true, { vm with mem := copyWords vm.mem C P 256 256 }) := by
  have hskip : ∀ j : Fin 512, j.val < 256 → forkEntry clearPage forkPdpt P C j
      { vm with mem := copyWords vm.mem C P 256 256 } =
        (true, { vm with mem := copyWords vm.mem C P 256 256 }) := by
    intro j hj
    have hread : read64 (copyWords vm.mem C P 256 256) (P + 8 * j.val) = pte vm.mem P j := by
      refine read64_congr fun n hn => copyWords_apply_of_outside ?_
      unfold Aligned at hP hC
      omega
    have habsent : ¬ Present (read64 vm.mem (P + 8 * j.val)) :=
      not_present_of_child_none (hempty j hj)
    simp only [forkEntry, hread]
    exact if_pos habsent
  have hloop : ∀ n i, i + n ≤ 256 → forkEntries (forkEntry clearPage forkPdpt P C) i n
      { vm with mem := copyWords vm.mem C P 256 256 } =
        (true, { vm with mem := copyWords vm.mem C P 256 256 }) := by
    intro n
    induction n with
    | zero => exact fun i _ => rfl
    | succ n ih =>
      intro i hi
      rw [forkEntries, hskip ⟨i, by omega⟩ (by show i < 256; omega)]
      exact ih (i + 1) (by omega)
  exact hloop 256 0 (Nat.le_refl _)

end Whole

/-! ## With room in the heap -/

section Spare

open HeapState

variable {k : Kernel} {live : List (Nat × Nat)} {fuel m len c : Nat} {cur : ProcPtr} {vm : Vm}
  {rest : List Nat}

/-- With a copy of the address space and room in the heap `sys_fork` succeeds. -/
theorem sysFork_of_spare (hcur : k.sched.currentProcess = some cur)
    (hfree : k.vm.free = c :: rest) (hc : c ≠ 0)
    (hfork : forkAddressSpace (k.procs cur).pml4Phys c ⟨k.vm.mem, rest⟩ = (true, vm))
    (hlen : vm.free.length ≤ rest.length) (hs : (k.heapState live).Spare m len)
    (hm : sizeofProcess + headerSize + Kernel.threadRoom + 8 ≤ m) (hfuel : len + 2 < fuel) :
    ∃ p k', (∃ k₁, k.kmalloc fuel sizeofProcess = some (p, k₁) ∧ p ≠ 0) ∧
      sysFork fuel k = some (some p, k') ∧ (k'.procs p).pml4Phys = c ∧ k'.vm = vm ∧
      ∀ q, q ≠ p → k'.procs q = k.procs q := by
  have hsize : roundUp sizeofProcess = sizeofProcess := by decide
  have hroom : 0 < Kernel.threadRoom := by decide
  obtain ⟨p, k₁, h₁, hp, hk₁, hs₁⟩ := Kernel.kmalloc_of_spare hs sizeofProcess (by decide)
    (by omega) (by omega : len < fuel)
  rw [hsize] at hs₁
  have hvm₁ : k₁.vm = k.vm := by rw [hk₁]
  have hprocs₁ : k₁.procs = k.procs := by rw [hk₁]
  -- the record, with the child's PML4 in it
  set k₂ := (procAllocPid k₁).2.modifyProc p fun q =>
    { q with pid := (procAllocPid k₁).1, next := none } with hk₂
  set k₃ := { k₂ with vm := vm }.modifyProc p fun q => { q with pml4Phys := c } with hk₃
  have hspare₃ : (k₃.heapState ((p, sizeofProcess) :: live)).Spare (m - sizeofProcess - headerSize)
      (len + 1) := by
    obtain ⟨hinit, hroom₁, hbs⟩ := hs₁
    refine ⟨hinit, ?_, hbs⟩
    have hroom₁' : HasRoom k₁.heap k₁.vm := hroom₁
    refine hroom₁'.mono ?_
    rw [hvm₁, hfree, List.length_cons]
    exact hlen.trans (Nat.le_succ _)
  obtain ⟨t, k₄, live', hthread, hk₄, -⟩ := Kernel.threadCreateUser_of_spare k₃.savedUserRip
    (userStackVaddr + pageSize) c (some p) hspare₃ (by omega) (by omega : len + 1 + 1 < fuel)
  have hparent : (k₂.procs cur).pml4Phys = (k.procs cur).pml4Phys := by
    rw [← hprocs₁]
    exact newRecord_pml4Phys p k₁ cur
  set k₅ := { k₄.modifyProc p fun q => { q with mainThread := some t, next := k₄.processList } with
    processList := some p } with hk₅
  have hend : forkThread fuel c p k₃ = some (some p, k₅) := by
    simp only [forkThread, hthread]
    rfl
  have hprocess : forkProcess fuel cur p k₂ = some (some p, k₅) := by
    have halloc : k₂.vm.allocPage = (c, ⟨k.vm.mem, rest⟩) := by
      show k₁.vm.allocPage = _
      rw [hvm₁]
      exact Vm.allocPage_of_cons hfree
    simp only [forkProcess, halloc, if_neg hc, hparent, hfork]
    exact hend
  refine ⟨p, k₅, ⟨k₁, h₁, hp⟩, ?_, ?_, ?_, ?_⟩
  · simp only [sysFork, hcur, h₁, if_neg hp]
    exact hprocess
  · rw [hk₅, hk₄]
    simp [Kernel.modifyProc, hk₃]
  · show k₄.vm = vm
    rw [hk₄]
    rfl
  · intro q hq
    rw [hk₅, hk₄]
    simp [Kernel.modifyProc, hk₃, hk₂, procAllocPid, hq, hprocs₁]

end Spare

end Orchid
