import Orchid.Process.ForkChild

/-! # A fork that fails

`sys_fork` gives back the child's record and PML4 when it fails. It does not give
back the tables and pages that `fork_address_space` made before that.

* `ForkUndone` says that nothing is left of a fork: the free frames are what they
  were, apart from the ones the heap grew by, and so are the allocations, the
  processes, the threads and the parent.
* `ForkFailed` is what a failed fork leaves, with the frames it lost.
* `sysFork_undone_iff`: nothing is left exactly if there was nothing to copy, or no
  frame to copy it to.
-/

namespace Orchid

open ByteMem Radix

section ForkFailed

open HeapState

variable {k k' k₁ : Kernel} {live : List (Nat × Nat)} {fuel : Nat} {cur p : ProcPtr}

/-! ## What a fork is to undo -/

/-- The frames the heap grows by in a fork of the address space at `parentPml4`, when
`thread_create_user` allocates. -/
def forkThreadPages (fuel parentPml4 : Nat) (p : ProcPtr) (k : Kernel) : List Nat :=
  if p = 0 ∨ k.vm.allocPage.1 = 0 then [] else
  match forkAddressSpace parentPml4 k.vm.allocPage.1 k.vm.allocPage.2 with
  | (false, _) => []
  | (true, vm) =>
    match (forkChild p k.vm.allocPage.1 vm k).threadCreateUser fuel k.savedUserRip
      (userStackVaddr + pageSize) k.vm.allocPage.1 (some p) with
    | none => []
    | some (_, k') => popped vm k'.vm

/-- The frames the heap grows by in a fork. -/
def forkHeapPages (fuel : Nat) (k : Kernel) : List Nat :=
  match k.sched.currentProcess with
  | none => []
  | some cur =>
    match k.kmalloc fuel sizeofProcess with
    | none => []
    | some (p, k₁) => popped k.vm k₁.vm ++ forkThreadPages fuel (k.procs cur).pml4Phys p k₁

/-- The paths to the tables and pages of a process: those of the user half, and the
way to its stack. -/
def UserPath (q : List (Fin 512)) : Prop := SlotPath LowerSlot 4 q ∨ q <+: path userStackVaddr

/-- The state a fork starts from. -/
structure ForkEnv (k : Kernel) (live : List (Nat × Nat)) : Prop where
  /-- The blocks in use are the live allocations. -/
  heap : (k.heapState live).Packed
  tables : HeapTablesOk k.kernelCr3 k.vm
  few : k.vm.free.length ≤ maxFreeList
  /-- What the parent has is neither free nor a table of the heap. -/
  parent : ∀ cur, k.sched.currentProcess = some cur → ∀ q f, UserPath q →
    walk (child k.vm.mem) (k.procs cur).pml4Phys q = some f → Settled k.kernelCr3 k.vm f

/-- The bytes of the parent's tables and pages. -/
def ParentKept (k k' : Kernel) : Prop :=
  ∀ cur, k.sched.currentProcess = some cur → ∀ q f, UserPath q →
    walk (child k.vm.mem) (k.procs cur).pml4Phys q = some f →
    ∀ x, InPage f x → k'.vm.mem x = k.vm.mem x

/-- Nothing is left of a fork from `k` that ended in `k'`. -/
structure ForkUndone (fuel : Nat) (k k' : Kernel) (live : List (Nat × Nat)) : Prop where
  pages : ∀ c, c ∈ k'.vm.free ↔ c ∈ k.vm.free ∧ c ∉ forkHeapPages fuel k
  allocations : (k'.heapState live).Packed
  list : k'.processList = k.processList
  records : ∀ q ∈ live.map Prod.fst, k'.procs q = k.procs q
  threads : k'.sched = k.sched
  parent : ParentKept k k'

/-- A failed fork, but for the frames `lost`. -/
structure ForkFailed (fuel : Nat) (k k' : Kernel) (live : List (Nat × Nat)) (lost : List Nat) :
    Prop where
  frames : k.vm.free.Perm (forkHeapPages fuel k ++ (lost ++ k'.vm.free))
  allocations : (k'.heapState live).Packed
  list : k'.processList = k.processList
  records : ∀ q ∈ live.map Prod.fst, k'.procs q = k.procs q
  threads : k'.sched = k.sched
  parent : ParentKept k k'

theorem ForkFailed.undone_iff {lost : List Nat} (h : ForkFailed fuel k k' live lost)
    (hok : FreeOk k.vm.free) : ForkUndone fuel k k' live ↔ lost = [] := by
  have hnodup := (h.frames.nodup_iff.mp hok.nodup)
  rw [List.nodup_append, List.nodup_append] at hnodup
  rcases hnodup with ⟨-, ⟨-, -, hlost⟩, hheap⟩
  constructor
  · intro hundone
    rw [List.eq_nil_iff_forall_not_mem]
    intro c hc
    -- a lost frame was free, is not the heap's, and is not free any more
    have hall : c ∈ lost ++ k'.vm.free := List.mem_append_left _ hc
    have hfree : c ∈ k.vm.free := h.frames.mem_iff.mpr (List.mem_append_right _ hall)
    have hback := (hundone.pages c).mpr ⟨hfree, fun hg => hheap c hg c hall rfl⟩
    exact hlost c hc c hback rfl
  · intro hnil
    subst hnil
    refine ⟨fun c => ?_, h.allocations, h.list, h.records, h.threads, h.parent⟩
    rw [h.frames.mem_iff, List.nil_append, List.mem_append]
    constructor
    · intro hc
      exact ⟨Or.inr hc, fun hg => hheap c hg c hc rfl⟩
    · intro hc
      exact hc.1.resolve_left hc.2

/-- A fork has nothing to copy, or no frame to copy it to. -/
def ForkTakesNothing (fuel : Nat) (k : Kernel) : Prop :=
  ∀ cur p k₁, k.sched.currentProcess = some cur → k.kmalloc fuel sizeofProcess = some (p, k₁) →
    p = 0 ∨ k₁.vm.free.length ≤ 1 ∨
      ∀ j, LowerSlot j → child k.vm.mem (k.procs cur).pml4Phys j = none

/-! ## The stages of a fork -/

section Stages

variable {vm vm₁ vm₂ : Vm} {C cr3 : Nat} {r : Bool} {taken rest : List Nat}

/-- From `vm` to `vm₁` the tables of the heap stay well formed, and the pages that are
neither free nor among them are not written. -/
structure Keeps (cr3 : Nat) (vm vm₁ : Vm) : Prop where
  tables : HeapTablesOk cr3 vm₁
  settled : ∀ f, Settled cr3 vm f → Settled cr3 vm₁ f ∧ ∀ x, InPage f x → vm₁.mem x = vm.mem x

theorem Keeps.trans (h : Keeps cr3 vm vm₁) (h' : Keeps cr3 vm₁ vm₂) : Keeps cr3 vm vm₂ where
  tables := h'.tables
  settled := by
    intro f hf
    rcases h.settled f hf with ⟨hf₁, hsame⟩
    rcases h'.settled f hf₁ with ⟨hf₂, hsame'⟩
    exact ⟨hf₂, fun x hx => (hsame' x hx).trans (hsame x hx)⟩

theorem keeps_growth (h : HeapTablesOk cr3 vm) (hgrow : HeapGrowth cr3 vm vm₁) :
    Keeps cr3 vm vm₁ :=
  ⟨(heapGrowth_takes h hgrow).1, fun _ hf => hf.growth h hgrow⟩

theorem keeps_takes (h : HeapTablesOk cr3 vm) (ht : Takes (fun _ => False) vm vm₁ taken) :
    Keeps cr3 vm vm₁ :=
  ⟨(ht.forest h).1, fun _ hf => hf.takes h ht⟩

theorem Keeps.parentKept (h : Keeps k.kernelCr3 k.vm vm) (henv : ForkEnv k live)
    (hmem : k'.vm.mem = vm.mem) : ParentKept k k' := by
  intro cur hcur q f hq hf
  rw [hmem]
  exact (h.settled f (henv.parent cur hcur q f hq hf)).2

/-- A copy takes no frame if it needs none or there is none. -/
theorem Pays.taken_eq_nil_iff {cost : Nat} (h : Pays cost vm (r, vm₁))
    (hfree : vm.free = taken ++ vm₁.free) : taken = [] ↔ vm.free = [] ∨ cost = 0 := by
  have hlen : vm.free.length = taken.length + vm₁.free.length := by
    rw [hfree, List.length_append]
  rw [← List.length_eq_zero_iff, ← List.length_eq_zero_iff]
  by_cases hcost : cost ≤ vm.free.length
  · have hcount := (h.enough hcost).2
    simp only at hcount
    omega
  · have hempty := (h.short (by omega)).2
    simp only at hempty
    rw [hempty, List.length_nil] at hlen
    omega

/-- A fork with a frame for the PML4, up to the end of the copy. -/
theorem ForkEnv.copied (h : ForkEnv k live) (hcur : k.sched.currentProcess = some cur)
    (hmalloc : k.kmalloc fuel sizeofProcess = some (p, k₁)) (hp : p ≠ 0)
    (hfree : k₁.vm.free = C :: rest)
    (hspace : forkAddressSpace (k.procs cur).pml4Phys C ⟨k₁.vm.mem, rest⟩ = (r, vm)) :
    Keeps k.kernelCr3 k.vm vm ∧ ∃ taken,
      k.vm.free = popped k.vm k₁.vm ++ C :: (taken ++ vm.free) ∧
      (taken = [] ↔ ForkTakesNothing fuel k) := by
  rcases Kernel.kmalloc_spec h.heap.ready (by decide) hmalloc with ⟨-, ⟨hgrow, -⟩, -⟩
  have hkeeps := keeps_growth h.tables hgrow
  rcases forkAddressSpace_takes_pml4 hfree hspace with ⟨taken, htakes, hall⟩
  refine ⟨hkeeps.trans (keeps_takes hkeeps.tables hall), taken, ?_, ?_⟩
  · have hlist : rest = taken ++ vm.free := htakes.free
    rw [← hlist, ← hfree]
    exact heapGrowth_popped hgrow
  have hpays := forkAddressSpace_affords (forkStart_of_growth h.tables
    (fun q f hq hf => h.parent cur hcur q f (Or.inl hq) hf) hgrow hfree)
  rw [hspace] at hpays
  rw [hpays.taken_eq_nil_iff htakes.free, forkCost_eq_zero_iff]
  have hone : k₁.vm.free.length ≤ 1 ↔ rest = [] := by
    rw [hfree, List.length_cons, ← List.length_eq_zero_iff]
    omega
  constructor
  · intro hor cur' p' k₁' hcur' hmalloc'
    cases hcur.symm.trans hcur'
    cases hmalloc.symm.trans hmalloc'
    rw [hone]
    exact Or.inr hor
  · intro hnothing
    have hor := (hnothing cur p k₁ hcur hmalloc).resolve_left hp
    rw [hone] at hor
    exact hor

/-- The end of a failed fork: the child's record is given back. -/
theorem forkFailed_of_kfree {K : Kernel} {lost : List Nat}
    (hmalloc : k.kmalloc fuel sizeofProcess = some (p, k₁))
    (hs : (K.heapState ((p, sizeofProcess) :: live)).Packed) (hfree : K.kfree fuel p = some k')
    (hframes : k.vm.free.Perm (forkHeapPages fuel k ++ (lost ++ K.vm.free)))
    (hlist : K.processList = k₁.processList) (hprocs : ∀ q, q ≠ p → K.procs q = k₁.procs q)
    (hsched : K.sched = k₁.sched) (hparent : ParentKept k K) : ForkFailed fuel k k' live lost := by
  rcases Kernel.kfree_packed hs hfree with ⟨hpacked, hk'⟩
  have hvm : k'.vm = K.vm := by rw [hk']
  constructor
  · rw [hvm]
    exact hframes
  · exact hpacked
  · rw [hk']
    exact hlist.trans (by rw [(Kernel.kmalloc_eq_some hmalloc).2])
  · intro q hq
    rw [hk', ← Kernel.kmalloc_procs hmalloc]
    apply hprocs q
    intro heq
    rw [heq] at hq
    exact Kernel.newest_notMem hs.ready hq
  · rw [hk', ← Kernel.kmalloc_sched hmalloc]
    exact hsched
  · rw [ParentKept, hvm]
    exact hparent

theorem freePage_free (hlen : vm.free.length < maxFreeList) :
    (vm.freePage C).free = C :: vm.free := if_pos hlen

end Stages

/-! ## A fork that returns -1 -/

theorem ForkEnv.noRecord (h : ForkEnv k live) (hcur : k.sched.currentProcess = some cur)
    (hmalloc : k.kmalloc fuel sizeofProcess = some (0, k₁)) :
    ForkFailed fuel k k₁ live [] ∧ ForkTakesNothing fuel k := by
  rcases Kernel.kmalloc_spec h.heap.ready (by decide) hmalloc with ⟨-, ⟨hgrow, -⟩, hk₁⟩
  have hpages : forkHeapPages fuel k = popped k.vm k₁.vm := by
    simp [forkHeapPages, hcur, hmalloc, forkThreadPages]
  constructor
  · constructor
    · rw [hpages, List.nil_append, ← heapGrowth_popped hgrow]
    · exact Kernel.kmalloc_packed h.heap (by decide) hmalloc
    · rw [hk₁]
    · intro q _
      rw [hk₁]
    · rw [hk₁]
    · exact (keeps_growth h.tables hgrow).parentKept h rfl
  · intro cur' p' k₁' hcur' hmalloc'
    cases hmalloc.symm.trans hmalloc'
    exact Or.inl rfl

theorem ForkEnv.noPml4 (h : ForkEnv k live) (hcur : k.sched.currentProcess = some cur)
    (hmalloc : k.kmalloc fuel sizeofProcess = some (p, k₁)) (hp : p ≠ 0) (hempty : k₁.vm.free = [])
    (hfree : (newRecord p k₁).kfree fuel p = some k') :
    ForkFailed fuel k k' live [] ∧ ForkTakesNothing fuel k := by
  rcases Kernel.kmalloc_spec h.heap.ready (by decide) hmalloc with ⟨-, ⟨hgrow, -⟩, hk₁⟩
  have hpages : forkHeapPages fuel k = popped k.vm k₁.vm := by
    simp [forkHeapPages, hcur, hmalloc, forkThreadPages, Vm.allocPage_of_nil hempty]
  have hpacked := Kernel.kmalloc_packed h.heap (by decide) hmalloc
  rw [if_neg hp] at hpacked
  constructor
  · apply forkFailed_of_kfree (K := newRecord p k₁) hmalloc hpacked hfree
    · rw [hpages, List.nil_append]
      exact List.Perm.of_eq (heapGrowth_popped hgrow)
    · rfl
    · exact fun q hq => newRecord_procs k₁ hq
    · rfl
    · exact (keeps_growth h.tables hgrow).parentKept h rfl
  · intro cur' p' k₁' hcur' hmalloc'
    cases hmalloc.symm.trans hmalloc'
    rw [hempty]
    exact Or.inr (Or.inl (Nat.zero_le 1))

theorem ForkEnv.noSpace {vm : Vm} {C : Nat} {rest : List Nat} (h : ForkEnv k live)
    (hcur : k.sched.currentProcess = some cur)
    (hmalloc : k.kmalloc fuel sizeofProcess = some (p, k₁)) (hp : p ≠ 0)
    (hlist : k₁.vm.free = C :: rest)
    (hspace : forkAddressSpace (k.procs cur).pml4Phys C ⟨k₁.vm.mem, rest⟩ = (false, vm))
    (hfree : { newRecord p k₁ with vm := vm.freePage C }.kfree fuel p = some k') :
    ∃ lost, ForkFailed fuel k k' live lost ∧ (lost = [] ↔ ForkTakesNothing fuel k) := by
  rcases h.copied hcur hmalloc hp hlist hspace with ⟨hkeeps, taken, hframes, hnothing⟩
  have hk₁ := (Kernel.kmalloc_spec h.heap.ready (by decide) hmalloc).2.2
  have hpages : forkHeapPages fuel k = popped k.vm k₁.vm := by
    simp [forkHeapPages, hcur, hmalloc, forkThreadPages, Vm.allocPage_of_cons hlist, hspace]
  have hpacked := Kernel.kmalloc_packed h.heap (by decide) hmalloc
  rw [if_neg hp] at hpacked
  have hlen := congrArg List.length hframes
  simp only [List.length_append, List.length_cons] at hlen
  have hfew := h.few
  have hback : (vm.freePage C).free = C :: vm.free := freePage_free (by omega)
  refine ⟨taken, ?_, hnothing⟩
  apply forkFailed_of_kfree hmalloc _ hfree
  · show k.vm.free.Perm (forkHeapPages fuel k ++ (taken ++ (vm.freePage C).free))
    rw [hpages, hback, hframes]
    exact List.Perm.append_left _ List.perm_middle.symm
  · rfl
  · exact fun q hq => newRecord_procs k₁ hq
  · rfl
  · exact hkeeps.parentKept h rfl
  · apply hpacked.mono
    show (vm.freePage C).free.length ≤ k₁.vm.free.length
    have hgrow := (Kernel.kmalloc_spec h.heap.ready (by decide) hmalloc).2.1.1
    have hcount := congrArg List.length (heapGrowth_popped hgrow)
    rw [List.length_append] at hcount
    rw [hback, List.length_cons]
    omega

theorem ForkEnv.noThread {k₂ : Kernel} {vm : Vm} {C : Nat} {rest : List Nat} (h : ForkEnv k live)
    (hcur : k.sched.currentProcess = some cur)
    (hmalloc : k.kmalloc fuel sizeofProcess = some (p, k₁)) (hp : p ≠ 0)
    (hC : C ≠ 0) (hlist : k₁.vm.free = C :: rest)
    (hspace : forkAddressSpace (k.procs cur).pml4Phys C ⟨k₁.vm.mem, rest⟩ = (true, vm))
    (hthread : (forkChild p C vm k₁).threadCreateUser fuel k₁.savedUserRip
      (userStackVaddr + pageSize) C (some p) = some (none, k₂))
    (hfree : { k₂ with vm := k₂.vm.freePage C }.kfree fuel p = some k') :
    ∃ lost, ForkFailed fuel k k' live lost ∧ (lost = [] ↔ ForkTakesNothing fuel k) := by
  rcases h.copied hcur hmalloc hp hlist hspace with ⟨hkeeps, taken, hframes, hnothing⟩
  rcases Kernel.kmalloc_spec h.heap.ready (by decide) hmalloc with ⟨-, ⟨hgrow, -⟩, hk₁⟩
  have hcr3 : k₁.kernelCr3 = k.kernelCr3 := by rw [hk₁]
  have hpacked := Kernel.kmalloc_packed h.heap (by decide) hmalloc
  rw [if_neg hp] at hpacked
  have hcount : vm.free.length + 1 ≤ k₁.vm.free.length := by
    have hfirst := heapGrowth_popped hgrow
    have hlen := congrArg List.length (List.append_cancel_left (hfirst.symm.trans hframes))
    rw [List.length_cons, List.length_append] at hlen
    omega
  have hpacked₁ : ((forkChild p C vm k₁).heapState ((p, sizeofProcess) :: live)).Packed :=
    hpacked.mono (Nat.le_of_succ_le hcount)
  -- the thread gives back what it allocated, and the heap keeps its frames
  rcases Kernel.threadCreateUser_failed hpacked₁ hthread with ⟨hpacked₂, ⟨hgrow₂, hreach⟩, hk₂⟩
  have hgrow' : HeapGrowth k.kernelCr3 vm k₂.vm := by
    rw [← hcr3]
    exact hgrow₂
  have hframes₂ := heapGrowth_popped hgrow'
  have hpages : forkHeapPages fuel k = popped k.vm k₁.vm ++ popped vm k₂.vm := by
    simp [forkHeapPages, hcur, hmalloc, forkThreadPages, Vm.allocPage_of_cons hlist, hp, hC, hspace,
      hthread]
  have hless : k₂.vm.free.length < maxFreeList := by
    have hlen := congrArg List.length hframes
    have hlen₂ := congrArg List.length hframes₂
    have hfew := h.few
    simp only [List.length_append, List.length_cons] at hlen hlen₂
    omega
  refine ⟨taken, ?_, hnothing⟩
  apply forkFailed_of_kfree hmalloc _ hfree
  · show k.vm.free.Perm (forkHeapPages fuel k ++ (taken ++ (k₂.vm.freePage C).free))
    rw [hpages, freePage_free hless, hframes, hframes₂, List.append_assoc]
    apply List.Perm.append_left
    -- the frames of the heap come to the front, then the lost ones
    have hheap := List.perm_append_comm_assoc taken (popped vm k₂.vm) k₂.vm.free
    have hlost : (C :: (taken ++ k₂.vm.free)).Perm (taken ++ C :: k₂.vm.free) :=
      List.perm_middle.symm
    exact ((hheap.cons C).trans List.perm_middle.symm).trans (hlost.append_left _)
  · show k₂.processList = k₁.processList
    rw [hk₂]
    rfl
  · intro q hq
    show k₂.procs q = k₁.procs q
    rw [hk₂, ← newRecord_procs k₁ hq]
    simp [forkChild, Kernel.modifyProc, hq]
  · show k₂.sched = k₁.sched
    rw [hk₂]
    rfl
  · exact (hkeeps.trans (keeps_growth hkeeps.tables hgrow')).parentKept h rfl
  · refine ⟨hpacked₂.1, ?_, hpacked₂.2.2⟩
    -- one frame for the PML4 is back, and there was one more before
    have hroom : HasRoom k₁.heap k₁.vm := hpacked.2.1
    unfold HasRoom at hroom ⊢
    have hbefore : reach k₂.heap k₂.vm ≤ reach k₁.heap vm := hreach
    have hafter : (k₂.vm.freePage C).free.length = k₂.vm.free.length + 1 := by
      rw [freePage_free hless, List.length_cons]
    unfold reach at *
    show k₂.heap.endVirt + _ * (k₂.vm.freePage C).free.length ≤ _
    rw [hafter]
    omega

/-- What a failed fork leaves behind. -/
theorem ForkEnv.failed (h : ForkEnv k live) (hcall : sysFork fuel k = some (none, k')) :
    ∃ lost, ForkFailed fuel k k' live lost ∧ (lost = [] ↔ ForkTakesNothing fuel k) := by
  cases sysFork_outcome hcall with
  | noProcess hcur =>
    have hpages : forkHeapPages fuel k = [] := by simp [forkHeapPages, hcur]
    have hfailed : ForkFailed fuel k k live [] := by
      refine ⟨?_, h.heap, rfl, fun _ _ => rfl, rfl, fun _ _ _ _ _ _ _ _ => rfl⟩
      rw [hpages]
      exact .refl _
    refine ⟨[], hfailed, fun _ cur p k₁ hcur' => ?_, fun _ => rfl⟩
    cases hcur.symm.trans hcur'
  | noRecord hcur hmalloc =>
    rcases h.noRecord hcur hmalloc with ⟨hfailed, hnothing⟩
    exact ⟨[], hfailed, fun _ => hnothing, fun _ => rfl⟩
  | @noPml4 cur p k₁ _ hcur hmalloc hp halloc hfree =>
    cases hlist : k₁.vm.free with
    | nil =>
      rw [Vm.allocPage_of_nil hlist] at hfree
      rcases h.noPml4 hcur hmalloc hp hlist hfree with ⟨hfailed, hnothing⟩
      exact ⟨[], hfailed, fun _ => hnothing, fun _ => rfl⟩
    | cons C rest =>
      -- no free frame is 0
      have hgrow := (Kernel.kmalloc_spec h.heap.ready (by decide) hmalloc).2.1.1
      rw [Vm.allocPage_of_cons hlist] at halloc
      refine absurd halloc ((heapGrowth_takes h.tables hgrow).1.freeOk.nonzero C ?_)
      rw [hlist]
      exact List.mem_cons_self
  | @noSpace cur p k₁ _ vm hcur hmalloc hp halloc hspace hfree =>
    rcases Vm.allocPage_of_ne halloc with ⟨C, rest, hlist, heq⟩
    rw [heq] at hspace hfree
    exact h.noSpace hcur hmalloc hp hlist hspace hfree
  | @noThread cur p k₁ k₂ _ vm hcur hmalloc hp halloc hspace hthread hfree =>
    rcases Vm.allocPage_of_ne halloc with ⟨C, rest, hlist, heq⟩
    rw [heq] at halloc hspace hthread hfree
    exact h.noThread hcur hmalloc hp halloc hlist hspace hthread hfree

/-- A fork that returns -1 has changed nothing exactly if it had nothing to copy, or no
frame to copy it to: the tables and pages it has copied by then are lost. -/
theorem sysFork_undone_iff (h : ForkEnv k live) (hcall : sysFork fuel k = some (none, k')) :
    ForkUndone fuel k k' live ↔ ForkTakesNothing fuel k := by
  rcases h.failed hcall with ⟨lost, hfailed, hnothing⟩
  rw [hfailed.undone_iff h.tables.freeOk, hnothing]

/-! ## A fork with too few frames -/

variable {mem : ByteMem} {n : Nat}

theorem PlainMemory.forkEnv (h : PlainMemory mem) : ForkEnv (forkKernel mem n) [] where
  heap := freshHeap_packed (length_take_le n)
  tables := h.heapTablesOk
  few := length_take_le n
  parent := by
    intro cur _ q f _ hf
    exact h.settled hf

/-- The heap has room for a small allocation, so it needs no frame. -/
theorem kmalloc_forkKernel (mem : ByteMem) (n : Nat) {size : Nat} (hn : size ≤ 2 ^ 20)
    (hroom : roundUp size + headerSize + 8 ≤ heapInitialPages * pageSize - headerSize) :
    ∃ p k₁, (forkKernel mem n).kmalloc 8 size = some (p, k₁) ∧ p ≠ 0 ∧
      k₁ = { forkKernel mem n with heap := k₁.heap } ∧
      ∃ m, (k₁.heapState [(p, size)]).Spare m 2 := by
  have hspare : ((forkKernel mem n).heapState []).Spare _ 1 := spare_forkKernel
  rcases Kernel.kmalloc_of_spare hspare size hn hroom (by decide : 1 < 8)
    with ⟨p, k₁, hmalloc, hp, hk₁, hspare₁⟩
  exact ⟨p, k₁, hmalloc, hp, hk₁, _, hspare₁⟩

theorem kmalloc_forkKernel_record (mem : ByteMem) (n : Nat) :
    ∃ p k₁, (forkKernel mem n).kmalloc 8 sizeofProcess = some (p, k₁) ∧ p ≠ 0 ∧
      k₁ = { forkKernel mem n with heap := k₁.heap } ∧
      ∃ m, (k₁.heapState [(p, sizeofProcess)]).Spare m 2 :=
  kmalloc_forkKernel mem n (by decide) (by decide)

/-- With a frame for the PML4 but too few for the copy, all of them are taken and one
comes back. -/
theorem PlainMemory.fork_short {rest : List Nat} (h : PlainMemory mem)
    (hfree : sixPages.take n = 0x10000 :: rest) (hcost : rest.length < forkCost mem 0x2000) :
    ∃ k', sysFork 8 (forkKernel mem n) = some (none, k') ∧ k'.vm.free = [0x10000] ∧
      forkHeapPages 8 (forkKernel mem n) = [] := by
  rcases kmalloc_forkKernel_record mem n with ⟨p, k₁, hmalloc, hp, hk₁, m, hspare⟩
  have hvm : k₁.vm = ⟨mem, sixPages.take n⟩ := by
    rw [hk₁]
    rfl
  have halloc : k₁.vm.allocPage = (0x10000, ⟨mem, rest⟩) := by
    rw [hvm]
    exact Vm.allocPage_of_cons hfree
  rcases (forkAddressSpace_affords (h.forkStart hfree)).short hcost with ⟨hflag, hempty⟩
  rcases hspace : forkAddressSpace 0x2000 0x10000 ⟨mem, rest⟩ with ⟨r, vm⟩
  rw [hspace] at hflag hempty
  obtain rfl : r = false := hflag
  have hback : (vm.freePage 0x10000).free = [0x10000] := by
    rw [freePage_free (by rw [hempty]; decide), hempty]
  -- the record is given back
  rcases hspare.free_returns List.mem_cons_self (by decide : 2 ≤ 8) with ⟨heap, hkfree⟩
  have hprocs : ((newRecord p k₁).procs 7).pml4Phys = 0x2000 := by
    by_cases hq : 7 = p
    · rw [hk₁]
      simp [newRecord, procAllocPid, Kernel.modifyProc, ← hq, forkKernel]
    · rw [newRecord_procs k₁ hq, Kernel.kmalloc_procs hmalloc]
      rfl
  refine ⟨{ newRecord p k₁ with vm := vm.freePage 0x10000, heap := heap }, ?_, hback, ?_⟩
  · have hcur : (forkKernel mem n).sched.currentProcess = some 7 := rfl
    have hrecord : (newRecord p k₁).vm = k₁.vm := rfl
    simp only [sysFork, hcur, hmalloc, if_neg hp]
    change forkProcess 8 7 p (newRecord p k₁) = _
    simp only [forkProcess, hrecord, halloc, hprocs, hspace]
    change (Option.map _ (Orchid.kfree 8 p k₁.heap)).map _ = _
    rw [show Orchid.kfree 8 p k₁.heap = some heap from hkfree]
    rfl
  · have hcur : (forkKernel mem n).sched.currentProcess = some 7 := rfl
    have hpml4 : ((forkKernel mem n).procs 7).pml4Phys = 0x2000 := rfl
    have hnone : popped (forkKernel mem n).vm k₁.vm = [] := by
      apply popped_eq
      rw [hk₁]
      rfl
    simp only [forkHeapPages, hcur, hmalloc, hnone, forkThreadPages, hpml4, halloc, hspace]
    simp

/-- With a frame for the PML4 and none besides, nothing is left of the fork. -/
theorem sysFork_undone_iff_oneFrame : ∃ k',
    sysFork 8 (forkKernel onePageMem 1) = some (none, k') ∧
      ForkUndone 8 (forkKernel onePageMem 1) k' [] := by
  have hfree : sixPages.take 1 = [0x10000] := rfl
  rcases plainMemory_onePageMem.fork_short hfree (by rw [cost_onePageMem]; decide)
    with ⟨k', hcall, -, -⟩
  refine ⟨k', hcall, (sysFork_undone_iff plainMemory_onePageMem.forkEnv hcall).mpr ?_⟩
  intro cur p k₁ hcur hmalloc
  rcases kmalloc_forkKernel_record onePageMem 1 with ⟨p', k₁', hmalloc', -, hk₁, -⟩
  cases hmalloc.symm.trans hmalloc'
  right
  left
  rw [hk₁]
  exact Nat.le_refl 1

/-- With two frames besides, these two are lost. -/
theorem sysFork_loses_frames : ∃ k', sysFork 8 (forkKernel onePageMem 3) = some (none, k') ∧
    ¬ ForkUndone 8 (forkKernel onePageMem 3) k' [] := by
  have hfree : sixPages.take 3 = [0x10000, 0x11000, 0x12000] := rfl
  rcases plainMemory_onePageMem.fork_short hfree (by rw [cost_onePageMem]; decide)
    with ⟨k', hcall, hleft, hheap⟩
  refine ⟨k', hcall, fun hundone => ?_⟩
  have hfirst : 0x11000 ∈ (forkKernel onePageMem 3).vm.free := by decide
  have hback := (hundone.pages 0x11000).mpr ⟨hfirst, by rw [hheap]; exact List.not_mem_nil⟩
  rw [hleft, List.mem_singleton] at hback
  omega

end ForkFailed

end Orchid
