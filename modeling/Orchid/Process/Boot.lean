import Orchid.Memory.AddressSpace
import Orchid.Memory.Spaces
import Orchid.Process.HeapUse

/-! # The kernel once its heap is mapped

`heap_init` maps the first pages of the heap through slot 480 of the kernel's
PML4, before there is any process. With enough free pages it gets all of them,
the kernel's tables stay a tree, and no other slot of the PML4 changes.
-/

namespace Orchid

open ByteMem Radix HeapState

section Boot

variable {root i n endVirt : Nat} {vm : Vm}

/-- A page in the window of the heap goes through slot 480. -/
theorem heapPage_slot {k : Nat} (hk : k < 2 ^ 27) :
    pml4Index (heapStartVirt + k * pageSize) = 480 := by
  rw [pml4Index_eq]
  unfold heapStartVirt pageSize
  omega

/-- One page of the heap: it is mapped, with at most three frames for tables. -/
theorem vmmMap_heapPage {c k : Nat} {rest : List Nat} (hwf : WellFormed root vm)
    (hfree : vm.free = c :: rest) (hlen : 3 ≤ rest.length) (hk : k < 2 ^ 27) {vm' : Vm}
    (hvm' : vmmMap root (heapStartVirt + k * pageSize) c (vmmPresent ||| vmmWritable)
      ⟨vm.mem, rest⟩ = vm') :
    WellFormed root vm' ∧ vm'.free <:+ rest ∧ rest.length ≤ vm'.free.length + 3 ∧
      (∀ j : Fin 512, j.val ≠ 480 → child vm'.mem root j = child vm.mem root j) ∧
      walk (child vm'.mem) root (path (heapStartVirt + k * pageSize)) = some c ∧
      ∀ q, q.length = 4 → walk (child vm.mem) root q ≠ none →
        walk (child vm'.mem) root q ≠ none := by
  have hcmem : c ∈ vm.free := mem_of_eq_cons hfree
  have hc0 := hwf.freeOk.nonzero c hcmem
  have hpop := hwf.pop hfree
  rw [vmmMap, if_neg hc0] at hvm'
  have hD : tablePaths () (upperPath (heapStartVirt + k * pageSize)) := (length_upperPath _).le
  have hleaf : ¬ tablePaths () (path (heapStartVirt + k * pageSize)) := by
    unfold tablePaths
    rw [length_path]
    omega
  have hmissing : missing (child vm.mem) root (upperPath (heapStartVirt + k * pageSize)) ≤ 3 :=
    missing_le_length _ _
  have hreach := hwf.forest.mapTaken_path (k := ()) hD hleaf hfree
    (mapFlags_mod_two (vmmPresent ||| vmmWritable))
  have hrest := hwf.forest.mapTaken_free (k := ()) (mapFlags (vmmPresent ||| vmmWritable)) hD hfree
  rcases hwf.forest.mapTaken (k := ()) hD hleaf hfree
    (mapFlags_mod_two (vmmPresent ||| vmmWritable)) with ⟨taken, -, hbuilt, -⟩
  have hwf' : WellFormed root (mapAt root (heapStartVirt + k * pageSize) c
      (mapFlags (vmmPresent ||| vmmWritable)) ⟨vm.mem, rest⟩).2 := mapAt_wellFormed hpop c _
  rw [hvm'] at hreach hrest hbuilt hwf'
  rw [if_pos (hmissing.trans hlen)] at hreach
  refine ⟨hwf', ?_, ?_, ?_, hreach, ?_⟩
  · rw [hrest]
    exact List.drop_suffix _ _
  · rw [hrest, List.length_drop]
    omega
  · -- the paths that change begin with the slot of the heap
    intro j hj
    rcases hbuilt.walks () [j] (below_tablePaths (by simp)) with heq | ⟨-, ⟨q, hq⟩, -⟩
    · rw [walk_singleton, walk_singleton] at heq
      exact heq
    · refine absurd ?_ hj
      rw [(List.cons.inj hq).1, val_ofNat_pml4, heapPage_slot hk]
  · intro q hq hold
    rcases hbuilt.walks () q (below_tablePaths hq.le) with heq | ⟨-, -, c', -, hw⟩
    · rw [heq]
      exact hold
    · rw [hw]
      exact Option.some_ne_none c'

/-- What the loop of `heap_init` does when it does not run out of pages. -/
structure HeapMapped (root i n : Nat) (vm vm' : Vm) : Prop where
  wellFormed : WellFormed root vm'
  free : vm'.free <:+ vm.free
  length : vm.free.length ≤ vm'.free.length + 4 * n
  others : ∀ j : Fin 512, j.val ≠ 480 → child vm'.mem root j = child vm.mem root j
  pages : ∀ k, i ≤ k → k < i + n →
    walk (child vm'.mem) root (path (heapStartVirt + k * pageSize)) ≠ none
  kept : ∀ q, q.length = 4 → walk (child vm.mem) root q ≠ none →
    walk (child vm'.mem) root q ≠ none

theorem heapInitLoop_maps (hwf : WellFormed root vm) (hlen : 4 * n ≤ vm.free.length)
    (hi : i + n ≤ 2 ^ 27) (hend : endVirt = heapStartVirt + i * pageSize) :
    (heapInitLoop root i n endVirt vm).1 = heapStartVirt + (i + n) * pageSize ∧
      HeapMapped root i n vm (heapInitLoop root i n endVirt vm).2 := by
  -- induction on the pages to go; each takes one frame and at most three tables
  induction n generalizing i endVirt vm with
  | zero =>
    refine ⟨hend, hwf, List.suffix_refl _, by simp [heapInitLoop], fun _ _ => rfl, ?_,
      fun _ _ h => h⟩
    intro k hlo hhi
    omega
  | succ n ih =>
    rcases List.exists_cons_of_ne_nil (List.ne_nil_of_length_pos (by omega : 0 < vm.free.length))
      with ⟨c, rest, hfree⟩
    have hc0 : c ≠ 0 := hwf.freeOk.nonzero c (mem_of_eq_cons hfree)
    have hrest : 4 * n + 3 ≤ rest.length := by
      rw [hfree, List.length_cons] at hlen
      omega
    have halloc : vm.allocPage = (c, ⟨vm.mem, rest⟩) := by
      simp only [Vm.allocPage, hfree, pmmAllocPage]
    rw [heapInitLoop, halloc]
    simp only [if_neg hc0]
    generalize hvm₁ : vmmMap root (heapStartVirt + i * pageSize) c (vmmPresent ||| vmmWritable)
      ⟨vm.mem, rest⟩ = vm₁
    rcases vmmMap_heapPage hwf hfree (by omega) (by omega) hvm₁ with
      ⟨hwf₁, hsuffix, hlength, hothers, hpage, hkept⟩
    rcases ih hwf₁ (by omega) (by omega : i + 1 + n ≤ 2 ^ 27) rfl with ⟨hend', hmapped⟩
    constructor
    · rw [hend']
      congr 2
      omega
    · refine ⟨hmapped.wellFormed, ?_, ?_, ?_, ?_, ?_⟩
      · rw [hfree]
        exact (hmapped.free.trans hsuffix).trans (List.suffix_cons c rest)
      · rw [hfree, List.length_cons]
        have := hmapped.length
        omega
      · exact fun j hj => (hmapped.others j hj).trans (hothers j hj)
      · intro k hlo hhi
        by_cases hk : k = i
        · rw [hk]
          apply hmapped.kept _ (length_path _)
          rw [hpage]
          exact Option.some_ne_none c
        · exact hmapped.pages k (by omega) (by omega)
      · exact fun q hq hold => hmapped.kept q hq (hkept q hq hold)

/-- The heap before `heap_init`. -/
def coldHeap : Heap := ⟨fun _ => 0, 0, heapStartVirt, false⟩

/-- With enough pages `heap_init` makes one large free block, mapped throughout. -/
theorem heapInit_maps (hwf : WellFormed root vm) (hlen : 64 ≤ vm.free.length)
    (hmax : vm.free.length ≤ maxFreeList) :
    HeapMapped root 0 heapInitialPages vm (heapInit root coldHeap vm).2 ∧
      Spare ⟨(heapInit root coldHeap vm).1, (heapInit root coldHeap vm).2, []⟩
        (heapInitialPages * pageSize - headerSize) 1 := by
  rcases heapInitLoop_maps (n := heapInitialPages) (i := 0) hwf (by unfold heapInitialPages; omega)
    (by unfold heapInitialPages; omega) (by simp : heapStartVirt = heapStartVirt + 0 * pageSize) with
    ⟨hend, hmapped⟩
  rcases hend' : heapInitLoop root 0 heapInitialPages heapStartVirt vm with ⟨endVirt, vm'⟩
  rw [hend'] at hend hmapped
  simp only [Nat.zero_add] at hend
  subst hend
  have hroom : vm'.free.length ≤ maxFreeList := hmapped.free.length_le.trans hmax
  have hinit : heapInit root coldHeap vm = (freshHeap, vm') := by
    simp only [heapInit, coldHeap, hend', freshHeap]
    rfl
  rw [hinit]
  exact ⟨hmapped, freshHeap_spare hroom⟩

end Boot

/-- `n` pages in a row. -/
def pageRun (n : Nat) : List Nat := (List.range n).map fun i => 0x2000 + 4096 * i

theorem mem_pageRun {n c : Nat} : c ∈ pageRun n ↔ ∃ i < n, 0x2000 + 4096 * i = c := by
  simp [pageRun]

theorem freeOk_pageRun {n : Nat} (hn : n ≤ maxFreeList) : FreeOk (pageRun n) := by
  have hmax : maxFreeList = 300000 := rfl
  constructor
  · exact List.nodup_range.map fun i j hij => by simpa using hij
  all_goals
    intro c hc
    rcases mem_pageRun.mp hc with ⟨i, hi, rfl⟩
    unfold Aligned at *
    omega

theorem length_pageRun (n : Nat) : (pageRun n).length = n := by simp [pageRun]

theorem root_notMem_pageRun (n : Nat) : 0x1000 ∉ pageRun n := by
  intro hmem
  rcases mem_pageRun.mp hmem with ⟨i, -, hi⟩
  omega

/-- With these pages `heap_init` maps the heap of a kernel with an empty PML4. -/
theorem heapInit_pageRun {n : Nat} (hlo : 64 ≤ n) (hhi : n ≤ maxFreeList) :
    HeapMapped 0x1000 0 heapInitialPages ⟨fun _ => 0, pageRun n⟩
        (heapInit 0x1000 coldHeap ⟨fun _ => 0, pageRun n⟩).2 ∧
      Spare ⟨(heapInit 0x1000 coldHeap ⟨fun _ => 0, pageRun n⟩).1,
        (heapInit 0x1000 coldHeap ⟨fun _ => 0, pageRun n⟩).2, []⟩
        (heapInitialPages * pageSize - headerSize) 1 := by
  have hlen := length_pageRun n
  have hwf : WellFormed 0x1000 ⟨fun _ => 0, pageRun n⟩ :=
    AddressSpace.wellFormed_zero (by decide) (root_notMem_pageRun n) (freeOk_pageRun hhi)
  exact heapInit_maps hwf (hlo.trans hlen.ge) (hlen.trans_le hhi)

/-- A kernel whose PML4 at 0x1000 is empty but for the heap, before the first
process. -/
def heapKernel (n : Nat) : Kernel :=
  { bootKernel (heapInit 0x1000 coldHeap ⟨fun _ => 0, pageRun n⟩).2 with
    heap := (heapInit 0x1000 coldHeap ⟨fun _ => 0, pageRun n⟩).1 }

/-- The kernel after `heap_init`, with all its pages mapped. -/
theorem exists_heapKernel {n : Nat} (hlo : 64 ≤ n) (hhi : n ≤ maxFreeList) :
    ∃ k : Kernel, k.sched.currentProcess = none ∧
      HeapMapped k.kernelCr3 0 heapInitialPages ⟨fun _ => 0, pageRun n⟩ k.vm ∧
      (k.heapState []).Spare (heapInitialPages * pageSize - headerSize) 1 :=
  ⟨heapKernel n, rfl, heapInit_pageRun hlo hhi⟩

end Orchid
