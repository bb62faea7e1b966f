import Orchid.Process.KernelHalf
import Orchid.Process.LoadedImage
import Orchid.Process.Owned

/-! # Whether a new thread has a stack

`load_raw` takes the page for the stack as its last one, and maps it. Nothing
checks that the map had the pages for its tables: the thread is made from the
heap, which need not grow, and is returned without a stack.

* `loadRaw_stack` computes what the stack's address leads to. The map needs as
  many free pages as tables are missing in the kernel's address space on the
  path to the stack, since that part of the new PML4 is the kernel's. They have to
  be there beyond those that the load takes before (`loadFrames`).
-/

namespace Orchid

open ByteMem Radix AddressSpace

/-! ## Sizes -/

/-- Every page of an image was a free one. -/
theorem loadCode_size {pml4Phys : Nat} {image : Nat → UInt8} {vaddr src left : Nat} {vm vm' : Vm}
    (h : loadCode pml4Phys image vaddr src left vm = (true, vm')) :
    left ≤ 4096 * vm.free.length := by
  induction left using Nat.strong_induction_on generalizing vaddr src vm with
  | _ left ih =>
    by_cases hleft : left = 0
    · omega
    rw [loadCode, if_neg hleft] at h
    by_cases hzero : vm.allocPage.1 = 0
    · simp only [hzero, if_true] at h
      cases h
    · rcases Vm.allocPage_of_ne hzero with ⟨c, rest, hfree, heq⟩
      rw [heq] at hzero h
      simp only [if_neg hzero, pageSize] at h
      have hrest := ih (left - min 4096 left) (by omega) h
      have hshort := (vmmMapUser_free pml4Phys vaddr c userPageFlags true ⟨vm.mem, rest⟩).length_le
      simp only at hrest hshort
      rw [hfree, List.length_cons]
      omega

/-! ## Growing the heap -/

section Growth

variable {kernelCr3 a : Nat} {S : Fin 512 → Prop} {vm vm' : Vm}
  {D E : Bool → List (Fin 512) → Prop}

/-- A path that does not go through the slot of the heap in the kernel's PML4. -/
def OffHeap (kernel : Bool) (q : List (Fin 512)) : Prop :=
  kernel = false ∨ ∃ i q', q = i :: q' ∧ ¬ HeapSlot i

theorem growStep_beside (hD : D = WithTree kernelOnly false S 3)
    (h : Forest (twoRoots kernelCr3 a) D E vm) (hstep : GrowStep kernelCr3 vm vm') :
    Forest (twoRoots kernelCr3 a) D E vm' ∧
      Beside (twoRoots kernelCr3 a) D E OffHeap vm vm' := by
  rcases hstep.cases h.freeOk with rfl | ⟨c, rest, v, hfree, hslot, rfl⟩
  · exact ⟨h, .refl⟩
  · have hup : D true (upperPath v) := hD ▸ (withTree_kernel v).1
    have hleaf : ¬ D true (path v) := hD ▸ (withTree_kernel v).2
    have hflags := mapFlags_mod_two (vmmPresent ||| vmmWritable)
    rcases h.mapTaken hup hleaf hfree hflags with ⟨taken, hforest, -, -⟩
    refine ⟨hforest, (h.mapTaken_beside hup hleaf hfree hflags).mono ?_⟩
    rintro b q (rfl | ⟨i, q', rfl, hi⟩) ⟨hb, hpre⟩
    · cases hb
    · rcases hpre with ⟨q'', hpre⟩
      rw [(List.cons.inj hpre).1] at hi
      exact hi hslot

theorem growth_beside (hD : D = WithTree kernelOnly false S 3)
    (h : Forest (twoRoots kernelCr3 a) D E vm) (hgrow : HeapGrowth kernelCr3 vm vm') :
    Forest (twoRoots kernelCr3 a) D E vm' ∧
      Beside (twoRoots kernelCr3 a) D E OffHeap vm vm' := by
  induction hgrow with
  | refl => exact ⟨h, .refl⟩
  | tail _ hstep ih =>
    rcases growStep_beside hD ih.1 hstep with ⟨hforest, hbeside⟩
    exact ⟨hforest, ih.2.trans h.tracked hbeside⟩

end Growth

/-! ## Mapping the stack -/

section Stack

variable {kernelCr3 a s : Nat} {rest₂ : List Nat} {vm vm₂ vm₃ vm' : Vm}
  {D E : Bool → List (Fin 512) → Prop}

/-- The stack's slot of the new PML4 is its own, or that of the kernel. -/
theorem walk_stack_congr {mem : ByteMem} {q : List (Fin 512)}
    (h : child mem a stackSlot = child mem kernelCr3 stackSlot) :
    walk (child mem) a (stackSlot :: q) = walk (child mem) kernelCr3 (stackSlot :: q) := by
  rw [walk_cons, walk_cons, h]

theorem path_userStackVaddr : path userStackVaddr = [stackSlot, 0, 0, 0] := by decide

/-- Where the kernel has no table for the stack, all three are made for the new PML4. -/
theorem mapStack_own (hD : D = WithTree kernelOnly false (OwnSlot kernelCr3 vm.mem) 3)
    (h : Forest (twoRoots kernelCr3 a) D E vm₂) (hslot : child vm.mem kernelCr3 stackSlot = none)
    (ha : child vm₂.mem a stackSlot = none) (hfree : vm₂.free = s :: rest₂)
    (hmap : (mapAt a userStackVaddr s (mapUserFlags userPageFlags true) ⟨vm₂.mem, rest₂⟩).2 = vm₃) :
    walk (child vm₃.mem) a (path userStackVaddr) =
      if missing (child vm.mem) kernelCr3 (upperPath userStackVaddr) ≤ rest₂.length then some s
      else none := by
  have hown := withTree_ownStack hslot
  rw [← hD] at hown
  have hmissing : missing (child vm₂.mem) a (upperPath userStackVaddr) =
      missing (child vm.mem) kernelCr3 (upperPath userStackVaddr) := by
    rw [upperPath_userStackVaddr, missing, missing, ha, hslot]
  have hpath := h.mapTaken_path hown.1 hown.2 hfree (mapUserFlags_mod_two userPageFlags true)
  rw [show twoRoots kernelCr3 a false = a from rfl, hmap, hmissing] at hpath
  exact hpath

/-- Where it has one, both PML4s have it before and after, and the stack is mapped below
it. -/
theorem mapStack_shared {g : Nat} (hD : D = WithTree kernelOnly false (OwnSlot kernelCr3 vm.mem) 3)
    (h : Forest (twoRoots kernelCr3 a) D E vm₂) (ha : child vm₂.mem a stackSlot = some g)
    (hk : child vm₂.mem kernelCr3 stackSlot = some g) (hfree : vm₂.free = s :: rest₂)
    (hmap : (mapAt a userStackVaddr s (mapUserFlags userPageFlags true) ⟨vm₂.mem, rest₂⟩).2 = vm₃) :
    walk (child vm₃.mem) a [stackSlot] = some g ∧
      walk (child vm₃.mem) kernelCr3 [stackSlot] = some g ∧
      walk (child vm₃.mem) kernelCr3 (path userStackVaddr) =
        if missing (child vm₂.mem) kernelCr3 (upperPath userStackVaddr) ≤ rest₂.length then some s
        else none := by
  have hflags := mapUserFlags_mod_two userPageFlags true
  have hup : D true (upperPath userStackVaddr) := hD ▸ (withTree_kernel _).1
  have hleaf : ¬ D true (path userStackVaddr) := hD ▸ (withTree_kernel _).2
  rw [mapAt_stack ha hk] at hmap
  have hpath := h.mapTaken_path hup hleaf hfree hflags
  have hbeside := h.mapTaken_beside hup hleaf hfree hflags
  rw [show twoRoots kernelCr3 a true = kernelCr3 from rfl, hmap] at hpath hbeside
  refine ⟨?_, ?_, hpath⟩
  · have hroot : D false [] := hD ▸ Or.inr ⟨rfl, slotPath_nil _ _⟩
    have hbelow := (h.tracked.closed false).below_concat (p := []) (i := stackSlot) hroot
    exact (hbeside.walks false [stackSlot] hbelow (by simp)).trans
      ((walk_singleton a stackSlot).trans ha)
  · rw [← hmap]
    exact h.mapTaken_keeps (k := true) hup hleaf hfree (l := true) (hD ▸ Or.inl ⟨rfl, by decide⟩)
      ((walk_singleton kernelCr3 stackSlot).trans hk)

/-- What the stack's address leads to when it has been mapped, and that the heap
does not change it. -/
theorem mapStack_walk (hD : D = WithTree kernelOnly false (OwnSlot kernelCr3 vm.mem) 3)
    (h : Forest (twoRoots kernelCr3 a) D E vm₂)
    (ha : child vm₂.mem a stackSlot = child vm.mem kernelCr3 stackSlot)
    (hk : ∀ p, p <+: upperPath userStackVaddr →
      walk (child vm₂.mem) kernelCr3 p = walk (child vm.mem) kernelCr3 p)
    (hfree : vm₂.free = s :: rest₂)
    (hmap : vmmMapUser a userStackVaddr s userPageFlags true ⟨vm₂.mem, rest₂⟩ = vm₃)
    (hgrow : HeapGrowth kernelCr3 vm₃ vm') :
    walk (child vm'.mem) a (path userStackVaddr) =
      if missing (child vm.mem) kernelCr3 (upperPath userStackVaddr) ≤ rest₂.length then some s
      else none := by
  have hk₁ := hk [stackSlot] ⟨[0, 0], rfl⟩
  rw [walk_singleton, walk_singleton] at hk₁
  have hforest₃ := (mapStack_beside hD h ha hk₁ hfree hmap).1
  have hbeside := (growth_beside hD hforest₃ hgrow).2
  rw [vmmMapUser, if_neg (h.freeOk.nonzero s (mem_of_eq_cons hfree))] at hmap
  cases hslot : child vm.mem kernelCr3 stackSlot with
  | none =>
    rw [← mapStack_own hD h hslot (ha.trans hslot) hfree hmap]
    have hup : D false (upperPath userStackVaddr) := hD ▸ (withTree_ownStack hslot).1
    exact hbeside.walks false _ ((h.tracked.closed false).below_concat hup) (Or.inl rfl)
  | some g =>
    rcases mapStack_shared hD h (ha.trans hslot) (hk₁.trans hslot) hfree hmap with
      ⟨ha₃, hk₃, hpath⟩
    have hup : D true (upperPath userStackVaddr) := hD ▸ (withTree_kernel _).1
    have hbelow : ∀ b, Below (D b) [stackSlot] := by
      intro b
      apply (h.tracked.closed b).below_concat (p := [])
      rw [hD]
      cases b with
      | false => exact Or.inr ⟨rfl, slotPath_nil _ _⟩
      | true => exact Or.inl ⟨rfl, Nat.zero_le _⟩
    -- the heap leaves the kernel's table for the stack in both PML4s
    have ha' : walk (child vm'.mem) a [stackSlot] = some g :=
      (hbeside.walks false [stackSlot] (hbelow false) (Or.inl rfl)).trans ha₃
    have hk' : walk (child vm'.mem) kernelCr3 [stackSlot] = some g :=
      (hbeside.walks true [stackSlot] (hbelow true)
        (Or.inr ⟨stackSlot, [], rfl, not_heapSlot_stack⟩)).trans hk₃
    rw [walk_singleton] at ha' hk'
    have hstack := hbeside.walks true (path userStackVaddr)
      ((h.tracked.closed true).below_concat hup)
      (Or.inr ⟨stackSlot, [0, 0, 0], path_userStackVaddr, not_heapSlot_stack⟩)
    rw [path_userStackVaddr, walk_stack_congr (ha'.trans hk'.symm), ← path_userStackVaddr,
      ← missing_congr hk]
    exact hstack.trans hpath

end Stack

/-! ## The stack of a loaded thread -/

section Loaded

variable {k k' : Kernel} {live : List (Nat × Nat)} {fuel size : Nat} {image : Nat → UInt8}
  {proc : ProcPtr} {t : Tid}

/-- Making the PML4 and copying the image keep the kernel's paths to its tables. -/
theorem kernelPath_kept {kernelCr3 a vaddr : Nat} {rest : List Nat} {vm vm₂ : Vm}
    {D E : Bool → List (Fin 512) → Prop} (hwf : WellFormed kernelCr3 vm)
    (hfree : vm.free = a :: rest) (h : Forest (twoRoots kernelCr3 a) D E vm₂)
    (hbeside : Beside (twoRoots kernelCr3 a) D E (OffImage false vaddr size)
      ⟨newPml4 kernelCr3 a vm.mem, rest⟩ vm₂)
    {p : List (Fin 512)} (hD : D true p) (hp : p.length ≤ 3) :
    walk (child vm₂.mem) kernelCr3 p = walk (child vm.mem) kernelCr3 p := by
  have ha := hwf.freeOk.aligned a (mem_of_eq_cons hfree)
  have hoff : OffImage false vaddr size true p := by
    rintro n hn ⟨hfalse, -⟩
    cases hfalse
  have hcopied := hbeside.walks true p (h.tracked.below true p (h.tracked.sub true p hD)) hoff
  -- the new PML4 was a free page, so no table of the kernel is overwritten
  have hfresh : Fresh (child vm.mem) (twoRoots kernelCr3 a) kernelOnly a := by
    rintro b q ⟨rfl, hq⟩ hwalk
    exact hwf.notFree q a hq hwalk (mem_of_eq_cons hfree)
  have hmade : walk (child (newPml4 kernelCr3 a vm.mem)) kernelCr3 p =
      walk (child vm.mem) kernelCr3 p :=
    (forest_kernelOnly hwf ha).walk_scribble (k := true) hfresh ha (fun x hx => newPml4_apply hx)
      ((forest_kernelOnly hwf ha).tracked.below true p ⟨rfl, hp⟩)
  exact hcopied.trans hmade

/-- What the address of the stack leads to in the address space of a loaded
thread: the page that was taken for it, or nothing. -/
theorem loadRaw_stack (hwf : WellFormed k.kernelCr3 k.vm) (hfew : k.vm.free.length ≤ maxFreeList)
    (hheap : (k.heapState live).Ready)
    (h : loadRaw fuel image size proc k = some (some t, k')) :
    ∃ s ∈ k.vm.free, s ∉ k'.vm.free ∧
      walk (child k'.vm.mem) (k'.procs proc).pml4Phys (path userStackVaddr) =
        if loadFrames size + missing (child k.vm.mem) k.kernelCr3 (upperPath userStackVaddr) <
          k.vm.free.length then some s else none := by
  have hgrow := loadRaw_growth hheap h
  cases loadRaw_outcome h with
  | @space a vm₃ _ _ hspace hthread =>
    rw [hspace] at hgrow
    rcases loadSpace_of_some hwf.freeOk hspace with
      ⟨rest, vm₂, s, rest₂, hfree, hcode, hfree₂, himage, hstack⟩
    rcases Kernel.threadCreateUser_mapSteps hthread with ⟨hsteps, hprocs⟩
    -- the image is no larger than the free memory, so its pages are in the lower half
    have hend : ∀ n, 4096 * n < size → userCodeVaddr + 4096 * n < 2 ^ 47 := by
      intro n hn
      have hsize := loadCode_size hcode
      rw [hfree, List.length_cons] at hfew
      simp only [userCodeVaddr, maxFreeList] at *
      omega
    have hown : ∀ i : Fin 512, i.val < 256 → OwnSlot k.kernelCr3 k.vm.mem i :=
      fun i hi => Or.inl hi
    have hforest := forest_newPml4 hwf hfree
    rcases loadCode_pages (k := false) hforest (fun v hv => withTree_path hown hv) hend hcode with
      ⟨hforest₂, hsuffix, hbeside₂, -⟩
    have hslot := (stackSlot_kept hwf hfree hforest₂ hbeside₂ hend).1
    have hkernel : ∀ p, p <+: upperPath userStackVaddr →
        walk (child vm₂.mem) k.kernelCr3 p = walk (child k.vm.mem) k.kernelCr3 p := by
      intro p hp
      have hlen : p.length ≤ 3 := hp.length_le
      exact kernelPath_kept hwf hfree hforest₂ hbeside₂ (Or.inl ⟨rfl, hlen⟩) hlen
    have hwalk := mapStack_walk rfl hforest₂ hslot hkernel hfree₂ hstack hgrow
    have hpml4 : (k'.procs proc).pml4Phys = a := by
      rw [hprocs]
      exact congrArg Process.pml4Phys (Kernel.modifyProc_self _ proc _)
    refine ⟨s, ?_, ?_, ?_⟩
    · rw [hfree]
      exact List.mem_cons_of_mem a (hsuffix.subset (mem_of_eq_cons hfree₂))
    · intro hs
      have hmapped := vmmMapUser_free a userStackVaddr s userPageFlags true ⟨vm₂.mem, rest₂⟩
      rw [hstack] at hmapped
      have hnodup := hforest₂.freeOk.nodup
      rw [hfree₂] at hnodup
      exact (List.nodup_cons.mp hnodup).1 (((mapSteps_free hsteps).trans hmapped).subset hs)
    · have hmore : missing (child k.vm.mem) k.kernelCr3 (upperPath userStackVaddr) ≤ rest₂.length ↔
          loadFrames size + missing (child k.vm.mem) k.kernelCr3 (upperPath userStackVaddr) <
            k.vm.free.length := by
        rcases loadImage_frames (hwf.loadReady hfew) image size with
          ⟨-, vm', hnone⟩ | ⟨a', s', mem, hat, hsome⟩
        · rw [himage] at hnone
          cases hnone
        · rw [himage] at hsome
          cases hsome
          have hlt := (List.getElem?_eq_some_iff.mp hat).1
          rw [List.length_drop]
          omega
      rw [hpml4, hwalk]
      exact if_congr hmore rfl rfl

/-- The thread's stack is a page that this call took. -/
def StackTaken (k k' : Kernel) (proc : ProcPtr) : Prop :=
  ∃ f ∈ k.vm.free, f ∉ k'.vm.free ∧
    walk (child k'.vm.mem) (k'.procs proc).pml4Phys (path userStackVaddr) = some f

/-- A loaded thread has a stack exactly if there were free pages for the load, for
the stack, and for every table that the kernel's address space has not on the path
to the stack. -/
theorem loadRaw_stackTaken_iff (hwf : WellFormed k.kernelCr3 k.vm)
    (hfew : k.vm.free.length ≤ maxFreeList) (hheap : (k.heapState live).Ready)
    (h : loadRaw fuel image size proc k = some (some t, k')) :
    StackTaken k k' proc ↔
      loadFrames size + missing (child k.vm.mem) k.kernelCr3 (upperPath userStackVaddr) <
        k.vm.free.length := by
  rcases loadRaw_stack hwf hfew hheap h with ⟨s, hs, hs', hwalk⟩
  constructor
  · rintro ⟨f, -, -, hf⟩
    by_contra hlen
    rw [if_neg hlen, hf] at hwalk
    cases hwalk
  · intro hlen
    rw [if_pos hlen] at hwalk
    exact ⟨s, hs, hs', hwalk⟩

/-- A load of the empty image needs two free pages, if the heap has room. -/
theorem loadRaw_empty (image : Nat → UInt8) (proc : ProcPtr) {a b : Nat} {rest : List Nat}
    (hok : FreeOk (a :: b :: rest)) (hfew : (a :: b :: rest).length ≤ maxFreeList) :
    ∃ t k', loadRaw 8 image 0 proc (bootKernel ⟨fun _ => 0, a :: b :: rest⟩) =
      some (some t, k') := by
  have hspace := loadSpace_empty 0x1000 image
    (rfl : (bootKernel ⟨fun _ => 0, a :: b :: rest⟩).vm.free = a :: b :: rest)
    (hok.nonzero a (by simp)) (hok.nonzero b (by simp))
  rcases loadRaw_of_spare (k := bootKernel ⟨fun _ => 0, a :: b :: rest⟩) proc hspace
    (freshHeap_spare hfew) (by decide) (by decide : 1 + 1 < 8) with ⟨t, k', -, hload, -⟩
  exact ⟨t, k', hload⟩

/-- An empty address space has none of the three tables. -/
theorem missing_zero : missing (child fun _ => 0) 0x1000 (upperPath userStackVaddr) = 3 := by
  rw [upperPath_userStackVaddr, missing, child_zero]
  rfl

end Loaded

theorem loadRaw_stackTaken_loadPages :
    ∃ t k', loadRaw 8 (fun _ => 0) 0 2 (bootKernel ⟨fun _ => 0, loadPages⟩) = some (some t, k') ∧
      StackTaken (bootKernel ⟨fun _ => 0, loadPages⟩) k' 2 := by
  have hfew : loadPages.length ≤ maxFreeList := by decide
  rcases loadRaw_empty (fun _ => 0) 2 wellFormed_loadPages.freeOk hfew with
    ⟨t, k', hload⟩
  refine ⟨t, k', hload, ?_⟩
  have hheap : ((bootKernel ⟨fun _ => 0, loadPages⟩).heapState []).Ready :=
    (freshHeap_spare hfew).ready
  apply (loadRaw_stackTaken_iff wellFormed_loadPages hfew hheap hload).mpr
  show loadFrames 0 + missing (child fun _ => 0) 0x1000 _ < loadPages.length
  rw [missing_zero]
  decide

/-- Two free pages: one for the PML4, one for the stack. -/
def twoFree : List Nat := [0x2000, 0x3000]

/-- The thread is made, and its stack is not mapped. -/
theorem loadRaw_without_stack :
    WellFormed 0x1000 ⟨fun _ => 0, twoFree⟩ ∧
      ∃ t k', loadRaw 8 (fun _ => 0) 0 2 (bootKernel ⟨fun _ => 0, twoFree⟩) = some (some t, k') ∧
        walk (child k'.vm.mem) (k'.procs 2).pml4Phys (path userStackVaddr) = none := by
  have hwf : WellFormed 0x1000 ⟨fun _ => 0, twoFree⟩ :=
    wellFormed_zero (by decide) (by decide) ⟨by decide, by decide, by decide, by decide⟩
  have hfew : twoFree.length ≤ maxFreeList := by decide
  rcases loadRaw_empty (fun _ => 0) 2 hwf.freeOk hfew with ⟨t, k', hload⟩
  refine ⟨hwf, t, k', hload, ?_⟩
  rcases loadRaw_stack (k := bootKernel ⟨fun _ => 0, twoFree⟩) hwf hfew
    (freshHeap_spare hfew).ready hload with ⟨s, -, -, hwalk⟩
  rw [hwalk, if_neg]
  show ¬ loadFrames 0 + missing (child fun _ => 0) 0x1000 _ < twoFree.length
  rw [missing_zero]
  decide

end Orchid
