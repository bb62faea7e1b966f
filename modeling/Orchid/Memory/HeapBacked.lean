import Orchid.Memory.AddressSpace
import Orchid.Memory.HeapRequests

/-! # Whether the heap is mapped

The page of a growth and the tables to map it come from one free stack, and
`vmm_map` does not say whether it got the tables. The heap goes on as if it had,
and `heap_init` as if it had got a page.

* `kmallocStores` are the headers that a call stores to, each with the machine's
  memory at that moment; `kmalloc_outside_stores` says that these are all.
* `Supplied` is what a call needs: for the first page of the heap, and at every
  growth that takes a page, a free page for it and one for each missing table.
* `HeapState.kmalloc_onlyMapped_iff`: after calls that were all supplied, a call
  uses mapped memory only exactly if it is supplied.
-/

namespace Orchid

open ByteMem LinkedList Machine Radix Tiling

/-! ## The stores of a call -/

/-- A header that is stored to, and the machine's memory then. -/
structure HeaderStore where
  block : Nat
  vm : Vm

/-- The headers that `heap_init` stores to. -/
def heapInitStores (pml4 : Nat) (h : Heap) (vm : Vm) : List HeaderStore :=
  [⟨heapStartVirt, (heapInit pml4 h vm).2⟩]

/-- The headers that `heap_expand_locked` stores to: the new block, and the last
block so far. -/
def heapExpandStores (pml4 fuel : Nat) (h : Heap) (vm : Vm) : List HeaderStore :=
  let (phys, vm) := vm.allocPage
  if phys = 0 then [] else
  let vm := vmmMap pml4 h.endVirt phys (vmmPresent ||| vmmWritable) vm
  let mem := setHeader h.mem h.endVirt (pageSize - headerSize) 1 0
  ⟨h.endVirt, vm⟩ :: if h.head = 0 then [] else
    (walkTail (linkOf mem) fuel h.head).toList.map fun last => ⟨last, vm⟩

/-- The headers that `kmalloc` stores to when it has found a block. -/
def carveStores (mem : ByteMem) (curr size : Nat) (vm : Vm) : List HeaderStore :=
  (if (size + headerSize + 8) % 2 ^ 64 ≤ blockSize mem curr then
    [⟨(curr + headerSize + size) % 2 ^ 64, vm⟩] else []) ++ [⟨curr, vm⟩]

/-- The headers that the outer loop of `kmalloc` stores to. -/
def kmallocLoopStores (pml4 walkFuel size : Nat) : Nat → Heap → Vm → List HeaderStore
  | 0, _, _ => []
  | fuel + 1, h, vm =>
    match firstFit h.mem size walkFuel h.head with
    | none => []
    | some (some curr) => carveStores h.mem curr size vm
    | some none =>
      heapExpandStores pml4 walkFuel h vm ++
        match heapExpandLocked pml4 walkFuel h vm with
        | some (true, h, vm) => kmallocLoopStores pml4 walkFuel size fuel h vm
        | _ => []

/-- The headers that `kmalloc` stores to. -/
def kmallocStores (pml4 fuel n : Nat) (h : Heap) (vm : Vm) : List HeaderStore :=
  (if h.initialized then [] else heapInitStores pml4 h vm) ++
    kmallocLoopStores pml4 fuel (roundUp n) fuel (started pml4 h vm).1 (started pml4 h vm).2

section Stores

variable {pml4 walkFuel size fuel n p x : Nat} {h h' : Heap} {vm vm' : Vm}

/-- The address is in none of the headers. -/
def Outside (x : Nat) (stores : List HeaderStore) : Prop := ∀ w ∈ stores, ¬ InHeader w.block x

theorem outside_append {l r : List HeaderStore} :
    Outside x (l ++ r) ↔ Outside x l ∧ Outside x r := by
  unfold Outside
  simp only [List.mem_append, or_imp, forall_and]

theorem carve_outside {curr : Nat} (hx : Outside x (carveStores h.mem curr size vm)) :
    carve h.mem curr size x = h.mem x := by
  rw [carveStores, outside_append] at hx
  have hcurr : ¬ InHeader curr x := hx.2 ⟨curr, vm⟩ (by simp)
  rw [carve]
  simp only [setFree_apply hcurr]
  split
  · next hsplit =>
    rw [if_pos hsplit] at hx
    rw [setNext_apply hcurr, setSize_apply hcurr, setHeader_apply (hx.1 _ List.mem_cons_self)]
  · rfl

theorem appendBlock_outside {mem : ByteMem} {last newBlock : Nat} (hx : ¬ InHeader last x) :
    appendBlock mem last newBlock x = mem x := by
  rw [appendBlock]
  split
  · exact setSize_apply hx
  · exact setNext_apply hx

theorem heapExpandLocked_outside {b : Bool}
    (hgrow : heapExpandLocked pml4 fuel h vm = some (b, h', vm'))
    (hx : Outside x (heapExpandStores pml4 fuel h vm)) : h'.mem x = h.mem x := by
  simp only [heapExpandLocked] at hgrow
  simp only [heapExpandStores] at hx
  split at hgrow
  · cases hgrow
    rfl
  next hphys =>
  rw [if_neg hphys] at hx
  have hnew : setHeader h.mem h.endVirt (pageSize - headerSize) 1 0 x = h.mem x :=
    setHeader_apply (hx _ List.mem_cons_self)
  split at hgrow
  · cases hgrow
    exact hnew
  · next hhead =>
    rcases Option.map_eq_some_iff.mp hgrow with ⟨last, hlast, heq⟩
    rw [Prod.mk.injEq, Prod.mk.injEq] at heq
    rcases heq with ⟨-, rfl, -⟩
    rw [if_neg hhead, hlast] at hx
    have hout : ¬ InHeader last x := hx _ (List.mem_cons_of_mem _ List.mem_cons_self)
    simp only [appendBlock_outside hout, hnew]

theorem kmallocLoop_outside
    (hcall : kmallocLoop pml4 walkFuel size fuel h vm = some (p, h', vm'))
    (hx : Outside x (kmallocLoopStores pml4 walkFuel size fuel h vm)) : h'.mem x = h.mem x := by
  induction fuel generalizing h vm with
  | zero => cases hcall
  | succ fuel ih =>
    rw [kmallocLoop] at hcall
    rw [kmallocLoopStores] at hx
    split at hcall
    · cases hcall
    · next curr hfit =>
      cases hcall
      simp only [hfit] at hx
      exact carve_outside hx
    · next hnone =>
      simp only [hnone, outside_append] at hx
      split at hcall
      · cases hcall
      · next hgrow =>
        cases hcall
        exact heapExpandLocked_outside hgrow hx.1
      · next h₁ vm₁ hgrow =>
        rw [hgrow] at hx
        exact (ih hcall hx.2).trans (heapExpandLocked_outside hgrow hx.1)

/-- A call changes no byte of the heap outside the headers it stores to. -/
theorem kmalloc_outside_stores (hcall : kmalloc pml4 fuel n h vm = some (p, h', vm'))
    (hx : Outside x (kmallocStores pml4 fuel n h vm)) : h'.mem x = h.mem x := by
  rw [kmallocStores, outside_append] at hx
  rw [kmalloc_eq_started] at hcall
  rw [kmallocLoop_outside hcall hx.2, started]
  split
  · rfl
  · next hcold =>
    rw [if_neg hcold] at hx
    have hout : ¬ InHeader heapStartVirt x := hx.1 _ List.mem_cons_self
    simp only [heapInit, setHeader_apply hout]

end Stores

/-! ## Mapping a page of the heap -/

/-- `vmm_virt_to_phys` maps every byte from `a` up to `b`. -/
def MappedRange (pml4 : Nat) (vm : Vm) (a b : Nat) : Prop :=
  ∀ x, a ≤ x → x < b → vmmVirtToPhys vm.mem pml4 x ≠ 0

/-- There is a free page for `v`, and one for each table that is missing. -/
def Enough (pml4 : Nat) (vm : Vm) (v : Nat) : Prop :=
  missing (child vm.mem) pml4 (upperPath v) + 1 ≤ vm.free.length

section Pages

variable {pml4 v c : Nat} {rest : List Nat} {vm vm' : Vm}

theorem vmmVirtToPhys_of_none (h : walk (child vm.mem) pml4 (path v) = none) :
    vmmVirtToPhys vm.mem pml4 v = 0 := by
  rw [vmmVirtToPhys, lookup_eq_walk, h]

/-- A page that is mapped shares its tables with the pages around it. -/
theorem missing_of_mapped {w : Nat} (hv : vmmVirtToPhys vm.mem pml4 v ≠ 0)
    (hw : upperPath w = upperPath v) : missing (child vm.mem) pml4 (upperPath w) = 0 := by
  rw [vmmVirtToPhys, lookup_eq_walk, path, walk_append] at hv
  rw [hw]
  cases hwalk : walk (child vm.mem) pml4 (upperPath v) with
  | none =>
    rw [hwalk] at hv
    exact absurd rfl hv
  | some f => exact missing_of_walk hwalk

/-- Mapping a page just taken at `v`: with enough pages it is mapped, and else
all pages are gone and it is not. -/
theorem vmmMap_taken (hwf : WellFormed pml4 vm) (hfree : vm.free = c :: rest)
    (hmap : vmmMap pml4 v c (vmmPresent ||| vmmWritable) ⟨vm.mem, rest⟩ = vm') :
    WellFormed pml4 vm' ∧
      (Enough pml4 vm v → ∀ x, vmmVirtToPhys vm'.mem pml4 x =
        if pageOf v = pageOf x then c ||| (x &&& 0xFFF) else vmmVirtToPhys vm.mem pml4 x) ∧
      (¬ Enough pml4 vm v → vm'.free = [] ∧ walk (child vm'.mem) pml4 (path v) = none) := by
  have hcmem : c ∈ vm.free := mem_of_eq_cons hfree
  have hpop := hwf.pop hfree
  have hD : tablePaths () (upperPath v) := (length_upperPath v).le
  have hvalid : (MapCall.map v c (vmmPresent ||| vmmWritable)).Valid := by
    intro phys hphys
    obtain rfl := Option.some.inj hphys
    exact ⟨hwf.freeOk.aligned c hcmem, Nat.pos_of_ne_zero (hwf.freeOk.nonzero c hcmem),
      hwf.freeOk.small c hcmem⟩
  have hrun : MapCall.run pml4 (.map v c (vmmPresent ||| vmmWritable)) ⟨vm.mem, rest⟩ = vm' := hmap
  refine ⟨hrun ▸ MapCall.run_wellFormed _ hpop, ?_, ?_⟩
  · intro henough x
    rw [Enough, hfree, List.length_cons, Nat.add_le_add_iff_right] at henough
    have hlookup := MapCall.run_lookup hpop hvalid x
    rw [hrun] at hlookup
    simpa [vmmVirtToPhys, MapCall.virt, MapCall.frame, MapCall.need, henough] using hlookup
  · intro hfew
    rw [Enough, hfree, List.length_cons, Nat.add_le_add_iff_right, Nat.not_le] at hfew
    rcases mapAt_of_missing (k := ()) hpop.forest hD hfew c
      (mapFlags (vmmPresent ||| vmmWritable)) with ⟨taken, vm₁, hdone, hempty, hnone, -⟩
    rw [vmmMap, if_neg (hwf.freeOk.nonzero c hcmem), hdone] at hmap
    subst hmap
    refine ⟨hempty, ?_⟩
    rw [path, walk_append, hnone]
    rfl

/-- One more page of the heap. -/
theorem MappedRange.extend {a : Nat} (hmapped : MappedRange pml4 vm a v)
    (hc : c ≠ 0) (hv : v % 4096 = 0)
    (hnew : ∀ x, vmmVirtToPhys vm'.mem pml4 x =
      if pageOf v = pageOf x then c ||| (x &&& 0xFFF) else vmmVirtToPhys vm.mem pml4 x) :
    MappedRange pml4 vm' a (v + 4096) := by
  intro x hlo hhi
  rw [hnew]
  split
  · intro hzero
    exact hc (Nat.or_eq_zero_iff.mp hzero).1
  · next hpage =>
    apply hmapped x hlo
    by_contra hge
    apply hpage
    unfold pageOf
    omega

end Pages

/-! ## Growing a heap that is mapped -/

/-- The 24 bytes of the header are mapped when they are stored to. -/
def HeaderStore.Mapped (pml4 : Nat) (w : HeaderStore) : Prop :=
  MappedRange pml4 w.vm w.block (w.block + headerSize)

/-- The kernel's tables are a tree, and every page of the heap is mapped. -/
structure Backed (pml4 : Nat) (h : Heap) (vm : Vm) : Prop where
  wellFormed : WellFormed pml4 vm
  aligned : h.endVirt % 4096 = 0
  mapped : MappedRange pml4 vm heapStartVirt h.endVirt

section Growth

variable {pml4 fuel : Nat} {h h' : Heap} {vm vm' : Vm} {bs : List Block}

/-- A growth that succeeds has taken a page, and mapped it or not. -/
theorem heapExpandLocked_grew
    (hgrow : heapExpandLocked pml4 fuel h vm = some (true, h', vm')) :
    h'.endVirt = h.endVirt + 4096 ∧ ∃ c rest, vm.free = c :: rest ∧ c ≠ 0 ∧
      vmmMap pml4 h.endVirt c (vmmPresent ||| vmmWritable) ⟨vm.mem, rest⟩ = vm' := by
  simp only [heapExpandLocked] at hgrow
  split at hgrow
  · cases hgrow
  next hphys =>
  rcases Vm.allocPage_of_ne hphys with ⟨c, rest, hfree, halloc⟩
  rw [halloc] at hphys hgrow
  split at hgrow
  · rw [Option.some.injEq, Prod.mk.injEq, Prod.mk.injEq] at hgrow
    rcases hgrow with ⟨-, rfl, hvm⟩
    exact ⟨rfl, c, rest, hfree, hphys, hvm⟩
  · rcases Option.map_eq_some_iff.mp hgrow with ⟨last, -, heq⟩
    rw [Prod.mk.injEq, Prod.mk.injEq] at heq
    rcases heq with ⟨-, rfl, hvm⟩
    exact ⟨rfl, c, rest, hfree, hphys, hvm⟩

/-- It stores to the header of the new block, and to one inside the heap. -/
theorem heapExpandStores_grew (ht : Tiled h bs)
    (hgrow : heapExpandLocked pml4 fuel h vm = some (true, h', vm')) :
    ∃ last, heapExpandStores pml4 fuel h vm = [⟨h.endVirt, vm'⟩, ⟨last, vm'⟩] ∧
      heapStartVirt ≤ last ∧ last + headerSize ≤ h.endVirt := by
  have hhead : h.head ≠ 0 := Nat.ne_of_gt ht.pos
  simp only [heapExpandLocked] at hgrow
  split at hgrow
  · cases hgrow
  next hphys =>
  rcases Option.map_eq_some_iff.mp hgrow with ⟨last, hlast, heq⟩
  rw [Prod.mk.injEq, Prod.mk.injEq] at heq
  rcases heq with ⟨-, -, hvm⟩
  refine ⟨last, ?_, ?_⟩
  · simp only [heapExpandStores, if_neg hphys, if_neg hhead, hlast, hvm]
    rfl
  · obtain ⟨l, b, rfl⟩ := (List.eq_nil_or_concat' bs).resolve_left ht.nonempty
    obtain rfl := (walkTail_rep (ht.rep_newBlock _) ht.pos).2 hlast
    have hend := ht.finish
    simp only [extent_append, extent_cons, extent_nil] at hend
    rw [ht.head] at *
    omega

theorem heapExpandStores_of_empty (hempty : vm.free = []) : heapExpandStores pml4 fuel h vm = [] := by
  rw [heapExpandStores, Vm.allocPage_of_nil hempty]
  rfl

theorem Backed.zero_notMem (hb : Backed pml4 h vm) : 0 ∉ vm.free :=
  fun hmem => hb.wellFormed.freeOk.nonzero 0 hmem rfl

/-- A growth of a heap that is filled by its blocks. -/
theorem Tiled.expand (ht : Tiled h bs) (hroom : HasRoom h vm)
    (hgrow : heapExpandLocked pml4 fuel h vm = some (true, h', vm')) :
    ∃ bs', Tiled h' bs' ∧ HasRoom h' vm' := by
  rcases heapExpandLocked_spec pml4 ht hroom fuel with
    ⟨hfalse, -⟩ | ⟨vm₁, hfalse, -⟩ | ⟨h₁, bs₁, vm₁, hres, ht₁, -, hreach, -⟩
  · rw [hfalse] at hgrow
    cases hgrow
  · rw [hfalse] at hgrow
    cases hgrow
  · rw [hres] at hgrow
    cases hgrow
    exact ⟨bs₁, ht₁, hreach.trans hroom⟩

/-- There is a block, so there is room for a header. -/
theorem Tiled.header_le (ht : Tiled h bs) : heapStartVirt + headerSize ≤ h.endVirt := by
  have hlen := List.length_pos_of_ne_nil ht.nonempty
  have hblocks : headerSize * bs.length ≤ extent headerSize bs := length_le_extent bs
  have hend := ht.finish
  rw [ht.head] at hend
  unfold headerSize at *
  omega

/-- The headers inside the heap are mapped. -/
theorem Backed.header_mapped {block : Nat} (hb : Backed pml4 h vm) (hlo : heapStartVirt ≤ block)
    (hhi : block + headerSize ≤ h.endVirt) : HeaderStore.Mapped pml4 ⟨block, vm⟩ :=
  fun x hx hx' => hb.mapped x (hlo.trans hx) (Nat.lt_of_lt_of_le hx' hhi)

theorem Backed.grow (hb : Backed pml4 h vm)
    (hgrow : heapExpandLocked pml4 fuel h vm = some (true, h', vm'))
    (henough : Enough pml4 vm h.endVirt) : Backed pml4 h' vm' := by
  rcases heapExpandLocked_grew hgrow with ⟨hend, c, rest, hfree, hc, hmap⟩
  rcases vmmMap_taken hb.wellFormed hfree hmap with ⟨hwf, hnew, -⟩
  refine ⟨hwf, ?_, ?_⟩
  · have haligned := hb.aligned
    omega
  · rw [hend]
    exact hb.mapped.extend hc hb.aligned (hnew henough)

/-- Without the pages for its tables the new block is not mapped. -/
theorem Backed.grow_unmapped (hb : Backed pml4 h vm)
    (hgrow : heapExpandLocked pml4 fuel h vm = some (true, h', vm'))
    (hfew : ¬ Enough pml4 vm h.endVirt) : vmmVirtToPhys vm'.mem pml4 h.endVirt = 0 := by
  rcases heapExpandLocked_grew hgrow with ⟨-, c, rest, hfree, -, hmap⟩
  exact vmmVirtToPhys_of_none ((vmmMap_taken hb.wellFormed hfree hmap).2.2 hfew).2

end Growth

/-! ## The loop of `kmalloc` -/

/-- At every round that grows the heap there are enough pages, or none. -/
def LoopSupplied (pml4 walkFuel size : Nat) (h : Heap) (vm : Vm) : Prop :=
  ∀ k h₁ vm₁, Rounds pml4 walkFuel size k h vm h₁ vm₁ →
    firstFit h₁.mem size walkFuel h₁.head = some none →
    vm₁.free = [] ∨ Enough pml4 vm₁ h₁.endVirt

section Loop

variable {pml4 walkFuel size fuel p : Nat} {h h₁ h' : Heap} {vm vm₁ vm' : Vm} {bs : List Block}

theorem LoopSupplied.next (hsup : LoopSupplied pml4 walkFuel size h vm)
    (hnone : firstFit h.mem size walkFuel h.head = some none)
    (hgrow : heapExpandLocked pml4 walkFuel h vm = some (true, h₁, vm₁)) :
    LoopSupplied pml4 walkFuel size h₁ vm₁ :=
  fun k h₂ vm₂ hrounds => hsup (k + 1) h₂ vm₂ (.cons hnone hgrow hrounds)

/-- The first round, and the rounds after it. -/
theorem loopSupplied_of_head
    (hhead : firstFit h.mem size walkFuel h.head = some none →
      vm.free = [] ∨ Enough pml4 vm h.endVirt)
    (hnext : ∀ h₁ vm₁, heapExpandLocked pml4 walkFuel h vm = some (true, h₁, vm₁) →
      LoopSupplied pml4 walkFuel size h₁ vm₁) : LoopSupplied pml4 walkFuel size h vm := by
  intro k h₂ vm₂ hrounds
  rcases hrounds.head_cases with ⟨-, rfl, rfl⟩ | ⟨-, j, h₁, vm₁, hgrow, hrest⟩
  · exact hhead
  · exact hnext h₁ vm₁ hgrow j h₂ vm₂ hrest

/-- A loop that finds a block at once needs no pages. -/
theorem loopSupplied_of_found {curr : Nat}
    (hfit : firstFit h.mem size walkFuel h.head = some (some curr)) :
    LoopSupplied pml4 walkFuel size h vm := by
  intro k h₂ vm₂ hrounds hnone
  rcases hrounds.head_cases with ⟨-, rfl, -⟩ | ⟨hfirst, -⟩
  · rw [hfit] at hnone
    cases hnone
  · rw [hfit] at hfirst
    cases hfirst

/-- The headers of a block that is carved up are inside the heap. -/
theorem Backed.carve_mapped {curr : Nat} (hb : Backed pml4 h vm) (ht : Tiled h bs)
    (hroom : HasRoom h vm) (hfit : firstFit h.mem size walkFuel h.head = some (some curr)) :
    ∀ w ∈ carveStores h.mem curr size vm, w.Mapped pml4 := by
  rcases (ht.lowest hfit).1 with ⟨b, hat, hfits⟩
  have hbounds := hat.bounds
  rw [ht.finish, ht.head] at hbounds
  have hsize : blockSize h.mem curr = b.size := (ht.rep.header_at hat).choose_spec.size
  intro w hw
  unfold carveStores at hw
  rcases List.mem_append.mp hw with hsplit | hcurr
  · have hstart : 32 < heapStartVirt := by decide
    have hend := hroom.le
    have hh : headerSize = 24 := rfl
    have hfits' := hfits.2
    rw [Nat.mod_eq_of_lt (by omega : size + headerSize + 8 < 2 ^ 64)] at hsplit
    split at hsplit
    · rw [List.mem_singleton.mp hsplit, Nat.mod_eq_of_lt (by omega)]
      exact hb.header_mapped (by omega) (by omega)
    · cases hsplit
  · rw [List.mem_singleton.mp hcurr]
    exact hb.header_mapped (by omega) (by omega)

/-- With the pages it needs, the loop stores to mapped headers and leaves a heap
that is mapped. -/
theorem Backed.loop (hb : Backed pml4 h vm) (ht : Tiled h bs) (hroom : HasRoom h vm)
    (hcall : kmallocLoop pml4 walkFuel size fuel h vm = some (p, h', vm'))
    (hsup : LoopSupplied pml4 walkFuel size h vm) :
    (∀ w ∈ kmallocLoopStores pml4 walkFuel size fuel h vm, w.Mapped pml4) ∧
      Backed pml4 h' vm' := by
  induction fuel generalizing h vm bs with
  | zero => cases hcall
  | succ fuel ih =>
    rw [kmallocLoop] at hcall
    split at hcall
    · cases hcall
    · next curr hfit =>
      cases hcall
      rw [kmallocLoopStores]
      simp only [hfit]
      exact ⟨hb.carve_mapped ht hroom hfit, hb.wellFormed, hb.aligned, hb.mapped⟩
    · next hnone =>
      rw [kmallocLoopStores]
      simp only [hnone]
      split at hcall
      · cases hcall
      · -- there is no page: nothing is stored, and NULL returned
        next hgrow =>
        rcases heapExpandLocked_refused hgrow hb.zero_notMem with ⟨hempty, rfl, rfl⟩
        cases hcall
        simp only [heapExpandStores_of_empty hempty, hgrow]
        exact ⟨fun w hw => absurd hw List.not_mem_nil, hb⟩
      · next h₁ vm₁ hgrow =>
        rcases heapExpandStores_grew ht hgrow with ⟨last, hstores, hlo, hhi⟩
        rcases heapExpandLocked_grew hgrow with ⟨hend, c, rest, hfree, -⟩
        have henough : Enough pml4 vm h.endVirt :=
          (hsup 0 h vm .start hnone).resolve_left (hfree ▸ List.cons_ne_nil c rest)
        have hb₁ := hb.grow hgrow henough
        rcases ht.expand hroom hgrow with ⟨bs₁, ht₁, hroom₁⟩
        rcases ih hb₁ ht₁ hroom₁ hcall (hsup.next hnone hgrow) with ⟨hrest, hb'⟩
        refine ⟨?_, hb'⟩
        simp only [hstores, hgrow, List.mem_append, List.mem_pair]
        have hh : headerSize = 24 := rfl
        have hlow : heapStartVirt ≤ h.endVirt := by omega
        rintro w ((rfl | rfl) | hw)
        · exact hb₁.header_mapped hlow (by omega)
        · exact hb₁.header_mapped hlo (by omega)
        · exact hrest w hw

/-- If all headers are mapped, the loop had the pages it needs. -/
theorem Backed.supplied (hb : Backed pml4 h vm) (ht : Tiled h bs) (hroom : HasRoom h vm)
    (hcall : kmallocLoop pml4 walkFuel size fuel h vm = some (p, h', vm'))
    (hmapped : ∀ w ∈ kmallocLoopStores pml4 walkFuel size fuel h vm, w.Mapped pml4) :
    LoopSupplied pml4 walkFuel size h vm := by
  induction fuel generalizing h vm bs with
  | zero => cases hcall
  | succ fuel ih =>
    rw [kmallocLoop] at hcall
    rw [kmallocLoopStores] at hmapped
    split at hcall
    · cases hcall
    · -- the first round is the last
      next curr hfit => exact loopSupplied_of_found hfit
    · next hnone =>
      simp only [hnone] at hmapped
      split at hcall
      · cases hcall
      · next hgrow =>
        rcases heapExpandLocked_refused hgrow hb.zero_notMem with ⟨hempty, -⟩
        apply loopSupplied_of_head
        · exact fun _ => Or.inl hempty
        · intro h₁ vm₁ hfalse
          rw [hgrow] at hfalse
          cases hfalse
      · next h₁ vm₁ hgrow =>
        rcases heapExpandStores_grew ht hgrow with ⟨last, hstores, -⟩
        simp only [hstores, hgrow, List.mem_append] at hmapped
        -- the header of the new block is mapped, so there were enough pages
        have henough : Enough pml4 vm h.endVirt := by
          by_contra hfew
          have hnew := hmapped ⟨h.endVirt, vm₁⟩ (Or.inl List.mem_cons_self)
          exact hnew h.endVirt (Nat.le_refl _) (Nat.lt_add_of_pos_right (by decide))
            (hb.grow_unmapped hgrow hfew)
        rcases ht.expand hroom hgrow with ⟨bs₁, ht₁, hroom₁⟩
        have hrest := ih (hb.grow hgrow henough) ht₁ hroom₁ hcall
          fun w hw => hmapped w (Or.inr hw)
        apply loopSupplied_of_head
        · exact fun _ => Or.inr henough
        · intro h₂ vm₂ hgrow'
          rw [hgrow] at hgrow'
          cases hgrow'
          exact hrest

/-- The loop uses mapped memory only exactly if it has the pages it needs. -/
theorem Backed.loop_iff (hb : Backed pml4 h vm) (ht : Tiled h bs) (hroom : HasRoom h vm)
    (hsize : size % 8 = 0)
    (hcall : kmallocLoop pml4 walkFuel size fuel h vm = some (p, h', vm')) :
    ((∀ w ∈ kmallocLoopStores pml4 walkFuel size fuel h vm, w.Mapped pml4) ∧
      (p ≠ 0 → MappedRange pml4 vm' p (p + payloadSize h' p))) ↔
      LoopSupplied pml4 walkFuel size h vm := by
  constructor
  · rintro ⟨hmapped, -⟩
    exact hb.supplied ht hroom hcall hmapped
  · intro hsup
    rcases hb.loop ht hroom hcall hsup with ⟨hmapped, hb'⟩
    refine ⟨hmapped, ?_⟩
    rcases kmallocLoop_spec hsize pml4 walkFuel fuel h bs vm ht hroom with
      ⟨hnone, -⟩ | ⟨p', h₁, vm₁, bs', hres, ha⟩
    · rw [hnone] at hcall
      cases hcall
    rw [hres] at hcall
    cases hcall
    intro hp x hlo hhi
    -- the block is one of the heap
    rcases ha.new with hnull | ⟨y, b, rfl, hat, -⟩
    · exact absurd hnull hp
    have hhead : h'.head = h.head := ha.tiled.head.trans ht.head.symm
    rw [← hhead] at hat
    have hbounds := hat.bounds
    rw [ha.tiled.finish, ha.tiled.head] at hbounds
    rw [ha.tiled.payloadSize_eq hat] at hhi
    exact hb'.mapped x (by omega) (by omega)

end Loop

/-! ## The first pages -/

section Boot

variable {pml4 i n endVirt : Nat} {h : Heap} {vm vm' : Vm}

/-- The initial pages have one page table. -/
theorem upperPath_initial (hi : i < 512) :
    upperPath (heapStartVirt + i * pageSize) = upperPath heapStartVirt := by
  have hpml4 : pml4Index (heapStartVirt + i * pageSize) = pml4Index heapStartVirt := by
    rw [pml4Index_eq, pml4Index_eq]
    unfold heapStartVirt pageSize
    omega
  have hpdpt : pdptIndex (heapStartVirt + i * pageSize) = pdptIndex heapStartVirt := by
    rw [pdptIndex_eq, pdptIndex_eq]
    unfold heapStartVirt pageSize
    omega
  have hpd : pdIndex (heapStartVirt + i * pageSize) = pdIndex heapStartVirt := by
    rw [pdIndex_eq, pdIndex_eq]
    unfold heapStartVirt pageSize
    omega
  rw [upperPath, hpml4, hpdpt, hpd, upperPath]

/-- Once the first page is mapped, so are all that the loop of `heap_init` takes. -/
theorem heapInitLoop_backed (hwf : WellFormed pml4 vm) (hi : i + n ≤ 512)
    (hend : endVirt = heapStartVirt + i * pageSize)
    (hfirst : i = 0 → 0 < n → Enough pml4 vm heapStartVirt)
    (hmapped : MappedRange pml4 vm heapStartVirt endVirt) :
    ∃ k, i ≤ k ∧ (0 < n → 0 < k) ∧
      (heapInitLoop pml4 i n endVirt vm).1 = heapStartVirt + k * pageSize ∧
      WellFormed pml4 (heapInitLoop pml4 i n endVirt vm).2 ∧
      MappedRange pml4 (heapInitLoop pml4 i n endVirt vm).2 heapStartVirt
        (heapInitLoop pml4 i n endVirt vm).1 := by
  induction n generalizing i endVirt vm with
  | zero => exact ⟨i, Nat.le_refl _, fun h => absurd h (Nat.lt_irrefl 0), hend, hwf, hmapped⟩
  | succ n ih =>
    rw [heapInitLoop]
    cases hfree : vm.free with
    | nil =>
      rw [Vm.allocPage_of_nil hfree]
      refine ⟨i, Nat.le_refl _, fun _ => ?_, hend, hwf, hmapped⟩
      by_contra hi0
      have henough := hfirst (by omega) (Nat.succ_pos n)
      rw [Enough, hfree] at henough
      cases henough
    | cons c rest =>
      have hc : c ≠ 0 := hwf.freeOk.nonzero c (mem_of_eq_cons hfree)
      rw [Vm.allocPage_of_cons hfree]
      simp only [if_neg hc]
      generalize hvm₁ : vmmMap pml4 (heapStartVirt + i * pageSize) c (vmmPresent ||| vmmWritable)
        ⟨vm.mem, rest⟩ = vm₁
      rcases vmmMap_taken hwf hfree hvm₁ with ⟨hwf₁, hnew, -⟩
      -- the first page needs its tables; the others have them from it
      have henough : Enough pml4 vm (heapStartVirt + i * pageSize) := by
        rcases Nat.eq_zero_or_pos i with rfl | hpos
        · rw [Nat.zero_mul, Nat.add_zero]
          exact hfirst rfl (Nat.succ_pos n)
        · have hstart : vmmVirtToPhys vm.mem pml4 heapStartVirt ≠ 0 := by
            apply hmapped heapStartVirt (Nat.le_refl _)
            rw [hend]
            exact Nat.lt_add_of_pos_right (Nat.mul_pos hpos (by decide))
          rw [Enough, missing_of_mapped hstart (upperPath_initial (by omega)), hfree]
          exact Nat.succ_le_succ (Nat.zero_le _)
      have haligned : (heapStartVirt + i * pageSize) % 4096 = 0 := by
        unfold heapStartVirt pageSize
        omega
      have hmapped₁ := (hend ▸ hmapped).extend hc haligned (hnew henough)
      have hstep : heapStartVirt + i * pageSize + 4096 = heapStartVirt + (i + 1) * pageSize := by
        unfold pageSize
        omega
      rw [hstep] at hmapped₁
      rcases ih hwf₁ (by omega) rfl (fun hi0 => absurd hi0 (Nat.succ_ne_zero i)) hmapped₁ with
        ⟨k, hk, -, hres⟩
      exact ⟨k, by omega, fun _ => by omega, hres⟩

/-- However many pages it gets, `heap_init` makes a free block: with none, the
size of the block wraps around. -/
theorem heapInit_block (pml4 : Nat) (hend : h.endVirt = heapStartVirt) (vm : Vm) :
    ∃ b, Header (heapInit pml4 h vm).1.mem (heapInit pml4 h vm).1.head b 0 ∧ b.free = true ∧
      4072 ≤ b.size := by
  rcases heapInitLoop_spec pml4 0 heapInitialPages vm with ⟨k, hk, hendVirt, -⟩
  simp only [Nat.zero_mul, Nat.add_zero, Nat.zero_add] at hendVirt
  simp only [heapInit, hend, hendVirt]
  refine ⟨_, header_setHeader (Nat.mod_lt _ (by norm_num)) (by norm_num), rfl, ?_⟩
  unfold heapInitialPages at hk
  simp only [headerSize, pageSize, heapStartVirt]
  omega

/-- The kernel before the first `kmalloc`: its tables are a tree, and the heap
is not mapped yet. -/
structure ColdHeap (pml4 : Nat) (h : Heap) (vm : Vm) : Prop where
  cold : h.initialized = false
  ends : h.endVirt = heapStartVirt
  few : vm.free.length ≤ maxFreeList
  wellFormed : WellFormed pml4 vm
  unmapped : walk (child vm.mem) pml4 (path heapStartVirt) = none

/-- With enough pages for its first page the initial heap is mapped. -/
theorem ColdHeap.backed (hc : ColdHeap pml4 h vm) (henough : Enough pml4 vm heapStartVirt) :
    Backed pml4 (heapInit pml4 h vm).1 (heapInit pml4 h vm).2 := by
  have hnone : MappedRange pml4 vm heapStartVirt heapStartVirt :=
    fun x hlo hhi => absurd hlo (Nat.not_le_of_lt hhi)
  rcases heapInitLoop_backed (i := 0) (n := heapInitialPages) hc.wellFormed (by decide)
    (by rw [Nat.zero_mul, Nat.add_zero]) (fun _ _ => henough) hnone with
    ⟨k, -, -, hend, hwf, hmapped⟩
  simp only [heapInit, hc.ends]
  refine ⟨hwf, ?_, hmapped⟩
  rw [hend]
  show (heapStartVirt + k * pageSize) % 4096 = 0
  unfold heapStartVirt pageSize
  omega

/-- Without them nothing is mapped at its start. -/
theorem ColdHeap.unbacked (hc : ColdHeap pml4 h vm) (hfew : ¬ Enough pml4 vm heapStartVirt) :
    walk (child (heapInit pml4 h vm).2.mem) pml4 (path heapStartVirt) = none := by
  simp only [heapInit, heapInitialPages]
  rw [heapInitLoop]
  cases hfree : vm.free with
  | nil =>
    rw [Vm.allocPage_of_nil hfree]
    exact hc.unmapped
  | cons c rest =>
    have hc0 : c ≠ 0 := hc.wellFormed.freeOk.nonzero c (mem_of_eq_cons hfree)
    rw [Vm.allocPage_of_cons hfree]
    simp only [if_neg hc0, Nat.zero_mul, Nat.add_zero]
    generalize hvm₁ : vmmMap pml4 heapStartVirt c (vmmPresent ||| vmmWritable) ⟨vm.mem, rest⟩ = vm₁
    rcases (vmmMap_taken hc.wellFormed hfree hvm₁).2.2 hfew with ⟨hempty, hzero⟩
    -- the tables took all pages, so the loop ends with its second round
    rw [heapInitLoop, Vm.allocPage_of_nil hempty]
    exact hzero

end Boot

/-! ## Whole runs -/

/-- What a call of `kmalloc` uses is mapped: the headers it stores to, and the
block that it returns. -/
structure OnlyMapped (pml4 fuel n : Nat) (h : Heap) (vm : Vm) (p : Nat) (h' : Heap) (vm' : Vm) :
    Prop where
  headers : ∀ w ∈ kmallocStores pml4 fuel n h vm, w.Mapped pml4
  block : p ≠ 0 → MappedRange pml4 vm' p (p + payloadSize h' p)

/-- The first call has enough pages for the first page of the heap, and every
growth has enough pages, or none and is refused. -/
structure Supplied (pml4 fuel n : Nat) (h : Heap) (vm : Vm) : Prop where
  first : h.initialized = false → Enough pml4 vm heapStartVirt
  growths : LoopSupplied pml4 fuel (roundUp n) (started pml4 h vm).1 (started pml4 h vm).2

namespace HeapState

variable {s s' : HeapState} {pml4 fuel n p : Nat} {h' : Heap} {vm' : Vm}

/-- Nothing allocated yet; there may be any number of free pages, or none. -/
def Cold (pml4 : Nat) : StatePred HeapState := fun s =>
  ColdHeap pml4 s.heap s.vm ∧ s.live = []

/-- Calls that have the pages they need, the owners' writes, and whatever the
rest of the kernel does to the free pages and to its tables: it leaves the
translations of the heap's window as they are. -/
inductive SuppliedNext (pml4 : Nat) : Action HeapState where
  | malloc {s : HeapState} {fuel n p : Nat} {h : Heap} {vm : Vm} (hn : n ≤ 2 ^ 20)
      (hsup : Supplied pml4 fuel n s.heap s.vm)
      (hcall : kmalloc pml4 fuel n s.heap s.vm = some (p, h, vm)) :
      SuppliedNext pml4 s ⟨h, vm, if p = 0 then s.live else (p, n) :: s.live⟩
  | freeNull {s : HeapState} {fuel : Nat} {h : Heap} (hcall : kfree fuel 0 s.heap = some h) :
      SuppliedNext pml4 s { s with heap := h }
  | free {s : HeapState} {fuel p n : Nat} {h : Heap} (hmem : (p, n) ∈ s.live)
      (hcall : kfree fuel p s.heap = some h) :
      SuppliedNext pml4 s { s with heap := h, live := s.live.filter fun e => e.1 ≠ p }
  | write {s : HeapState} {p n : Nat} {mem : ByteMem} (hmem : (p, n) ∈ s.live)
      (hout : ∀ x, ¬ InPayload s.heap p x → mem x = s.heap.mem x) :
      SuppliedNext pml4 s { s with heap := { s.heap with mem := mem } }
  | others {s : HeapState} {vm : Vm} (hwf : WellFormed pml4 vm)
      (hfew : vm.free.length ≤ maxFreeList) (hroom : HasRoom s.heap vm)
      (hsame : ∀ v, heapStartVirt ≤ v → v < heapStartVirt + 2 ^ 39 →
        walk (child vm.mem) pml4 (path v) = walk (child s.vm.mem) pml4 (path v)) :
      SuppliedNext pml4 s { s with vm := vm }

/-- The heap is cold, or ready and mapped throughout. -/
def BackedInv (pml4 : Nat) (s : HeapState) : Prop :=
  Cold pml4 s ∨ s.Ready ∧ Backed pml4 s.heap s.vm

/-- A cold heap with enough pages for the first one can be used. -/
theorem Cold.init (hc : Cold pml4 s) (henough : Enough pml4 s.vm heapStartVirt) : Init s := by
  rcases hc with ⟨hcold, hlive⟩
  refine ⟨hcold.cold, hcold.ends, hlive, hcold.few, ?_⟩
  rcases List.exists_cons_of_length_pos (Nat.lt_of_lt_of_le (Nat.succ_pos _) henough) with
    ⟨c, rest, hfree⟩
  rw [Vm.allocPage_of_cons hfree]
  exact hcold.wellFormed.freeOk.nonzero c (mem_of_eq_cons hfree)

/-- The heap the loop of `kmalloc` starts with is mapped. -/
theorem BackedInv.started (hinv : s.BackedInv pml4)
    (hfirst : s.heap.initialized = false → Enough pml4 s.vm heapStartVirt) :
    s.Inv ∧ Backed pml4 (started pml4 s.heap s.vm).1 (Orchid.started pml4 s.heap s.vm).2 := by
  rcases hinv with hc | ⟨hready, hb⟩
  · have henough := hfirst hc.1.cold
    refine ⟨Or.inl (hc.init henough), ?_⟩
    rw [Orchid.started, if_neg (by rw [hc.1.cold]; exact Bool.false_ne_true)]
    exact hc.1.backed henough
  · refine ⟨Or.inr hready, ?_⟩
    rw [Orchid.started, if_pos hready.1]
    exact hb

/-- A supplied call leaves the heap ready and mapped. -/
theorem BackedInv.malloc {m : Nat} (hinv : s.BackedInv pml4) (hm : m ≤ roundUp n)
    (hsup : Supplied pml4 fuel n s.heap s.vm)
    (hcall : kmalloc pml4 fuel n s.heap s.vm = some (p, h', vm')) :
    BackedInv pml4 ⟨h', vm', if p = 0 then s.live else (p, m) :: s.live⟩ := by
  rcases hinv.started hsup.first with ⟨hs, hb⟩
  rcases hs.started pml4 with ⟨⟨bs, ht⟩, -, hroom⟩
  exact Or.inr ⟨(hs.mallocBytes hm hcall).1, (hb.loop ht hroom hcall hsup.growths).2⟩

/-- The rest of the kernel keeps the heap mapped. -/
theorem BackedInv.others {vm : Vm} (hinv : s.BackedInv pml4) (hwf : WellFormed pml4 vm)
    (hfew : vm.free.length ≤ maxFreeList) (hroom : HasRoom s.heap vm)
    (hsame : ∀ v, heapStartVirt ≤ v → v < heapStartVirt + 2 ^ 39 →
      walk (child vm.mem) pml4 (path v) = walk (child s.vm.mem) pml4 (path v)) :
    BackedInv pml4 { s with vm := vm } := by
  rcases hinv with ⟨hcold, hlive⟩ | ⟨⟨hinit, -, hbs⟩, hb⟩
  · refine Or.inl ⟨⟨hcold.cold, hcold.ends, hfew, hwf, ?_⟩, hlive⟩
    rw [hsame heapStartVirt (Nat.le_refl _) (Nat.lt_add_of_pos_right (by decide))]
    exact hcold.unmapped
  · refine Or.inr ⟨⟨hinit, hroom, hbs⟩, hwf, hb.aligned, ?_⟩
    intro x hlo hhi
    have hend : s.heap.endVirt ≤ heapStartVirt + 2 ^ 39 := by
      unfold HasRoom reach at hroom
      omega
    rw [vmmVirtToPhys, lookup_eq_walk, hsame x hlo (Nat.lt_of_lt_of_le hhi hend),
      ← lookup_eq_walk]
    exact hb.mapped x hlo hhi

theorem backedInv_step (hnext : SuppliedNext pml4 s s') (hinv : s.BackedInv pml4) :
    s'.BackedInv pml4 := by
  -- with something live the heap is in use
  have hwarm : ∀ {p n : Nat}, (p, n) ∈ s.live → s.Ready ∧ Backed pml4 s.heap s.vm := by
    intro p n hmem
    rcases hinv with ⟨-, hlive⟩ | hwarm
    · rw [hlive] at hmem
      cases hmem
    · exact hwarm
  cases hnext with
  | malloc hn hsup hcall => exact hinv.malloc (roundUp_spec hn).2 hsup hcall
  | freeNull hcall =>
    cases hcall
    exact hinv
  | free hmem hcall =>
    rcases hwarm hmem with ⟨hready, hb⟩
    have hend := kfree_endVirt hcall
    refine Or.inr ⟨((hready.free hmem).2 _ _ hcall).1, hb.wellFormed, ?_, ?_⟩
    · simp only [hend]
      exact hb.aligned
    · simp only [hend]
      exact hb.mapped
  | write hmem hout =>
    rcases hwarm hmem with ⟨hready, hb⟩
    exact Or.inr ⟨hready.write hmem hout, hb.wellFormed, hb.aligned, hb.mapped⟩
  | others hwf hfew hroom hsame => exact hinv.others hwf hfew hroom hsame

/-- A call in a state where all of the heap is mapped uses mapped memory only
exactly if it is supplied. -/
theorem BackedInv.onlyMapped_iff (hinv : s.BackedInv pml4)
    (hcall : kmalloc pml4 fuel n s.heap s.vm = some (p, h', vm')) :
    OnlyMapped pml4 fuel n s.heap s.vm p h' vm' ↔ Supplied pml4 fuel n s.heap s.vm := by
  by_cases hfirst : s.heap.initialized = false → Enough pml4 s.vm heapStartVirt
  · rcases hinv.started hfirst with ⟨hs, hb⟩
    rcases hs.started pml4 with ⟨⟨bs, ht⟩, -, hroom⟩
    have hloop := hb.loop_iff ht hroom (roundUp_mod n) hcall
    constructor
    · rintro ⟨hheaders, hblock⟩
      refine ⟨hfirst, hloop.mp ⟨fun w hw => hheaders w ?_, hblock⟩⟩
      exact List.mem_append_right _ hw
    · intro hsup
      rcases hloop.mpr hsup.growths with ⟨hheaders, hblock⟩
      refine ⟨fun w hw => ?_, hblock⟩
      rcases List.mem_append.mp hw with hinit | hw
      · split at hinit
        · cases hinit
        · -- the first header of the initial heap
          next hcold =>
          rw [List.mem_singleton.mp hinit]
          have hstart := hb.header_mapped (Nat.le_refl heapStartVirt) ht.header_le
          rw [Orchid.started, if_neg hcold] at hstart
          exact hstart
      · exact hheaders w hw
  · -- the first page of the heap is not mapped, but its header is stored to
    rcases Classical.not_imp.mp hfirst with ⟨hcold, hfew⟩
    rcases hinv with hc | ⟨hready, -⟩
    · constructor
      · rintro ⟨hheaders, -⟩
        have hmem : ⟨heapStartVirt, (heapInit pml4 s.heap s.vm).2⟩ ∈
            kmallocStores pml4 fuel n s.heap s.vm := by
          rw [kmallocStores, hcold]
          exact List.mem_append_left _ List.mem_cons_self
        exact absurd (vmmVirtToPhys_of_none (hc.1.unbacked hfew))
          (hheaders _ hmem heapStartVirt (Nat.le_refl _) (Nat.lt_add_of_pos_right (by decide)))
      · intro hsup
        exact absurd (hsup.first hcold) hfew
    · rw [hready.1] at hcold
      cases hcold

/-- After calls that were all supplied, a call of `kmalloc` uses mapped memory
only exactly if it is supplied as well. -/
theorem kmalloc_onlyMapped_iff (hs : Reachable (Cold pml4) (SuppliedNext pml4) s)
    (hcall : kmalloc pml4 fuel n s.heap s.vm = some (p, h', vm')) :
    OnlyMapped pml4 fuel n s.heap s.vm p h' vm' ↔ Supplied pml4 fuel n s.heap s.vm := by
  have hinv : s.BackedInv pml4 := hs.invariant (fun _ => Or.inl) fun _ _ => backedInv_step
  exact hinv.onlyMapped_iff hcall

/-! ## Few pages at boot -/

/-- A kernel with an empty PML4 at 0x1000, and `m` free pages, at most four. -/
def coldPages (m : Nat) : HeapState :=
  ⟨⟨fun _ => 0, 0, heapStartVirt, false⟩,
    ⟨fun _ => 0, [0x2000, 0x3000, 0x4000, 0x5000].take m⟩, []⟩

theorem cold_coldPages (m : Nat) : Cold 0x1000 (coldPages m) := by
  have hok : FreeOk [0x2000, 0x3000, 0x4000, 0x5000] :=
    ⟨by decide, by decide, by decide, by decide⟩
  have hsub : ∀ c ∈ [0x2000, 0x3000, 0x4000, 0x5000].take m,
      c ∈ [0x2000, 0x3000, 0x4000, 0x5000] := fun c hc => List.mem_of_mem_take hc
  refine ⟨⟨rfl, rfl, ?_, ?_, ?_⟩, rfl⟩
  · exact (List.length_take_le' m [0x2000, 0x3000, 0x4000, 0x5000]).trans (by decide)
  · apply AddressSpace.wellFormed_zero (by decide)
    · exact fun hmem => absurd (hsub _ hmem) (by decide)
    · exact ⟨hok.nodup.sublist (List.take_sublist _ _), fun c hc => hok.nonzero c (hsub c hc),
        fun c hc => hok.aligned c (hsub c hc), fun c hc => hok.small c (hsub c hc)⟩
  · rw [path, walk_append, upperPath, walk_cons]
    simp only [coldPages, child_zero]
    rfl

/-- The first page needs three tables. -/
theorem enough_coldPages_iff (m : Nat) :
    Enough 0x1000 (coldPages m).vm heapStartVirt ↔ 4 ≤ m := by
  have hmissing : missing (child (coldPages m).vm.mem) 0x1000 (upperPath heapStartVirt) = 3 :=
    missing_of_empty (fun j => child_zero _ j) _
  rw [Enough, hmissing]
  show 4 ≤ ([0x2000, 0x3000, 0x4000, 0x5000].take m).length ↔ 4 ≤ m
  rw [List.length_take]
  exact le_min_iff.trans (and_iff_left (Nat.le_refl 4))

/-- The first request is served from the block that `heap_init` makes. -/
theorem kmalloc_coldPages (m : Nat) :
    firstFit (started 0x1000 (coldPages m).heap (coldPages m).vm).1.mem (roundUp 100) 1
        (started 0x1000 (coldPages m).heap (coldPages m).vm).1.head = some (some heapStartVirt) ∧
      ∃ h, kmalloc 0x1000 1 100 (coldPages m).heap (coldPages m).vm =
        some (heapStartVirt + headerSize, h, (heapInit 0x1000 (coldPages m).heap (coldPages m).vm).2) := by
  rcases heapInit_block 0x1000 (rfl : (coldPages m).heap.endVirt = heapStartVirt)
    (coldPages m).vm with ⟨b, hhead, hfree, hsize⟩
  have hround : roundUp 100 ≤ 4072 := by decide
  have hfound := firstFit_of_first 0 (by decide : heapStartVirt ≠ 0) hhead hfree
    (hround.trans hsize)
  exact ⟨hfound, _, kmallocLoop_of_found 0x1000 0 _ hfound⟩

/-- With four pages the first call stores to mapped headers. -/
theorem kmalloc_onlyMapped_fourPages :
    ∃ h vm, kmalloc 0x1000 1 100 (coldPages 4).heap (coldPages 4).vm =
        some (heapStartVirt + headerSize, h, vm) ∧
      OnlyMapped 0x1000 1 100 (coldPages 4).heap (coldPages 4).vm (heapStartVirt + headerSize) h vm := by
  rcases kmalloc_coldPages 4 with ⟨hfound, h, hcall⟩
  have henough := (enough_coldPages_iff 4).mpr (Nat.le_refl 4)
  exact ⟨h, _, hcall, (kmalloc_onlyMapped_iff (.init (cold_coldPages 4)) hcall).mpr
    ⟨fun _ => henough, loopSupplied_of_found hfound⟩⟩

/-- With fewer `kmalloc` returns a block too, and neither its header nor its bytes
are mapped. -/
theorem kmalloc_coldPages_unmapped {m : Nat} (hm : m ≤ 3) :
    ∃ h vm, kmalloc 0x1000 1 100 (coldPages m).heap (coldPages m).vm =
        some (heapStartVirt + headerSize, h, vm) ∧
      ∀ x, heapStartVirt ≤ x → x < heapStartVirt + 4096 → vmmVirtToPhys vm.mem 0x1000 x = 0 := by
  rcases kmalloc_coldPages m with ⟨-, h, hcall⟩
  have hfew : ¬ Enough 0x1000 (coldPages m).vm heapStartVirt := by
    rw [enough_coldPages_iff]
    omega
  refine ⟨h, _, hcall, ?_⟩
  intro x hlo hhi
  have hpath : path x = path heapStartVirt := by
    rw [path_eq_iff]
    unfold pageOf heapStartVirt at *
    omega
  apply vmmVirtToPhys_of_none
  rw [hpath]
  exact (cold_coldPages m).1.unbacked hfew

/-- Three pages, and none. -/
theorem kmalloc_unmapped :
    (Cold 0x1000 (coldPages 3) ∧
      ∃ h vm, kmalloc 0x1000 1 100 (coldPages 3).heap (coldPages 3).vm =
          some (heapStartVirt + headerSize, h, vm) ∧
        ∀ x, heapStartVirt ≤ x → x < heapStartVirt + 4096 → vmmVirtToPhys vm.mem 0x1000 x = 0) ∧
    Cold 0x1000 (coldPages 0) ∧
      ∃ h vm, kmalloc 0x1000 1 100 (coldPages 0).heap (coldPages 0).vm =
          some (heapStartVirt + headerSize, h, vm) ∧
        ∀ x, heapStartVirt ≤ x → x < heapStartVirt + 4096 → vmmVirtToPhys vm.mem 0x1000 x = 0 :=
  ⟨⟨cold_coldPages 3, kmalloc_coldPages_unmapped (by decide)⟩,
    cold_coldPages 0, kmalloc_coldPages_unmapped (by decide)⟩

end HeapState

end Orchid
