import Orchid.Process.Footprint
import Orchid.Process.Isolation
import Orchid.Process.KernelHalf

/-! # The heap in every address space

The upper half of a PML4 is copied once, when the process is made, from the
kernel's or from the parent's. Later growths of the heap map their pages through
the kernel's PML4 alone. The heap is the same everywhere because all PML4s share
one table for it: slot 480 is filled before the first copy, and it is never
filled again.

* `Extended` covers all that happens to the kernel's tables.
* `HeapShared` is the invariant of the machine's memory, for a list of PML4s;
  `Shares` adds the heap and the records of the processes.
* `heap_visible` is the result for whole runs, from before the first `kmalloc`.
-/

namespace Orchid

open ByteMem Radix Machine

/-- The slot of the heap. -/
def heapSlot : Fin 512 := 480

/-- The paths of the kernel's tables that calls store into: those behind the
heap's slot, and those on the way to the user stack, which lies in the kernel's
half. -/
def kernelPaths (q : List (Fin 512)) : Prop :=
  SlotPath HeapSlot 3 q ∨ q <+: upperPath userStackVaddr

theorem kernelPaths_closed : PrefixClosed kernelPaths := by
  rintro p q (hslot | hstack)
  · exact Or.inl (slotPath_closed HeapSlot 3 p q hslot)
  · exact Or.inr ((List.prefix_append p q).trans hstack)

theorem tracked_kernelPaths :
    Tracked (fun _ : Unit => kernelPaths) (fun _ : Unit => kernelPaths) where
  closed := fun _ => kernelPaths_closed
  sub := fun _ _ h => h
  below := fun _ _ h => kernelPaths_closed.below h

theorem coversHeap_kernelPaths : CoversHeap kernelPaths where
  tables := fun _ h => Or.inl h
  short := by
    rintro q (hslot | hstack)
    · exact hslot.1
    · exact hstack.length_le.trans (length_upperPath _).le

theorem kernelPaths_heapSlot : kernelPaths [heapSlot] :=
  Or.inl (slotPath_cons.mpr ⟨by simp, rfl⟩)

theorem kernelPaths_stackSlot : kernelPaths [stackSlot] := by
  refine Or.inr ?_
  rw [upperPath_userStackVaddr]
  exact ⟨[0, 0], rfl⟩

/-! ## The runs -/

/-- The kernel with its processes, and the blocks other parts of it hold. -/
structure HeapWorld extends World where
  blocks : List Nat

/-- What happens in a run: the calls of `World.step`, `kmalloc` of any size, `kfree`
of what `kmalloc` gave out, and stores of the owners into their blocks. -/
inductive HeapWorld.Next : Action HeapWorld where
  | call {w : HeapWorld} {w' : World} (c : Call) (hstep : w.toWorld.step c = some w') :
      Next w ⟨w', w.blocks⟩
  | malloc {w : HeapWorld} {fuel n p : Nat} {k : Kernel}
      (hcall : w.kernel.kmalloc fuel n = some (p, k)) :
      Next w ⟨⟨k, w.procs⟩, if p = 0 then w.blocks else p :: w.blocks⟩
  | freeNull {w : HeapWorld} {fuel : Nat} {k : Kernel} (hcall : w.kernel.kfree fuel 0 = some k) :
      Next w ⟨⟨k, w.procs⟩, w.blocks⟩
  | free {w : HeapWorld} {fuel p : Nat} {k : Kernel} (hp : p ∈ w.blocks)
      (hcall : w.kernel.kfree fuel p = some k) :
      Next w ⟨⟨k, w.procs⟩, w.blocks.filter fun b => b ≠ p⟩
  | write {w : HeapWorld} {p : Nat} {mem : ByteMem} (hp : p ∈ w.blocks)
      (hout : ∀ x, ¬ InPayload w.kernel.heap p x → mem x = w.kernel.heap.mem x) :
      Next w ⟨⟨{ w.kernel with heap := { w.kernel.heap with mem := mem } }, w.procs⟩, w.blocks⟩

/-- The kernel after `heap_init`. -/
def Kernel.withHeap (k : Kernel) : Kernel :=
  { k with
    heap := (heapInit k.kernelCr3 k.heap k.vm).1
    vm := (heapInit k.kernelCr3 k.heap k.vm).2 }

/-- The kernel before its first `kmalloc`. The tables that calls store into are
distinct and not free, and the first page of the heap gets mapped. -/
structure HeapWorld.Boot (w : HeapWorld) : Prop where
  procs : w.procs = []
  blocks : w.blocks = []
  current : w.kernel.sched.currentProcess = none
  heap : HeapState.Init (w.kernel.heapState [])
  tables : TablesOk kernelPaths w.kernel.kernelCr3 w.kernel.vm
  mapped : walk (child w.kernel.withHeap.vm.mem) w.kernel.kernelCr3 (path heapStartVirt) ≠ none

/-- Every process has the heap where the kernel has it. -/
def HeapWorld.HeapVisible (w : HeapWorld) : Prop :=
  ∀ p ∈ w.procs, ∀ v, heapStartVirt ≤ v → v < w.kernel.heap.endVirt →
    lookup w.kernel.vm.mem (w.kernel.procs p).pml4Phys v =
      lookup w.kernel.vm.mem w.kernel.kernelCr3 v

/-! ## The machine's memory -/

/-- `a` is a PML4 that reaches the heap through the kernel's table for it. -/
structure Sees (cr3 : Nat) (vm : Vm) (a : Nat) : Prop where
  clear : Clear kernelPaths cr3 vm a
  slot : child vm.mem a heapSlot = child vm.mem cr3 heapSlot

/-- The kernel has a table for the heap, and the PML4s in `roots` share it. -/
structure HeapShared (cr3 : Nat) (roots : List Nat) (vm : Vm) : Prop where
  tables : TablesOk kernelPaths cr3 vm
  present : child vm.mem cr3 heapSlot ≠ none
  few : vm.free.length ≤ maxFreeList
  sees : ∀ a ∈ roots, Sees cr3 vm a

section Memory

variable {cr3 a size : Nat} {roots rest taken : List Nat} {vm vm' : Vm} {image : Nat → UInt8}

/-- The slot of the heap is never filled again. -/
theorem Extended.heapSlot_kept (hext : Extended kernelPaths cr3 vm vm')
    (hpresent : child vm.mem cr3 heapSlot ≠ none) :
    child vm'.mem cr3 heapSlot = child vm.mem cr3 heapSlot := by
  rcases Option.ne_none_iff_exists'.mp hpresent with ⟨g, hg⟩
  have hkept := hext.kept [heapSlot] g kernelPaths_heapSlot ((walk_singleton _ _).trans hg)
  rw [walk_singleton] at hkept
  rw [hkept, hg]

theorem Sees.extended (ha : Sees cr3 vm a) (h : HeapShared cr3 roots vm)
    (hext : Extended kernelPaths cr3 vm vm') : Sees cr3 vm' a := by
  rcases ha.clear.extended h.tables hext with ⟨hclear, hpage⟩
  refine ⟨hclear, ?_⟩
  rw [child_congr hpage, ha.slot, hext.heapSlot_kept h.present]

theorem HeapShared.extended (h : HeapShared cr3 roots vm)
    (hext : Extended kernelPaths cr3 vm vm') : HeapShared cr3 roots vm' where
  tables := hext.tables
  present := by
    rw [hext.heapSlot_kept h.present]
    exact h.present
  few := hext.length_le.trans h.few
  sees := fun a ha => (h.sees a ha).extended h hext

/-- One more PML4 shares the table. -/
theorem HeapShared.cons (h : HeapShared cr3 roots vm) (ha : Sees cr3 vm a) :
    HeapShared cr3 (a :: roots) vm where
  tables := h.tables
  present := h.present
  few := h.few
  sees := List.forall_mem_cons.mpr ⟨ha, h.sees⟩

theorem HeapShared.notMem (h : HeapShared cr3 roots vm) (ha : a ∈ vm.free) : a ∉ roots :=
  fun hmem => (h.sees a hmem).clear.notFree ha

theorem freePage_mem {c : Nat} (hc : c ∈ (vm.freePage a).free) : c = a ∨ c ∈ vm.free := by
  unfold Vm.freePage pmmFreePage at hc
  split at hc
  · exact List.mem_cons.mp hc
  · exact Or.inr hc

/-- A page that no PML4 in use and no table lies in is given back. -/
theorem HeapShared.freePage (h : HeapShared cr3 roots vm) (ha : Clear kernelPaths cr3 vm a)
    (hnot : a ∉ roots) (h0 : a ≠ 0) (hsmall : a < 2 ^ 52) :
    HeapShared cr3 roots (vm.freePage a) where
  tables := by
    refine h.tables.push ?_ ha.notFree ha.aligned h0 hsmall
    intro _ q hq hw
    exact ha.notTable ⟨q, hq, hw⟩
  present := h.present
  few := freePage_few a h.few
  sees := by
    intro b hb
    rcases h.sees b hb with ⟨⟨haligned, hfree, htable⟩, hslot⟩
    refine ⟨⟨haligned, ?_, htable⟩, hslot⟩
    intro hmem
    rcases freePage_mem hmem with rfl | hmem
    · exact hnot hb
    · exact hfree hmem

/-! ## New address spaces -/

theorem Within.takes (h : Within vm vm' taken) : Takes (fun _ => False) vm vm' taken where
  free := h.free
  frame := fun x hx => Or.inr (h.frame x hx)

theorem HeapShared.loadReady (h : HeapShared cr3 roots vm) : LoadReady cr3 vm where
  aligned := h.tables.aligned ()
  notFree := h.tables.not_free (k := ()) (Or.inr (List.nil_prefix)) walk_nil
  freeOk := h.tables.freeOk
  few := h.few

/-- A PML4 made of frames that were free, with the heap's slot copied from the
kernel's. -/
theorem HeapShared.sees_copy (h : HeapShared cr3 roots vm)
    (ht : Takes (fun _ => False) vm vm' taken) (ha : a ∈ taken)
    (hslot : child vm'.mem a heapSlot = child vm.mem cr3 heapSlot) : Sees cr3 vm' a where
  clear := ht.clear h.tables ha
  slot := by
    rw [hslot, (ht.extended h.tables).heapSlot_kept h.present]

/-- Two PML4s that share the table of a slot: a map through the slot is the same
for both. -/
theorem mapAt_shared {v phys flags g : Nat} {i : Fin 512} {q : List (Fin 512)}
    (hpath : upperPath v = i :: q) (ha : child vm.mem a i = some g)
    (hcr3 : child vm.mem cr3 i = some g) : mapAt a v phys flags vm = mapAt cr3 v phys flags vm := by
  have hdescend : ∀ r, child vm.mem r i = some g → descend r (upperPath v) vm = descend g q vm := by
    intro r hr
    rw [hpath]
    exact descend_append (p := [i]) ((walk_singleton _ _).trans hr) q
  rw [mapAt_eq_descend, mapAt_eq_descend, hdescend a ha, hdescend cr3 hcr3]

/-- `load_raw` only adds tables to the kernel's, and a PML4 it makes shares the
table of the heap. -/
theorem HeapShared.loadSpace (h : HeapShared cr3 roots vm) (image : Nat → UInt8) (size : Nat) :
    HeapShared cr3 roots (loadSpace cr3 image size vm).2 ∧
      ∀ a, (Orchid.loadSpace cr3 image size vm).1 = some a →
        Sees cr3 (Orchid.loadSpace cr3 image size vm).2 a := by
  have hk := h.loadReady
  rcases loadImage_cases cr3 image size hk.freeOk with
    ⟨-, himage⟩ | ⟨a, rest, hfree, r, vm₂, hcode, ⟨-, himage⟩ | ⟨s, rest₂, -, hfree₂, hs, himage⟩⟩
  · -- not even a page for the PML4
    simp only [Orchid.loadSpace, himage]
    exact ⟨h, by simp⟩
  · rcases loadCode_within hk hfree hcode with ⟨taken, hwithin, -⟩
    simp only [Orchid.loadSpace, himage]
    exact ⟨h.extended (hwithin.takes.extended h.tables), by simp⟩
  simp only [Orchid.loadSpace, himage, vmmMapUser, if_neg hs]
  have hflags := mapUserFlags_mod_two userPageFlags true
  cases hslot : child vm.mem cr3 stackSlot with
  | none =>
    -- the stack is mapped through new tables
    rcases within_of_absent hk hfree hcode hfree₂ hslot with ⟨taken, hwithin, hslots⟩
    refine ⟨h.extended (hwithin.takes.extended h.tables), fun b hb => ?_⟩
    obtain rfl := Option.some.inj hb
    exact h.sees_copy hwithin.takes List.mem_cons_self (hslots heapSlot (by decide))
  | some g =>
    -- the stack is mapped through the kernel's tables
    rcases loadCode_within hk hfree hcode with ⟨taken, hwithin, hslots⟩
    have ht := hwithin.takes
    have h₂ := h.extended (ht.extended h.tables)
    have hsees := h.sees_copy ht List.mem_cons_self (hslots heapSlot (by decide))
    have hkernel : child vm₂.mem cr3 stackSlot = some g := by
      have hwalk := ht.walk_tables h.tables kernelPaths_stackSlot
      rw [walk_singleton, walk_singleton] at hwalk
      exact hwalk.trans hslot
    have hnew : child vm₂.mem a stackSlot = some g :=
      (hslots stackSlot (by decide)).trans hslot
    have hsame : mapAt a userStackVaddr s (mapUserFlags userPageFlags true) ⟨vm₂.mem, rest₂⟩ =
        mapAt cr3 userStackVaddr s (mapUserFlags userPageFlags true) ⟨vm₂.mem, rest₂⟩ :=
      mapAt_shared upperPath_userStackVaddr hnew hkernel
    rw [hsame]
    have hext := Extended.map h₂.tables (Or.inr (List.prefix_refl _))
      (coversHeap_kernelPaths.not_path userStackVaddr) hfree₂ hflags
    refine ⟨h₂.extended hext, fun b hb => ?_⟩
    obtain rfl := Option.some.inj hb
    exact hsees.extended h₂ hext

/-- `fork_address_space` leaves the kernel's tables alone, and the child's PML4
shares the table of the heap if the parent's does. -/
theorem HeapShared.fork {P C : Nat} {r : Bool} (h : HeapShared cr3 roots vm) (hP : P ∈ roots)
    (hfree : vm.free = C :: rest) (hr : forkAddressSpace P C ⟨vm.mem, rest⟩ = (r, vm')) :
    HeapShared cr3 roots vm' ∧ Sees cr3 vm' C := by
  rcases forkAddressSpace_takes_pml4 hfree hr with ⟨taken, -, htakes⟩
  have hCfree : C ∈ vm.free := mem_of_eq_cons hfree
  have hok := h.tables.freeOk
  have hparent := h.sees P hP
  have hPC : P ≠ C := by
    rintro rfl
    exact hparent.clear.notFree hCfree
  have hslot : child vm'.mem C heapSlot = child vm.mem P heapSlot :=
    forkAddressSpace_upper hparent.clear.aligned (hok.aligned C hCfree) hPC
      (FreeOk.tail (hfree ▸ hok)) (hok.not_mem_rest hfree) hr (by decide)
  exact ⟨h.extended (htakes.extended h.tables),
    h.sees_copy htakes List.mem_cons_self (hslot.trans hparent.slot)⟩

end Memory

/-! ## The kernel -/

/-- Every process of `ps` has one of the PML4s in `roots`, and its record is live. -/
structure Shares (roots : List Nat) (live : List (Nat × Nat)) (k : Kernel) (ps : List ProcPtr) :
    Prop where
  memory : HeapShared k.kernelCr3 roots k.vm
  heap : (k.heapState live).Ready
  space : ∀ p ∈ ps, (k.procs p).pml4Phys ∈ roots
  record : ∀ p ∈ ps, p ∈ live.map Prod.fst

section Kernel

variable {roots : List Nat} {live live' : List (Nat × Nat)} {k k' : Kernel} {ps : List ProcPtr}
  {p : ProcPtr} {a fuel size n m : Nat} {image : Nat → UInt8}

/-- The tables were added to, and the processes have the PML4s they had. -/
theorem Shares.extended (h : Shares roots live k ps)
    (hext : Extended kernelPaths k.kernelCr3 k.vm k'.vm) (hready : (k'.heapState live').Ready)
    (hrecord : ∀ q ∈ ps, q ∈ live'.map Prod.fst) (hcr3 : k'.kernelCr3 = k.kernelCr3)
    (hprocs : ∀ q ∈ ps, (k'.procs q).pml4Phys = (k.procs q).pml4Phys) :
    Shares roots live' k' ps where
  memory := by
    rw [hcr3]
    exact h.memory.extended hext
  heap := hready
  space := by
    intro q hq
    rw [hprocs q hq]
    exact h.space q hq
  record := hrecord

/-- Only records changed, in other fields. -/
theorem Shares.congr (h : Shares roots live k ps) (hvm : k'.vm = k.vm) (hheap : k'.heap = k.heap)
    (hcr3 : k'.kernelCr3 = k.kernelCr3)
    (hprocs : ∀ q ∈ ps, (k'.procs q).pml4Phys = (k.procs q).pml4Phys) :
    Shares roots live k' ps := by
  refine h.extended ?_ ?_ h.record hcr3 hprocs
  · rw [hvm]
    exact .refl h.memory.tables
  · have hready := h.heap
    unfold Kernel.heapState at hready ⊢
    rw [hheap, hvm]
    exact hready

theorem Shares.subset {ps' : List ProcPtr} (h : Shares roots live k ps) (hsub : ∀ q ∈ ps', q ∈ ps) :
    Shares roots live k ps' where
  memory := h.memory
  heap := h.heap
  space := fun q hq => h.space q (hsub q hq)
  record := fun q hq => h.record q (hsub q hq)

/-- The heap grew, and more is live. -/
theorem Shares.grows (h : Shares roots live k ps) (hgrow : HeapGrowth k.kernelCr3 k.vm k'.vm)
    (hready : (k'.heapState live').Ready) (hmore : live <:+ live')
    (hcr3 : k'.kernelCr3 = k.kernelCr3) (hprocs : k'.procs = k.procs) : Shares roots live' k' ps := by
  apply h.extended _ hready _ hcr3
  · intro q _
    rw [hprocs]
  · exact extended_of_growth h.memory.tables coversHeap_kernelPaths hgrow
  · exact fun q hq => (hmore.map Prod.fst).subset (h.record q hq)

/-- A block of any size. -/
theorem Shares.kmalloc (h : Shares roots live k ps) (hm : m ≤ roundUp n)
    (hcall : k.kmalloc fuel n = some (p, k')) :
    Shares roots (if p = 0 then live else (p, m) :: live) k' ps := by
  rcases Kernel.kmallocBytes_spec h.heap hm hcall with ⟨hready, hgrow, hk'⟩
  apply h.grows hgrow.1 hready
  · split
    · exact List.suffix_refl _
    · exact List.suffix_cons _ _
  · rw [hk']
  · exact Kernel.kmalloc_procs hcall

/-- What belongs to no process is given back. -/
theorem Shares.kfree (h : Shares roots live k ps) (hp : (p, m) ∈ live) (hps : p ∉ ps)
    (hcall : k.kfree fuel p = some k') :
    Shares roots (live.filter fun e => e.1 ≠ p) k' ps := by
  rcases Kernel.kfree_live h.heap hp hcall with ⟨hready, hk'⟩
  refine ⟨?_, hready, ?_, ?_⟩
  · rw [hk']
    exact h.memory
  · rw [hk']
    exact h.space
  · intro q hq
    rcases List.mem_map.mp (h.record q hq) with ⟨e, he, rfl⟩
    have hne : e.1 ≠ p := by
      rintro rfl
      exact hps hq
    exact List.mem_map_of_mem (List.mem_filter.mpr ⟨he, by simpa using hne⟩)

/-- The newest block is given back. -/
theorem Shares.kfree_newest (h : Shares roots ((p, m) :: live) k ps) (hps : p ∉ ps)
    (hcall : k.kfree fuel p = some k') : Shares roots live k' ps := by
  have hfreed := h.kfree List.mem_cons_self hps hcall
  rcases h.heap with ⟨-, -, bs, -, hl⟩
  rw [Kernel.filter_newest hl.nodup] at hfreed
  exact hfreed

theorem Shares.created {r : Option Tid} (h : Shares roots live k ps)
    (hcreated : Kernel.Created k live r k' live') : Shares roots live' k' ps := by
  apply h.grows hcreated.growth.1 hcreated.ready hcreated.more
  · rw [hcreated.rest]
  · rw [hcreated.rest]

/-- A process gets the PML4 at `a`. -/
theorem Shares.assign (h : Shares roots live k ps) (ha : a ∈ roots) (hp : p ∈ live.map Prod.fst) :
    Shares roots live (k.modifyProc p fun r => { r with pml4Phys := a }) (p :: ps) where
  memory := h.memory
  heap := h.heap
  space := by
    intro q hq
    by_cases hqp : q = p
    · simpa [Kernel.modifyProc, hqp] using ha
    · have hold := h.space q ((List.mem_cons.mp hq).resolve_left hqp)
      simpa [Kernel.modifyProc, hqp] using hold
  record := List.forall_mem_cons.mpr ⟨hp, h.record⟩

/-- The record of a new process, with its first fields. -/
theorem Shares.newRecord {k₁ : Kernel} (h : Shares roots live k ps)
    (hmalloc : k.kmalloc fuel sizeofProcess = some (p, k₁)) (hp : p ≠ 0) :
    Shares roots ((p, sizeofProcess) :: live) (newRecord p k₁) ps ∧ p ∉ live.map Prod.fst ∧
      (Orchid.newRecord p k₁).sched = k.sched := by
  have h₁ := h.kmalloc (roundUp_spec (by decide)).2 hmalloc
  rw [if_neg hp] at h₁
  refine ⟨h₁.congr rfl rfl rfl fun q _ => newRecord_pml4Phys p k₁ q,
    Kernel.newest_notMem h₁.heap, ?_⟩
  show k₁.sched = k.sched
  exact Kernel.kmalloc_sched hmalloc

/-- `load_raw`, whether it succeeds or not. A process that already has an address
space may lose it to the new one even if there is no thread. -/
theorem Shares.loadRaw {r : Option Tid} (h : Shares roots live k ps) (hp : p ∈ live.map Prod.fst)
    (hcall : loadRaw fuel image size p k = some (r, k')) :
    ∃ roots' live', Shares roots' live' k' ps ∧ (r ≠ none → Shares roots' live' k' (p :: ps)) ∧
      live <:+ live' ∧ (r = none → live' = live) ∧
      k'.sched.currentProcess = k.sched.currentProcess := by
  rcases h.memory.loadSpace image size with ⟨hmemory, hnew⟩
  have hlen := (loadSpace_free k.kernelCr3 image size k.vm).length_le
  cases loadRaw_outcome hcall with
  | noSpace hspace =>
    rw [hspace] at hmemory hlen
    exact ⟨roots, live, ⟨hmemory, h.heap.mono hlen, h.space, h.record⟩,
      fun hne => absurd rfl hne, List.suffix_refl _, fun _ => rfl, rfl⟩
  | @space pml4Phys vm _ _ hspace hthread =>
    rw [hspace] at hmemory hnew hlen
    have hcons := hmemory.cons (hnew _ rfl)
    have hmade : Shares (pml4Phys :: roots) live { k with vm := vm } ps :=
      ⟨hcons, h.heap.mono hlen, fun q hq => List.mem_cons_of_mem _ (h.space q hq), h.record⟩
    have hassigned := hmade.assign (a := pml4Phys) List.mem_cons_self hp
    rcases Kernel.threadCreateUser_spec hassigned.heap hthread with ⟨live', hcreated⟩
    have hall := hassigned.created hcreated
    exact ⟨_, live', hall.subset fun q hq => List.mem_cons_of_mem p hq, fun _ => hall,
      hcreated.more, hcreated.failed, hcreated.process⟩

/-- The new main thread of a process. -/
theorem Shares.installThread {t : Tid} (h : Shares roots live k ps) (p : ProcPtr) :
    Shares roots live (installThread p t k) ps :=
  h.congr rfl rfl rfl fun q _ => installThread_pml4Phys p t k q

/-- What a call leaves: the invariant for the processes `ps'`, of which the new
ones have new records. -/
structure Leaves (live : List (Nat × Nat)) (k k' : Kernel) (ps ps' : List ProcPtr) : Prop where
  shares : ∃ roots live', Shares roots live' k' ps' ∧ live <:+ live'
  fresh : ∀ p ∈ ps', p ∈ ps ∨ p ∉ live.map Prod.fst
  current : k'.sched.currentProcess = k.sched.currentProcess

/-- A call that makes no process. -/
theorem Shares.leaves (h : Shares roots live' k' ps) (hmore : live <:+ live')
    (hcur : k'.sched.currentProcess = k.sched.currentProcess) : Leaves live k k' ps ps :=
  ⟨⟨roots, live', h, hmore⟩, fun _ hq => Or.inl hq, hcur⟩

/-- `elf_load`. -/
theorem Shares.elfLoad {r : Option ProcPtr} (h : Shares roots live k ps)
    (hcall : elfLoad fuel image size k = some (r, k')) : Leaves live k k' ps (r.toList ++ ps) := by
  cases elfLoad_outcome hcall with
  | noRecord hmalloc =>
    have h₁ := h.kmalloc (roundUp_spec (by decide)).2 hmalloc
    exact h₁.leaves (List.suffix_refl _) (by rw [Kernel.kmalloc_sched hmalloc])
  | @notLoaded p k₁ k₂ _ hmalloc hp hload hfree =>
    rcases h.newRecord hmalloc hp with ⟨h₁, hfresh, hsched⟩
    rcases h₁.loadRaw List.mem_cons_self hload with ⟨roots', live', h₂, -, -, hnone, hcur⟩
    rw [hnone rfl] at h₂
    have h₃ := h₂.kfree_newest (fun hmem => hfresh (h.record p hmem)) hfree
    apply h₃.leaves (List.suffix_refl _)
    rw [kfree_current hfree, hcur, hsched]
  | @done p t k₁ k₂ hmalloc hp hload =>
    rcases h.newRecord hmalloc hp with ⟨h₁, hfresh, hsched⟩
    rcases h₁.loadRaw List.mem_cons_self hload with ⟨roots', live', -, h₂, hmore, -, hcur⟩
    refine ⟨⟨roots', live', (h₂ (by simp)).installThread p, (List.suffix_cons _ _).trans hmore⟩,
      ?_, ?_⟩
    · intro q hq
      rcases List.mem_cons.mp hq with rfl | hq
      · exact Or.inr hfresh
      · exact Or.inl hq
    · show k₂.sched.currentProcess = _
      rw [hcur, hsched]

/-- `sys_exec`. -/
theorem Shares.sysExec {b : Bool} (h : Shares roots live k ps)
    (hcurrent : ∀ p ∈ k.sched.currentProcess, p ∈ ps)
    (hcall : sysExec fuel image size k = some (b, k')) : Leaves live k k' ps ps := by
  cases sysExec_outcome hcall with
  | noProcess => exact h.leaves (List.suffix_refl _) rfl
  | notLoaded hp hload =>
    rcases h.loadRaw (h.record _ (hcurrent _ hp)) hload with ⟨_, _, h₁, -, hmore, -, hcur⟩
    exact h₁.leaves hmore hcur
  | @done p _ _ hp hload =>
    rcases h.loadRaw (h.record _ (hcurrent _ hp)) hload with ⟨_, _, h₁, -, hmore, -, hcur⟩
    exact (h₁.installThread p).leaves hmore hcur

/-! ## `sys_fork` -/

/-- The page `C` was taken for a PML4, and no process has it yet. -/
structure Pending (roots : List Nat) (k : Kernel) (C : Nat) : Prop where
  sees : Sees k.kernelCr3 k.vm C
  unused : C ∉ roots
  nonzero : C ≠ 0
  small : C < 2 ^ 52
  room : reach k.heap k.vm + 4096 ≤ heapStartVirt + 2 ^ 39

/-- The child's address space, complete or not. -/
theorem Shares.forkSpace {P : Nat} {b : Bool} {vm : Vm} (h : Shares roots live k ps)
    (hP : P ∈ roots) (halloc : k.vm.allocPage.1 ≠ 0)
    (hspace : forkAddressSpace P k.vm.allocPage.1 k.vm.allocPage.2 = (b, vm)) :
    Shares roots live { k with vm := vm } ps ∧
      Pending roots { k with vm := vm } k.vm.allocPage.1 := by
  have hcount := fork_frames halloc hspace
  rcases Vm.allocPage_of_ne halloc with ⟨C, rest, hfree, heq⟩
  have hC : C ∈ k.vm.free := mem_of_eq_cons hfree
  have hok := h.memory.tables.freeOk
  rw [heq] at hspace ⊢
  rcases h.memory.fork hP hfree hspace with ⟨hmemory, hsees⟩
  refine ⟨⟨hmemory, h.heap.mono (Nat.le_of_succ_le hcount), h.space, h.record⟩, hsees,
    h.memory.notMem hC, hok.nonzero C hC, hok.small C hC, ?_⟩
  have hroom : HasRoom k.heap k.vm := h.heap.2.1
  unfold HasRoom reach at hroom
  unfold reach
  simp only
  omega

/-- The page is still pending after the heap grew. -/
theorem Pending.created {C : Nat} {r : Option Tid} (hC : Pending roots k C)
    (h : Shares roots live k ps) (hcreated : Kernel.Created k live r k' live') :
    Pending roots k' C where
  sees := by
    have hcr3 : k'.kernelCr3 = k.kernelCr3 := by rw [hcreated.rest]
    rw [hcr3]
    exact hC.sees.extended h.memory
      (extended_of_growth h.memory.tables coversHeap_kernelPaths hcreated.growth.1)
  unused := hC.unused
  nonzero := hC.nonzero
  small := hC.small
  room := (Nat.add_le_add_right hcreated.growth.2 4096).trans hC.room

/-- A fork that fails gives the page back, and then the record. -/
theorem Shares.abandon {C : Nat} (h : Shares roots ((p, m) :: live) k ps) (hC : Pending roots k C)
    (hps : p ∉ ps) (hcall : { k with vm := k.vm.freePage C }.kfree fuel p = some k') :
    Shares roots live k' ps := by
  have hmemory := h.memory.freePage hC.sees.clear hC.unused hC.nonzero hC.small
  have hback : Shares roots ((p, m) :: live) { k with vm := k.vm.freePage C } ps :=
    ⟨hmemory, HeapState.Ready.freePage h.heap hC.room, h.space, h.record⟩
  exact hback.kfree_newest hps hcall

/-- A record that is not a process is stored to. -/
theorem Shares.modifyOther (h : Shares roots live k ps) (hps : p ∉ ps) (f : Process → Process) :
    Shares roots live (k.modifyProc p f) ps := by
  refine h.congr rfl rfl rfl fun q hq => ?_
  have hne : q ≠ p := by
    rintro rfl
    exact hps hq
  rw [Kernel.modifyProc_of_ne k f hne]

/-- `sys_fork`. -/
theorem Shares.sysFork {r : Option ProcPtr} (h : Shares roots live k ps)
    (hcurrent : ∀ p ∈ k.sched.currentProcess, p ∈ ps)
    (hcall : sysFork fuel k = some (r, k')) : Leaves live k k' ps (r.toList ++ ps) := by
  cases sysFork_outcome hcall with
  | noProcess => exact h.leaves (List.suffix_refl _) rfl
  | noRecord _ hmalloc =>
    have h₁ := h.kmalloc (roundUp_spec (by decide)).2 hmalloc
    exact h₁.leaves (List.suffix_refl _) (by rw [Kernel.kmalloc_sched hmalloc])
  | @noPml4 cur p k₁ _ hcur hmalloc hp halloc hfree =>
    rcases h.newRecord hmalloc hp with ⟨h₁, hfresh, hsched⟩
    have hempty : k₁.vm.allocPage.2 = k₁.vm := Vm.allocPage_of_zero h₁.memory.tables.freeOk halloc
    rw [hempty] at hfree
    have h₂ := h₁.kfree_newest (fun hmem => hfresh (h.record p hmem)) hfree
    exact h₂.leaves (List.suffix_refl _) ((kfree_current hfree).trans (congrArg _ hsched))
  | @noSpace cur p k₁ _ vm hcur hmalloc hp halloc hspace hfree =>
    rcases h.newRecord hmalloc hp with ⟨h₁, hfresh, hsched⟩
    rcases h₁.forkSpace (h.space cur (hcurrent cur hcur)) halloc hspace with ⟨h₂, hpending⟩
    have h₃ := h₂.abandon hpending (fun hmem => hfresh (h.record p hmem)) hfree
    exact h₃.leaves (List.suffix_refl _) ((kfree_current hfree).trans (congrArg _ hsched))
  | @noThread cur p k₁ k₂ _ vm hcur hmalloc hp halloc hspace hthread hfree =>
    rcases h.newRecord hmalloc hp with ⟨h₁, hfresh, hsched⟩
    have hps : p ∉ ps := fun hmem => hfresh (h.record p hmem)
    rcases h₁.forkSpace (h.space cur (hcurrent cur hcur)) halloc hspace with ⟨h₂, hpending⟩
    have h₃ := h₂.modifyOther hps fun r => { r with pml4Phys := k₁.vm.allocPage.1 }
    have hpending₃ : Pending roots (forkChild p k₁.vm.allocPage.1 vm k₁) k₁.vm.allocPage.1 :=
      ⟨hpending.sees, hpending.unused, hpending.nonzero, hpending.small, hpending.room⟩
    rcases Kernel.threadCreateUser_spec h₃.heap hthread with ⟨live', hcreated⟩
    have h₄ := h₃.created hcreated
    rw [hcreated.failed rfl] at h₄
    have h₅ := h₄.abandon (hpending₃.created h₃ hcreated) hps hfree
    apply h₅.leaves (List.suffix_refl _)
    rw [kfree_current hfree]
    exact hcreated.process.trans (congrArg _ hsched)
  | @done cur p t k₁ k₂ vm hcur hmalloc hp halloc hspace hthread =>
    rcases h.newRecord hmalloc hp with ⟨h₁, hfresh, hsched⟩
    rcases h₁.forkSpace (h.space cur (hcurrent cur hcur)) halloc hspace with ⟨h₂, hpending⟩
    have hmade : Shares (k₁.vm.allocPage.1 :: roots) ((p, sizeofProcess) :: live)
        { Orchid.newRecord p k₁ with vm := vm } ps :=
      ⟨h₂.memory.cons hpending.sees, h₂.heap, fun q hq => List.mem_cons_of_mem _ (h₂.space q hq),
        h₂.record⟩
    have h₃ := hmade.assign (p := p) List.mem_cons_self List.mem_cons_self
    rcases Kernel.threadCreateUser_spec h₃.heap hthread with ⟨live', hcreated⟩
    refine ⟨⟨_, live', (h₃.created hcreated).congr rfl rfl rfl ?_,
      (List.suffix_cons _ _).trans hcreated.more⟩, ?_, hcreated.process.trans (congrArg _ hsched)⟩
    · exact fun q _ => Kernel.modifyProc_pml4Phys k₂ p (f := fun r =>
        { r with mainThread := some t, next := k₂.processList }) (fun _ => rfl) q
    · intro q hq
      rcases List.mem_cons.mp hq with rfl | hq
      · exact Or.inr hfresh
      · exact Or.inl hq

end Kernel

/-! ## Whole runs -/

section Runs

variable {w w' : HeapWorld} {roots : List Nat} {live : List (Nat × Nat)}

/-- The invariant once the heap is in use. -/
structure HeapWorld.Runs (w : HeapWorld) (roots : List Nat) (live : List (Nat × Nat)) : Prop where
  shares : Shares roots live w.kernel w.procs
  blocks : ∀ b ∈ w.blocks, b ∈ live.map Prod.fst ∧ b ∉ w.procs
  current : ∀ p ∈ w.kernel.sched.currentProcess, p ∈ w.procs

/-- A call was made. -/
theorem HeapWorld.Runs.leaves {k' : Kernel} {ps' : List ProcPtr} (h : w.Runs roots live)
    (hleaves : Leaves live w.kernel k' w.procs ps') (hps : ∀ p ∈ w.procs, p ∈ ps') :
    ∃ roots' live', HeapWorld.Runs ⟨⟨k', ps'⟩, w.blocks⟩ roots' live' := by
  rcases hleaves with ⟨⟨roots', live', hshares, hmore⟩, hfresh, hcur⟩
  refine ⟨roots', live', hshares, ?_, ?_⟩
  · intro b hb
    rcases h.blocks b hb with ⟨hlive, hnot⟩
    refine ⟨(hmore.map Prod.fst).subset hlive, fun hmem => ?_⟩
    rcases hfresh b hmem with hold | hnew
    · exact hnot hold
    · exact hnew hlive
  · intro p hp
    apply hps p
    apply h.current p
    rw [← hcur]
    exact hp

theorem HeapWorld.Runs.call {c : Call} {v : World} (h : w.Runs roots live)
    (hstep : w.toWorld.step c = some v) : ∃ roots' live', HeapWorld.Runs ⟨v, w.blocks⟩ roots' live' := by
  cases c with
  | load fuel image size =>
    rcases Option.map_eq_some_iff.mp hstep with ⟨⟨r, k⟩, hcall, rfl⟩
    exact h.leaves (h.shares.elfLoad hcall) fun p hp => List.mem_append_right _ hp
  | exec fuel image size =>
    rcases Option.map_eq_some_iff.mp hstep with ⟨⟨b, k⟩, hcall, rfl⟩
    exact h.leaves (h.shares.sysExec h.current hcall) fun p hp => hp
  | fork fuel =>
    rcases Option.map_eq_some_iff.mp hstep with ⟨⟨r, k⟩, hcall, rfl⟩
    exact h.leaves (h.shares.sysFork h.current hcall) fun p hp => List.mem_append_right _ hp
  | switch sched =>
    simp only [World.step] at hstep
    split at hstep
    · next hsched =>
      obtain rfl := Option.some.inj hstep
      exact ⟨roots, live, h.shares.congr rfl rfl rfl fun _ _ => rfl, h.blocks, hsched⟩
    · cases hstep

theorem HeapWorld.Runs.malloc {fuel n p : Nat} {k : Kernel} (h : w.Runs roots live)
    (hcall : w.kernel.kmalloc fuel n = some (p, k)) :
    ∃ roots' live', HeapWorld.Runs
      ⟨⟨k, w.procs⟩, if p = 0 then w.blocks else p :: w.blocks⟩ roots' live' := by
  have hshares := h.shares.kmalloc (Nat.le_refl (roundUp n)) hcall
  have hcurrent : ∀ q ∈ k.sched.currentProcess, q ∈ w.procs := by
    rw [Kernel.kmalloc_sched hcall]
    exact h.current
  refine ⟨roots, _, hshares, ?_, hcurrent⟩
  by_cases hp : p = 0
  · simp only [if_pos hp]
    exact h.blocks
  · simp only [if_neg hp] at hshares ⊢
    have hnew := Kernel.newest_notMem hshares.heap
    intro b hb
    rcases List.mem_cons.mp hb with rfl | hb
    · exact ⟨List.mem_cons_self, fun hmem => hnew (h.shares.record b hmem)⟩
    · rcases h.blocks b hb with ⟨hlive, hnot⟩
      exact ⟨List.mem_cons_of_mem _ hlive, hnot⟩

theorem HeapWorld.Runs.free {fuel p : Nat} {k : Kernel} (h : w.Runs roots live) (hp : p ∈ w.blocks)
    (hcall : w.kernel.kfree fuel p = some k) :
    ∃ roots' live', HeapWorld.Runs ⟨⟨k, w.procs⟩, w.blocks.filter fun b => b ≠ p⟩ roots' live' := by
  rcases h.blocks p hp with ⟨hlive, hnot⟩
  rcases List.mem_map.mp hlive with ⟨⟨q, m⟩, hmem, rfl⟩
  refine ⟨roots, _, h.shares.kfree hmem hnot hcall, ?_, ?_⟩
  · intro b hb
    rcases List.mem_filter.mp hb with ⟨hb, hne⟩
    rcases h.blocks b hb with ⟨hlive', hnot'⟩
    rcases List.mem_map.mp hlive' with ⟨e, he, rfl⟩
    exact ⟨List.mem_map_of_mem (List.mem_filter.mpr ⟨he, hne⟩), hnot'⟩
  · show ∀ r ∈ k.sched.currentProcess, r ∈ w.procs
    rw [kfree_current hcall]
    exact h.current

/-- One step keeps the invariant. -/
theorem HeapWorld.Runs.step (h : w.Runs roots live) (hnext : w.Next w') :
    ∃ roots' live', w'.Runs roots' live' := by
  cases hnext with
  | call c hstep => exact h.call hstep
  | malloc hcall => exact h.malloc hcall
  | freeNull hcall =>
    obtain rfl := Option.some.inj hcall
    exact ⟨roots, live, h.shares, h.blocks, h.current⟩
  | free hp hcall => exact h.free hp hcall
  | write hp hout =>
    rcases List.mem_map.mp (h.blocks _ hp).1 with ⟨⟨q, m⟩, hmem, rfl⟩
    have hready := h.shares.heap.write hmem hout
    exact ⟨roots, live, ⟨h.shares.memory, hready, h.shares.space, h.shares.record⟩, h.blocks,
      h.current⟩

/-- In such a state the heap is where the kernel has it. -/
theorem HeapWorld.Runs.heapVisible (h : w.Runs roots live) : w.HeapVisible := by
  intro p hp v hlo hhi
  have hroom : HasRoom w.kernel.heap w.kernel.vm := h.shares.heap.2.1
  have hslot : Fin.ofNat 512 (pml4Index v) = heapSlot := by
    apply Fin.ext
    apply heapSlot_pml4Index hlo
    unfold HasRoom reach at hroom
    omega
  have hsees := h.shares.memory.sees _ (h.shares.space p hp)
  have hpath : path v = Fin.ofNat 512 (pml4Index v) :: (path v).tail := rfl
  rw [lookup_eq_walk, lookup_eq_walk, hpath, hslot, walk_cons, walk_cons, hsees.slot]

/-! ## The first `kmalloc` -/

/-- The first `kmalloc` is one on the heap that `heap_init` makes. -/
theorem kmalloc_withHeap {k : Kernel} (hcold : k.heap.initialized = false) (fuel n : Nat) :
    k.kmalloc fuel n = k.withHeap.kmalloc fuel n := by
  have hwarm : k.withHeap.heap.initialized = true := rfl
  unfold Kernel.kmalloc kmalloc
  simp only [hcold, hwarm, Bool.false_eq_true, if_false, if_true]
  rfl

theorem elfLoad_withHeap {k : Kernel} (hcold : k.heap.initialized = false) (fuel : Nat)
    (image : Nat → UInt8) (size : Nat) :
    elfLoad fuel image size k = elfLoad fuel image size k.withHeap := by
  unfold elfLoad
  rw [kmalloc_withHeap hcold]

/-- With its heap the kernel shares nothing with anyone, and has the table to share. -/
theorem HeapWorld.Boot.runs (h : w.Boot) :
    HeapWorld.Runs ⟨⟨w.kernel.withHeap, w.procs⟩, w.blocks⟩ [] [] := by
  have hgrow : HeapGrowth w.kernel.kernelCr3 w.kernel.vm w.kernel.withHeap.vm :=
    heapInitLoop_growth _ 0 heapInitialPages _ _ (by decide)
  have hext := extended_of_growth h.tables coversHeap_kernelPaths hgrow
  have hpresent : child w.kernel.withHeap.vm.mem w.kernel.kernelCr3 heapSlot ≠ none := by
    intro hnone
    apply h.mapped
    have hpath : path heapStartVirt = heapSlot :: (path heapStartVirt).tail := by decide
    rw [hpath, walk_cons, hnone]
    rfl
  have hfew : w.kernel.vm.free.length ≤ maxFreeList := h.heap.2.2.2.1
  refine ⟨⟨⟨hext.tables, hpresent, hext.length_le.trans hfew, ?_⟩,
    HeapState.ready_heapInit h.heap _, ?_, ?_⟩, ?_, ?_⟩
  · simp
  · simp [h.procs]
  · simp [h.procs]
  · simp [h.blocks]
  · intro p hp
    have hnone : w.kernel.withHeap.sched.currentProcess = none := h.current
    rw [hnone] at hp
    cases hp

/-- Before the first `kmalloc` nothing happens, and the step that makes it could have been
made with the heap in place. -/
theorem HeapWorld.Boot.step (h : w.Boot) (hnext : w.Next w') :
    w'.Boot ∨ HeapWorld.Next ⟨⟨w.kernel.withHeap, w.procs⟩, w.blocks⟩ w' := by
  have hcold : w.kernel.heap.initialized = false := h.heap.1
  cases hnext with
  | @call _ v c hstep =>
    cases c with
    | load fuel image size =>
      refine Or.inr (.call (.load fuel image size) ?_)
      rw [← hstep]
      show (elfLoad fuel image size w.kernel.withHeap).map _ = (elfLoad fuel image size w.kernel).map _
      rw [elfLoad_withHeap hcold]
    | exec fuel image size =>
      simp only [World.step, sysExec, h.current] at hstep
      obtain rfl := Option.some.inj hstep
      exact Or.inl h
    | fork fuel =>
      simp only [World.step, sysFork, h.current] at hstep
      obtain rfl := Option.some.inj hstep
      exact Or.inl h
    | switch sched =>
      simp only [World.step] at hstep
      split at hstep
      · next hsched =>
        obtain rfl := Option.some.inj hstep
        have hnone : sched.currentProcess = none := by
          rw [Option.eq_none_iff_forall_not_mem]
          intro p hp
          have hmem := hsched p hp
          rw [h.procs] at hmem
          exact List.not_mem_nil hmem
        exact Or.inl ⟨h.procs, h.blocks, hnone, h.heap, h.tables, h.mapped⟩
      · cases hstep
  | @malloc _ fuel n p k hcall =>
    rw [kmalloc_withHeap hcold] at hcall
    exact Or.inr (.malloc (w := ⟨⟨w.kernel.withHeap, w.procs⟩, w.blocks⟩) hcall)
  | freeNull hcall =>
    obtain rfl := Option.some.inj hcall
    exact Or.inl h
  | free hp hcall =>
    rw [h.blocks] at hp
    exact absurd hp List.not_mem_nil
  | write hp hout =>
    rw [h.blocks] at hp
    exact absurd hp List.not_mem_nil

/-- Before the first `kmalloc`, or with the heap shared. -/
def HeapWorld.Inv (w : HeapWorld) : Prop := w.Boot ∨ ∃ roots live, w.Runs roots live

theorem HeapWorld.Inv.step (h : w.Inv) (hnext : w.Next w') : w'.Inv := by
  rcases h with hboot | ⟨roots, live, hruns⟩
  · rcases hboot.step hnext with hstill | hfirst
    · exact Or.inl hstill
    · exact Or.inr (hboot.runs.step hfirst)
  · exact Or.inr (hruns.step hnext)

theorem HeapWorld.Inv.heapVisible (h : w.Inv) : w.HeapVisible := by
  rcases h with hboot | ⟨roots, live, hruns⟩
  · intro p hp
    rw [hboot.procs] at hp
    exact absurd hp List.not_mem_nil
  · exact hruns.heapVisible

end Runs

/-- In every state that calls of `kmalloc`, `kfree`, `elf_load`, `sys_fork` and
`sys_exec` lead to, each process reaches the heap at the physical addresses at
which the kernel has it. -/
theorem heap_visible {w : HeapWorld} (h : Reachable HeapWorld.Boot HeapWorld.Next w) :
    w.HeapVisible := by
  have hinv : w.Inv := h.invariant (fun _ => Or.inl) fun _ _ hnext hinv => hinv.step hnext
  exact hinv.heapVisible

/-- A kernel with an empty PML4 at 0x1000 and `n` free pages, before its first
`kmalloc`. -/
def coldKernel (n : Nat) : Kernel := { bootKernel ⟨fun _ => 0, pageRun n⟩ with heap := coldHeap }

theorem boot_coldKernel {n : Nat} (hlo : 64 ≤ n) (hhi : n ≤ maxFreeList) :
    HeapWorld.Boot ⟨⟨coldKernel n, []⟩, []⟩ where
  procs := rfl
  blocks := rfl
  current := rfl
  heap := by
    refine ⟨rfl, rfl, rfl, (length_pageRun n).trans_le hhi, ?_⟩
    rcases List.exists_cons_of_length_pos ((length_pageRun n).symm ▸ (by omega) : 0 < (pageRun n).length)
      with ⟨c, rest, hfree⟩
    have hvm : ((coldKernel n).heapState []).vm.free = c :: rest := hfree
    rw [Vm.allocPage_of_cons hvm]
    exact (freeOk_pageRun hhi).nonzero c (mem_of_eq_cons hfree)
  tables := by
    have haligned : Aligned 0x1000 := by decide
    have hempty : Forest (fun _ : Unit => (coldKernel n).kernelCr3) (fun _ _ => True)
        (fun _ _ => True) (coldKernel n).vm :=
      forest_empty haligned (fun i => child_zero _ _) (freeOk_pageRun hhi) (root_notMem_pageRun n)
    exact hempty.retrack tracked_kernelPaths fun _ _ _ => Or.inl trivial
  mapped := by
    have hpage := (heapInit_pageRun hlo hhi).1.pages 0 (Nat.le_refl _) (by decide)
    rw [Nat.zero_mul, Nat.add_zero] at hpage
    exact hpage

/-- A run with a process in it. -/
theorem heap_visible_loaded : ∃ (w : HeapWorld) (p : ProcPtr),
    Reachable HeapWorld.Boot HeapWorld.Next w ∧ w.procs = [p] ∧
      heapStartVirt < w.kernel.heap.endVirt ∧ w.HeapVisible := by
  rcases (⟨100, by decide, by decide⟩ : ∃ n, 66 ≤ n ∧ n ≤ maxFreeList) with ⟨n, hlo, hhi⟩
  rcases heapInit_pageRun (by omega : 64 ≤ n) hhi with ⟨hmapped, hspare⟩
  have hleft : (pageRun n).length ≤ (coldKernel n).withHeap.vm.free.length + 64 := hmapped.length
  rw [length_pageRun] at hleft
  -- pages for the PML4 and the stack
  rcases hfree : (coldKernel n).withHeap.vm.free with _ | ⟨a, _ | ⟨b, rest⟩⟩
  · rw [hfree, List.length_nil] at hleft
    omega
  · rw [hfree, List.length_singleton] at hleft
    omega
  have hok : FreeOk (coldKernel n).withHeap.vm.free := hmapped.wellFormed.freeOk
  rw [hfree] at hok
  have hspace := loadSpace_empty (coldKernel n).withHeap.kernelCr3 (fun _ => 0) hfree
    (hok.nonzero a (by simp)) (hok.nonzero b (by simp))
  rcases elfLoad_of_spare hspace hspare (by decide) (by decide : 1 + 2 < 8) with
    ⟨p, k, live, -, hcall, -, -, -, hspare', ⟨s, hs, -⟩, -⟩
  rw [← elfLoad_withHeap rfl] at hcall
  have hstep : World.step ⟨coldKernel n, []⟩ (.load 8 (fun _ => 0) 0) = some ⟨k, [p]⟩ := by
    simp only [World.step, hcall]
    rfl
  have hreach : Reachable HeapWorld.Boot HeapWorld.Next ⟨⟨k, [p]⟩, []⟩ :=
    .step (.init (boot_coldKernel (by omega) hhi)) (.call _ hstep)
  refine ⟨_, p, hreach, rfl, ?_, heap_visible hreach⟩
  have hinside : heapStartVirt ≤ s ∧ s + stackSize ≤ k.heap.endVirt := hspare'.ready.inside hs
  have hsize : 0 < stackSize := by decide
  show heapStartVirt < k.heap.endVirt
  omega

end Orchid
