import Mathlib.Data.Set.Insert
import Orchid.Memory.HeapSafety

/-! # The heap is coalesced

`kfree` joins a block to free neighbours on both sides, a growth enlarges a free
last block, and `kmalloc` cuts a free block whose neighbours are used. So no two
neighbours are ever both free. The used blocks are as many as the live
allocations, which leaves one free block when everything has been freed. Which
allocations are live can therefore be read off the heap itself.
-/

namespace Orchid

open ByteMem LinkedList Machine Tiling

/-- What is allocated, as the heap's own list has it: the pointers to the blocks that are
not free. -/
def Heap.allocations (h : Heap) : Set Nat :=
  { p | ∃ blocks x, Chain (linkOf h.mem) (if h.head = 0 then none else some h.head) blocks ∧
    x ∈ blocks ∧ ¬ BlockFree h.mem x ∧ p = x + headerSize }

theorem Tiled.mem_allocations {h : Heap} {bs : List Block} {p : Nat} (ht : Tiled h bs) :
    p ∈ h.allocations ↔
      ∃ x b, At headerSize h.head bs x b ∧ b.free = false ∧ p = x + headerSize := by
  have hchain : Chain (linkOf h.mem) (if h.head = 0 then none else some h.head)
      (blockAddrs h.head bs) := by
    have hspelt := ht.rep.chain ht.pos
    rw [if_neg ht.nonempty] at hspelt
    rw [if_neg (Nat.ne_of_gt ht.pos)]
    exact hspelt
  constructor
  · rintro ⟨blocks, x, hblocks, hx, hfree, rfl⟩
    rw [hblocks.unique hchain] at hx
    rcases mem_blockAddrs.mp hx with ⟨b, hb⟩
    rcases ht.rep.header_at hb with ⟨z, hz⟩
    rw [hz.free, Bool.not_eq_true] at hfree
    exact ⟨x, b, hb, hfree, rfl⟩
  · rintro ⟨x, b, hb, hfree, rfl⟩
    rcases ht.rep.header_at hb with ⟨z, hz⟩
    refine ⟨_, x, hchain, mem_blockAddrs.mpr ⟨b, hb⟩, ?_, rfl⟩
    rw [hz.free, hfree]
    exact Bool.false_ne_true

namespace HeapState

variable {s s' : HeapState} {pml4 n p m fuel : Nat} {h : Heap} {vm : Vm} {bs : List Block}

/-- A heap in use, coalesced, with one used block for each live allocation. -/
def Packed (s : HeapState) : Prop :=
  s.heap.initialized = true ∧ HasRoom s.heap s.vm ∧
    ∃ bs, Tiled s.heap bs ∧ Holds s.heap bs s.live ∧ Coalesced bs ∧ used bs = s.live.length

theorem Packed.ready (hs : s.Packed) : s.Ready := by
  rcases hs with ⟨hinit, hroom, bs, ht, hl, -⟩
  exact ⟨hinit, hroom, bs, ht, hl⟩

theorem Packed.mono {live : List (Nat × Nat)} {vm' : Vm} (hs : Packed ⟨h, vm, live⟩)
    (hlen : vm'.free.length ≤ vm.free.length) : Packed ⟨h, vm', live⟩ :=
  ⟨hs.1, hs.2.1.mono hlen, hs.2.2⟩

/-- With one used block for each, the live allocations are what the heap has. -/
theorem Packed.mem_allocations (hs : s.Packed) :
    p ∈ s.heap.allocations ↔ p ∈ s.live.map Prod.fst := by
  rcases hs with ⟨-, -, bs, ht, hl, -, hused⟩
  have hblocks : ∀ q ∈ s.live.map Prod.fst,
      ∃ x b, At headerSize s.heap.head bs x b ∧ b.free = false ∧ q = x + headerSize := by
    intro q hq
    rcases List.mem_map.mp hq with ⟨e, he, rfl⟩
    rcases hl.block e.1 e.2 he with ⟨x, b, hq, hx, hfree, -⟩
    exact ⟨x, b, hx, hfree, hq⟩
  rw [ht.mem_allocations]
  constructor
  · rintro ⟨x, b, hx, hfree, rfl⟩
    exact mem_of_length_used hl.nodup hblocks (by rw [List.length_map, hused]) hx hfree
  · exact hblocks p

/-- One allocation has a given pointer. -/
theorem length_filter_ne {live : List (Nat × Nat)} (hnodup : (live.map Prod.fst).Nodup)
    (hmem : (p, m) ∈ live) : (live.filter fun e => e.1 ≠ p).length + 1 = live.length := by
  induction live with
  | nil => cases hmem
  | cons e live ih =>
    rw [List.map_cons, List.nodup_cons] at hnodup
    rcases List.mem_cons.mp hmem with rfl | hmem
    · -- it is the first one, and no other has this pointer
      have hothers : live.filter (fun e => e.1 ≠ p) = live := by
        rw [List.filter_eq_self]
        intro e he
        refine decide_eq_true fun heq => hnodup.1 ?_
        exact List.mem_map.mpr ⟨e, he, heq⟩
      rw [List.filter_cons_of_neg (by simp), hothers, List.length_cons]
    · have hne : e.1 ≠ p := fun heq => hnodup.1 (heq ▸ List.mem_map_of_mem hmem)
      rw [List.filter_cons_of_pos (by simp [hne]), List.length_cons, List.length_cons,
        ih hnodup.2 hmem]

/-- The loop of `kmalloc`, from a coalesced heap. -/
theorem packed_kmallocLoop {live : List (Nat × Nat)} {walkFuel : Nat} (hn : n ≤ 2 ^ 20)
    (hinit : s.heap.initialized = true) (hroom : HasRoom s.heap s.vm) (ht : Tiled s.heap bs)
    (hl : Holds s.heap bs live) (hcoal : Coalesced bs) (hused : used bs = live.length)
    (hcall : kmallocLoop pml4 walkFuel (roundUp n) fuel s.heap s.vm = some (p, h, vm)) :
    Packed ⟨h, vm, if p = 0 then live else (p, n) :: live⟩ := by
  rcases roundUp_spec hn with ⟨hmul, hle⟩
  rcases kmallocLoop_spec hmul pml4 walkFuel fuel s.heap bs s.vm ht hroom with
    ⟨hnone, -⟩ | ⟨p', h', vm', bs', hres, ha⟩
  · rw [hnone] at hcall
    cases hcall
  rw [hres] at hcall
  cases hcall
  refine ⟨ha.init.trans hinit, ha.within.trans hroom, bs', ha.tiled,
    Holds.allocated ht hl ha hle, ha.coalesced hcoal, ?_⟩
  rw [ha.used, hused]
  split <;> rfl

/-- The first `kmalloc` starts from the one free block of `heap_init`. -/
theorem Init.malloc_packed (hs : Init s) (hn : n ≤ 2 ^ 20)
    (hcall : kmalloc pml4 fuel n s.heap s.vm = some (p, h, vm)) :
    Packed ⟨h, vm, if p = 0 then s.live else (p, n) :: s.live⟩ := by
  rcases hs with ⟨hinit, hend, hlive, hmax, hpage⟩
  rcases heapInit_tiled pml4 hend hpage hmax with ⟨b, ht, ⟨hfree, -⟩, hinit', hroom⟩
  simp only [kmalloc, hinit, Bool.false_eq_true, if_false] at hcall
  have hholds : Holds (heapInit pml4 s.heap s.vm).1 [b] s.live := by
    rw [hlive]
    exact ⟨List.nodup_nil, fun p n hmem => absurd hmem List.not_mem_nil⟩
  have hused : used [b] = s.live.length := by
    rw [hlive, used_singleton, hfree]
    rfl
  exact @packed_kmallocLoop ⟨(heapInit pml4 s.heap s.vm).1, (heapInit pml4 s.heap s.vm).2, []⟩
    _ _ _ _ _ _ _ _ _ hn hinit' hroom ht hholds (coalesced_singleton b) hused hcall

theorem Packed.malloc (hs : s.Packed) (hn : n ≤ 2 ^ 20)
    (hcall : kmalloc pml4 fuel n s.heap s.vm = some (p, h, vm)) :
    Packed ⟨h, vm, if p = 0 then s.live else (p, n) :: s.live⟩ := by
  rcases hs with ⟨hinit, hroom, bs, ht, hl, hcoal, hused⟩
  simp only [kmalloc, hinit, if_true] at hcall
  exact packed_kmallocLoop hn hinit hroom ht hl hcoal hused hcall

theorem Packed.free (hs : s.Packed) (hmem : (p, m) ∈ s.live)
    (hcall : kfree fuel p s.heap = some h) :
    Packed { s with heap := h, live := s.live.filter fun e => e.1 ≠ p } := by
  rcases hs with ⟨hinit, hroom, bs, ht, hl, hcoal, hused⟩
  rcases (Tiled.free ht hl hroom hmem).2 fuel h hcall with ⟨bs', hfreed⟩
  refine ⟨hfreed.same.1.trans hinit, ?_, bs', hfreed.tiled, hfreed.holds,
    hfreed.coalesced hcoal, ?_⟩
  · unfold HasRoom reach
    rw [hfreed.same.2]
    exact hroom
  · have hless := hfreed.used
    have hlive := length_filter_ne hl.nodup hmem
    change used bs' = (s.live.filter fun e => e.1 ≠ p).length
    omega

theorem Packed.write {mem : ByteMem} (hs : s.Packed) (hmem : (p, m) ∈ s.live)
    (hout : ∀ x, ¬ InPayload s.heap p x → mem x = s.heap.mem x) :
    Packed { s with heap := { s.heap with mem := mem } } := by
  rcases hs with ⟨hinit, hroom, bs, ht, hl, hcoal, hused⟩
  rcases Tiled.write ht hl hmem hout with ⟨ht', hl'⟩
  exact ⟨hinit, hroom, bs, ht', hl', hcoal, hused⟩

theorem packed_step (hnext : Next pml4 s s') (hinv : Init s ∨ s.Packed) : Init s' ∨ s'.Packed := by
  -- something live means that the heap is in use
  have hpacked : ∀ {p n : Nat}, (p, n) ∈ s.live → s.Packed := by
    intro p n hmem
    rcases hinv with ⟨-, -, hlive, -⟩ | hs
    · rw [hlive] at hmem
      cases hmem
    · exact hs
  cases hnext with
  | malloc hn hcall =>
    rcases hinv with hs | hs
    · exact Or.inr (hs.malloc_packed hn hcall)
    · exact Or.inr (hs.malloc hn hcall)
  | freeNull hcall =>
    cases hcall
    exact hinv
  | free hmem hcall => exact Or.inr ((hpacked hmem).free hmem hcall)
  | write hmem hout => exact Or.inr ((hpacked hmem).write hmem hout)

/-- In every state after the first `kmalloc` the blocks fill the heap with no two
free neighbours, and they are one free block when nothing is live. -/
theorem stays_coalesced (hs : Reachable Init (Next pml4) s) :
    (s.heap.initialized = false ∧ s.live = []) ∨
    ∃ bs, Tiled s.heap bs ∧ Coalesced bs ∧
      (s.live = [] → bs = [⟨s.heap.endVirt - heapStartVirt - headerSize, true⟩]) := by
  have hinv : Init s ∨ s.Packed := hs.invariant (fun _ => Or.inl) fun _ _ => packed_step
  rcases hinv with ⟨hinit, -, hlive, -⟩ | ⟨-, -, bs, ht, -, hcoal, hused⟩
  · exact Or.inl ⟨hinit, hlive⟩
  refine Or.inr ⟨bs, ht, hcoal, fun hlive => ?_⟩
  rw [hlive, List.length_nil] at hused
  rcases eq_singleton_of_unused hcoal hused ht.nonempty with ⟨b, rfl, hfree⟩
  -- the one block reaches to the end of the heap
  have hend := ht.finish
  rw [ht.head] at hend
  simp only [extent_cons, extent_nil] at hend
  have hsize : b.size = s.heap.endVirt - heapStartVirt - headerSize := by omega
  rw [← hsize, ← hfree]

/-- One allocation, freed again. -/
theorem stays_coalesced_unusedHeap : ∃ s : HeapState, Reachable Init (Next 0x1000) s ∧ s.live = [] ∧
    Tiled s.heap [⟨s.heap.endVirt - heapStartVirt - headerSize, true⟩] := by
  rcases kmalloc_unusedHeap with ⟨h, vm, hcall, -⟩
  have hinit : Init unusedHeap := by
    refine ⟨rfl, rfl, rfl, ?_, ?_⟩ <;> decide
  have hmalloc := Reachable.step (.init hinit) (Next.malloc (by omega) hcall)
  rw [if_neg (by decide)] at hmalloc
  have hready := (reachable_inv hmalloc).ready List.mem_cons_self
  rcases hready.free List.mem_cons_self with ⟨⟨fuel, h', hfree⟩, hfreed⟩
  have hrun := Reachable.step hmalloc (Next.free List.mem_cons_self hfree)
  have hlive : (((heapStartVirt + headerSize, 100) :: unusedHeap.live).filter
      fun e => e.1 ≠ heapStartVirt + headerSize) = [] := by decide
  refine ⟨_, hrun, hlive, ?_⟩
  rcases stays_coalesced hrun with ⟨hcold, -⟩ | ⟨bs, ht, -, hone⟩
  · -- the heap is in use
    have hwarm := (hfreed fuel h' hfree).1.1
    rw [hcold] at hwarm
    cases hwarm
  · have hbs := hone hlive
    rw [hbs] at ht
    exact ht

end HeapState

end Orchid
