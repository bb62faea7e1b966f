import Orchid.Core.Rules
import Orchid.Memory.HeapBlocks

/-! # The heap is safe

`kmalloc` on the block list, and the heap as a machine: any sequence of
`kmalloc`, `kfree` of something live, and writes of the owners into their
allocations.

* `Tiled` is the invariant: the headers spell blocks that fill the heap.
* `kmallocLoop_spec` follows the outer loop of `kmalloc`, growth by growth.
* `HeapState.safe` is the result for whole runs.
-/

namespace Orchid

open ByteMem LinkedList Machine Tiling

/-- The blocks `bs` fill the heap from its head to its end. -/
structure Tiled (h : Heap) (bs : List Block) : Prop where
  head : h.head = heapStartVirt
  nonempty : bs ≠ []
  rep : Rep h.mem 0 h.head bs
  finish : h.head + extent headerSize bs = h.endVirt
  aligned : ∀ b ∈ bs, b.size % 8 = 0

theorem heapStartVirt_pos : 0 < heapStartVirt := by decide

/-- Where the heap would end if every free page went to it. -/
def reach (h : Heap) (vm : Vm) : Nat := h.endVirt + 4096 * vm.free.length

/-- Even then it would stay inside the 512 GiB its PML4 slot spans. -/
def HasRoom (h : Heap) (vm : Vm) : Prop := reach h vm ≤ heapStartVirt + 2 ^ 39

theorem reach_mono {h : Heap} {vm vm' : Vm} (hlen : vm'.free.length ≤ vm.free.length) :
    reach h vm' ≤ reach h vm :=
  Nat.add_le_add_left (Nat.mul_le_mul_left _ hlen) _

theorem HasRoom.le {h : Heap} {vm : Vm} (hroom : HasRoom h vm) :
    h.endVirt + 4096 * vm.free.length ≤ 2 ^ 64 := by
  unfold HasRoom reach heapStartVirt at hroom
  omega

theorem HasRoom.mono {h : Heap} {vm vm' : Vm} (hroom : HasRoom h vm)
    (hlen : vm'.free.length ≤ vm.free.length) : HasRoom h vm' :=
  Nat.le_trans (reach_mono hlen) hroom

/-- What one growth does to the machine's memory: there is no page, or a page
is taken and mapped in the heap's window of the kernel's address space. -/
inductive GrowStep (pml4 : Nat) : Vm → Vm → Prop where
  | failed {vm : Vm} (hnone : vm.allocPage.1 = 0) : GrowStep pml4 vm vm.allocPage.2
  | page {vm : Vm} {v : Nat} (hlo : heapStartVirt ≤ v) (hhi : v < heapStartVirt + 2 ^ 39)
      (hsome : vm.allocPage.1 ≠ 0) :
      GrowStep pml4 vm
        (vmmMap pml4 v vm.allocPage.1 (vmmPresent ||| vmmWritable) vm.allocPage.2)

/-- Any number of growths. -/
abbrev HeapGrowth (pml4 : Nat) : Vm → Vm → Prop := Relation.ReflTransGen (GrowStep pml4)

section Alloc

variable {h : Heap} {vm : Vm} {bs : List Block}

theorem Tiled.pos (ht : Tiled h bs) : 0 < h.head := by
  rw [ht.head]
  exact heapStartVirt_pos

theorem Tiled.link_eq (ht : Tiled h bs) : link h.head bs 0 = h.head := by
  rcases List.exists_cons_of_ne_nil ht.nonempty with ⟨b, r, rfl⟩
  rfl

/-! ## Growth -/

theorem GrowStep.free {pml4 : Nat} {vm' : Vm} (hstep : GrowStep pml4 vm vm') :
    vm'.free <:+ vm.free := by
  cases hstep with
  | failed => exact vm.allocPage_free
  | page => exact (vmmMap_free _ _ _ _ _).trans vm.allocPage_free

/-- What `heap_expand_locked` makes of the last block. -/
def grown (b : Block) : List Block :=
  if b.free then [⟨b.size + (headerSize + (pageSize - headerSize)), true⟩]
  else [b, ⟨pageSize - headerSize, true⟩]

theorem extent_grown (b : Block) :
    extent headerSize (grown b) = extent headerSize [b] + pageSize := by
  have hh : headerSize = 24 := rfl
  have hp : pageSize = 4096 := rfl
  unfold grown
  split <;> simp only [extent_cons, extent_nil] <;> omega

theorem used_grown (b : Block) : used (grown b) = used [b] := by
  unfold grown
  split
  · next hfree => simp [hfree]
  · next hfree => simp [used, hfree]

theorem coalesced_grown {l : List Block} {b : Block} (h : Coalesced (l ++ [b])) :
    Coalesced (l ++ grown b) := by
  unfold grown
  split
  · next hfree =>
    -- the last block only gets larger
    have hlist : Coalesced (l ++ [b] ++ []) := by
      rw [List.append_nil]
      exact h
    rcases hlist.around hfree with ⟨hl, -, hleft, -⟩
    have hnew := coalesced_between hl List.isChain_nil
      (coalesced_singleton ⟨b.size + (headerSize + (pageSize - headerSize)), true⟩) hleft
      (fun c hc => by cases hc)
    rwa [List.append_nil] at hnew
  · next hused =>
    have hpair : l ++ [b, ⟨pageSize - headerSize, true⟩] =
        l ++ [b] ++ [⟨pageSize - headerSize, true⟩] := by simp
    rw [hpair]
    apply h.append (coalesced_singleton _)
    intro c hc d _
    rw [List.getLast?_concat] at hc
    cases hc
    exact Or.inl (Bool.eq_false_iff.mpr hused)

/-- The stores of a growth: the header of the new page, then the last block is
enlarged or linked to it. -/
theorem grown_local {mem : ByteMem} {x newBlock : Nat} {b : Block} (hb : Header mem x b 0)
    (hnb : newBlock = x + headerSize + b.size) (hbound : newBlock + pageSize ≤ 2 ^ 64) :
    Rep (appendBlock (setHeader mem newBlock (pageSize - headerSize) 1 0) x newBlock) 0 x
        (grown b) ∧
      ∀ y, ¬ InHeader x y → y < newBlock →
        appendBlock (setHeader mem newBlock (pageSize - headerSize) 1 0) x newBlock y = mem y := by
  have hh : headerSize = 24 := rfl
  have hp : pageSize = 4096 := rfl
  have hnew : Header (setHeader mem newBlock (pageSize - headerSize) 1 0) newBlock
      ⟨pageSize - headerSize, true⟩ 0 := header_setHeader (by omega) (by omega)
  have hlast : Header (setHeader mem newBlock (pageSize - headerSize) 1 0) x b 0 := by
    refine hb.congr fun y hy => setHeader_apply ?_
    unfold InHeader at *
    omega
  have hout : ∀ y, y < newBlock → setHeader mem newBlock (pageSize - headerSize) 1 0 y = mem y := by
    intro y hy
    refine setHeader_apply ?_
    unfold InHeader
    omega
  simp only [appendBlock, hlast.size, hnew.size, ← hnb, and_true, hlast.free]
  unfold grown
  split
  · next hfree =>
    refine ⟨⟨?_, trivial⟩, fun y hy hlt => (setSize_apply hy).trans (hout y hlt)⟩
    have := hlast.setSize (v := b.size + (headerSize + (pageSize - headerSize))) (by omega)
    rwa [hfree] at this
  · refine ⟨⟨?_, ?_, trivial⟩, fun y hy hlt => (setNext_apply hy).trans (hout y hlt)⟩
    · rw [link_cons, ← hnb]
      exact hlast.setNext (by omega)
    · rw [← hnb]
      refine hnew.congr fun y hy => setNext_apply ?_
      unfold InHeader at *
      omega

/-- The tail walk over the blocks ends at the last one. -/
theorem walkTail_rep {mem : ByteMem} {a fuel x : Nat} {l : List Block} {b : Block}
    (h : Rep mem 0 a (l ++ [b])) (ha : 0 < a) :
    (walkTail (linkOf mem) fuel a = none → fuel ≤ l.length) ∧
      (walkTail (linkOf mem) fuel a = some x → x = a + extent headerSize l) := by
  have hchain := h.chain ha
  rw [if_neg (by simp), blockAddrs_append] at hchain
  have hwalk : ∀ fuel', l.length < fuel' →
      walkTail (linkOf mem) fuel' a = some (a + extent headerSize l) :=
    fun fuel' hfuel' => walkTail_of_chain hchain (by simpa using hfuel')
  constructor
  · intro hnone
    by_contra hlt
    rw [hwalk fuel (by omega)] at hnone
    cases hnone
  · intro hsome
    have hmore := walkTail_mono hsome (Nat.le_max_left fuel (l.length + 1))
    rw [hwalk _ (by omega)] at hmore
    exact (Option.some.inj hmore).symm

theorem aligned_grown {b c : Block} (hb : b.size % 8 = 0) (hc : c ∈ grown b) : c.size % 8 = 0 := by
  have hh : headerSize = 24 := rfl
  have hp : pageSize = 4096 := rfl
  unfold grown at hc
  split at hc
  · rw [List.mem_singleton.mp hc]
    simp only
    omega
  · rcases List.mem_pair.mp hc with rfl | rfl
    · exact hb
    · simp only
      omega

/-- The block list after a growth. -/
theorem Tiled.grow {l : List Block} {b : Block} {mem' : ByteMem} (ht : Tiled h (l ++ [b]))
    (hnew : Rep mem' 0 (h.head + extent headerSize l) (grown b))
    (hout : ∀ y, ¬ InHeader (h.head + extent headerSize l) y → y < h.endVirt → mem' y = h.mem y) :
    Tiled { h with mem := mem', endVirt := h.endVirt + pageSize } (l ++ grown b) ∧
      Kept h.mem mem' h.head (l ++ [b]) (l ++ grown b) 0 := by
  have hend := ht.finish
  simp only [extent_append, extent_cons, extent_nil] at hend
  have hrep := ht.rep
  rw [rep_append] at hrep
  have hlink : link (h.head + extent headerSize l) (grown b) 0 = h.head + extent headerSize l := by
    unfold grown
    split <;> rfl
  refine ⟨⟨ht.head, ?_, ?_, ?_, ?_⟩, ?_⟩
  · unfold grown
    split <;> simp
  · refine (rep_append _ _).mpr ⟨?_, hnew⟩
    rw [hlink]
    refine hrep.1.congr fun y hy hy' => hout y ?_ (by omega)
    unfold InHeader
    omega
  · simp only [extent_append, extent_grown, extent_cons, extent_nil]
    omega
  · intro c hc
    rcases List.mem_append.mp hc with hc | hc
    · exact ht.aligned c (by simp [hc])
    · exact aligned_grown (ht.aligned b (by simp)) hc
  · intro y c hy hused _
    rw [at_append] at hy ⊢
    rcases hy with hy | hy
    · have hin := hy.bounds
      refine ⟨Or.inl hy, fun w hw hw' => hout w ?_ (by omega)⟩
      unfold InHeader
      omega
    · -- the last block itself is used: it got a link, its payload did not change
      rcases hy with ⟨rfl, rfl⟩ | hnil
      · refine ⟨Or.inr ?_, fun w hw hw' => hout w ?_ (by omega)⟩
        · rw [grown, if_neg (by simp [hused])]
          exact Or.inl ⟨rfl, rfl⟩
        · unfold InHeader
          omega
      · exact hnil.elim

/-- The header of a new block behind the heap is in nobody's way. -/
theorem Tiled.rep_newBlock (ht : Tiled h bs) (size : Nat) :
    Rep (setHeader h.mem h.endVirt size 1 0) 0 h.head bs := by
  refine ht.rep.congr fun y hy hy' => setHeader_apply ?_
  rw [ht.finish] at hy'
  unfold InHeader
  omega

/-- What a growth can do: still be looking for the last block, find no page, or
add one page behind the last block. -/
theorem heapExpandLocked_spec (pml4 : Nat) (ht : Tiled h bs) (hroom : HasRoom h vm)
    (fuel : Nat) :
    (heapExpandLocked pml4 fuel h vm = none ∧ fuel < bs.length) ∨
    (∃ vm', heapExpandLocked pml4 fuel h vm = some (false, h, vm') ∧ GrowStep pml4 vm vm' ∧
      reach h vm' ≤ reach h vm) ∨
    ∃ h' bs' vm', heapExpandLocked pml4 fuel h vm = some (true, h', vm') ∧ Tiled h' bs' ∧
      GrowStep pml4 vm vm' ∧ reach h' vm' ≤ reach h vm ∧
      Kept h.mem h'.mem h.head bs bs' 0 ∧ bs'.length ≤ bs.length + 1 ∧
      vm'.free.length < vm.free.length ∧ h'.initialized = h.initialized ∧
      (Coalesced bs → Coalesced bs') ∧ used bs' = used bs ∧
      ∃ l b, bs = l ++ [b] ∧ bs' = l ++ grown b := by
  have hp : pageSize = 4096 := rfl
  have hle := hroom.le
  unfold HasRoom reach at hroom
  unfold heapExpandLocked
  by_cases hphys : vm.allocPage.1 = 0
  · right; left
    have hfree := vm.allocPage_free.length_le
    refine ⟨vm.allocPage.2, by simp only [hphys, if_true], .failed hphys, ?_⟩
    unfold reach
    omega
  simp only [if_neg hphys, if_neg (Nat.ne_of_gt ht.pos)]
  -- the page comes off the free stack, so there is room for it behind the heap
  have hshrink := Vm.allocPage_shrinks hphys
  have hmap := (vmmMap_free pml4 h.endVirt vm.allocPage.1 (vmmPresent ||| vmmWritable)
    vm.allocPage.2).length_le
  obtain ⟨l, b, rfl⟩ := (List.eq_nil_or_concat' bs).resolve_left ht.nonempty
  have hlist := ht.rep_newBlock (pageSize - headerSize)
  cases hw : walkTail (linkOf (setHeader h.mem h.endVirt (pageSize - headerSize) 1 0)) fuel
      h.head with
  | none =>
    left
    have := (walkTail_rep (x := 0) hlist ht.pos).1 hw
    simp only [Option.map_none, List.length_append, List.length_singleton, true_and]
    omega
  | some x =>
    right; right
    obtain rfl := (walkTail_rep hlist ht.pos).2 hw
    have hend : h.endVirt = h.head + extent headerSize l + headerSize + b.size := by
      have := ht.finish
      simp only [extent_append, extent_cons, extent_nil] at this
      omega
    have hrep := ht.rep
    rw [rep_append] at hrep
    obtain ⟨hnew, hout⟩ := grown_local hrep.2.1 hend (by omega)
    rw [Option.map_some]
    generalize appendBlock (setHeader h.mem h.endVirt (pageSize - headerSize) 1 0)
      (h.head + extent headerSize l) h.endVirt = mem' at hnew hout ⊢
    obtain ⟨htiled, hkept⟩ := ht.grow hnew hout
    have hlen : (l ++ grown b).length ≤ (l ++ [b]).length + 1 := by
      unfold grown
      split <;> simp
    have hstep : GrowStep pml4 vm (vmmMap pml4 h.endVirt vm.allocPage.1
        (vmmPresent ||| vmmWritable) vm.allocPage.2) := by
      refine .page ?_ (by omega) hphys
      rw [hend, ht.head]
      omega
    refine ⟨_, l ++ grown b, _, rfl, htiled, hstep, ?_, hkept, hlen,
      Nat.lt_of_le_of_lt hmap hshrink, rfl, coalesced_grown, ?_, l, b, rfl, rfl⟩
    · unfold reach
      simp only [hp]
      omega
    · rw [used_append, used_append, used_grown]

/-! ## Allocation -/

theorem aligned_carved {b c : Block} {size : Nat} (hb : b.size % 8 = 0) (hsize : size % 8 = 0)
    (hc : c ∈ carved b size) : c.size % 8 = 0 := by
  have hh : headerSize = 24 := rfl
  unfold carved at hc
  split at hc
  · rcases List.mem_pair.mp hc with rfl | rfl
    · exact hsize
    · simp only
      omega
  · rw [List.mem_singleton.mp hc]
    exact hb

theorem used_carved (b : Block) (size : Nat) : used (carved b size) = 1 := by
  unfold carved
  split <;> simp [used]

theorem coalesced_carved {l r : List Block} {b : Block} (size : Nat)
    (h : Coalesced (l ++ [b] ++ r)) (hb : b.free = true) :
    Coalesced (l ++ carved b size ++ r) := by
  rcases h.around hb with ⟨hl, hr, hleft, hright⟩
  refine coalesced_between hl hr ?_ hleft hright
  unfold carved
  split
  · exact List.isChain_pair.mpr (Or.inl rfl)
  · exact coalesced_singleton _

/-- The first block that `carve` leaves is used, and large enough. -/
theorem at_carved {a size : Nat} {l r : List Block} {b : Block} (hfit : size ≤ b.size) :
    ∃ c, At headerSize a (l ++ carved b size ++ r) (a + extent headerSize l) c ∧
      c.free = false ∧ size ≤ c.size := by
  unfold carved
  split
  · refine ⟨⟨size, false⟩, ?_, rfl, Nat.le_refl size⟩
    rw [List.append_assoc]
    exact at_middle
  · refine ⟨⟨b.size, false⟩, ?_, rfl, hfit⟩
    rw [List.append_assoc]
    exact at_middle

/-- A heap and its blocks after an allocation that returned `p`. -/
structure Allocated (pml4 : Nat) (h : Heap) (bs : List Block) (vm : Vm) (size p : Nat)
    (h' : Heap) (bs' : List Block) (vm' : Vm) : Prop where
  tiled : Tiled h' bs'
  kept : Kept h.mem h'.mem h.head bs bs' 0
  init : h'.initialized = h.initialized
  within : reach h' vm' ≤ reach h vm
  growth : HeapGrowth pml4 vm vm'
  new : p = 0 ∨ ∃ x b, p = x + headerSize ∧ At headerSize h.head bs' x b ∧ b.free = false ∧
    size ≤ b.size ∧ ∀ c, At headerSize h.head bs x c → c.free = true
  coalesced : Coalesced bs → Coalesced bs'
  used : Tiling.used bs' = Tiling.used bs + if p = 0 then 0 else 1

theorem Tiled.carve {l r : List Block} {b : Block} {size : Nat} (pml4 : Nat)
    (ht : Tiled h (l ++ [b] ++ r)) (hroom : HasRoom h vm) (hb : b.free = true)
    (hfit : size ≤ b.size) (hsize : size % 8 = 0) :
    Allocated pml4 h (l ++ [b] ++ r) vm size (h.head + extent headerSize l + headerSize)
      { h with mem := carve h.mem (h.head + extent headerSize l) size }
      (l ++ carved b size ++ r) vm := by
  have hbound : h.head + extent headerSize (l ++ [b] ++ r) ≤ 2 ^ 64 := by
    have := hroom.le
    rw [ht.finish]
    omega
  have hupdate : Update h.mem (Orchid.carve h.mem (h.head + extent headerSize l) size) h.head
      (l ++ [b] ++ r) (l ++ carved b size ++ r) 0 := by
    have hhead : 8 < h.head := by
      rw [ht.head]
      decide
    refine (carve_rewrite ht.rep (by norm_num) hhead hbound hfit).update ?_ ?_
    · rintro y c (⟨-, rfl⟩ | hnil) hused
      · rw [hb] at hused
        cases hused
      · exact hnil.elim
    · intro hall c hc
      exact aligned_carved (hall b (by simp)) hsize hc
  have hne : l ++ carved b size ++ r ≠ [] := by
    unfold carved
    split <;> simp
  obtain ⟨c, hc, hused, hle⟩ := at_carved (a := h.head) (l := l) (r := r) hfit
  refine ⟨⟨ht.head, hne, hupdate.rep, ?_, hupdate.aligned ht.aligned⟩, hupdate.kept, rfl,
    Nat.le_refl _, .refl, Or.inr ⟨_, c, rfl, hc, hused, hle, ?_⟩,
    fun hcoal => coalesced_carved size hcoal hb, ?_⟩
  · rw [hupdate.extent]
    exact ht.finish
  · intro d hd
    have hbx : At headerSize h.head (l ++ [b] ++ r) (h.head + extent headerSize l) b := by
      rw [List.append_assoc]
      exact at_middle
    rw [hd.unique (by decide) hbx, hb]
  · have hne : h.head + extent headerSize l + headerSize ≠ 0 := by
      unfold headerSize
      omega
    rw [if_neg hne]
    simp only [used_append, used_carved, used_singleton, hb, if_true]
    omega

/-- An allocation after a growth is an allocation. -/
theorem Allocated.after_growth {h₁ h' : Heap} {bs₁ bs' : List Block} {pml4 size p : Nat}
    {vm₁ vm' : Vm} (ht : Tiled h bs) (ht₁ : Tiled h₁ bs₁) (hstep : GrowStep pml4 vm vm₁)
    (hkept : Kept h.mem h₁.mem h.head bs bs₁ 0) (hinit : h₁.initialized = h.initialized)
    (hreach : reach h₁ vm₁ ≤ reach h vm) (hcoal : Coalesced bs → Coalesced bs₁)
    (hused : Tiling.used bs₁ = Tiling.used bs) (ha : Allocated pml4 h₁ bs₁ vm₁ size p h' bs' vm') :
    Allocated pml4 h bs vm size p h' bs' vm' := by
  have hhead : h₁.head = h.head := ht₁.head.trans ht.head.symm
  have hkept' := ha.kept
  have hnew := ha.new
  rw [hhead] at hkept' hnew
  refine ⟨ha.tiled, hkept.trans hkept', ha.init.trans hinit, ha.within.trans hreach,
    .head hstep ha.growth, ?_, fun h => ha.coalesced (hcoal h), hused ▸ ha.used⟩
  rcases hnew with hnull | ⟨x, b, hp, hx, hused, hle, hfree⟩
  · exact Or.inl hnull
  · refine Or.inr ⟨x, b, hp, hx, hused, hle, fun c hc => ?_⟩
    -- a used block there would have survived the growth
    by_contra hcused
    have hpos : x ≠ 0 := by
      have := hc.bounds.1
      have := ht.pos
      omega
    have hc₁ := (hkept x c hc (by simpa using hcused) hpos).1
    exact hcused (hfree c hc₁)

/-- The loop of `kmalloc` returns: each round that does not find a block takes a
page off the free stack. -/
theorem kmallocLoop_spec {size : Nat} (hsize : size % 8 = 0) (pml4 walkFuel fuel : Nat) (h : Heap)
    (bs : List Block) (vm : Vm) (ht : Tiled h bs) (hroom : HasRoom h vm) :
    (kmallocLoop pml4 walkFuel size fuel h vm = none ∧
      (fuel ≤ vm.free.length ∨ walkFuel ≤ bs.length + vm.free.length)) ∨
    ∃ p h' vm' bs', kmallocLoop pml4 walkFuel size fuel h vm = some (p, h', vm') ∧
      Allocated pml4 h bs vm size p h' bs' vm' := by
  induction fuel generalizing h bs vm with
  | zero => exact Or.inl ⟨rfl, Or.inl (Nat.zero_le _)⟩
  | succ fuel ih =>
    have hfit := firstFit_spec ht.rep ht.pos size walkFuel
    rw [ht.link_eq] at hfit
    unfold kmallocLoop
    rcases hfit with ⟨hnone, hlen⟩ | ⟨hend, -⟩ | ⟨l, b, r, rfl, -, hb, hfound⟩
    · -- still walking
      rw [hnone]
      exact Or.inl ⟨rfl, Or.inr (by omega)⟩
    · -- no block is large enough: grow and try again
      rw [hend]
      rcases heapExpandLocked_spec pml4 ht hroom walkFuel with
        ⟨hnone, hlen⟩ | ⟨vm₁, hfull, hstep, hreach⟩ |
        ⟨h₁, bs₁, vm₁, hgrow, ht₁, hstep, hreach, hkept, hlen, hfree, hinit, hcoal, hused, -⟩
      · rw [hnone]
        exact Or.inl ⟨rfl, Or.inr (by omega)⟩
      · simp only [hfull]
        exact Or.inr ⟨0, h, vm₁, bs, rfl, ht, fun _ _ hy _ _ => ⟨hy, fun _ _ _ => rfl⟩, rfl,
          hreach, .single hstep, Or.inl rfl, fun hcoal => hcoal, rfl⟩
      · simp only [hgrow]
        rcases ih h₁ bs₁ vm₁ ht₁ (hreach.trans hroom) with
          ⟨hnone, hlt⟩ | ⟨p, h', vm', bs', hres, ha⟩
        · exact Or.inl ⟨hnone, by omega⟩
        · exact Or.inr ⟨p, h', vm', bs', hres,
            ha.after_growth ht ht₁ hstep hkept hinit hreach hcoal hused⟩
    · -- the first block that is large enough is carved up
      rw [hfound]
      have hassoc : l ++ b :: r = l ++ [b] ++ r := by simp
      rw [hassoc] at ht ⊢
      exact Or.inr ⟨_, _, vm, _, rfl, ht.carve pml4 hroom hb.1 hb.2 hsize⟩

/-- A first block that is free and large enough is found at once. -/
theorem firstFit_of_first {b : Block} {size z : Nat} (walkFuel : Nat) (hne : h.head ≠ 0)
    (hhead : Header h.mem h.head b z) (hb : b.free = true) (hfit : size ≤ b.size) :
    firstFit h.mem size (walkFuel + 1) h.head = some (some h.head) := by
  rw [firstFit, if_neg hne, if_pos ⟨hhead.free.mpr hb, hhead.size ▸ hfit⟩]

theorem kmallocLoop_of_found {size walkFuel curr : Nat} (pml4 fuel : Nat) (vm : Vm)
    (hfound : firstFit h.mem size walkFuel h.head = some (some curr)) :
    kmallocLoop pml4 walkFuel size (fuel + 1) h vm =
      some (curr + headerSize, { h with mem := carve h.mem curr size }, vm) := by
  rw [kmallocLoop, hfound]

/-! ## The first call -/

/-- `heap_init` maps up to 16 pages, and at least one if there is one. -/
theorem heapInitLoop_spec (pml4 i n : Nat) (vm : Vm) :
    ∃ k ≤ n, (heapInitLoop pml4 i n (heapStartVirt + i * pageSize) vm).1 =
        heapStartVirt + (i + k) * pageSize ∧
      (heapInitLoop pml4 i n (heapStartVirt + i * pageSize) vm).2.free.length + k ≤
        vm.free.length ∧
      (0 < n → vm.allocPage.1 ≠ 0 → 0 < k) := by
  induction n generalizing i vm with
  | zero => exact ⟨0, Nat.le_refl _, rfl, Nat.le_refl _, fun h => absurd h (by omega)⟩
  | succ n ih =>
    unfold heapInitLoop
    by_cases hphys : vm.allocPage.1 = 0
    · simp only [hphys, if_true]
      exact ⟨0, Nat.zero_le _, rfl, vm.allocPage_free.length_le, fun _ h => absurd rfl h⟩
    · simp only [if_neg hphys]
      have hshrink := Vm.allocPage_shrinks hphys
      have hmap := (vmmMap_free pml4 (heapStartVirt + i * pageSize) vm.allocPage.1
        (vmmPresent ||| vmmWritable) vm.allocPage.2).length_le
      obtain ⟨k, hk, hend, hfree, -⟩ := ih (i + 1) (vmmMap pml4 (heapStartVirt + i * pageSize)
        vm.allocPage.1 (vmmPresent ||| vmmWritable) vm.allocPage.2)
      refine ⟨k + 1, by omega, ?_, by omega, fun _ _ => by omega⟩
      rw [hend]
      congr 2
      omega

/-- The loop takes pages and maps them in the heap's window, like any growth. -/
theorem heapInitLoop_growth (pml4 i n endVirt : Nat) (vm : Vm) (hn : i + n ≤ 2 ^ 27) :
    HeapGrowth pml4 vm (heapInitLoop pml4 i n endVirt vm).2 := by
  induction n generalizing i endVirt vm with
  | zero => exact .refl
  | succ n ih =>
    unfold heapInitLoop
    by_cases hphys : vm.allocPage.1 = 0
    · simp only [hphys, if_true]
      exact .single (.failed hphys)
    · simp only [if_neg hphys]
      have hlo : heapStartVirt ≤ heapStartVirt + i * pageSize := Nat.le_add_right _ _
      have hhi : heapStartVirt + i * pageSize < heapStartVirt + 2 ^ 39 := by
        unfold pageSize
        omega
      exact .head (.page hlo hhi hphys) (ih (i + 1) _ _ (by omega))

/-- After `heap_init` the heap is one free block. -/
theorem heapInit_tiled (pml4 : Nat) (hend : h.endVirt = heapStartVirt)
    (hpage : vm.allocPage.1 ≠ 0) (hmax : vm.free.length ≤ maxFreeList) :
    ∃ b, Tiled (heapInit pml4 h vm).1 [b] ∧ (b.free = true ∧ pageSize - headerSize ≤ b.size) ∧
      (heapInit pml4 h vm).1.initialized = true ∧
      HasRoom (heapInit pml4 h vm).1 (heapInit pml4 h vm).2 := by
  have hp : pageSize = 4096 := rfl
  have hh : headerSize = 24 := rfl
  have hs : heapStartVirt = 0xFFFFF00000000000 := rfl
  have hm : maxFreeList = 300000 := rfl
  obtain ⟨k, hk, hendVirt, hfree, hpos⟩ := heapInitLoop_spec pml4 0 heapInitialPages vm
  have hkpos := hpos (by decide) hpage
  have hk16 : k ≤ 16 := hk
  simp only [Nat.zero_mul, Nat.add_zero, Nat.zero_add] at hendVirt hfree
  rw [hp] at hendVirt
  have hsize : (heapStartVirt + k * 4096 + 2 ^ 64 - heapStartVirt - headerSize) % 2 ^ 64 =
      k * 4096 - 24 := by omega
  refine ⟨⟨k * 4096 - 24, true⟩, ⟨rfl, by simp, ⟨?_, trivial⟩, ?_, ?_⟩,
    ⟨rfl, by simp only; omega⟩, rfl, ?_⟩
  · simp only [heapInit, hend, hendVirt, hsize]
    exact header_setHeader (by omega) (by omega)
  · simp only [heapInit, hend, hendVirt, extent_cons, extent_nil]
    omega
  · intro b hb
    rw [List.mem_singleton.mp hb]
    simp only
    omega
  · simp only [HasRoom, reach, heapInit, hend, hendVirt]
    omega

theorem roundUp_eq (n : Nat) : roundUp n = (n + 7) % 2 ^ 64 / 2 ^ 3 % 2 ^ 61 * 2 ^ 3 :=
  Bits.and_mask ((n + 7) % 2 ^ 64) 3 61

/-- What is asked for is rounded to a multiple of 8, even where the addition wraps. -/
theorem roundUp_mod (n : Nat) : roundUp n % 8 = 0 := by
  rw [roundUp_eq]
  exact Nat.mul_mod_left _ _

theorem roundUp_le (n : Nat) : roundUp n ≤ n + 7 := by
  rw [roundUp_eq]
  omega

theorem roundUp_spec {n : Nat} (hn : n ≤ 2 ^ 20) :
    roundUp n % 8 = 0 ∧ n ≤ roundUp n := by
  refine ⟨roundUp_mod n, ?_⟩
  rw [roundUp_eq]
  omega

end Alloc

/-! ## Live allocations -/

/-- The live allocations (pointer and requested size) are used blocks. -/
structure Holds (h : Heap) (bs : List Block) (live : List (Nat × Nat)) : Prop where
  nodup : (live.map Prod.fst).Nodup
  block : ∀ p n, (p, n) ∈ live → ∃ x b, p = x + headerSize ∧ At headerSize h.head bs x b ∧
    b.free = false ∧ n ≤ b.size

/-- How many bytes the block behind a pointer has. -/
def payloadSize (h : Heap) (p : Nat) : Nat := blockSize h.mem (p - headerSize)

/-- Address `x` is in the allocation at `p`. -/
def InPayload (h : Heap) (p x : Nat) : Prop := p ≤ x ∧ x < p + payloadSize h p

section Live

variable {h h' : Heap} {bs bs' : List Block} {live : List (Nat × Nat)} {p n x : Nat} {b : Block}

theorem Rep.header_at {mem : ByteMem} {a z : Nat} (hrep : Rep mem z a bs)
    (hx : At headerSize a bs x b) : ∃ z', Header mem x b z' := by
  induction bs generalizing a with
  | nil => exact hx.elim
  | cons c bs ih =>
    rcases hx with ⟨rfl, rfl⟩ | hx
    · exact ⟨_, hrep.1⟩
    · exact ih hrep.2 hx

theorem Tiled.payloadSize_eq (ht : Tiled h bs) (hx : At headerSize h.head bs x b) :
    payloadSize h (x + headerSize) = b.size := by
  obtain ⟨z, hz⟩ := ht.rep.header_at hx
  rw [payloadSize, Nat.add_sub_cancel, hz.size]

theorem at_aligned {a : Nat} (ha : a % 8 = 0) (hall : ∀ c ∈ bs, c.size % 8 = 0)
    (hx : At headerSize a bs x b) : x % 8 = 0 := by
  induction bs generalizing a with
  | nil => exact hx.elim
  | cons c bs ih =>
    rcases hx with ⟨rfl, -⟩ | hx
    · exact ha
    · have hc := hall c (by simp)
      have hh : headerSize = 24 := rfl
      exact ih (by omega) (fun d hd => hall d (by simp [hd])) hx

/-- Live allocations survive what keeps the used blocks. -/
theorem Holds.kept (hl : Holds h bs live) (hhead : h'.head = h.head)
    (hk : Kept h.mem h'.mem h.head bs bs' x) (hx : x + headerSize ∉ live.map Prod.fst) :
    Holds h' bs' live := by
  refine ⟨hl.nodup, fun p n hmem => ?_⟩
  obtain ⟨y, c, rfl, hy, hused, hn⟩ := hl.block p n hmem
  have hne : y ≠ x := by
    rintro rfl
    exact hx (List.mem_map_of_mem hmem)
  rw [hhead]
  exact ⟨y, c, rfl, (hk y c hy hused hne).1, hused, hn⟩

theorem Kept.payload {mem' : ByteMem} (hk : Kept h.mem mem' h.head bs bs' x) (ht : Tiled h bs)
    (hl : Holds h bs live) (hmem : (p, n) ∈ live) (hp : p ≠ x + headerSize) {w : Nat}
    (hw : InPayload h p w) : mem' w = h.mem w := by
  obtain ⟨y, c, rfl, hy, hused, -⟩ := hl.block p n hmem
  have hne : y ≠ x := fun he => hp (by rw [he])
  unfold InPayload at hw
  rw [ht.payloadSize_eq hy] at hw
  exact (hk y c hy hused hne).2 w hw.1 hw.2

end Live

/-! ## The heap as a machine -/

/-- The heap, the machine's memory, and the live allocations so far. -/
structure HeapState where
  heap : Heap
  vm : Vm
  live : List (Nat × Nat)

namespace HeapState

/-- Nothing allocated yet, and a page for the heap to start with. -/
def Init : StatePred HeapState := fun s =>
  s.heap.initialized = false ∧ s.heap.endVirt = heapStartVirt ∧ s.live = [] ∧
    s.vm.free.length ≤ maxFreeList ∧ s.vm.allocPage.1 ≠ 0

/-- The calls, and the owners' writes into what they were given. -/
inductive Next (pml4 : Nat) : Action HeapState where
  | malloc {s : HeapState} {fuel n p : Nat} {h : Heap} {vm : Vm} (hn : n ≤ 2 ^ 20)
      (hcall : kmalloc pml4 fuel n s.heap s.vm = some (p, h, vm)) :
      Next pml4 s ⟨h, vm, if p = 0 then s.live else (p, n) :: s.live⟩
  | freeNull {s : HeapState} {fuel : Nat} {h : Heap} (hcall : kfree fuel 0 s.heap = some h) :
      Next pml4 s { s with heap := h }
  | free {s : HeapState} {fuel p n : Nat} {h : Heap} (hmem : (p, n) ∈ s.live)
      (hcall : kfree fuel p s.heap = some h) :
      Next pml4 s { s with heap := h, live := s.live.filter fun e => e.1 ≠ p }
  | write {s : HeapState} {p n : Nat} {mem : ByteMem} (hmem : (p, n) ∈ s.live)
      (hout : ∀ x, ¬ InPayload s.heap p x → mem x = s.heap.mem x) :
      Next pml4 s { s with heap := { s.heap with mem := mem } }

/-- A heap in use: the blocks fill it and the live allocations are used blocks. -/
def Ready (s : HeapState) : Prop :=
  s.heap.initialized = true ∧ HasRoom s.heap s.vm ∧
    ∃ bs, Tiled s.heap bs ∧ Holds s.heap bs s.live

theorem Ready.mono {h : Heap} {vm vm' : Vm} {live : List (Nat × Nat)} (hs : Ready ⟨h, vm, live⟩)
    (hlen : vm'.free.length ≤ vm.free.length) : Ready ⟨h, vm', live⟩ :=
  ⟨hs.1, hs.2.1.mono hlen, hs.2.2⟩

/-- Before the first `kmalloc` nothing is live; from then on the heap is ready. -/
def Inv (s : HeapState) : Prop := Init s ∨ s.Ready

variable {s s' : HeapState} {pml4 n p fuel : Nat} {h : Heap} {vm : Vm}

/-- `heap_init` makes a heap that can be used. -/
theorem ready_heapInit (hinit : Init s) (pml4 : Nat) :
    Ready ⟨(heapInit pml4 s.heap s.vm).1, (heapInit pml4 s.heap s.vm).2, []⟩ := by
  rcases hinit with ⟨-, hend, -, hmax, hpage⟩
  rcases heapInit_tiled pml4 hend hpage hmax with ⟨b, ht, -, hinit', hroom⟩
  exact ⟨hinit', hroom, [b], ht, List.nodup_nil, fun p n hmem => absurd hmem List.not_mem_nil⟩

/-- Where the loop of `kmalloc` starts from: the heap as it is, or the one
`heap_init` makes. -/
theorem Inv.start (hinv : s.Inv) (pml4 : Nat) :
    ∃ h₀ vm₀ bs₀, (∀ fuel n, kmalloc pml4 fuel n s.heap s.vm =
        kmallocLoop pml4 fuel (roundUp n) fuel h₀ vm₀) ∧
      Tiled h₀ bs₀ ∧ Holds h₀ bs₀ s.live ∧ h₀.initialized = true ∧
      HasRoom h₀ vm₀ ∧ (s.live ≠ [] → h₀ = s.heap) := by
  rcases hinv with hinit | ⟨hinit, hroom, bs, ht, hl⟩
  · rcases ready_heapInit hinit pml4 with ⟨hinit', hroom, bs, ht, hl⟩
    rcases hinit with ⟨hcold, -, hlive, -⟩
    refine ⟨(heapInit pml4 s.heap s.vm).1, (heapInit pml4 s.heap s.vm).2, bs, ?_, ht, ?_, hinit',
      hroom, fun hne => absurd hlive hne⟩
    · intro fuel n
      simp only [kmalloc, hcold, Bool.false_eq_true, if_false]
    · rw [hlive]
      exact hl
  · refine ⟨s.heap, s.vm, bs, ?_, ht, hl, hinit, hroom, fun _ => rfl⟩
    intro fuel n
    simp only [kmalloc, hinit, if_true]

/-- A new allocation is held next to the old ones. -/
theorem Holds.allocated {h₀ : Heap} {bs₀ bs' : List Block} {live : List (Nat × Nat)}
    {size : Nat} {vm₀ : Vm} (ht₀ : Tiled h₀ bs₀) (hl : Holds h₀ bs₀ live)
    (ha : Allocated pml4 h₀ bs₀ vm₀ size p h bs' vm) (hn : n ≤ size) :
    Holds h bs' (if p = 0 then live else (p, n) :: live) := by
  have hhead : h.head = h₀.head := ha.tiled.head.trans ht₀.head.symm
  have hnull : 0 + headerSize ∉ live.map Prod.fst := by
    intro hmem
    obtain ⟨⟨q, m⟩, hq, hq0⟩ := List.mem_map.mp hmem
    obtain ⟨x, b, rfl, hx, -⟩ := hl.block q m hq
    have := hx.bounds.1
    have := ht₀.pos
    simp only at hq0
    omega
  have hold : Holds h bs' live := hl.kept hhead ha.kept hnull
  rcases ha.new with rfl | ⟨x, b, rfl, hx, hused, hle, hfree⟩
  · rwa [if_pos rfl]
  · have hne : x + headerSize ≠ 0 := by
      unfold headerSize
      omega
    rw [if_neg hne]
    refine ⟨List.nodup_cons.mpr ⟨?_, hold.nodup⟩, ?_⟩
    · -- a live block at `x` was used before, but the block found was free
      intro hmem
      obtain ⟨⟨q, m⟩, hq, hqx⟩ := List.mem_map.mp hmem
      obtain ⟨y, c, hy, hyc, hcused, -⟩ := hl.block q m hq
      simp only at hqx
      have hyx : y = x := by omega
      subst hyx
      rw [hfree c hyc] at hcused
      cases hcused
    · intro q m hq
      rcases List.mem_cons.mp hq with heq | hq
      · obtain ⟨rfl, rfl⟩ := Prod.mk.inj heq
        refine ⟨x, b, rfl, ?_, hused, by omega⟩
        rw [hhead]
        exact hx
      · exact hold.block q m hq

/-- `kmalloc` returns, whatever the state. -/
theorem Inv.malloc_returns (hinv : s.Inv) (pml4 n : Nat) :
    ∃ fuel r, kmalloc pml4 fuel n s.heap s.vm = some r := by
  obtain ⟨h₀, vm₀, bs₀, hcall, ht₀, -, -, hroom, -⟩ := hinv.start pml4
  rcases kmallocLoop_spec (roundUp_mod n) pml4 (bs₀.length + vm₀.free.length + 1)
    (bs₀.length + vm₀.free.length + 1) h₀ bs₀ vm₀ ht₀ hroom with
    ⟨-, hfuel⟩ | ⟨p, h', vm', bs', hres, -⟩
  · omega
  · exact ⟨_, _, (hcall _ n).trans hres⟩

/-- `kmalloc` keeps the invariant and changes no live payload; the new allocation has
the `m` bytes that were asked for, up to the rounded size. -/
theorem Inv.mallocBytes {m : Nat} (hinv : s.Inv) (hm : m ≤ roundUp n)
    (hcall : kmalloc pml4 fuel n s.heap s.vm = some (p, h, vm)) :
    Ready ⟨h, vm, if p = 0 then s.live else (p, m) :: s.live⟩ ∧
      ∀ q m, (q, m) ∈ s.live → ∀ w, InPayload s.heap q w → h.mem w = s.heap.mem w := by
  obtain ⟨h₀, vm₀, bs₀, hloop, ht₀, hl₀, hinit₀, hroom, hsame⟩ := hinv.start pml4
  rw [hloop] at hcall
  rcases kmallocLoop_spec (roundUp_mod n) pml4 fuel fuel h₀ bs₀ vm₀ ht₀ hroom with
    ⟨hnone, -⟩ | ⟨p', h', vm', bs', hres, ha⟩
  · rw [hnone] at hcall
    cases hcall
  · rw [hres] at hcall
    obtain ⟨rfl, rfl, rfl⟩ : p' = p ∧ h' = h ∧ vm' = vm := by simpa using hcall
    refine ⟨⟨ha.init.trans hinit₀, ha.within.trans hroom, bs', ha.tiled, ?_⟩, ?_⟩
    · exact Holds.allocated ht₀ hl₀ ha hm
    · intro q m hq w hw
      obtain rfl := hsame (List.ne_nil_of_mem hq)
      refine ha.kept.payload ht₀ hl₀ hq ?_ hw
      obtain ⟨x, b, rfl, hx, -⟩ := hl₀.block q m hq
      have := hx.bounds.1
      have := ht₀.pos
      omega

/-- A request that does not wrap gets all its bytes. -/
theorem Inv.malloc (hinv : s.Inv) (hn : n ≤ 2 ^ 20)
    (hcall : kmalloc pml4 fuel n s.heap s.vm = some (p, h, vm)) :
    Ready ⟨h, vm, if p = 0 then s.live else (p, n) :: s.live⟩ ∧
      ∀ q m, (q, m) ∈ s.live → ∀ w, InPayload s.heap q w → h.mem w = s.heap.mem w :=
  hinv.mallocBytes (roundUp_spec hn).2 hcall

/-- On a heap in use `kmalloc` touches the rest of the machine by growths only,
and the heap gets at most the pages that were free. -/
theorem Ready.growth (hs : s.Ready)
    (hcall : kmalloc pml4 fuel n s.heap s.vm = some (p, h, vm)) :
    HeapGrowth pml4 s.vm vm ∧ reach h vm ≤ reach s.heap s.vm := by
  obtain ⟨hinit, hroom, bs, ht, -⟩ := hs
  simp only [kmalloc, hinit, if_true] at hcall
  rcases kmallocLoop_spec (roundUp_mod n) pml4 fuel fuel s.heap bs s.vm ht hroom with
    ⟨hnone, -⟩ | ⟨p', h', vm', bs', hres, ha⟩
  · rw [hnone] at hcall
    cases hcall
  · rw [hres] at hcall
    obtain ⟨rfl, rfl, rfl⟩ : p' = p ∧ h' = h ∧ vm' = vm := by simpa using hcall
    exact ⟨ha.growth, ha.within⟩

/-- What `kfree` of a live allocation does to the block list. -/
structure Freed (h : Heap) (bs : List Block) (live : List (Nat × Nat)) (p : Nat) (h' : Heap)
    (bs' : List Block) : Prop where
  tiled : Tiled h' bs'
  holds : Holds h' bs' (live.filter fun e => e.1 ≠ p)
  payload : ∀ q m, (q, m) ∈ live → q ≠ p → ∀ w, InPayload h q w → h'.mem w = h.mem w
  same : h'.initialized = h.initialized ∧ h'.endVirt = h.endVirt
  coalesced : Coalesced bs → Coalesced bs'
  used : Tiling.used bs' + 1 = Tiling.used bs

/-- `kfree` of a live allocation returns and gives up its block. -/
theorem Tiled.free {bs : List Block} {live : List (Nat × Nat)} {m : Nat} (ht : Tiled h bs)
    (hl : Holds h bs live) (hroom : HasRoom h vm) (hmem : (p, m) ∈ live) :
    (∀ fuel, bs.length ≤ fuel → ∃ h', kfree fuel p h = some h') ∧
    ∀ fuel h', kfree fuel p h = some h' → ∃ bs', Freed h bs live p h' bs' := by
  obtain ⟨x, b, rfl, hx, hb, -⟩ := hl.block p m hmem
  obtain ⟨l, r, rfl, rfl⟩ := hx.split
  have hassoc : l ++ b :: r = l ++ [b] ++ r := by simp
  rw [hassoc] at ht hl ⊢
  have hbound : h.head + extent headerSize (l ++ [b] ++ r) ≤ 2 ^ 64 := by
    have := hroom.le
    rw [ht.finish]
    omega
  have hspec := kfree_update ht.rep ht.pos hbound
  constructor
  · intro fuel hlen
    rcases hspec fuel with ⟨-, hfuel⟩ | ⟨mem', -, -, -, hcall, -⟩
    · simp only [List.length_append, List.length_singleton] at hlen
      omega
    · exact ⟨_, hcall⟩
  · intro fuel h' hcall
    rcases hspec fuel with ⟨hnone, -⟩ | ⟨mem', l', b', r', hres, hb', hbefore, hbehind, hupdate⟩
    · rw [hnone] at hcall
      cases hcall
    rw [hres] at hcall
    obtain rfl := Option.some.inj hcall
    have hothers : Holds h (l ++ [b] ++ r)
        (live.filter fun e => e.1 ≠ h.head + extent headerSize l + headerSize) :=
      ⟨hl.nodup.sublist (List.filter_sublist.map _),
        fun q m hq => hl.block q m (List.mem_of_mem_filter hq)⟩
    refine ⟨l' ++ [b'] ++ r', ⟨ht.head, by simp, hupdate.rep, ?_, hupdate.aligned ht.aligned⟩,
      hothers.kept rfl hupdate.kept (by simp), ?_, ⟨rfl, rfl⟩, ?_, ?_⟩
    · rw [← ht.finish]
      exact congrArg (h.head + ·) hupdate.extent
    · intro q m hq hne w hw
      exact hupdate.kept.payload ht hl hq hne hw
    · intro hcoal
      have hparts := List.isChain_append.mp hcoal
      rcases hbefore.coalesced (List.isChain_append.mp hparts.1).1 with ⟨hl', hleft⟩
      rcases hbehind.coalesced hparts.2.1 with ⟨hr', hright⟩
      exact coalesced_between hl' hr' (coalesced_singleton b') hleft hright
    · simp only [used_append, used_singleton, hb, hb', hbefore.used, hbehind.used, if_true,
        Bool.false_eq_true, if_false]
      omega

/-- `kfree` of a live allocation returns, keeps the invariant for the others and
changes none of their payloads. -/
theorem Ready.free {m : Nat} (hs : s.Ready) (hmem : (p, m) ∈ s.live) :
    (∃ fuel h, kfree fuel p s.heap = some h) ∧
    ∀ fuel h, kfree fuel p s.heap = some h →
      Ready { s with heap := h, live := s.live.filter fun e => e.1 ≠ p } ∧
      ∀ q m, (q, m) ∈ s.live → q ≠ p → ∀ w, InPayload s.heap q w → h.mem w = s.heap.mem w := by
  obtain ⟨hinit, hroom, bs, ht, hl⟩ := hs
  rcases Tiled.free ht hl hroom hmem with ⟨hreturns, hfreed⟩
  refine ⟨⟨bs.length, hreturns bs.length (Nat.le_refl _)⟩, fun fuel h hcall => ?_⟩
  rcases hfreed fuel h hcall with ⟨bs', hf⟩
  refine ⟨⟨hf.same.1.trans hinit, ?_, bs', hf.tiled, hf.holds⟩, hf.payload⟩
  unfold HasRoom reach
  rw [hf.same.2]
  exact hroom

/-- An owner's writes change no header. -/
theorem Tiled.write {bs : List Block} {live : List (Nat × Nat)} {m : Nat} {mem : ByteMem}
    (ht : Tiled h bs) (hl : Holds h bs live) (hmem : (p, m) ∈ live)
    (hout : ∀ x, ¬ InPayload h p x → mem x = h.mem x) :
    Tiled { h with mem := mem } bs ∧ Holds { h with mem := mem } bs live := by
  obtain ⟨y, b, rfl, hy, -⟩ := hl.block p m hmem
  refine ⟨⟨ht.head, ht.nonempty, ?_, ht.finish, ht.aligned⟩, ⟨hl.nodup, hl.block⟩⟩
  refine ht.rep.congr_headers fun x c hx w hw => hout w fun hin => ?_
  -- a header is not part of the payload of any block
  have hpay := ht.payloadSize_eq hy
  unfold InPayload at hin
  unfold InHeader at hw
  rcases hy.apart hx with ⟨rfl, -⟩ | hlt | hlt <;> omega

theorem Ready.write {m : Nat} {mem : ByteMem} (hs : s.Ready) (hmem : (p, m) ∈ s.live)
    (hout : ∀ x, ¬ InPayload s.heap p x → mem x = s.heap.mem x) :
    Ready { s with heap := { s.heap with mem := mem } } := by
  obtain ⟨hinit, hroom, bs, ht, hl⟩ := hs
  exact ⟨hinit, hroom, bs, Tiled.write ht hl hmem hout⟩

/-- As long as something is live, the heap is ready. -/
theorem Inv.ready {m : Nat} (hinv : s.Inv) (hmem : (p, m) ∈ s.live) : s.Ready := by
  rcases hinv with ⟨-, -, hlive, -⟩ | hs
  · rw [hlive] at hmem
    exact absurd hmem List.not_mem_nil
  · exact hs

theorem inv_init (hinit : Init s) : s.Inv := Or.inl hinit

theorem inv_step (hnext : Next pml4 s s') (hinv : s.Inv) : s'.Inv := by
  cases hnext with
  | malloc hn hcall => exact Or.inr (hinv.malloc hn hcall).1
  | freeNull hcall =>
    obtain rfl := Option.some.inj hcall
    exact hinv
  | free hmem hcall => exact Or.inr (((hinv.ready hmem).free hmem).2 _ _ hcall).1
  | write hmem hout => exact Or.inr ((hinv.ready hmem).write hmem hout)

theorem reachable_inv (hs : Reachable Init (Next pml4) s) : s.Inv :=
  hs.invariant (fun _ => inv_init) fun _ _ => inv_step

/-- A live allocation of `n` bytes at `p`: aligned, large enough, inside the
heap, and overlapping no header and no other live allocation. -/
structure LiveOk (h : Heap) (bs : List Block) (live : List (Nat × Nat)) (p n : Nat) : Prop where
  aligned : p % 8 = 0
  large : n ≤ payloadSize h p
  inside : heapStartVirt ≤ p ∧ p + payloadSize h p ≤ h.endVirt
  headers : ∀ x ∈ blockAddrs h.head bs, ∀ w, InHeader x w → ¬ InPayload h p w
  others : ∀ q m, (q, m) ∈ live → q ≠ p → ∀ w, InPayload h q w → ¬ InPayload h p w

theorem Holds.liveOk {bs : List Block} {live : List (Nat × Nat)} (ht : Tiled h bs)
    (hl : Holds h bs live) (hmem : (p, n) ∈ live) : LiveOk h bs live p n := by
  obtain ⟨x, b, rfl, hx, hused, hn⟩ := hl.block p n hmem
  have hpay := ht.payloadSize_eq hx
  have hbounds := hx.bounds
  rw [ht.finish, ht.head] at hbounds
  refine ⟨?_, hpay ▸ hn, ⟨by omega, by omega⟩, ?_, ?_⟩
  · have hx8 : x % 8 = 0 := at_aligned (by rw [ht.head]; decide) ht.aligned hx
    unfold headerSize
    omega
  · intro y hy w hw hin
    obtain ⟨c, hc⟩ := mem_blockAddrs.mp hy
    unfold InPayload InHeader at *
    rcases hx.apart hc with ⟨rfl, -⟩ | hlt | hlt <;> omega
  · intro q m hq hne w hw hin
    obtain ⟨y, c, rfl, hy, -⟩ := hl.block q m hq
    have hpay' := ht.payloadSize_eq hy
    unfold InPayload at *
    rcases hx.apart hy with ⟨rfl, -⟩ | hlt | hlt
    · exact hne rfl
    · omega
    · omega

/-- In every state that calls of `kmalloc` and `kfree` lead to, the blocks tile
the heap and the live allocations are disjoint ranges inside it; both calls
return, and neither changes the payload of a live allocation, except that
`kfree` gives up the one it is called for. -/
theorem safe (pml4 : Nat) (s : HeapState) (hs : Reachable Init (Next pml4) s) :
    ((s.heap.initialized = false ∧ s.live = []) ∨
      ∃ bs, Tiled s.heap bs ∧ (s.live.map Prod.fst).Nodup ∧
        ∀ p n, (p, n) ∈ s.live → LiveOk s.heap bs s.live p n) ∧
    (∀ n ≤ 2 ^ 20, (∃ fuel r, kmalloc pml4 fuel n s.heap s.vm = some r) ∧
      ∀ fuel p h vm, kmalloc pml4 fuel n s.heap s.vm = some (p, h, vm) →
        ∀ q m, (q, m) ∈ s.live → ∀ w, InPayload s.heap q w → h.mem w = s.heap.mem w) ∧
    ∀ p n, (p, n) ∈ s.live → (∃ fuel h, kfree fuel p s.heap = some h) ∧
      ∀ fuel h, kfree fuel p s.heap = some h →
        ∀ q m, (q, m) ∈ s.live → q ≠ p → ∀ w, InPayload s.heap q w → h.mem w = s.heap.mem w := by
  have hinv := reachable_inv hs
  refine ⟨?_, ?_, ?_⟩
  · rcases hinv with ⟨hinit, -, hlive, -⟩ | ⟨-, -, bs, ht, hl⟩
    · exact Or.inl ⟨hinit, hlive⟩
    · exact Or.inr ⟨bs, ht, hl.nodup, fun p n => Holds.liveOk ht hl⟩
  · intro n hn
    exact ⟨hinv.malloc_returns pml4 n, fun fuel p h vm hcall => (hinv.malloc hn hcall).2⟩
  · intro p n hmem
    have hfree := (hinv.ready hmem).free hmem
    exact ⟨hfree.1, fun fuel h hcall => (hfree.2 fuel h hcall).2⟩

/-- A live allocation lies inside the heap. -/
theorem Ready.inside (hs : s.Ready) (hmem : (p, n) ∈ s.live) :
    heapStartVirt ≤ p ∧ p + n ≤ s.heap.endVirt := by
  rcases hs with ⟨-, -, bs, ht, hl⟩
  have hok := Holds.liveOk ht hl hmem
  have hlarge := hok.large
  have hinside := hok.inside
  omega

/-- Two live allocations do not overlap. -/
theorem Ready.apart {q m : Nat} (hs : s.Ready) (hp : (p, n) ∈ s.live) (hq : (q, m) ∈ s.live)
    (hne : q ≠ p) (hn : 0 < n) (hm : 0 < m) : p + n ≤ q ∨ q + m ≤ p := by
  rcases hs with ⟨-, -, bs, ht, hl⟩
  have hokp := Holds.liveOk ht hl hp
  have hokq := Holds.liveOk ht hl hq
  have hlargep := hokp.large
  have hlargeq := hokq.large
  by_contra hover
  -- the later of the two pointers would lie in both
  apply hokp.others q m hq hne (max p q)
  · unfold InPayload
    omega
  · unfold InPayload
    omega

/-! ## Calls that return -/

/-- The loop tests that suffice for every call on the heap: one for each header there is
room for, should all free pages go to the heap. -/
def walkBound (h : Heap) (vm : Vm) : Nat := (reach h vm - heapStartVirt) / headerSize

theorem walkBound_mono {h' : Heap} {vm vm' : Vm} (hreach : reach h' vm' ≤ reach h vm) :
    walkBound h' vm' ≤ walkBound h vm :=
  Nat.div_le_div_right (Nat.sub_le_sub_right hreach _)

theorem Tiled.length_le {bs : List Block} (ht : Tiled h bs) (vm : Vm) :
    bs.length + vm.free.length ≤ walkBound h vm := by
  have hblocks : headerSize * bs.length ≤ extent headerSize bs := length_le_extent bs
  have hend := ht.finish
  rw [ht.head] at hend
  unfold walkBound reach
  rw [← hend, Nat.le_div_iff_mul_le (by decide)]
  simp only [headerSize] at hblocks ⊢
  omega

/-- `kmalloc` returns within the bound. -/
theorem Ready.malloc_returns (hs : s.Ready) (pml4 n : Nat)
    (hfuel : walkBound s.heap s.vm < fuel) : ∃ r, kmalloc pml4 fuel n s.heap s.vm = some r := by
  rcases hs with ⟨hinit, hroom, bs, ht, -⟩
  have hlen := Tiled.length_le ht s.vm
  simp only [kmalloc, hinit, if_true]
  rcases kmallocLoop_spec (roundUp_mod n) pml4 fuel fuel s.heap bs s.vm ht hroom with
    ⟨-, hshort⟩ | ⟨p, h', vm', bs', hres, -⟩
  · omega
  · exact ⟨_, hres⟩

/-- So does `kfree` of what is live. -/
theorem Ready.free_returns (hs : s.Ready) (hmem : (p, n) ∈ s.live)
    (hfuel : walkBound s.heap s.vm < fuel) : ∃ h, kfree fuel p s.heap = some h := by
  rcases hs with ⟨-, hroom, bs, ht, hl⟩
  have hlen := Tiled.length_le ht s.vm
  exact (Tiled.free ht hl hroom hmem).1 fuel (by omega)

/-! ## Requests that are served -/

/-- A heap in use, of at most `len` blocks, with a free block of `m` bytes. -/
def Spare (s : HeapState) (m len : Nat) : Prop :=
  s.heap.initialized = true ∧ HasRoom s.heap s.vm ∧
    ∃ bs, Tiled s.heap bs ∧ Holds s.heap bs s.live ∧ bs.length ≤ len ∧ ∃ b ∈ bs, Fits m b

theorem Spare.ready {m len : Nat} (hs : s.Spare m len) : s.Ready := by
  obtain ⟨hinit, hroom, bs, ht, hl, -⟩ := hs
  exact ⟨hinit, hroom, bs, ht, hl⟩

theorem Spare.free_returns {n m len : Nat} (hs : s.Spare m len) (hmem : (p, n) ∈ s.live)
    (hfuel : len ≤ fuel) : ∃ h, kfree fuel p s.heap = some h := by
  rcases hs with ⟨-, hroom, bs, ht, hl, hlen, -⟩
  exact (Tiled.free ht hl hroom hmem).1 fuel (hlen.trans hfuel)

/-- Carving a block leaves a free block almost as large as the largest was. -/
theorem exists_fits_carved {m size : Nat} {l r : List Block} {b : Block}
    (hbig : ∃ c ∈ l ++ b :: r, Fits m c) (hm : size + headerSize + 8 ≤ m) :
    ∃ c ∈ l ++ carved b size ++ r, Fits (m - size - headerSize) c := by
  obtain ⟨c, hc, hfit⟩ := hbig
  rcases List.mem_append.mp hc with hl | hr
  · exact ⟨c, by simp [hl], hfit.1, by have := hfit.2; omega⟩
  rcases List.mem_cons.mp hr with rfl | hr
  · -- the large block is the one that was carved
    have hsize := hfit.2
    refine ⟨⟨c.size - size - headerSize, true⟩, ?_, rfl, by simp only; omega⟩
    rw [carved, if_pos (by omega)]
    simp
  · exact ⟨c, by simp [hr], hfit.1, by have := hfit.2; omega⟩

/-- With a large enough free block `kmalloc` succeeds and does not grow the
heap. -/
theorem Spare.malloc {m len : Nat} (hs : s.Spare m len) (pml4 : Nat) (hn : n ≤ 2 ^ 20)
    (hm : roundUp n + headerSize + 8 ≤ m) (hfuel : len < fuel) :
    ∃ p h, kmalloc pml4 fuel n s.heap s.vm = some (p, h, s.vm) ∧ p ≠ 0 ∧
      Spare ⟨h, s.vm, (p, n) :: s.live⟩ (m - roundUp n - headerSize) (len + 1) := by
  obtain ⟨hinit, hroom, bs, ht, hl, hlen, hbig⟩ := hs
  obtain ⟨hmul, hle⟩ := roundUp_spec hn
  obtain ⟨fuel, rfl⟩ : ∃ f, fuel = f + 1 := ⟨fuel - 1, by omega⟩
  have hfit := firstFit_spec ht.rep ht.pos (roundUp n) (fuel + 1)
  rw [ht.link_eq] at hfit
  rcases hfit with ⟨-, hshort⟩ | ⟨-, hnone⟩ | ⟨l, b, r, rfl, -, hb, hfound⟩
  · omega
  · obtain ⟨c, hc, hfit⟩ := hbig
    exact absurd ⟨hfit.1, by have := hfit.2; omega⟩ (hnone c hc)
  · have hassoc : l ++ b :: r = l ++ [b] ++ r := by simp
    have hne : s.heap.head + extent headerSize l + headerSize ≠ 0 := by
      unfold headerSize
      omega
    rw [hassoc] at ht hl
    have ha := ht.carve pml4 hroom hb.1 hb.2 hmul
    have hlive := Holds.allocated ht hl ha hle
    rw [if_neg hne] at hlive
    refine ⟨_, { s.heap with mem := carve s.heap.mem (s.heap.head + extent headerSize l) (roundUp n) },
      ?_, hne, hinit, hroom, _, ha.tiled, hlive, ?_, exists_fits_carved hbig hm⟩
    · rw [kmalloc, if_pos hinit]
      simp only [kmallocLoop, hfound]
    · simp only [List.length_append, List.length_cons] at hlen ⊢
      unfold carved
      split <;> simp only [List.length_cons, List.length_nil] <;> omega

theorem Spare.write {m len k : Nat} {mem : ByteMem} (hs : s.Spare m len) (hmem : (p, k) ∈ s.live)
    (hout : ∀ x, ¬ InPayload s.heap p x → mem x = s.heap.mem x) :
    Spare { s with heap := { s.heap with mem := mem } } m len := by
  obtain ⟨hinit, hroom, bs, ht, hl, hlen, hbig⟩ := hs
  obtain ⟨ht', hl'⟩ := Tiled.write ht hl hmem hout
  exact ⟨hinit, hroom, bs, ht', hl', hlen, hbig⟩

/-- A heap that was never used, and one free page. -/
def unusedHeap : HeapState :=
  ⟨⟨fun _ => 0, 0, heapStartVirt, false⟩, ⟨fun _ => 0, [0x2000]⟩, []⟩

/-- The first `kmalloc` gives out the start of the heap, which is one page. -/
theorem kmalloc_unusedHeap : ∃ h vm,
    kmalloc 0x1000 1 100 unusedHeap.heap unusedHeap.vm =
        some (heapStartVirt + headerSize, h, vm) ∧
      h.initialized = true ∧ h.endVirt = heapStartVirt + pageSize := by
  obtain ⟨b, ht, ⟨hfree, hsize⟩, -⟩ := heapInit_tiled 0x1000
    (rfl : unusedHeap.heap.endVirt = heapStartVirt) (by decide : unusedHeap.vm.allocPage.1 ≠ 0)
    (by decide)
  have hfit : roundUp 100 ≤ b.size := Nat.le_trans (by decide) hsize
  have hinit : unusedHeap.heap.initialized = false := rfl
  have hcall := kmallocLoop_of_found 0x1000 0 (heapInit 0x1000 unusedHeap.heap unusedHeap.vm).2
    (firstFit_of_first 0 (Nat.ne_of_gt ht.pos) ht.rep.1 hfree hfit)
  rw [ht.head] at hcall
  simp only [kmalloc, hinit, Bool.false_eq_true, if_false]
  exact ⟨_, _, hcall, rfl, by decide⟩

/-- After the first allocation. -/
theorem safe_unusedHeap : ∃ s : HeapState, Reachable Init (Next 0x1000) s ∧
    (heapStartVirt + headerSize, 100) ∈ s.live ∧
    ∃ bs, Tiled s.heap bs ∧ LiveOk s.heap bs s.live (heapStartVirt + headerSize) 100 := by
  obtain ⟨h, vm, hcall, -⟩ := kmalloc_unusedHeap
  have hinit : Init unusedHeap := by
    refine ⟨rfl, rfl, rfl, ?_, ?_⟩ <;> decide
  have hs := Reachable.step (.init hinit) (Next.malloc (by omega) hcall)
  have hmem : (heapStartVirt + headerSize, 100) ∈
      (if heapStartVirt + headerSize = 0 then unusedHeap.live
        else (heapStartVirt + headerSize, 100) :: unusedHeap.live) := by
    rw [if_neg (by decide)]
    exact List.mem_cons_self
  refine ⟨_, hs, hmem, ?_⟩
  rcases (safe 0x1000 _ hs).1 with ⟨-, hnil⟩ | ⟨bs, ht, -, hlive⟩
  · exact absurd hnil (List.ne_nil_of_mem hmem)
  · exact ⟨bs, ht, hlive _ _ hmem⟩

end HeapState

end Orchid
