import Orchid.Memory.HeapSafety

/-! # How a request is served

The outer loop of `kmalloc` has no bound of its own: a round finds a block, or
grows the heap by a page, or gives up. A growth enlarges the free block at the
end of the heap, or makes one there, so the rounds of one call add up.

* `Rounds` are rounds in a row that found nothing and grew the heap. After `k`
  of them the last block has `4096 * k` bytes, less a header (`Rounds.last`).
* `kmallocLoop_rounds` takes a call that returns apart: some of these rounds,
  and then a block or a growth that gets no page.
* `HeapState.kmalloc_serves` is the result for every heap that can be reached,
  whatever is free.
-/

namespace Orchid

open ByteMem Machine Tiling

/-- `k` rounds of the loop of `kmalloc` that find no block and grow the heap. -/
inductive Rounds (pml4 walkFuel size : Nat) : Nat → Heap → Vm → Heap → Vm → Prop where
  | start {h : Heap} {vm : Vm} : Rounds pml4 walkFuel size 0 h vm h vm
  | grow {k : Nat} {h h₁ h₂ : Heap} {vm vm₁ vm₂ : Vm}
      (hrounds : Rounds pml4 walkFuel size k h vm h₁ vm₁)
      (hnone : firstFit h₁.mem size walkFuel h₁.head = some none)
      (hgrow : heapExpandLocked pml4 walkFuel h₁ vm₁ = some (true, h₂, vm₂)) :
      Rounds pml4 walkFuel size (k + 1) h vm h₂ vm₂

/-- How the loop of `kmalloc` ends, from the heap its last round starts with. -/
inductive LastRound (pml4 walkFuel size : Nat) (h : Heap) (vm : Vm) : Nat → Heap → Vm → Prop where
  | found {curr : Nat} (hfit : firstFit h.mem size walkFuel h.head = some (some curr)) :
      LastRound pml4 walkFuel size h vm (curr + headerSize)
        { h with mem := carve h.mem curr size } vm
  | refused {h' : Heap} {vm' : Vm} (hnone : firstFit h.mem size walkFuel h.head = some none)
      (hgrow : heapExpandLocked pml4 walkFuel h vm = some (false, h', vm')) :
      LastRound pml4 walkFuel size h vm 0 h' vm'

section Rounds

variable {pml4 walkFuel size k fuel p : Nat} {h h₁ h₂ h' : Heap} {vm vm₁ vm₂ vm' : Vm}
  {bs : List Block}

/-- One more round in front. -/
theorem Rounds.cons (hnone : firstFit h.mem size walkFuel h.head = some none)
    (hgrow : heapExpandLocked pml4 walkFuel h vm = some (true, h₁, vm₁))
    (hrounds : Rounds pml4 walkFuel size k h₁ vm₁ h₂ vm₂) :
    Rounds pml4 walkFuel size (k + 1) h vm h₂ vm₂ := by
  induction hrounds with
  | start => exact .grow .start hnone hgrow
  | grow _ hnone' hgrow' ih => exact .grow (ih hgrow) hnone' hgrow'

/-- The rounds by the first one. -/
theorem Rounds.head_cases (hrounds : Rounds pml4 walkFuel size k h vm h₂ vm₂) :
    (k = 0 ∧ h₂ = h ∧ vm₂ = vm) ∨
      firstFit h.mem size walkFuel h.head = some none ∧
      ∃ j h₁ vm₁, heapExpandLocked pml4 walkFuel h vm = some (true, h₁, vm₁) ∧
        Rounds pml4 walkFuel size j h₁ vm₁ h₂ vm₂ := by
  induction hrounds with
  | start => exact Or.inl ⟨rfl, rfl, rfl⟩
  | grow _ hnone hgrow ih =>
    rcases ih with ⟨-, rfl, rfl⟩ | ⟨hfirst, j, h₁, vm₁, hgrow₁, hrest⟩
    · exact Or.inr ⟨hnone, 0, _, _, hgrow, .start⟩
    · exact Or.inr ⟨hfirst, j + 1, h₁, vm₁, hgrow₁, .grow hrest hnone hgrow⟩

/-- A call that returns is some rounds that grow the heap, and a last one. -/
theorem kmallocLoop_rounds
    (hcall : kmallocLoop pml4 walkFuel size fuel h vm = some (p, h', vm')) :
    ∃ k h₁ vm₁, Rounds pml4 walkFuel size k h vm h₁ vm₁ ∧
      LastRound pml4 walkFuel size h₁ vm₁ p h' vm' := by
  induction fuel generalizing h vm with
  | zero => cases hcall
  | succ fuel ih =>
    rw [kmallocLoop] at hcall
    split at hcall
    · cases hcall
    · next curr hfit =>
      cases hcall
      exact ⟨0, _, _, .start, .found hfit⟩
    · next hnone =>
      split at hcall
      · cases hcall
      · next hgrow =>
        cases hcall
        exact ⟨0, _, _, .start, .refused hnone hgrow⟩
      · next h₁ vm₁ hgrow =>
        rcases ih hcall with ⟨k, h₂, vm₂, hrounds, hlast⟩
        exact ⟨k + 1, h₂, vm₂, .cons hnone hgrow hrounds, hlast⟩

/-- A round that is told there is no block: no block is large enough. -/
theorem Tiled.not_fits (ht : Tiled h bs)
    (hnone : firstFit h.mem size walkFuel h.head = some none) : ∀ b ∈ bs, ¬ Fits size b := by
  have hfit := firstFit_spec ht.rep ht.pos size walkFuel
  rw [ht.link_eq, hnone] at hfit
  rcases hfit with ⟨hfalse, -⟩ | ⟨-, hall⟩ | ⟨l, b, r, -, -, -, hfalse⟩
  · cases hfalse
  · exact hall
  · cases hfalse

/-- The block that a round finds is the first one that is large enough. -/
theorem Tiled.lowest {curr : Nat} (ht : Tiled h bs)
    (hfound : firstFit h.mem size walkFuel h.head = some (some curr)) :
    (∃ b, At headerSize h.head bs curr b ∧ Fits size b) ∧
      ∀ y c, At headerSize h.head bs y c → Fits size c → curr ≤ y := by
  have hfit := firstFit_spec ht.rep ht.pos size walkFuel
  rw [ht.link_eq, hfound] at hfit
  rcases hfit with ⟨hfalse, -⟩ | ⟨hfalse, -⟩ | ⟨l, b, r, rfl, hl, hb, hcurr⟩
  · cases hfalse
  · cases hfalse
  · obtain rfl := Option.some.inj (Option.some.inj hcurr)
    refine ⟨⟨b, at_middle, hb⟩, ?_⟩
    intro y c hy hc
    rcases (at_append _ _).mp hy with hin | hin
    · rcases hin.split with ⟨l₁, l₂, rfl, -⟩
      exact absurd hc (hl c (by simp))
    · exact hin.bounds.1

/-- What the rounds of one call leave: the blocks fill the heap, and the last
one is free, with all the pages that the rounds took. -/
structure GrownBy (k : Nat) (h : Heap) (vm : Vm) (h₁ : Heap) (vm₁ : Vm) (bs₁ : List Block) :
    Prop where
  tiled : Tiled h₁ bs₁
  reach : reach h₁ vm₁ ≤ reach h vm
  free : vm₁.free <:+ vm.free
  last : 0 < k → ∃ l b, bs₁ = l ++ [b] ∧ b.free = true ∧ 4096 * k - headerSize ≤ b.size

/-- The last block after one more growth. -/
theorem exists_last_grown {l : List Block} {b : Block}
    (hlast : 0 < k → b.free = true ∧ 4096 * k - headerSize ≤ b.size) :
    ∃ l' b', l ++ grown b = l' ++ [b'] ∧ b'.free = true ∧
      4096 * (k + 1) - headerSize ≤ b'.size := by
  have hh : headerSize = 24 := rfl
  have hp : pageSize = 4096 := rfl
  unfold grown
  split
  · -- the free block at the end is enlarged by the page
    refine ⟨l, _, rfl, rfl, ?_⟩
    rcases Nat.eq_zero_or_pos k with rfl | hk
    · simp only
      omega
    · have hsize := (hlast hk).2
      simp only
      omega
  · -- only before the first growth the block at the end can be in use
    next hused =>
    have hk : k = 0 := by
      by_contra hk
      exact hused (hlast (Nat.pos_of_ne_zero hk)).1
    refine ⟨l ++ [b], ⟨pageSize - headerSize, true⟩, by simp, rfl, ?_⟩
    simp only
    omega

theorem Rounds.grownBy (hrounds : Rounds pml4 walkFuel size k h vm h₁ vm₁) (ht : Tiled h bs)
    (hroom : HasRoom h vm) : ∃ bs₁, GrownBy k h vm h₁ vm₁ bs₁ := by
  induction hrounds with
  | start => exact ⟨bs, ht, Nat.le_refl _, List.suffix_refl _, fun hk => absurd hk (by simp)⟩
  | @grow k _ h₁ h₂ _ vm₁ vm₂ _ hnone hgrow ih =>
    rcases ih ht hroom with ⟨bs₁, hg⟩
    rcases heapExpandLocked_spec pml4 hg.tiled (hg.reach.trans hroom) walkFuel with
      ⟨hfalse, -⟩ | ⟨vm', hfalse, -⟩ |
      ⟨h', bs₂, vm', hres, ht₂, hstep, hreach, -, -, -, -, -, -, l, b, rfl, rfl⟩
    · rw [hfalse] at hgrow
      cases hgrow
    · rw [hfalse] at hgrow
      cases hgrow
    · rw [hres] at hgrow
      cases hgrow
      refine ⟨l ++ grown b, ht₂, hreach.trans hg.reach, hstep.free.trans hg.free,
        fun _ => exists_last_grown fun hk => ?_⟩
      rcases hg.last hk with ⟨l', b', heq, hlast⟩
      rw [List.append_singleton_inj] at heq
      rw [heq.2]
      exact hlast

/-- The rounds of one call are no more than the pages that the request and its
header need: a round grows the heap only while the last block is too small. -/
theorem Rounds.bounded {n : Nat} (hrounds : Rounds pml4 walkFuel (roundUp n) k h vm h₁ vm₁)
    (ht : Tiled h bs) (hroom : HasRoom h vm) : k ≤ (n + 7 + headerSize + 4095) / 4096 := by
  have hh : headerSize = 24 := rfl
  have hround := roundUp_le n
  cases hrounds with
  | start => exact Nat.zero_le _
  | @grow k _ _ _ _ _ _ hrounds hnone _ =>
    rcases Nat.eq_zero_or_pos k with rfl | hk
    · omega
    · rcases hrounds.grownBy ht hroom with ⟨bs₁, hg⟩
      rcases hg.last hk with ⟨l, b, rfl, hfree, hsize⟩
      have hsmall : ¬ roundUp n ≤ b.size := fun hle =>
        hg.tiled.not_fits hnone b (by simp) ⟨hfree, hle⟩
      omega

/-- A growth is refused when there is no page, and then changes nothing. -/
theorem heapExpandLocked_refused
    (hgrow : heapExpandLocked pml4 walkFuel h vm = some (false, h', vm')) (hzero : 0 ∉ vm.free) :
    vm.free = [] ∧ h' = h ∧ vm' = vm := by
  simp only [heapExpandLocked] at hgrow
  split at hgrow
  · next halloc =>
    have hempty : vm.free = [] := by
      cases hfree : vm.free with
      | nil => rfl
      | cons c rest =>
        rw [Vm.allocPage_of_cons hfree] at halloc
        rw [hfree] at hzero
        exact absurd (halloc ▸ List.mem_cons_self) hzero
    rw [Vm.allocPage_of_nil hempty] at hgrow
    cases hgrow
    exact ⟨hempty, rfl, rfl⟩
  · split at hgrow
    · cases hgrow
    · rcases Option.map_eq_some_iff.mp hgrow with ⟨last, -, hfalse⟩
      cases hfalse

/-- A call that returns NULL has found the free stack empty. -/
theorem LastRound.stack_empty (hlast : LastRound pml4 walkFuel size h vm p h' vm') (hp : p = 0)
    (hzero : 0 ∉ vm.free) : vm.free = [] ∧ h' = h ∧ vm' = vm := by
  cases hlast with
  | found => exact absurd hp (by unfold headerSize; omega)
  | refused hnone hgrow => exact heapExpandLocked_refused hgrow hzero

end Rounds

/-! ## Every heap that can be reached -/

/-- Where the loop of `kmalloc` starts: the heap as it is, or as `heap_init`
makes it. -/
def started (pml4 : Nat) (h : Heap) (vm : Vm) : Heap × Vm :=
  if h.initialized then (h, vm) else heapInit pml4 h vm

theorem kmalloc_eq_started (pml4 fuel n : Nat) (h : Heap) (vm : Vm) :
    kmalloc pml4 fuel n h vm =
      kmallocLoop pml4 fuel (roundUp n) fuel (started pml4 h vm).1 (started pml4 h vm).2 := rfl

/-- How `kmalloc` serves a request for `n` bytes, when its loop starts with
`h₀`, grows the heap `k` times, and ends from `h₁`. -/
structure RequestServed (pml4 fuel n : Nat) (h₀ : Heap) (vm₀ : Vm) (k : Nat) (h₁ : Heap) (vm₁ : Vm)
    (p : Nat) (h' : Heap) (vm' : Vm) : Prop where
  rounds : Rounds pml4 fuel (roundUp n) k h₀ vm₀ h₁ vm₁
  ends : LastRound pml4 fuel (roundUp n) h₁ vm₁ p h' vm'
  /-- It does not grow the heap more than the request needs. -/
  growths : k ≤ (n + 7 + headerSize + 4095) / 4096
  /-- After any number of growths the last block has all their pages. -/
  last : ∀ j h₂ vm₂, Rounds pml4 fuel (roundUp n) (j + 1) h₀ vm₀ h₂ vm₂ →
    ∃ l b, Tiled h₂ (l ++ [b]) ∧ b.free = true ∧ 4096 * (j + 1) - headerSize ≤ b.size
  /-- It returns NULL only when no page is free. -/
  null : 0 ∉ vm₀.free → p = 0 → vm₁.free = [] ∧ h' = h₁ ∧ vm' = vm₁
  /-- If there is a free block for it, it takes the lowest and does not grow. -/
  first : ∀ bs, Tiled h₀ bs → (∃ b ∈ bs, Fits (roundUp n) b) →
    k = 0 ∧ vm' = vm₀ ∧ h'.endVirt = h₀.endVirt ∧
      ∃ x b, p = x + headerSize ∧ At headerSize h₀.head bs x b ∧ Fits (roundUp n) b ∧
        ∀ y c, At headerSize h₀.head bs y c → Fits (roundUp n) c → x ≤ y

theorem served_of_returns {pml4 fuel n p : Nat} {h h' : Heap} {vm vm' : Vm} {bs : List Block}
    (ht : Tiled h bs) (hroom : HasRoom h vm)
    (hcall : kmallocLoop pml4 fuel (roundUp n) fuel h vm = some (p, h', vm')) :
    ∃ k h₁ vm₁, RequestServed pml4 fuel n h vm k h₁ vm₁ p h' vm' := by
  rcases kmallocLoop_rounds hcall with ⟨k, h₁, vm₁, hrounds, hlast⟩
  refine ⟨k, h₁, vm₁, hrounds, hlast, hrounds.bounded ht hroom, ?_, ?_, ?_⟩
  · intro j h₂ vm₂ hrounds'
    rcases hrounds'.grownBy ht hroom with ⟨bs₂, hg⟩
    rcases hg.last (Nat.succ_pos j) with ⟨l, b, rfl, hb⟩
    exact ⟨l, b, hg.tiled, hb⟩
  · intro hzero hp
    rcases hrounds.grownBy ht hroom with ⟨bs₁, hg⟩
    exact hlast.stack_empty hp fun hmem => hzero (hg.free.subset hmem)
  · rintro bs' ht' ⟨b, hb, hfit⟩
    have hfound : ¬ firstFit h.mem (roundUp n) fuel h.head = some none :=
      fun hnone => ht'.not_fits hnone b hb hfit
    -- the first round finds a block, so it is the last
    rcases hrounds.head_cases with ⟨rfl, rfl, rfl⟩ | ⟨hnone, -⟩
    swap
    · exact absurd hnone hfound
    cases hlast with
    | found hcurr =>
      rcases ht'.lowest hcurr with ⟨⟨c, hc, hcfit⟩, hlowest⟩
      exact ⟨rfl, rfl, rfl, _, c, rfl, hc, hcfit, hlowest⟩
    | refused hnone => exact absurd hnone hfound

/-- A request larger than the heap: it grows, if a page is free. -/
theorem RequestServed.grows {pml4 fuel n k p : Nat} {h₀ h₁ h' : Heap} {vm₀ vm₁ vm' : Vm}
    {bs : List Block} (hserved : RequestServed pml4 fuel n h₀ vm₀ k h₁ vm₁ p h' vm')
    (ht : Tiled h₀ bs) (hlarge : h₀.endVirt < heapStartVirt + roundUp n) (hfree : vm₀.free ≠ [])
    (hzero : 0 ∉ vm₀.free) : 0 < k := by
  rcases Nat.eq_zero_or_pos k with rfl | hk
  swap
  · exact hk
  cases hserved.rounds with
  | start =>
    cases hserved.ends with
    | found hfit =>
      rcases (ht.lowest hfit).1 with ⟨b, hb, hfits⟩
      have hbounds := hb.bounds
      rw [ht.finish, ht.head] at hbounds
      have hsize := hfits.2
      omega
    | refused _ hgrow => exact absurd (heapExpandLocked_refused hgrow hzero).1 hfree

namespace HeapState

variable {s s' : HeapState} {pml4 : Nat}

/-- The heap never gets more pages than the free stack has room for. -/
def Within (s : HeapState) : Prop :=
  s.Inv ∧ reach s.heap s.vm ≤ heapStartVirt + 4096 * maxFreeList

theorem Inv.started (hinv : s.Inv) (pml4 : Nat) :
    (∃ bs, Tiled (started pml4 s.heap s.vm).1 bs) ∧
      reach (Orchid.started pml4 s.heap s.vm).1 (Orchid.started pml4 s.heap s.vm).2 ≤
        reach s.heap s.vm ∧
      HasRoom (Orchid.started pml4 s.heap s.vm).1 (Orchid.started pml4 s.heap s.vm).2 := by
  rcases hinv with ⟨hcold, hend, -, hmax, hpage⟩ | ⟨hwarm, hroom, bs, ht, -⟩
  · rcases heapInit_tiled pml4 hend hpage hmax with ⟨b, ht, -, -, hroom⟩
    rcases heapInitLoop_spec pml4 0 heapInitialPages s.vm with ⟨k, -, hendVirt, hfree, -⟩
    have hp : pageSize = 4096 := rfl
    rw [Orchid.started, if_neg (by rw [hcold]; exact Bool.false_ne_true)]
    refine ⟨⟨[b], ht⟩, ?_, hroom⟩
    simp only [Nat.zero_mul, Nat.add_zero, Nat.zero_add] at hendVirt hfree
    simp only [reach, heapInit, hend, hendVirt, hp]
    omega
  · rw [Orchid.started, if_pos hwarm]
    exact ⟨⟨bs, ht⟩, Nat.le_refl _, hroom⟩

/-- `kfree` leaves the end of the heap where it is. -/
theorem kfree_endVirt {fuel p : Nat} {h h' : Heap} (hcall : kfree fuel p h = some h') :
    h'.endVirt = h.endVirt := by
  simp only [kfree] at hcall
  split at hcall
  · cases hcall
    rfl
  · rcases Option.map_eq_some_iff.mp hcall with ⟨prev, -, rfl⟩
    rfl

theorem Within.malloc {fuel n p : Nat} {h : Heap} {vm : Vm} (hs : s.Within)
    (hcall : kmalloc pml4 fuel n s.heap s.vm = some (p, h, vm)) :
    reach h vm ≤ heapStartVirt + 4096 * maxFreeList := by
  rcases hs.1.started pml4 with ⟨⟨bs, ht⟩, hreach, hroom⟩
  rw [kmalloc_eq_started] at hcall
  rcases kmallocLoop_spec (roundUp_mod n) pml4 fuel fuel _ bs _ ht hroom with
    ⟨hnone, -⟩ | ⟨p', h', vm', bs', hres, ha⟩
  · rw [hnone] at hcall
    cases hcall
  · rw [hres] at hcall
    cases hcall
    exact (ha.within.trans hreach).trans hs.2

theorem within_init (hinit : Init s) : s.Within := by
  refine ⟨Or.inl hinit, ?_⟩
  rcases hinit with ⟨-, hend, -, hmax, -⟩
  unfold reach
  rw [hend]
  omega

theorem within_step (hnext : Next pml4 s s') (hs : s.Within) : s'.Within := by
  refine ⟨inv_step hnext hs.1, ?_⟩
  have hreach := hs.2
  cases hnext with
  | malloc hn hcall => exact hs.malloc hcall
  | freeNull hcall =>
    unfold reach at *
    rwa [kfree_endVirt hcall]
  | free hmem hcall =>
    unfold reach at *
    rwa [kfree_endVirt hcall]
  | write hmem hout => exact hreach

/-- A heap that can be reached, with any free pages at all. -/
theorem inv_of_reachable (hs : Reachable Init (Next pml4) s) {vm : Vm}
    (hmax : vm.free.length ≤ maxFreeList)
    (hpage : s.heap.initialized = false → vm.allocPage.1 ≠ 0) :
    Inv ⟨s.heap, vm, s.live⟩ := by
  have hwithin : s.Within := hs.invariant (fun _ => within_init) fun _ _ => within_step
  rcases hwithin with ⟨⟨hcold, hend, hlive, -⟩ | ⟨hwarm, -, hbs⟩, hreach⟩
  · exact Or.inl ⟨hcold, hend, hlive, hmax, hpage hcold⟩
  · refine Or.inr ⟨hwarm, ?_, hbs⟩
    have hm : maxFreeList = 300000 := rfl
    unfold HasRoom reach at *
    simp only
    omega

/-- `kmalloc` returns from every heap that can be reached, whatever the request
and whatever pages are free, and serves the request as `RequestServed` says. For
the first call there has to be a page that `heap_init` can begin with. -/
theorem kmalloc_serves (hs : Reachable Init (Next pml4) s) {vm : Vm}
    (hmax : vm.free.length ≤ maxFreeList)
    (hpage : s.heap.initialized = false → vm.allocPage.1 ≠ 0) (n : Nat) {fuel : Nat}
    (hfuel : walkBound s.heap vm < fuel) :
    ∃ p h' vm', kmalloc pml4 fuel n s.heap vm = some (p, h', vm') ∧
      ∃ k h₁ vm₁, RequestServed pml4 fuel n (started pml4 s.heap vm).1 (started pml4 s.heap vm).2
        k h₁ vm₁ p h' vm' := by
  rcases (inv_of_reachable hs hmax hpage).started pml4 with ⟨⟨bs, ht⟩, hreach, hroom⟩
  simp only at ht hreach hroom
  have hwalk : walkBound (started pml4 s.heap vm).1 (started pml4 s.heap vm).2 ≤
      walkBound s.heap vm := Nat.div_le_div_right (Nat.sub_le_sub_right hreach _)
  have hlen := Tiled.length_le ht (started pml4 s.heap vm).2
  rcases kmallocLoop_spec (roundUp_mod n) pml4 fuel fuel _ bs _ ht hroom with
    ⟨-, hshort⟩ | ⟨p, h', vm', -, hcall, -⟩
  · omega
  · exact ⟨p, h', vm', hcall, served_of_returns ht hroom hcall⟩

/-- A second request, for more than the page that the heap has. -/
theorem kmalloc_serves_secondPage : ∃ (s : HeapState) (vm : Vm), Reachable Init (Next 0x1000) s ∧
    s.heap.endVirt = heapStartVirt + pageSize ∧
    ∃ p h' vm', kmalloc 0x1000 1100 5000 s.heap vm = some (p, h', vm') ∧
      ∃ k h₁ vm₁, 0 < k ∧ RequestServed 0x1000 1100 5000 s.heap vm k h₁ vm₁ p h' vm' := by
  rcases kmalloc_unusedHeap with ⟨h, vm, hcall, hwarm, hend⟩
  have hinit : Init unusedHeap := by
    refine ⟨rfl, rfl, rfl, ?_, ?_⟩ <;> decide
  have hs := Reachable.step (.init hinit) (Next.malloc (by omega) hcall)
  let pages : Vm := ⟨fun _ => 0, [0x3000, 0x4000, 0x5000, 0x6000, 0x7000]⟩
  have hbound : walkBound h pages < 1100 := by
    rw [walkBound, reach, hend]
    decide
  rcases kmalloc_serves hs (by decide : pages.free.length ≤ maxFreeList)
    (fun hcold => absurd (hwarm.symm.trans hcold) (by decide)) 5000 hbound with
    ⟨p, h', vm', hserved, k, h₁, vm₁, hrequest⟩
  have hstarted : started 0x1000 h pages = (h, pages) := if_pos hwarm
  simp only [hstarted] at hrequest
  refine ⟨_, pages, hs, hend, p, h', vm', hserved, k, h₁, vm₁, ?_, hrequest⟩
  rcases reachable_inv hs with ⟨hcold, -⟩ | ⟨-, -, bs, ht, -⟩
  · exact absurd (hwarm.symm.trans hcold) (by decide)
  · refine hrequest.grows ht ?_ (by decide) (by decide)
    rw [hend]
    decide

end HeapState

end Orchid
