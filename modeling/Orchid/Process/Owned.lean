import Orchid.Process.Fork

/-! # Address spaces that processes own

The page tables of the whole system as one forest: address spaces are named by
the page number of their PML4.

* Of the kernel's address space the tables of the heap window are tracked.
* A process owns its PML4 if the tables and frames behind its user slots, the
  lower half and the slot of the stack, are tracked.

Each way in which the kernel changes page tables keeps the forest: growing the
heap, loading a program, forking, and giving the PML4 of a failed fork back.
-/

namespace Orchid

open ByteMem Radix

/-- The PML4 on page `n`. -/
def pageRoot (n : Nat) : Nat := 4096 * n

theorem exists_pageRoot {a : Nat} (ha : Aligned a) : ∃ n, a = pageRoot n :=
  ⟨a / 4096, by unfold Aligned at ha; unfold pageRoot; omega⟩

/-- The slot of the kernel heap. -/
def HeapSlot (i : Fin 512) : Prop := i.val = 480

/-- The slots of user memory: the lower half, and the one of the stack. -/
def UserSlot (i : Fin 512) : Prop := i.val < 257

instance (i : Fin 512) : Decidable (UserSlot i) := inferInstanceAs (Decidable (_ < _))

/-- The forest of all page tables. -/
structure SpacesOk (D E : Nat → List (Fin 512) → Prop) (kernelCr3 : Nat) (vm : Vm) : Prop where
  forest : Forest pageRoot D E vm
  short : ∀ n q, D n q → q.length ≤ 3
  kernel : ∃ n, kernelCr3 = pageRoot n ∧ ∀ q, SlotPath HeapSlot 3 q → D n q
  few : vm.free.length ≤ maxFreeList

/-- The user memory of the PML4 at `a` is tracked. -/
def Owns (D E : Nat → List (Fin 512) → Prop) (a : Nat) : Prop :=
  ∃ n, a = pageRoot n ∧ (∀ q, SlotPath UserSlot 3 q → D n q) ∧ ∀ q, SlotPath UserSlot 4 q → E n q

/-- More is tracked. -/
def Wider (D E D' E' : Nat → List (Fin 512) → Prop) : Prop :=
  (∀ n q, D n q → D' n q) ∧ ∀ n q, E n q → E' n q

section Owned

variable {D E D' E' : Nat → List (Fin 512) → Prop} {kernelCr3 a c size : Nat} {vm vm' : Vm}
  {image : Nat → UInt8} {rest : List Nat}

theorem Wider.refl : Wider D E D E := ⟨fun _ _ h => h, fun _ _ h => h⟩

theorem wider_withTree (D E : Nat → List (Fin 512) → Prop) (n : Nat) (S : Fin 512 → Prop) :
    Wider D E (WithTree D n S 3) (WithTree E n S 4) :=
  ⟨fun _ _ h => Or.inl h, fun _ _ h => Or.inl h⟩

theorem Owns.mono (h : Owns D E a) (hw : Wider D E D' E') : Owns D' E' a := by
  obtain ⟨n, ha, hD, hE⟩ := h
  exact ⟨n, ha, fun q hq => hw.1 n q (hD q hq), fun q hq => hw.2 n q (hE q hq)⟩

theorem owns_withTree {n : Nat} {S : Fin 512 → Prop} (hS : ∀ i, UserSlot i → S i) :
    Owns (WithTree D n S 3) (WithTree E n S 4) (pageRoot n) :=
  ⟨n, rfl, fun _ hq => Or.inr ⟨rfl, hq.mono hS (Nat.le_refl _)⟩,
    fun _ hq => Or.inr ⟨rfl, hq.mono hS (Nat.le_refl _)⟩⟩

/-- A PML4 that is owned is not free. -/
theorem SpacesOk.not_free (h : SpacesOk D E kernelCr3 vm) (ha : Owns D E a) : a ∉ vm.free := by
  obtain ⟨n, rfl, hD, -⟩ := ha
  exact h.forest.not_free (p := []) (hD [] (slotPath_nil _ _)) rfl

/-- Nothing is tracked of a PML4 on a free page. -/
theorem SpacesOk.untracked (h : SpacesOk D E kernelCr3 vm) {n : Nat}
    (hfree : vm.free = pageRoot n :: rest) : (∀ q, ¬ D n q) ∧ ∀ q, ¬ E n q := by
  have hfresh := h.forest.fresh_taken hfree
  have hD := h.forest.not_tracked hfresh
  refine ⟨hD, ?_⟩
  -- a tracked path is the root, or passes through a tracked table
  intro q hq
  cases q with
  | nil => exact hfresh n [] hq rfl
  | cons i q => exact hD [] (h.forest.tracked.below n _ hq [] i q rfl)

/-! ## Growing the heap -/

theorem heapSlot_pml4Index {v : Nat} (hlo : heapStartVirt ≤ v) (hhi : v < heapStartVirt + 2 ^ 39) :
    HeapSlot (Fin.ofNat 512 (pml4Index v)) := by
  unfold HeapSlot
  rw [val_ofNat_pml4, pml4Index_eq]
  unfold heapStartVirt at hlo hhi
  omega

/-- What one growth does: nothing, or the top of the free stack is mapped in the
window of the heap. -/
theorem GrowStep.cases {pml4 : Nat} (hstep : GrowStep pml4 vm vm') (hok : FreeOk vm.free) :
    vm' = vm ∨ ∃ c rest v, vm.free = c :: rest ∧ HeapSlot (Fin.ofNat 512 (pml4Index v)) ∧
      vm' = (mapAt pml4 v c (mapFlags (vmmPresent ||| vmmWritable)) ⟨vm.mem, rest⟩).2 := by
  cases hstep with
  | failed hnone => exact Or.inl (Vm.allocPage_of_zero hok hnone)
  | @page v hlo hhi hsome =>
    rcases Vm.allocPage_of_ne hsome with ⟨c, rest, hfree, heq⟩
    refine Or.inr ⟨c, rest, v, hfree, heapSlot_pml4Index hlo hhi, ?_⟩
    rw [heq] at hsome ⊢
    rw [vmmMap, if_neg hsome]

theorem SpacesOk.growStep (h : SpacesOk D E kernelCr3 vm) (hstep : GrowStep kernelCr3 vm vm') :
    SpacesOk D E kernelCr3 vm' ∧ ∀ n i q, ¬ HeapSlot i → Below (D n) (i :: q) →
      walk (child vm'.mem) (pageRoot n) (i :: q) = walk (child vm.mem) (pageRoot n) (i :: q) := by
  rcases hstep.cases h.forest.freeOk with rfl | ⟨c, rest, v, hfree, hslot, rfl⟩
  · exact ⟨h, fun _ _ _ _ _ => rfl⟩
  -- the page is mapped through the heap's slot
  rcases h.kernel with ⟨n, rfl, hheap⟩
  have hup : D n (upperPath v) := hheap _ (slotPath_upperPath hslot)
  have hleaf : ¬ D n (path v) := by
    intro hpath
    have hlen := h.short n _ hpath
    rw [length_path] at hlen
    omega
  rcases h.forest.mapTaken hup hleaf hfree (mapFlags_mod_two (vmmPresent ||| vmmWritable)) with
    ⟨taken, hforest, hbuilt, -⟩
  refine ⟨⟨hforest, h.short, ⟨n, rfl, hheap⟩, hbuilt.length_le.trans h.few⟩, ?_⟩
  intro m i q hi hq
  rcases hbuilt.walks m (i :: q) hq with heq | ⟨-, ⟨q', hq'⟩, -⟩
  · exact heq
  · -- only paths through the heap's slot change
    obtain rfl := (List.cons.inj hq').1
    exact absurd hslot hi

/-- Growing the heap keeps the forest, and all paths that do not lead to it. -/
theorem SpacesOk.growth (h : SpacesOk D E kernelCr3 vm) (hgrow : HeapGrowth kernelCr3 vm vm') :
    SpacesOk D E kernelCr3 vm' ∧ ∀ n i q, ¬ HeapSlot i → Below (D n) (i :: q) →
      walk (child vm'.mem) (pageRoot n) (i :: q) = walk (child vm.mem) (pageRoot n) (i :: q) := by
  induction hgrow with
  | refl => exact ⟨h, fun _ _ _ _ _ => rfl⟩
  | tail _ hstep ih =>
    obtain ⟨hmid, hwalks⟩ := ih
    obtain ⟨hend, hwalks'⟩ := hmid.growStep hstep
    exact ⟨hend, fun n i q hi hq => (hwalks' n i q hi hq).trans (hwalks n i q hi hq)⟩

theorem not_heapSlot_stack : ¬ HeapSlot stackSlot := by
  unfold HeapSlot
  decide

/-- In particular the slot of the stack in the kernel's PML4 stays as it is. -/
theorem SpacesOk.growth_stack (h : SpacesOk D E kernelCr3 vm)
    (hgrow : HeapGrowth kernelCr3 vm vm') :
    child vm'.mem kernelCr3 stackSlot = child vm.mem kernelCr3 stackSlot := by
  obtain ⟨n, rfl, hheap⟩ := h.kernel
  have hbelow : Below (D n) [stackSlot] :=
    (h.forest.tracked.closed n).below_concat (p := []) (hheap [] (slotPath_nil _ _))
  have heq := (h.growth hgrow).2 n stackSlot [] not_heapSlot_stack hbelow
  rw [walk_singleton, walk_singleton] at heq
  exact heq

/-! ## Loading a program -/

theorem userSlot_of_lt (i : Fin 512) (hi : i.val < 256) : UserSlot i := by
  unfold UserSlot
  omega

/-- The only user slot of the upper half is that of the stack. -/
theorem absent_userSlot {mem : ByteMem} {cr3 : Nat} (habsent : child mem cr3 stackSlot = none)
    (i : Fin 512) (hlo : 256 ≤ i.val) (hhi : UserSlot i) : child mem cr3 i = none := by
  have hi : i = stackSlot := by
    apply Fin.ext
    unfold UserSlot at hhi
    show i.val = 256
    omega
  rw [hi]
  exact habsent

theorem SpacesOk.root_ne_free {m : Nat} (h : SpacesOk D E kernelCr3 vm) (hroot : D m [])
    (hmem : a ∈ vm.free) : pageRoot m ≠ a := by
  intro heq
  exact h.forest.not_free (p := []) hroot rfl (heq ▸ hmem)

theorem SpacesOk.withTree_short {n : Nat} {S : Fin 512 → Prop} (h : SpacesOk D E kernelCr3 vm)
    (k : Nat) (q : List (Fin 512)) (hq : WithTree D n S 3 k q) : q.length ≤ 3 := by
  rcases hq with hq | ⟨-, hq⟩
  · exact h.short k q hq
  · exact hq.1

theorem withTree_stack (D : Nat → List (Fin 512) → Prop) (n : Nat) :
    WithTree D n UserSlot 3 n (upperPath userStackVaddr) :=
  Or.inr ⟨rfl, slotPath_upperPath (by decide)⟩

/-- The page of the stack is a leaf: no table is tracked there. -/
theorem SpacesOk.not_withTree_stack (h : SpacesOk D E kernelCr3 vm) (n : Nat) :
    ¬ WithTree D n UserSlot 3 n (path userStackVaddr) := by
  intro hpath
  have hlen := h.withTree_short n _ hpath
  rw [length_path] at hlen
  omega

/-- A load adds the tree of the new PML4, if the kernel has no table in the
slot of the stack. -/
theorem SpacesOk.load (h : SpacesOk D E kernelCr3 vm)
    (habsent : child vm.mem kernelCr3 stackSlot = none) (image : Nat → UInt8) (size : Nat) :
    ∃ D' E', Wider D E D' E' ∧ SpacesOk D' E' kernelCr3 (loadSpace kernelCr3 image size vm).2 ∧
      ∀ a, (loadSpace kernelCr3 image size vm).1 = some a → Owns D' E' a ∧ a ∈ vm.free := by
  have hok := h.forest.freeOk
  rcases loadImage_cases kernelCr3 image size hok with
    ⟨-, himage⟩ | ⟨a, rest, hfree, r, vm₂, hcode, himage⟩
  · -- no page for the PML4
    refine ⟨D, E, .refl, ?_, ?_⟩
    · simp only [loadSpace, himage]
      exact h
    · simp [loadSpace, himage]
  have hamem : a ∈ vm.free := mem_of_eq_cons hfree
  obtain ⟨n, rfl⟩ := exists_pageRoot (hok.aligned a hamem)
  obtain ⟨m, rfl, hheap⟩ := h.kernel
  have hne : pageRoot m ≠ pageRoot n := h.root_ne_free (hheap [] (slotPath_nil _ _)) hamem
  have hslots := absent_userSlot habsent
  obtain ⟨taken, hforest, hbuilt⟩ := h.forest.loadCode hfree (h.forest.aligned m) hne
    userSlot_of_lt hslots h.few hcode
  have hshort : ∀ k q, WithTree D n UserSlot 3 k q → q.length ≤ 3 := h.withTree_short
  have hkernel : ∃ m', pageRoot m = pageRoot m' ∧
      ∀ q, SlotPath HeapSlot 3 q → WithTree D n UserSlot 3 m' q :=
    ⟨m, rfl, fun q hq => Or.inl (hheap q hq)⟩
  have hfew : vm₂.free.length ≤ maxFreeList := by
    have hlen := hbuilt.length_le
    have := h.few
    rw [hfree, List.length_cons] at this
    simp only at hlen
    omega
  refine ⟨_, _, wider_withTree D E n UserSlot, ?_⟩
  rcases himage with ⟨-, himage⟩ | ⟨s, rest₂, -, hfree₂, hs, himage⟩
  · -- the image did not fit, or there is no page for the stack
    simp only [loadSpace, himage]
    exact ⟨⟨hforest, hshort, hkernel, hfew⟩, fun a ha => by cases ha⟩
  · obtain ⟨taken', hforest', hbuilt', -⟩ := hforest.mapTaken (withTree_stack D n)
      (h.not_withTree_stack n) hfree₂ (mapUserFlags_mod_two userPageFlags true)
    simp only [loadSpace, himage, vmmMapUser, if_neg hs]
    refine ⟨⟨hforest', hshort, hkernel, hbuilt'.length_le.trans hfew⟩, ?_⟩
    rintro a ha
    obtain rfl := Option.some.inj ha
    exact ⟨owns_withTree fun _ hi => hi, hamem⟩

/-- A load of the empty image, with frames for the PML4, the stack and its three
tables: the stack is mapped, and nothing in the lower half. -/
theorem SpacesOk.load_empty {b : Nat} (h : SpacesOk D E kernelCr3 vm)
    (habsent : child vm.mem kernelCr3 stackSlot = none) (image : Nat → UInt8)
    (hfree : vm.free = a :: b :: rest) (hlen : 3 ≤ rest.length) :
    ∃ vm', loadSpace kernelCr3 image 0 vm = (some a, vm') ∧ vm'.free = rest.drop 3 ∧
      walk (child vm'.mem) a (path userStackVaddr) = some b ∧
      (∀ i : Fin 512, i.val < 256 → child vm'.mem a i = none) ∧
      ∀ i, child vm'.mem kernelCr3 i = child vm.mem kernelCr3 i := by
  have hok := h.forest.freeOk
  have hamem : a ∈ vm.free := mem_of_eq_cons hfree
  have hbmem : b ∈ vm.free := by
    rw [hfree]
    exact List.mem_cons_of_mem a List.mem_cons_self
  obtain ⟨n, rfl⟩ := exists_pageRoot (hok.aligned a hamem)
  obtain ⟨m, rfl, hheap⟩ := h.kernel
  have hmroot := hheap [] (slotPath_nil _ _)
  have hne : pageRoot m ≠ pageRoot n := h.root_ne_free hmroot hamem
  have hslots := absent_userSlot habsent
  have hforest := h.forest.newSpace hfree (h.forest.aligned m) hne hslots
  have hup := withTree_stack D n
  have hleaf := h.not_withTree_stack n
  have hslot : child (newPml4 (pageRoot m) (pageRoot n) vm.mem) (pageRoot n) stackSlot = none :=
    child_newPml4_of_absent (h.forest.aligned n) (h.forest.aligned m) hne fun _ => habsent
  have hmissing : missing (child (newPml4 (pageRoot m) (pageRoot n) vm.mem)) (pageRoot n)
      (upperPath userStackVaddr) = 3 := by
    rw [upperPath_userStackVaddr, missing, hslot]
    rfl
  have hreach := hforest.mapTaken_path hup hleaf rfl (mapUserFlags_mod_two userPageFlags true)
  have hrest := hforest.mapTaken_free (mapUserFlags userPageFlags true) hup rfl
  obtain ⟨taken, -, hbuilt, -⟩ := hforest.mapTaken hup hleaf rfl
    (mapUserFlags_mod_two userPageFlags true)
  rw [hmissing, if_pos hlen] at hreach
  rw [hmissing] at hrest
  have hroot : WithTree D n UserSlot 3 n [] := Or.inr ⟨rfl, slotPath_nil _ _⟩
  refine ⟨_, ?_, hrest, hreach, ?_, ?_⟩
  · rw [loadSpace_empty _ image hfree (hok.nonzero _ hamem) (hok.nonzero _ hbmem), vmmMapUser,
      if_neg (hok.nonzero _ hbmem)]
  · -- the path of the stack does not pass through a lower slot
    intro i hi
    have hbelow : Below (WithTree D n UserSlot 3 n) [i] :=
      (hforest.tracked.closed n).below_concat (p := []) hroot
    rcases hbuilt.walks n [i] hbelow with heq | ⟨-, ⟨q, hq⟩, -⟩
    · rw [walk_singleton, walk_singleton] at heq
      rw [heq]
      exact child_newPml4_of_lt hi
    · obtain rfl : i = stackSlot := (List.cons.inj hq).1
      exact absurd hi (by decide)
  · intro i
    have hmn : m ≠ n := fun heq => hne (congrArg pageRoot heq)
    have hbelow : Below (D m) [i] := (h.forest.tracked.closed m).below_concat (p := []) hmroot
    have hwide : Below (WithTree D n UserSlot 3 m) [i] := fun p j q' heq =>
      Or.inl (hbelow p j q' heq)
    have heq := hbuilt.walk_other hmn hwide
    have hout : ∀ x, ¬ InPage (pageRoot n) x →
        newPml4 (pageRoot m) (pageRoot n) vm.mem x = vm.mem x := fun x hx => newPml4_apply hx
    have hnew := h.forest.walk_scribble (h.forest.freshTables hamem) (h.forest.aligned n) hout
      hbelow
    rw [walk_singleton, walk_singleton] at heq hnew
    exact heq.trans hnew

/-! ## Forking -/

/-- What has to hold for a fork to give the child an address space of its own:
the parent has no table in the slot of the stack, and the frame `c` for the
child's PML4 is empty at the user slots that the parent does not use. -/
structure ForkApart (mem : ByteMem) (parentPml4 c : Nat) : Prop where
  stack : child mem parentPml4 stackSlot = none
  clean : ∀ i : Fin 512, i.val < 256 → child mem parentPml4 i = none → child mem c i = none

/-- The tree of a forked PML4, which is on no other tracked path. -/
structure SpacesOk.Fork (D E : Nat → List (Fin 512) → Prop) (kernelCr3 n : Nat)
    (S : Fin 512 → Prop) (vm : Vm) : Prop where
  spaces : SpacesOk (WithTree D n S 3) (WithTree E n S 4) kernelCr3 vm
  tracked : Tracked D E
  untracked : ∀ q, ¬ E n q
  nonzero : pageRoot n ≠ 0
  small : pageRoot n < 2 ^ 52
  kernel : ∃ m, kernelCr3 = pageRoot m ∧ ∀ q, SlotPath HeapSlot 3 q → D m q

/-- A fork adds the tree of the child's PML4 at the slots `T`. -/
theorem SpacesOk.fork {T : Fin 512 → Prop} (h : SpacesOk D E kernelCr3 vm) (hparent : Owns D E a)
    (hfree : vm.free = c :: rest) (hT : ∀ i : Fin 512, i.val < 256 → child vm.mem a i ≠ none → T i)
    (hshared : ∀ i : Fin 512, 256 ≤ i.val → T i → child vm.mem a i = none)
    (hclean : ∀ i : Fin 512, i.val < 256 → T i → child vm.mem a i = none →
      child vm.mem c i = none) :
    ∃ n m S, c = pageRoot n ∧ a = pageRoot m ∧
      SpacesOk.Fork D E kernelCr3 n S (forkAddressSpace a c ⟨vm.mem, rest⟩).2 ∧
      Forked pageRoot D E m n S vm (forkAddressSpace a c ⟨vm.mem, rest⟩).2 ∧
      ((forkAddressSpace a c ⟨vm.mem, rest⟩).1 = true → ∀ i, T i → S i) := by
  have hcmem : c ∈ vm.free := mem_of_eq_cons hfree
  have hok := h.forest.freeOk
  have hnot := h.not_free hparent
  obtain ⟨n, rfl⟩ := exists_pageRoot (hok.aligned c hcmem)
  obtain ⟨m, rfl, hD, -⟩ := hparent
  obtain ⟨hDn, hEn⟩ := h.untracked hfree
  have hne : m ≠ n := by
    rintro rfl
    exact hnot hcmem
  have hpair : ForkPair D E m n := by
    exact ⟨hne, fun q hq => hD q (hq.mono userSlot_of_lt (Nat.le_refl _)), hDn, hEn⟩
  obtain ⟨S, hforked, hall⟩ := h.forest.fork hpair hfree hT hshared hclean
  refine ⟨n, m, S, rfl, rfl, ⟨⟨hforked.forest, ?_, ?_, ?_⟩, h.forest.tracked, hEn,
    hok.nonzero _ hcmem, hok.small _ hcmem, h.kernel⟩, hforked, hall⟩
  · exact h.withTree_short
  · obtain ⟨m', hm', hheap⟩ := h.kernel
    exact ⟨m', hm', fun q hq => Or.inl (hheap q hq)⟩
  · exact hforked.free.le.trans h.few

/-- A fork that leaves parent and child apart. -/
theorem SpacesOk.fork_apart (h : SpacesOk D E kernelCr3 vm) (hparent : Owns D E a)
    (hfree : vm.free = c :: rest) (hapart : ForkApart vm.mem a c) :
    ∃ n S, c = pageRoot n ∧
      SpacesOk.Fork D E kernelCr3 n S (forkAddressSpace a c ⟨vm.mem, rest⟩).2 ∧
      (forkAddressSpace a c ⟨vm.mem, rest⟩).2.free.length < vm.free.length ∧
      ((forkAddressSpace a c ⟨vm.mem, rest⟩).1 = true →
        Owns (WithTree D n S 3) (WithTree E n S 4) c) := by
  obtain ⟨n, m, S, rfl, -, hspaces, hforked, hall⟩ := h.fork hparent hfree
    (fun i hi _ => userSlot_of_lt i hi) (absent_userSlot hapart.stack)
    (fun i hi _ => hapart.clean i hi)
  exact ⟨n, S, rfl, hspaces, hforked.free, fun htrue => owns_withTree (hall htrue)⟩

theorem SpacesOk.Fork.growth {n : Nat} {S : Fin 512 → Prop}
    (h : SpacesOk.Fork D E kernelCr3 n S vm) (hgrow : HeapGrowth kernelCr3 vm vm') :
    SpacesOk.Fork D E kernelCr3 n S vm' :=
  { h with spaces := (h.spaces.growth hgrow).1 }

/-- Giving the PML4 of a failed fork back: its tree is no longer tracked. -/
theorem SpacesOk.Fork.release {n : Nat} {S : Fin 512 → Prop}
    (h : SpacesOk.Fork D E kernelCr3 n S vm) :
    SpacesOk D E kernelCr3 (vm.freePage (pageRoot n)) := by
  have hforest := h.spaces.forest
  have hrest : Forest pageRoot D E vm :=
    hforest.retrack h.tracked fun k q hq => Or.inl (Or.inl hq)
  have hroot : WithTree E n S 4 n [] := Or.inr ⟨rfl, slotPath_nil _ _⟩
  -- the PML4 is the root of its own tree only
  have hfresh : Fresh (child vm.mem) pageRoot E (pageRoot n) := by
    intro k q hq hw
    obtain ⟨rfl, rfl⟩ := hforest.distinct k q n [] _ (Or.inl hq) hroot hw rfl
    exact h.untracked [] hq
  have hnot : pageRoot n ∉ vm.free := fun hmem => hforest.fresh _ hmem n [] hroot rfl
  refine ⟨hrest.push hfresh hnot (hforest.aligned n) h.nonzero h.small, ?_, h.kernel, ?_⟩
  · intro k q hq
    exact h.spaces.short k q (Or.inl hq)
  · exact freePage_few _ h.spaces.few

end Owned

end Orchid
