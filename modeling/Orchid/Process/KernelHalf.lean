import Orchid.Process.LoadFrames

/-! # Loading a program and the kernel's half

The upper half of a new PML4 is a copy of the kernel's, so the tables behind it
are the kernel's own. `USER_STACK_VADDR` selects slot 256, the first of the
upper half: where the kernel has a table in that slot, mapping the stack stores
into kernel tables.

* `KernelKept` is what a load is to leave alone.
* `SparesKernel` says exactly when it does.
* `AtStack` is the state in which the stack is mapped through kernel tables.
-/

namespace Orchid

open ByteMem Radix

/-- Paths that stay in the upper half of a PML4. -/
def UpperHalf (q : List (Fin 512)) : Prop := ∀ i ∈ q.head?, 256 ≤ i.val

theorem UpperHalf.left {p q : List (Fin 512)} (h : UpperHalf (p ++ q)) : UpperHalf p := by
  cases p with
  | nil => simp [UpperHalf]
  | cons i p => exact h

theorem upperHalf_path {v : Nat} (h : 256 ≤ pml4Index v) : UpperHalf (path v) := by
  intro i hi
  obtain rfl : Fin.ofNat 512 (pml4Index v) = i := Option.some.inj hi
  rw [val_ofNat_pml4]
  exact h

/-- The tables of the kernel half and the free stack at the time of a load. -/
structure KernelApart (kernelCr3 : Nat) (vm : Vm) : Prop where
  aligned : Aligned kernelCr3
  tables : ∀ q f, q.length ≤ 3 → UpperHalf q → walk (child vm.mem) kernelCr3 q = some f →
    f ∉ vm.free
  freeOk : FreeOk vm.free
  few : vm.free.length ≤ maxFreeList

/-- The kernel half translates as before, and only frames that were taken from
the free stack were written. -/
structure KernelKept (kernelCr3 : Nat) (vm vm' : Vm) : Prop where
  lookup : ∀ v, 256 ≤ pml4Index v → lookup vm'.mem kernelCr3 v = lookup vm.mem kernelCr3 v
  frame : ∀ x, vm'.mem x ≠ vm.mem x → ∃ c ∈ vm.free, c ∉ vm'.free ∧ InPage c x

/-- From `vm` to `vm'` the frames `taken` were taken, and only they changed. -/
structure Within (vm vm' : Vm) (taken : List Nat) : Prop where
  free : vm.free = taken ++ vm'.free
  frame : ∀ x, vm'.mem x ≠ vm.mem x → ∃ c ∈ taken, InPage c x

section Kept

variable {kernelCr3 : Nat} {vm vm' : Vm} {taken : List Nat} {q : List (Fin 512)} {g : Nat}

/-- Writing frames that were free does not change the kernel's tables. -/
theorem KernelApart.pte_same (hk : KernelApart kernelCr3 vm)
    (hframe : ∀ x, vm'.mem x ≠ vm.mem x → ∃ c ∈ vm.free, InPage c x) (hq : q.length ≤ 3)
    (hup : UpperHalf q) (hg : walk (child vm.mem) kernelCr3 q = some g) (i : Fin 512) :
    pte vm'.mem g i = pte vm.mem g i := by
  refine pte_congr fun x hx => ?_
  by_contra hne
  obtain ⟨c, hc, hin⟩ := hframe x hne
  have heq := inPage_unique (walk_aligned hk.aligned hg) (hk.freeOk.aligned c hc) hx hin
  exact hk.tables q g hq hup hg (heq ▸ hc)

theorem KernelApart.walk_same (hk : KernelApart kernelCr3 vm)
    (hframe : ∀ x, vm'.mem x ≠ vm.mem x → ∃ c ∈ vm.free, InPage c x) (hq : q.length ≤ 4)
    (hup : UpperHalf q) :
    walk (child vm'.mem) kernelCr3 q = walk (child vm.mem) kernelCr3 q := by
  refine walk_congr fun p j q' g heq hg => ?_
  have hp : p.length ≤ 3 := by
    rw [heq, List.length_append, List.length_cons] at hq
    omega
  rw [child, child, hk.pte_same hframe hp (heq ▸ hup).left hg]

theorem Within.frame' (h : Within vm vm' taken) :
    ∀ x, vm'.mem x ≠ vm.mem x → ∃ c ∈ vm.free, InPage c x := by
  intro x hx
  obtain ⟨c, hc, hin⟩ := h.frame x hx
  exact ⟨c, by rw [h.free]; exact List.mem_append_left _ hc, hin⟩

theorem Within.kept (h : Within vm vm' taken) (hk : KernelApart kernelCr3 vm) :
    KernelKept kernelCr3 vm vm' where
  lookup := by
    intro v hv
    rw [lookup_eq_walk, lookup_eq_walk,
      hk.walk_same h.frame' (length_path v).le (upperHalf_path hv)]
  frame := by
    intro x hx
    obtain ⟨c, hc, hin⟩ := h.frame x hx
    have hnodup := hk.freeOk.nodup
    rw [h.free] at hnodup ⊢
    exact ⟨c, List.mem_append_left _ hc, fun hfree =>
      (List.nodup_append.mp hnodup).2.2 c hc c hfree rfl, hin⟩

theorem KernelKept.pte_same (h : KernelKept kernelCr3 vm vm') (hk : KernelApart kernelCr3 vm)
    (hq : q.length ≤ 3) (hup : UpperHalf q) (hg : walk (child vm.mem) kernelCr3 q = some g)
    (i : Fin 512) : pte vm'.mem g i = pte vm.mem g i := by
  refine hk.pte_same ?_ hq hup hg i
  intro x hx
  obtain ⟨c, hc, -, hin⟩ := h.frame x hx
  exact ⟨c, hc, hin⟩

end Kept

/-! ## Building out of a fresh PML4 -/

section Fresh

variable {kernelCr3 a limit : Nat} {vm vm' : Vm} {taken rest : List Nat}

theorem KernelApart.loadReady (hk : KernelApart kernelCr3 vm) : LoadReady kernelCr3 vm where
  aligned := hk.aligned
  notFree := hk.tables [] kernelCr3 (by simp) (by simp [UpperHalf]) rfl
  freeOk := hk.freeOk
  few := hk.few

/-- The paths of the one tree that is tracked, through the slots below `limit`. -/
abbrev newTables (limit : Nat) : Unit → List (Fin 512) → Prop :=
  WithTree (fun _ _ => False) () (fun i => i.val < limit) 3

/-- What is built below the new PML4 is made of frames that were free. -/
theorem Built.within {R : List (Fin 512) → Prop}
    (hbuilt : Built (fun _ : Unit => a) (newTables limit) () R
      ⟨newPml4 kernelCr3 a vm.mem, rest⟩ vm' taken) (hk : LoadReady kernelCr3 vm)
    (hfree : vm.free = a :: rest)
    (habsent : ∀ i : Fin 512, 256 ≤ i.val → i.val < limit → child vm.mem kernelCr3 i = none) :
    Within vm vm' (a :: taken) where
  free := by rw [hfree, List.cons_append, ← hbuilt.free]
  frame := by
    intro x hx
    by_cases hfirst : newPml4 kernelCr3 a vm.mem x = vm.mem x
    · rw [← hfirst] at hx
      rcases hbuilt.frame x hx with ⟨c, hc, hin⟩ | ⟨p, g, hp, hg, hin⟩
      · exact ⟨c, List.mem_cons_of_mem a hc, hin⟩
      · -- the only table there was is the PML4 itself
        have ha := hk.freeOk.aligned a (mem_of_eq_cons hfree)
        rcases hp with hp | ⟨-, hp⟩
        · exact hp.elim
        · rw [walk_newPml4 ha hk.aligned (hk.cr3_ne hfree) habsent hp] at hg
          split at hg
          · exact ⟨a, List.mem_cons_self, Option.some.inj hg ▸ hin⟩
          · cases hg
    · by_contra hnone
      refine hfirst (newPml4_apply fun hin => hnone ⟨a, List.mem_cons_self, hin⟩)

/-- The slots from `limit` on are as they were copied. -/
theorem Built.slot_copied
    (hbuilt : Built (fun _ : Unit => a) (newTables limit) () (MapPaths (newTables limit) ())
      ⟨newPml4 kernelCr3 a vm.mem, rest⟩ vm' taken) (hk : LoadReady kernelCr3 vm)
    (hfree : vm.free = a :: rest) {i : Fin 512} (hhalf : 256 ≤ i.val) (hi : limit ≤ i.val) :
    child vm'.mem a i = child vm.mem kernelCr3 i := by
  have ha := hk.freeOk.aligned a (mem_of_eq_cons hfree)
  rw [← child_newPml4_of_ge ha hk.aligned (hk.cr3_ne hfree) hhalf]
  have hbelow : Below (newTables limit ()) [i] := by
    rintro (_ | ⟨j, p⟩) l q' heq
    · exact Or.inr ⟨rfl, slotPath_nil _ _⟩
    · simp at heq
  rcases hbuilt.walks () [i] hbelow with heq | ⟨-, hpath, -⟩
  · rw [walk_singleton, walk_singleton] at heq
    exact heq
  · -- the slot is not one of the tree's
    rcases hpath with (h | ⟨-, h⟩) | h
    · exact h.elim
    · have hlt : i.val < limit := (slotPath_cons.mp h).2
      omega
    · cases h

end Fresh

/-! ## Tables made below a kernel table -/

section Gap

variable {vm : Vm} {c g t : Nat} {j : Fin 512} {rest : List Nat}

/-- Making tables below an empty one writes to it and to frames that were free. -/
theorem descend_empty (hca : Aligned c) (hempty : ∀ i, child vm.mem c i = none)
    (hok : FreeOk vm.free) (hc : c ∉ vm.free) (q : List (Fin 512)) :
    (∀ x, (descend c q vm).2.mem x ≠ vm.mem x → ∃ c' ∈ c :: vm.free, InPage c' x) ∧
      ∀ t, (descend c q vm).1 = some t → t ∈ c :: vm.free := by
  have hwalk : ∀ q' t, walk (child vm.mem) c q' = some t → t = c := by
    intro q' t ht
    cases q' with
    | nil => exact (Option.some.inj ht).symm
    | cons i q' =>
      rw [walk_cons, hempty i] at ht
      cases ht
  obtain ⟨taken, hgrown, -, hres⟩ := descend_spec (p := []) (q := q) (k := ())
    (forest_empty hca hempty hok hc) trivial walk_nil
  generalize descend c q vm = r at hgrown hres ⊢
  have htaken : ∀ c' ∈ taken, c' ∈ c :: vm.free := by
    intro c' hc'
    rw [hgrown.free]
    exact List.mem_cons_of_mem c (List.mem_append_left _ hc')
  constructor
  · intro x hx
    rcases hgrown.frame x hx with ⟨c', hc', hin⟩ | ⟨q₁, i, q₂, g, -, hg, -, hin⟩
    · exact ⟨c', htaken c' hc', hin⟩
    · exact ⟨c, List.mem_cons_self, hwalk _ g hg ▸ hin⟩
  · intro t ht
    split at hres
    · obtain ⟨-, t', ht', hw⟩ := hres
      obtain rfl : t = t' := Option.some.inj (ht.symm.trans ht')
      rcases hgrown.walks () q (fun _ _ _ _ => trivial) with heq | ⟨-, -, -, c', hc', hw'⟩
      · -- the path was empty
        rw [List.nil_append, heq] at hw
        exact hwalk q t hw ▸ List.mem_cons_self
      · rw [List.nil_append, hw'] at hw
        exact Option.some.inj hw ▸ htaken c' hc'
    · rw [ht] at hres
      cases hres.1

/-- A walk that finds an empty slot in table `g`, and a free frame to fill it:
the slot is present afterwards, and a page table at its end was made of frames
that were free. -/
theorem descend_gap (hslot : child vm.mem g j = none) (hfree : vm.free = c :: rest)
    (hok : FreeOk vm.free) (hga : Aligned g) (hg : g ∉ vm.free) (q : List (Fin 512)) :
    Present (pte (descend g (j :: q) vm).2.mem g j) ∧
      ∀ t, (descend g (j :: q) vm).1 = some t → t ∈ vm.free := by
  have hcmem : c ∈ vm.free := mem_of_eq_cons hfree
  have hca := hok.aligned c hcmem
  have hgc : g ≠ c := by
    rintro rfl
    exact hg hcmem
  -- the state once the slot is filled with an empty table
  obtain ⟨vm₁, hvm₁⟩ : ∃ vm₁, ensurePageTable (g + 8 * j.val) vm = vm₁ := ⟨_, rfl⟩
  have hform := ensurePageTable_of_cons hslot hfree (hok.nonzero c hcmem)
  rw [hvm₁] at hform
  have hentry : pte vm₁.mem g j = makeEntry c (vmmPresent ||| vmmWritable) := by
    rw [hform, pte_write64 hga hga (makeEntry_lt _ _), if_pos ⟨rfl, rfl⟩]
  have hchild : child vm₁.mem g j = some c := by
    rw [child, hentry]
    exact decode_makeEntry hca (hok.small c hcmem) (by decide)
  have hempty : ∀ i, child vm₁.mem c i = none := by
    intro i
    rw [hform, child, pte_write64 hga hca (makeEntry_lt _ _), if_neg (fun h => hgc h.1.symm),
      pte_clearWords hca hca, if_pos rfl]
    rfl
  have hall : c :: vm₁.free = vm.free := by rw [hform, hfree]
  obtain ⟨hframe, hends⟩ := descend_empty hca hempty
    (FreeOk.tail (hall.symm ▸ hok : FreeOk (c :: vm₁.free))) (hok.not_mem_rest hall.symm) q
  rw [hall] at hframe hends
  have hdescend : descend g (j :: q) vm = descend c q vm₁ := by
    simp only [descend, hvm₁, hchild]
  rw [hdescend]
  refine ⟨?_, hends⟩
  -- nothing is written to `g` from then on
  have hsame : pte (descend c q vm₁).2.mem g j = pte vm₁.mem g j := by
    refine pte_congr fun x hx => ?_
    by_contra hne
    obtain ⟨c', hc', hin⟩ := hframe x hne
    exact hg (inPage_unique hga (hok.aligned c' hc') hx hin ▸ hc')
  rw [hsame, hentry]
  exact present_makeEntry c (by decide)

end Gap

/-! ## Mapping the stack -/

/-- The entry for the stack page at `s`. -/
def stackEntry (s : Nat) : Nat := makeEntry s (mapUserFlags userPageFlags true)

/-- A load does not reach the kernel's tables if the kernel has none in the
stack's slot, or there is no frame for the stack, or its walk through the
kernel's tables finds one missing and the frame of the stack was the last, or the
kernel has that very entry already. -/
def SparesKernel (kernelCr3 size : Nat) (vm : Vm) : Prop :=
  child vm.mem kernelCr3 stackSlot = none ∨ vm.free.length ≤ loadFrames size ∨
  match walk (child vm.mem) kernelCr3 (upperPath userStackVaddr) with
  | none => vm.free.length = loadFrames size + 1
  | some t =>
    vm.free[loadFrames size]?.map stackEntry = some (pte vm.mem t (ptSlot userStackVaddr))

section Stack

variable {kernelCr3 a s size : Nat} {image : Nat → UInt8} {vm vm₂ : Vm} {rest rest₂ : List Nat}
  {r : Bool}

/-- The kernel has no table in the stack's slot: the whole load builds below
the new PML4. -/
theorem within_of_absent (hk : LoadReady kernelCr3 vm) (hfree : vm.free = a :: rest)
    (hcode : loadCode a image userCodeVaddr 0 size ⟨newPml4 kernelCr3 a vm.mem, rest⟩ = (r, vm₂))
    (hfree₂ : vm₂.free = s :: rest₂) (habsent : child vm.mem kernelCr3 stackSlot = none) :
    ∃ taken, Within vm (mapAt a userStackVaddr s (mapUserFlags userPageFlags true)
        ⟨vm₂.mem, rest₂⟩).2 (a :: taken) ∧
      ∀ i : Fin 512, 257 ≤ i.val → child (mapAt a userStackVaddr s
        (mapUserFlags userPageFlags true) ⟨vm₂.mem, rest₂⟩).2.mem a i = child vm.mem kernelCr3 i := by
  have ha := hk.freeOk.aligned a (mem_of_eq_cons hfree)
  have hslots : ∀ i : Fin 512, 256 ≤ i.val → i.val < 257 → child vm.mem kernelCr3 i = none := by
    intro i hlo hhi
    obtain rfl : i = stackSlot := Fin.ext (by show i.val = 256; omega)
    exact habsent
  obtain ⟨taken, hforest, hbuilt⟩ := (forest_nil a ha hk.freeOk).loadCode (k := ()) hfree hk.aligned
    (hk.cr3_ne hfree) (fun i hi => (by omega : i.val < 257)) hslots hk.few hcode
  have hD : newTables 257 () (upperPath userStackVaddr) :=
    Or.inr ⟨rfl, slotPath_upperPath (by decide)⟩
  have hleaf : ¬ newTables 257 () (path userStackVaddr) := by
    rintro (h | ⟨-, h⟩)
    · exact h
    · exact not_slotPath_path _ _ h
  obtain ⟨taken', -, hbuilt', -⟩ := hforest.mapTaken hD hleaf hfree₂
    (mapUserFlags_mod_two userPageFlags true)
  have hmap := hbuilt'.mono fun q hq => mapPaths_of_path (hforest.tracked.closed ()) hD hq
  have hall := hbuilt.trans (hforest.tracked.closed ()) hmap
  refine ⟨_, hall.within hk hfree hslots, fun i hi => ?_⟩
  exact hall.slot_copied hk hfree (by omega) hi

/-- Up to the stack page the load builds below the new PML4 and leaves its upper
half as it was copied. -/
theorem loadCode_within (hk : LoadReady kernelCr3 vm) (hfree : vm.free = a :: rest)
    (hcode : loadCode a image userCodeVaddr 0 size ⟨newPml4 kernelCr3 a vm.mem, rest⟩ = (r, vm₂)) :
    ∃ taken, Within vm vm₂ (a :: taken) ∧
      ∀ i : Fin 512, 256 ≤ i.val → child vm₂.mem a i = child vm.mem kernelCr3 i := by
  have ha := hk.freeOk.aligned a (mem_of_eq_cons hfree)
  have hslots : ∀ i : Fin 512, 256 ≤ i.val → i.val < 256 → child vm.mem kernelCr3 i = none := by
    intro i hlo hhi
    omega
  obtain ⟨taken, hforest, hbuilt⟩ := (forest_nil a ha hk.freeOk).loadCode (k := ()) hfree hk.aligned
    (hk.cr3_ne hfree) (fun _ hi => hi) hslots hk.few hcode
  exact ⟨_, hbuilt.within hk hfree hslots, fun i hi => hbuilt.slot_copied hk hfree hi hi⟩

end Stack

/-! ## A kernel with a table in the stack's slot -/

theorem upperHalf_stack (q : List (Fin 512)) : UpperHalf (stackSlot :: q) := by
  intro i hi
  obtain rfl : stackSlot = i := Option.some.inj hi
  decide

/-- The state `u` in which the stack is mapped: only frames that were free have
changed, and through the stack's slot of the new PML4 `a` the same tables are
met as through the kernel's. -/
structure AtStack (kernelCr3 a : Nat) (vm u : Vm) : Prop where
  within : ∃ taken, Within vm u taken
  walks : ∀ q, q.length ≤ 3 →
    walk (child u.mem) a (stackSlot :: q) = walk (child vm.mem) kernelCr3 (stackSlot :: q)

section AtStack

variable {kernelCr3 a s t g size : Nat} {image : Nat → UInt8} {vm vm₂ u : Vm} {rest rest₂ : List Nat}
  {q : List (Fin 512)} {r : Bool}

theorem loadCode_atStack (hk : KernelApart kernelCr3 vm) (hfree : vm.free = a :: rest)
    (hcode : loadCode a image userCodeVaddr 0 size ⟨newPml4 kernelCr3 a vm.mem, rest⟩ = (r, vm₂))
    (hfree₂ : vm₂.free = s :: rest₂) : AtStack kernelCr3 a vm ⟨vm₂.mem, rest₂⟩ := by
  obtain ⟨taken, hwithin, hslots⟩ := loadCode_within hk.loadReady hfree hcode
  have hslot := hslots stackSlot (by decide)
  constructor
  · refine ⟨a :: taken ++ [s], ?_, fun x hx => ?_⟩
    · rw [hwithin.free, hfree₂]
      simp
    · obtain ⟨c, hc, hin⟩ := hwithin.frame x hx
      exact ⟨c, List.mem_append_left _ hc, hin⟩
  · intro q hq
    have hkernel := hk.walk_same hwithin.frame' (by simp) (upperHalf_stack [])
    have hlen : (stackSlot :: q).length ≤ 4 := by
      rw [List.length_cons]
      omega
    have hwhole := hk.walk_same hwithin.frame' hlen (upperHalf_stack q)
    rw [walk_singleton, walk_singleton] at hkernel
    rw [← hwhole, walk_cons, walk_cons, hslot, hkernel]

/-- A table met on the way to the stack's page is the kernel's. -/
theorem AtStack.table (h : AtStack kernelCr3 a vm u) (hk : KernelApart kernelCr3 vm)
    (hq : q.length ≤ 2) (ht : walk (child u.mem) a (stackSlot :: q) = some t) :
    walk (child vm.mem) kernelCr3 (stackSlot :: q) = some t ∧ t ∉ vm.free ∧ Aligned t := by
  rw [h.walks q (by omega)] at ht
  have hlen : (stackSlot :: q).length ≤ 3 := by
    rw [List.length_cons]
    omega
  exact ⟨ht, hk.tables _ t hlen (upperHalf_stack q) ht, walk_aligned hk.aligned ht⟩

/-- All tables are there: the entry is stored in the kernel's page table. -/
theorem AtStack.kept_iff_of_some (h : AtStack kernelCr3 a vm u) (hk : KernelApart kernelCr3 vm)
    (ht : walk (child u.mem) a (upperPath userStackVaddr) = some t) :
    KernelKept kernelCr3 vm (mapAt a userStackVaddr s (mapUserFlags userPageFlags true) u).2 ↔
      pte vm.mem t (ptSlot userStackVaddr) = stackEntry s := by
  obtain ⟨taken, hwithin⟩ := h.within
  rw [upperPath_userStackVaddr] at ht
  obtain ⟨hkt, -, hta⟩ := h.table hk (by simp) ht
  have hup := upperHalf_stack [0, 0]
  have hdescend : descend a (upperPath userStackVaddr) u = (some t, u) := by
    rw [upperPath_userStackVaddr]
    simpa [descend] using descend_append ht []
  simp only [mapAt_eq_descend, hdescend]
  constructor
  · intro hkept
    have hnew := hkept.pte_same hk (by simp) hup hkt (ptSlot userStackVaddr)
    simp only [pte_write64 hta hta (makeEntry_lt _ _), if_true, and_self] at hnew
    exact hnew.symm
  · -- the very entry is there already, so the store changes nothing
    intro hentry
    have hread : read64 u.mem (t + 8 * (ptSlot userStackVaddr).val) = stackEntry s :=
      (hk.pte_same hwithin.frame' (by simp) hup hkt _).trans hentry
    have hnoop := write64_read64 u.mem (t + 8 * (ptSlot userStackVaddr).val)
    rw [hread, stackEntry] at hnoop
    rw [hnoop]
    exact hwithin.kept hk

theorem Within.freeOk {taken : List Nat} (h : Within vm u taken) (hok : FreeOk vm.free) :
    FreeOk u.free := by
  have hsub : ∀ c ∈ u.free, c ∈ vm.free := by
    intro c hc
    rw [h.free]
    exact List.mem_append_right _ hc
  have hnodup := hok.nodup
  rw [h.free] at hnodup
  exact ⟨(List.nodup_append.mp hnodup).2.1, fun c hc => hok.nonzero c (hsub c hc),
    fun c hc => hok.aligned c (hsub c hc), fun c hc => hok.small c (hsub c hc)⟩

/-- The first table that is missing goes into a table of the kernel. -/
theorem AtStack.kept_iff_of_gap {p q' : List (Fin 512)} {j : Fin 512}
    (h : AtStack kernelCr3 a vm u) (hk : KernelApart kernelCr3 vm) (hp : p.length ≤ 2)
    (hsplit : upperPath userStackVaddr = (stackSlot :: p) ++ j :: q')
    (hg : walk (child u.mem) a (stackSlot :: p) = some g) (hempty : child u.mem g j = none) :
    KernelKept kernelCr3 vm (mapAt a userStackVaddr s (mapUserFlags userPageFlags true) u).2 ↔
      u.free = [] := by
  obtain ⟨taken, hwithin⟩ := h.within
  obtain ⟨hkg, hgfree, hga⟩ := h.table hk hp hg
  have hlen : (stackSlot :: p).length ≤ 3 := by
    rw [List.length_cons]
    omega
  have hup := upperHalf_stack p
  have hdescend : descend a (upperPath userStackVaddr) u = descend g (j :: q') u := by
    rw [hsplit]
    exact descend_append hg (j :: q')
  rw [mapAt_eq_descend, hdescend]
  cases hfree : u.free with
  | nil =>
    -- no frame for the missing table: nothing happens
    have hstop : descend g (j :: q') u = (none, u) := by
      simp only [descend, ensurePageTable_of_empty hempty hfree, hempty]
    rw [hstop]
    simp only [iff_true]
    exact hwithin.kept hk
  | cons c rest =>
    have hok := hwithin.freeOk hk.freeOk
    have hout : ∀ t ∈ u.free, g ≠ t := by
      rintro t ht rfl
      rw [hwithin.free] at hgfree
      exact hgfree (List.mem_append_right _ ht)
    obtain ⟨hnow, hends⟩ := descend_gap hempty hfree hok hga (fun hmem => hout g hmem rfl) q'
    simp only [reduceCtorEq, iff_false]
    intro hkept
    have hbefore : ¬ Present (pte vm.mem g j) := by
      rw [← hk.pte_same hwithin.frame' hlen hup hkg j]
      exact not_present_of_child_none hempty
    have hsame := hkept.pte_same hk hlen hup hkg j
    refine hbefore (hsame ▸ ?_)
    -- the leaf goes into a table made of free frames
    generalize descend g (j :: q') u = res at hnow hends ⊢
    obtain ⟨_ | t, vm₃⟩ := res
    · exact hnow
    · have ht := hends t rfl
      have hne := hout t ht
      simp only [pte_write64 (hok.aligned t ht) hga (makeEntry_lt _ _), hne, false_and, if_false]
      exact hnow

/-- When mapping the stack leaves the kernel's tables alone. -/
theorem AtStack.kept_iff (h : AtStack kernelCr3 a vm u) (hk : KernelApart kernelCr3 vm)
    (hpresent : child vm.mem kernelCr3 stackSlot = some g) :
    KernelKept kernelCr3 vm (mapAt a userStackVaddr s (mapUserFlags userPageFlags true) u).2 ↔
      match walk (child vm.mem) kernelCr3 (upperPath userStackVaddr) with
      | none => u.free = []
      | some t => pte vm.mem t (ptSlot userStackVaddr) = stackEntry s := by
  have hslot : walk (child u.mem) a [stackSlot] = some g := by
    rw [h.walks [] (by simp)]
    exact (walk_singleton _ _).trans hpresent
  have hwhole : walk (child vm.mem) kernelCr3 (upperPath userStackVaddr) =
      walk (child u.mem) a (upperPath userStackVaddr) := by
    rw [upperPath_userStackVaddr]
    exact (h.walks [0, 0] (by simp)).symm
  rw [hwhole]
  cases ht : walk (child u.mem) a (upperPath userStackVaddr) with
  | some t => exact h.kept_iff_of_some hk ht
  | none =>
    obtain ⟨p, j, q', g', hsplit, hg', hempty⟩ := walk_eq_none ht
    have hlen : p.length ≤ 2 := by
      have hthree := length_upperPath userStackVaddr
      rw [hsplit, List.length_append, List.length_cons] at hthree
      omega
    cases p with
    | nil =>
      -- the stack's slot itself is not empty
      rw [upperPath_userStackVaddr] at hsplit
      obtain ⟨rfl, -⟩ := List.cons.inj hsplit
      have hnone : walk (child u.mem) a [stackSlot] = none := (walk_concat hg').trans hempty
      rw [hslot] at hnone
      cases hnone
    | cons i p =>
      obtain rfl : i = stackSlot := by
        rw [upperPath_userStackVaddr] at hsplit
        exact (List.cons.inj hsplit).1.symm
      rw [List.length_cons] at hlen
      exact h.kept_iff_of_gap hk (by omega) hsplit hg' hempty

end AtStack

/-! ## `load_raw` -/

/-- The new address space is made without a trace in the kernel's half exactly
if the load spares the kernel. -/
theorem loadSpace_kept_iff {kernelCr3 : Nat} {vm : Vm} (image : Nat → UInt8) (size : Nat)
    (hk : KernelApart kernelCr3 vm) :
    KernelKept kernelCr3 vm (loadSpace kernelCr3 image size vm).2 ↔
      SparesKernel kernelCr3 size vm := by
  have hframes := loadImage_frames hk.loadReady image size
  rcases loadImage_cases kernelCr3 image size hk.freeOk with
    ⟨hnil, himage⟩ | ⟨a, rest, hfree, r, vm₂, hcode, ⟨-, himage⟩ | ⟨s, rest₂, -, hfree₂, hs, himage⟩⟩
  · -- not even a page for the PML4
    have hnothing : Within vm vm [] := ⟨rfl, fun x hx => absurd rfl hx⟩
    simp only [loadSpace, SparesKernel, himage, hnil, List.length_nil, Nat.zero_le, true_or,
      or_true, iff_true]
    exact hnothing.kept hk
  · -- the stack is never mapped
    obtain ⟨taken, hwithin, -⟩ := loadCode_within hk.loadReady hfree hcode
    rcases hframes with ⟨hfew, -⟩ | ⟨a', s', mem, -, hsome⟩
    · simp only [loadSpace, SparesKernel, himage, hfew, true_or, or_true, iff_true]
      exact hwithin.kept hk
    · rw [himage] at hsome
      cases hsome
  · rcases hframes with ⟨-, vm', hnone⟩ | ⟨a', s', mem, hat, hsome⟩
    · rw [himage] at hnone
      cases hnone
    rw [himage] at hsome
    cases hsome
    have hmore : loadFrames size < vm.free.length := (List.getElem?_eq_some_iff.mp hat).1
    have hlast : vm.free.drop (loadFrames size + 1) = [] ↔
        vm.free.length = loadFrames size + 1 := by
      rw [List.drop_eq_nil_iff]
      omega
    simp only [loadSpace, SparesKernel, himage, vmmMapUser, if_neg hs, Nat.not_le.mpr hmore,
      false_or]
    cases hslot : child vm.mem kernelCr3 stackSlot with
    | none =>
      obtain ⟨taken, hwithin, -⟩ := within_of_absent hk.loadReady hfree hcode hfree₂ hslot
      simp only [true_or, iff_true]
      exact hwithin.kept hk
    | some g =>
      simp only [reduceCtorEq, false_or, hat, Option.map_some, Option.some.injEq]
      refine ((loadCode_atStack hk hfree hcode hfree₂).kept_iff hk hslot).trans ?_
      split
      · exact hlast
      · exact eq_comm

/-- The rest of `load_raw`, the new thread, only grows the heap. -/
theorem loadRaw_growth {k k' : Kernel} {live : List (Nat × Nat)} {fuel size : Nat}
    {image : Nat → UInt8} {proc : ProcPtr} {r : Option Tid} (hheap : (k.heapState live).Ready)
    (h : loadRaw fuel image size proc k = some (r, k')) :
    HeapGrowth k.kernelCr3 (loadSpace k.kernelCr3 image size k.vm).2 k'.vm := by
  have hlen := (loadSpace_free k.kernelCr3 image size k.vm).length_le
  cases loadRaw_outcome h with
  | noSpace hspace => rw [hspace]
  | @space pml4Phys vm _ _ hspace hthread =>
    rw [hspace] at hlen ⊢
    have hready : ((loaded proc pml4Phys vm k).heapState live).Ready := hheap.mono hlen
    rcases Kernel.threadCreateUser_spec hready hthread with ⟨live', hcreated⟩
    exact hcreated.growth.1

/-- What `load_raw` does to the kernel's half: making the address space leaves
it alone exactly if the load spares the kernel, and the new thread only grows
the heap. -/
theorem loadRaw_keeps_kernel_iff {k k' : Kernel} {live : List (Nat × Nat)} {fuel size : Nat}
    {image : Nat → UInt8} {proc : ProcPtr} {r : Option Tid} (hk : KernelApart k.kernelCr3 k.vm)
    (hheap : (k.heapState live).Ready) (h : loadRaw fuel image size proc k = some (r, k')) :
    (KernelKept k.kernelCr3 k.vm (loadSpace k.kernelCr3 image size k.vm).2 ↔
      SparesKernel k.kernelCr3 size k.vm) ∧
    HeapGrowth k.kernelCr3 (loadSpace k.kernelCr3 image size k.vm).2 k'.vm :=
  ⟨loadSpace_kept_iff image size hk, loadRaw_growth hheap h⟩

/-- Four free pages. -/
def fourPages : List Nat := [0x3000, 0x4000, 0x5000, 0x6000]

theorem freeOk_fourPages : FreeOk fourPages := ⟨by decide, by decide, by decide, by decide⟩

/-- A load of the empty image succeeds with these pages. -/
theorem loadRaw_fourPages (mem : ByteMem) (image : Nat → UInt8) (proc : ProcPtr) :
    ∃ t k', loadRaw 8 image 0 proc (bootKernel ⟨mem, fourPages⟩) = some (some t, k') ∧
      k'.vm = (loadSpace 0x1000 image 0 ⟨mem, fourPages⟩).2 := by
  have hspace := loadSpace_empty (bootKernel ⟨mem, fourPages⟩).kernelCr3 image
    (rfl : (bootKernel ⟨mem, fourPages⟩).vm.free = 0x3000 :: 0x4000 :: _) (by decide) (by decide)
  obtain ⟨t, k', live, h, hk', -⟩ := loadRaw_of_spare proc hspace
    (freshHeap_spare (by show fourPages.length ≤ _; decide)) (by decide) (by decide : 1 + 1 < 8)
  refine ⟨t, k', h, ?_⟩
  rw [hk']
  exact (congrArg Prod.snd hspace).symm

theorem kernelApart_zero : KernelApart 0x1000 ⟨fun _ => 0, fourPages⟩ where
  aligned := by decide
  tables := by
    intro q f _ _ hf
    cases q with
    | nil =>
      obtain rfl := Option.some.inj hf
      decide
    | cons i q =>
      rw [walk_cons, child_zero] at hf
      cases hf
  freeOk := freeOk_fourPages
  few := by decide

theorem loadRaw_keeps_kernel_zero :
    ∃ t k', loadRaw 8 (fun _ => 0) 0 2 (bootKernel ⟨fun _ => 0, fourPages⟩) = some (some t, k') ∧
      KernelKept 0x1000 ⟨fun _ => 0, fourPages⟩
        (loadSpace 0x1000 (fun _ => 0) 0 ⟨fun _ => 0, fourPages⟩).2 := by
  obtain ⟨t, k', h, -⟩ := loadRaw_fourPages (fun _ => 0) (fun _ => 0) 2
  have hheap : ((bootKernel ⟨fun _ => 0, fourPages⟩).heapState []).Ready :=
    (freshHeap_spare (by show fourPages.length ≤ _; decide)).ready
  have hiff := (loadRaw_keeps_kernel_iff kernelApart_zero hheap h).1
  exact ⟨t, k', h, hiff.mpr (Or.inl (child_zero _ _))⟩

/-- Memory with a PML4 at 0x1000 whose slot 256 leads to an empty table at
0x2000. -/
def directMapMem : ByteMem := write64 (fun _ => 0) (0x1000 + 8 * stackSlot.val) 0x2003

theorem child_directMapMem {g : Nat} (hg : Aligned g) (i : Fin 512) :
    child directMapMem g i = if g = 0x1000 ∧ i = stackSlot then some 0x2000 else none := by
  rw [directMapMem, child_write64 (by decide) hg (by decide), Radix.set, child_zero]
  rfl

theorem walk_directMapMem (q : List (Fin 512)) :
    walk (child directMapMem) 0x1000 q =
      if q = [] then some 0x1000 else if q = [stackSlot] then some 0x2000 else none := by
  cases q with
  | nil => rfl
  | cons i q =>
    rw [walk_cons, child_directMapMem (by decide)]
    by_cases hi : i = stackSlot
    · cases q with
      | nil => simp [hi]
      | cons j q =>
        -- the table at 0x2000 is empty
        have hnone : child directMapMem 0x2000 j = none := by
          rw [child_directMapMem (by decide)]
          simp
        simp [hi, walk_cons, hnone]
    · simp [hi]

theorem kernelApart_directMapMem : KernelApart 0x1000 ⟨directMapMem, fourPages⟩ where
  aligned := by decide
  tables := by
    intro q f _ _ hf
    rw [walk_directMapMem] at hf
    split at hf
    · obtain rfl := Option.some.inj hf
      decide
    · split at hf
      · obtain rfl := Option.some.inj hf
        decide
      · cases hf
  freeOk := freeOk_fourPages
  few := by decide

/-- A load does not spare this kernel. -/
theorem not_spares_directMapMem : ¬ SparesKernel 0x1000 0 ⟨directMapMem, fourPages⟩ := by
  have hwalk : walk (child directMapMem) 0x1000 (upperPath userStackVaddr) = none := by
    rw [walk_directMapMem, upperPath_userStackVaddr]
    rfl
  rintro (hslot | hfew | h)
  · rw [child_directMapMem (by decide)] at hslot
    cases hslot
  · exact absurd hfew (by decide)
  · simp only [hwalk] at h
    exact absurd h (by decide)

/-- Where the kernel has a table in slot 256, a load writes to it. -/
theorem loadRaw_disturbs_kernel : ∃ k t k', KernelApart k.kernelCr3 k.vm ∧
    loadRaw 8 (fun _ => 0) 0 2 k = some (some t, k') ∧ ¬ KernelKept k.kernelCr3 k.vm k'.vm := by
  obtain ⟨t, k', h, hvm⟩ := loadRaw_fourPages directMapMem (fun _ => 0) 2
  refine ⟨bootKernel ⟨directMapMem, fourPages⟩, t, k', kernelApart_directMapMem, h, ?_⟩
  rw [hvm]
  show ¬ KernelKept 0x1000 ⟨directMapMem, fourPages⟩ _
  rw [loadSpace_kept_iff _ _ kernelApart_directMapMem]
  exact not_spares_directMapMem

end Orchid
