import Orchid.Memory.Spaces
import Orchid.Process.HeapUse

/-! # The address space a load makes

What `load_raw` does to the page tables before it creates the thread, in a
forest of page tables: the new PML4 becomes the root of a tree of its own, and
loading the image builds on that tree only.

* Only some slots `S` of the new PML4 belong to the tree. The upper half is
  copied from the kernel's PML4, so the tables behind it are shared.
* `loadImage_cases` splits `load_raw` at the point where the stack is mapped.
-/

namespace Orchid

open ByteMem Radix

/-! ## The new PML4 -/

section NewPml4

variable {mem : ByteMem} {kernelCr3 a : Nat} {i : Fin 512}

theorem pte_fill (mem : ByteMem) (c : Nat) (j : Fin 512) : pte (fill mem c 0 pageSize) c j = 0 := by
  have hj := j.isLt
  exact read64_fill_zero (by omega) (by simp only [pageSize]; omega)

theorem child_copyWords_upper {P C : Nat} (hP : Aligned P) (hC : Aligned C)
    (hPC : P ≠ C) {j : Fin 512} (hj : 256 ≤ j.val) :
    child (copyWords mem C P 256 256) C j = child mem P j := by
  have hlt := j.isLt
  have hread : pte (copyWords mem C P 256 256) C j = pte mem P j := by
    refine read64_copyWords hj (by omega) ?_
    unfold Aligned at hP hC
    omega
  rw [child, hread, child]

theorem child_copyWords_lower {P C : Nat} {j : Fin 512} (hj : j.val < 256) :
    child (copyWords mem C P 256 256) C j = child mem C j := by
  have hread : pte (copyWords mem C P 256 256) C j = pte mem C j :=
    read64_congr fun n hn => copyWords_apply_of_outside (by omega)
  rw [child, hread, child]

theorem newPml4_apply {x : Nat} (hx : ¬ InPage a x) : newPml4 kernelCr3 a mem x = mem x := by
  rw [newPml4, copyUpper_apply hx, fill_apply]
  exact if_neg hx

/-- The lower half is empty. -/
theorem child_newPml4_of_lt (hi : i.val < 256) : child (newPml4 kernelCr3 a mem) a i = none := by
  rw [newPml4, child_copyWords_lower hi, child, pte_fill]
  rfl

/-- The upper half is the kernel's. -/
theorem child_newPml4_of_ge (ha : Aligned a) (hk : Aligned kernelCr3) (hne : kernelCr3 ≠ a)
    (hi : 256 ≤ i.val) : child (newPml4 kernelCr3 a mem) a i = child mem kernelCr3 i := by
  rw [newPml4, child_copyWords_upper hk ha hne hi]
  refine child_congr fun x hx => (fill_apply ..).trans (if_neg fun hxa => ?_)
  exact hne (inPage_unique hk ha hx hxa)

/-- A slot of the upper half that is empty in the kernel's PML4 is empty. -/
theorem child_newPml4_of_absent (ha : Aligned a) (hk : Aligned kernelCr3) (hne : kernelCr3 ≠ a)
    (habsent : 256 ≤ i.val → child mem kernelCr3 i = none) :
    child (newPml4 kernelCr3 a mem) a i = none := by
  rcases Nat.lt_or_ge i.val 256 with hlt | hge
  · exact child_newPml4_of_lt hlt
  · rw [child_newPml4_of_ge ha hk hne hge]
    exact habsent hge

end NewPml4

/-! ## The paths of a tree -/

/-- The slot of the PML4 that the stack is mapped through. -/
def stackSlot : Fin 512 := 256

theorem upperPath_userStackVaddr : upperPath userStackVaddr = [stackSlot, 0, 0] := by decide

/-- Paths of at most `len` slots, the first of them one of `S`. -/
def SlotPath (S : Fin 512 → Prop) (len : Nat) (p : List (Fin 512)) : Prop :=
  p.length ≤ len ∧ ∀ i ∈ p.head?, S i

section SlotPath

variable {S S' : Fin 512 → Prop} {len len' : Nat} {i : Fin 512} {p q : List (Fin 512)}

theorem slotPath_nil (S : Fin 512 → Prop) (len : Nat) : SlotPath S len [] := by
  simp [SlotPath]

theorem slotPath_cons : SlotPath S len (i :: p) ↔ p.length + 1 ≤ len ∧ S i := by
  simp [SlotPath]

theorem SlotPath.left (h : SlotPath S len (p ++ q)) (hp : p.length ≤ len') : SlotPath S len' p := by
  cases p with
  | nil => exact slotPath_nil _ _
  | cons i p =>
    rw [List.cons_append, slotPath_cons] at h
    rw [slotPath_cons]
    exact ⟨hp, h.2⟩

theorem SlotPath.mono (h : SlotPath S len p) (hS : ∀ i, S i → S' i) (hlen : len ≤ len') :
    SlotPath S' len' p :=
  ⟨h.1.trans hlen, fun i hi => hS i (h.2 i hi)⟩

theorem slotPath_closed (S : Fin 512 → Prop) (len : Nat) : PrefixClosed (SlotPath S len) := by
  intro p q h
  refine h.left ?_
  have hlen := h.1
  rw [List.length_append] at hlen
  omega

/-- The tables are met one level above the frames. -/
theorem slotPath_below (h : SlotPath S (len + 1) p) : Below (SlotPath S len) p := by
  rintro p' j q' rfl
  refine h.left ?_
  have hlen := h.1
  rw [List.length_append, List.length_cons] at hlen
  omega

theorem slotPath_upperPath {v : Nat} (h : S (Fin.ofNat 512 (pml4Index v))) :
    SlotPath S 3 (upperPath v) := by
  rw [upperPath, slotPath_cons]
  exact ⟨Nat.le_refl _, h⟩

theorem not_slotPath_path (S : Fin 512 → Prop) (v : Nat) : ¬ SlotPath S 3 (path v) := by
  intro h
  have hlen := h.1
  rw [length_path] at hlen
  omega

end SlotPath

/-- Below the new PML4 there is nothing. -/
theorem walk_newPml4 {mem : ByteMem} {kernelCr3 a len : Nat} {S : Fin 512 → Prop} (ha : Aligned a)
    (hk : Aligned kernelCr3) (hne : kernelCr3 ≠ a)
    (habsent : ∀ i, 256 ≤ i.val → S i → child mem kernelCr3 i = none)
    {q : List (Fin 512)} (hq : SlotPath S len q) :
    walk (child (newPml4 kernelCr3 a mem)) a q = if q = [] then some a else none := by
  cases q with
  | nil => rfl
  | cons i q =>
    have hi := (slotPath_cons.mp hq).2
    rw [walk_cons, child_newPml4_of_absent ha hk hne (fun hge => habsent i hge hi)]
    rfl

section Plant

variable {K : Type} {root : K → Nat} {D E : K → List (Fin 512) → Prop} {vm : Vm} {k : K}
  {S : Fin 512 → Prop}

/-- The paths of `D`, and those of a tree at `k` through the slots `S`. -/
def WithTree (D : K → List (Fin 512) → Prop) (k : K) (S : Fin 512 → Prop) (len : Nat) (k' : K)
    (p : List (Fin 512)) : Prop :=
  D k' p ∨ k' = k ∧ SlotPath S len p

theorem tracked_withTree (ht : Tracked D E) (k : K) (S : Fin 512 → Prop) :
    Tracked (WithTree D k S 3) (WithTree E k S 4) where
  closed := by
    intro k' p q h
    rcases h with h | ⟨rfl, h⟩
    · exact Or.inl (ht.closed k' p q h)
    · exact Or.inr ⟨rfl, slotPath_closed S 3 p q h⟩
  sub := by
    intro k' p h
    rcases h with h | ⟨rfl, h⟩
    · exact Or.inl (ht.sub k' p h)
    · exact Or.inr ⟨rfl, h.mono (fun _ hi => hi) (by omega)⟩
  below := by
    intro k' p h p' j q' heq
    rcases h with h | ⟨rfl, h⟩
    · exact Or.inl (ht.below k' p h p' j q' heq)
    · exact Or.inr ⟨rfl, slotPath_below h p' j q' heq⟩

/-- A frame taken from the free stack is filled, and becomes the root of a tree
that is empty at the slots `S`. -/
theorem Forest.newRoot (h : Forest root D E vm) {rest : List Nat} {mem : ByteMem}
    (hfree : vm.free = root k :: rest) (hout : ∀ x, ¬ InPage (root k) x → mem x = vm.mem x)
    (hempty : ∀ i, S i → child mem (root k) i = none) :
    Forest root (WithTree D k S 3) (WithTree E k S 4) ⟨mem, rest⟩ := by
  have hfresh := h.fresh_taken hfree
  have hmem : root k ∈ vm.free := by
    rw [hfree]
    exact List.mem_cons_self
  have hscribble := (h.pop hfree).scribble (h.freshTables hmem) (h.aligned k) hout
  refine hscribble.plant (k := k) (tracked_withTree h.tracked k S) ?_
  intro k' q hq
  rcases hq with hq | ⟨rfl, hq⟩
  · exact Or.inl hq
  cases q with
  | nil =>
    refine Or.inr (Or.inr ⟨rfl, rfl, ?_, h.freeOk.not_mem_rest hfree⟩)
    intro k₁ q₁ hq₁
    rw [h.walk_scribble (h.freshTables hmem) (h.aligned k') hout (h.tracked.below k₁ q₁ hq₁)]
    exact hfresh k₁ q₁ hq₁
  | cons i q =>
    refine Or.inr (Or.inl ?_)
    rw [walk_cons, hempty i (slotPath_cons.mp hq).2]
    rfl

/-- The new PML4 is the root of an empty tree. -/
theorem Forest.newSpace (h : Forest root D E vm) {kernelCr3 : Nat} {rest : List Nat}
    (hfree : vm.free = root k :: rest) (hk : Aligned kernelCr3) (hne : kernelCr3 ≠ root k)
    (habsent : ∀ i, 256 ≤ i.val → S i → child vm.mem kernelCr3 i = none) :
    Forest root (WithTree D k S 3) (WithTree E k S 4)
      ⟨newPml4 kernelCr3 (root k) vm.mem, rest⟩ := by
  refine h.newRoot hfree (fun x hx => newPml4_apply hx) fun i hi => ?_
  exact child_newPml4_of_absent (h.aligned k) hk hne (fun hge => habsent i hge hi)

end Plant

/-! ## Loading the image -/

section Image

variable {K : Type} [DecidableEq K] {root : K → Nat} {D E : K → List (Fin 512) → Prop} {vm : Vm}
  {k : K} {image : Nat → UInt8}

theorem fillCodePage_apply {src chunk phys x : Nat} {mem : ByteMem} (hchunk : chunk ≤ pageSize)
    (hx : ¬ InPage phys x) : fillCodePage image src chunk phys mem x = mem x := by
  simp only [InPage, pageSize] at *
  have hstore : store mem phys (fun i => image (src + i)) chunk x = mem x := by
    rw [store_apply, if_neg (by omega)]
  unfold fillCodePage
  split
  · rw [fill_apply, if_neg (by simp only [pageSize]; omega), hstore]
  · exact hstore

/-- Page 0 is never free, so a result of 0 means that nothing was. -/
theorem Vm.allocPage_of_zero (hok : FreeOk vm.free) (h : vm.allocPage.1 = 0) :
    vm.allocPage.2 = vm := by
  cases hfree : vm.free with
  | nil => rw [Vm.allocPage_of_nil hfree]
  | cons c rest =>
    rw [Vm.allocPage_of_cons hfree] at h
    refine absurd h (hok.nonzero c ?_)
    rw [hfree]
    exact List.mem_cons_self

/-- A round of the loop over the image, with the frame `c`: it is mapped and filled. -/
def codeRound (pml4Phys : Nat) (image : Nat → UInt8) (vaddr src left c : Nat) (vm : Vm) : Vm :=
  let vm := vmmMapUser pml4Phys vaddr c userPageFlags true vm
  { vm with mem := fillCodePage image src (min pageSize left) c vm.mem }

section Round

variable {vaddr src left c : Nat} {rest : List Nat} {r : Bool} {vm₁ vm' : Vm}

/-- The loop is at its end, has no frame for the next page, or makes a round. -/
theorem loadCode_cases {pml4Phys : Nat} (hok : FreeOk vm.free)
    (hcode : loadCode pml4Phys image vaddr src left vm = (r, vm')) :
    (left = 0 ∧ r = true ∧ vm' = vm) ∨ (left ≠ 0 ∧ vm.free = [] ∧ r = false ∧ vm' = vm) ∨
    ∃ c rest vm₁, left ≠ 0 ∧ vm.free = c :: rest ∧
      codeRound pml4Phys image vaddr src left c ⟨vm.mem, rest⟩ = vm₁ ∧
      loadCode pml4Phys image (vaddr + 4096) (src + min 4096 left) (left - min 4096 left) vm₁ =
        (r, vm') := by
  rw [loadCode] at hcode
  by_cases hleft : left = 0
  · rw [if_pos hleft] at hcode
    cases hcode
    exact Or.inl ⟨hleft, rfl, rfl⟩
  rw [if_neg hleft] at hcode
  cases hfree : vm.free with
  | nil =>
    rw [Vm.allocPage_of_nil hfree] at hcode
    cases hcode
    exact Or.inr (Or.inl ⟨hleft, rfl, rfl, rfl⟩)
  | cons c rest =>
    simp only [Vm.allocPage_of_cons hfree, if_neg (hok.nonzero c (mem_of_eq_cons hfree))] at hcode
    exact Or.inr (Or.inr ⟨c, rest, _, hleft, rfl, rfl, hcode⟩)

/-- A round builds on the path to its page, and takes a frame for every missing table. -/
theorem Forest.codeRound (h : Forest root D E vm) (hD : D k (upperPath vaddr))
    (hleaf : ¬ D k (path vaddr)) (hfree : vm.free = c :: rest)
    (hround : codeRound (root k) image vaddr src left c ⟨vm.mem, rest⟩ = vm₁) :
    ∃ taken, Forest root D E vm₁ ∧
      Built root D k (fun q => q <+: path vaddr) vm vm₁ (c :: taken) ∧
      walk (child vm₁.mem) (root k) (path vaddr) = (if
        missing (child vm.mem) (root k) (upperPath vaddr) ≤ rest.length then some c else none) ∧
      vm₁.free = rest.drop (missing (child vm.mem) (root k) (upperPath vaddr)) := by
  have hcmem : c ∈ vm.free := mem_of_eq_cons hfree
  have hca := h.freeOk.aligned c hcmem
  have hflags := mapUserFlags_mod_two userPageFlags true
  rcases h.mapTaken hD hleaf hfree hflags with ⟨taken, hforest, hbuilt, hfresh⟩
  have hpath := h.mapTaken_path hD hleaf hfree hflags
  have hrest := h.mapTaken_free (mapUserFlags userPageFlags true) hD hfree
  rw [Orchid.codeRound, vmmMapUser, if_neg (h.freeOk.nonzero c hcmem)] at hround
  generalize (mapAt (root k) vaddr c (mapUserFlags userPageFlags true) ⟨vm.mem, rest⟩).2 = vm₀
    at hforest hbuilt hfresh hpath hrest hround
  -- the page is no table, so filling it is not seen in any tree
  have hout : ∀ x, ¬ InPage c x →
      fillCodePage image src (min pageSize left) c vm₀.mem x = vm₀.mem x :=
    fun x hx => fillCodePage_apply (Nat.min_le_left _ _) hx
  have hbelow : Below (D k) (path vaddr) := (h.tracked.closed k).below_concat hD
  rw [← hforest.walk_scribble hfresh hca hout hbelow] at hpath
  subst hround
  exact ⟨taken, hforest.scribble hfresh hca hout,
    hbuilt.scribble hforest List.mem_cons_self hca hfresh hout, hpath, hrest⟩

/-- The loop over the image builds on the new address space, as long as its
addresses stay in the user half. -/
theorem loadCode_built (h : Forest root D E vm) {bound : Nat}
    (hpath : ∀ v, v < bound → D k (upperPath v) ∧ ¬ D k (path v))
    (hbound : vaddr + 4096 * vm.free.length ≤ bound)
    (hcode : loadCode (root k) image vaddr src left vm = (r, vm')) :
    ∃ taken, Forest root D E vm' ∧ Built root D k (MapPaths D k) vm vm' taken := by
  induction left using Nat.strong_induction_on generalizing vaddr src vm with
  | _ left ih =>
    rcases loadCode_cases h.freeOk hcode with
      ⟨-, -, rfl⟩ | ⟨-, -, -, rfl⟩ | ⟨c, rest, vm₁, hleft, hfree, hround, hrest⟩
    · exact ⟨[], h, .refl⟩
    · exact ⟨[], h, .refl⟩
    · have hlen : vm.free.length = rest.length + 1 := by rw [hfree, List.length_cons]
      obtain ⟨hD, hleaf⟩ := hpath vaddr (by omega)
      obtain ⟨taken, hforest, hbuilt, -⟩ := h.codeRound hD hleaf hfree hround
      have hshort : vm₁.free.length ≤ rest.length := by
        have := congrArg List.length hbuilt.free
        simp only [hlen, List.length_append, List.length_cons] at this
        omega
      obtain ⟨taken', hforest', hbuilt'⟩ := ih (left - min 4096 left) (by omega) hforest (by omega) hrest
      have hmap := hbuilt.mono fun q hq => mapPaths_of_path (h.tracked.closed k) hD hq
      exact ⟨_, hforest', hmap.trans (h.tracked.closed k) hbuilt'⟩

end Round

theorem pml4Index_lt_of_lt {v : Nat} (hv : v < 2 ^ 47) : pml4Index v < 256 := by
  rw [pml4Index_eq]
  omega

/-- Loading the image builds the new address space. -/
theorem Forest.loadCode (h : Forest root D E vm) {kernelCr3 size : Nat} {S : Fin 512 → Prop}
    {rest : List Nat} (hfree : vm.free = root k :: rest) (hk : Aligned kernelCr3)
    (hne : kernelCr3 ≠ root k) (hlower : ∀ i : Fin 512, i.val < 256 → S i)
    (habsent : ∀ i, 256 ≤ i.val → S i → child vm.mem kernelCr3 i = none)
    (hfew : vm.free.length ≤ maxFreeList) {r : Bool} {vm₂ : Vm}
    (hcode : Orchid.loadCode (root k) image userCodeVaddr 0 size
      ⟨newPml4 kernelCr3 (root k) vm.mem, rest⟩ = (r, vm₂)) :
    ∃ taken, Forest root (WithTree D k S 3) (WithTree E k S 4) vm₂ ∧
      Built root (WithTree D k S 3) k (MapPaths (WithTree D k S 3) k)
        ⟨newPml4 kernelCr3 (root k) vm.mem, rest⟩ vm₂ taken := by
  have hplant := h.newSpace hfree hk hne habsent
  have hpath : ∀ v, v < 2 ^ 47 → WithTree D k S 3 k (upperPath v) ∧
      ¬ WithTree D k S 3 k (path v) := by
    intro v hv
    constructor
    · have hi : (Fin.ofNat 512 (pml4Index v)).val < 256 := by
        rw [val_ofNat_pml4]
        exact pml4Index_lt_of_lt hv
      exact Or.inr ⟨rfl, slotPath_upperPath (hlower _ hi)⟩
    · rintro (hD | ⟨-, hp⟩)
      · exact h.not_tracked (h.fresh_taken hfree) _ hD
      · exact not_slotPath_path _ _ hp
  have hbound : userCodeVaddr + 4096 * rest.length ≤ 2 ^ 47 := by
    have hmax : maxFreeList ≤ 2 ^ 26 := by decide
    rw [hfree, List.length_cons] at hfew
    unfold userCodeVaddr
    omega
  exact loadCode_built hplant hpath hbound hcode

/-- `load_raw` up to the stack page: no page for the PML4; the image did not
fit or there is no page for the stack; or both are there. -/
theorem loadImage_cases (kernelCr3 : Nat) (image : Nat → UInt8) (size : Nat) (hok : FreeOk vm.free) :
    (vm.free = [] ∧ loadImage kernelCr3 image size vm = (none, vm)) ∨
    ∃ a rest, vm.free = a :: rest ∧ ∃ r vm₂,
      loadCode a image userCodeVaddr 0 size ⟨newPml4 kernelCr3 a vm.mem, rest⟩ = (r, vm₂) ∧
      ((r = true → vm₂.free = []) ∧ loadImage kernelCr3 image size vm = (none, vm₂) ∨
        ∃ s rest₂, r = true ∧ vm₂.free = s :: rest₂ ∧ s ≠ 0 ∧
          loadImage kernelCr3 image size vm = (some (a, s), ⟨vm₂.mem, rest₂⟩)) := by
  cases hfree : vm.free with
  | nil =>
    refine Or.inl ⟨rfl, ?_⟩
    simp only [loadImage, Vm.allocPage_of_nil hfree, if_true]
  | cons a rest =>
    have ha0 : a ≠ 0 := hok.nonzero a (mem_of_eq_cons hfree)
    have hsub := loadCode_free a image userCodeVaddr 0 size ⟨newPml4 kernelCr3 a vm.mem, rest⟩
    obtain ⟨⟨r, vm₂⟩, hcode⟩ : ∃ res,
        loadCode a image userCodeVaddr 0 size ⟨newPml4 kernelCr3 a vm.mem, rest⟩ = res := ⟨_, rfl⟩
    rw [hcode] at hsub
    refine Or.inr ⟨a, rest, rfl, r, vm₂, hcode, ?_⟩
    simp only [loadImage, Vm.allocPage_of_cons hfree, if_neg ha0, hcode]
    cases r with
    | false => exact Or.inl ⟨fun h => absurd h Bool.false_ne_true, rfl⟩
    | true =>
      cases hfree₂ : vm₂.free with
      | nil =>
        simp [Vm.allocPage_of_nil hfree₂]
      | cons s rest₂ =>
        have hs0 : s ≠ 0 := by
          refine hok.nonzero s ?_
          rw [hfree]
          exact List.mem_cons_of_mem a (hsub.subset (mem_of_eq_cons hfree₂))
        simp only [Vm.allocPage_of_cons hfree₂, if_neg hs0]
        exact Or.inr ⟨s, rest₂, trivial, rfl, hs0, rfl⟩

end Image

end Orchid
