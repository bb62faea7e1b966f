import Orchid.Process.LoadFrames
import Orchid.Syscall.UserBytes

/-! # What a load puts into the new address space

`vmm_map_user` does not report that it ran out of pages. In the loop over the
image this does no harm: a map that fails has emptied the free stack, so the
next `pmm_alloc_page` fails too, the one for the stack at the latest, and
`load_raw` returns NULL.

* `Beside P` says what a step leaves alone: the walks of the paths in `P`, and
  the bytes of the pages at their ends.
* `loadCode_pages` is the loop: if there is a free frame left after it, every
  page of the image is where it belongs.
* The stack and the heap are mapped in other trees, or at other paths.
-/

namespace Orchid

open ByteMem Radix AddressSpace

/-! ## What a map leaves alone -/

section Beside

variable {K : Type} {root : K → Nat} {D E P Q : K → List (Fin 512) → Prop} {vm vm₁ vm₂ : Vm}
  {k k' : K} {q : List (Fin 512)} {c : Nat} {rest : List Nat}

/-- From `vm` to `vm'` the paths in `P` lead where they did, and the pages they
lead to have the same bytes. -/
structure Beside (root : K → Nat) (D E P : K → List (Fin 512) → Prop) (vm vm' : Vm) : Prop where
  walks : ∀ k q, Below (D k) q → P k q →
    walk (child vm'.mem) (root k) q = walk (child vm.mem) (root k) q
  bytes : ∀ k q f x, E k q → ¬ D k q → P k q → walk (child vm.mem) (root k) q = some f →
    InPage f x → vm'.mem x = vm.mem x

theorem Beside.refl : Beside root D E P vm vm where
  walks := fun _ _ _ _ => rfl
  bytes := fun _ _ _ _ _ _ _ _ _ => rfl

theorem Beside.trans (ht : Tracked D E) (h : Beside root D E P vm vm₁)
    (h' : Beside root D E P vm₁ vm₂) : Beside root D E P vm vm₂ where
  walks := fun k q hq hP => (h'.walks k q hq hP).trans (h.walks k q hq hP)
  bytes := by
    intro k q f x hE hD hP hf hx
    have hf₁ := (h.walks k q (ht.below k q hE) hP).trans hf
    exact (h'.bytes k q f x hE hD hP hf₁ hx).trans (h.bytes k q f x hE hD hP hf hx)

theorem Beside.mono (h : Beside root D E P vm vm₁) (hPQ : ∀ k q, Q k q → P k q) :
    Beside root D E Q vm vm₁ where
  walks := fun k q hq hQ => h.walks k q hq (hPQ k q hQ)
  bytes := fun k q f x hE hD hQ => h.bytes k q f x hE hD (hPQ k q hQ)

/-- A page that is not free and is no table keeps its bytes while frames are
taken and tables of `k` are written. -/
theorem Built.page_kept {R : List (Fin 512) → Prop} {taken : List Nat} {f x : Nat}
    (h : Forest root D E vm) (hb : Built root D k R vm vm₁ taken) (hE : E k' q) (hpage : ¬ D k' q)
    (hf : walk (child vm.mem) (root k') q = some f) (hx : InPage f x) : vm₁.mem x = vm.mem x := by
  have hfa := walk_aligned (h.aligned k') hf
  by_contra hne
  rcases hb.frame x hne with ⟨c', hc', hin⟩ | ⟨p, g, hp, hg, hin⟩
  · have hfree : c' ∈ vm.free := by
      rw [hb.free]
      exact List.mem_append_left _ hc'
    obtain rfl := inPage_unique hfa (h.freeOk.aligned c' hfree) hx hin
    exact h.fresh f hfree k' q hE hf
  · obtain rfl := inPage_unique hfa (walk_aligned (h.aligned k) hg) hx hin
    rcases h.distinct k' q k p f hE (h.tracked.sub k p hp) hf hg with ⟨rfl, rfl⟩
    exact hpage hp

/-- Building on the path to a page. -/
theorem Built.beside {virt : Nat} {taken : List Nat} (h : Forest root D E vm)
    (hb : Built root D k (fun q => q <+: path virt) vm vm₁ taken) :
    Beside root D E (fun k' q => ¬ (k' = k ∧ q <+: path virt)) vm vm₁ where
  walks := by
    intro k' q hq hne
    rcases hb.walks k' q hq with heq | ⟨hk, hpre, -⟩
    · exact heq
    · exact absurd ⟨hk, hpre⟩ hne
  bytes := fun _ _ _ _ hE hpage _ hf hx => hb.page_kept h hE hpage hf hx

variable [DecidableEq K]

/-- Mapping a frame just taken. -/
theorem Forest.mapTaken_beside (h : Forest root D E vm) {virt flags : Nat}
    (hD : D k (upperPath virt)) (hleaf : ¬ D k (path virt)) (hfree : vm.free = c :: rest)
    (hflags : flags % 2 = 1) :
    Beside root D E (fun k' q => ¬ (k' = k ∧ q <+: path virt)) vm
      (mapAt (root k) virt c flags ⟨vm.mem, rest⟩).2 := by
  rcases h.mapTaken hD hleaf hfree hflags with ⟨taken, -, hbuilt, -⟩
  exact hbuilt.beside h

end Beside

/-! ## The loop over the image -/

section Image

variable {K : Type} [DecidableEq K] {root : K → Nat} {D E : K → List (Fin 512) → Prop} {vm : Vm}
  {k : K} {c : Nat} {rest : List Nat} {image : Nat → UInt8}

/-- The paths that a load of `left` bytes at `vaddr` does not map. -/
def OffImage (k : K) (vaddr left : Nat) (k' : K) (q : List (Fin 512)) : Prop :=
  ∀ n, 4096 * n < left → ¬ (k' = k ∧ q <+: path (vaddr + 4096 * n))

/-- A page of the image, from byte `src` on, with zeros after `left` bytes. -/
def HoldsPage (image : Nat → UInt8) (src left : Nat) (mem : ByteMem) (c : Nat) : Prop :=
  ∀ i < 4096, mem (c + i) = if i < left then image (src + i) else 0

omit [DecidableEq K] in
theorem holdsPage_fillCodePage (mem : ByteMem) (src left c : Nat) :
    HoldsPage image src left (fillCodePage image src (min pageSize left) c mem) c := by
  intro i hi
  have hsize : pageSize = 4096 := rfl
  by_cases hchunk : min pageSize left < pageSize
  · simp only [fillCodePage, if_pos hchunk, fill_apply, store_apply]
    by_cases hlt : i < left
    · rw [if_neg (by omega), if_pos (by omega), if_pos hlt, Nat.add_sub_cancel_left]
    · rw [if_pos (by omega), if_neg hlt]
  · simp only [fillCodePage, if_neg hchunk, store_apply]
    rw [if_pos (by omega), if_pos (by omega), Nat.add_sub_cancel_left]

omit [DecidableEq K] in
/-- The later rounds leave a page of the image as it is. -/
theorem laterRounds_keep {vm₂ vm' : Vm} {vaddr src left left' : Nat} (ht : Tracked D E)
    (hE : E k (path vaddr)) (hleaf : ¬ D k (path vaddr)) (hvaddr : vaddr < 2 ^ 47)
    (hend : ∀ n, 4096 * n < left' → vaddr + 4096 + 4096 * n < 2 ^ 47)
    (hbeside : Beside root D E (OffImage k (vaddr + 4096) left') vm₂ vm')
    (hwalk : walk (child vm₂.mem) (root k) (path vaddr) = some c)
    (hholds : HoldsPage image src left vm₂.mem c) :
    walk (child vm'.mem) (root k) (path vaddr) = some c ∧ HoldsPage image src left vm'.mem c := by
  have hoff : OffImage k (vaddr + 4096) left' k (path vaddr) := by
    rintro n hn ⟨-, hpre⟩
    have hpage := hend n hn
    have heq := pageOf_eq_of_path hpre
    unfold pageOf at heq
    omega
  refine ⟨(hbeside.walks k _ (ht.below k _ hE) hoff).trans hwalk, ?_⟩
  intro i hi
  rw [hbeside.bytes k _ c (c + i) hE hleaf hoff hwalk ⟨by omega, by omega⟩]
  exact hholds i hi

/-- The loop over the image, at addresses of the user half. If frames are left
after it, every page was mapped, and has its part of the image. -/
theorem loadCode_pages (h : Forest root D E vm)
    (hpath : ∀ v, v < 2 ^ 47 → D k (upperPath v) ∧ ¬ D k (path v) ∧ E k (path v))
    {vaddr src left : Nat} (hend : ∀ n, 4096 * n < left → vaddr + 4096 * n < 2 ^ 47) {r : Bool} {vm' : Vm}
    (hcode : loadCode (root k) image vaddr src left vm = (r, vm')) :
    Forest root D E vm' ∧ vm'.free <:+ vm.free ∧ Beside root D E (OffImage k vaddr left) vm vm' ∧
      (r = true → vm'.free ≠ [] → ∀ n, 4096 * n < left → ∃ c ∈ vm.free,
        walk (child vm'.mem) (root k) (path (vaddr + 4096 * n)) = some c ∧
          HoldsPage image (src + 4096 * n) (left - 4096 * n) vm'.mem c) := by
  -- induction on the bytes to go
  induction left using Nat.strong_induction_on generalizing vaddr src vm with
  | _ left ih =>
    rcases loadCode_cases h.freeOk hcode with
      ⟨rfl, -, rfl⟩ | ⟨-, -, rfl, rfl⟩ | ⟨c, rest, vm₁, hleft, hfree, hround, hgo⟩
    · refine ⟨h, List.suffix_refl _, .refl, ?_⟩
      intro _ _ n hn
      omega
    · exact ⟨h, List.suffix_refl _, .refl, fun hr => absurd hr Bool.false_ne_true⟩
    · have hvaddr : vaddr < 2 ^ 47 := hend 0 (by omega)
      rcases hpath vaddr hvaddr with ⟨hD, hleaf, hE⟩
      rcases h.codeRound hD hleaf hfree hround with ⟨taken, hforest₁, hbuilt, hmapped, hrest⟩
      have hbeside := hbuilt.beside h
      have hsuffix : vm₁.free <:+ rest := hrest ▸ List.drop_suffix _ _
      have hholds : HoldsPage image src left vm₁.mem c := hround ▸ holdsPage_fillCodePage _ src left c
      have hend' : ∀ n, 4096 * n < left - min 4096 left → vaddr + 4096 + 4096 * n < 2 ^ 47 := by
        intro n hn
        have hnext := hend (n + 1) (by omega)
        omega
      rcases ih (left - min 4096 left) (by omega) hforest₁ hend' hgo with
        ⟨hforest', hsuffix', hbeside', hpages⟩
      rw [hfree]
      -- the pages of the later rounds
      have hlater : ∀ n, vaddr + 4096 + 4096 * n = vaddr + 4096 * (n + 1) := by
        intro n
        omega
      refine ⟨hforest', ?_, ?_, ?_⟩
      · exact (hsuffix'.trans hsuffix).trans (List.suffix_cons c rest)
      · refine (hbeside.mono ?_).trans h.tracked (hbeside'.mono ?_)
        · intro k' q hoff
          exact hoff 0 (by omega)
        · intro k' q hoff n hn
          rw [hlater]
          exact hoff (n + 1) (by omega)
      · intro hr hne n hn
        -- frames are left, so the map of this page had all it needed
        have hwalk : walk (child vm₁.mem) (root k) (path vaddr) = some c := by
          rw [hmapped, if_pos]
          by_contra hlen
          rw [hrest, List.drop_eq_nil_of_le (by omega)] at hsuffix'
          exact hne (List.suffix_nil.mp hsuffix')
        cases n with
        | zero =>
          refine ⟨c, List.mem_cons_self, ?_⟩
          exact laterRounds_keep h.tracked hE hleaf hvaddr hend' hbeside' hwalk hholds
        | succ n =>
          rcases hpages hr hne n (by omega) with ⟨c', hc', hwalk, hpage⟩
          refine ⟨c', List.mem_cons_of_mem c (hsuffix.subset hc'), ?_, ?_⟩
          · rw [← hlater]
            exact hwalk
          · have hfull : min 4096 left = 4096 := by omega
            rw [hfull] at hpage
            rw [show src + 4096 * (n + 1) = src + 4096 + 4096 * n by omega,
              show left - 4096 * (n + 1) = left - 4096 - 4096 * n by omega]
            exact hpage

end Image

/-! ## The new address space beside the kernel's -/

section Space

variable {kernelCr3 a c size : Nat} {rest : List Nat} {vm vm' : Vm} {image : Nat → UInt8}
  {S : Fin 512 → Prop}

/-- The kernel's PML4 and the new one. -/
def twoRoots (kernelCr3 a : Nat) (kernel : Bool) : Nat := if kernel then kernelCr3 else a

/-- The tables of the kernel. -/
def kernelOnly (kernel : Bool) (p : List (Fin 512)) : Prop := kernel = true ∧ p.length ≤ 3

/-- The slots of the new PML4 that are not the kernel's: the user half, and that
of the stack if the kernel has no table there. -/
def OwnSlot (kernelCr3 : Nat) (mem : ByteMem) (i : Fin 512) : Prop :=
  i.val < 256 ∨ i = stackSlot ∧ child mem kernelCr3 stackSlot = none

/-- A path through the user half of the new PML4. -/
def InUserHalf (kernel : Bool) (q : List (Fin 512)) : Prop :=
  kernel = false ∧ ∃ i q', q = i :: q' ∧ i.val < 256

theorem inUserHalf_path {v : Nat} (hv : v < 2 ^ 47) : InUserHalf false (path v) := by
  refine ⟨rfl, Fin.ofNat 512 (pml4Index v), _, rfl, ?_⟩
  rw [val_ofNat_pml4]
  exact pml4Index_lt_of_lt hv

theorem forest_kernelOnly (hwf : WellFormed kernelCr3 vm) (ha : Aligned a) :
    Forest (twoRoots kernelCr3 a) kernelOnly kernelOnly vm where
  tracked :=
    { closed := by
        rintro b p q ⟨hb, hlen⟩
        rw [List.length_append] at hlen
        exact ⟨hb, by omega⟩
      sub := fun _ _ h => h
      below := by
        rintro b p ⟨hb, hlen⟩ p' j q' rfl
        rw [List.length_append] at hlen
        exact ⟨hb, by omega⟩ }
  aligned := by
    intro b
    cases b with
    | false => exact ha
    | true => exact hwf.aligned
  distinct := by
    rintro b p b' p' f ⟨rfl, hlen⟩ ⟨rfl, hlen'⟩ hf hf'
    exact ⟨rfl, hwf.distinct p p' f hlen hlen' hf hf'⟩
  fresh := by
    rintro c hc b p ⟨rfl, hlen⟩ hf
    exact hwf.notFree p c hlen hf hc
  freeOk := hwf.freeOk

/-- The two address spaces when the new PML4 has been made. -/
theorem forest_newPml4 (hwf : WellFormed kernelCr3 vm) (hfree : vm.free = a :: rest) :
    Forest (twoRoots kernelCr3 a)
      (WithTree kernelOnly false (OwnSlot kernelCr3 vm.mem) 3)
      (WithTree kernelOnly false (OwnSlot kernelCr3 vm.mem) 4)
      ⟨newPml4 kernelCr3 a vm.mem, rest⟩ := by
  have hforest := forest_kernelOnly hwf (hwf.freeOk.aligned a (mem_of_eq_cons hfree))
  have hne : kernelCr3 ≠ a := by
    rintro rfl
    exact hwf.notFree [] kernelCr3 (Nat.zero_le _) rfl (mem_of_eq_cons hfree)
  refine hforest.newSpace (k := false) hfree hwf.aligned hne ?_
  rintro i hge (hlt | ⟨rfl, hnone⟩)
  · omega
  · exact hnone

/-- The paths of the code are paths of the new tree. -/
theorem withTree_path (hS : ∀ i : Fin 512, i.val < 256 → S i) {v : Nat} (hv : v < 2 ^ 47) :
    WithTree kernelOnly false S 3 false (upperPath v) ∧
      ¬ WithTree kernelOnly false S 3 false (path v) ∧
      WithTree kernelOnly false S 4 false (path v) := by
  have hi : S (Fin.ofNat 512 (pml4Index v)) := by
    apply hS
    rw [val_ofNat_pml4]
    exact pml4Index_lt_of_lt hv
  refine ⟨Or.inr ⟨rfl, slotPath_upperPath hi⟩, ?_, Or.inr ⟨rfl, ?_⟩⟩
  · rintro (⟨hfalse, -⟩ | ⟨-, hpath⟩)
    · cases hfalse
    · exact not_slotPath_path S v hpath
  · rw [path, upperPath, List.cons_append, slotPath_cons]
    exact ⟨Nat.le_refl _, hi⟩

/-- Every address has a path of kernel tables. -/
theorem withTree_kernel (v : Nat) :
    WithTree kernelOnly false S 3 true (upperPath v) ∧
      ¬ WithTree kernelOnly false S 3 true (path v) := by
  refine ⟨Or.inl ⟨rfl, (length_upperPath v).le⟩, ?_⟩
  rintro (⟨-, hlen⟩ | ⟨hfalse, -⟩)
  · rw [length_path] at hlen
    omega
  · cases hfalse

/-- The points that a load which makes an address space goes through. -/
theorem loadSpace_of_some (hok : FreeOk vm.free)
    (hspace : loadSpace kernelCr3 image size vm = (some a, vm')) :
    ∃ rest vm₂ s rest₂, vm.free = a :: rest ∧
      loadCode a image userCodeVaddr 0 size ⟨newPml4 kernelCr3 a vm.mem, rest⟩ = (true, vm₂) ∧
      vm₂.free = s :: rest₂ ∧
      loadImage kernelCr3 image size vm = (some (a, s), ⟨vm₂.mem, rest₂⟩) ∧
      vmmMapUser a userStackVaddr s userPageFlags true ⟨vm₂.mem, rest₂⟩ = vm' := by
  rcases loadImage_cases kernelCr3 image size hok with
    ⟨-, himage⟩ | ⟨b, rest, hfree, r, vm₂, hcode, ⟨-, himage⟩ | ⟨s, rest₂, rfl, hfree₂, hs, himage⟩⟩
  · rw [loadSpace, himage] at hspace
    cases hspace
  · rw [loadSpace, himage] at hspace
    cases hspace
  · rw [loadSpace, himage] at hspace
    cases hspace
    exact ⟨rest, vm₂, s, rest₂, hfree, hcode, hfree₂, himage, rfl⟩

/-- After the loop the new PML4 has the kernel's entry for the stack. -/
theorem stackSlot_kept {E : Bool → List (Fin 512) → Prop} {vm₂ : Vm} {vaddr : Nat}
    (hwf : WellFormed kernelCr3 vm) (hfree : vm.free = a :: rest)
    (h : Forest (twoRoots kernelCr3 a) (WithTree kernelOnly false S 3) E vm₂)
    (hbeside : Beside (twoRoots kernelCr3 a) (WithTree kernelOnly false S 3) E
      (OffImage false vaddr size) ⟨newPml4 kernelCr3 a vm.mem, rest⟩ vm₂)
    (hend : ∀ n, 4096 * n < size → vaddr + 4096 * n < 2 ^ 47) :
    child vm₂.mem a stackSlot = child vm.mem kernelCr3 stackSlot ∧
      child vm₂.mem kernelCr3 stackSlot = child vm.mem kernelCr3 stackSlot := by
  have ha := hwf.freeOk.aligned a (mem_of_eq_cons hfree)
  have hne : kernelCr3 ≠ a := by
    rintro rfl
    exact hwf.notFree [] kernelCr3 (Nat.zero_le _) rfl (mem_of_eq_cons hfree)
  have hbelow : ∀ b, WithTree kernelOnly false S 3 b [] →
      Below (WithTree kernelOnly false S 3 b) [stackSlot] :=
    fun b hb => (h.tracked.closed b).below_concat (p := []) hb
  constructor
  · have hoff : OffImage false vaddr size false [stackSlot] := by
      rintro n hn ⟨-, q, hpre⟩
      have hlow := pml4Index_lt_of_lt (hend n hn)
      have hslot := congrArg Fin.val (List.cons.inj hpre).1
      rw [val_ofNat_pml4] at hslot
      rw [← hslot] at hlow
      exact absurd hlow (by decide)
    have hwalk := hbeside.walks false [stackSlot] (hbelow false (Or.inr ⟨rfl, slotPath_nil _ _⟩)) hoff
    rw [walk_singleton, walk_singleton] at hwalk
    exact hwalk.trans (child_newPml4_of_ge ha hwf.aligned hne (by decide))
  · have hoff : OffImage false vaddr size true [stackSlot] := by
      rintro n hn ⟨hfalse, -⟩
      cases hfalse
    have hwalk := hbeside.walks true [stackSlot] (hbelow true (Or.inl ⟨rfl, Nat.zero_le _⟩)) hoff
    rw [walk_singleton, walk_singleton] at hwalk
    refine hwalk.trans (child_congr fun x hx => newPml4_apply fun hin => hne ?_)
    exact inPage_unique hwf.aligned ha hx hin

/-- Through a table of the kernel the stack is mapped as in the kernel's own
address space. -/
theorem mapAt_stack {mem : ByteMem} {g s flags : Nat} {free : List Nat}
    (ha : child mem a stackSlot = some g) (hk : child mem kernelCr3 stackSlot = some g) :
    mapAt a userStackVaddr s flags ⟨mem, free⟩ =
      mapAt kernelCr3 userStackVaddr s flags ⟨mem, free⟩ := by
  have hdescend : ∀ r, child mem r stackSlot = some g →
      descend r (upperPath userStackVaddr) ⟨mem, free⟩ = descend g [0, 0] ⟨mem, free⟩ := by
    intro r hr
    have hpresent : ensurePageTable (r + 8 * stackSlot.val) ⟨mem, free⟩ = ⟨mem, free⟩ :=
      ensurePageTable_of_present hr
    rw [upperPath_userStackVaddr, descend, hpresent]
    simp only [hr]
  rw [mapAt_eq_descend, mapAt_eq_descend, hdescend a ha, hdescend kernelCr3 hk]

/-- Where the kernel has no table for the stack, the new PML4 gets its own. -/
theorem withTree_ownStack {mem : ByteMem} (hslot : child mem kernelCr3 stackSlot = none) :
    WithTree kernelOnly false (OwnSlot kernelCr3 mem) 3 false (upperPath userStackVaddr) ∧
      ¬ WithTree kernelOnly false (OwnSlot kernelCr3 mem) 3 false (path userStackVaddr) := by
  constructor
  · exact Or.inr ⟨rfl, slotPath_upperPath (Or.inr ⟨by decide, hslot⟩)⟩
  · rintro (⟨hfalse, -⟩ | ⟨-, hpath⟩)
    · cases hfalse
    · exact not_slotPath_path _ _ hpath

/-- Mapping the stack leaves the user half alone. -/
theorem mapStack_beside {D E : Bool → List (Fin 512) → Prop}
    (hD : D = WithTree kernelOnly false (OwnSlot kernelCr3 vm.mem) 3)
    {vm₂ vm₃ : Vm} {s : Nat} {rest₂ : List Nat} (h : Forest (twoRoots kernelCr3 a) D E vm₂)
    (ha : child vm₂.mem a stackSlot = child vm.mem kernelCr3 stackSlot)
    (hk : child vm₂.mem kernelCr3 stackSlot = child vm.mem kernelCr3 stackSlot)
    (hfree : vm₂.free = s :: rest₂)
    (hmap : vmmMapUser a userStackVaddr s userPageFlags true ⟨vm₂.mem, rest₂⟩ = vm₃) :
    Forest (twoRoots kernelCr3 a) D E vm₃ ∧
      Beside (twoRoots kernelCr3 a) D E InUserHalf vm₂ vm₃ := by
  have hflags := mapUserFlags_mod_two userPageFlags true
  rw [vmmMapUser, if_neg (h.freeOk.nonzero s (mem_of_eq_cons hfree))] at hmap
  -- no path of the user half begins like that of the stack
  have haway : ∀ b q, InUserHalf b q → ¬ q <+: path userStackVaddr := by
    rintro b q ⟨-, i, q', rfl, hi⟩ ⟨q'', hpre⟩
    rw [path, upperPath_userStackVaddr] at hpre
    rw [(List.cons.inj hpre).1] at hi
    exact absurd hi (by decide)
  -- it is mapped below the new PML4, or below the kernel's
  have hstep : ∃ b, D b (upperPath userStackVaddr) ∧ ¬ D b (path userStackVaddr) ∧
      (mapAt (twoRoots kernelCr3 a b) userStackVaddr s (mapUserFlags userPageFlags true)
        ⟨vm₂.mem, rest₂⟩).2 = vm₃ := by
    rw [hD]
    cases hslot : child vm.mem kernelCr3 stackSlot with
    | none =>
      exact ⟨false, (withTree_ownStack hslot).1, (withTree_ownStack hslot).2, hmap⟩
    | some g =>
      refine ⟨true, (withTree_kernel _).1, (withTree_kernel _).2, ?_⟩
      rw [hslot] at ha hk
      rw [← hmap, mapAt_stack ha hk]
      rfl
  rcases hstep with ⟨b, hup, hleaf, heq⟩
  have hbeside := h.mapTaken_beside hup hleaf hfree hflags
  rcases h.mapTaken hup hleaf hfree hflags with ⟨taken, hforest, -, -⟩
  rw [heq] at hbeside hforest
  exact ⟨hforest, hbeside.mono fun b' q hq hpre => haway b' q hq hpre.2⟩

/-- A page mapped for the kernel leaves the new address space alone. -/
theorem mapStep_beside {D E : Bool → List (Fin 512) → Prop}
    (hD : D = WithTree kernelOnly false S 3) (h : Forest (twoRoots kernelCr3 a) D E vm)
    (hstep : MapStep kernelCr3 vm vm') :
    Forest (twoRoots kernelCr3 a) D E vm' ∧
      Beside (twoRoots kernelCr3 a) D E InUserHalf vm vm' := by
  cases hstep with
  | failed hnone =>
    rw [Vm.allocPage_of_zero h.freeOk hnone]
    exact ⟨h, .refl⟩
  | page v flags hsome =>
    rcases Vm.allocPage_of_ne hsome with ⟨c, rest, hfree, heq⟩
    rw [heq] at hsome ⊢
    rw [vmmMap, if_neg hsome]
    have hup : D true (upperPath v) := hD ▸ (withTree_kernel v).1
    have hleaf : ¬ D true (path v) := hD ▸ (withTree_kernel v).2
    have hflags := mapFlags_mod_two flags
    rcases h.mapTaken hup hleaf hfree hflags with ⟨taken, hforest, -, -⟩
    refine ⟨hforest, (h.mapTaken_beside hup hleaf hfree hflags).mono ?_⟩
    rintro b q ⟨rfl, -⟩ ⟨hfalse, -⟩
    cases hfalse

theorem mapSteps_beside {D E : Bool → List (Fin 512) → Prop}
    (hD : D = WithTree kernelOnly false S 3) (h : Forest (twoRoots kernelCr3 a) D E vm)
    (hsteps : Relation.ReflTransGen (MapStep kernelCr3) vm vm') :
    Forest (twoRoots kernelCr3 a) D E vm' ∧
      Beside (twoRoots kernelCr3 a) D E InUserHalf vm vm' := by
  induction hsteps with
  | refl => exact ⟨h, .refl⟩
  | tail _ hstep ih =>
    rcases mapStep_beside hD ih.1 hstep with ⟨hforest, hbeside⟩
    exact ⟨hforest, ih.2.trans h.tracked hbeside⟩

end Space

/-! ## `load_raw` -/

/-- The end of the last page of an image of `size` bytes. -/
def pageEnd (size : Nat) : Nat := 4096 * ((size + 4095) / 4096)

/-- The address space at `a` has the image, in frames out of `frames`, and no
other page in its user half. -/
structure Installed (image : Nat → UInt8) (size : Nat) (frames : List Nat) (mem : ByteMem)
    (a : Nat) : Prop where
  bytes : ∀ i < size, Mapped mem a (userCodeVaddr + i) ∧
    mem (userVirtToPhys mem a (userCodeVaddr + i)) = image i
  zeros : ∀ i, size ≤ i → i < pageEnd size → Mapped mem a (userCodeVaddr + i) ∧
    mem (userVirtToPhys mem a (userCodeVaddr + i)) = 0
  taken : ∀ v f, userCodeVaddr ≤ v → v < userCodeVaddr + pageEnd size →
    walk (child mem) a (path v) = some f → f ∈ frames
  distinct : DistinctFrames mem a userCodeVaddr (pageEnd size)
  others : ∀ v < 2 ^ 48, pml4Index v < 256 → Mapped mem a v →
    userCodeVaddr ≤ v ∧ v < userCodeVaddr + pageEnd size

section Raw

variable {k k' : Kernel} {fuel size a : Nat} {image : Nat → UInt8} {proc : ProcPtr} {t : Tid}

/-- Each byte of the image's pages. -/
theorem byte_of_pages {mem : ByteMem} {frames : List Nat}
    (hpages : ∀ n, 4096 * n < size → ∃ c ∈ frames,
      walk (child mem) a (path (userCodeVaddr + 4096 * n)) = some c ∧
        HoldsPage image (4096 * n) (size - 4096 * n) mem c) {i : Nat} (hi : i < pageEnd size) :
    ∃ c ∈ frames, walk (child mem) a (path (userCodeVaddr + i)) = some c ∧
      mem (userVirtToPhys mem a (userCodeVaddr + i)) = if i < size then image i else 0 := by
  have hn : 4096 * (i / 4096) < size := by
    unfold pageEnd at hi
    omega
  rcases hpages (i / 4096) hn with ⟨c, hc, hwalk, hholds⟩
  have hsame : (userCodeVaddr + i) / 4096 = (userCodeVaddr + 4096 * (i / 4096)) / 4096 := by
    unfold userCodeVaddr
    omega
  rw [← walk_same_page hsame] at hwalk
  refine ⟨c, hc, hwalk, ?_⟩
  have hoffset : (userCodeVaddr + i) % 4096 = i % 4096 := by
    unfold userCodeVaddr
    omega
  rw [userVirtToPhys_of_walk hwalk, hoffset, hholds (i % 4096) (by omega)]
  by_cases hlt : i < size
  · rw [if_pos (by omega), if_pos hlt, show 4096 * (i / 4096) + i % 4096 = i by omega]
  · rw [if_neg (by omega), if_neg hlt]

/-- What a load that returns a thread has left in memory. -/
theorem loadRaw_memory (hwf : WellFormed k.kernelCr3 k.vm) (hsize : size < 2 ^ 46)
    (h : loadRaw fuel image size proc k = some (some t, k')) :
    ∃ a D E, (k'.procs proc).pml4Phys = a ∧ Forest (twoRoots k.kernelCr3 a) D E k'.vm ∧
      (∀ v < 2 ^ 47, E false (path v)) ∧
      (∀ n, 4096 * n < size → ∃ c ∈ k.vm.free,
        walk (child k'.vm.mem) a (path (userCodeVaddr + 4096 * n)) = some c ∧
          HoldsPage image (4096 * n) (size - 4096 * n) k'.vm.mem c) ∧
      ∀ v < 2 ^ 47, (∀ n, 4096 * n < size → v / 4096 ≠ (userCodeVaddr + 4096 * n) / 4096) →
        walk (child k'.vm.mem) a (path v) = none := by
  cases loadRaw_outcome h with
  | @space a vm₃ _ _ hspace hthread =>
    rcases loadSpace_of_some hwf.freeOk hspace with
      ⟨rest, vm₂, s, rest₂, hfree, hcode, hfree₂, -, hstack⟩
    rcases Kernel.threadCreateUser_mapSteps hthread with ⟨hsteps, hprocs⟩
    have hforest := forest_newPml4 hwf hfree
    have hown : ∀ i : Fin 512, i.val < 256 → OwnSlot k.kernelCr3 k.vm.mem i :=
      fun i hi => Or.inl hi
    have hend : ∀ n, 4096 * n < size → userCodeVaddr + 4096 * n < 2 ^ 47 := by
      intro n hn
      unfold userCodeVaddr
      omega
    rcases loadCode_pages (k := false) hforest (fun v hv => withTree_path hown hv) hend hcode with
      ⟨hforest₂, -, hbeside₂, hpages⟩
    rcases stackSlot_kept hwf hfree hforest₂ hbeside₂ hend with ⟨ha, hk⟩
    rcases mapStack_beside rfl hforest₂ ha hk hfree₂ hstack with ⟨hforest₃, hbeside₃⟩
    rcases mapSteps_beside rfl hforest₃ hsteps with ⟨hforest', hbeside'⟩
    have hafter := hbeside₃.trans hforest₂.tracked hbeside'
    have hne : vm₂.free ≠ [] := by
      rw [hfree₂]
      exact List.cons_ne_nil s rest₂
    refine ⟨a, _, _, ?_, hforest', fun v hv => (withTree_path hown hv).2.2, ?_, ?_⟩
    · rw [hprocs]
      exact congrArg Process.pml4Phys (Kernel.modifyProc_self _ proc _)
    · intro n hn
      have hv := hend n hn
      rcases hpages rfl hne n hn with ⟨c, hc, hwalk, hholds⟩
      rcases withTree_path hown hv with ⟨-, hpage, hE⟩
      rw [Nat.zero_add] at hholds
      refine ⟨c, ?_, ?_, ?_⟩
      · rw [hfree]
        exact List.mem_cons_of_mem a hc
      · exact (hafter.walks false _ (hforest₂.tracked.below _ _ hE) (inUserHalf_path hv)).trans hwalk
      · intro i hi
        rw [hafter.bytes false _ c (c + i) hE hpage (inUserHalf_path hv) hwalk ⟨by omega, by omega⟩]
        exact hholds i hi
    · intro v hv hoff
      have hbelow := hforest₂.tracked.below _ _ (withTree_path hown hv).2.2
      have hoff' : OffImage false userCodeVaddr size false (path v) := by
        rintro n hn ⟨-, hpre⟩
        have heq := pageOf_eq_of_path hpre
        have hlt := hend n hn
        apply hoff n hn
        unfold pageOf at heq
        omega
      have hwalk₂ := hbeside₂.walks false (path v) hbelow hoff'
      have hwalk' := hafter.walks false (path v) hbelow (inUserHalf_path hv)
      refine hwalk'.trans (hwalk₂.trans ?_)
      -- the lower half of the new PML4 was empty
      show walk (child (newPml4 k.kernelCr3 a k.vm.mem)) a (path v) = none
      have hslot : (Fin.ofNat 512 (pml4Index v)).val < 256 := by
        rw [val_ofNat_pml4]
        exact pml4Index_lt_of_lt hv
      rw [path, upperPath, List.cons_append, walk_cons, child_newPml4_of_lt hslot]
      rfl

/-- If `load_raw` returns a thread, the image is installed, however few pages
were left. -/
theorem loadRaw_installs (hwf : WellFormed k.kernelCr3 k.vm) (hsize : size < 2 ^ 46)
    (h : loadRaw fuel image size proc k = some (some t, k')) :
    Installed image size k.vm.free k'.vm.mem (k'.procs proc).pml4Phys := by
  rcases loadRaw_memory hwf hsize h with ⟨a, D, E, ha, hforest, hE, hpages, hothers⟩
  rw [ha]
  have hend : userCodeVaddr + pageEnd size < 2 ^ 47 := by
    unfold userCodeVaddr pageEnd
    omega
  have hsize' : size ≤ pageEnd size := by
    unfold pageEnd
    omega
  constructor
  · intro i hi
    rcases byte_of_pages hpages (hi.trans_le hsize') with ⟨c, -, hwalk, hbyte⟩
    refine ⟨?_, hbyte.trans (if_pos hi)⟩
    rw [Mapped, hwalk]
    rfl
  · intro i hlo hhi
    rcases byte_of_pages hpages hhi with ⟨c, -, hwalk, hbyte⟩
    refine ⟨?_, hbyte.trans (if_neg (by omega))⟩
    rw [Mapped, hwalk]
    rfl
  · intro v f hlo hhi hf
    rcases Nat.exists_eq_add_of_le hlo with ⟨i, rfl⟩
    rcases byte_of_pages (i := i) hpages (by omega) with ⟨c, hc, hwalk, -⟩
    obtain rfl := Option.some.inj (hwalk.symm.trans hf)
    exact hc
  · intro v hlo hhi w hlo' hhi' f hv hw
    have hpath := (hforest.distinct false _ false _ f (hE v (by omega)) (hE w (by omega)) hv hw).2
    have hpage := (path_eq_iff v w).mp hpath
    unfold pageOf at hpage
    omega
  · intro v hv hlow hmapped
    have hv' : v < 2 ^ 47 := by
      rw [pml4Index_eq] at hlow
      omega
    by_contra hout
    rw [Mapped, hothers v hv'] at hmapped
    · cases hmapped
    · intro n hn heq
      apply hout
      unfold userCodeVaddr pageEnd at *
      omega

end Raw

theorem WellFormed.loadReady {kernelCr3 : Nat} {vm : Vm} (hwf : WellFormed kernelCr3 vm)
    (hfew : vm.free.length ≤ maxFreeList) : LoadReady kernelCr3 vm where
  aligned := hwf.aligned
  notFree := hwf.notFree [] kernelCr3 (Nat.zero_le _) rfl
  freeOk := hwf.freeOk
  few := hfew

section TwoPages

/-- Seven free pages, as many as an image of two pages needs: the PML4, the two pages and
their three tables, and a page for the stack. -/
def loadPages : List Nat := [0x2000, 0x3000, 0x4000, 0x5000, 0x6000, 0x7000, 0x8000]

theorem wellFormed_loadPages : WellFormed 0x1000 ⟨fun _ => 0, loadPages⟩ :=
  wellFormed_zero (by decide) (by decide) ⟨by decide, by decide, by decide, by decide⟩

/-- A program of 5000 bytes, read in its second page and behind it. -/
theorem loadRaw_installs_twoPages :
    ∃ t k', loadRaw 8 (fun i => UInt8.ofNat i) 5000 2 (bootKernel ⟨fun _ => 0, loadPages⟩) =
        some (some t, k') ∧
      k'.vm.mem (userVirtToPhys k'.vm.mem (k'.procs 2).pml4Phys (userCodeVaddr + 4999)) = 135 ∧
      k'.vm.mem (userVirtToPhys k'.vm.mem (k'.procs 2).pml4Phys (userCodeVaddr + 5000)) = 0 := by
  have hready : LoadReady 0x1000 ⟨fun _ => 0, loadPages⟩ :=
    wellFormed_loadPages.loadReady (by decide)
  rcases loadSpace_of_frames hready (fun i => UInt8.ofNat i) (by decide : loadFrames 5000 < 7) with
    ⟨a, vm', hspace⟩
  rcases loadRaw_of_spare (k := bootKernel ⟨fun _ => 0, loadPages⟩) 2 hspace
    (freshHeap_spare (by show loadPages.length ≤ _; decide)) (by decide) (by decide : 1 + 1 < 8) with
    ⟨t, k', -, hload, -⟩
  have hinstalled := loadRaw_installs wellFormed_loadPages (by decide) hload
  exact ⟨t, k', hload, (hinstalled.bytes 4999 (by decide)).2,
    (hinstalled.zeros 5000 (by decide) (by decide)).2⟩

end TwoPages

end Orchid
