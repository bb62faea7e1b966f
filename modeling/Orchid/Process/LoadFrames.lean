import Orchid.Process.LoadSpace

/-! # The frames that a load takes

`load_raw` takes frames for the PML4, for the pages of the image, for the tables that lead to
them, and for the stack. The lower half of the new PML4 is empty, so their number depends on the
size of the image alone.

* `loadFrames` is that number, without the stack.
* `loadCode_frames` is the loop over the image: each round takes a frame for its page, and one
  for every table that no page before has needed.
* `loadImage_frames`: the load gets as far as the stack exactly if there are more frames, and
  takes the next one for it.
-/

namespace Orchid

open ByteMem Radix

/-- The tables of one level on the paths to the image; a table of that level spans `2 ^ shift`
bytes. -/
def tablesFor (shift size : Nat) : Nat :=
  if size = 0 then 0
  else (userCodeVaddr + size - 1) / 2 ^ shift - userCodeVaddr / 2 ^ shift + 1

/-- The frames that `load_raw` takes before that of the stack: the PML4, the pages of the image,
its page tables, page directories and PDPTs. -/
def loadFrames (size : Nat) : Nat :=
  1 + (size + 4095) / 4096 + tablesFor 21 size + tablesFor 30 size + tablesFor 39 size

/-! ## The loop over the image -/

/-- The frames for `left` bytes from `vaddr` on, when `m` tables are missing for the first of
them. -/
def codeFrames (m vaddr left : Nat) : Nat :=
  if left = 0 then 0
  else (left + 4095) / 4096 + m + ((vaddr + left - 1) / 2 ^ 21 - vaddr / 2 ^ 21) +
    ((vaddr + left - 1) / 2 ^ 30 - vaddr / 2 ^ 30) + ((vaddr + left - 1) / 2 ^ 39 - vaddr / 2 ^ 39)

theorem loadFrames_eq (size : Nat) : loadFrames size = 1 + codeFrames 3 userCodeVaddr size := by
  unfold loadFrames codeFrames tablesFor
  split <;> omega

section Apart

variable {u v w : Nat}

/-- How far apart two addresses of the lower half are, by the number `v / 2 ^ 21` of the page table
that each of them needs. -/
theorem apart_upperPath (hu : u < 2 ^ 47) (hv : v < 2 ^ 47) :
    apart (upperPath u) (upperPath v) =
      if u / 2 ^ 21 / 2 ^ 18 = v / 2 ^ 21 / 2 ^ 18 then
        if u / 2 ^ 21 / 2 ^ 9 = v / 2 ^ 21 / 2 ^ 9 then if u / 2 ^ 21 = v / 2 ^ 21 then 0 else 1
        else 2
      else 3 := by
  have hpml4 : pml4Index u = pml4Index v ↔ u / 2 ^ 21 / 2 ^ 18 = v / 2 ^ 21 / 2 ^ 18 := by
    rw [pml4Index_eq, pml4Index_eq]
    omega
  have hpdpt : u / 2 ^ 21 / 2 ^ 18 = v / 2 ^ 21 / 2 ^ 18 →
      (pdptIndex u = pdptIndex v ↔ u / 2 ^ 21 / 2 ^ 9 = v / 2 ^ 21 / 2 ^ 9) := by
    rw [pdptIndex_eq, pdptIndex_eq]
    omega
  have hpd : u / 2 ^ 21 / 2 ^ 9 = v / 2 ^ 21 / 2 ^ 9 →
      (pdIndex u = pdIndex v ↔ u / 2 ^ 21 = v / 2 ^ 21) := by
    rw [pdIndex_eq, pdIndex_eq]
    omega
  simp only [upperPath, apart, Fin.ext_iff, val_ofNat_pml4, val_ofNat_pdpt, val_ofNat_pd, hpml4,
    List.length_cons, List.length_nil]
  by_cases h₁ : u / 2 ^ 21 / 2 ^ 18 = v / 2 ^ 21 / 2 ^ 18
  · simp only [if_pos h₁, hpdpt h₁]
    by_cases h₂ : u / 2 ^ 21 / 2 ^ 9 = v / 2 ^ 21 / 2 ^ 9
    · simp only [if_pos h₂, hpd h₂]
    · simp only [if_neg h₂]
  · simp only [if_neg h₁]

/-- An address between two others shares more with the upper one. -/
theorem apart_upperPath_mono (huv : u ≤ v) (hvw : v ≤ w) (hw : w < 2 ^ 47) :
    apart (upperPath v) (upperPath w) ≤ apart (upperPath u) (upperPath w) := by
  have huv' : u / 2 ^ 21 ≤ v / 2 ^ 21 := Nat.div_le_div_right huv
  have hvw' : v / 2 ^ 21 ≤ w / 2 ^ 21 := Nat.div_le_div_right hvw
  rw [apart_upperPath (by omega) hw, apart_upperPath (by omega) hw]
  generalize u / 2 ^ 21 = x at *
  generalize v / 2 ^ 21 = y at *
  generalize w / 2 ^ 21 = z at *
  split_ifs <;> omega

/-- A page shares all tables with the one before, but for those that it is the first to need. -/
theorem apart_next (hv : v + 4096 < 2 ^ 47) :
    apart (upperPath v) (upperPath (v + 4096)) =
      ((v + 4096) / 2 ^ 21 - v / 2 ^ 21) + ((v + 4096) / 2 ^ 30 - v / 2 ^ 30) +
        ((v + 4096) / 2 ^ 39 - v / 2 ^ 39) := by
  have hnext : (v + 4096) / 2 ^ 21 = v / 2 ^ 21 ∨ (v + 4096) / 2 ^ 21 = v / 2 ^ 21 + 1 := by omega
  have hpd : ∀ x, x / 2 ^ 30 = x / 2 ^ 21 / 2 ^ 9 := fun x => by omega
  have hpdpt : ∀ x, x / 2 ^ 39 = x / 2 ^ 21 / 2 ^ 18 := fun x => by omega
  rw [apart_upperPath (by omega) hv, hpd, hpd, hpdpt, hpdpt]
  generalize v / 2 ^ 21 = x at *
  generalize (v + 4096) / 2 ^ 21 = y at *
  split_ifs <;> omega

/-- The tables of a level for some bytes: those that their second page needs first, and those of
the others. -/
theorem tables_round {d left : Nat} (hdvd : 4096 ∣ d) (haligned : v % 4096 = 0)
    (hleft : left ≠ 0) :
    (v + left - 1) / d - v / d =
      if left - min 4096 left = 0 then 0
      else ((v + 4096) / d - v / d) +
        ((v + 4096 + (left - min 4096 left) - 1) / d - (v + 4096) / d) := by
  split
  · -- no byte of a page lies in another table than its first
    rcases hdvd with ⟨e, rfl⟩
    have hpage : (v + left - 1) / 4096 = v / 4096 := by omega
    rw [← Nat.div_div_eq_div_mul, ← Nat.div_div_eq_div_mul, hpage, Nat.sub_self]
  · have hsame : v + 4096 + (left - min 4096 left) - 1 = v + left - 1 := by omega
    have hlow : v / d ≤ (v + 4096) / d := Nat.div_le_div_right (by omega)
    have hhigh : (v + 4096) / d ≤ (v + left - 1) / d := Nat.div_le_div_right (by omega)
    rw [hsame]
    omega

end Apart

/-- The frames of one round, and those of the others. -/
theorem codeFrames_round {m vaddr left : Nat} (haligned : vaddr % 4096 = 0)
    (hv : vaddr + 4096 < 2 ^ 47) (hleft : left ≠ 0) :
    codeFrames m vaddr left = 1 + m +
      codeFrames (apart (upperPath vaddr) (upperPath (vaddr + 4096))) (vaddr + 4096)
        (left - min 4096 left) := by
  have hpages : (left + 4095) / 4096 = 1 + (left - min 4096 left + 4095) / 4096 := by omega
  rw [apart_next hv, codeFrames, codeFrames, if_neg hleft,
    tables_round (by decide : 4096 ∣ 2 ^ 21) haligned hleft,
    tables_round (by decide : 4096 ∣ 2 ^ 30) haligned hleft,
    tables_round (by decide : 4096 ∣ 2 ^ 39) haligned hleft, hpages]
  split
  · next hlast => rw [hlast]
  · omega

section Loop

variable {K : Type} [DecidableEq K] {root : K → Nat} {D E : K → List (Fin 512) → Prop} {vm : Vm}
  {k : K} {image : Nat → UInt8} {vaddr c : Nat} {rest : List Nat}

/-- After a round that has its frames, a path shares with the tree what it shares with that of the
page. -/
theorem missing_codeRound (h : Forest root D E vm) {src left : Nat} (hD : D k (upperPath vaddr))
    (hleaf : ¬ D k (path vaddr)) (hfree : vm.free = c :: rest)
    (hlen : missing (child vm.mem) (root k) (upperPath vaddr) ≤ rest.length) {vm₁ : Vm}
    (hround : codeRound (root k) image vaddr src left c ⟨vm.mem, rest⟩ = vm₁)
    {q : List (Fin 512)} (hq : D k q) (hshort : q.length ≤ 3)
    (hapart : apart (upperPath vaddr) q ≤ missing (child vm.mem) (root k) q) :
    missing (child vm₁.mem) (root k) q = apart (upperPath vaddr) q := by
  rcases h.codeRound hD hleaf hfree hround with ⟨taken, -, hbuilt, hpath, -⟩
  rw [if_pos hlen, path, walk_append] at hpath
  rcases Option.bind_eq_some_iff.mp hpath with ⟨t, ht, -⟩
  refine missing_of_made ht ?_ hapart
  rintro l ⟨l', rfl⟩ hother
  have hl : D k l := h.tracked.closed k l l' hq
  rcases hbuilt.walks k l ((h.tracked.closed k).below hl) with heq | ⟨-, hpre, -⟩
  · exact heq
  · -- a table's path does not reach the page
    refine absurd (List.prefix_of_prefix_length_le hpre (List.prefix_append _ _) ?_) hother
    rw [List.length_append] at hshort
    rw [length_upperPath]
    omega

/-- The loop, on a tree in which the pages from `vaddr` on share no more tables with what is there
than with `vaddr`: it gets through exactly if there are the frames for it. Where they end with
the last page, that page may not be mapped, and none is left. -/
theorem loadCode_frames (h : Forest root D E vm)
    (hpath : ∀ v, v < 2 ^ 47 → D k (upperPath v) ∧ ¬ D k (path v)) (haligned : vaddr % 4096 = 0)
    (hbound : vaddr + 4096 * vm.free.length < 2 ^ 46)
    (hapart : ∀ v, vaddr ≤ v → v < 2 ^ 47 → apart (upperPath vaddr) (upperPath v) ≤
      missing (child vm.mem) (root k) (upperPath v))
    {src left : Nat} {r : Bool} {vm' : Vm}
    (hcode : loadCode (root k) image vaddr src left vm = (r, vm')) :
    if codeFrames (missing (child vm.mem) (root k) (upperPath vaddr)) vaddr left ≤ vm.free.length
    then r = true ∧ vm'.free = vm.free.drop
      (codeFrames (missing (child vm.mem) (root k) (upperPath vaddr)) vaddr left)
    else r = true → vm'.free = [] := by
  -- induction on the bytes to go; the rounds before have made the tables up to `vaddr`
  induction left using Nat.strong_induction_on generalizing vaddr src vm with
  | _ left ih =>
    rcases loadCode_cases h.freeOk hcode with
      ⟨rfl, rfl, rfl⟩ | ⟨hleft, hfree, rfl, -⟩ | ⟨c, rest, vm₁, hleft, hfree, hround, hgo⟩
    · rw [codeFrames, if_pos rfl, if_pos (Nat.zero_le _)]
      exact ⟨rfl, rfl⟩
    · rw [codeFrames_round haligned (by omega) hleft, hfree, if_neg (by rw [List.length_nil]; omega)]
      intro hfalse
      cases hfalse
    · have hv : vaddr + 4096 < 2 ^ 47 := by omega
      rcases hpath vaddr (by omega) with ⟨hD, hleaf⟩
      rcases h.codeRound hD hleaf hfree hround with ⟨-, hforest₁, -, -, hrest⟩
      have hlen₁ : vm₁.free.length =
          rest.length - missing (child vm.mem) (root k) (upperPath vaddr) := by
        rw [hrest, List.length_drop]
      rw [hfree, List.length_cons] at hbound
      rw [codeFrames_round haligned hv hleft, hfree, List.length_cons]
      rcases Nat.lt_or_ge rest.length (missing (child vm.mem) (root k) (upperPath vaddr)) with
        hlt | hge
      · -- the map runs out of frames, and there are none for the other rounds
        rw [if_neg (by omega)]
        intro _
        have hend := loadCode_free (root k) image (vaddr + 4096) (src + min 4096 left)
          (left - min 4096 left) vm₁
        rw [hgo, List.length_eq_zero_iff.mp (by omega : vm₁.free.length = 0)] at hend
        exact List.suffix_nil.mp hend
      · have hnext : ∀ v, vaddr ≤ v → v < 2 ^ 47 → missing (child vm₁.mem) (root k) (upperPath v) =
            apart (upperPath vaddr) (upperPath v) := fun v hle hlt =>
          missing_codeRound h hD hleaf hfree hge hround (hpath v hlt).1 (length_upperPath v).le
            (hapart v hle hlt)
        have hrounds := ih (left - min 4096 left) (by omega) hforest₁ (by omega) (by omega)
          (fun v hle hlt => ?_) hgo
        · rw [hnext (vaddr + 4096) (by omega) hv] at hrounds
          split at hrounds
          · next hfits =>
            rw [if_pos (by omega)]
            refine ⟨hrounds.1, ?_⟩
            rw [hrounds.2, hrest, List.drop_drop, Nat.add_assoc, Nat.add_comm 1, List.drop_succ_cons]
          · next hfits =>
            rw [if_neg (by omega)]
            exact hrounds
        · rw [hnext v (by omega) hlt]
          exact apart_upperPath_mono (by omega) hle hlt

end Loop

/-! ## Up to the stack -/

section Load

variable {kernelCr3 size : Nat} {vm : Vm}

/-- What a load needs to know of the kernel's PML4 and the free stack. -/
structure LoadReady (kernelCr3 : Nat) (vm : Vm) : Prop where
  aligned : Aligned kernelCr3
  notFree : kernelCr3 ∉ vm.free
  freeOk : FreeOk vm.free
  few : vm.free.length ≤ maxFreeList

theorem LoadReady.cr3_ne {a : Nat} {rest : List Nat} (hk : LoadReady kernelCr3 vm)
    (hfree : vm.free = a :: rest) : kernelCr3 ≠ a := by
  rintro rfl
  apply hk.notFree
  rw [hfree]
  exact List.mem_cons_self

/-- In the lower half of the new PML4 all three tables are missing. -/
theorem missing_newPml4 {a v : Nat} (hv : v < 2 ^ 47) (mem : ByteMem) :
    missing (child (newPml4 kernelCr3 a mem)) a (upperPath v) = 3 := by
  have hslot : (Fin.ofNat 512 (pml4Index v)).val < 256 := by
    rw [val_ofNat_pml4]
    exact pml4Index_lt_of_lt hv
  rw [upperPath, missing_cons, child_newPml4_of_lt hslot]
  rfl

/-- The image, loaded for a new PML4. -/
theorem loadCode_newPml4 {a : Nat} {rest : List Nat} {image : Nat → UInt8} {r : Bool} {vm₂ : Vm}
    (hk : LoadReady kernelCr3 vm) (hfree : vm.free = a :: rest)
    (hcode : loadCode a image userCodeVaddr 0 size ⟨newPml4 kernelCr3 a vm.mem, rest⟩ = (r, vm₂)) :
    if codeFrames 3 userCodeVaddr size ≤ rest.length
    then r = true ∧ vm₂.free = rest.drop (codeFrames 3 userCodeVaddr size)
    else r = true → vm₂.free = [] := by
  have ha := hk.freeOk.aligned a (mem_of_eq_cons hfree)
  have hplant := (forest_nil a ha hk.freeOk).newSpace (k := ()) (S := fun i => i.val < 256) hfree
    hk.aligned (hk.cr3_ne hfree) (by omega)
  have hpath : ∀ v, v < 2 ^ 47 →
      WithTree (fun _ _ => False) () (fun i => i.val < 256) 3 () (upperPath v) ∧
        ¬ WithTree (fun _ _ => False) () (fun i => i.val < 256) 3 () (path v) := by
    intro v hv
    constructor
    · refine Or.inr ⟨rfl, slotPath_upperPath ?_⟩
      rw [val_ofNat_pml4]
      exact pml4Index_lt_of_lt hv
    · rintro (h | ⟨-, h⟩)
      · exact h
      · exact not_slotPath_path _ _ h
  have hcode47 : userCodeVaddr < 2 ^ 47 := by decide
  have hbound : userCodeVaddr + 4096 * rest.length < 2 ^ 46 := by
    have hfew := hk.few
    have hmax : maxFreeList ≤ 2 ^ 26 := by decide
    rw [hfree, List.length_cons] at hfew
    unfold userCodeVaddr
    omega
  have hframes := loadCode_frames hplant hpath (by decide : userCodeVaddr % 4096 = 0) hbound
    (fun v _ hv => ?_) hcode
  · rw [missing_newPml4 hcode47] at hframes
    exact hframes
  · rw [missing_newPml4 hv, apart_upperPath hcode47 hv]
    split_ifs <;> omega

/-- `load_raw` up to the stack: it gets there exactly if there is a frame more than `loadFrames`,
which is then the stack's. -/
theorem loadImage_frames (hk : LoadReady kernelCr3 vm) (image : Nat → UInt8) (size : Nat) :
    (vm.free.length ≤ loadFrames size ∧ ∃ vm', loadImage kernelCr3 image size vm = (none, vm')) ∨
      ∃ a s mem, vm.free[loadFrames size]? = some s ∧ loadImage kernelCr3 image size vm =
        (some (a, s), ⟨mem, vm.free.drop (loadFrames size + 1)⟩) := by
  rw [loadFrames_eq]
  rcases loadImage_cases kernelCr3 image size hk.freeOk with
    ⟨hfree, himage⟩ | ⟨a, rest, hfree, r, vm₂, hcode, ⟨hnil, himage⟩ | ⟨s, rest₂, rfl, hfree₂, -, himage⟩⟩
  · rw [hfree]
    exact Or.inl ⟨Nat.zero_le _, vm, himage⟩
  · have hframes := loadCode_newPml4 hk hfree hcode
    rw [hfree, List.length_cons]
    refine Or.inl ⟨?_, vm₂, himage⟩
    split at hframes
    · -- the image took the last frame
      have hlen := List.drop_eq_nil_iff.mp (hframes.2.symm.trans (hnil hframes.1))
      omega
    · omega
  · have hframes := loadCode_newPml4 hk hfree hcode
    rw [hfree₂] at hframes
    split at hframes
    · next hdrop =>
      refine Or.inr ⟨a, s, vm₂.mem, ?_, ?_⟩
      · rw [hfree, Nat.add_comm 1, List.getElem?_cons_succ, ← List.head?_drop, ← hframes.2]
        rfl
      · rw [himage, hfree, Nat.add_comm 1, List.drop_succ_cons, ← List.drop_drop, ← hframes.2]
        rfl
    · cases hframes rfl

/-- With these frames the address space is made. -/
theorem loadSpace_of_frames (hk : LoadReady kernelCr3 vm) (image : Nat → UInt8)
    (hlen : loadFrames size < vm.free.length) :
    ∃ a vm', loadSpace kernelCr3 image size vm = (some a, vm') := by
  rcases loadImage_frames hk image size with ⟨hfew, -⟩ | ⟨a, s, mem, -, himage⟩
  · omega
  · simp only [loadSpace, himage]
    exact ⟨a, _, rfl⟩

end Load

end Orchid
