import Mathlib.Data.Fin.Basic
import Orchid.Core.Bits
import Orchid.Core.ByteMem
import Orchid.Core.Radix
import Orchid.Memory.Pmm

/-! # Page tables

A model of the paging half of `kernel/vmm.c`. Physical memory is flat bytes;
the kernel reaches it through the direct map, so `phys_to_virt(p)` stands for
the bytes at `p` itself. Page tables are 512 words of 8 bytes in that memory.

* `vmm_map` and `vmm_map_user` share their body (`mapAt`), as do
  `vmm_virt_to_phys` and `user_virt_to_phys` (`lookup`): the first of each pair
  works on the kernel's own PML4, the second on the one it is given.
* `child` reads the links of the tables off the memory; with it a lookup is a
  `Radix.walk` along the four indices of an address, and every store the code
  makes is a `Radix.set` or `Radix.clear`.
-/

namespace Orchid

open ByteMem Radix

/-- Physical memory and the stack of free pages. -/
structure Vm where
  mem : ByteMem
  free : List Nat

/-- `pmm_alloc_page` on the machine's memory. -/
def Vm.allocPage (vm : Vm) : Nat × Vm :=
  ((pmmAllocPage vm.free).1, { vm with free := (pmmAllocPage vm.free).2 })

/-- `pmm_free_page` on the machine's memory. -/
def Vm.freePage (page : Nat) (vm : Vm) : Vm :=
  { vm with free := pmmFreePage page vm.free }

/-! ## The functions of `vmm.c` -/

/-- `VMM_PRESENT`. -/
def vmmPresent : Nat := 0x001
/-- `VMM_WRITABLE`. -/
def vmmWritable : Nat := 0x002
/-- `VMM_USER`. -/
def vmmUser : Nat := 0x004

/-- `PML4_INDEX`. -/
def pml4Index (v : Nat) : Nat := (v >>> 39) &&& 0x1FF
/-- `PDPT_INDEX`. -/
def pdptIndex (v : Nat) : Nat := (v >>> 30) &&& 0x1FF
/-- `PD_INDEX`. -/
def pdIndex (v : Nat) : Nat := (v >>> 21) &&& 0x1FF
/-- `PT_INDEX`. -/
def ptIndex (v : Nat) : Nat := (v >>> 12) &&& 0x1FF

/-- `entry_get_addr`. -/
def entryGetAddr (entry : Nat) : Nat := entry &&& 0x000FFFFFFFFFF000

/-- `make_entry`. -/
def makeEntry (phys flags : Nat) : Nat := (phys &&& 0x000FFFFFFFFFF000) ||| (flags &&& 0xFFF)

/-- The test `entry & 1`. -/
def Present (entry : Nat) : Prop := entry &&& 1 ≠ 0

instance (entry : Nat) : Decidable (Present entry) := inferInstanceAs (Decidable (_ ≠ _))

/-- `ensure_page_table`. -/
def ensurePageTable (entryPtr : Nat) (vm : Vm) : Vm :=
  if Present (read64 vm.mem entryPtr) then
    vm
  else
    let (ptPhys, vm) := vm.allocPage
    if ptPhys = 0 then
      vm
    else
      { vm with
        mem := write64 (clearWords vm.mem ptPhys 512) entryPtr
          (makeEntry ptPhys (vmmPresent ||| vmmWritable)) }

/-- The common body of `vmm_map` and `vmm_map_user`. The flag, which the code
does not return, says whether the last line was reached: it is `false` on the
three early returns. -/
def mapAt (pml4Phys virt phys flags : Nat) (vm : Vm) : Bool × Vm :=
  let pml4Slot := pml4Phys + 8 * pml4Index virt
  let vm := ensurePageTable pml4Slot vm
  if ¬ Present (read64 vm.mem pml4Slot) then (false, vm) else
  let pdptSlot := entryGetAddr (read64 vm.mem pml4Slot) + 8 * pdptIndex virt
  let vm := ensurePageTable pdptSlot vm
  if ¬ Present (read64 vm.mem pdptSlot) then (false, vm) else
  let pdSlot := entryGetAddr (read64 vm.mem pdptSlot) + 8 * pdIndex virt
  let vm := ensurePageTable pdSlot vm
  if ¬ Present (read64 vm.mem pdSlot) then (false, vm) else
  let ptSlot := entryGetAddr (read64 vm.mem pdSlot) + 8 * ptIndex virt
  (true, { vm with mem := write64 vm.mem ptSlot (makeEntry phys flags) })

/-- The flags of the leaf `vmm_map` stores. -/
def mapFlags (flags : Nat) : Nat := flags ||| vmmPresent

/-- The flags of the leaf `vmm_map_user` stores. -/
def mapUserFlags (flags : Nat) (isUser : Bool) : Nat :=
  flags ||| vmmPresent ||| (if isUser then vmmUser else 0)

/-- `vmm_map`, with the kernel's PML4 passed in. -/
def vmmMap (pml4 virt phys flags : Nat) (vm : Vm) : Vm :=
  if phys = 0 then vm else (mapAt pml4 virt phys (mapFlags flags) vm).2

/-- `vmm_map_user`. -/
def vmmMapUser (pml4Phys virt phys flags : Nat) (isUser : Bool) (vm : Vm) : Vm :=
  if phys = 0 then vm else (mapAt pml4Phys virt phys (mapUserFlags flags isUser) vm).2

/-- `vmm_unmap`, with the kernel's PML4 passed in. -/
def vmmUnmap (pml4 virt : Nat) (vm : Vm) : Vm :=
  let pml4Slot := pml4 + 8 * pml4Index virt
  if ¬ Present (read64 vm.mem pml4Slot) then vm else
  let pdptSlot := entryGetAddr (read64 vm.mem pml4Slot) + 8 * pdptIndex virt
  if ¬ Present (read64 vm.mem pdptSlot) then vm else
  let pdSlot := entryGetAddr (read64 vm.mem pdptSlot) + 8 * pdIndex virt
  if ¬ Present (read64 vm.mem pdSlot) then vm else
  let ptSlot := entryGetAddr (read64 vm.mem pdSlot) + 8 * ptIndex virt
  { vm with mem := write64 vm.mem ptSlot 0 }

/-- The common body of `vmm_virt_to_phys` and `user_virt_to_phys`. -/
def lookup (mem : ByteMem) (pml4Phys virt : Nat) : Nat :=
  let pml4e := read64 mem (pml4Phys + 8 * pml4Index virt)
  if ¬ Present pml4e then 0 else
  let pdpte := read64 mem (entryGetAddr pml4e + 8 * pdptIndex virt)
  if ¬ Present pdpte then 0 else
  let pde := read64 mem (entryGetAddr pdpte + 8 * pdIndex virt)
  if ¬ Present pde then 0 else
  let pte := read64 mem (entryGetAddr pde + 8 * ptIndex virt)
  if ¬ Present pte then 0 else
  entryGetAddr pte ||| (virt &&& 0xFFF)

/-- `vmm_virt_to_phys`, with the kernel's PML4 passed in. -/
def vmmVirtToPhys (mem : ByteMem) (pml4 virt : Nat) : Nat := lookup mem pml4 virt

/-- `user_virt_to_phys`. -/
def userVirtToPhys (mem : ByteMem) (pml4Phys virt : Nat) : Nat := lookup mem pml4Phys virt

/-! ## Entries and indices as arithmetic -/

theorem entryGetAddr_eq (e : Nat) : entryGetAddr e = e / 4096 % 2 ^ 40 * 4096 :=
  Bits.and_mask e 12 40

theorem entryGetAddr_mod (e : Nat) : entryGetAddr e % 4096 = 0 := by
  rw [entryGetAddr_eq]; omega

theorem present_iff (e : Nat) : Present e ↔ e % 2 = 1 := by
  have h : e &&& 1 = e % 2 := Nat.and_two_pow_sub_one_eq_mod e 1
  rw [Present, h]
  omega

theorem makeEntry_eq (phys flags : Nat) :
    makeEntry phys flags = phys / 4096 % 2 ^ 40 * 4096 + flags % 4096 := by
  have h₁ : phys &&& 0x000FFFFFFFFFF000 = phys / 4096 % 2 ^ 40 * 4096 := Bits.and_mask phys 12 40
  have h₂ : flags &&& 0xFFF = flags % 4096 := Nat.and_two_pow_sub_one_eq_mod flags 12
  rw [makeEntry, h₁, h₂]
  have hlow : phys / 4096 % 2 ^ 40 * 4096 % 2 ^ 12 = 0 := by omega
  exact Bits.or_eq_add hlow (by omega)

theorem makeEntry_lt (phys flags : Nat) : makeEntry phys flags < 2 ^ 64 := by
  rw [makeEntry_eq]; omega

/-- A page-aligned physical address goes through an entry unchanged. -/
theorem entryGetAddr_makeEntry {phys : Nat} (h : phys % 4096 = 0) (h' : phys < 2 ^ 52)
    (flags : Nat) : entryGetAddr (makeEntry phys flags) = phys := by
  rw [entryGetAddr_eq, makeEntry_eq]; omega

theorem present_makeEntry (phys : Nat) {flags : Nat} (h : flags % 2 = 1) :
    Present (makeEntry phys flags) := by
  rw [present_iff, makeEntry_eq]; omega

theorem mapFlags_mod_two (flags : Nat) : mapFlags flags % 2 = 1 := by
  simp [mapFlags, vmmPresent, Nat.or_mod_two_eq_one]

theorem mapUserFlags_mod_two (flags : Nat) (isUser : Bool) :
    mapUserFlags flags isUser % 2 = 1 := by
  simp [mapUserFlags, vmmPresent, Nat.or_mod_two_eq_one]

theorem pml4Index_eq (v : Nat) : pml4Index v = v / 2 ^ 39 % 512 := Bits.shiftRight_and v 39 9
theorem pdptIndex_eq (v : Nat) : pdptIndex v = v / 2 ^ 30 % 512 := Bits.shiftRight_and v 30 9
theorem pdIndex_eq (v : Nat) : pdIndex v = v / 2 ^ 21 % 512 := Bits.shiftRight_and v 21 9
theorem ptIndex_eq (v : Nat) : ptIndex v = v / 2 ^ 12 % 512 := Bits.shiftRight_and v 12 9

/-! ## The free stack only shrinks -/

theorem Vm.allocPage_of_nil {vm : Vm} (h : vm.free = []) : vm.allocPage = (0, vm) := by
  obtain ⟨mem, free⟩ := vm
  simp only at h
  subst h
  rfl

theorem Vm.allocPage_of_cons {vm : Vm} {c : Nat} {rest : List Nat} (h : vm.free = c :: rest) :
    vm.allocPage = (c, ⟨vm.mem, rest⟩) := by
  obtain ⟨mem, free⟩ := vm
  simp only at h
  subst h
  rfl

theorem Vm.allocPage_of_ne {vm : Vm} (h : vm.allocPage.1 ≠ 0) :
    ∃ c rest, vm.free = c :: rest ∧ vm.allocPage = (c, ⟨vm.mem, rest⟩) := by
  cases hfree : vm.free with
  | nil =>
    rw [Vm.allocPage_of_nil hfree] at h
    exact absurd rfl h
  | cons c rest => exact ⟨c, rest, rfl, Vm.allocPage_of_cons hfree⟩

/-- A page that was taken is off the stack. -/
theorem Vm.allocPage_shrinks {vm : Vm} (h : vm.allocPage.1 ≠ 0) :
    vm.allocPage.2.free.length < vm.free.length := by
  rcases Vm.allocPage_of_ne h with ⟨c, rest, hfree, halloc⟩
  rw [halloc, hfree]
  exact Nat.lt_succ_self _

theorem Vm.allocPage_free (vm : Vm) : vm.allocPage.2.free <:+ vm.free := by
  obtain ⟨mem, free⟩ := vm
  cases free with
  | nil => exact List.suffix_refl _
  | cons c rest => exact List.suffix_cons c rest

theorem ensurePageTable_free (slot : Nat) (vm : Vm) : (ensurePageTable slot vm).free <:+ vm.free := by
  unfold ensurePageTable
  split
  · exact List.suffix_refl _
  · dsimp only
    split <;> exact vm.allocPage_free

/-! ## The tables as a radix tree -/

instance neZeroEntries : NeZero 512 := ⟨by decide⟩

/-- Entry `i` of the table at `f`. -/
def pte (mem : ByteMem) (f : Nat) (i : Fin 512) : Nat := read64 mem (f + 8 * i.val)

/-- What an entry refers to. -/
def decode (e : Nat) : Option Nat := if Present e then some (entryGetAddr e) else none

/-- The links of the tables in memory. -/
def child (mem : ByteMem) (f : Nat) (i : Fin 512) : Option Nat := decode (pte mem f i)

/-- The slots an address selects in the tables above the last one. -/
def upperPath (v : Nat) : List (Fin 512) :=
  [Fin.ofNat 512 (pml4Index v), Fin.ofNat 512 (pdptIndex v), Fin.ofNat 512 (pdIndex v)]

/-- The slot an address selects in its page table. -/
def ptSlot (v : Nat) : Fin 512 := Fin.ofNat 512 (ptIndex v)

/-- The four slots an address selects. -/
def path (v : Nat) : List (Fin 512) := upperPath v ++ [ptSlot v]

theorem length_upperPath (v : Nat) : (upperPath v).length = 3 := rfl

theorem length_path (v : Nat) : (path v).length = 4 := rfl

/-- The 48-bit page of an address. -/
def pageOf (v : Nat) : Nat := v / 4096 % 2 ^ 36

/-- Page-aligned. -/
def Aligned (f : Nat) : Prop := f % 4096 = 0

instance (f : Nat) : Decidable (Aligned f) := inferInstanceAs (Decidable (_ = _))

theorem decode_eq_some {e f : Nat} (h : decode e = some f) : f = entryGetAddr e ∧ Present e := by
  unfold decode at h
  split at h
  · exact ⟨(Option.some.inj h).symm, ‹_›⟩
  · cases h

theorem child_aligned {mem : ByteMem} {f c : Nat} {i : Fin 512} (h : child mem f i = some c) :
    Aligned c := by
  rw [(decode_eq_some h).1]
  exact entryGetAddr_mod _

theorem walk_aligned {mem : ByteMem} {r f : Nat} {q : List (Fin 512)} (hr : Aligned r)
    (h : walk (child mem) r q = some f) : Aligned f := by
  induction q generalizing r with
  | nil => exact Option.some.inj h ▸ hr
  | cons i q ih =>
    rw [walk_cons] at h
    cases hc : child mem r i with
    | none => rw [hc] at h; cases h
    | some c =>
      rw [hc] at h
      exact ih (child_aligned hc) h

theorem val_ofNat_pml4 (v : Nat) : (Fin.ofNat 512 (pml4Index v)).val = pml4Index v := by
  rw [Fin.val_ofNat, pml4Index_eq]; omega

theorem val_ofNat_pdpt (v : Nat) : (Fin.ofNat 512 (pdptIndex v)).val = pdptIndex v := by
  rw [Fin.val_ofNat, pdptIndex_eq]; omega

theorem val_ofNat_pd (v : Nat) : (Fin.ofNat 512 (pdIndex v)).val = pdIndex v := by
  rw [Fin.val_ofNat, pdIndex_eq]; omega

theorem val_ptSlot (v : Nat) : (ptSlot v).val = ptIndex v := by
  rw [ptSlot, Fin.val_ofNat, ptIndex_eq]; omega

/-- Two addresses take the same path exactly if they are on the same page. -/
theorem path_eq_iff (v w : Nat) : path v = path w ↔ pageOf v = pageOf w := by
  simp only [path, upperPath, List.cons_append, List.nil_append, List.cons.injEq, and_true,
    Fin.ext_iff, val_ofNat_pml4, val_ofNat_pdpt, val_ofNat_pd, val_ptSlot]
  rw [pml4Index_eq, pdptIndex_eq, pdIndex_eq, ptIndex_eq, pml4Index_eq, pdptIndex_eq, pdIndex_eq,
    ptIndex_eq, pageOf, pageOf]
  omega

/-- Neither path goes on behind the other. -/
theorem pageOf_eq_of_path {v w : Nat} (h : path v <+: path w) : pageOf v = pageOf w := by
  have hlength : (path v).length = (path w).length := by rw [length_path, length_path]
  exact (path_eq_iff v w).mp (h.eq_of_length hlength)

/-- A lookup is a walk. -/
theorem lookup_eq_walk (mem : ByteMem) (r v : Nat) :
    lookup mem r v =
      match walk (child mem) r (path v) with
      | none => 0
      | some f => f ||| (v &&& 0xFFF) := by
  simp only [lookup, path, upperPath, List.cons_append, List.nil_append, walk_cons, child, pte,
    val_ofNat_pml4, val_ofNat_pdpt, val_ofNat_pd, val_ptSlot, decode]
  repeat' split
  all_goals simp_all

/-- An unmap is a walk to the page table and a store of zero. -/
theorem vmmUnmap_eq_walk (r v : Nat) (vm : Vm) :
    vmmUnmap r v vm =
      match walk (child vm.mem) r (upperPath v) with
      | none => vm
      | some t => { vm with mem := write64 vm.mem (t + 8 * (ptSlot v).val) 0 } := by
  simp only [vmmUnmap, upperPath, walk_cons, walk_nil, child, pte, val_ofNat_pml4, val_ofNat_pdpt,
    val_ofNat_pd, val_ptSlot, decode]
  split_ifs <;> simp_all

/-! ## Mapping as a walk -/

/-- The part of `mapAt` above the last level: follow the slots `q` from
`table`, making tables where there are none. -/
def descend (table : Nat) : List (Fin 512) → Vm → Option Nat × Vm
  | [], vm => (some table, vm)
  | i :: q, vm =>
    let vm := ensurePageTable (table + 8 * i.val) vm
    match child vm.mem table i with
    | none => (none, vm)
    | some c => descend c q vm

theorem descend_cons (table : Nat) (i : Fin 512) (q : List (Fin 512)) (vm : Vm) :
    descend table (i :: q) vm =
      let vm := ensurePageTable (table + 8 * i.val) vm
      if ¬ Present (pte vm.mem table i) then (none, vm)
      else descend (entryGetAddr (pte vm.mem table i)) q vm := by
  simp only [descend, child, decode]
  by_cases h : Present (pte (ensurePageTable (table + 8 * i.val) vm).mem table i) <;> simp [h]

theorem mapAt_eq_descend (r virt phys flags : Nat) (vm : Vm) :
    mapAt r virt phys flags vm =
      match descend r (upperPath virt) vm with
      | (none, vm) => (false, vm)
      | (some t, vm) => (true,
        { vm with mem := write64 vm.mem (t + 8 * (ptSlot virt).val) (makeEntry phys flags) }) := by
  simp only [mapAt, upperPath, descend_cons, pte, val_ofNat_pml4, val_ofNat_pdpt, val_ofNat_pd,
    val_ptSlot]
  split_ifs <;> rfl

theorem descend_free (q : List (Fin 512)) (t : Nat) (vm : Vm) :
    (descend t q vm).2.free <:+ vm.free := by
  induction q generalizing t vm with
  | nil => exact List.suffix_refl _
  | cons i q ih =>
    have hensure := ensurePageTable_free (t + 8 * i.val) vm
    rw [descend_cons]
    dsimp only
    split
    · exact hensure
    · exact (ih _ _).trans hensure

theorem mapAt_free (r virt phys flags : Nat) (vm : Vm) :
    (mapAt r virt phys flags vm).2.free <:+ vm.free := by
  have h := descend_free (upperPath virt) r vm
  rw [mapAt_eq_descend]
  split <;> simp_all

theorem vmmMap_free (r virt phys flags : Nat) (vm : Vm) :
    (vmmMap r virt phys flags vm).free <:+ vm.free := by
  unfold vmmMap
  split
  · exact List.suffix_refl _
  · exact mapAt_free _ _ _ _ _

theorem vmmMapUser_free (r virt phys flags : Nat) (isUser : Bool) (vm : Vm) :
    (vmmMapUser r virt phys flags isUser vm).free <:+ vm.free := by
  unfold vmmMapUser
  split
  · exact List.suffix_refl _
  · exact mapAt_free _ _ _ _ _

end Orchid
