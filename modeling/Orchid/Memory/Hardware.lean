import Orchid.Memory.AddressSpace

/-! # The processor's walk

The translation of x86-64 with four levels of tables, to compare with the walks
of `kernel/vmm.c`. An entry of the second or third level with the PS bit maps a
page of 1 GiB or 2 MiB itself. The walks of the kernel test the present bit only
and take such a page for the next table.

* `hardwareWalk` is the architecture's definition, in its own terms.
* `translate_eq_walk` compares the two level by level, where no entry on the way
  has the PS bit.
* `WalksAgree` goes on where one has: the words of the large page, taken for
  tables, must lead to the place in that page. This is what the two walks agree
  on exactly (`walks_agree_iff`).
-/

namespace Orchid

open ByteMem Radix

/-! ## The architecture -/

/-- Bits `hi` down to `lo` of a word. -/
def field (x hi lo : Nat) : Nat := x / 2 ^ lo % 2 ^ (hi + 1 - lo)

/-- Bits 63 to 47 are all the same. -/
def Canonical (virt : Nat) : Prop := virt < 2 ^ 47 ∨ 2 ^ 64 - 2 ^ 47 ≤ virt ∧ virt < 2 ^ 64

instance (virt : Nat) : Decidable (Canonical virt) := inferInstanceAs (Decidable (_ ∨ _))

/-- The walk from a table with `level` levels below it, whose slots are selected by nine bits
of the address. Bit 7 of an entry is PS, apart from the lowest level. In a PML4
entry it is reserved, and so are the bits between the flags and the address of a
large page. A reserved bit that is set is a page fault. -/
def translate (mem : ByteMem) (virt : Nat) : Nat → Nat → Option Nat
  | 0, page => some (page + field virt 11 0)
  | level + 1, table =>
    let low := 12 + 9 * level
    let entry := read64 mem (table + 8 * field virt (low + 8) low)
    if ¬ entry.testBit 0 then none
    else if level ≠ 0 ∧ entry.testBit 7 then
      if level = 3 ∨ field entry (low - 1) 13 ≠ 0 then none
      else some (field entry 51 low * 2 ^ low + field virt (low - 1) 0)
    else translate mem virt level (field entry 51 12 * 2 ^ 12)

/-- The physical address of `virt` with `cr3` in CR3, if it is mapped. -/
def hardwareWalk (mem : ByteMem) (cr3 virt : Nat) : Option Nat :=
  if Canonical virt then translate mem virt 4 (field cr3 51 12 * 2 ^ 12) else none

/-! ## Level by level -/

/-- The slot that an address selects in a table with `level` levels below it. -/
def slot (virt level : Nat) : Fin 512 :=
  Fin.ofNat 512 (field virt (12 + 9 * level + 8) (12 + 9 * level))

/-- The slots that an address selects in `level` levels of tables. -/
def slots (virt : Nat) : Nat → List (Fin 512)
  | 0 => []
  | level + 1 => slot virt level :: slots virt level

/-- No present entry on the path has the PS bit. -/
def SmallPages (mem : ByteMem) : Nat → List (Fin 512) → Prop
  | _, [] => True
  | f, i :: q => Present (pte mem f i) →
    pte mem f i &&& pageSizeBit = 0 ∧ SmallPages mem (entryGetAddr (pte mem f i)) q

instance decidableSmallPages (mem : ByteMem) :
    (f : Nat) → (q : List (Fin 512)) → Decidable (SmallPages mem f q)
  | _, [] => isTrue trivial
  | f, i :: q =>
    have := decidableSmallPages mem (entryGetAddr (pte mem f i)) q
    inferInstanceAs (Decidable (Present _ → _ = 0 ∧ SmallPages mem _ q))

/-- The 4 KiB frame of an address in a large page, whose pages are `2 ^ low` bytes long. -/
def largeFrame (entry virt low : Nat) : Nat :=
  field entry 51 low * 2 ^ low + field virt (low - 1) 12 * 2 ^ 12

/-- What the walk of the kernel and that of the processor need in order to agree, from a table
with `level` levels below it. The physical address must not be 0, which is the kernel's answer
for an address that is not mapped. Below an entry with PS the kernel goes on to walk through
the words of the large page: they have to lead to the frame of the address in that page, or
nowhere if the entry has a reserved bit. -/
def WalksAgree (mem : ByteMem) (virt : Nat) : Nat → Nat → Prop
  | 0, page => page + field virt 11 0 ≠ 0
  | level + 1, table =>
    let low := 12 + 9 * level
    let entry := pte mem table (slot virt level)
    Present entry →
      if level ≠ 0 ∧ entry.testBit 7 then
        if level = 3 ∨ field entry (low - 1) 13 ≠ 0 then
          ∀ page ∈ walk (child mem) (entryGetAddr entry) (slots virt level),
            page + field virt 11 0 = 0
        else
          walk (child mem) (entryGetAddr entry) (slots virt level) =
              some (largeFrame entry virt low) ∧
            largeFrame entry virt low + field virt 11 0 ≠ 0
      else WalksAgree mem virt level (entryGetAddr entry)

instance decidableWalksAgree (mem : ByteMem) (virt : Nat) :
    (level : Nat) → (table : Nat) → Decidable (WalksAgree mem virt level table)
  | 0, page => inferInstanceAs (Decidable (page + field virt 11 0 ≠ 0))
  | level + 1, table =>
    have := decidableWalksAgree mem virt level (entryGetAddr (pte mem table (slot virt level)))
    inferInstanceAs (Decidable (Present _ → ite _ _ (WalksAgree mem virt level _)))

section Levels

variable {mem : ByteMem} {virt f : Nat} {i : Fin 512} {q : List (Fin 512)}

theorem path_eq_slots (virt : Nat) : path virt = slots virt 4 := by
  simp only [path, upperPath, ptSlot, slots, slot, pml4Index_eq, pdptIndex_eq, pdIndex_eq, ptIndex_eq, field]
  rfl

theorem val_slot (virt level : Nat) :
    (slot virt level).val = field virt (12 + 9 * level + 8) (12 + 9 * level) := by
  have hwidth : 12 + 9 * level + 8 + 1 - (12 + 9 * level) = 9 := by omega
  rw [slot, Fin.val_ofNat, field, hwidth]
  exact Nat.mod_mod _ _

theorem entryGetAddr_eq_field (e : Nat) : entryGetAddr e = field e 51 12 * 2 ^ 12 :=
  entryGetAddr_eq e

theorem testBit_pageSize (e : Nat) : e.testBit 7 = true ↔ e &&& pageSizeBit ≠ 0 := by
  rw [show pageSizeBit = 2 ^ 7 from rfl, Nat.and_two_pow]
  cases e.testBit 7 <;> simp

theorem present_iff_testBit (e : Nat) : Present e ↔ e.testBit 0 = true := by
  rw [present_iff, Nat.testBit_zero, decide_eq_true_iff]

theorem slots_dropLast_succ (virt level : Nat) (hlevel : level ≠ 0) :
    (slots virt (level + 1)).dropLast = slot virt level :: (slots virt level).dropLast := by
  rcases Nat.exists_eq_succ_of_ne_zero hlevel with ⟨n, rfl⟩
  rfl

theorem read64_slot (level : Nat) :
    read64 mem (f + 8 * field virt (12 + 9 * level + 8) (12 + 9 * level)) =
      pte mem f (slot virt level) := by
  rw [pte, val_slot]

/-- Without large pages the processor follows the links of the tables. -/
theorem translate_eq_walk {level : Nat}
    (hsmall : SmallPages mem f (slots virt level).dropLast) :
    translate mem virt level f =
      (walk (child mem) f (slots virt level)).map (· + field virt 11 0) := by
  induction level generalizing f with
  | zero => rfl
  | succ level ih =>
    rw [translate, slots, walk_cons]
    simp only [read64_slot]
    by_cases hpres : Present (pte mem f (slot virt level))
    · have hchild : child mem f (slot virt level) =
          some (entryGetAddr (pte mem f (slot virt level))) := if_pos hpres
      rw [if_neg (not_not.mpr ((present_iff_testBit _).mp hpres)), hchild, Option.bind_some,
        entryGetAddr_eq_field]
      by_cases hlevel : level = 0
      · -- the entry of a page table has no PS bit
        subst hlevel
        rw [if_neg (fun h => h.1 rfl), ih trivial]
      · rw [slots_dropLast_succ virt level hlevel] at hsmall
        have hps : ¬ (pte mem f (slot virt level)).testBit 7 = true := by
          rw [testBit_pageSize, not_not]
          exact (hsmall hpres).1
        have hrest := (hsmall hpres).2
        rw [entryGetAddr_eq_field] at hrest
        rw [if_neg (fun h => hps h.2), ih hrest]
    · have hchild : child mem f (slot virt level) = none := if_neg hpres
      rw [if_pos (fun h => hpres ((present_iff_testBit _).mpr h)), hchild]
      rfl

/-- The walk of the kernel gives the byte in the page that it finds, and zero for none. -/
theorem lookup_eq_getD {root : Nat} (hroot : Aligned root) :
    lookup mem root virt =
      ((walk (child mem) root (slots virt 4)).map (· + field virt 11 0)).getD 0 := by
  rw [lookup_eq_walk, path_eq_slots]
  cases hwalk : walk (child mem) root (slots virt 4) with
  | none => rfl
  | some g =>
    have haligned : g % 2 ^ 12 = 0 := walk_aligned hroot hwalk
    have hlow : virt &&& 0xFFF = virt % 2 ^ 12 := Nat.and_two_pow_sub_one_eq_mod virt 12
    show g ||| (virt &&& 0xFFF) = g + field virt 11 0
    rw [hlow, Bits.or_eq_add haligned (Nat.mod_lt _ (Nat.two_pow_pos 12)), field]
    simp

/-- What CR3 gives for the address of a PML4. -/
theorem field_root {root : Nat} (hroot : Aligned root) (hlt : root < 2 ^ 52) :
    field root 51 12 * 2 ^ 12 = root := by
  unfold Aligned at hroot
  unfold field
  omega

/-- So the kernel's walk gives the same, and zero for an address that is not mapped. -/
theorem lookup_eq_hardwareWalk {root : Nat} (hcanonical : Canonical virt) (hroot : Aligned root)
    (hlt : root < 2 ^ 52) (hsmall : SmallPages mem root (upperPath virt)) :
    lookup mem root virt = (hardwareWalk mem root virt).getD 0 := by
  have hupper : upperPath virt = (slots virt 4).dropLast := by
    rw [← path_eq_slots, path, List.dropLast_concat]
  rw [hupper] at hsmall
  rw [hardwareWalk, if_pos hcanonical, field_root hroot hlt, translate_eq_walk hsmall,
    lookup_eq_getD hroot]

/-! ## Where there are large pages -/

/-- A walk of the kernel that ends at `phys`, or at 0 for none, tells what the processor's walk
tells. -/
def SameAnswer (hardware : Option Nat) (phys : Nat) : Prop :=
  (∀ p, hardware = some p → phys = p) ∧ (phys = 0 ↔ hardware = none)

theorem sameAnswer_none {phys : Nat} : SameAnswer none phys ↔ phys = 0 := by
  simp [SameAnswer]

theorem sameAnswer_some {p phys : Nat} : SameAnswer (some p) phys ↔ phys = p ∧ p ≠ 0 := by
  simp only [SameAnswer, Option.some.injEq, forall_eq', reduceCtorEq, iff_false]
  constructor
  · rintro ⟨rfl, hne⟩
    exact ⟨rfl, hne⟩
  · rintro ⟨rfl, hne⟩
    exact ⟨rfl, hne⟩

/-- The place in a large page, by its frame and the place in the frame. -/
theorem largeFrame_add (entry virt level : Nat) :
    largeFrame entry virt (12 + 9 * level) + field virt 11 0 =
      field entry 51 (12 + 9 * level) * 2 ^ (12 + 9 * level) + field virt (12 + 9 * level - 1) 0 := by
  have hsplit : virt % 2 ^ (12 + 9 * level) =
      virt / 2 ^ 12 % 2 ^ (9 * level) * 2 ^ 12 + virt % 2 ^ 12 := by
    rw [Nat.pow_add, Nat.mod_mul, Nat.mul_comm (2 ^ 12), Nat.add_comm]
  have hwidth : 12 + 9 * level - 1 + 1 - 12 = 9 * level := by omega
  have hwhole : 12 + 9 * level - 1 + 1 - 0 = 12 + 9 * level := by omega
  simp only [largeFrame, field, hwidth, hwhole, Nat.pow_zero, Nat.div_one, hsplit]
  rw [Nat.add_assoc]

/-- Level by level, the answers are the same exactly if the tables and the large pages are as
`WalksAgree` says. -/
theorem sameAnswer_iff (level f : Nat) :
    SameAnswer (translate mem virt level f)
        (((walk (child mem) f (slots virt level)).map (· + field virt 11 0)).getD 0) ↔
      WalksAgree mem virt level f := by
  induction level generalizing f with
  | zero =>
    rw [translate, sameAnswer_some, WalksAgree]
    simp [slots]
  | succ level ih =>
    rw [translate, slots, walk_cons, WalksAgree]
    simp only [read64_slot]
    set entry := pte mem f (slot virt level) with he
    by_cases hpres : Present entry
    · have hchild : child mem f (slot virt level) = some (entryGetAddr entry) := if_pos hpres
      rw [if_neg (not_not.mpr ((present_iff_testBit _).mp hpres)), hchild, Option.bind_some,
        forall_prop_of_true hpres]
      by_cases hlarge : level ≠ 0 ∧ entry.testBit 7 = true
      · rw [if_pos hlarge, if_pos hlarge]
        by_cases hreserved : level = 3 ∨ field entry (12 + 9 * level - 1) 13 ≠ 0
        · -- a fault, so the kernel has to find nothing
          rw [if_pos hreserved, if_pos hreserved, sameAnswer_none]
          cases walk (child mem) (entryGetAddr entry) (slots virt level) <;> simp
        · rw [if_neg hreserved, if_neg hreserved, sameAnswer_some, ← largeFrame_add]
          cases walk (child mem) (entryGetAddr entry) (slots virt level) with
          | none =>
            simp only [Option.map_none, Option.getD_none, reduceCtorEq, false_and, iff_false]
            omega
          | some page => simp
      · rw [if_neg hlarge, if_neg hlarge, ← entryGetAddr_eq_field]
        exact ih _
    · have hchild : child mem f (slot virt level) = none := if_neg hpres
      rw [if_pos (fun h => hpres ((present_iff_testBit _).mpr h)), hchild, sameAnswer_none]
      simp [hpres]

end Levels

/-- For every address that a PML4 can have and every canonical address, both walks give the
physical address that the processor finds, and zero exactly if it finds none, if and only if
`WalksAgree` holds at the PML4. Where no present entry above the page table has the PS bit, they
give the address that the processor finds, and `WalksAgree` says that the address is not mapped
to physical address zero. -/
theorem walks_agree_iff {mem : ByteMem} {root virt : Nat} (hcanonical : Canonical virt)
    (hroot : Aligned root) (hlt : root < 2 ^ 52) :
    (((∀ phys, hardwareWalk mem root virt = some phys →
          vmmVirtToPhys mem root virt = phys ∧ userVirtToPhys mem root virt = phys) ∧
        (vmmVirtToPhys mem root virt = 0 ↔ hardwareWalk mem root virt = none) ∧
        (userVirtToPhys mem root virt = 0 ↔ hardwareWalk mem root virt = none)) ↔
      WalksAgree mem virt 4 root) ∧
    (SmallPages mem root (upperPath virt) →
      (∀ phys, hardwareWalk mem root virt = some phys →
        vmmVirtToPhys mem root virt = phys ∧ userVirtToPhys mem root virt = phys) ∧
      (WalksAgree mem virt 4 root ↔ hardwareWalk mem root virt ≠ some 0)) := by
  have hhardware : hardwareWalk mem root virt = translate mem virt 4 root := by
    rw [hardwareWalk, if_pos hcanonical, field_root hroot hlt]
  have hiff : SameAnswer (hardwareWalk mem root virt) (lookup mem root virt) ↔
      WalksAgree mem virt 4 root := by
    rw [hhardware, lookup_eq_getD hroot]
    exact sameAnswer_iff 4 root
  unfold vmmVirtToPhys userVirtToPhys
  constructor
  · simp only [and_self]
    exact hiff
  · intro hsmall
    rw [← hiff, lookup_eq_hardwareWalk hcanonical hroot hlt hsmall]
    cases hardwareWalk mem root virt with
    | none => simp [sameAnswer_none]
    | some phys => simp [sameAnswer_some]

/-- Tables that map the page at `0x1000` to the frame `0x5000`. -/
def smallTables : ByteMem :=
  words [(0x1000, 0x2003), (0x2000, 0x3003), (0x3000, 0x4003), (0x4008, 0x5003)]

/-- A page of 2 MiB with a word that leads to its own second frame. -/
def mirroredPage : ByteMem :=
  words [(0x1000, 0x2003), (0x2000, 0x3003), (0x3000, 0x200083), (0x200008, 0x201003)]

/-- Small pages, and a large page where the words of the page lead back to it. -/
theorem walks_agree_mirrored :
    (hardwareWalk smallTables 0x1000 0x1234 = some 0x5234 ∧
      vmmVirtToPhys smallTables 0x1000 0x1234 = 0x5234) ∧
    (hardwareWalk mirroredPage 0x1000 0x1234 = some 0x201234 ∧
      userVirtToPhys mirroredPage 0x1000 0x1234 = 0x201234) := by
  have hsmall : hardwareWalk smallTables 0x1000 0x1234 = some 0x5234 := by decide
  have hlarge : hardwareWalk mirroredPage 0x1000 0x1234 = some 0x201234 := by decide
  have hagree := @walks_agree_iff mirroredPage 0x1000 0x1234 (by decide) (by decide) (by decide)
  refine ⟨⟨hsmall, ?_⟩, hlarge, ?_⟩
  · exact (((walks_agree_iff (by decide) (by decide) (by decide)).2 (by decide)).1 _ hsmall).1
  · exact ((hagree.1.mpr (by decide)).1 _ hlarge).2

/-- A page of 2 MiB at `0x200000` whose second word looks like an entry, a page of 1 GiB that
is full of zeros, and a page mapped to frame zero. -/
theorem walks_disagree :
    (hardwareWalk (words [(0x1000, 0x2003), (0x2000, 0x3003), (0x3000, 0x200083),
        (0x200008, 0xDEAD007)]) 0x1000 0x1234 = some 0x201234 ∧
      vmmVirtToPhys (words [(0x1000, 0x2003), (0x2000, 0x3003), (0x3000, 0x200083),
        (0x200008, 0xDEAD007)]) 0x1000 0x1234 = 0xDEAD234 ∧
      userVirtToPhys (words [(0x1000, 0x2003), (0x2000, 0x3003), (0x3000, 0x200083),
        (0x200008, 0xDEAD007)]) 0x1000 0x1234 = 0xDEAD234) ∧
    (hardwareWalk (words [(0x1000, 0x2003), (0x2000, 0x40000083)]) 0x1000 0x1234 =
        some 0x40001234 ∧
      vmmVirtToPhys (words [(0x1000, 0x2003), (0x2000, 0x40000083)]) 0x1000 0x1234 = 0 ∧
      userVirtToPhys (words [(0x1000, 0x2003), (0x2000, 0x40000083)]) 0x1000 0x1234 = 0) ∧
    (hardwareWalk (words [(0x1000, 0x2003), (0x2000, 0x3003), (0x3000, 0x4003), (0x4008, 3)])
        0x1000 0x1000 = some 0 ∧
      vmmVirtToPhys (words [(0x1000, 0x2003), (0x2000, 0x3003), (0x3000, 0x4003), (0x4008, 3)])
        0x1000 0x1000 = 0) := by
  refine ⟨⟨?_, ?_, ?_⟩, ⟨?_, ?_, ?_⟩, ?_, ?_⟩
  all_goals decide

end Orchid
