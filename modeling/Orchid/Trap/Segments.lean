import Orchid.Core.Segments
import Orchid.Core.X86
import Orchid.Process.UserEntry
import Mathlib.Tactic.IntervalCases

/-! # Descriptor tables and the way between privilege levels

A model of `kernel/gdt.c` and of the tables of `kernel/idt.c`, byte by byte, read
the way the processor reads them.

* The gates lead to the stubs, in the kernel's code segment, and no program can
  call them (`idt_delivers`).
* The code segment for user mode comes before the data segment in the table, and
  SYSRET wants them the other way round. So no value of STAR gives a program
  selectors with which an interrupt could return to it
  (`resumed_not_by_syscall`).
* The stack that `thread_create_user` prepares makes `iretq` take the stack
  pointer for a code selector, and there is no such segment
  (`userMode_not_entered`).
-/

namespace Orchid

open ByteMem X86 Machine

/-! ## `gdt.c` -/

/-- `struct gdt_entry`. -/
structure GdtEntry where
  limitLow : Nat
  baseLow : Nat
  baseMid : Nat
  access : Nat
  granularity : Nat
  baseHigh : Nat

/-- An assignment to a `struct gdt_entry` at `a`. -/
def GdtEntry.store (e : GdtEntry) (a : Nat) (m : ByteMem) : ByteMem :=
  let m := writeLE m a 2 e.limitLow
  let m := writeLE m (a + 2) 2 e.baseLow
  let m := writeLE m (a + 4) 1 e.baseMid
  let m := writeLE m (a + 5) 1 e.access
  let m := writeLE m (a + 6) 1 e.granularity
  writeLE m (a + 7) 1 e.baseHigh

/-- `struct tss_entry`. -/
structure TssEntry where
  length : Nat
  baseLow : Nat
  baseMid : Nat
  flags1 : Nat
  flags2 : Nat
  baseHigh : Nat
  baseUpper : Nat
  reserved : Nat

def TssEntry.store (e : TssEntry) (a : Nat) (m : ByteMem) : ByteMem :=
  let m := writeLE m a 2 e.length
  let m := writeLE m (a + 2) 2 e.baseLow
  let m := writeLE m (a + 4) 1 e.baseMid
  let m := writeLE m (a + 5) 1 e.flags1
  let m := writeLE m (a + 6) 1 e.flags2
  let m := writeLE m (a + 7) 1 e.baseHigh
  let m := writeLE m (a + 8) 4 e.baseUpper
  writeLE m (a + 12) 4 e.reserved

/-- `sizeof(gdt)`. -/
def sizeofGdt : Nat := 5 * 8 + 16

/-- The stores of `gdt_init`, with the table at `gdt`. -/
def gdtInit (gdt : Nat) (m : ByteMem) : ByteMem :=
  let m := GdtEntry.store ⟨0, 0, 0, 0, 0, 0⟩ gdt m
  let m := GdtEntry.store ⟨0, 0, 0, 0x9A, 0x20, 0⟩ (gdt + 8) m
  let m := GdtEntry.store ⟨0, 0, 0, 0x92, 0, 0⟩ (gdt + 16) m
  let m := GdtEntry.store ⟨0, 0, 0, 0xFA, 0x20, 0⟩ (gdt + 24) m
  let m := GdtEntry.store ⟨0, 0, 0, 0xF2, 0, 0⟩ (gdt + 32) m
  TssEntry.store ⟨0, 0, 0, 0, 0, 0, 0, 0⟩ (gdt + 40) m

/-- `gdtp`, which `gdt_init` loads. -/
def gdtp (gdt : Nat) : TableRegister := ⟨gdt, sizeofGdt - 1⟩

/-- `gdt_set_tss`. -/
def gdtSetTss (gdt base : Nat) (m : ByteMem) : ByteMem :=
  TssEntry.store ⟨104, base &&& 0xFFFF, (base >>> 16) &&& 0xFF, 0x89, 0, (base >>> 24) &&& 0xFF,
    base >>> 32, 0⟩ (gdt + 40) m

/-! ## The tables of `idt.c` -/

/-- `idt_set_gate`, with the table at `idt`. -/
def idtSetGate (idt num base sel flags : Nat) (m : ByteMem) : ByteMem :=
  let e := idt + 16 * num
  let m := writeLE m e 2 (base &&& 0xFFFF)
  let m := writeLE m (e + 6) 2 ((base >>> 16) &&& 0xFFFF)
  let m := writeLE m (e + 8) 4 ((base >>> 32) &&& 0xFFFFFFFF)
  let m := writeLE m (e + 2) 2 sel
  let m := writeLE m (e + 4) 1 0
  let m := writeLE m (e + 5) 1 flags
  writeLE m (e + 12) 4 0

/-- `n` rounds of a loop of `idt_init`, from `i` on. -/
def idtGates (idt : Nat) (stubs : Nat → Nat) (i : Nat) : Nat → ByteMem → ByteMem
  | 0, m => m
  | n + 1, m => idtGates idt stubs (i + 1) n (idtSetGate idt i (stubs i) 0x08 0x8E m)

/-- The stores of `idt_init`; `stubs` is `isr_stub_table`. -/
def idtInit (idt : Nat) (stubs : Nat → Nat) (m : ByteMem) : ByteMem :=
  idtGates idt stubs 32 16 (idtGates idt stubs 0 32 m)

/-- `idtp`, which `idt_init` loads. -/
def idtp (idt : Nat) : TableRegister := ⟨idt, 256 * 16 - 1⟩

/-- STAR as `idt_init` writes it: EAX is the constant, and EDX is zero. -/
def star : Nat := 0x00180008

/-! ## The segments -/

section Descriptors

variable {m m' : ByteMem} {a x : Nat}

theorem GdtEntry.store_apply_of_outside (e : GdtEntry) (h : x < a ∨ a + 8 ≤ x) :
    e.store a m x = m x := by
  unfold GdtEntry.store
  simp (disch := omega) only [writeLE_apply_of_outside]

theorem TssEntry.store_apply_of_outside (e : TssEntry) (h : x < a ∨ a + 16 ≤ x) :
    e.store a m x = m x := by
  unfold TssEntry.store
  simp (disch := omega) only [writeLE_apply_of_outside]

/-- An entry as the processor reads it. -/
theorem readDescriptor_store (e : GdtEntry) (a : Nat) (m : ByteMem) :
    readDescriptor (e.store a m) a =
      { limit := e.limitLow % 2 ^ 16 + e.granularity % 2 ^ 8 % 16 * 2 ^ 16
        base := e.baseLow % 2 ^ 16 + e.baseMid % 2 ^ 8 * 2 ^ 16 + e.baseHigh % 2 ^ 8 * 2 ^ 24
        kind := e.access % 2 ^ 8 % 32
        dpl := e.access % 2 ^ 8 / 32 % 4
        present := (e.access % 2 ^ 8).testBit 7
        long := (e.granularity % 2 ^ 8).testBit 5
        big := (e.granularity % 2 ^ 8).testBit 6 } := by
  unfold readDescriptor GdtEntry.store
  simp (disch := omega) only [readLE_writeLE_of_disjoint, readLE_writeLE_self, Nat.reducePow]

/-- 64-bit code, at a privilege level. -/
def codeSegment (dpl : Nat) : Descriptor := ⟨0, 0, 0x1A, dpl, true, true, false⟩

/-- Writable data. -/
def dataSegment (dpl : Nat) : Descriptor := ⟨0, 0, 0x12, dpl, true, false, false⟩

/-- The table as `gdt_init` leaves it and `gdt_set_tss` keeps it: four segments, and none in
the place of the task state segment. -/
structure GdtLoaded (gdt : Nat) (m : ByteMem) : Prop where
  kernelCode : readDescriptor m (gdt + 8) = codeSegment 0
  kernelData : readDescriptor m (gdt + 16) = dataSegment 0
  userCode : readDescriptor m (gdt + 24) = codeSegment 3
  userData : readDescriptor m (gdt + 32) = dataSegment 3
  tssLow : (readDescriptor m (gdt + 40)).kind < 16
  tssHigh : (readDescriptor m (gdt + 48)).kind < 16

variable {gdt base : Nat}

theorem GdtLoaded.congr (h : GdtLoaded gdt m)
    (hm : ∀ x, gdt ≤ x → x < gdt + 56 → m' x = m x) : GdtLoaded gdt m' := by
  have hsame : ∀ k ≤ 48, readDescriptor m' (gdt + k) = readDescriptor m (gdt + k) := by
    intro k hk
    apply readDescriptor_congr
    intro i hi
    exact hm _ (by omega) (by omega)
  constructor
  · rw [hsame 8 (by omega), h.kernelCode]
  · rw [hsame 16 (by omega), h.kernelData]
  · rw [hsame 24 (by omega), h.userCode]
  · rw [hsame 32 (by omega), h.userData]
  · rw [hsame 40 (by omega)]
    exact h.tssLow
  · rw [hsame 48 (by omega)]
    exact h.tssHigh

/-- The descriptor of a task state segment, and the eight bytes behind it. -/
theorem readDescriptor_tss (e : TssEntry) (a : Nat) (m : ByteMem) :
    (readDescriptor (e.store a m) a).kind = e.flags1 % 2 ^ 8 % 32 ∧
      (readDescriptor (e.store a m) (a + 8)).kind = e.reserved / 2 ^ 8 % 2 ^ 8 % 32 := by
  have hbyte : readLE (e.store a m) (a + 8 + 5) 1 = e.reserved / 2 ^ 8 % 2 ^ 8 := by
    have hread : readLE (e.store a m) (a + 12) 4 = e.reserved % 256 ^ 4 := readLE_writeLE_self ..
    have hdigit := readLE_digit (e.store a m) (a + 12) (show 1 < 4 by omega)
    rw [hread] at hdigit
    show (e.store a m (a + 13)).toNat + 256 * 0 = _
    rw [← hdigit]
    simp only [UInt8.toNat_ofNat', Nat.reducePow]
    omega
  constructor
  · unfold readDescriptor TssEntry.store
    simp (disch := omega) only [readLE_writeLE_of_disjoint, readLE_writeLE_self, Nat.reducePow]
  · unfold readDescriptor
    rw [hbyte]

theorem gdtInit_loaded (gdt : Nat) (m : ByteMem) : GdtLoaded gdt (gdtInit gdt m) := by
  -- each entry is read through the stores behind it
  have hentry : ∀ {m : ByteMem} {a : Nat} {d : Descriptor} (e : GdtEntry) (b : Nat),
      a + 8 ≤ b → readDescriptor m a = d → readDescriptor (e.store b m) a = d := by
    intro m a d e b hab hread
    rw [← hread]
    apply readDescriptor_congr
    intro i hi
    exact e.store_apply_of_outside (by omega)
  have htss : ∀ {m : ByteMem} {a : Nat} {d : Descriptor} (e : TssEntry) (b : Nat),
      a + 8 ≤ b → readDescriptor m a = d → readDescriptor (e.store b m) a = d := by
    intro m a d e b hab hread
    rw [← hread]
    apply readDescriptor_congr
    intro i hi
    exact e.store_apply_of_outside (by omega)
  unfold gdtInit
  constructor
  · apply htss _ _ (by omega)
    apply hentry _ _ (by omega)
    apply hentry _ _ (by omega)
    apply hentry _ _ (by omega)
    rw [readDescriptor_store]
    rfl
  · apply htss _ _ (by omega)
    apply hentry _ _ (by omega)
    apply hentry _ _ (by omega)
    rw [readDescriptor_store]
    rfl
  · apply htss _ _ (by omega)
    apply hentry _ _ (by omega)
    rw [readDescriptor_store]
    rfl
  · apply htss _ _ (by omega)
    rw [readDescriptor_store]
    rfl
  · rw [(readDescriptor_tss _ (gdt + 40) _).1]
    decide
  · rw [(readDescriptor_tss _ (gdt + 40) _).2]
    decide

theorem gdtSetTss_loaded (h : GdtLoaded gdt m) (base : Nat) :
    GdtLoaded gdt (gdtSetTss gdt base m) := by
  have hsame : ∀ k ≤ 32, readDescriptor (gdtSetTss gdt base m) (gdt + k) =
      readDescriptor m (gdt + k) := by
    intro k hk
    apply readDescriptor_congr
    intro i hi
    exact TssEntry.store_apply_of_outside _ (by omega)
  constructor
  · rw [hsame 8 (by omega), h.kernelCode]
  · rw [hsame 16 (by omega), h.kernelData]
  · rw [hsame 24 (by omega), h.userCode]
  · rw [hsame 32 (by omega), h.userData]
  · rw [gdtSetTss, (readDescriptor_tss _ (gdt + 40) _).1]
    show 0x89 % 2 ^ 8 % 32 < 16
    decide
  · rw [gdtSetTss, (readDescriptor_tss _ (gdt + 40) _).2]
    show 0 / 2 ^ 8 % 2 ^ 8 % 32 < 16
    decide

/-! ## Selectors that `iretq` accepts -/

/-- The segments that a selector can name. -/
theorem findDescriptor_cases (h : GdtLoaded gdt m) {sel : Nat} {d : Descriptor}
    (hlook : findDescriptor m (gdtp gdt) sel = some d) (hnull : sel / 4 ≠ 0) (hseg : 16 ≤ d.kind) :
    (sel / 4 = 2 ∧ d = codeSegment 0) ∨ (sel / 4 = 4 ∧ d = dataSegment 0) ∨
      (sel / 4 = 6 ∧ d = codeSegment 3) ∨ (sel / 4 = 8 ∧ d = dataSegment 3) := by
  have hbit : sel.testBit 2 = decide (sel / 4 % 2 = 1) := Nat.testBit_eq_decide_div_mod_eq
  unfold findDescriptor at hlook
  split at hlook
  · cases hlook
  next hgdt =>
  rw [hbit, decide_eq_true_eq] at hgdt
  split at hlook
  · next hlimit =>
    rw [Option.some.injEq] at hlook
    simp only [gdtp, sizeofGdt] at hlimit hlook
    have hindex : sel / 8 ≤ 6 := by omega
    have hquarter : sel / 4 = 2 * (sel / 8) := by omega
    generalize sel / 8 = i at *
    interval_cases i
    · omega
    · exact .inl ⟨hquarter, hlook.symm.trans h.kernelCode⟩
    · exact .inr (.inl ⟨hquarter, hlook.symm.trans h.kernelData⟩)
    · exact .inr (.inr (.inl ⟨hquarter, hlook.symm.trans h.userCode⟩))
    · exact .inr (.inr (.inr ⟨hquarter, hlook.symm.trans h.userData⟩))
    · rw [← hlook] at hseg
      exact absurd hseg (Nat.not_le.mpr h.tssLow)
    · rw [← hlook] at hseg
      exact absurd hseg (Nat.not_le.mpr h.tssHigh)
  · cases hlook

theorem iretCode_iff (h : GdtLoaded gdt m) {cpl cs : Nat} {d : Descriptor} :
    iretCode m (gdtp gdt) cpl cs = some d ↔
      (cs = 0x08 ∧ cpl = 0 ∧ d = codeSegment 0) ∨ (cs = 0x1B ∧ cpl ≤ 3 ∧ d = codeSegment 3) := by
  constructor
  · intro hcode
    unfold iretCode at hcode
    split at hcode
    · cases hcode
    next hnull =>
    rcases Option.filter_eq_some_iff.mp hcode with ⟨hlook, hok⟩
    simp only [Bool.and_eq_true, decide_eq_true_eq] at hok
    rcases hok with ⟨⟨⟨⟨hiscode, -⟩, hcpl⟩, -⟩, hdpl⟩
    have hkind : d.kind / 8 = 3 := by simpa [Descriptor.isCode] using hiscode
    -- both code segments are not conforming, so their level is the selector's
    rcases findDescriptor_cases h hlook hnull (by omega) with
      ⟨hsel, rfl⟩ | ⟨-, rfl⟩ | ⟨hsel, rfl⟩ | ⟨-, rfl⟩
    · have hrpl : 0 = cs % 4 := of_decide_eq_true hdpl
      exact .inl ⟨by omega, by omega, rfl⟩
    · exact absurd hkind (by decide)
    · have hrpl : 3 = cs % 4 := of_decide_eq_true hdpl
      exact .inr ⟨by omega, by omega, rfl⟩
    · exact absurd hkind (by decide)
  · rintro (⟨rfl, rfl, rfl⟩ | ⟨rfl, hcpl, rfl⟩)
    · have hlook : findDescriptor m (gdtp gdt) 0x08 = some (codeSegment 0) :=
        congrArg some h.kernelCode
      rw [iretCode, hlook]
      rfl
    · have hlook : findDescriptor m (gdtp gdt) 0x1B = some (codeSegment 3) :=
        congrArg some h.userCode
      rw [iretCode, hlook, if_neg (by decide)]
      refine Option.filter_eq_some_iff.mpr ⟨rfl, ?_⟩
      simp [Descriptor.isCode, Descriptor.isConforming, codeSegment, hcpl]

theorem iretStack_iff (h : GdtLoaded gdt m) {code : Descriptor} {rpl ss : Nat} :
    iretStack m (gdtp gdt) code rpl ss = true ↔
      (ss < 4 ∧ code.long = true ∧ rpl ≠ 3) ∨ (rpl = 0 ∧ ss = 0x10) ∨ (rpl = 3 ∧ ss = 0x23) := by
  constructor
  · intro hstack
    unfold iretStack at hstack
    split at hstack
    · next hnull =>
      simp only [Bool.and_eq_true, decide_eq_true_eq] at hstack
      exact .inl ⟨by omega, hstack⟩
    next hnull =>
    split at hstack
    · cases hstack
    next d hlook =>
    simp only [Bool.and_eq_true, decide_eq_true_eq, Descriptor.isWritableData] at hstack
    rcases hstack with ⟨⟨⟨⟨hkind, -⟩, -⟩, hrpl⟩, hdpl⟩
    rcases findDescriptor_cases h hlook hnull (by omega) with
      ⟨-, rfl⟩ | ⟨hsel, rfl⟩ | ⟨-, rfl⟩ | ⟨hsel, rfl⟩
    · exact absurd hkind (by decide)
    · have hzero : 0 = rpl := hdpl
      exact .inr (.inl ⟨hzero.symm, by omega⟩)
    · exact absurd hkind (by decide)
    · have hthree : 3 = rpl := hdpl
      exact .inr (.inr ⟨hthree.symm, by omega⟩)
  · rintro (⟨hnull, hlong, hrpl⟩ | ⟨rfl, rfl⟩ | ⟨rfl, rfl⟩)
    · rw [iretStack, if_pos (by omega), hlong]
      simpa using hrpl
    · have hlook : findDescriptor m (gdtp gdt) 0x10 = some (dataSegment 0) :=
        congrArg some h.kernelData
      rw [iretStack, hlook]
      rfl
    · have hlook : findDescriptor m (gdtp gdt) 0x23 = some (dataSegment 3) :=
        congrArg some h.userData
      rw [iretStack, hlook]
      rfl

/-- `iretq` accepts the two pairs of selectors, and in the kernel a null selector for the
stack. -/
theorem iretPrivilege_iff (h : GdtLoaded gdt m) {cpl cs ss p : Nat} :
    iretPrivilege m (gdtp gdt) cpl cs ss = some p ↔
      (p = 0 ∧ cpl = 0 ∧ cs = 0x08 ∧ (ss < 4 ∨ ss = 0x10)) ∨
      (p = 3 ∧ cpl ≤ 3 ∧ cs = 0x1B ∧ ss = 0x23) := by
  unfold iretPrivilege
  constructor
  · intro hiret
    split at hiret
    · cases hiret
    next d hcode =>
    split at hiret
    · next hstack =>
      cases hiret
      rw [iretStack_iff h] at hstack
      rcases (iretCode_iff h).mp hcode with ⟨rfl, rfl, rfl⟩ | ⟨rfl, hcpl, rfl⟩
      · left
        refine ⟨rfl, rfl, rfl, ?_⟩
        omega
      · right
        refine ⟨rfl, hcpl, rfl, ?_⟩
        omega
    · cases hiret
  · rintro (⟨rfl, rfl, rfl, hss⟩ | ⟨rfl, hcpl, rfl, rfl⟩)
    · rw [(iretCode_iff h).mpr (.inl ⟨rfl, rfl, rfl⟩)]
      refine if_pos ((iretStack_iff h).mpr ?_)
      rcases hss with hss | hss
      · exact .inl ⟨hss, rfl, by decide⟩
      · exact .inr (.inl ⟨rfl, hss⟩)
    · rw [(iretCode_iff h).mpr (.inr ⟨rfl, hcpl, rfl⟩)]
      exact if_pos ((iretStack_iff h).mpr (.inr (.inr ⟨rfl, rfl⟩)))

end Descriptors

/-! ## The gates -/

section Gates

variable {m : ByteMem} {idt num base sel flags gdt i n v : Nat} {stubs : Nat → Nat}

theorem idtSetGate_apply_of_outside {x : Nat} (h : x < idt + 16 * num ∨ idt + 16 * num + 16 ≤ x) :
    idtSetGate idt num base sel flags m x = m x := by
  unfold idtSetGate
  simp (disch := omega) only [writeLE_apply_of_outside]

/-- What the processor reads is what was stored. -/
theorem readGate_idtSetGate (hbase : base < 2 ^ 64) :
    readGate (idtSetGate idt num base sel flags m) (idt + 16 * num) =
      ⟨base, sel % 2 ^ 16, 0, flags % 2 ^ 8 % 32, flags % 2 ^ 8 / 32 % 4,
        (flags % 2 ^ 8).testBit 7⟩ := by
  have hlow : base &&& 0xFFFF = base % 2 ^ 16 := Nat.and_two_pow_sub_one_eq_mod base 16
  have hmid : (base >>> 16) &&& 0xFFFF = base / 2 ^ 16 % 2 ^ 16 := Bits.shiftRight_and base 16 16
  have hhigh : (base >>> 32) &&& 0xFFFFFFFF = base / 2 ^ 32 % 2 ^ 32 :=
    Bits.shiftRight_and base 32 32
  unfold readGate idtSetGate
  simp (disch := omega) only [readLE_writeLE_of_disjoint, readLE_writeLE_self, Nat.reducePow,
    hlow, hmid, hhigh]
  congr 1
  omega

/-- The loops store one gate for each vector and leave the rest. -/
theorem readGate_idtGates (hstubs : ∀ v < i + n, stubs v < 2 ^ 64) :
    readGate (idtGates idt stubs i n m) (idt + 16 * v) =
      if i ≤ v ∧ v < i + n then ⟨stubs v, 0x08, 0, 14, 0, true⟩ else readGate m (idt + 16 * v) := by
  -- induction on the rounds to go
  induction n generalizing i m with
  | zero =>
    rw [if_neg (by omega)]
    rfl
  | succ n ih =>
    rw [idtGates, ih fun v hv => hstubs v (by omega)]
    by_cases hv : v = i
    · subst hv
      rw [if_neg (by omega), if_pos (by omega), readGate_idtSetGate (hstubs v (by omega))]
      rfl
    · have hother : readGate (idtSetGate idt i (stubs i) 0x08 0x8E m) (idt + 16 * v) =
          readGate m (idt + 16 * v) := by
        apply readGate_congr
        intro k hk
        exact idtSetGate_apply_of_outside (by omega)
      rw [hother]
      exact if_congr (by omega) rfl rfl

theorem idtGates_apply_of_outside {x : Nat} (h : x < idt ∨ idt + 16 * (i + n) ≤ x) :
    idtGates idt stubs i n m x = m x := by
  induction n generalizing i m with
  | zero => rfl
  | succ n ih =>
    rw [idtGates, ih (by omega)]
    exact idtSetGate_apply_of_outside (by omega)

/-- The tables once `gdt_init`, `idt_init` and `tss_init` have run. -/
def bootTables (gdt idt : Nat) (stubs : Nat → Nat) (tss : Nat) (m : ByteMem) : ByteMem :=
  gdtSetTss gdt tss (idtInit idt stubs (gdtInit gdt m))

/-- The two tables do not overlap, and the second is zero, as static data are. -/
structure TablesPlaced (gdt idt : Nat) (m : ByteMem) : Prop where
  apart : gdt + sizeofGdt ≤ idt ∨ idt + 256 * 16 ≤ gdt
  zero : ∀ x, idt ≤ x → x < idt + 256 * 16 → m x = 0

theorem bootTables_loaded (h : TablesPlaced gdt idt m) (stubs : Nat → Nat) (tss : Nat) :
    GdtLoaded gdt (bootTables gdt idt stubs tss m) := by
  have hapart := h.apart
  simp only [sizeofGdt] at hapart
  refine gdtSetTss_loaded ((gdtInit_loaded gdt m).congr ?_) tss
  intro x hlo hhi
  rw [idtInit, idtGates_apply_of_outside (by omega), idtGates_apply_of_outside (by omega)]

theorem gdtInit_apply_of_outside {x : Nat} (h : x < gdt ∨ gdt + 56 ≤ x) :
    gdtInit gdt m x = m x := by
  unfold gdtInit
  rw [TssEntry.store_apply_of_outside _ (by omega), GdtEntry.store_apply_of_outside _ (by omega),
    GdtEntry.store_apply_of_outside _ (by omega), GdtEntry.store_apply_of_outside _ (by omega),
    GdtEntry.store_apply_of_outside _ (by omega), GdtEntry.store_apply_of_outside _ (by omega)]

theorem readGate_of_zero {a : Nat} (h : ∀ i < 16, m (a + i) = 0) :
    (readGate m a).present = false := by
  have hbyte : readLE m (a + 5) 1 = 0 := by
    simp only [readLE, h 5 (by omega)]
    rfl
  unfold readGate
  rw [hbyte]
  rfl

theorem readGate_bootTables (h : TablesPlaced gdt idt m) (hstubs : ∀ v < 48, stubs v < 2 ^ 64)
    (hv : v < 256) (tss : Nat) :
    if v < 48 then
      readGate (bootTables gdt idt stubs tss m) (idt + 16 * v) = ⟨stubs v, 0x08, 0, 14, 0, true⟩
    else (readGate (bootTables gdt idt stubs tss m) (idt + 16 * v)).present = false := by
  have hapart := h.apart
  simp only [sizeofGdt] at hapart
  have htss : readGate (bootTables gdt idt stubs tss m) (idt + 16 * v) =
      readGate (idtInit idt stubs (gdtInit gdt m)) (idt + 16 * v) := by
    apply readGate_congr
    intro k hk
    exact TssEntry.store_apply_of_outside _ (by omega)
  rw [htss, idtInit, readGate_idtGates fun v hv => hstubs v (by omega),
    readGate_idtGates fun v hv => hstubs v (by omega)]
  by_cases hlow : v < 32
  · rw [if_pos (by omega), if_neg (by omega), if_pos (by omega)]
  · by_cases hirq : v < 48
    · rw [if_pos hirq, if_pos (by omega)]
    · rw [if_neg hirq, if_neg (by omega), if_neg (by omega)]
      apply readGate_of_zero
      intro k hk
      rw [gdtInit_apply_of_outside (by omega)]
      exact h.zero _ (by omega) (by omega)

/-- A gate of the kernel's to its own code. -/
theorem enterGate_kernel (h : GdtLoaded gdt m) (offset cpl : Nat) (software : Bool) :
    enterGate m (gdtp gdt) cpl software ⟨offset, 0x08, 0, 14, 0, true⟩ =
      if software = true → cpl = 0 then some (⟨offset, 0x08, 0, 14, 0, true⟩, 0) else none := by
  have hlook : findDescriptor m (gdtp gdt) 0x08 = some (codeSegment 0) :=
    congrArg some h.kernelCode
  unfold enterGate
  rw [hlook]
  by_cases hallowed : software = true → cpl = 0
  · rw [if_pos hallowed]
    have hrefused : ¬ ((software && decide (0 < cpl)) = true) := by
      intro hboth
      rw [Bool.and_eq_true, decide_eq_true_eq] at hboth
      have := hallowed hboth.1
      omega
    simp [GateDescriptor.isInterrupt, hrefused, codeSegment, Descriptor.isCode,
      Descriptor.isConforming]
    exact if_neg (by decide)
  · rw [if_neg hallowed]
    rw [Classical.not_imp] at hallowed
    simp [GateDescriptor.isInterrupt, hallowed.1, Nat.pos_of_ne_zero hallowed.2]

/-- Once the tables are there, every interrupt and exception below 48 goes to its stub with
the kernel's code segment, at the kernel's privilege and with interrupts off; no other vector
is delivered; and `int n` is refused outside the kernel, for every `n`. -/
theorem idt_delivers (gdt idt tss : Nat) (stubs : Nat → Nat) (m : ByteMem)
    (h : TablesPlaced gdt idt m) (hstubs : ∀ v < 48, stubs v < 2 ^ 64) (cpl : Nat) (software : Bool)
    (v : Nat) :
    deliverVector (bootTables gdt idt stubs tss m) (gdtp gdt) (idtp idt) cpl software v =
      if v < 48 ∧ (software = true → cpl = 0) then some (⟨stubs v, 0x08, 0, 14, 0, true⟩, 0)
      else none := by
  have hloaded := bootTables_loaded h stubs tss
  unfold deliverVector idtp
  by_cases hlimit : 256 * 16 - 1 < v * 16 + 15
  · rw [if_pos hlimit, if_neg (by omega)]
  have hgate := readGate_bootTables h hstubs (show v < 256 by omega) tss
  rw [if_neg hlimit, Nat.mul_comm v 16]
  by_cases hv : v < 48
  · rw [if_pos hv] at hgate
    rw [hgate, enterGate_kernel hloaded]
    exact if_congr (by simp [hv]) rfl rfl
  · rw [if_neg hv] at hgate
    rw [if_neg fun hboth => hv hboth.1, enterGate, hgate]
    rfl

/-- A gate for each of 48 stubs, in tables side by side. -/
theorem idt_delivers_timer :
    deliverVector (bootTables 0x1000 0x2000 (fun v => 0x9000 + v) 0x500 fun _ => 0) (gdtp 0x1000)
      (idtp 0x2000) 3 false 32 = some (⟨0x9020, 0x08, 0, 14, 0, true⟩, 0) := by
  rw [idt_delivers 0x1000 0x2000 0x500 _ _ ⟨.inl (by decide), fun _ _ _ => rfl⟩ (by
    intro v hv
    omega)]
  rfl

/-- The task register is loaded with the segment that `gdt_set_tss` was given, at any address.
Its limit is one more than the offset of its last byte. -/
theorem tss_found (gdt idt tss : Nat) (stubs : Nat → Nat) (m : ByteMem) (htss : tss < 2 ^ 64) :
    ∃ d, findTss (bootTables gdt idt stubs tss m) (gdtp gdt) 0x28 = some (d, tss) ∧
      d.isFreeTss = true ∧ d.present = true ∧ d.limit = 104 := by
  have hlow : tss &&& 0xFFFF = tss % 2 ^ 16 := Nat.and_two_pow_sub_one_eq_mod tss 16
  have hmid : (tss >>> 16) &&& 0xFF = tss / 2 ^ 16 % 2 ^ 8 := Bits.shiftRight_and tss 16 8
  have hhigh : (tss >>> 24) &&& 0xFF = tss / 2 ^ 24 % 2 ^ 8 := Bits.shiftRight_and tss 24 8
  have hupper : tss >>> 32 = tss / 2 ^ 32 := Nat.shiftRight_eq_div_pow tss 32
  have hdesc : readDescriptor (bootTables gdt idt stubs tss m) (gdt + 40) =
      ⟨104, tss % 2 ^ 32, 9, 0, true, false, false⟩ := by
    unfold readDescriptor bootTables gdtSetTss TssEntry.store
    simp (disch := omega) only [readLE_writeLE_of_disjoint, readLE_writeLE_self, Nat.reducePow,
      hlow, hmid, hhigh]
    ext1 <;> first | rfl | (simp only []; omega)
  have hrest : readLE (bootTables gdt idt stubs tss m) (gdt + 40 + 8) 4 = tss / 2 ^ 32 := by
    unfold bootTables gdtSetTss TssEntry.store
    rw [readLE_writeLE_of_disjoint (by omega), readLE_writeLE_self, hupper]
    show tss / 2 ^ 32 % 256 ^ 4 = tss / 2 ^ 32
    omega
  have hfind : findDescriptor (bootTables gdt idt stubs tss m) (gdtp gdt) 0x28 =
      some (readDescriptor (bootTables gdt idt stubs tss m) (gdt + 40)) := rfl
  refine ⟨⟨104, tss % 2 ^ 32, 9, 0, true, false, false⟩, ?_, rfl, rfl, rfl⟩
  have hlimit : 0x28 / 8 * 8 + 15 ≤ (gdtp gdt).limit := by
    show 55 ≤ 55
    exact le_rfl
  rw [findTss, if_pos hlimit, hfind, hdesc, Option.map_some]
  have hbase : tss % 2 ^ 32 + readLE (bootTables gdt idt stubs tss m) (gdt + 40 + 8) 4 * 2 ^ 32 =
      tss := by
    rw [hrest]
    omega
  exact congrArg (fun b => some (_, b)) hbase

/-- At an address of the kernel heap. -/
theorem tss_found_heap : ∃ d,
    findTss (bootTables 0x1000 0x2000 (fun _ => 0) 0xFFFFF00000000010 fun _ => 0) (gdtp 0x1000) 0x28 =
      some (d, 0xFFFFF00000000010) ∧ d.limit = 104 := by
  rcases tss_found 0x1000 0x2000 0xFFFFF00000000010 (fun _ => 0) (fun _ => 0) (by decide) with
    ⟨d, hfound, -, -, hlimit⟩
  exact ⟨d, hfound, hlimit⟩

end Gates

/-! ## Between the privilege levels -/

/-- What loaded CS and SS. -/
inductive LoadedBy where
  | gate
  | iret
  | syscall
  | sysret
  deriving DecidableEq, Repr

/-- The selectors in use, and the privilege level. -/
structure Selectors where
  cpl : Nat
  cs : Nat
  ss : Nat
  loadedBy : LoadedBy

/-- The selectors in use and, for each interrupt that has not returned, those that were in
use when it was delivered. -/
structure Privilege where
  now : Selectors
  frames : List Selectors

namespace Privilege

/-- Nothing is interrupted, and the selectors are some that were loaded from the table. -/
def Init : StatePred Privilege := fun s => s.frames = [] ∧ s.now.loadedBy = .iret

/-- What can load selectors, with `star` in the register of that name and the tables in `m`.
SYSCALL is no privileged instruction, and also a kernel thread executes it, in
`kbd_buf_get`. -/
inductive Next (m : ByteMem) (gdt idt star : Nat) : Action Privilege where
  | syscall {s : Privilege} : Next m gdt idt star s
      { s with now := ⟨0, (syscallSelectors star).1, (syscallSelectors star).2, .syscall⟩ }
  | sysret {s : Privilege} : s.now.cpl = 0 → Next m gdt idt star s
      { s with now := ⟨3, (sysretSelectors star).1, (sysretSelectors star).2, .sysret⟩ }
  | interrupt {s : Privilege} {software : Bool} {v p : Nat} {g : GateDescriptor} :
      deliverVector m (gdtp gdt) (idtp idt) s.now.cpl software v = some (g, p) →
      Next m gdt idt star s
        { now := ⟨p, g.selector, if p < s.now.cpl then 0 else s.now.ss, .gate⟩
          frames := s.now :: s.frames }
  | iret {s : Privilege} {f : Selectors} {rest : List Selectors} {p : Nat} : s.frames = f :: rest →
      iretPrivilege m (gdtp gdt) s.now.cpl f.cs f.ss = some p →
      Next m gdt idt star s { now := ⟨p, f.cs, f.ss, .iret⟩, frames := rest }

/-- Selectors loaded from STAR are the ones that STAR says. -/
def FromStar (star : Nat) (f : Selectors) : Prop :=
  (f.loadedBy = .syscall → (f.cs, f.ss) = syscallSelectors star) ∧
  (f.loadedBy = .sysret → (f.cs, f.ss) = sysretSelectors star)

theorem reachable_fromStar {m : ByteMem} {gdt idt star : Nat} {s : Privilege}
    (h : Reachable Init (Next m gdt idt star) s) : ∀ f ∈ s.now :: s.frames, FromStar star f := by
  apply h.invariant
  · rintro s ⟨hframes, hnow⟩ f hf
    rw [hframes, List.mem_singleton] at hf
    subst hf
    constructor
    · intro hby
      exact LoadedBy.noConfusion (hnow.symm.trans hby)
    · intro hby
      exact LoadedBy.noConfusion (hnow.symm.trans hby)
  · intro s s' hnext ih f hf
    cases hnext with
    | syscall =>
      rcases List.mem_cons.mp hf with rfl | hf
      · exact ⟨fun _ => rfl, fun hby => LoadedBy.noConfusion hby⟩
      · exact ih f (List.mem_cons_of_mem _ hf)
    | sysret _ =>
      rcases List.mem_cons.mp hf with rfl | hf
      · exact ⟨fun hby => LoadedBy.noConfusion hby, fun _ => rfl⟩
      · exact ih f (List.mem_cons_of_mem _ hf)
    | interrupt _ =>
      rcases List.mem_cons.mp hf with rfl | hf
      · exact ⟨fun hby => LoadedBy.noConfusion hby, fun hby => LoadedBy.noConfusion hby⟩
      · exact ih f hf
    | iret hframes _ =>
      rcases List.mem_cons.mp hf with rfl | hf
      · exact ⟨fun hby => LoadedBy.noConfusion hby, fun hby => LoadedBy.noConfusion hby⟩
      · refine ih f (List.mem_cons_of_mem _ ?_)
        rw [hframes]
        exact List.mem_cons_of_mem _ hf

theorem or_three (x : Nat) : x ||| 3 = x / 4 * 4 + 3 := by
  have hdiv : (x ||| 3) / 2 ^ 2 = x / 2 ^ 2 ||| 0 := Nat.or_div_two_pow
  have hmod : (x ||| 3) % 2 ^ 2 = x % 2 ^ 2 ||| 3 := Nat.or_mod_two_pow
  have hlow : ∀ r < 4, r ||| 3 = 3 := by decide
  rw [hlow (x % 2 ^ 2) (Nat.mod_lt _ (by decide))] at hmod
  rw [Nat.or_zero] at hdiv
  omega

/-- No value of STAR makes SYSRET load the two selectors for user mode: it takes the stack
segment from the place before the code segment. -/
theorem sysret_not_accepted {m : ByteMem} {gdt : Nat} (h : GdtLoaded gdt m) (star cpl p : Nat) :
    iretPrivilege m (gdtp gdt) cpl (sysretSelectors star).1 (sysretSelectors star).2 ≠ some p := by
  rw [Ne, iretPrivilege_iff h]
  simp only [sysretSelectors, or_three]
  omega

/-- In every run, for any value of STAR, no interrupt returns to code whose selectors SYSRET
has loaded; and with the value that `idt_init` writes, none returns to code whose selectors
SYSCALL has loaded. So no program survives the first interrupt after a system call. -/
theorem resumed_not_by_syscall (m : ByteMem) (gdt idt star : Nat) (hgdt : GdtLoaded gdt m)
    {s : Privilege} (h : Reachable Init (Next m gdt idt star) s) {f : Selectors}
    {rest : List Selectors} (hframes : s.frames = f :: rest) {p : Nat}
    (hiret : iretPrivilege m (gdtp gdt) s.now.cpl f.cs f.ss = some p) :
    f.loadedBy ≠ .sysret ∧ (star = Orchid.star → f.loadedBy ≠ .syscall) := by
  rcases reachable_fromStar h f (by rw [hframes]; simp) with ⟨hsyscall, hsysret⟩
  constructor
  · intro hby
    have hcs : f.cs = (sysretSelectors star).1 := congrArg Prod.fst (hsysret hby)
    have hss : f.ss = (sysretSelectors star).2 := congrArg Prod.snd (hsysret hby)
    rw [hcs, hss] at hiret
    exact sysret_not_accepted hgdt star _ _ hiret
  · rintro rfl hby
    have hcs : f.cs = 0 := congrArg Prod.fst (hsyscall hby)
    rw [iretPrivilege_iff hgdt] at hiret
    omega

/-- A program that has made no system call is interrupted, and the interrupt returns to it. -/
theorem resumed_not_by_syscall_timer :
    ∃ (m : ByteMem) (s : Privilege) (f : Selectors), Reachable Init (Next m 0x1000 0x2000 Orchid.star) s ∧
      s.frames = [f] ∧ iretPrivilege m (gdtp 0x1000) s.now.cpl f.cs f.ss = some 3 ∧
      f.loadedBy ≠ .sysret := by
  let m := bootTables 0x1000 0x2000 (fun _ => 0x9000) 0x500 fun _ => 0
  let s : Privilege := ⟨⟨3, 0x1B, 0x23, .iret⟩, []⟩
  have hplaced : TablesPlaced 0x1000 0x2000 fun _ => 0 := ⟨.inl (by decide), fun _ _ _ => rfl⟩
  have hgdt : GdtLoaded 0x1000 m := bootTables_loaded hplaced _ _
  have hgate : readGate m (0x2000 + 16 * 32) = ⟨0x9000, 0x08, 0, 14, 0, true⟩ :=
    readGate_bootTables hplaced (fun _ _ => by decide) (show 32 < 256 by decide) 0x500
  have hdeliver : deliverVector m (gdtp 0x1000) (idtp 0x2000) s.now.cpl false 32 =
      some (⟨0x9000, 0x08, 0, 14, 0, true⟩, 0) := by
    rw [deliverVector, if_neg (by decide), Nat.mul_comm 32 16]
    show enterGate m _ _ _ (readGate m (0x2000 + 16 * 32)) = _
    rw [hgate, enterGate_kernel hgdt]
    rfl
  have hreach : Reachable Init (Next m 0x1000 0x2000 Orchid.star)
      ⟨⟨0, 0x08, 0, .gate⟩, [s.now]⟩ := .step (.init ⟨rfl, rfl⟩) (.interrupt hdeliver)
  have hiret : iretPrivilege m (gdtp 0x1000) 0 0x1B 0x23 = some 3 :=
    (iretPrivilege_iff hgdt).mpr (.inr ⟨rfl, by decide, rfl, rfl⟩)
  exact ⟨m, _, s.now, hreach, rfl, hiret,
    (resumed_not_by_syscall m 0x1000 0x2000 Orchid.star hgdt hreach rfl hiret).1⟩

end Privilege

/-! ## Into user mode -/

open Switching in
/-- A thread that `load_raw` or `sys_fork` makes, with any address to start at. Whatever
happens before it is first switched to, the `iretq` of `userspace_entry` faults: the code
selector that it pops is the low part of the stack pointer. -/
theorem userMode_not_entered (mem : ByteMem) (gdt : Nat) (hgdt : GdtLoaded gdt mem)
    {m m₂ m₃ : Switching} {t : Tid} {stack pml4Phys : Nat} {proc : Option ProcPtr}
    {entry userEntry : UInt64} (h : Reachable Switching.Init UserNext m) (hfresh : t ∉ m.threads)
    (hroom : ∀ u ∈ m.threads, stack + stackSize ≤ (m.stack u).1 ∨ (m.stack u).2 ≤ stack)
    (hrun : Relation.ReflTransGen (UserAway t) (m.createUser t stack pml4Phys proc entry userEntry
      (UInt64.ofNat (userStackVaddr + pageSize))) m₂)
    (hswitch : UserNext m₂ m₃) (hcur : m₃.sched.currentThread = some t) :
    m₃.regs.rip = entry ∧
      iretPrivilege mem (gdtp gdt) 0 m₃.userspaceEntry.cs.toUInt16.toNat
        m₃.userspaceEntry.ss.toUInt16.toNat = none := by
  rcases inv_of_userReachable h hfresh with ⟨hinv, haway⟩
  rcases (starts_createUser m t stack pml4Phys proc entry userEntry _).switched
    (userNext_inv hinv (.createUser hfresh hroom)) (Set.mem_insert t _) haway hrun hswitch hcur with
    ⟨hrip, hstate⟩
  refine ⟨hrip, ?_⟩
  have hcs : m₃.userspaceEntry.cs.toUInt16.toNat = 0x1000 := by
    rw [hstate]
    show (UInt64.ofNat (userStackVaddr + pageSize)).toUInt16.toNat = 0x1000
    rfl
  rw [hcs]
  refine Option.eq_none_iff_forall_ne_some.mpr fun p hp => ?_
  rw [iretPrivilege_iff hgdt] at hp
  omega

open Switching in
/-- The first user thread of the idle thread's, as `load_raw` makes it. -/
theorem userMode_not_entered_first : ∃ m : Switching, m.sched.currentThread = some 2 ∧
    m.regs.rip = 0x1234 ∧
    iretPrivilege (gdtInit 0x1000 fun _ => 0) (gdtp 0x1000) 0 m.userspaceEntry.cs.toUInt16.toNat
      m.userspaceEntry.ss.toUInt16.toNat = none := by
  rcases first_switch 0x400000 (UInt64.ofNat (userStackVaddr + pageSize)) with ⟨m, hswitch, hcur⟩
  have hfaults := userMode_not_entered _ 0x1000 (gdtInit_loaded 0x1000 fun _ => 0)
    (.init init_onlyIdle) two_notMem_onlyIdle roomFor_onlyIdle .refl hswitch hcur
  exact ⟨m, hcur, hfaults.1, hfaults.2⟩

end Orchid
