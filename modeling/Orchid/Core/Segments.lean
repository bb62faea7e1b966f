import Orchid.Core.ByteMem
import Mathlib.Tactic.IntervalCases

/-! # Segments, gates and privilege on x86-64

How the processor reads a descriptor table, which selectors `iretq` accepts, where
an interrupt gate leads, and which selectors SYSCALL and SYSRET load. SYSCALL and
SYSRET look at no table; everything else does.
-/

namespace X86

open ByteMem

/-! ## Descriptors -/

/-- A segment descriptor; `kind` is the S bit with the four bits of the type. -/
@[ext]
structure Descriptor where
  limit : Nat
  base : Nat
  kind : Nat
  dpl : Nat
  present : Bool
  long : Bool
  big : Bool
  deriving DecidableEq, Repr

def readDescriptor (m : ByteMem) (a : Nat) : Descriptor where
  limit := readLE m a 2 + readLE m (a + 6) 1 % 16 * 2 ^ 16
  base := readLE m (a + 2) 2 + readLE m (a + 4) 1 * 2 ^ 16 + readLE m (a + 7) 1 * 2 ^ 24
  kind := readLE m (a + 5) 1 % 32
  dpl := readLE m (a + 5) 1 / 32 % 4
  present := (readLE m (a + 5) 1).testBit 7
  long := (readLE m (a + 6) 1).testBit 5
  big := (readLE m (a + 6) 1).testBit 6

namespace Descriptor

def isCode (d : Descriptor) : Bool := d.kind / 8 = 3

def isConforming (d : Descriptor) : Bool := d.kind.testBit 2

def isWritableData (d : Descriptor) : Bool := d.kind / 8 = 2 && d.kind.testBit 1

/-- An available 64-bit task state segment. -/
def isFreeTss (d : Descriptor) : Bool := d.kind = 9

end Descriptor

/-- What `lgdt` and `lidt` load. -/
structure TableRegister where
  base : Nat
  limit : Nat

/-- The descriptor of a selector; there is no local table. -/
def findDescriptor (m : ByteMem) (gdtr : TableRegister) (sel : Nat) : Option Descriptor :=
  if sel.testBit 2 then none
  else if sel / 8 * 8 + 7 ≤ gdtr.limit then some (readDescriptor m (gdtr.base + sel / 8 * 8))
  else none

/-- The 16 bytes of a system descriptor: the lower half, and the upper half of the base. -/
def findTss (m : ByteMem) (gdtr : TableRegister) (sel : Nat) : Option (Descriptor × Nat) :=
  if sel / 8 * 8 + 15 ≤ gdtr.limit then
    (findDescriptor m gdtr sel).map fun d =>
      (d, d.base + readLE m (gdtr.base + sel / 8 * 8 + 8) 4 * 2 ^ 32)
  else none

theorem readDescriptor_congr {m m' : ByteMem} {a : Nat} (h : ∀ i < 8, m' (a + i) = m (a + i)) :
    readDescriptor m' a = readDescriptor m a := by
  have hfield : ∀ k n, k + n ≤ 8 → readLE m' (a + k) n = readLE m (a + k) n := by
    intro k n hkn
    apply readLE_congr
    intro i hi
    rw [Nat.add_assoc]
    exact h (k + i) (by omega)
  have hlimit : readLE m' a 2 = readLE m a 2 := hfield 0 2 (by omega)
  unfold readDescriptor
  rw [hlimit, hfield 2 2 (by omega), hfield 4 1 (by omega), hfield 5 1 (by omega),
    hfield 6 1 (by omega), hfield 7 1 (by omega)]

/-! ## Returning from an interrupt -/

/-- The descriptor that `iretq` loads into CS, or `none` if it faults. -/
def iretCode (m : ByteMem) (gdtr : TableRegister) (cpl cs : Nat) : Option Descriptor :=
  if cs / 4 = 0 then none else
  (findDescriptor m gdtr cs).filter fun d =>
    d.isCode && d.present && decide (cpl ≤ cs % 4) && !(d.long && d.big) &&
      if d.isConforming then decide (d.dpl ≤ cs % 4) else decide (d.dpl = cs % 4)

/-- Whether it accepts the stack selector. A null one will do for 64-bit code of the kernel. -/
def iretStack (m : ByteMem) (gdtr : TableRegister) (code : Descriptor) (rpl ss : Nat) : Bool :=
  if ss / 4 = 0 then code.long && decide (rpl ≠ 3) else
  match findDescriptor m gdtr ss with
  | none => false
  | some d => d.isWritableData && d.present && decide (ss % 4 = rpl) && decide (d.dpl = rpl)

/-- The privilege level after `iretq`, or `none` if it faults. -/
def iretPrivilege (m : ByteMem) (gdtr : TableRegister) (cpl cs ss : Nat) : Option Nat :=
  match iretCode m gdtr cpl cs with
  | none => none
  | some d => if iretStack m gdtr d (cs % 4) ss then some (cs % 4) else none

/-! ## Gates -/

@[ext]
structure GateDescriptor where
  offset : Nat
  selector : Nat
  ist : Nat
  kind : Nat
  dpl : Nat
  present : Bool
  deriving DecidableEq, Repr

def readGate (m : ByteMem) (a : Nat) : GateDescriptor where
  offset := readLE m a 2 + readLE m (a + 6) 2 * 2 ^ 16 + readLE m (a + 8) 4 * 2 ^ 32
  selector := readLE m (a + 2) 2
  ist := readLE m (a + 4) 1 % 8
  kind := readLE m (a + 5) 1 % 32
  dpl := readLE m (a + 5) 1 / 32 % 4
  present := (readLE m (a + 5) 1).testBit 7

/-- An interrupt gate, which clears the interrupt flag. -/
def GateDescriptor.isInterrupt (g : GateDescriptor) : Bool := g.kind = 14

theorem readGate_congr {m m' : ByteMem} {a : Nat} (h : ∀ i < 16, m' (a + i) = m (a + i)) :
    readGate m' a = readGate m a := by
  have hfield : ∀ k n, k + n ≤ 16 → readLE m' (a + k) n = readLE m (a + k) n := by
    intro k n hkn
    apply readLE_congr
    intro i hi
    rw [Nat.add_assoc]
    exact h (k + i) (by omega)
  have hlow : readLE m' a 2 = readLE m a 2 := hfield 0 2 (by omega)
  unfold readGate
  rw [hlow, hfield 2 2 (by omega), hfield 4 1 (by omega), hfield 5 1 (by omega),
    hfield 6 2 (by omega), hfield 8 4 (by omega)]

/-- Going through a gate at privilege `cpl`: the gate and the new privilege, or `none` if the
processor faults. `int n` is refused if the gate is more privileged than the caller. -/
def enterGate (m : ByteMem) (gdtr : TableRegister) (cpl : Nat) (software : Bool)
    (g : GateDescriptor) : Option (GateDescriptor × Nat) :=
  if !g.present || !g.isInterrupt || (software && decide (g.dpl < cpl)) then none else
  if g.selector / 4 = 0 then none else
  match findDescriptor m gdtr g.selector with
  | none => none
  | some d =>
    if d.isCode && d.present && d.long && !d.big && decide (d.dpl ≤ cpl) then
      some (g, if d.isConforming then cpl else d.dpl)
    else none

/-- Delivery of a vector. -/
def deliverVector (m : ByteMem) (gdtr idtr : TableRegister) (cpl : Nat) (software : Bool)
    (vector : Nat) : Option (GateDescriptor × Nat) :=
  if idtr.limit < vector * 16 + 15 then none
  else enterGate m gdtr cpl software (readGate m (idtr.base + vector * 16))

/-! ## Ports -/

/-- Whether the task state segment at `base` lets code without I/O privilege access `size`
ports from `port` on. The processor reads two bytes of the bitmap, both of which have to lie
inside the segment. -/
def ioPermitted (m : ByteMem) (base limit port size : Nat) : Bool :=
  let offset := readLE m (base + 102) 2 + port / 8
  decide (offset + 1 ≤ limit) && readLE m (base + offset) 2 / 2 ^ (port % 8) % 2 ^ size == 0

/-- For one port it is one bit of one byte. -/
theorem ioPermitted_one {m : ByteMem} {base limit port offset : Nat}
    (hmap : readLE m (base + 102) 2 = offset) :
    ioPermitted m base limit port 1 = true ↔ offset + port / 8 + 1 ≤ limit ∧
      (m (base + (offset + port / 8))).toNat.testBit (port % 8) = false := by
  have hbit : ∀ (b c : Nat), b < 256 →
      ((b + 256 * c) / 2 ^ (port % 8) % 2 = 0 ↔ b.testBit (port % 8) = false) := by
    intro b c hb
    have hk : port % 8 < 8 := Nat.mod_lt _ (by omega)
    rw [Nat.testBit_eq_decide_div_mod_eq, decide_eq_false_iff_not]
    generalize port % 8 = k at hk
    interval_cases k <;> omega
  unfold ioPermitted
  simp only [hmap, Bool.and_eq_true, decide_eq_true_eq, beq_iff_eq, pow_one]
  have hread : readLE m (base + (offset + port / 8)) 2 =
      (m (base + (offset + port / 8))).toNat +
        256 * ((m (base + (offset + port / 8) + 1)).toNat + 256 * 0) := rfl
  rw [hread, hbit _ _ (UInt8.toNat_lt _)]

/-! ## SYSCALL and SYSRET -/

/-- The selectors for CS and SS that SYSCALL loads. -/
def syscallSelectors (star : Nat) : Nat × Nat :=
  (star / 2 ^ 32 % 2 ^ 16 / 4 * 4, (star / 2 ^ 32 % 2 ^ 16 + 8) % 2 ^ 16)

/-- The selectors that SYSRET loads: those for user mode, whatever the caller was. -/
def sysretSelectors (star : Nat) : Nat × Nat :=
  ((star / 2 ^ 48 + 16) % 2 ^ 16 ||| 3, (star / 2 ^ 48 + 8) % 2 ^ 16 ||| 3)

end X86
