import Mathlib.Data.Finset.Max
import Mathlib.Order.Fin.Basic

/-! # A pair of interrupt controllers

Two 8259A controllers, the second behind a line of the first. A controller has lines
that are requested, lines in service and a mask; it is programmed through two ports,
by a sequence of words that starts with a command.

* A request is passed on if its line is not masked and no line that comes before it, or
  the line itself, is in service.
* An end of interrupt takes the first of the lines in service out of service, whichever
  handler it comes from.

Not in the model: the default request 7, with which a chip answers an acknowledge when the line
that asked for it has dropped in the meantime. A request stays here until it is acknowledged.
-/

namespace Pic

/-- Which word of the initialization the data port expects. -/
inductive Phase where
  | ready
  | icw2
  | icw3
  | icw4
  deriving DecidableEq, Repr

structure Chip where
  irr : Finset (Fin 8)
  isr : Finset (Fin 8)
  imr : Nat
  offset : Nat
  wiring : Nat
  phase : Phase
  single : Bool
  wantsIcw4 : Bool

namespace Chip

/-- A non-specific end of interrupt. -/
def endOfInterrupt (c : Chip) : Chip :=
  { c with isr := if h : c.isr.Nonempty then c.isr.erase (c.isr.min' h) else c.isr }

/-- A write to the command port. -/
def command (v : Nat) (c : Chip) : Chip :=
  if v.testBit 4 then
    { c with
      irr := ∅
      imr := 0
      phase := .icw2
      single := v.testBit 1
      wantsIcw4 := v.testBit 0 }
  else if v / 8 % 4 = 0 ∧ v / 32 = 1 then c.endOfInterrupt
  else c

/-- A write to the data port. -/
def data (v : Nat) (c : Chip) : Chip :=
  match c.phase with
  | .ready => { c with imr := v }
  | .icw2 =>
    { c with
      offset := v / 8 * 8
      phase := if c.single then (if c.wantsIcw4 then .icw4 else .ready) else .icw3 }
  | .icw3 => { c with wiring := v, phase := if c.wantsIcw4 then .icw4 else .ready }
  | .icw4 => { c with phase := .ready }

/-- A device asks for an interrupt. -/
def raise (i : Fin 8) (c : Chip) : Chip := { c with irr := insert i c.irr }

/-- The line may be served now. -/
def Free (i : Fin 8) (c : Chip) : Prop :=
  c.phase = .ready ∧ c.imr.testBit i = false ∧ ∀ j ∈ c.isr, i < j

instance decidableFree (i : Fin 8) (c : Chip) : Decidable (c.Free i) :=
  inferInstanceAs (Decidable (_ ∧ _ ∧ _))

def take (i : Fin 8) (c : Chip) : Chip :=
  { c with irr := c.irr.erase i, isr := insert i c.isr }

end Chip

structure Pair where
  master : Chip
  slave : Chip

/-- `outb`. -/
def Pair.outb (port v : Nat) (p : Pair) : Pair :=
  if port = 0x20 then { p with master := p.master.command v }
  else if port = 0x21 then { p with master := p.master.data v }
  else if port = 0xA0 then { p with slave := p.slave.command v }
  else if port = 0xA1 then { p with slave := p.slave.data v }
  else p

def Pair.outbs (writes : List (Nat × Nat)) (p : Pair) : Pair :=
  writes.foldl (fun p w => p.outb w.1 w.2) p

/-- The processor takes an interrupt, with its vector. The slave is behind line 2. -/
inductive Pair.Takes : Pair → Nat → Pair → Prop where
  | master {p : Pair} {i : Fin 8} : i ∈ p.master.irr → p.master.Free i →
      Pair.Takes p (p.master.offset + i) { p with master := p.master.take i }
  | slave {p : Pair} {i : Fin 8} : i ∈ p.slave.irr → p.slave.Free i → p.master.Free 2 →
      p.master.wiring.testBit 2 = true → p.slave.wiring = 2 →
      Pair.Takes p (p.slave.offset + i) ⟨p.master.take 2, p.slave.take i⟩

section Counting

variable {c : Chip} {i : Fin 8}

/-- An end of interrupt for each line that was taken leaves none in service. -/
theorem card_endOfInterrupt (c : Chip) : c.endOfInterrupt.isr.card = c.isr.card - 1 := by
  unfold Chip.endOfInterrupt
  dsimp only
  split
  · next h => exact Finset.card_erase_of_mem (Finset.min'_mem c.isr h)
  · next h =>
    rw [Finset.not_nonempty_iff_eq_empty.mp h]
    rfl

theorem card_take (h : c.Free i) : (c.take i).isr.card = c.isr.card + 1 := by
  apply Finset.card_insert_of_notMem
  intro hmem
  exact lt_irrefl i (h.2.2 i hmem)

end Counting

end Pic
