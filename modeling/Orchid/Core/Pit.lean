import Mathlib.Data.Nat.Basic

/-! # A channel of an interval timer

Channel 0 of an 8254. A control word selects how the count is written and what the channel does
with it; the count is then written through the data port. In the periodic modes the output
rises once in each period, which lasts as many clocks as the count says.
-/

namespace Pit

/-- Which bytes of the count are written. -/
inductive Access where
  | low
  | high
  | both
  deriving DecidableEq, Repr

structure Channel where
  access : Access
  mode : Nat
  bcd : Bool
  /-- The low byte, while the high byte is still to come. -/
  lowByte : Option Nat
  count : Nat
  counting : Bool
  /-- The clocks since the output rose. -/
  phase : Nat

namespace Channel

/-- The mode in a control word; the periodic modes have two codes each. -/
def modeOf (v : Nat) : Nat := if v / 2 % 8 < 6 then v / 2 % 8 else v / 2 % 8 - 4

/-- A write to the control port. Words for other channels and the command that latches the count
change nothing. -/
def control (v : Nat) (c : Channel) : Channel :=
  let program (access : Access) : Channel :=
    { c with
      access := access
      mode := modeOf v
      bcd := v % 2 = 1
      lowByte := none
      counting := false }
  if v / 64 ≠ 0 then c
  else if v / 16 % 4 = 1 then program .low
  else if v / 16 % 4 = 2 then program .high
  else if v / 16 % 4 = 3 then program .both
  else c

/-- The count is complete. -/
def start (count : Nat) (c : Channel) : Channel :=
  { c with lowByte := none, count := count, counting := true, phase := 0 }

/-- A write to the data port. -/
def data (v : Nat) (c : Channel) : Channel :=
  match c.access, c.lowByte with
  | .low, _ => c.start v
  | .high, _ => c.start (v * 256)
  | .both, none => { c with lowByte := some v, counting := false }
  | .both, some low => c.start (v * 256 + low)

/-- `outb`. -/
def outb (port v : Nat) (c : Channel) : Channel :=
  if port = 0x43 then c.control v else if port = 0x40 then c.data v else c

def outbs (writes : List (Nat × Nat)) (c : Channel) : Channel :=
  writes.foldl (fun c w => c.outb w.1 w.2) c

/-- The clocks in a period; zero stands for the largest count. -/
def period (c : Channel) : Nat :=
  if c.bcd then
    let n := c.count / 4096 % 16 * 1000 + c.count / 256 % 16 * 100 + c.count / 16 % 16 * 10 +
      c.count % 16
    if n = 0 then 10000 else n
  else if c.count = 0 then 65536 else c.count

/-- The output rises again and again. -/
def Periodic (c : Channel) : Prop := c.counting = true ∧ (c.mode = 2 ∨ c.mode = 3)

instance decidablePeriodic (c : Channel) : Decidable c.Periodic :=
  inferInstanceAs (Decidable (_ ∧ _))

/-- A clock: whether the output rises, and the channel after it. Of the other modes nothing is
said here. -/
def clock (c : Channel) : Bool × Channel :=
  if c.Periodic then
    ((c.phase + 1) % c.period = 0, { c with phase := (c.phase + 1) % c.period })
  else (false, c)

/-- So many clocks have passed since the count was written, and a period lasts `n`. -/
structure After (n clocks : Nat) (c : Channel) : Prop where
  periodic : c.Periodic
  period : c.period = n
  phase : c.phase = clocks % n

theorem After.clock {n clocks : Nat} {c : Channel} (h : c.After n clocks) :
    c.clock.2.After n (clocks + 1) ∧ (c.clock.1 = true ↔ n ∣ clocks + 1) := by
  have hphase : (c.phase + 1) % c.period = (clocks + 1) % n := by
    rw [h.period, h.phase, Nat.mod_add_mod]
  unfold Channel.clock
  rw [if_pos h.periodic]
  refine ⟨⟨h.periodic, h.period, hphase⟩, ?_⟩
  rw [decide_eq_true_eq, hphase, Nat.dvd_iff_mod_eq_zero]

end Channel

end Pit
