import Orchid.Core.Pic
import Orchid.Core.Rules

/-! # The interrupt controllers

`idt_init` of `kernel/idt.c` programs the controllers, the boot code in `kernel/main.c`
sets the masks, and `isr_handler` of `kernel/isr_handler.c` ends the interrupts.

The masks leave the timer and the keyboard. The handler for the keyboard returns before
it comes to `irq_handler`, so the timer is the only line whose port is ever notified
(`pic_run`).
-/

namespace Orchid

open Pic Machine

/-! ## Model -/

/-- The first two `asm` statements of `idt_init`. -/
def idtPicWrites : List (Nat × Nat) :=
  [(0x20, 0x11), (0xA0, 0x11), (0x21, 0x20), (0xA1, 0x28), (0x21, 0x04), (0xA1, 0x02),
   (0x21, 0x01), (0xA1, 0x01)] ++ [(0x21, 0xFF), (0xA1, 0xFF)]

/-- The masks that `_start` writes. -/
def startPicWrites : List (Nat × Nat) := [(0x21, 0xFC), (0xA1, 0xFF)]

/-- The ends of interrupt that `isr_handler` writes. -/
def isrEois (intNo : Nat) : List (Nat × Nat) :=
  if intNo = 14 then []
  else if intNo = 33 then [(0x20, 0x20)]
  else if 32 ≤ intNo ∧ intNo ≤ 47 then
    (if 40 ≤ intNo then [(0xA0, 0x20)] else []) ++ [(0x20, 0x20)]
  else []

/-- The line for which it calls `irq_handler`. -/
def isrForwards (intNo : Nat) : Option Nat :=
  if intNo = 14 ∨ intNo = 33 then none
  else if 32 ≤ intNo ∧ intNo ≤ 47 then some (intNo - 32)
  else none

/-- The controllers with a log: the interrupts taken so far, those of them whose handler has
not written its end of interrupt yet, and the lines given to `irq_handler`. -/
structure PicLog where
  pics : Pair
  taken : List Nat
  unfinished : List Nat
  forwarded : List Nat

namespace PicLog

/-- After the boot, from controllers in any state that have nothing in service. -/
def Init : StatePred PicLog := fun s =>
  ∃ p : Pair, p.master.isr = ∅ ∧ p.slave.isr = ∅ ∧
    s = ⟨p.outbs (idtPicWrites ++ startPicWrites), [], [], []⟩

/-- Handlers may finish in any order: a timer interrupt is only ended when the interrupted
thread is switched to again. -/
inductive Next : Action PicLog where
  | raiseMaster {s : PicLog} (i : Fin 8) :
      Next s { s with pics := { s.pics with master := s.pics.master.raise i } }
  | raiseSlave {s : PicLog} (i : Fin 8) :
      Next s { s with pics := { s.pics with slave := s.pics.slave.raise i } }
  | take {s : PicLog} {v : Nat} {p : Pair} : s.pics.Takes v p →
      Next s { s with pics := p, taken := v :: s.taken, unfinished := v :: s.unfinished }
  | finish {s : PicLog} {v : Nat} : v ∈ s.unfinished →
      Next s { s with
        pics := s.pics.outbs (isrEois v)
        unfinished := s.unfinished.erase v
        forwarded := (isrForwards v).toList ++ s.forwarded }

/-- The controllers as they are programmed, and the log. -/
structure Inv (s : PicLog) : Prop where
  offset : s.pics.master.offset = 32
  phase : s.pics.master.phase = .ready
  masterMask : s.pics.master.imr = 0xFC
  slaveMask : s.pics.slave.imr = 0xFF
  taken : ∀ v ∈ s.taken, v = 32 ∨ v = 33
  unfinished : ∀ v ∈ s.unfinished, v = 32 ∨ v = 33
  forwarded : ∀ n ∈ s.forwarded, n = 0
  count : s.pics.master.isr.card = s.unfinished.length

/-! ## Runs -/

section Runs

variable {s s' : PicLog}

theorem init_inv (h : Init s) : s.Inv := by
  rcases h with ⟨p, hmaster, -, rfl⟩
  constructor
  · rfl
  · rfl
  · rfl
  · rfl
  · intro v hv
    cases hv
  · intro v hv
    cases hv
  · intro n hn
    cases hn
  · show p.master.isr.card = 0
    rw [hmaster]
    rfl

/-- The two lines that the mask leaves. -/
theorem unmasked {i : Fin 8} (h : Nat.testBit 0xFC i = false) : (i : Nat) = 0 ∨ (i : Nat) = 1 := by
  have hall : ∀ i : Fin 8, Nat.testBit 0xFC i = false → (i : Nat) = 0 ∨ (i : Nat) = 1 := by decide
  exact hall i h

theorem all_masked (i : Fin 8) : Nat.testBit 0xFF i = true := by
  have hall : ∀ i : Fin 8, Nat.testBit 0xFF i = true := by decide
  exact hall i

theorem take_inv (h : s.Inv) {v : Nat} {p : Pair} (htake : s.pics.Takes v p) :
    Inv { s with pics := p, taken := v :: s.taken, unfinished := v :: s.unfinished } := by
  cases htake with
  | @master i _ hfree =>
    have hmask := hfree.2.1
    rw [h.masterMask] at hmask
    have hv : s.pics.master.offset + i = 32 ∨ s.pics.master.offset + i = 33 := by
      rw [h.offset]
      have := unmasked hmask
      omega
    refine ⟨h.offset, h.phase, h.masterMask, h.slaveMask, ?_, ?_, h.forwarded, ?_⟩
    · exact List.forall_mem_cons.mpr ⟨hv, h.taken⟩
    · exact List.forall_mem_cons.mpr ⟨hv, h.unfinished⟩
    · show (s.pics.master.take i).isr.card = _
      rw [card_take hfree, h.count, List.length_cons]
  | @slave i _ hfree _ _ _ =>
    -- every line of the slave is masked
    have hmask := hfree.2.1
    rw [h.slaveMask, all_masked i] at hmask
    cases hmask

theorem outbs_isrEois {v : Nat} (hv : v = 32 ∨ v = 33) (p : Pair) :
    p.outbs (isrEois v) = { p with master := p.master.endOfInterrupt } := by
  rcases hv with rfl | rfl
  · rfl
  · rfl

theorem finish_inv (h : s.Inv) {v : Nat} (hv : v ∈ s.unfinished) :
    Inv { s with
      pics := s.pics.outbs (isrEois v)
      unfinished := s.unfinished.erase v
      forwarded := (isrForwards v).toList ++ s.forwarded } := by
  have hvector := h.unfinished v hv
  rw [outbs_isrEois hvector]
  refine ⟨h.offset, h.phase, h.masterMask, h.slaveMask, h.taken, ?_, ?_, ?_⟩
  · intro w hw
    exact h.unfinished w (List.mem_of_mem_erase hw)
  · intro n hn
    rcases List.mem_append.mp hn with hn | hn
    · rcases hvector with rfl | rfl
      · exact List.mem_singleton.mp hn
      · cases hn
    · exact h.forwarded n hn
  · show s.pics.master.endOfInterrupt.isr.card = _
    rw [card_endOfInterrupt, h.count, List.length_erase_of_mem hv]

theorem step_inv (h : s.Inv) (hnext : Next s s') : s'.Inv := by
  cases hnext with
  | raiseMaster i =>
    exact ⟨h.offset, h.phase, h.masterMask, h.slaveMask, h.taken, h.unfinished, h.forwarded, h.count⟩
  | raiseSlave i =>
    exact ⟨h.offset, h.phase, h.masterMask, h.slaveMask, h.taken, h.unfinished, h.forwarded, h.count⟩
  | take htake => exact take_inv h htake
  | finish hv => exact finish_inv h hv

/-- From controllers in any state, in every run after the boot: only the timer's and the
keyboard's vectors are taken, and only the timer's line is given to `irq_handler`. There are
as many lines in service as handlers that have not written their end of interrupt, so that
none stays in service when all are done, and both lines can be taken again. -/
theorem pic_run (h : Reachable Init Next s) :
    (∀ v ∈ s.taken, v = 32 ∨ v = 33) ∧ (∀ n ∈ s.forwarded, n = 0) ∧
      s.pics.master.isr.card = s.unfinished.length ∧
      (s.unfinished = [] → ∀ i ∈ s.pics.master.irr, (i : Nat) < 2 →
        ∃ p, s.pics.Takes (32 + i) p) := by
  have hinv : s.Inv := h.invariant (fun _ => init_inv) fun _ _ hnext hinv => step_inv hinv hnext
  refine ⟨hinv.taken, hinv.forwarded, hinv.count, ?_⟩
  intro hdone i hi hlow
  have hempty : s.pics.master.isr = ∅ := by
    apply Finset.card_eq_zero.mp
    rw [hinv.count, hdone]
    rfl
  have hfree : s.pics.master.Free i := by
    refine ⟨hinv.phase, ?_, ?_⟩
    · rw [hinv.masterMask]
      have hall : ∀ i : Fin 8, (i : Nat) < 2 → Nat.testBit 0xFC i = false := by decide
      exact hall i hlow
    · rw [hempty]
      intro j hj
      cases hj
  have htakes := Pair.Takes.master hi hfree
  rw [hinv.offset] at htakes
  exact ⟨_, htakes⟩

/-- Controllers that come up with nothing programmed. -/
def unset : Chip := ⟨∅, ∅, 0, 0, 0, .ready, false, false⟩

def booted : PicLog :=
  ⟨Pair.outbs (idtPicWrites ++ startPicWrites) ⟨unset, unset⟩, [], [], []⟩

/-- The timer interrupts the handler of the keyboard, which is the first to finish. -/
theorem pic_run_nested : ∃ s, Reachable Init Next s ∧ s.taken = [32, 33] ∧ s.forwarded = [0] ∧
    s.unfinished = [] ∧ s.pics.master.isr.card = 0 := by
  have h₀ : Reachable Init Next booted := .init ⟨⟨unset, unset⟩, rfl, rfl, rfl⟩
  have h₁ := (h₀.step (.raiseMaster 1)).step
    (.take (.master (i := 1) (by decide) (by decide)))
  have h₂ := (h₁.step (.raiseMaster 0)).step
    (.take (.master (i := 0) (by decide) (by decide)))
  have h₃ := (h₂.step (.finish (v := 33) (by decide))).step (.finish (v := 32) (by decide))
  exact ⟨_, h₃, rfl, rfl, rfl, (pic_run h₃).2.2.1⟩

end Runs

end PicLog

end Orchid
