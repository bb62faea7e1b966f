import Orchid.Ipc.Irq
import Orchid.Trap.Frame

/-! # Exceptions that nobody handles

`isr_handler` of `kernel/isr_handler.c` kills the thread at a page fault and does nothing
about the other exceptions. From a fault it then returns to the instruction that caused it,
with all the registers as they were, and the fault is raised again: the thread neither goes
on nor ends (`exception_repeats`). Breakpoints and the like save the address of the next
instruction, and are not in this model.
-/

namespace Orchid

open ByteMem Machine X86

/-! ## Model -/

/-- A processor at an instruction, what the kernel's C code works on, and the number of
faults so far. -/
structure Excepted where
  core : Core
  kernel : Irqs
  count : Nat

namespace Excepted

/-- At the instruction for the first time. -/
def Init (c : Core) (w : Irqs) : StatePred Excepted := fun s => s = ⟨c, w, 0⟩

section

-- the fault that the instruction raises, with the descriptor table at `gdt` and on a stack that
-- ends at `top`
variable (fault : Core → Option Trap) (stack : Option Nat) (gdt top : Nat)

/-- The instruction raises its fault, `isr_handler` does what it does about the vector, leaves
the descriptor table in place, and `iretq` returns. -/
inductive Next : Action Excepted where
  | except {s : Excepted} {t : Trap} {c₂ c₃ : Core} {kernel : Irqs} {fuel : Nat} {sc : UInt8}
      {data : ByteMem} : fault s.core = some t → isFault t.vector = true →
      s.kernel.isrHandler fuel t.vector sc data = some kernel →
      HandlerRuns gdt top (trapEnter stack t s.core).regs.rsp (trapCall stack t s.core) c₂ →
      c₂.regs.rsp = (trapEnter stack t s.core).regs.rsp → GdtLoaded gdt c₂.mem →
      trapLeave gdt c₂ = some c₃ → Next s ⟨c₃, kernel, s.count + 1⟩

/-- Whether there is a fault depends on the registers, and on memory above the stack pointer of
the handler. -/
def Repeatable : Prop :=
  ∀ c c' : Core, c'.regs = c.regs →
    Untouched (stack.getD c.regs.rsp) top c.mem c'.mem → fault c' = fault c

end

/-! ## Runs -/

section Runs

variable {fault : Core → Option Trap} {stack : Option Nat} {gdt top : Nat} {c c₂ : Core}
  {t : Trap} {w : Irqs}

/-- `isr_handler` has no branch for the exceptions other than the page fault. -/
theorem isrHandler_exception {v : Nat} (hv : v < 32) (hpf : v ≠ 14) (fuel : Nat) (sc : UInt8)
    (data : ByteMem) : w.isrHandler fuel v sc data = some w := by
  unfold Irqs.isrHandler Irqs.isrForward
  rw [if_neg hpf, if_neg (by omega), if_neg (by omega), if_neg (by omega)]

theorem lt_of_isFault {v : Nat} (h : isFault v = true) : v < 32 := by
  have hall : ∀ v ∈ [0, 5, 6, 7, 10, 11, 12, 13, 14, 16, 17, 19, 20, 21], v < 32 := by decide
  exact hall v (of_decide_eq_true h)

/-- An instruction of code to which `iretq` can return raises a fault that is not a page fault,
and whose stub is right. In every run, after any number of faults, the registers are those of
the instruction, it raises the fault again, and the kernel has changed nothing: the thread is
neither killed nor switched away from by it, nor does it come any further. -/
theorem exception_repeats (fault : Core → Option Trap) (stack : Option Nat) (gdt top : Nat)
    (c : Core) (w : Irqs) (t : Trap) (hfault : fault c = some t)
    (hrep : Repeatable fault stack top)
    (hv : isFault t.vector = true ∧ t.vector ≠ 14 ∧ t.vector ≠ 21) (hback : Returnable c.regs)
    (htop : top < 2 ^ 64) (hstack : stack.getD c.regs.rsp ≤ top)
    (hroom : 192 ≤ stack.getD c.regs.rsp) (hrsp : c.regs.rsp < 2 ^ 64)
    (hgdt : stack.getD c.regs.rsp ≤ gdt) (hloaded : GdtLoaded gdt c.mem) {s : Excepted}
    (h : Reachable (Init c w) (Next fault stack gdt top) s) :
    s.core.regs = c.regs ∧ fault s.core = some t ∧ s.kernel = w ∧
      ∃ s', Next fault stack gdt top s s' ∧ s'.count = s.count + 1 := by
  have hlt : t.vector < 32 := lt_of_isFault hv.1
  have hbal : t.Balanced := by
    rw [t.balanced_iff]
    refine ⟨hv.2.2, fun heq => ?_⟩
    rw [heq] at hv
    exact absurd hv.1 (by decide)
  have hinv : s.core.regs = c.regs ∧ fault s.core = some t ∧ s.kernel = w ∧
      GdtLoaded gdt s.core.mem := by
    -- the registers and the stack stay as they are, so that the fault is raised again
    induction h with
    | init h =>
      subst h
      exact ⟨rfl, hfault, rfl, hloaded⟩
    | @step s _ _ hnext ih =>
      rcases ih with ⟨hregs, hagain, hkernel, -⟩
      cases hnext with
      | @except _ _ c₂ _ _ _ _ _ hraised _ hcode hrun hret hloaded' hleave =>
        rw [hagain] at hraised
        cases hraised
        rw [← hregs] at hstack hroom hrsp
        rcases handler_returned htop hstack hroom hrun hret with ⟨hwords, hsame⟩
        rw [trapLeave_balanced gdt hbal hrsp hwords] at hleave
        rcases Option.map_eq_some_iff.mp hleave with ⟨-, -, rfl⟩
        refine ⟨hregs, ?_, ?_, hloaded'⟩
        · exact (hrep s.core ⟨s.core.regs, c₂.mem⟩ rfl hsame).trans hagain
        · rw [isrHandler_exception hlt hv.2.1] at hcode
          cases hcode
          exact hkernel
  rcases hinv with ⟨hregs, hagain, hkernel, hplace⟩
  refine ⟨hregs, hagain, hkernel, ?_⟩
  -- a handler that returns at once
  rw [← hregs] at hstack hroom hrsp hgdt hback
  rcases HandlerRuns.atOnce stack t s.core top hroom hgdt hplace with
    ⟨c₂, hrun, hret, hcpl, hloaded'⟩
  rcases handler_returned htop hstack hroom hrun hret with ⟨hwords, -⟩
  have hleave := (trapLeave_iff hloaded' hcpl hrsp hbal hwords _).mpr ⟨hback, rfl⟩
  have hcode := isrHandler_exception (w := s.kernel) hlt hv.2.1 0 0 (fun _ => 0)
  exact ⟨_, .except hagain hv.1 hcode hrun hret hloaded' hleave, rfl⟩

/-- A program that divides by a register, which is zero. -/
def divide (t : Trap) (c : Core) : Option Trap := if c.regs.gpr .rcx = 0 then some t else none

theorem repeatable_divide (t : Trap) (stack : Option Nat) (top : Nat) :
    Repeatable (divide t) stack top := by
  intro c c' hregs _
  unfold divide
  rw [hregs]

/-- It gets no further with a second fault than with the first. -/
theorem exception_repeats_divide : ∃ (t : Trap) (c : Core) (s : Excepted), t.vector = 0 ∧
    Reachable (Init c Irqs.quietIrqs) (Next (divide t) (some 0x10000) 0x20000 0x10000) s ∧
    s.count = 1 ∧ s.core.regs = c.regs ∧ divide t s.core = some t := by
  let t : Trap := ⟨0, none, ⟨0, 8⟩, 0, by decide, by decide, rfl⟩
  let c : Core := ⟨⟨fun _ => 0, 2 ^ 47, 0x400000, 0x202, 0x1B, 0x23⟩, gdtInit 0x20000 fun _ => 0⟩
  have hall := @exception_repeats (divide t) (some 0x10000) 0x20000 0x10000 c Irqs.quietIrqs t rfl
    (repeatable_divide t _ _) (by decide) (.inr ⟨rfl, rfl⟩) (by decide) le_rfl (by decide)
    (by decide) (by decide) (gdtInit_loaded 0x20000 _)
  have h₀ : Reachable (Init c Irqs.quietIrqs) (Next (divide t) (some 0x10000) 0x20000 0x10000)
      ⟨c, Irqs.quietIrqs, 0⟩ := .init rfl
  rcases hall h₀ with ⟨-, -, -, s, hnext, hcount⟩
  have hs := h₀.step hnext
  exact ⟨t, c, s, rfl, hs, hcount, (hall hs).1, (hall hs).2.1⟩

end Runs

end Excepted

end Orchid
