import Orchid.Device.KbdBuf
import Orchid.Memory.Permissions
import Orchid.Trap.SyscallEntry

/-! # Waiting for the keyboard

`kbd_buf_get` in `kernel/kbd_buf.c` waits by a system call of its own: as long as the buffer
is empty it executes `syscall` with the number of `SYS_yield`, in kernel mode, and looks
again.

SYSRET always returns to user mode. The yield comes back to the address in `kbd_buf_get` all
right, but at privilege 3, where kernel code must not be fetched. So a reader never looks at
the buffer a second time: it has its character at once, or it is killed when it is switched
to again, whatever was typed in between (`waits_not_returns`).
-/

namespace Orchid

open ByteMem Machine X86 Relation

/-! ## Model -/

/-- Where a reader is. -/
inductive ReaderPc where
  /-- Before a look at the buffer. -/
  | looking
  /-- `kbd_buf_get` has returned. -/
  | got (c : UInt8)
  /-- Inside the system call, with other threads running. -/
  | yielded
  /-- In `page_fault_handler`, which does not return. -/
  | faulted
  deriving DecidableEq, Repr

/-- A reader, with the buffer and the number of its looks at it. -/
structure Reader where
  ring : KbdBuf
  core : Core
  pc : ReaderPc
  looks : Nat

/-- The processor may fetch the next instruction, with the page tables in `tables`. -/
def Fetches (tables : ByteMem) (root : Nat) (c : Core) : Prop :=
  c.regs.cs.toNat % 4 = 3 → UserAccessible tables root c.regs.rip.toNat false

namespace Reader

section

variable (e : SyscallEntry) (tables : ByteMem) (root gdt top : Nat)

/-- A step of the reader, or a character that the keyboard handler puts into the buffer. -/
inductive Next : Action Reader where
  | key {s : Reader} (c : UInt8) : Next s { s with ring := kbdBufPut c s.ring }
  | find {s : Reader} {c : UInt8} {ring : KbdBuf} : s.pc = .looking →
      kbdBufGet s.ring = some (c, ring) →
      Next s { s with ring := ring, pc := .got c, looks := s.looks + 1 }
  | yield {s : Reader} : s.pc = .looking → kbdBufGet s.ring = none →
      Next s { s with pc := .yielded, looks := s.looks + 1 }
  | resume {s : Reader} {c₂ : Core} : s.pc = .yielded →
      HandlerRuns gdt top (syscallEnter e s.core).regs.rsp (syscallCall e s.core) c₂ →
      c₂.regs.rsp = (syscallEnter e s.core).regs.rsp → Fetches tables root (syscallLeave e c₂) →
      Next s { s with core := syscallLeave e c₂, pc := .looking }
  | fault {s : Reader} {c₂ : Core} : s.pc = .yielded →
      HandlerRuns gdt top (syscallEnter e s.core).regs.rsp (syscallCall e s.core) c₂ →
      c₂.regs.rsp = (syscallEnter e s.core).regs.rsp → ¬ Fetches tables root (syscallLeave e c₂) →
      Next s { s with core := syscallLeave e c₂, pc := .faulted }

end

/-- A call of `kbd_buf_get`, with the registers as they are at the instruction behind its
`syscall`. -/
def Init (ring : KbdBuf) (c : Core) : StatePred Reader := fun s => s = ⟨ring, c, .looking, 0⟩

/-! ## Runs -/

section Runs

variable {e : SyscallEntry} {tables : ByteMem} {root gdt top : Nat} {c c₂ : Core} {ring : KbdBuf}
  {s s' : Reader}

/-- SYSRET returns at privilege 3, also to the kernel. -/
theorem syscallLeave_cs (e : SyscallEntry) (c : Core) :
    (syscallLeave e c).regs.cs.toNat % 4 = 3 := by
  show (UInt16.ofNat (sysretSelectors star).1).toNat % 4 = 3
  decide

/-- The yield comes back to the instruction behind it, which is not fetched. -/
theorem not_fetches (htop : top < 2 ^ 64) (hroom : 24 ≤ c.regs.rsp) (hstack : c.regs.rsp ≤ top)
    (hapart : e.Apart top c) (hkernel : ¬ UserAccessible tables root c.regs.rip.toNat false)
    (hrun : HandlerRuns gdt top (syscallEnter e c).regs.rsp (syscallCall e c) c₂)
    (hret : c₂.regs.rsp = (syscallEnter e c).regs.rsp) :
    ¬ Fetches tables root (syscallLeave e c₂) := by
  have hfound := syscallReturn_holds htop hroom hstack hapart hrun hret
  rcases @syscallLeave_regs e c₂ c.regs hfound with ⟨hrip, -⟩
  intro hfetch
  have hpage := hfetch (syscallLeave_cs e c₂)
  rw [hrip] at hpage
  exact hkernel hpage

/-- A reader that is to look has not looked yet, and until the fault it is where it was. -/
structure Inv (c : Core) (s : Reader) : Prop where
  looking : s.pc = .looking → s.looks = 0
  looks : s.looks ≤ 1
  core : s.pc ≠ .faulted → s.core = c

theorem step_inv (htop : top < 2 ^ 64) (hroom : 24 ≤ c.regs.rsp) (hstack : c.regs.rsp ≤ top)
    (hapart : e.Apart top c) (hkernel : ¬ UserAccessible tables root c.regs.rip.toNat false)
    (h : s.Inv c) (hnext : Next e tables root gdt top s s') :
    s'.Inv c ∧ (s.pc = .yielded → s'.pc = .yielded ∨ s'.pc = .faulted) := by
  cases hnext with
  | key c' => exact ⟨⟨h.looking, h.looks, h.core⟩, .inl⟩
  | find hpc hget =>
    have hcore := h.core (by rw [hpc]; decide)
    have hone : s.looks + 1 ≤ 1 := by
      rw [h.looking hpc]
    refine ⟨⟨?_, hone, fun _ => hcore⟩, ?_⟩
    · intro hlook
      cases hlook
    · intro hyield
      rw [hpc] at hyield
      cases hyield
  | yield hpc hget =>
    have hcore := h.core (by rw [hpc]; decide)
    have hone : s.looks + 1 ≤ 1 := by
      rw [h.looking hpc]
    refine ⟨⟨?_, hone, fun _ => hcore⟩, fun _ => .inl rfl⟩
    intro hlook
    cases hlook
  | resume hpc hrun hret hfetch =>
    -- the step that the code counts on, and that is never taken
    rw [h.core (by rw [hpc]; decide)] at hrun hret
    exact absurd hfetch (not_fetches htop hroom hstack hapart hkernel hrun hret)
  | fault hpc hrun hret hfetch =>
    refine ⟨⟨?_, h.looks, ?_⟩, fun _ => .inr rfl⟩
    · intro hlook
      cases hlook
    · intro hne
      exact absurd rfl hne

theorem reachable_inv (htop : top < 2 ^ 64) (hroom : 24 ≤ c.regs.rsp) (hstack : c.regs.rsp ≤ top)
    (hapart : e.Apart top c) (hkernel : ¬ UserAccessible tables root c.regs.rip.toNat false)
    (h : Reachable (Init ring c) (Next e tables root gdt top) s) : s.Inv c := by
  refine h.invariant ?_ fun _ _ hnext hinv =>
    (step_inv htop hroom hstack hapart hkernel hinv hnext).1
  intro s hinit
  cases hinit
  exact ⟨fun _ => rfl, Nat.zero_le 1, fun _ => rfl⟩

/-- A reader in kernel code that user mode may not access, in every run with other threads
and with the keyboard. It looks at the buffer once. If it yields, it is not back in
`kbd_buf_get` at any later time: the only way out of the system call is the fault. -/
theorem waits_not_returns (e : SyscallEntry) (tables : ByteMem) (root gdt top : Nat) (ring : KbdBuf)
    (c : Core) (htop : top < 2 ^ 64) (hroom : 24 ≤ c.regs.rsp) (hstack : c.regs.rsp ≤ top)
    (hapart : e.Apart top c) (hkernel : ¬ UserAccessible tables root c.regs.rip.toNat false)
    (h : Reachable (Init ring c) (Next e tables root gdt top) s) :
    s.looks ≤ 1 ∧ (s.pc = .yielded → ∀ s', ReflTransGen (Next e tables root gdt top) s s' →
      s'.pc = .yielded ∨ s'.pc = .faulted) := by
  refine ⟨(reachable_inv htop hroom hstack hapart hkernel h).looks, ?_⟩
  intro hpc s' hsteps
  refine h.stable (p := fun u => u.pc = .yielded ∨ u.pc = .faulted) hsteps ?_ (.inl hpc)
  intro u u' hu hnext hout
  rcases hout with hyield | hfault
  · have hinv := reachable_inv htop hroom hstack hapart hkernel hu
    exact (step_inv htop hroom hstack hapart hkernel hinv hnext).2 hyield
  · -- nothing but the keyboard goes on after the fault
    cases hnext with
    | key c' => exact .inr hfault
    | find hpc hget | yield hpc hget =>
      rw [hfault] at hpc
      cases hpc
    | resume hpc hrun hret hfetch | fault hpc hrun hret hfetch =>
      rw [hfault] at hpc
      cases hpc

/-- A reader that finds the buffer empty, with page tables that map nothing for user mode. The
character that is typed while it waits does not save it. -/
theorem waits_not_returns_typed : ∃ (e : SyscallEntry) (c : Core) (s : Reader),
    Reachable (Init ⟨fun _ => 0, 0, 0⟩ c) (Next e (fun _ => 0) 0x1000 0x20000 0x10000) s ∧
      s.pc = .yielded ∧ kbdBufGet s.ring ≠ none ∧
      ∀ s', ReflTransGen (Next e (fun _ => 0) 0x1000 0x20000 0x10000) s s' →
        s'.pc = .yielded ∨ s'.pc = .faulted := by
  let e : SyscallEntry := ⟨0x1000, 0x1040, 0x2000, 0x2008⟩
  let c : Core := ⟨⟨fun _ => 0, 0x10000, 0x3000, 0x2, 8, 0x10⟩, fun _ => 0⟩
  have h₀ : Reachable (Init ⟨fun _ => 0, 0, 0⟩ c) (Next e (fun _ => 0) 0x1000 0x20000 0x10000)
      ⟨⟨fun _ => 0, 0, 0⟩, c, .looking, 0⟩ := .init rfl
  have h₁ := (h₀.step (.yield rfl rfl)).step (.key 97)
  have hapart : e.Apart 0x10000 c := .inl (by decide)
  have hkernel : ¬ UserAccessible (fun _ => 0) 0x1000 c.regs.rip.toNat false := by
    unfold UserAccessible
    decide
  have hwaits := waits_not_returns e (fun _ => 0) 0x1000 0x20000 0x10000 _ c (by decide) (by decide)
    le_rfl hapart hkernel h₁
  exact ⟨e, c, _, h₁, rfl, by decide, hwaits.2 rfl⟩

end Runs

end Reader

end Orchid
