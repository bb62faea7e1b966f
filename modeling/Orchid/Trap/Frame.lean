import Orchid.Core.X86
import Orchid.Trap.Segments

/-! # Interrupt entry and exit

A model of `kernel/isr.s`: the stubs, the part they share, and the frame that
`struct regs` of `kernel/isr_handler.h` describes.

* A stub pushes a zero in place of the error code where its macro says that the
  processor pushes none, so that every frame is 22 words long. The macros
  disagree with the processor on two vectors.
* Where they agree, the interrupted code goes on as if nothing had happened,
  with any interrupts taken inside the handler, as long as `iretq` accepts the
  selectors of the interrupted code (`trap_transparent_iff`); and the handler
  sees the interrupted registers (`handler_sees_iff`).
-/

namespace Orchid

open ByteMem X86

/-! ## The code -/

/-- The vectors whose stub is made by `ISR_ERRCODE`. -/
def isrErrcode (n : Nat) : Bool := n ∈ [8, 10, 11, 12, 13, 14, 17, 30]

/-- `isr0` to `isr47`, up to the jump. -/
def isrStub (n : Nat) : List Instr :=
  if isrErrcode n then [.pushImm (UInt64.ofNat n)] else [.pushImm 0, .pushImm (UInt64.ofNat n)]

/-- The registers in the order in which `isr_common` pushes them. -/
def isrPushed : List Gpr :=
  [.rdi, .rsi, .rbp, .rbx, .rdx, .rcx, .rax, .r8, .r9, .r10, .r11, .r12, .r13, .r14, .r15]

/-- The registers in the order in which it pops them. -/
def isrPopped : List Gpr :=
  [.r15, .r14, .r13, .r12, .r11, .r10, .r9, .r8, .rax, .rcx, .rdx, .rbx, .rbp, .rsi, .rdi]

/-- `isr_common` up to its call. -/
def isrSave : List Instr := isrPushed.map .push ++ [.movRsp .rdi]

/-- `isr_common` from its call to `iretq`. -/
def isrRestore : List Instr := isrPopped.map .pop ++ [.addRsp 16]

/-- An interrupt or an exception as it is delivered. -/
structure Trap where
  vector : Nat
  err : Option UInt64
  gate : Gate
  /-- The address behind the call of `isr_handler`. -/
  retAddr : UInt64
  vector_lt : vector < 48
  err_isSome : err.isSome = pushesErrorCode vector
  /-- All gates of `idt_init` lead into the kernel's code segment. -/
  gate_selector : gate.selector = 0x08

/-- The macro of the stub agrees with the processor. -/
def Trap.Balanced (t : Trap) : Prop := isrErrcode t.vector = pushesErrorCode t.vector

/-- From the delivery to the call. -/
def trapEnter (stack : Option Nat) (t : Trap) (c : Core) : Core :=
  exec (isrStub t.vector ++ isrSave) (c.deliver t.gate stack t.err)

/-- The call of `isr_handler`. -/
def trapCall (stack : Option Nat) (t : Trap) (c : Core) : Core :=
  (trapEnter stack t c).push t.retAddr

/-- From the return of `isr_handler` on, with the descriptor table at `gdt`; `none` if `iretq`
faults. -/
def trapLeave (gdt : Nat) (c : Core) : Option Core := (exec isrRestore c).iretq (gdtp gdt)

/-- What a piece of kernel code does that was called with the stack pointer at `f`, on a stack
that ends at `top`. It may do anything to registers and memory, except that it leaves what is
above `f` on its stack alone; and interrupts may be taken on the same stack, whose handlers
are such pieces of code, and which return if `iretq` accepts the selectors. -/
inductive HandlerRuns (gdt top : Nat) : Nat → Core → Core → Prop where
  | done (f : Nat) (c : Core) : HandlerRuns gdt top f c c
  | compute {f : Nat} {c c₁ c' : Core} : c₁.regs.rsp ≤ f → Untouched f top c.mem c₁.mem →
      HandlerRuns gdt top f c₁ c' → HandlerRuns gdt top f c c'
  | trap {f : Nat} {c c₂ c₃ c' : Core} (t : Trap) : t.Balanced → 192 ≤ c.regs.rsp →
      HandlerRuns gdt top (trapEnter none t c).regs.rsp (trapCall none t c) c₂ →
      c₂.regs.rsp = (trapEnter none t c).regs.rsp → trapLeave gdt c₂ = some c₃ →
      HandlerRuns gdt top f c₃ c' → HandlerRuns gdt top f c c'

theorem Trap.balanced_iff (t : Trap) : t.Balanced ↔ t.vector ≠ 21 ∧ t.vector ≠ 29 := by
  have hvectors : ∀ n < 48, isrErrcode n = pushesErrorCode n ↔ n ≠ 21 ∧ n ≠ 29 := by decide
  exact hvectors t.vector t.vector_lt

/-! ## The frame -/

section Frame

variable {stack : Option Nat} {t : Trap} {c c₂ : Core} {gdt top : Nat}

/-- What the stub pushes. -/
def stubWords (n : Nat) : List UInt64 :=
  if isrErrcode n then [UInt64.ofNat n] else [0, UInt64.ofNat n]

/-- All words pushed before the call, the first one first. -/
def trapWords (t : Trap) (r : Regs) : List UInt64 :=
  r.frame t.err ++ (stubWords t.vector ++ isrPushed.map r.gpr)

theorem isrPopped_eq : isrPopped = isrPushed.reverse := rfl

theorem nodup_isrPopped : isrPopped.Nodup := by decide

theorem mem_isrPopped (r : Gpr) : r ∈ isrPopped := by cases r <;> decide

/-- The stack and the registers at the call. -/
theorem trapEnter_eq (stack : Option Nat) (t : Trap) (c : Core) :
    trapEnter stack t c =
      let c₁ := (c.land t.gate stack).pushAll (trapWords t c.regs)
      c₁.setGpr .rdi (UInt64.ofNat c₁.regs.rsp) := by
  have hstub : exec (isrStub t.vector) (c.deliver t.gate stack t.err) =
      (c.deliver t.gate stack t.err).pushAll (stubWords t.vector) := by
    unfold isrStub stubWords
    split <;> rfl
  have hgpr : ((c.deliver t.gate stack t.err).pushAll (stubWords t.vector)).regs.gpr =
      c.regs.gpr := by
    rw [Core.deliver, pushAll_regs, pushAll_regs]
    rfl
  rw [trapEnter, isrSave, exec_append, exec_append, hstub, exec_pushes, hgpr, Core.deliver,
    ← pushAll_append, ← pushAll_append]
  rfl

theorem trapEnter_mem (stack : Option Nat) (t : Trap) (c : Core) :
    (trapEnter stack t c).mem = ((c.land t.gate stack).pushAll (trapWords t c.regs)).mem := by
  rw [trapEnter_eq]
  rfl

theorem trapEnter_rsp (stack : Option Nat) (t : Trap) (c : Core) :
    (trapEnter stack t c).regs.rsp = frameTop stack c - 8 * (trapWords t c.regs).length := by
  rw [trapEnter_eq]
  show ((c.land t.gate stack).pushAll (trapWords t c.regs)).regs.rsp = _
  rw [pushAll_regs]
  rfl

theorem length_stubWords (n : Nat) : (stubWords n).length ≤ 2 := by
  unfold stubWords
  split <;> simp

theorem length_trapWords (t : Trap) (r : Regs) : (trapWords t r).length ≤ 23 := by
  have hstub := length_stubWords t.vector
  have herr : t.err.toList.length ≤ 1 := by cases t.err <;> simp
  simp only [trapWords, Regs.frame, isrPushed, List.length_append, List.length_cons,
    List.length_nil, List.map_cons, List.map_nil]
  omega

/-- The words at the stack pointer, from the lowest on: what `isr_common` pops, what it skips,
and the frame of the processor. -/
theorem trapWords_reverse (t : Trap) (r : Regs) :
    (trapWords t r).reverse = isrPopped.map r.gpr ++
      ((stubWords t.vector).reverse ++ (t.err.toList ++ (r.frame none).reverse)) := by
  have herr : t.err.toList.reverse = t.err.toList := by cases t.err <;> rfl
  rw [trapWords, List.reverse_append, List.reverse_append, isrPopped_eq, List.map_reverse,
    List.append_assoc]
  congr 2
  rw [Regs.frame, Regs.frame, List.reverse_append, herr, Option.toList_none, List.append_nil]

/-- At the return the words are still there. -/
theorem frame_kept (hroom : 192 ≤ stack.getD c.regs.rsp) (htop : stack.getD c.regs.rsp ≤ top)
    (hkept : Untouched (trapEnter stack t c).regs.rsp top (trapEnter stack t c).mem c₂.mem)
    (hret : c₂.regs.rsp = (trapEnter stack t c).regs.rsp) :
    HoldsWords c₂.mem c₂.regs.rsp (trapWords t c.regs).reverse := by
  have hlen := length_trapWords t c.regs
  have hrsp := trapEnter_rsp stack t c
  have hin : (c.land t.gate stack).regs.rsp = frameTop stack c := rfl
  have hframe : 184 ≤ frameTop stack c ∧ frameTop stack c ≤ top := by
    unfold frameTop
    omega
  have hwords := pushAll_holds (show HoldsWords (c.land t.gate stack).mem _ [] from trivial)
    (show 8 * (trapWords t c.regs).length ≤ _ by omega)
  have hcall : ((c.land t.gate stack).pushAll (trapWords t c.regs)).regs.rsp =
      (trapEnter stack t c).regs.rsp := by
    rw [trapEnter_eq]
    rfl
  rw [List.append_nil, hcall, ← trapEnter_mem] at hwords
  rw [hret]
  apply hwords.congr
  intro x hlo hhi
  rw [List.length_reverse] at hhi
  exact hkept x hlo (by omega)

/-! ## The way back -/

/-- The registers are popped, two words skipped, and `iretq` finds the rest. -/
theorem trapLeave_eq {old : Gpr → UInt64} {a b : UInt64} {words : List UInt64} (gdt : Nat)
    (h : HoldsWords c.mem c.regs.rsp (isrPopped.map old ++ a :: b :: words)) :
    ∃ c₁ : Core, trapLeave gdt c = c₁.iretq (gdtp gdt) ∧ c₁.regs.gpr = old ∧
      c₁.mem = c.mem ∧ c₁.regs.cpl = c.regs.cpl ∧ HoldsWords c₁.mem c₁.regs.rsp words := by
  rcases exec_pops nodup_isrPopped h with ⟨hrest, hexec⟩
  refine ⟨exec isrRestore c, rfl, ?_, rfl, rfl, ?_⟩
  · rw [isrRestore, exec_append, hexec]
    funext r
    exact if_pos (mem_isrPopped r)
  · rw [isrRestore, exec_append, hexec]
    exact hrest.2.2

/-- On a frame of the processor with two words below it, the registers come back if the
selectors are accepted. -/
theorem trapLeave_regs {r : Regs} {a b : UInt64} (gdt : Nat) (hrsp : r.rsp < 2 ^ 64)
    (h : HoldsWords c.mem c.regs.rsp (isrPopped.map r.gpr ++ a :: b :: (r.frame none).reverse)) :
    trapLeave gdt c = (iretPrivilege c.mem (gdtp gdt) c.regs.cpl r.cs.toNat r.ss.toNat).map
      fun _ => ⟨r, c.mem⟩ := by
  rcases trapLeave_eq gdt h with ⟨c₁, heq, hgpr, hmem, hcpl, hframe⟩
  rw [heq, iretq_frame _ hrsp hframe, hgpr, hmem, hcpl]

/-- From the words of a trap the interrupted registers come back if the stub is balanced and
the selectors are accepted. -/
theorem trapLeave_balanced (gdt : Nat) (hbal : t.Balanced) (hrsp : c.regs.rsp < 2 ^ 64)
    (hwords : HoldsWords c₂.mem c₂.regs.rsp (trapWords t c.regs).reverse) :
    trapLeave gdt c₂ =
      (iretPrivilege c₂.mem (gdtp gdt) c₂.regs.cpl c.regs.cs.toNat c.regs.ss.toNat).map
        fun _ => ⟨c.regs, c₂.mem⟩ := by
  have herr := t.err_isSome
  unfold Trap.Balanced at hbal
  rw [trapWords_reverse, stubWords, hbal, ← herr] at hwords
  cases hcode : t.err with
  | none =>
    rw [hcode] at hwords
    exact trapLeave_regs gdt hrsp hwords
  | some e =>
    rw [hcode] at hwords
    exact trapLeave_regs gdt hrsp hwords

/-- The call of the handler writes below the interrupted stack pointer only. -/
theorem trapCall_kept (hroom : 192 ≤ stack.getD c.regs.rsp) :
    Untouched (frameTop stack c) top c.mem (trapCall stack t c).mem ∧
      Untouched (trapEnter stack t c).regs.rsp top (trapEnter stack t c).mem
        (trapCall stack t c).mem ∧
      (trapCall stack t c).regs.rsp ≤ (trapEnter stack t c).regs.rsp := by
  have hlen := length_trapWords t c.regs
  have hrsp := trapEnter_rsp stack t c
  have hframe : 192 ≤ frameTop stack c := by
    unfold frameTop
    omega
  have hcall : Untouched (trapEnter stack t c).regs.rsp top (trapEnter stack t c).mem
      (trapCall stack t c).mem := by
    intro x hlo _
    exact write64_apply_of_outside (by omega)
  refine ⟨?_, hcall, Nat.sub_le _ _⟩
  refine Untouched.trans ?_ (hcall.mono (by omega) le_rfl)
  rw [trapEnter_mem]
  have hpushes : 8 * (trapWords t c.regs).length ≤ (c.land t.gate stack).regs.rsp := by
    show _ ≤ frameTop stack c
    omega
  exact untouched_pushAll hpushes top

theorem frameTop_le (stack : Option Nat) (c : Core) : frameTop stack c ≤ stack.getD c.regs.rsp := by
  unfold frameTop
  omega

/-- A handler starts in the segment of its gate. -/
theorem trapEnter_cpl (stack : Option Nat) (t : Trap) (c : Core) :
    (trapEnter stack t c).regs.cpl = 0 := by
  have hcs : (trapEnter stack t c).regs.cs = t.gate.selector := by
    rw [trapEnter_eq]
    show ((c.land t.gate stack).pushAll (trapWords t c.regs)).regs.cs = _
    rw [pushAll_regs]
    rfl
  rw [Regs.cpl, hcs, t.gate_selector]
  rfl

/-- Code that only loads registers. -/
theorem HandlerRuns.setRegs {f : Nat} (c : Core) {r : Regs} (h : r.rsp ≤ f) :
    HandlerRuns gdt top f c { c with regs := r } :=
  @HandlerRuns.compute gdt top f c { c with regs := r } _ h (fun _ _ _ => rfl) (.done f _)

/-- Code leaves its callers' part of the stack alone, also if it is interrupted. -/
theorem HandlerRuns.kept {f : Nat} {c' : Core} (h : HandlerRuns gdt top f c c')
    (htop : top < 2 ^ 64) (hf : f ≤ top) (hrsp : c.regs.rsp ≤ f) :
    Untouched f top c.mem c'.mem := by
  -- induction on the run; a trap is a run of its own on the stack below
  induction h with
  | done f c => exact fun _ _ _ => rfl
  | compute hlow hkept _ ih => exact hkept.trans (ih hf hlow)
  | @trap f c c₂ c₃ c' t hbal hroom _ hret hleave _ ihHandler ihRest =>
    have hbase := trapEnter_rsp none t c
    have hle : frameTop none c ≤ c.regs.rsp := frameTop_le none c
    rcases @trapCall_kept none t c top hroom with ⟨hframe, hcall, hlow⟩
    have hhandler := ihHandler (by omega) hlow
    have hwords := @frame_kept none t c c₂ top hroom (hrsp.trans hf) (hcall.trans hhandler) hret
    rw [trapLeave_balanced gdt hbal (by omega) hwords] at hleave
    rcases Option.map_eq_some_iff.mp hleave with ⟨-, -, rfl⟩
    have hrest := ihRest hf hrsp
    exact ((hframe.mono (by omega) le_rfl).trans (hhandler.mono (by omega) le_rfl)).trans hrest

/-- When a handler returns, with any interrupts inside it, the words of its frame are there and
the interrupted stack is as it was. -/
theorem handler_returned (htop : top < 2 ^ 64) (hstack : stack.getD c.regs.rsp ≤ top)
    (hroom : 192 ≤ stack.getD c.regs.rsp)
    (hrun : HandlerRuns gdt top (trapEnter stack t c).regs.rsp (trapCall stack t c) c₂)
    (hret : c₂.regs.rsp = (trapEnter stack t c).regs.rsp) :
    HoldsWords c₂.mem c₂.regs.rsp (trapWords t c.regs).reverse ∧
      Untouched (stack.getD c.regs.rsp) top c.mem c₂.mem := by
  have hbase := trapEnter_rsp stack t c
  have hle := frameTop_le stack c
  rcases @trapCall_kept stack t c top hroom with ⟨hframe, hcall, hlow⟩
  have hkept := hrun.kept htop (by omega) hlow
  constructor
  · exact frame_kept hroom hstack (hcall.trans hkept) hret
  · exact (hframe.mono hle le_rfl).trans (hkept.mono (by omega) le_rfl)

/-- The selectors of code that `iretq` returns to from the kernel: those of the kernel and those
of user mode. SYSCALL and SYSRET load others. -/
def Returnable (r : Regs) : Prop :=
  (r.cs = 0x08 ∧ (r.ss.toNat < 4 ∨ r.ss = 0x10)) ∨ (r.cs = 0x1B ∧ r.ss = 0x23)

theorem returnable_iff {m : ByteMem} (h : GdtLoaded gdt m) (r : Regs) :
    (iretPrivilege m (gdtp gdt) 0 r.cs.toNat r.ss.toNat).isSome ↔ Returnable r := by
  have heq : ∀ (a : UInt16) (n : Nat), n < 2 ^ 16 → (a.toNat = n ↔ a = UInt16.ofNat n) := by
    intro a n hn
    rw [← UInt16.toNat_inj, UInt16.toNat_ofNat', Nat.mod_eq_of_lt hn]
  rw [Option.isSome_iff_exists]
  simp only [iretPrivilege_iff h, heq _ 0x08 (by decide), heq _ 0x1B (by decide),
    heq _ 0x10 (by decide), heq _ 0x23 (by decide)]
  constructor
  · rintro ⟨p, ⟨-, -, hcs, hss⟩ | ⟨-, -, hcs, hss⟩⟩
    · exact .inl ⟨hcs, hss⟩
    · exact .inr ⟨hcs, hss⟩
  · rintro (⟨hcs, hss⟩ | ⟨hcs, hss⟩)
    · exact ⟨0, .inl ⟨rfl, trivial, hcs, hss⟩⟩
    · exact ⟨3, .inr ⟨rfl, Nat.zero_le 3, hcs, hss⟩⟩

/-- What becomes of a trap with a balanced stub, whose words are still there: the interrupted
code goes on with its registers if `iretq` can return to it, and else the processor faults. -/
theorem trapLeave_iff (hloaded : GdtLoaded gdt c₂.mem) (hcpl : c₂.regs.cpl = 0)
    (hrsp : c.regs.rsp < 2 ^ 64) (hbal : t.Balanced)
    (hwords : HoldsWords c₂.mem c₂.regs.rsp (trapWords t c.regs).reverse) (c' : Core) :
    trapLeave gdt c₂ = some c' ↔ Returnable c.regs ∧ c' = ⟨c.regs, c₂.mem⟩ := by
  rw [trapLeave_balanced gdt hbal hrsp hwords, hcpl, ← returnable_iff hloaded,
    Option.map_eq_some_iff, Option.isSome_iff_exists]
  constructor
  · rintro ⟨p, hp, rfl⟩
    exact ⟨⟨p, hp⟩, rfl⟩
  · rintro ⟨⟨p, hp⟩, rfl⟩
    exact ⟨p, hp, rfl⟩

/-- A handler may return at once, in kernel mode. If the descriptor table is not where the
stack is, it is in place then. -/
theorem HandlerRuns.atOnce (stack : Option Nat) (t : Trap) (c : Core) (top : Nat)
    (hroom : 192 ≤ stack.getD c.regs.rsp) (hgdt : stack.getD c.regs.rsp ≤ gdt)
    (hloaded : GdtLoaded gdt c.mem) :
    ∃ c₂, HandlerRuns gdt top (trapEnter stack t c).regs.rsp (trapCall stack t c) c₂ ∧
      c₂.regs.rsp = (trapEnter stack t c).regs.rsp ∧ c₂.regs.cpl = 0 ∧ GdtLoaded gdt c₂.mem := by
  refine ⟨⟨(trapEnter stack t c).regs, (trapCall stack t c).mem⟩, .setRegs _ le_rfl, rfl,
    trapEnter_cpl stack t c, ?_⟩
  have hle := frameTop_le stack c
  apply hloaded.congr
  intro x hlo hhi
  exact (@trapCall_kept stack t c (gdt + 56) hroom).1 x (by omega) hhi

/-- `struct regs`. -/
@[ext]
structure TrapRegs where
  r15 : UInt64
  r14 : UInt64
  r13 : UInt64
  r12 : UInt64
  r11 : UInt64
  r10 : UInt64
  r9 : UInt64
  r8 : UInt64
  rax : UInt64
  rcx : UInt64
  rdx : UInt64
  rbx : UInt64
  rbp : UInt64
  rsi : UInt64
  rdi : UInt64
  intNo : UInt64
  errCode : UInt64
  rip : UInt64
  cs : UInt64
  rflags : UInt64
  rsp : UInt64
  ss : UInt64

/-- The structure that a pointer of `isr_handler` refers to. -/
def readTrapRegs (m : ByteMem) (p : Nat) : TrapRegs where
  r15 := word m p
  r14 := word m (p + 8)
  r13 := word m (p + 16)
  r12 := word m (p + 24)
  r11 := word m (p + 32)
  r10 := word m (p + 40)
  r9 := word m (p + 48)
  r8 := word m (p + 56)
  rax := word m (p + 64)
  rcx := word m (p + 72)
  rdx := word m (p + 80)
  rbx := word m (p + 88)
  rbp := word m (p + 96)
  rsi := word m (p + 104)
  rdi := word m (p + 112)
  intNo := word m (p + 120)
  errCode := word m (p + 128)
  rip := word m (p + 136)
  cs := word m (p + 144)
  rflags := word m (p + 152)
  rsp := word m (p + 160)
  ss := word m (p + 168)

/-- What it should hold for registers that were interrupted. -/
def Trap.describes (t : Trap) (r : Regs) (s : TrapRegs) : Prop :=
  (∀ g, r.gpr g = match g with
    | .rax => s.rax
    | .rbx => s.rbx
    | .rcx => s.rcx
    | .rdx => s.rdx
    | .rsi => s.rsi
    | .rdi => s.rdi
    | .rbp => s.rbp
    | .r8 => s.r8
    | .r9 => s.r9
    | .r10 => s.r10
    | .r11 => s.r11
    | .r12 => s.r12
    | .r13 => s.r13
    | .r14 => s.r14
    | .r15 => s.r15) ∧
  s.intNo.toNat = t.vector ∧ s.errCode = t.err.getD 0 ∧ s.rip = r.rip ∧
    s.cs = r.cs.toUInt64 ∧ s.rflags = r.rflags ∧ s.rsp.toNat = r.rsp ∧ s.ss = r.ss.toUInt64

theorem describes_of_words {m : ByteMem} {p : Nat} (hrsp : c.regs.rsp < 2 ^ 64)
    (h : HoldsWords m p (isrPopped.map c.regs.gpr ++
      UInt64.ofNat t.vector :: t.err.getD 0 :: (c.regs.frame none).reverse)) :
    t.describes c.regs (readTrapRegs m p) := by
  rcases h with ⟨h₁, h₂, h₃, h₄, h₅, h₆, h₇, h₈, h₉, h₁₀, h₁₁, h₁₂, h₁₃, h₁₄, h₁₅, hno, herr,
    hrip, hcs, hflags, hsp, hss, -⟩
  simp only [Nat.add_assoc, Nat.reduceAdd] at h₂ h₃ h₄ h₅ h₆ h₇ h₈ h₉ h₁₀ h₁₁ h₁₂ h₁₃ h₁₄ h₁₅
  simp only [Nat.add_assoc, Nat.reduceAdd] at hno herr hrip hcs hflags hsp hss
  refine ⟨?_, ?_, herr, hrip, hcs, hflags, ?_, hss⟩
  · intro g
    cases g with
    | rax => exact h₉.symm
    | rbx => exact h₁₂.symm
    | rcx => exact h₁₀.symm
    | rdx => exact h₁₁.symm
    | rsi => exact h₁₄.symm
    | rdi => exact h₁₅.symm
    | rbp => exact h₁₃.symm
    | r8 => exact h₈.symm
    | r9 => exact h₇.symm
    | r10 => exact h₆.symm
    | r11 => exact h₅.symm
    | r12 => exact h₄.symm
    | r13 => exact h₃.symm
    | r14 => exact h₂.symm
    | r15 => exact h₁.symm
  · have hlt := t.vector_lt
    simp only [readTrapRegs, hno, UInt64.toNat_ofNat']
    omega
  · simp only [readTrapRegs, hsp, UInt64.toNat_ofNat']
    omega

/-- The words below the frame of the processor: the vector and the error code, or zero. -/
theorem trapWords_balanced (hbal : t.Balanced) (r : Regs) :
    (trapWords t r).reverse = isrPopped.map r.gpr ++
      UInt64.ofNat t.vector :: t.err.getD 0 :: (r.frame none).reverse := by
  have herr := t.err_isSome
  unfold Trap.Balanced at hbal
  rw [trapWords_reverse, stubWords, hbal, ← herr]
  cases t.err <;> rfl

theorem length_trapWords_iff (t : Trap) (r : Regs) :
    (trapWords t r).length = 22 ↔ t.Balanced := by
  have herr := t.err_isSome
  unfold Trap.Balanced
  rw [← herr]
  simp only [trapWords, Regs.frame, isrPushed, stubWords, List.length_append, List.length_cons,
    List.length_nil, List.map_cons, List.map_nil]
  cases t.err <;> cases isrErrcode t.vector <;> simp

/-- `isr_handler` is called on a stack aligned as its callers have to, for all vectors but 21
and 29; and for these its argument describes the interrupted registers, with the vector and
the error code. -/
theorem handler_sees_iff (t : Trap) (stack : Option Nat) (c : Core)
    (hroom : 192 ≤ stack.getD c.regs.rsp) (hstack : stack.getD c.regs.rsp < 2 ^ 64)
    (hrsp : c.regs.rsp < 2 ^ 64) :
    ((trapEnter stack t c).regs.rsp % 16 = 0 ↔ t.vector ≠ 21 ∧ t.vector ≠ 29) ∧
      (t.vector ≠ 21 ∧ t.vector ≠ 29 → t.describes c.regs
        (readTrapRegs (trapCall stack t c).mem ((trapCall stack t c).regs.gpr .rdi).toNat)) := by
  have hlen := length_trapWords t c.regs
  have hiff := length_trapWords_iff t c.regs
  have hbase := trapEnter_rsp stack t c
  have hframe : 192 ≤ frameTop stack c ∧ frameTop stack c < 2 ^ 64 ∧ frameTop stack c % 16 = 0 := by
    unfold frameTop
    omega
  rw [← t.balanced_iff]
  constructor
  · rw [← hiff, hbase]
    have herr : 20 < (trapWords t c.regs).length := by
      simp only [trapWords, Regs.frame, isrPushed, stubWords, List.length_append,
        List.length_cons, List.length_nil, List.map_cons, List.map_nil]
      split <;> simp only [List.length_cons, List.length_nil] <;> omega
    omega
  · intro hbal
    have hrdi : (trapCall stack t c).regs.gpr .rdi =
        UInt64.ofNat (trapEnter stack t c).regs.rsp := by
      rw [trapCall, trapEnter_eq]
      rfl
    rcases @trapCall_kept stack t c (2 ^ 64) hroom with ⟨-, hcall, -⟩
    -- as at the return, with the return address pushed and nothing done yet
    have hwords := @frame_kept stack t c
      { trapCall stack t c with regs := (trapEnter stack t c).regs } (2 ^ 64) hroom (by omega)
      hcall rfl
    rw [trapWords_balanced hbal] at hwords
    rw [hrdi, UInt64.toNat_ofNat', Nat.mod_eq_of_lt (by omega)]
    exact describes_of_words hrsp hwords

/-- A page fault in user mode, with its error code. -/
theorem handler_sees_pageFault :
    ∃ (t : Trap) (c : Core), t.vector = 14 ∧ t.err = some 6 ∧ t.describes c.regs
      (readTrapRegs (trapCall (some 0x10000) t c).mem
        ((trapCall (some 0x10000) t c).regs.gpr .rdi).toNat) := by
  let t : Trap := ⟨14, some 6, ⟨0, 8⟩, 0, by decide, by decide, rfl⟩
  let c : Core := ⟨⟨fun _ => 7, 2 ^ 47, 0x400000, 0x202, 0x1B, 0x23⟩, fun _ => 0⟩
  have hsees := handler_sees_iff t (some 0x10000) c (by decide) (by decide) (by decide)
  exact ⟨t, c, rfl, rfl, hsees.2 ⟨by decide, by decide⟩⟩

end Frame

end Orchid
