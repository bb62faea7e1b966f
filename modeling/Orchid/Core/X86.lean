import Orchid.Core.Segments
import Mathlib.Logic.Function.Basic

/-! # Entry code of an x86-64 processor

The general registers, the stack, and what an interrupt saves there. The
instructions that entry code is made of are functions on this state, and a
straight-line piece of code is the fold of its instructions.

* `pushAll_holds`: the words pushed lie above the stack pointer, the last one
  lowest; nothing else in memory changes.
* `exec_pops`: registers popped from such words have their values again.
* `Untouched`: a range of memory that some piece of code leaves alone.
-/

namespace X86

open ByteMem Function

/-- The general registers without the stack pointer. -/
inductive Gpr where
  | rax
  | rbx
  | rcx
  | rdx
  | rsi
  | rdi
  | rbp
  | r8
  | r9
  | r10
  | r11
  | r12
  | r13
  | r14
  | r15
  deriving DecidableEq, Repr

/-- The registers that a C function leaves as they are, the stack pointer apart. -/
def calleeSaved : List Gpr := [.rbx, .rbp, .r12, .r13, .r14, .r15]

abbrev CalleeSaved := { r : Gpr // r ∈ calleeSaved }

@[ext]
structure Regs where
  gpr : Gpr → UInt64
  rsp : Nat
  rip : UInt64
  rflags : UInt64
  cs : UInt16
  ss : UInt16

/-- The privilege level. -/
def Regs.cpl (r : Regs) : Nat := r.cs.toNat % 4

def Regs.saved (r : Regs) : CalleeSaved → UInt64 := fun s => r.gpr s

/-- The processor and its memory. -/
structure Core where
  regs : Regs
  mem : ByteMem

/-! ## Instructions -/

/-- `pushq` of a value. -/
def Core.push (v : UInt64) (c : Core) : Core where
  regs := { c.regs with rsp := c.regs.rsp - 8 }
  mem := write64 c.mem (c.regs.rsp - 8) v.toNat

def Core.pushAll (vs : List UInt64) (c : Core) : Core := vs.foldl (fun c v => c.push v) c

/-- `popq`. -/
def Core.pop (r : Gpr) (c : Core) : Core :=
  { c with regs :=
    { c.regs with
      gpr := update c.regs.gpr r (word c.mem c.regs.rsp)
      rsp := c.regs.rsp + 8 } }

/-- `ret`. -/
def Core.ret (c : Core) : Core :=
  { c with regs := { c.regs with rip := word c.mem c.regs.rsp, rsp := c.regs.rsp + 8 } }

def Core.setGpr (r : Gpr) (v : UInt64) (c : Core) : Core :=
  { c with regs := { c.regs with gpr := update c.regs.gpr r v } }

/-- The instructions that straight-line entry code uses. -/
inductive Instr where
  | push (r : Gpr)
  | pushImm (v : UInt64)
  | pop (r : Gpr)
  | mov (dst src : Gpr)
  /-- `movq %rsp, dst`. -/
  | movRsp (dst : Gpr)
  /-- `addq $n, %rsp`. -/
  | addRsp (n : Nat)
  /-- `movq a(%rip), dst`. -/
  | load (dst : Gpr) (a : Nat)
  /-- `movq src, a(%rip)`. -/
  | store (a : Nat) (src : Gpr)

def Instr.exec : Instr → Core → Core
  | push r, c => c.push (c.regs.gpr r)
  | pushImm v, c => c.push v
  | pop r, c => c.pop r
  | mov dst src, c => c.setGpr dst (c.regs.gpr src)
  | movRsp dst, c => c.setGpr dst (UInt64.ofNat c.regs.rsp)
  | addRsp n, c => { c with regs := { c.regs with rsp := c.regs.rsp + n } }
  | load dst a, c => c.setGpr dst (word c.mem a)
  | store a src, c => { c with mem := write64 c.mem a (c.regs.gpr src).toNat }

def exec (is : List Instr) (c : Core) : Core := is.foldl (fun c i => i.exec c) c

theorem exec_append (is is' : List Instr) (c : Core) : exec (is ++ is') c = exec is' (exec is c) :=
  List.foldl_append

/-! ## Pushing and popping -/

section Stack

variable {c : Core} {vs words : List UInt64} {m m' m'' : ByteMem} {lo hi : Nat}

theorem pushAll_append (vs ws : List UInt64) (c : Core) :
    c.pushAll (vs ++ ws) = (c.pushAll vs).pushAll ws := List.foldl_append

theorem pushAll_regs (vs : List UInt64) (c : Core) :
    (c.pushAll vs).regs = { c.regs with rsp := c.regs.rsp - 8 * vs.length } := by
  induction vs generalizing c with
  | nil => rfl
  | cons v vs ih =>
    have hrsp : c.regs.rsp - 8 - 8 * vs.length = c.regs.rsp - 8 * (v :: vs).length := by
      rw [List.length_cons]
      omega
    have hstep : c.pushAll (v :: vs) = (c.push v).pushAll vs := rfl
    rw [hstep, ih, Core.push, hrsp]

/-- The words pushed lie under those that were there, the last one lowest. -/
theorem pushAll_holds (h : HoldsWords c.mem c.regs.rsp words) (hroom : 8 * vs.length ≤ c.regs.rsp) :
    HoldsWords (c.pushAll vs).mem (c.pushAll vs).regs.rsp (vs.reverse ++ words) := by
  induction vs generalizing c words with
  | nil => exact h
  | cons v vs ih =>
    rw [List.length_cons] at hroom
    have hpush : HoldsWords (c.push v).mem (c.push v).regs.rsp (v :: words) := h.push (by omega)
    have hrest := ih hpush (by simp only [Core.push]; omega)
    rw [List.reverse_cons, List.append_assoc]
    exact hrest

/-- Nothing else in memory changes. -/
theorem pushAll_apply_of_outside {x : Nat} (hroom : 8 * vs.length ≤ c.regs.rsp)
    (hx : x < c.regs.rsp - 8 * vs.length ∨ c.regs.rsp ≤ x) : (c.pushAll vs).mem x = c.mem x := by
  induction vs generalizing c with
  | nil => rfl
  | cons v vs ih =>
    rw [List.length_cons] at hroom hx
    have hstep : c.pushAll (v :: vs) = (c.push v).pushAll vs := rfl
    rw [hstep, ih (by simp only [Core.push]; omega) (by simp only [Core.push]; omega)]
    exact write64_apply_of_outside (by omega)

/-- Pushes of registers push the values they have. -/
theorem exec_pushes (rs : List Gpr) (c : Core) :
    exec (rs.map .push) c = c.pushAll (rs.map c.regs.gpr) := by
  induction rs generalizing c with
  | nil => rfl
  | cons r rs ih => exact ih (c.push (c.regs.gpr r))

/-- Popped from the values they had, registers have them again. -/
theorem exec_pops {rs : List Gpr} {old : Gpr → UInt64} (hnodup : rs.Nodup)
    (h : HoldsWords c.mem c.regs.rsp (rs.map old ++ words)) :
    HoldsWords c.mem (c.regs.rsp + 8 * rs.length) words ∧
      exec (rs.map .pop) c =
        { c with regs :=
          { c.regs with
            gpr := fun r => if r ∈ rs then old r else c.regs.gpr r
            rsp := c.regs.rsp + 8 * rs.length } } := by
  induction rs generalizing c with
  | nil =>
    refine ⟨h, ?_⟩
    simp [exec]
  | cons r rs ih =>
    have hnot : r ∉ rs := (List.nodup_cons.mp hnodup).1
    have hword : word c.mem c.regs.rsp = old r := h.1
    rcases @ih (c.pop r) (List.nodup_cons.mp hnodup).2 h.2 with ⟨hrest, hexec⟩
    have hrsp : (c.pop r).regs.rsp + 8 * rs.length = c.regs.rsp + 8 * (r :: rs).length := by
      simp only [Core.pop, List.length_cons]
      omega
    rw [hrsp] at hrest hexec
    refine ⟨hrest, ?_⟩
    show exec (rs.map .pop) (c.pop r) = _
    rw [hexec]
    simp only [Core.pop, hword]
    congr 2
    funext s
    by_cases hs : s = r
    · subst hs
      simp [hnot]
    · simp [hs]

/-- Memory from `lo` to `hi` is as it was. -/
def Untouched (lo hi : Nat) (m m' : ByteMem) : Prop := ∀ x, lo ≤ x → x < hi → m' x = m x

theorem Untouched.trans (h : Untouched lo hi m m') (h' : Untouched lo hi m' m'') : Untouched lo hi m m'' :=
  fun x hlo hhi => (h' x hlo hhi).trans (h x hlo hhi)

theorem Untouched.mono {lo' hi' : Nat} (h : Untouched lo hi m m') (hlo : lo ≤ lo') (hhi : hi' ≤ hi) :
    Untouched lo' hi' m m' :=
  fun x hx hx' => h x (hlo.trans hx) (hx'.trans_le hhi)

theorem untouched_pushAll (hroom : 8 * vs.length ≤ c.regs.rsp) (hi : Nat) :
    Untouched c.regs.rsp hi c.mem (c.pushAll vs).mem :=
  fun _ hlo _ => pushAll_apply_of_outside hroom (.inr hlo)

end Stack

/-! ## Interrupts -/

/-- What the processor pushes when it delivers an interrupt. -/
def Regs.frame (r : Regs) (err : Option UInt64) : List UInt64 :=
  [r.ss.toUInt64, UInt64.ofNat r.rsp, r.rflags, r.cs.toUInt64, r.rip] ++ err.toList

/-- Where a gate leads. -/
structure Gate where
  offset : UInt64
  selector : UInt16

/-- TF, IF, NT, RF and VM, which an interrupt gate clears. -/
def maskedFlags : UInt64 := 0x34300

/-- Where the frame of an interrupt ends: the stack that is switched to, or the current one,
aligned. -/
def frameTop (stack : Option Nat) (c : Core) : Nat := (stack.getD c.regs.rsp) / 16 * 16

/-- The registers at the first instruction of a handler, before anything is pushed. With a
change of privilege the stack is `stack`, and SS is null. -/
def Core.land (gate : Gate) (stack : Option Nat) (c : Core) : Core :=
  { c with regs :=
    { c.regs with
      rsp := frameTop stack c
      rip := gate.offset
      rflags := c.regs.rflags &&& ~~~maskedFlags
      cs := gate.selector
      ss := if stack.isSome then 0 else c.regs.ss } }

/-- Delivery through an interrupt gate. -/
def Core.deliver (gate : Gate) (stack : Option Nat) (err : Option UInt64) (c : Core) : Core :=
  (c.land gate stack).pushAll (c.regs.frame err)

/-- The vectors for which the processor pushes an error code. -/
def pushesErrorCode (vector : Nat) : Bool := vector ∈ [8, 10, 11, 12, 13, 14, 17, 21, 29, 30]

/-- The exceptions that are faults: the instruction pointer that they save is that of the
instruction that caused them. -/
def isFault (vector : Nat) : Bool := vector ∈ [0, 5, 6, 7, 10, 11, 12, 13, 14, 16, 17, 19, 20, 21]

/-- `iretq`, or `none` if the processor does not accept the two selectors. -/
def Core.iretq (gdtr : TableRegister) (c : Core) : Option Core :=
  let cs := (word c.mem (c.regs.rsp + 8)).toUInt16
  let ss := (word c.mem (c.regs.rsp + 32)).toUInt16
  (iretPrivilege c.mem gdtr c.regs.cpl cs.toNat ss.toNat).map fun _ =>
    { c with regs :=
      { c.regs with
        rip := word c.mem c.regs.rsp
        cs := cs
        rflags := word c.mem (c.regs.rsp + 16)
        rsp := (word c.mem (c.regs.rsp + 24)).toNat
        ss := ss } }

/-- A frame gives the registers back, if the selectors in it are accepted. -/
theorem iretq_frame {c : Core} {r : Regs} (gdtr : TableRegister) (hrsp : r.rsp < 2 ^ 64)
    (h : HoldsWords c.mem c.regs.rsp (r.frame none).reverse) :
    c.iretq gdtr = (iretPrivilege c.mem gdtr c.regs.cpl r.cs.toNat r.ss.toNat).map fun _ =>
      { c with regs := { r with gpr := c.regs.gpr } } := by
  rcases h with ⟨h₁, h₂, h₃, h₄, h₅, -⟩
  simp only [Nat.add_assoc, Nat.reduceAdd] at h₂ h₃ h₄ h₅
  have hof : (UInt64.ofNat r.rsp).toNat = r.rsp := by
    rw [UInt64.toNat_ofNat', Nat.mod_eq_of_lt hrsp]
  unfold Core.iretq
  rw [h₁, h₂, h₃, h₄, h₅, hof]
  simp

/-- `syscall`. The stack pointer stays the caller's. -/
def Core.syscall (entry mask : UInt64) (cs ss : UInt16) (c : Core) : Core :=
  { c with regs :=
    { c.regs with
      gpr := update (update c.regs.gpr .rcx c.regs.rip) .r11 c.regs.rflags
      rip := entry
      rflags := c.regs.rflags &&& ~~~mask
      cs := cs
      ss := ss } }

/-- The flags that `sysretq` loads: RF and VM are cleared, and bit 1 is set. -/
def sysretFlags (v : UInt64) : UInt64 := v &&& 0x3C7FD7 ||| 2

/-- `sysretq`. -/
def Core.sysretq (cs ss : UInt16) (c : Core) : Core :=
  { c with regs :=
    { c.regs with
      rip := c.regs.gpr .rcx
      rflags := sysretFlags (c.regs.gpr .r11)
      cs := cs
      ss := ss } }

end X86
