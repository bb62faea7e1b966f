import Orchid.Core.Rules
import Orchid.Core.X86

/-! # Programs that make system calls

A program is a list of instructions, and a jump names a position in it. A system
call returns as the calling convention says: the result in RAX, the flags and the
callee-saved registers as before, and anything in the other registers.

What a program does for its kernel is described by a `Client`: a state, the
registers it asks with there, and the state after a result. The code follows the
client for every kernel if each of its blocks does (`Implements.calling`): a block
starts behind a call and runs, without one, up to the next.
-/

namespace X86

open Machine Function

/-! ## Instructions -/

/-- The flags that conditional jumps read. -/
structure Flags where
  zf : Bool
  cf : Bool
  sf : Bool
  ovf : Bool

def signBit (v : UInt64) : Bool := decide (0x8000000000000000 ≤ v.toNat)

/-- The flags of a bitwise operation with result `v`. -/
def Flags.ofBits (v : UInt64) : Flags := ⟨v == 0, false, signBit v, false⟩

/-- The flags of the subtraction of `b` from `a`. -/
def Flags.ofSub (a b : UInt64) : Flags where
  zf := a == b
  cf := decide (a < b)
  sf := signBit (a - b)
  ovf := signBit a != signBit b && signBit (a - b) != signBit a

inductive Cond where
  | zero
  | notZero
  | above
  | lessEq

def Cond.holds : Cond → Flags → Bool
  | zero, f => f.zf
  | notZero, f => !f.zf
  | above, f => !f.cf && !f.zf
  | lessEq, f => f.zf || f.sf != f.ovf

inductive UserOp where
  /-- `mov $v, dst`, and `lea` of a fixed address. -/
  | movImm (v : UInt64) (dst : Gpr)
  | mov (src dst : Gpr)
  /-- `xor r, r`. -/
  | clear (r : Gpr)
  /-- `test r, r`. -/
  | test (r : Gpr)
  /-- `cmp $v, r`. -/
  | cmpImm (v : UInt64) (r : Gpr)
  | jcc (c : Cond) (target : Nat)
  | jmp (target : Nat)
  | syscall

/-- The registers of a program; `pc` is the position of its next instruction. -/
structure User where
  pc : Nat
  gpr : Gpr → UInt64
  flags : Flags

/-- What an instruction does that is not a system call. -/
def UserOp.exec : UserOp → User → Option User
  | movImm v dst, u => some ⟨u.pc + 1, update u.gpr dst v, u.flags⟩
  | mov src dst, u => some ⟨u.pc + 1, update u.gpr dst (u.gpr src), u.flags⟩
  | clear r, u => some ⟨u.pc + 1, update u.gpr r 0, .ofBits 0⟩
  | test r, u => some ⟨u.pc + 1, u.gpr, .ofBits (u.gpr r)⟩
  | cmpImm v r, u => some ⟨u.pc + 1, u.gpr, .ofSub (u.gpr r) v⟩
  | jcc c target, u => some { u with pc := if c.holds u.flags then target else u.pc + 1 }
  | jmp target, u => some { u with pc := target }
  | syscall, _ => none

/-- One instruction of the program, if it is not a system call. -/
def User.step (code : List UserOp) (u : User) : Option User := code[u.pc]?.bind fun o => o.exec u

/-- Some instructions. -/
def User.run (code : List UserOp) : Nat → User → Option User
  | 0, u => some u
  | n + 1, u => (u.step code).bind (run code n)

def User.AtCall (code : List UserOp) (u : User) : Prop := code[u.pc]? = some .syscall

/-- How a program goes on after its system call. -/
structure Resumed (u : User) (ret : UInt64) (u' : User) : Prop where
  pc : u'.pc = u.pc + 1
  flags : u'.flags = u.flags
  rax : u'.gpr .rax = ret
  saved : ∀ r ∈ calleeSaved, u'.gpr r = u.gpr r

/-- Nothing but the result may have changed. -/
theorem resumed_update (u : User) (ret : UInt64) :
    Resumed u ret ⟨u.pc + 1, update u.gpr .rax ret, u.flags⟩ where
  pc := rfl
  flags := rfl
  rax := update_self Gpr.rax ret u.gpr
  saved := by
    intro r hr
    apply update_of_ne
    rintro rfl
    simp [calleeSaved] at hr

section Jumps

variable {v w : UInt64}

/-- A jump on `le` behind a `test` is taken for 0 and for negative numbers. -/
theorem lessEq_ofBits : Cond.lessEq.holds (.ofBits v) = true ↔ v = 0 ∨ signBit v = true := by
  change (v == 0 || signBit v != false) = true ↔ _
  simp

theorem zero_ofBits : Cond.zero.holds (.ofBits v) = true ↔ v = 0 := by
  change (v == 0) = true ↔ _
  exact beq_iff_eq

theorem notZero_ofBits : Cond.notZero.holds (.ofBits v) = true ↔ v ≠ 0 := by
  change (!(v == 0)) = true ↔ _
  simp

/-- A jump on `a` behind a `cmp` compares unsigned numbers. -/
theorem above_ofSub : Cond.above.holds (.ofSub v w) = true ↔ w < v := by
  change (!decide (v < w) && !(v == w)) = true ↔ _
  simp only [Bool.and_eq_true, Bool.not_eq_true', decide_eq_false_iff_not, beq_eq_false_iff_ne,
    UInt64.not_lt, ne_eq]
  constructor
  · rintro ⟨hle, hne⟩
    exact UInt64.lt_of_le_of_ne hle (Ne.symm hne)
  · intro hlt
    exact ⟨UInt64.le_of_lt hlt, (UInt64.ne_of_lt hlt).symm⟩

end Jumps

/-! ## Calls and clients -/

/-- A system call that returned. -/
structure CallRecord where
  gpr : Gpr → UInt64
  ret : UInt64

/-- What some registers are to hold. -/
abbrev Request := List (Gpr × UInt64)

def Request.Asks : Request → (Gpr → UInt64) → Prop
  | [], _ => True
  | (r, v) :: q, gpr => gpr r = v ∧ Asks q gpr

/-- What a program is to ask for, by the results so far. -/
structure Client (α : Type*) where
  request : α → Request
  next : α → UInt64 → α

namespace Client

variable {α : Type*} (k : Client α)

/-- The state behind some calls. -/
def after (a : α) (calls : List CallRecord) : α := calls.foldl (fun a t => k.next a t.ret) a

/-- Each call is the one that the client asks for there. -/
def Follows : α → List CallRecord → Prop
  | _, [] => True
  | a, t :: ts => (k.request a).Asks t.gpr ∧ Follows (k.next a t.ret) ts

theorem after_concat (a : α) (calls : List CallRecord) (t : CallRecord) :
    k.after a (calls ++ [t]) = k.next (k.after a calls) t.ret := List.foldl_append

variable {k}

theorem Follows.concat {a : α} {calls : List CallRecord} {t : CallRecord} (h : k.Follows a calls)
    (ht : (k.request (k.after a calls)).Asks t.gpr) : k.Follows a (calls ++ [t]) := by
  induction calls generalizing a with
  | nil => exact ⟨ht, trivial⟩
  | cons t' calls ih =>
    rcases h with ⟨hasks, hrest⟩
    exact ⟨hasks, ih hrest ht⟩

end Client

/-! ## Runs -/

/-- A program and the calls it has made. -/
structure Calling where
  user : User
  calls : List CallRecord

/-- An instruction, or a call that returns anything. -/
inductive Calling.Next (code : List UserOp) : Action Calling where
  | op {u u' : User} {calls : List CallRecord} (hstep : u.step code = some u') :
      Next code ⟨u, calls⟩ ⟨u', calls⟩
  | call {u u' : User} {calls : List CallRecord} {ret : UInt64} (hat : u.AtCall code)
      (hresumed : Resumed u ret u') : Next code ⟨u, calls⟩ ⟨u', calls ++ [⟨u.gpr, ret⟩]⟩

section Blocks

variable {α : Type*} {k : Client α} {code : List UserOp} {Start : α → User → Prop}
  {a : α} {u u' : User} {ret : UInt64}

/-- The instructions ahead lead to the call that the client asks for in `a`, and what follows
it starts with the client's next state. -/
def Ahead (k : Client α) (code : List UserOp) (Start : α → User → Prop) (a : α) (u : User) : Prop :=
  ∃ n c, u.run code n = some c ∧ c.AtCall code ∧ (k.request a).Asks c.gpr ∧
    ∀ ret u', Resumed c ret u' → Start (k.next a ret) u'

/-- `Start` says where the blocks of the code begin. -/
def Implements (k : Client α) (code : List UserOp) (Start : α → User → Prop) : Prop :=
  ∀ a u, Start a u → Ahead k code Start a u

/-- A program in the middle of a block for `a`. -/
theorem Ahead.op (h : Ahead k code Start a u) (hstep : u.step code = some u') :
    Ahead k code Start a u' := by
  rcases h with ⟨n, c, hrun, hat, hrest⟩
  cases n with
  | zero =>
    -- at a call there is no other instruction
    rcases Option.some.inj hrun with rfl
    unfold User.step at hstep
    rw [hat] at hstep
    cases hstep
  | succ n =>
    rw [User.run, hstep] at hrun
    exact ⟨n, c, hrun, hat, hrest⟩

/-- At a call it is the end of the block. -/
theorem Ahead.call (h : Ahead k code Start a u) (hat : u.AtCall code) :
    (k.request a).Asks u.gpr ∧ ∀ ret u', Resumed u ret u' → Start (k.next a ret) u' := by
  rcases h with ⟨n, c, hrun, -, hasks, hnext⟩
  cases n with
  | zero =>
    rcases Option.some.inj hrun with rfl
    exact ⟨hasks, hnext⟩
  | succ n =>
    have hnone : u.step code = none := by
      unfold User.step
      rw [hat]
      rfl
    rw [User.run, hnone] at hrun
    cases hrun

/-- The calls so far are the client's, and the next one will be. -/
structure Calling.Inv (k : Client α) (code : List UserOp) (Start : α → User → Prop) (a : α)
    (s : Calling) : Prop where
  follows : k.Follows a s.calls
  ahead : Ahead k code Start (k.after a s.calls) s.user

theorem Calling.Inv.next {s s' : Calling} (h : s.Inv k code Start a)
    (himpl : Implements k code Start) (hnext : Next code s s') : s'.Inv k code Start a := by
  rcases hnext with hstep | ⟨hat, hresumed⟩
  · exact ⟨h.follows, h.ahead.op hstep⟩
  · rcases h.ahead.call hat with ⟨hasks, hstart⟩
    constructor
    · exact h.follows.concat hasks
    · rw [Client.after_concat]
      exact himpl _ _ (hstart _ _ hresumed)

/-- Code whose blocks do what the client asks makes the client's calls in every run. -/
theorem Implements.calling {s : Calling} (himpl : Implements k code Start)
    (h : Reachable (fun s => Start a s.user ∧ s.calls = []) (Calling.Next code) s) :
    s.Inv k code Start a := by
  refine h.invariant ?_ fun _ _ hnext hinv => hinv.next himpl hnext
  rintro ⟨u, calls⟩ ⟨hstart, rfl⟩
  exact ⟨trivial, himpl a u hstart⟩

end Blocks

end X86
