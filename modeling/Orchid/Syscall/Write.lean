import Orchid.Core.Rules
import Orchid.Device.Terminal
import Orchid.Syscall.UserBytes

/-! # Writing

A model of `SYS_write` and `do_write` of `kernel/syscalls.c` and of `serial_putc` of
`kernel/serial.c`. The bytes are copied from the caller first, and only then written, each
to the serial line and to the console. System calls run with interrupts off, so that a call
is one step.

* On the serial line a carriage return is sent before each newline. Taking it away again
  gives back what was written, and a terminal shows the same with it as without
  (`putcs_onLine`).
* Over any run of calls by any processes the two outputs carry one stream: what the
  successful calls had in their buffers, in order (`write_streams`).
-/

namespace Orchid

open ByteMem Machine

/-! ## Model -/

/-- `serial_putc`, on the bytes sent so far. -/
def serialPutc (c : UInt8) (line : List UInt8) : List UInt8 :=
  let line := if c = 10 then line ++ [13] else line
  line ++ [c]

/-- Where the characters go. -/
structure Outputs where
  line : List UInt8
  console : Console

/-- The loop of `do_write`, from index `i` on. -/
def writeChars (buf : ByteMem) (i : Nat) : Nat → Outputs → Outputs
  | 0, o => o
  | n + 1, o => writeChars buf (i + 1) n ⟨serialPutc (buf i) o.line, consolePutc (buf i) o.console⟩

/-- `do_write`. -/
def doWrite (fd : Nat) (buf : ByteMem) (count : Nat) (o : Outputs) : Nat × Outputs :=
  if fd = 1 ∨ fd = 2 then (count, writeChars buf 0 count o) else (0, o)

/-- The number of bytes that a call writes. -/
def writeCount (count : Nat) : Nat := if 4096 < count then 4096 else count

/-- `SYS_write`, with `current_process->pml4_phys` passed in. `kbuf` is what the array on the
kernel's stack holds, which is at address 0. -/
def sysWrite (fd buf count : Nat) (pml4Phys : Option Nat) (mem kbuf : ByteMem) (o : Outputs) :
    Nat × Outputs :=
  let count := writeCount count
  let (copied, s) := copyFromUser pml4Phys 0 buf count ⟨mem, kbuf, []⟩
  if copied then doWrite fd s.kernel count o else (minusOne, o)

/-! ## The serial line -/

/-- What is sent for some characters. -/
def onLine : List UInt8 → List UInt8
  | [] => []
  | c :: cs => (if c = 10 then [13, 10] else [c]) ++ onLine cs

/-- The carriage returns directly before newlines taken away. -/
def withoutCr : List UInt8 → List UInt8
  | 13 :: 10 :: cs => 10 :: withoutCr cs
  | c :: cs => c :: withoutCr cs
  | [] => []

theorem serialPutc_eq (c : UInt8) (line : List UInt8) : serialPutc c line = line ++ onLine [c] := by
  unfold serialPutc onLine
  by_cases hc : c = 10
  · subst hc
    simp [onLine]
  · simp [hc, onLine]

theorem onLine_cons (c : UInt8) (cs : List UInt8) :
    onLine (c :: cs) = (if c = 10 then [13, 10] else [c]) ++ onLine cs := rfl

theorem onLine_cons_of_ne {c : UInt8} (hc : c ≠ 10) (cs : List UInt8) :
    onLine (c :: cs) = c :: onLine cs := by
  rw [onLine_cons, if_neg hc, List.singleton_append]

theorem onLine_append (cs ds : List UInt8) : onLine (cs ++ ds) = onLine cs ++ onLine ds := by
  induction cs with
  | nil => rfl
  | cons c cs ih => rw [List.cons_append, onLine_cons, onLine_cons, ih, List.append_assoc]

/-- A newline on the line has a carriage return before it. -/
theorem onLine_ne_newline (cs rest : List UInt8) : onLine cs ≠ 10 :: rest := by
  cases cs with
  | nil =>
    intro h
    cases h
  | cons c cs =>
    by_cases hc : c = 10
    · rw [onLine_cons, if_pos hc]
      intro h
      cases h
    · rw [onLine_cons_of_ne hc]
      intro h
      exact hc (List.cons.inj h).1

/-- What is received is what was written. -/
theorem withoutCr_onLine (cs : List UInt8) : withoutCr (onLine cs) = cs := by
  induction cs with
  | nil => rfl
  | cons c cs ih =>
    by_cases hc : c = 10
    · subst hc
      show 10 :: withoutCr (onLine cs) = _
      rw [ih]
    · rw [onLine_cons_of_ne hc, withoutCr, ih]
      -- a carriage return that was written is not followed by a newline
      intro rest _ hnewline
      exact onLine_ne_newline cs rest hnewline

/-- A terminal shows what is on the line as it shows what was written. -/
theorem putcs_onLine (cols rows : Nat) (cs : List UInt8) (t : Terminal) :
    t.putcs cols rows (onLine cs) = t.putcs cols rows cs := by
  induction cs generalizing t with
  | nil => rfl
  | cons c cs ih =>
    have hcons : ∀ (d : UInt8) (ds : List UInt8) (t : Terminal),
        t.putcs cols rows (d :: ds) = (t.putc cols rows d).putcs cols rows ds := fun _ _ _ => rfl
    by_cases hc : c = 10
    · subst hc
      have hboth : (t.putc cols rows 13).putc cols rows 10 = t.putc cols rows 10 := by
        unfold Terminal.putc
        simp only [if_true, show (13 : UInt8) ≠ 10 by decide, if_false]
        unfold Terminal.newline
        rfl
      show t.putcs cols rows (13 :: 10 :: onLine cs) = _
      rw [hcons, hcons, hcons, hboth, ih]
    · rw [onLine_cons_of_ne hc, hcons, hcons, ih]

/-! ## One call -/

section Call

variable {fd buf count a : Nat} {pml4Phys : Option Nat} {mem kbuf : ByteMem} {o : Outputs}

/-- The outputs after some characters. -/
def Outputs.put (cs : List UInt8) (o : Outputs) : Outputs :=
  ⟨o.line ++ onLine cs, consolePutcs cs o.console⟩

theorem writeChars_eq (b : ByteMem) (i n : Nat) (o : Outputs) :
    writeChars b i n o = o.put ((List.range n).map fun j => b (i + j)) := by
  induction n generalizing i o with
  | zero =>
    show o = ⟨o.line ++ [], o.console⟩
    rw [List.append_nil]
  | succ n ih =>
    have hshift : (List.range (n + 1)).map (fun j => b (i + j)) =
        b i :: (List.range n).map fun j => b (i + 1 + j) := by
      rw [List.range_succ_eq_map, List.map_cons, List.map_map, Nat.add_zero]
      congr 1
      apply List.map_congr_left
      intro j _
      show b (i + (j + 1)) = _
      rw [Nat.add_right_comm, Nat.add_assoc]
    rw [writeChars, ih, hshift]
    unfold Outputs.put
    rw [serialPutc_eq, List.append_assoc, ← onLine_append]
    rfl

theorem put_put (cs ds : List UInt8) (o : Outputs) : (o.put cs).put ds = o.put (cs ++ ds) := by
  unfold Outputs.put
  rw [onLine_append, List.append_assoc]
  simp only [consolePutcs, List.foldl_append]

/-- The call has a process, and its whole buffer is mapped there. -/
def BufferMapped (mem : ByteMem) (pml4Phys : Option Nat) (buf count : Nat) : Prop :=
  ∃ a, pml4Phys = some a ∧ AllMapped mem a buf (writeCount count)

/-- What is in the caller's buffer. -/
def bufferBytes (mem : ByteMem) (pml4Phys : Option Nat) (buf count : Nat) : List UInt8 :=
  match pml4Phys with
  | none => []
  | some a => (List.range (writeCount count)).map fun i => mem (userVirtToPhys mem a (buf + i))

/-- No frame is at address 0, and the buffer does not wrap. -/
def WritePre (mem : ByteMem) (pml4Phys : Option Nat) (buf count : Nat) : Prop :=
  (∀ a, pml4Phys = some a → FramesNonzero mem a) ∧ buf + writeCount count < 2 ^ 64

/-- A call writes its whole buffer, or nothing. -/
theorem sysWrite_spec (hpre : WritePre mem pml4Phys buf count) :
    (BufferMapped mem pml4Phys buf count ∧ (fd = 1 ∨ fd = 2) ∧
      sysWrite fd buf count pml4Phys mem kbuf o =
        (writeCount count, o.put (bufferBytes mem pml4Phys buf count))) ∨
    (BufferMapped mem pml4Phys buf count ∧ ¬ (fd = 1 ∨ fd = 2) ∧
      sysWrite fd buf count pml4Phys mem kbuf o = (0, o)) ∨
    (¬ BufferMapped mem pml4Phys buf count ∧
      sysWrite fd buf count pml4Phys mem kbuf o = (minusOne, o)) := by
  cases pml4Phys with
  | none =>
    right
    right
    refine ⟨?_, rfl⟩
    rintro ⟨a, ha, -⟩
    cases ha
  | some a =>
    rcases copyIn_spec (s := ⟨mem, kbuf, []⟩) 0 (hpre.1 a rfl) hpre.2 with ⟨hiff, hbytes⟩
    have hmapped : BufferMapped mem (some a) buf count ↔
        AllMapped mem a buf (writeCount count) := by
      constructor
      · rintro ⟨a', ha, hall⟩
        cases ha
        exact hall
      · intro hall
        exact ⟨a, rfl, hall⟩
    have hcall : sysWrite fd buf count (some a) mem kbuf o =
        if (copyUser moveIn a buf 0 (writeCount count) ⟨mem, kbuf, []⟩).1 = true then
          doWrite fd (copyUser moveIn a buf 0 (writeCount count) ⟨mem, kbuf, []⟩).2.kernel
            (writeCount count) o
        else (minusOne, o) := rfl
    rw [hmapped, ← hiff, hcall]
    by_cases hcopied : (copyUser moveIn a buf 0 (writeCount count) ⟨mem, kbuf, []⟩).1 = true
    · have htext : (List.range (writeCount count)).map (fun i =>
          (copyUser moveIn a buf 0 (writeCount count) ⟨mem, kbuf, []⟩).2.kernel (0 + i)) =
          bufferBytes mem (some a) buf count := by
        apply List.map_congr_left
        intro i hi
        exact hbytes hcopied i (List.mem_range.mp hi)
      rw [if_pos hcopied, doWrite]
      by_cases hfd : fd = 1 ∨ fd = 2
      · left
        refine ⟨hcopied, hfd, ?_⟩
        rw [if_pos hfd, writeChars_eq, htext]
      · right
        left
        exact ⟨hcopied, hfd, if_neg hfd⟩
    · right
      right
      exact ⟨hcopied, if_neg hcopied⟩

end Call

/-! ## Runs -/

/-- A call, with memory as it was. -/
structure WriteCall where
  fd : Nat
  buf : Nat
  count : Nat
  pml4Phys : Option Nat
  mem : ByteMem
  retval : Nat

namespace WriteCall

def Mapped (w : WriteCall) : Prop := BufferMapped w.mem w.pml4Phys w.buf w.count

/-- What it should have written, by its result. -/
def output (w : WriteCall) : List UInt8 :=
  if (w.fd = 1 ∨ w.fd = 2) ∧ w.retval ≠ minusOne then
    bufferBytes w.mem w.pml4Phys w.buf w.count
  else []

end WriteCall

/-- The outputs with the calls so far, the first one first. -/
structure WriteLog where
  outputs : Outputs
  calls : List WriteCall

namespace WriteLog

/-- A console that has been set up, and nothing sent. -/
def Init (fb : Framebuffer) : StatePred WriteLog := fun s =>
  ∃ mem, s = ⟨⟨[], consoleInit fb ⟨mem, []⟩⟩, []⟩

/-- A call by any process, with memory in any state. -/
inductive Next : Action WriteLog where
  | write {s : WriteLog} {fd buf count retval : Nat} {pml4Phys : Option Nat} {mem kbuf : ByteMem}
      {o : Outputs} : WritePre mem pml4Phys buf count →
      sysWrite fd buf count pml4Phys mem kbuf s.outputs = (retval, o) →
      Next s ⟨o, s.calls ++ [⟨fd, buf, count, pml4Phys, mem, retval⟩]⟩

/-- All that the calls have written. -/
def stream (s : WriteLog) : List UInt8 := s.calls.flatMap WriteCall.output

structure Inv (fb : Framebuffer) (s : WriteLog) : Prop where
  outputs : ∃ mem, s.outputs = Outputs.put s.stream ⟨[], consoleInit fb ⟨mem, []⟩⟩
  retvals : ∀ w ∈ s.calls, (w.retval = minusOne ↔ ¬ w.Mapped) ∧
    (w.Mapped → w.retval = if w.fd = 1 ∨ w.fd = 2 then writeCount w.count else 0)

section Runs

variable {fb : Framebuffer} {s s' : WriteLog}

theorem writeCount_le (count : Nat) : writeCount count ≤ 4096 := by
  unfold writeCount
  split <;> omega

/-- A call appends its output to the stream, and its result says whether it did. -/
theorem Inv.append (h : s.Inv fb) {w : WriteCall} (hretval : (w.retval = minusOne ↔ ¬ w.Mapped) ∧
    (w.Mapped → w.retval = if w.fd = 1 ∨ w.fd = 2 then writeCount w.count else 0)) :
    Inv fb ⟨s.outputs.put w.output, s.calls ++ [w]⟩ := by
  constructor
  · rcases h.outputs with ⟨mem, houtputs⟩
    refine ⟨mem, ?_⟩
    have hstream : stream ⟨s.outputs.put w.output, s.calls ++ [w]⟩ = s.stream ++ w.output := by
      unfold stream
      rw [List.flatMap_append, List.flatMap_singleton]
    rw [hstream, ← put_put, ← houtputs]
  · intro v hv
    rcases List.mem_append.mp hv with hv | hv
    · exact h.retvals v hv
    · rw [List.mem_singleton.mp hv]
      exact hretval

theorem put_nil (o : Outputs) : o.put [] = o := by
  show (⟨o.line ++ [], o.console⟩ : Outputs) = o
  rw [List.append_nil]

theorem Inv.step (h : s.Inv fb) (hnext : Next s s') : s'.Inv fb := by
  cases hnext with
  | @write _ fd buf count retval pml4Phys mem kbuf o hpre hcall =>
    have hsmall := writeCount_le count
    rcases @sysWrite_spec fd buf count pml4Phys mem kbuf s.outputs hpre with
      ⟨hmapped, hfd, heq⟩ | ⟨hmapped, hfd, heq⟩ | ⟨hnot, heq⟩
    · rw [heq] at hcall
      cases hcall
      have hne : writeCount count ≠ minusOne := by
        unfold minusOne
        omega
      have hout : WriteCall.output ⟨fd, buf, count, pml4Phys, mem, writeCount count⟩ =
          bufferBytes mem pml4Phys buf count := if_pos ⟨hfd, hne⟩
      rw [← hout]
      exact h.append ⟨iff_of_false hne (not_not_intro hmapped), fun _ => (if_pos hfd).symm⟩
    · rw [heq] at hcall
      cases hcall
      have hne : (0 : Nat) ≠ minusOne := by decide
      have hout : WriteCall.output ⟨fd, buf, count, pml4Phys, mem, 0⟩ = [] :=
        if_neg fun hboth => hfd hboth.1
      have happend := h.append (w := ⟨fd, buf, count, pml4Phys, mem, 0⟩)
        ⟨iff_of_false hne (not_not_intro hmapped), fun _ => (if_neg hfd).symm⟩
      rw [hout, put_nil] at happend
      exact happend
    · rw [heq] at hcall
      cases hcall
      have hout : WriteCall.output ⟨fd, buf, count, pml4Phys, mem, minusOne⟩ = [] :=
        if_neg fun hboth => hboth.2 rfl
      have happend := h.append (w := ⟨fd, buf, count, pml4Phys, mem, minusOne⟩)
        ⟨iff_of_true rfl hnot, fun hmapped => absurd hmapped hnot⟩
      rw [hout, put_nil] at happend
      exact happend

/-- In every run of calls by any processes, with memory and page tables changing in between:
a call fails if and only if its buffer is not mapped as a whole, and otherwise returns the
number of bytes written. The serial line, without the carriage returns that were put in,
carries what the successful calls had in their buffers, in their order and without anything of
the others; the screen shows a terminal with that text; and a terminal of the same size on the
serial line shows the same. -/
theorem write_streams (fb : Framebuffer) (hok : fb.Ok) (h : Reachable (Init fb) Next s) :
    (∀ w ∈ s.calls, (w.retval = minusOne ↔ ¬ w.Mapped) ∧
        (w.Mapped → w.retval = if w.fd = 1 ∨ w.fd = 2 then writeCount w.count else 0)) ∧
      withoutCr s.outputs.line = s.stream ∧
      Shows fb s.outputs.console (Terminal.blank.putcs fb.cols fb.rows s.stream) ∧
      Terminal.blank.putcs fb.cols fb.rows s.outputs.line =
        Terminal.blank.putcs fb.cols fb.rows s.stream := by
  have hinv : s.Inv fb := by
    refine h.invariant ?_ fun _ _ hnext hinv => hinv.step hnext
    rintro s ⟨mem, rfl⟩
    refine ⟨⟨mem, (put_nil _).symm⟩, ?_⟩
    intro w hw
    cases hw
  rcases hinv.outputs with ⟨mem, houtputs⟩
  have hline : s.outputs.line = onLine s.stream := by
    rw [houtputs]
    rfl
  refine ⟨hinv.retvals, ?_, ?_, ?_⟩
  · rw [hline, withoutCr_onLine]
  · rw [houtputs]
    exact (shows_consoleInit hok mem).putcs hok s.stream
  · rw [hline, putcs_onLine]

/-- A write of two characters of a mapped page to file 1. -/
theorem write_streams_two : ∃ s, Reachable (Init tinyFramebuffer) Next s ∧ s.calls.length = 1 ∧
    (∀ w ∈ s.calls, w.Mapped ∧ w.retval = 2) ∧ withoutCr s.outputs.line = s.stream := by
  let mem := twoPages 0x5000 0x6000
  have hnz : FramesNonzero mem 0x1000 :=
    framesNonzero_twoPages framePair_afterTables (by decide) (by decide)
  have hpre : WritePre mem (some 0x1000) 0 2 := by
    refine ⟨?_, by decide⟩
    intro a ha
    cases ha
    exact hnz
  have hmapped : BufferMapped mem (some 0x1000) 0 2 := by
    refine ⟨0x1000, rfl, ?_⟩
    intro v hlo hhi
    have hcount := writeCount_le 2
    exact mapped_twoPages framePair_afterTables v hlo (by omega)
  have h₀ : Reachable (Init tinyFramebuffer) Next
      ⟨⟨[], consoleInit tinyFramebuffer ⟨fun _ => 0, []⟩⟩, []⟩ := .init ⟨_, rfl⟩
  have h₁ := h₀.step (@Next.write _ 1 0 2 _ (some 0x1000) mem (fun _ => 0) _ hpre rfl)
  rcases write_streams tinyFramebuffer ⟨by decide, by decide, by decide, by decide⟩ h₁ with
    ⟨hretvals, hline, -, -⟩
  refine ⟨_, h₁, rfl, ?_, hline⟩
  intro w hw
  have hw' := List.mem_singleton.mp hw
  have hwm : w.Mapped := by
    rw [hw']
    exact hmapped
  refine ⟨hwm, ?_⟩
  rw [(hretvals w hw).2 hwm, hw']
  rfl

end Runs

end WriteLog

end Orchid
