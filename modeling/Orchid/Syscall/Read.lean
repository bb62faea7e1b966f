import Orchid.Device.KbdBuf
import Orchid.Syscall.UserCopy

/-! # Reading from the keyboard

A model of `SYS_read` in `kernel/syscalls.c`. The call takes a character out of
the keyboard buffer and then copies it to the caller. System calls run with
interrupts off, so that from the round of `kbd_buf_get` that finds a character to
the return nothing else runs; before that round the call waits.

The character is gone when the copy fails, so that a read loses no input if and
only if its copy succeeds.
-/

namespace Orchid

open ByteMem Machine Function

/-! ## Model -/

/-- What a call leaves: `syscall_retval`, the buffer, physical memory and the character that
was taken. -/
structure ReadResult where
  retval : Nat
  ring : KbdBuf
  mem : ByteMem
  taken : Option UInt8

/-- `SYS_read`, with `current_process->pml4_phys` passed in. There is no result as long as
the buffer is empty. The character is at address 0 of the kernel's stack. -/
def sysRead (fd buf : Nat) (pml4Phys : Option Nat) (ring : KbdBuf) (mem : ByteMem) :
    Option ReadResult :=
  if fd = 0 then
    match kbdBufGet ring with
    | none => none
    | some (c, ring) =>
      let (copied, s) := copyToUser pml4Phys buf 0 1 ⟨mem, fun _ => c, []⟩
      some ⟨if copied then 1 else minusOne, ring, s.mem, some c⟩
  else some ⟨0, ring, mem, none⟩

/-! ## One call -/

/-- The byte at `v` has a place in physical memory. -/
def Reaches (mem : ByteMem) (pml4Phys : Option Nat) (v : Nat) : Prop :=
  ∃ a, pml4Phys = some a ∧ userVirtToPhys mem a (pageFloor v) ≠ 0

section Call

variable {fd buf : Nat} {pml4Phys : Option Nat} {ring : KbdBuf} {mem : ByteMem} {r : ReadResult}

/-- A copy of one byte is one store, or nothing. -/
theorem copyToUser_one (pml4Phys : Option Nat) (buf : Nat) (s : CopyState) :
    (Reaches s.mem pml4Phys buf ∧ (copyToUser pml4Phys buf 0 1 s).1 = true ∧
      ∃ a, pml4Phys = some a ∧ (copyToUser pml4Phys buf 0 1 s).2.mem =
        update s.mem (userVirtToPhys s.mem a (pageFloor buf) + buf % 4096) (s.kernel 0)) ∨
    (¬ Reaches s.mem pml4Phys buf ∧ copyToUser pml4Phys buf 0 1 s = (false, s)) := by
  cases pml4Phys with
  | none =>
    right
    refine ⟨?_, rfl⟩
    rintro ⟨a, ha, -⟩
    cases ha
  | some a =>
    rcases copyUser_cases moveOut a buf 0 1 s with
      ⟨hlen, -⟩ | ⟨-, hzero, heq⟩ | ⟨chunk, phys, hpos, hle, -, -, hphys, hplace, heq⟩
    · cases hlen
    · right
      refine ⟨?_, heq⟩
      rintro ⟨a', ha, hne⟩
      cases ha
      exact hne hzero
    · -- the one byte is the first chunk, and the next round ends the loop
      left
      obtain rfl : chunk = 1 := by omega
      have hdone : ∀ (v k : Nat) (s : CopyState), copyUser moveOut a v k (1 - 1) s = (true, s) := by
        intro v k s
        rw [copyUser, if_pos rfl]
      rw [hdone] at heq
      refine ⟨⟨a, rfl, hphys⟩, ?_, a, rfl, ?_⟩
      · rw [copyToUser, heq]
      · rw [copyToUser, heq, ← hplace]
        funext x
        show store s.mem phys (fun i => s.kernel (0 + i)) 1 x = _
        rw [store_apply, update_apply]
        by_cases hx : x = phys
        · rw [if_pos (by omega), if_pos hx, hx, Nat.sub_self]
        · rw [if_neg (by omega), if_neg hx]

/-- A call on the keyboard that completes has taken a character. It is stored at the
translation of the caller's address, or the call fails. -/
theorem sysRead_cases (h : sysRead 0 buf pml4Phys ring mem = some r) :
    ∃ c, r.taken = some c ∧ kbdBufGet ring = some (c, r.ring) ∧
      ((Reaches mem pml4Phys buf ∧ r.retval = 1 ∧ ∃ a, pml4Phys = some a ∧ r.mem =
          update mem (userVirtToPhys mem a (pageFloor buf) + buf % 4096) c) ∨
        (¬ Reaches mem pml4Phys buf ∧ r.retval = minusOne ∧ r.mem = mem)) := by
  unfold sysRead at h
  rw [if_pos rfl] at h
  split at h
  · cases h
  · next c ring' hget =>
    rcases copyToUser_one pml4Phys buf ⟨mem, fun _ => c, []⟩ with
      ⟨hreach, hcopied, hmem⟩ | ⟨hnot, heq⟩
    · simp only [hcopied, if_true, Option.some.injEq] at h
      subst h
      exact ⟨c, rfl, hget, .inl ⟨hreach, rfl, hmem⟩⟩
    · simp only [heq, Bool.false_eq_true, if_false, Option.some.injEq] at h
      subst h
      exact ⟨c, rfl, hget, .inr ⟨hnot, rfl, rfl⟩⟩

/-- A call loses no input if and only if its copy succeeds. -/
theorem sysRead_keeps_iff (hring : ring.Inside) (h : sysRead 0 buf pml4Phys ring mem = some r) :
    (r.retval = minusOne → r.ring.pending = ring.pending) ↔ Reaches mem pml4Phys buf := by
  rcases sysRead_cases h with ⟨c, -, hget, hcase⟩
  have hpending := (hring.get hget).2
  rcases hcase with ⟨hreach, hretval, -⟩ | ⟨hnot, hretval, -⟩
  · refine iff_of_true ?_ hreach
    rw [hretval]
    intro hfailed
    cases hfailed
  · refine iff_of_false ?_ hnot
    intro hkeeps
    have heq := congrArg List.length (hkeeps hretval)
    rw [hpending, List.length_cons] at heq
    omega

end Call

/-! ## Runs -/

/-- A put by the interrupt handler, a call of `SYS_read`, or anything else that changes
memory, page tables included. -/
inductive ReadOp where
  | put (c : UInt8)
  | read (fd buf : Nat) (pml4Phys : Option Nat)
  | other (mem : ByteMem)

/-- The buffer with its history, memory, and the characters that calls have taken, each with
whether it was stored. -/
structure ReadLog where
  kbd : KbdLog
  mem : ByteMem
  reads : List (UInt8 × Bool)

namespace ReadLog

/-- The entry of a call in the history. -/
def entry (r : ReadResult) : List (UInt8 × Bool) :=
  r.taken.toList.map fun c => (c, decide (r.retval = 1))

def step (l : ReadLog) : ReadOp → Option ReadLog
  | .put c => (l.kbd.step (.put c)).map fun kbd => { l with kbd := kbd }
  | .read fd buf pml4Phys => (sysRead fd buf pml4Phys l.kbd.ring l.mem).map fun r =>
    { kbd := { l.kbd with ring := r.ring, returned := l.kbd.returned ++ r.taken.toList }
      mem := r.mem
      reads := l.reads ++ entry r }
  | .other mem => some { l with mem := mem }

def Init (l : ReadLog) : Prop := l.kbd.Init ∧ l.reads = []

def Next (l l' : ReadLog) : Prop := ∃ op, l.step op = some l'

/-- The characters that successful calls have stored. -/
def stored (l : ReadLog) : List UInt8 := (l.reads.filter Prod.snd).map Prod.fst

/-- No call stored a character after one that failed. -/
def NoneAfterFailure (l : ReadLog) : Prop := l.reads.Pairwise fun r r' => r'.2 → r.2

/-- The buffer runs as it does on its own, and what it returned is what calls took. -/
structure Inv (l : ReadLog) : Prop where
  kbd : l.kbd.Inv
  returned : l.kbd.returned = l.reads.map Prod.fst

theorem Init.inv {l : ReadLog} (h : l.Init) : l.Inv := by
  rcases h with ⟨hkbd, hreads⟩
  constructor
  · exact hkbd.inv
  · rcases hkbd with ⟨b, hb⟩
    rw [hb, hreads]
    rfl

theorem map_fst_entry (r : ReadResult) : (entry r).map Prod.fst = r.taken.toList := by
  rw [entry, List.map_map]
  exact List.map_id _

/-- A call is a get of the buffer, or does not touch it. -/
theorem kbd_read {l : ReadLog} {fd buf : Nat} {pml4Phys : Option Nat} {r : ReadResult}
    (h : l.kbd.Inv) (hread : sysRead fd buf pml4Phys l.kbd.ring l.mem = some r) :
    KbdLog.Inv { l.kbd with ring := r.ring, returned := l.kbd.returned ++ r.taken.toList } := by
  by_cases hfd : fd = 0
  · subst hfd
    rcases sysRead_cases hread with ⟨c, htaken, hget, -⟩
    apply h.step
    refine ⟨.get, ?_⟩
    rw [KbdLog.step, hget, htaken]
    rfl
  · rw [sysRead, if_neg hfd, Option.some.injEq] at hread
    rw [← hread, Option.toList_none, List.append_nil]
    exact h

theorem Inv.step {l l' : ReadLog} (h : l.Inv) (hstep : l.Next l') : l'.Inv := by
  rcases hstep with ⟨op, hstep⟩
  cases op with
  | put c =>
    rw [ReadLog.step] at hstep
    rcases Option.map_eq_some_iff.mp hstep with ⟨kbd, hput, rfl⟩
    constructor
    · exact h.kbd.step ⟨.put c, hput⟩
    · cases hput
      exact h.returned
  | read fd buf pml4Phys =>
    rw [ReadLog.step] at hstep
    rcases Option.map_eq_some_iff.mp hstep with ⟨r, hread, rfl⟩
    constructor
    · exact kbd_read h.kbd hread
    · rw [List.map_append, map_fst_entry, ← h.returned]
  | other mem =>
    cases hstep
    constructor
    · exact h.kbd
    · exact h.returned

theorem reachable_inv {l : ReadLog} (h : Reachable Init Next l) : l.Inv :=
  h.invariant (fun _ => Init.inv) fun _ _ hstep hinv => hinv.step hstep

/-- What passes a test is in front if nothing passes it behind what does not. -/
theorem filter_in_front {α : Type} {p : α → Bool} {q : List α}
    (h : q.Pairwise fun x y => p y → p x) : q.filter p <+: q := by
  induction q with
  | nil => exact List.prefix_refl _
  | cons x q ih =>
    rw [List.pairwise_cons] at h
    by_cases hx : p x
    · rw [List.filter_cons_of_pos hx]
      exact (List.prefix_cons_inj x).mpr (ih h.2)
    · have hnone : (x :: q).filter p = [] := by
        rw [List.filter_cons_of_neg hx, List.filter_eq_nil_iff]
        exact fun y hy hpy => hx (h.1 y hy hpy)
      rw [hnone]
      exact List.nil_prefix

theorem Inv.stored_in_front {l : ReadLog} (h : l.Inv) (hnone : l.NoneAfterFailure) :
    l.stored <+: l.kbd.accepted := by
  have hstored : l.stored <+: l.kbd.returned := by
    rw [h.returned]
    exact (filter_in_front hnone).map Prod.fst
  apply hstored.trans
  rw [h.kbd.history]
  exact List.prefix_append _ _

end ReadLog

/-- A read loses no input if and only if its copy succeeds: the page of the caller's address
is mapped to a frame other than zero in the tables of a current process. Over any run, the
characters that were stored are a prefix of those that were accepted, as long as no call
stores one after a call that failed. -/
theorem read_loses_no_input_iff (ring : KbdBuf) (mem : ByteMem) (pml4Phys : Option Nat) (buf : Nat)
    (r : ReadResult) :
    (ring.Inside → sysRead 0 buf pml4Phys ring mem = some r →
      ((r.retval = minusOne → r.ring.pending = ring.pending) ↔ Reaches mem pml4Phys buf)) ∧
    ∀ l : ReadLog, Reachable ReadLog.Init ReadLog.Next l → l.NoneAfterFailure →
      l.stored <+: l.kbd.accepted := by
  constructor
  · intro hring hread
    exact sysRead_keeps_iff hring hread
  · intro l hreach hnone
    exact (ReadLog.reachable_inv hreach).stored_in_front hnone

theorem sysRead_some {ring ring' : KbdBuf} {c : UInt8} (hget : kbdBufGet ring = some (c, ring'))
    (buf : Nat) (pml4Phys : Option Nat) (mem : ByteMem) :
    ∃ r, sysRead 0 buf pml4Phys ring mem = some r := by
  unfold sysRead
  rw [if_pos rfl, hget]
  exact ⟨_, rfl⟩

/-- A call that finds a character, by whether it is stored. -/
theorem ReadLog.next_read {l : ReadLog} {ring : KbdBuf} {c : UInt8} {buf : Nat}
    {pml4Phys : Option Nat} (stored : Bool) (hget : kbdBufGet l.kbd.ring = some (c, ring))
    (hstored : stored = true ↔ Reaches l.mem pml4Phys buf) :
    ∃ mem, (stored = false → mem = l.mem) ∧
      l.Next ⟨⟨ring, l.kbd.accepted, l.kbd.returned ++ [c]⟩, mem, l.reads ++ [(c, stored)]⟩ := by
  rcases sysRead_some hget buf pml4Phys l.mem with ⟨r, hread⟩
  rcases sysRead_cases hread with ⟨c', htaken, hget', hcase⟩
  rw [hget, Option.some.injEq, Prod.mk.injEq] at hget'
  have hstep : l.step (.read 0 buf pml4Phys) = some
      ⟨⟨ring, l.kbd.accepted, l.kbd.returned ++ [c]⟩, r.mem,
        l.reads ++ [(c, decide (r.retval = 1))]⟩ := by
    rw [ReadLog.step, hread, Option.map_some, ReadLog.entry, htaken, ← hget'.1, ← hget'.2]
    rfl
  rcases hcase with ⟨hreach, hretval, -⟩ | ⟨hnot, hretval, hmem⟩
  · refine ⟨r.mem, ?_, .read 0 buf pml4Phys, ?_⟩
    · rw [hstored.mpr hreach]
      intro hfalse
      cases hfalse
    · rw [hstep, hretval, hstored.mpr hreach]
      rfl
  · have hfalse : stored = false := by
      rw [← Bool.not_eq_true, hstored]
      exact hnot
    refine ⟨r.mem, fun _ => hmem, .read 0 buf pml4Phys, ?_⟩
    rw [hstep, hretval, hfalse]
    rfl

/-- Tables that map the page at 0 to the frame `0x5000`, and nothing else. -/
def onePage : ByteMem :=
  words [(0x1000, 0x2003), (0x2000, 0x3003), (0x3000, 0x4003), (0x4000, 0x5003)]

theorem reaches_onePage : Reaches onePage (some 0x1000) 0 := ⟨0x1000, rfl, by decide⟩

theorem not_reaches_onePage : ¬ Reaches onePage (some 0x1000) 0x1000 := by
  rintro ⟨a, ha, hne⟩
  cases ha
  exact hne (by decide)

/-- A character that is waiting is read into the page at 0. -/
theorem read_loses_no_input_onePage : ∃ (ring : KbdBuf) (r : ReadResult),
    sysRead 0 0 (some 0x1000) ring onePage = some r ∧
    (r.retval = minusOne → r.ring.pending = ring.pending) := by
  have hring := (KbdBuf.Inside.init ⟨fun _ => 0, 0, 0⟩).put 97
  have hget : kbdBufGet (kbdBufPut 97 (kbdBufInit ⟨fun _ => 0, 0, 0⟩)) = some (97, _) := rfl
  rcases sysRead_some hget 0 (some 0x1000) onePage with ⟨r, hread⟩
  exact ⟨_, r, hread, ((read_loses_no_input_iff _ _ _ _ r).1 hring hread).mpr reaches_onePage⟩

/-- `a` and `b` arrive. A read into a page that is not mapped fails and takes the `a`, and the
next one stores the `b`. -/
theorem read_loses_input : ∃ l : ReadLog, Reachable ReadLog.Init ReadLog.Next l ∧
    l.kbd.accepted = [97, 98] ∧ l.reads = [(97, false), (98, true)] ∧ l.stored = [98] ∧
    ¬ l.stored <+: l.kbd.accepted := by
  let ring := kbdBufInit ⟨fun _ => 0, 0, 0⟩
  let full := kbdBufPut 98 (kbdBufPut 97 ring)
  have hinit : Reachable ReadLog.Init ReadLog.Next ⟨⟨ring, [], []⟩, onePage, []⟩ :=
    .init ⟨⟨_, rfl⟩, rfl⟩
  have hputs := (hinit.step ⟨.put 97, rfl⟩).step ⟨.put 98, rfl⟩
  have hfirst : kbdBufGet full = some (97, { full with tail := 1 }) := rfl
  have hsecond : kbdBufGet { full with tail := 1 } = some (98, { full with tail := 2 }) := rfl
  rcases ReadLog.next_read (l := ⟨⟨full, [97, 98], []⟩, onePage, []⟩) false hfirst
    (iff_of_false Bool.false_ne_true not_reaches_onePage) with ⟨mem, hmem, hfailed⟩
  rw [hmem rfl] at hfailed
  have hlost := hputs.step hfailed
  rcases ReadLog.next_read
    (l := ⟨⟨{ full with tail := 1 }, [97, 98], [97]⟩, onePage, [(97, false)]⟩) true hsecond
    (iff_of_true rfl reaches_onePage) with ⟨mem', -, hread⟩
  have hnot : ¬ ([98] : List UInt8) <+: [97, 98] := by decide
  exact ⟨_, hlost.step hread, rfl, rfl, rfl, hnot⟩

end Orchid
