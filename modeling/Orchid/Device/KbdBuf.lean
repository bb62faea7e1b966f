import Orchid.Core.Ring
import Orchid.Core.Rules

/-! # The keyboard buffer

A model of `kernel/kbd_buf.c`. The interrupt handler puts characters into a ring
of 256, and `SYS_read` takes them out. Every access is made under `kbd_lock`, so
that a put and a round of the loop in `kbd_buf_get` are one step each.

The buffer refines a queue of 255 characters (`KbdBuf.pending`), and what it has
returned is a prefix of what it has accepted.
-/

namespace Orchid

open Machine

/-! ## Model -/

/-- `BUF_SIZE`. -/
def bufSize : Nat := 256

/-- The static variables of `kbd_buf.c`. -/
structure KbdBuf where
  buf : Nat → UInt8
  head : Nat
  tail : Nat

/-- `kbd_buf_init`. What is in the array stays there. -/
def kbdBufInit (b : KbdBuf) : KbdBuf := { b with head := 0, tail := 0 }

/-- The test in `kbd_buf_put` that drops a character. -/
def KbdBuf.full (b : KbdBuf) : Bool := (b.head + 1) % bufSize == b.tail

/-- `kbd_buf_put`. -/
def kbdBufPut (c : UInt8) (b : KbdBuf) : KbdBuf :=
  if b.full then b
  else { b with buf := Function.update b.buf b.head c, head := (b.head + 1) % bufSize }

/-- A round of `kbd_buf_get`: the character it returns, or none, and then the caller
yields and tries again. -/
def kbdBufGet (b : KbdBuf) : Option (UInt8 × KbdBuf) :=
  if b.tail ≠ b.head then
    some (b.buf b.tail, { b with tail := (b.tail + 1) % bufSize })
  else none

/-! ## Runs -/

/-- A call, as it takes the lock. -/
inductive KbdOp where
  | put (c : UInt8)
  | get

/-- The buffer, with the characters it has accepted and those it has returned so far. -/
structure KbdLog where
  ring : KbdBuf
  accepted : List UInt8
  returned : List UInt8

namespace KbdLog

def step (l : KbdLog) : KbdOp → Option KbdLog
  | .put c => some
    { l with
      ring := kbdBufPut c l.ring
      accepted := if l.ring.full then l.accepted else l.accepted ++ [c] }
  | .get => (kbdBufGet l.ring).map fun (c, b) =>
    { l with ring := b, returned := l.returned ++ [c] }

def Init (l : KbdLog) : Prop := ∃ b, l = ⟨kbdBufInit b, [], []⟩

def Next (l l' : KbdLog) : Prop := ∃ op, l.step op = some l'

end KbdLog

/-! ## The queue in the ring -/

/-- The characters in the buffer, oldest first. -/
def KbdBuf.pending (b : KbdBuf) : List UInt8 := Ring.content bufSize b.buf b.head b.tail

/-- The two indices are inside the array. -/
structure KbdBuf.Inside (b : KbdBuf) : Prop where
  head : b.head < bufSize
  tail : b.tail < bufSize

namespace KbdBuf.Inside

variable {b b' : KbdBuf} {c : UInt8}

theorem length_pending (b : KbdBuf) : b.pending.length = Ring.used bufSize b.head b.tail :=
  Ring.length_span _

theorem init (b : KbdBuf) : (kbdBufInit b).Inside := by
  constructor
  · exact Nat.succ_pos 255
  · exact Nat.succ_pos 255

theorem full_iff (h : b.Inside) : b.full ↔ b.pending.length = 255 := by
  rw [length_pending, full, beq_iff_eq]
  exact (Ring.used_eq_pred_iff h.head h.tail).symm

theorem length_le (h : b.Inside) : b.pending.length ≤ 255 := by
  rw [length_pending]
  exact Nat.le_of_lt_succ (Ring.used_lt h.head)

theorem put (h : b.Inside) (c : UInt8) : (kbdBufPut c b).Inside := by
  unfold kbdBufPut
  split
  · exact h
  · constructor
    · exact Nat.mod_lt _ (Nat.succ_pos 255)
    · exact h.tail

/-- A put is that of the queue. -/
theorem pending_put (h : b.Inside) (c : UInt8) :
    (kbdBufPut c b).pending = Fifo.put 255 c b.pending := by
  have hlength := h.length_le
  unfold kbdBufPut Fifo.put
  by_cases hfull : b.full
  · -- the character is dropped
    have hcount := h.full_iff.mp hfull
    rw [if_pos hfull, if_neg (by omega)]
  · have hcount : b.pending.length ≠ 255 := fun heq => hfull (h.full_iff.mpr heq)
    rw [if_neg hfull, if_pos (by omega)]
    apply Ring.content_push h.head h.tail
    intro heq
    exact hfull (beq_iff_eq.mpr heq)

/-- So is a get. -/
theorem pending_get (h : b.Inside) :
    (kbdBufGet b).map (fun r => (r.1, r.2.pending)) = Fifo.get b.pending := by
  unfold kbdBufGet
  by_cases hempty : b.tail = b.head
  · have hcount : b.pending.length = 0 := by
      rw [length_pending]
      exact (Ring.used_eq_zero_iff h.head h.tail).mpr hempty
    rw [if_neg (not_not.mpr hempty), List.eq_nil_of_length_eq_zero hcount]
    rfl
  · rw [if_pos hempty, pending, Ring.content_pop h.head h.tail hempty]
    rfl

theorem get (h : b.Inside) (hget : kbdBufGet b = some (c, b')) :
    b'.Inside ∧ b.pending = c :: b'.pending := by
  have hpending := h.pending_get
  rw [hget] at hpending
  constructor
  · unfold kbdBufGet at hget
    split at hget
    · cases hget
      constructor
      · exact h.head
      · exact Nat.mod_lt _ (Nat.succ_pos 255)
    · cases hget
  · cases hq : b.pending with
    | nil =>
      rw [hq] at hpending
      cases hpending
    | cons x q =>
      rw [hq] at hpending
      cases hpending
      rfl

end KbdBuf.Inside

/-! ## The bounded queue -/

/-- What holds of the buffer and its history at any time. -/
structure KbdLog.Inv (l : KbdLog) : Prop where
  inside : l.ring.Inside
  history : l.accepted = l.returned ++ l.ring.pending

theorem KbdLog.Init.inv {l : KbdLog} (h : l.Init) : l.Inv := by
  rcases h with ⟨b, rfl⟩
  constructor
  · exact KbdBuf.Inside.init b
  · have hcount : (kbdBufInit b).pending.length = 0 := by
      rw [KbdBuf.Inside.length_pending]
      have hinside := KbdBuf.Inside.init b
      exact (Ring.used_eq_zero_iff hinside.head hinside.tail).mpr rfl
    show [] = [] ++ (kbdBufInit b).pending
    rw [List.eq_nil_of_length_eq_zero hcount, List.append_nil]

theorem KbdLog.Inv.step {l l' : KbdLog} (h : l.Inv) (hstep : l.Next l') : l'.Inv := by
  rcases hstep with ⟨op, hstep⟩
  cases op with
  | put c =>
    cases hstep
    constructor
    · exact h.inside.put c
    · show (if l.ring.full then l.accepted else l.accepted ++ [c]) =
        l.returned ++ (kbdBufPut c l.ring).pending
      have hlength := h.inside.length_le
      rw [h.inside.pending_put, Fifo.put, h.history]
      by_cases hfull : l.ring.full
      · have hcount := h.inside.full_iff.mp hfull
        rw [if_pos hfull, if_neg (by omega)]
      · have hcount : l.ring.pending.length ≠ 255 := fun heq =>
          hfull (h.inside.full_iff.mpr heq)
        rw [if_neg hfull, if_pos (by omega), List.append_assoc]
  | get =>
    rcases Option.map_eq_some_iff.mp hstep with ⟨⟨c, b⟩, hget, rfl⟩
    rcases h.inside.get hget with ⟨hinside, hpending⟩
    constructor
    · exact hinside
    · show l.accepted = (l.returned ++ [c]) ++ b.pending
      rw [h.history, hpending, List.append_assoc, List.singleton_append]

/-- After any sequence of puts and gets the ring is a queue of at most 255 characters: both
operations are those of the queue, a put is dropped if and only if 255 characters are
waiting, and a get returns the oldest accepted character that was not returned before. -/
theorem kbdBuf_refines_fifo {l : KbdLog} (h : Reachable KbdLog.Init KbdLog.Next l) :
    (l.ring.head < bufSize ∧ l.ring.tail < bufSize) ∧
    (l.accepted = l.returned ++ l.ring.pending ∧ l.ring.pending.length ≤ 255) ∧
    (∀ c, (kbdBufPut c l.ring).pending = Fifo.put 255 c l.ring.pending) ∧
    (l.ring.full ↔ l.ring.pending.length = 255) ∧
    (l.ring.pending.length = 255 → ∀ c, kbdBufPut c l.ring = l.ring) ∧
    (kbdBufGet l.ring).map (fun r => (r.1, r.2.pending)) = Fifo.get l.ring.pending ∧
    (∀ c b, kbdBufGet l.ring = some (c, b) → l.accepted[l.returned.length]? = some c) ∧
    l.returned <+: l.accepted := by
  have hinv : l.Inv := h.invariant (fun _ => KbdLog.Init.inv) fun _ _ hstep hinv => hinv.step hstep
  have hinside := hinv.inside
  refine ⟨⟨hinside.head, hinside.tail⟩, ⟨hinv.history, hinside.length_le⟩, hinside.pending_put,
    hinside.full_iff, ?_, hinside.pending_get, ?_, ?_⟩
  · intro hcount c
    exact if_pos (hinside.full_iff.mpr hcount)
  · intro c b hget
    rw [hinv.history, (hinside.get hget).2]
    simp
  · rw [hinv.history]
    exact List.prefix_append _ _

/-- Two characters arrive, and the first of them is read. -/
theorem kbdBuf_refines_fifo_two : ∃ l, Reachable KbdLog.Init KbdLog.Next l ∧
    l.accepted = [97, 98] ∧ l.returned = [97] ∧ l.ring.pending = [98] := by
  let b : KbdBuf := ⟨fun _ => 0, 0, 0⟩
  have hinit : Reachable KbdLog.Init KbdLog.Next ⟨kbdBufInit b, [], []⟩ := .init ⟨b, rfl⟩
  have hrun := ((hinit.step ⟨.put 97, rfl⟩).step ⟨.put 98, rfl⟩).step ⟨.get, rfl⟩
  have hhistory := (kbdBuf_refines_fifo hrun).2.1.1
  exact ⟨_, hrun, rfl, rfl, (List.append_cancel_left hhistory).symm⟩

end Orchid
