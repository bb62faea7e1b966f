import Mathlib.Data.List.Range
import Mathlib.Data.Nat.ModEq
import Mathlib.Logic.Function.Basic

/-! # Rings of cells

A queue kept in `N` cells that are used in a circle: it starts at the index
`tail`, and `head` is the index of the cell after its last one. Of the `N` cells
one stays free, so that a full queue can be told from an empty one. `Fifo` is the
queue itself, as a list.
-/

namespace Fifo

variable {α : Type*}

/-- Add an element, if there is room for it. -/
def put (capacity : Nat) (x : α) (q : List α) : List α :=
  if q.length < capacity then q ++ [x] else q

/-- Take the oldest element. -/
def get : List α → Option (α × List α)
  | [] => none
  | x :: q => some (x, q)

end Fifo

namespace Ring

open Function

variable {α : Type*} {N head tail n : Nat} {cells : Nat → α}

/-! ## Runs of cells -/

/-- The `n` cells from `start` on. -/
def span (N : Nat) (cells : Nat → α) (start n : Nat) : List α :=
  (List.range n).map fun i => cells ((start + i) % N)

@[simp] theorem length_span (start : Nat) : (span N cells start n).length = n := by
  simp [span]

theorem span_snoc (start : Nat) :
    span N cells start (n + 1) = span N cells start n ++ [cells ((start + n) % N)] := by
  simp [span, List.range_succ]

theorem span_cons {start : Nat} (h : start < N) :
    span N cells start (n + 1) = cells start :: span N cells ((start + 1) % N) n := by
  simp only [span, List.range_succ_eq_map, List.map_cons, List.map_map, Nat.add_zero,
    Nat.mod_eq_of_lt h]
  congr 1
  apply List.map_congr_left
  intro i _
  show cells ((start + (i + 1)) % N) = cells (((start + 1) % N + i) % N)
  rw [Nat.mod_add_mod, Nat.add_assoc, Nat.add_comm 1 i]

/-- The cell behind a run is none of its cells, unless the run goes all the way round. -/
theorem span_update (start : Nat) (x : α) (h : n < N) :
    span N (update cells ((start + n) % N) x) start n = span N cells start n := by
  apply List.map_congr_left
  intro i hi
  have hin : i < n := List.mem_range.mp hi
  apply update_of_ne
  intro heq
  have hmod : i % N = n % N := Nat.ModEq.add_left_cancel' start heq
  rw [Nat.mod_eq_of_lt (hin.trans h), Nat.mod_eq_of_lt h] at hmod
  omega

/-! ## Head and tail -/

/-- How many cells are in use. -/
def used (N head tail : Nat) : Nat := (head + N - tail) % N

/-- The queue. -/
def content (N : Nat) (cells : Nat → α) (head tail : Nat) : List α :=
  span N cells tail (used N head tail)

theorem used_of_le (hle : tail ≤ head) (hhead : head < N) : used N head tail = head - tail := by
  have heq : head + N - tail = head - tail + N := by omega
  rw [used, heq, Nat.add_mod_right, Nat.mod_eq_of_lt (by omega)]

theorem used_of_lt (hlt : head < tail) (htail : tail < N) :
    used N head tail = head + N - tail :=
  Nat.mod_eq_of_lt (by omega)

theorem next_eq (hhead : head < N) : (head + 1) % N = if head + 1 = N then 0 else head + 1 := by
  split
  · next h => rw [h, Nat.mod_self]
  · exact Nat.mod_eq_of_lt (by omega)

theorem used_lt (hhead : head < N) : used N head tail < N := Nat.mod_lt _ (by omega)

section Bounds

variable (hhead : head < N) (htail : tail < N)

include hhead htail

theorem tail_add_used : (tail + used N head tail) % N = head := by
  rcases Nat.lt_or_ge head tail with h | h
  · rw [used_of_lt h htail, show tail + (head + N - tail) = head + N by omega, Nat.add_mod_right,
      Nat.mod_eq_of_lt hhead]
  · rw [used_of_le h hhead, show tail + (head - tail) = head by omega, Nat.mod_eq_of_lt hhead]

theorem used_eq_zero_iff : used N head tail = 0 ↔ tail = head := by
  rcases Nat.lt_or_ge head tail with h | h
  · rw [used_of_lt h htail]
    omega
  · rw [used_of_le h hhead]
    omega

/-- The test for a full ring. -/
theorem used_eq_pred_iff : used N head tail = N - 1 ↔ (head + 1) % N = tail := by
  rw [next_eq hhead]
  rcases Nat.lt_or_ge head tail with h | h
  · rw [used_of_lt h htail]
    split <;> omega
  · rw [used_of_le h hhead]
    split <;> omega

theorem used_push (hfull : (head + 1) % N ≠ tail) :
    used N ((head + 1) % N) tail = used N head tail + 1 := by
  rw [next_eq hhead] at hfull ⊢
  split at hfull
  · next hwrap =>
    have hbefore : used N head tail = head - tail := used_of_le (by omega) hhead
    rw [if_pos hwrap, hbefore, used_of_lt (by omega) htail]
    omega
  · next hwrap =>
    rw [if_neg hwrap]
    rcases Nat.lt_or_ge head tail with h | h
    · rw [used_of_lt h htail, used_of_lt (by omega) htail]
      omega
    · rw [used_of_le h hhead, used_of_le (by omega) (by omega)]
      omega

theorem used_pop (hne : tail ≠ head) :
    used N head tail = used N head ((tail + 1) % N) + 1 := by
  rw [next_eq htail]
  split
  · next hwrap =>
    rw [used_of_lt (by omega) htail, used_of_le (by omega) hhead]
    omega
  · next hwrap =>
    rcases Nat.lt_or_ge head tail with h | h
    · rw [used_of_lt h htail, used_of_lt (by omega) (by omega)]
      omega
    · rw [used_of_le h hhead, used_of_le (by omega) hhead]
      omega

/-! ## The two operations -/

theorem content_push (x : α) (hfull : (head + 1) % N ≠ tail) :
    content N (update cells head x) ((head + 1) % N) tail =
      content N cells head tail ++ [x] := by
  have hindex := tail_add_used hhead htail
  have hspan : span N (update cells ((tail + used N head tail) % N) x) tail
      (used N head tail) = content N cells head tail := span_update tail x (used_lt hhead)
  rw [hindex] at hspan
  rw [content, used_push hhead htail hfull, span_snoc, hindex, hspan, update_self]

theorem content_pop (hne : tail ≠ head) :
    content N cells head tail = cells tail :: content N cells head ((tail + 1) % N) := by
  rw [content, used_pop hhead htail hne, span_cons htail]
  rfl

end Bounds

end Ring
