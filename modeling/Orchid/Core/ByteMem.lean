import Mathlib.Data.Set.Function
import Mathlib.Tactic.Ring

/-! # Flat byte memory

A memory is a function from addresses to bytes; words are little-endian. The
loops a kernel is written in (`memset`, `memcpy`, filling a table) are
recursions on their trip count, each with one lemma that says what the memory
is afterwards.
-/

/-- Memory, byte by byte. -/
abbrev ByteMem := Nat → UInt8

namespace ByteMem

open Function

variable {m m' : ByteMem} {a b n : Nat}

/-! ## Words -/

/-- The `n`-byte little-endian word at `a`. -/
def readLE (m : ByteMem) (a : Nat) : Nat → Nat
  | 0 => 0
  | n + 1 => (m a).toNat + 256 * readLE m (a + 1) n

/-- Store the low `n` bytes of `v` at `a`, little-endian. -/
def writeLE (m : ByteMem) (a n v : Nat) : ByteMem := fun x =>
  if a ≤ x ∧ x < a + n then UInt8.ofNat (v / 256 ^ (x - a)) else m x

/-- A 64-bit load. -/
def read64 (m : ByteMem) (a : Nat) : Nat := readLE m a 8

/-- A 64-bit store. -/
def write64 (m : ByteMem) (a v : Nat) : ByteMem := writeLE m a 8 v

/-- A 32-bit load. -/
def read32 (m : ByteMem) (a : Nat) : Nat := readLE m a 4

/-- A 32-bit store. -/
def write32 (m : ByteMem) (a v : Nat) : ByteMem := writeLE m a 4 v

/-- Words at given addresses, and zeros elsewhere. -/
def words : List (Nat × Nat) → ByteMem
  | [] => fun _ => 0
  | (a, w) :: rest => write64 (words rest) a w

/-- Words spelled by the same bytes at two places. -/
theorem readLE_eq_of_bytes (h : ∀ i < n, m' (b + i) = m (a + i)) : readLE m' b n = readLE m a n := by
  induction n generalizing a b with
  | zero => rfl
  | succ n ih =>
    have h0 : m' b = m a := by simpa using h 0 (by omega)
    have hrest : readLE m' (b + 1) n = readLE m (a + 1) n := by
      apply ih
      intro i hi
      have := h (i + 1) (by omega)
      rwa [show b + 1 + i = b + (i + 1) by omega, show a + 1 + i = a + (i + 1) by omega]
    simp only [readLE, h0, hrest]

theorem readLE_congr (h : ∀ i < n, m' (a + i) = m (a + i)) : readLE m' a n = readLE m a n :=
  readLE_eq_of_bytes h

theorem readLE_lt (m : ByteMem) (a n : Nat) : readLE m a n < 256 ^ n := by
  induction n generalizing a with
  | zero => simp [readLE]
  | succ n ih =>
    have hb := (m a).toNat_lt
    have hr := ih (a + 1)
    simp only [readLE, Nat.pow_succ]
    omega

/-- Bytes that spell a number read back as it, truncated. -/
theorem readLE_of_digits {v : Nat} (h : ∀ i < n, m (a + i) = UInt8.ofNat (v / 256 ^ i)) :
    readLE m a n = v % 256 ^ n := by
  induction n generalizing a v with
  | zero => simp [readLE, Nat.mod_one]
  | succ n ih =>
    have h0 : (m a).toNat = v % 256 := by
      have := h 0 (by omega)
      simp only [Nat.add_zero, Nat.pow_zero, Nat.div_one] at this
      rw [this]
      exact UInt8.toNat_ofNat'
    have hrest : readLE m (a + 1) n = v / 256 % 256 ^ n := by
      apply ih
      intro i hi
      have := h (i + 1) (by omega)
      rw [show a + 1 + i = a + (i + 1) by omega, this, Nat.div_div_eq_div_mul, Nat.pow_succ,
        Nat.mul_comm]
    rw [readLE, h0, hrest, Nat.pow_succ, Nat.mul_comm (256 ^ n) 256, Nat.mod_mul]

/-- The bytes of a word. -/
theorem readLE_digit (m : ByteMem) (a : Nat) {n i : Nat} (hi : i < n) :
    UInt8.ofNat (readLE m a n / 256 ^ i) = m (a + i) := by
  induction n generalizing a i with
  | zero => omega
  | succ n ih =>
    have hb := (m a).toNat_lt
    cases i with
    | zero =>
      have hdigit : readLE m a (n + 1) / 256 ^ 0 % 2 ^ 8 = (m a).toNat := by
        simp only [readLE, Nat.pow_zero, Nat.div_one]
        omega
      apply UInt8.toNat_inj.mp
      rw [UInt8.toNat_ofNat', hdigit, Nat.add_zero]
    | succ i =>
      have hrest : readLE m a (n + 1) / 256 = readLE m (a + 1) n := by
        simp only [readLE]
        omega
      rw [Nat.pow_succ', ← Nat.div_div_eq_div_mul, hrest, ih (a + 1) (by omega)]
      congr 1
      omega

theorem writeLE_apply_of_outside {v x : Nat} (h : x < a ∨ a + n ≤ x) :
    writeLE m a n v x = m x := by
  have hn : ¬ (a ≤ x ∧ x < a + n) := by omega
  simp only [writeLE, if_neg hn]

theorem readLE_writeLE_self (m : ByteMem) (a n v : Nat) :
    readLE (writeLE m a n v) a n = v % 256 ^ n := by
  apply readLE_of_digits
  intro i hi
  have hin : a ≤ a + i ∧ a + i < a + n := by omega
  simp only [writeLE, if_pos hin, Nat.add_sub_cancel_left]

theorem readLE_writeLE_of_disjoint {k v : Nat} (h : b + k ≤ a ∨ a + n ≤ b) :
    readLE (writeLE m a n v) b k = readLE m b k := by
  apply readLE_congr
  intro i hi
  exact writeLE_apply_of_outside (by omega)

theorem read64_lt (m : ByteMem) (a : Nat) : read64 m a < 2 ^ 64 := readLE_lt m a 8

theorem read64_congr (h : ∀ i < 8, m' (a + i) = m (a + i)) : read64 m' a = read64 m a :=
  readLE_congr h

theorem write64_apply_of_outside {v x : Nat} (h : x < a ∨ a + 8 ≤ x) : write64 m a v x = m x :=
  writeLE_apply_of_outside h

@[simp] theorem read64_write64_self {v : Nat} (hv : v < 2 ^ 64) :
    read64 (write64 m a v) a = v :=
  (readLE_writeLE_self m a 8 v).trans (Nat.mod_eq_of_lt hv)

theorem read64_write64_of_disjoint {v : Nat} (h : b + 8 ≤ a ∨ a + 8 ≤ b) :
    read64 (write64 m a v) b = read64 m b :=
  readLE_writeLE_of_disjoint h

/-- What was at the place of a store does not matter. -/
theorem write64_congr {v : Nat} (h : ∀ x, x < a ∨ a + 8 ≤ x → m' x = m x) :
    write64 m' a v = write64 m a v := by
  funext x
  by_cases hx : a ≤ x ∧ x < a + 8
  · simp only [write64, writeLE, if_pos hx]
  · rw [write64_apply_of_outside (by omega), write64_apply_of_outside (by omega)]
    exact h x (by omega)

/-- Storing what is there changes nothing. -/
theorem write64_read64 (m : ByteMem) (a : Nat) : write64 m a (read64 m a) = m := by
  funext x
  simp only [write64, writeLE]
  split
  · next h => rw [read64, readLE_digit m a (by omega), Nat.add_sub_cancel' h.1]
  · rfl

/-! ## Loops over bytes -/

/-- `for (i = 0; i < n; i++) p[i] = f(i);` with `p` at `a`. -/
def store (m : ByteMem) (a : Nat) (f : Nat → UInt8) : Nat → ByteMem
  | 0 => m
  | n + 1 => update (store m a f n) (a + n) (f n)

theorem store_apply (m : ByteMem) (a : Nat) (f : Nat → UInt8) (n x : Nat) :
    store m a f n x = if a ≤ x ∧ x < a + n then f (x - a) else m x := by
  induction n with
  | zero =>
    have hn : ¬ (a ≤ x ∧ x < a + 0) := by omega
    rw [if_neg hn]; rfl
  | succ n ih =>
    by_cases hx : x = a + n
    · subst hx
      have hin : a ≤ a + n ∧ a + n < a + (n + 1) := by omega
      simp only [store, update_self, if_pos hin, Nat.add_sub_cancel_left]
    · rw [store, update_of_ne hx, ih]
      by_cases hin : a ≤ x ∧ x < a + n
      · have hin' : a ≤ x ∧ x < a + (n + 1) := by omega
        rw [if_pos hin, if_pos hin']
      · have hin' : ¬ (a ≤ x ∧ x < a + (n + 1)) := by omega
        rw [if_neg hin, if_neg hin']

/-- `memset(p, c, n)`. -/
def fill (m : ByteMem) (a : Nat) (c : UInt8) (n : Nat) : ByteMem := store m a (fun _ => c) n

theorem fill_apply (m : ByteMem) (a : Nat) (c : UInt8) (n x : Nat) :
    fill m a c n x = if a ≤ x ∧ x < a + n then c else m x :=
  store_apply m a (fun _ => c) n x

theorem read64_fill_zero {k : Nat} (h₁ : a ≤ b) (h₂ : b + 8 ≤ a + k) :
    read64 (fill m a 0 k) b = 0 := by
  refine (readLE_of_digits (v := 0) fun i hi => ?_).trans (Nat.zero_mod _)
  have hin : a ≤ b + i ∧ b + i < a + k := by omega
  rw [fill_apply, if_pos hin, Nat.zero_div]
  rfl

/-- `memcpy(dst, src, n)`, both in the same memory, front to back. -/
def copy (m : ByteMem) (dst src : Nat) : Nat → ByteMem
  | 0 => m
  | n + 1 => update (copy m dst src n) (dst + n) (copy m dst src n (src + n))

theorem copy_apply_of_outside {dst src x : Nat} (h : x < dst ∨ dst + n ≤ x) :
    copy m dst src n x = m x := by
  induction n with
  | zero => rfl
  | succ n ih => rw [copy, update_of_ne (by omega), ih (by omega)]

/-- A copy between ranges that do not overlap. -/
theorem copy_apply {dst src : Nat} (h : dst + n ≤ src ∨ src + n ≤ dst) (x : Nat) :
    copy m dst src n x = if dst ≤ x ∧ x < dst + n then m (src + (x - dst)) else m x := by
  induction n generalizing x with
  | zero =>
    have hn : ¬ (dst ≤ x ∧ x < dst + 0) := by omega
    rw [if_neg hn]; rfl
  | succ n ih =>
    have ih' := ih (by omega)
    by_cases hx : x = dst + n
    · subst hx
      have hin : dst ≤ dst + n ∧ dst + n < dst + (n + 1) := by omega
      have hsrc : ¬ (dst ≤ src + n ∧ src + n < dst + n) := by omega
      rw [copy, update_self, if_pos hin, ih', if_neg hsrc, Nat.add_sub_cancel_left]
    · rw [copy, update_of_ne hx, ih']
      by_cases hin : dst ≤ x ∧ x < dst + n
      · have hin' : dst ≤ x ∧ x < dst + (n + 1) := by omega
        rw [if_pos hin, if_pos hin']
      · have hin' : ¬ (dst ≤ x ∧ x < dst + (n + 1)) := by omega
        rw [if_neg hin, if_neg hin']

/-! ## Loops over words -/

/-- `for (i = lo; i < lo + n; i++) dst[i] = src[i];` on arrays of words. -/
def copyWords (m : ByteMem) (dst src lo : Nat) : Nat → ByteMem
  | 0 => m
  | n + 1 =>
    write64 (copyWords m dst src lo n) (dst + 8 * (lo + n))
      (read64 (copyWords m dst src lo n) (src + 8 * (lo + n)))

/-- `for (i = 0; i < n; i++) p[i] = 0;` on an array of words. -/
def clearWords (m : ByteMem) (p : Nat) : Nat → ByteMem
  | 0 => m
  | n + 1 => write64 (clearWords m p n) (p + 8 * n) 0

theorem clearWords_apply (m : ByteMem) (p n x : Nat) :
    clearWords m p n x = if p ≤ x ∧ x < p + 8 * n then 0 else m x := by
  induction n with
  | zero =>
    have hn : ¬ (p ≤ x ∧ x < p + 8 * 0) := by omega
    rw [if_neg hn]; rfl
  | succ n ih =>
    by_cases hx : p + 8 * n ≤ x ∧ x < p + 8 * n + 8
    · have hin : p ≤ x ∧ x < p + 8 * (n + 1) := by omega
      simp only [clearWords, write64, writeLE, if_pos hx, if_pos hin, Nat.zero_div]
      rfl
    · rw [clearWords, write64_apply_of_outside (by omega), ih]
      by_cases hin : p ≤ x ∧ x < p + 8 * n
      · have hin' : p ≤ x ∧ x < p + 8 * (n + 1) := by omega
        rw [if_pos hin, if_pos hin']
      · have hin' : ¬ (p ≤ x ∧ x < p + 8 * (n + 1)) := by omega
        rw [if_neg hin, if_neg hin']

theorem copyWords_apply_of_outside {dst src lo x : Nat}
    (h : x < dst + 8 * lo ∨ dst + 8 * (lo + n) ≤ x) : copyWords m dst src lo n x = m x := by
  induction n with
  | zero => rfl
  | succ n ih => rw [copyWords, write64_apply_of_outside (by omega), ih (by omega)]

/-- The words copied between arrays that do not overlap. -/
theorem read64_copyWords {dst src lo i : Nat} (hlo : lo ≤ i) (hi : i < lo + n)
    (h : dst + 8 * (lo + n) ≤ src + 8 * lo ∨ src + 8 * (lo + n) ≤ dst + 8 * lo) :
    read64 (copyWords m dst src lo n) (dst + 8 * i) = read64 m (src + 8 * i) := by
  induction n with
  | zero => omega
  | succ n ih =>
    by_cases hlast : i = lo + n
    · subst hlast
      rw [copyWords, read64_write64_self (read64_lt _ _)]
      apply read64_congr
      intro k hk
      exact copyWords_apply_of_outside (by omega)
    · rw [copyWords, read64_write64_of_disjoint (by omega)]
      exact ih (by omega) (by omega)

/-- A copy front to back to a lower place: the words are read before they are
overwritten, also where the two arrays overlap. -/
theorem copyWords_apply_of_below {dst src : Nat} (h : dst + 8 ≤ src) (x : Nat) :
    copyWords m dst src 0 n x =
      if dst ≤ x ∧ x < dst + 8 * n then m (src + (x - dst)) else m x := by
  induction n generalizing x with
  | zero =>
    have hn : ¬ (dst ≤ x ∧ x < dst + 8 * 0) := by omega
    rw [if_neg hn]; rfl
  | succ n ih =>
    rw [copyWords, Nat.zero_add]
    by_cases hx : dst + 8 * n ≤ x ∧ x < dst + 8 * n + 8
    · have hin : dst ≤ x ∧ x < dst + 8 * (n + 1) := by omega
      have hsrc : ¬ (dst ≤ src + 8 * n + (x - (dst + 8 * n)) ∧
          src + 8 * n + (x - (dst + 8 * n)) < dst + 8 * n) := by omega
      rw [write64, writeLE, if_pos hx, if_pos hin, read64, readLE_digit _ _ (by omega), ih,
        if_neg hsrc]
      congr 1
      omega
    · rw [write64_apply_of_outside (by omega), ih]
      by_cases hin : dst ≤ x ∧ x < dst + 8 * n
      · have hin' : dst ≤ x ∧ x < dst + 8 * (n + 1) := by omega
        rw [if_pos hin, if_pos hin']
      · have hin' : ¬ (dst ≤ x ∧ x < dst + 8 * (n + 1)) := by omega
        rw [if_neg hin, if_neg hin']

/-- `for (i = 0; i < words.length; i++) p[i] = words[i];` with `p` at `a`. -/
def storeWords (m : ByteMem) (a : Nat) : List Nat → ByteMem
  | [] => m
  | w :: words => storeWords (write64 m a w) (a + 8) words

theorem storeWords_apply_of_outside {words : List Nat} {x : Nat}
    (h : x < a ∨ a + 8 * words.length ≤ x) : storeWords m a words x = m x := by
  induction words generalizing m a with
  | nil => rfl
  | cons w words ih =>
    rw [List.length_cons] at h
    rw [storeWords, ih (by omega), write64_apply_of_outside (by omega)]

/-! ## Words in a row -/

/-- The word at `a`. -/
def word (m : ByteMem) (a : Nat) : UInt64 := UInt64.ofNat (read64 m a)

/-- The words from `a` on are `words`. -/
def HoldsWords (m : ByteMem) (a : Nat) : List UInt64 → Prop
  | [] => True
  | w :: words => word m a = w ∧ HoldsWords m (a + 8) words

theorem word_write64 (v : Nat) : word (write64 m a v) a = UInt64.ofNat v := by
  have hread : read64 (write64 m a v) a = v % 2 ^ 64 := readLE_writeLE_self m a 8 v
  unfold word
  rw [hread]
  exact UInt64.ofNat_mod_size

theorem word_write64_self (v : UInt64) : word (write64 m a v.toNat) a = v := by
  rw [word_write64, UInt64.ofNat_toNat]

theorem HoldsWords.congr {words : List UInt64} (h : HoldsWords m a words)
    (hm : ∀ x, a ≤ x → x < a + 8 * words.length → m' x = m x) : HoldsWords m' a words := by
  induction words generalizing a with
  | nil => trivial
  | cons w words ih =>
    rw [List.length_cons] at hm
    refine ⟨?_, ih h.2 fun x hlo hhi => hm x (by omega) (by omega)⟩
    rw [← h.1]
    unfold word
    rw [read64_congr fun i hi => hm (a + i) (by omega) (by omega)]

/-- A word stored below the others. -/
theorem HoldsWords.push {words : List UInt64} {v : UInt64} (h : HoldsWords m a words)
    (ha : 8 ≤ a) : HoldsWords (write64 m (a - 8) v.toNat) (a - 8) (v :: words) := by
  refine ⟨word_write64_self v, ?_⟩
  rw [Nat.sub_add_cancel ha]
  exact h.congr fun x hlo _ => write64_apply_of_outside (by omega)

theorem holdsWords_storeWords_ofNat (m : ByteMem) (a : Nat) (words : List Nat) :
    HoldsWords (storeWords m a words) a (words.map UInt64.ofNat) := by
  induction words generalizing m a with
  | nil => trivial
  | cons w words ih =>
    refine ⟨?_, ih _ _⟩
    unfold word
    rw [storeWords, read64_congr fun i hi => storeWords_apply_of_outside (by omega)]
    exact word_write64 w

theorem holdsWords_storeWords (m : ByteMem) (a : Nat) (words : List UInt64) :
    HoldsWords (storeWords m a (words.map UInt64.toNat)) a words := by
  have h := holdsWords_storeWords_ofNat m a (words.map UInt64.toNat)
  rw [List.map_map] at h
  have hid : UInt64.ofNat ∘ UInt64.toNat = id := funext fun w => UInt64.ofNat_toNat
  rwa [hid, List.map_id] at h

end ByteMem
