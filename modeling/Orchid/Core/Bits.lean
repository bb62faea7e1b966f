import Mathlib.Data.Nat.Bitwise
import Mathlib.Tactic.Ring

/-! # Masks and shifts as arithmetic

Machine words are natural numbers here, so a field extracted with a shift and
a mask is a quotient and a remainder, and `|` of two words that share no bit is
their sum. These are the forms `omega` works with.
-/

namespace Bits

/-- A mask of `n` ones at bit `k` keeps the `n` bits from `k` on. -/
theorem and_mask (x k n : Nat) : x &&& (2 ^ n - 1) * 2 ^ k = x / 2 ^ k % 2 ^ n * 2 ^ k := by
  apply Nat.eq_of_testBit_eq
  intro i
  rw [Nat.testBit_and, Nat.testBit_mul_two_pow, Nat.testBit_mul_two_pow, Nat.testBit_mod_two_pow,
    Nat.testBit_div_two_pow, Nat.testBit_two_pow_sub_one]
  by_cases hki : k ≤ i
  · rw [show i - k + k = i by omega]
    simp [hki, Bool.and_comm]
  · simp [hki]

/-- A mask that clears the low `k` bits of a `w`-bit word. -/
theorem and_clear_low {x k w : Nat} (hk : k ≤ w) (hx : x < 2 ^ w) :
    x &&& (2 ^ w - 2 ^ k) = x / 2 ^ k * 2 ^ k := by
  have hmask : 2 ^ w - 2 ^ k = (2 ^ (w - k) - 1) * 2 ^ k := by
    rw [Nat.sub_mul, ← Nat.pow_add, Nat.sub_add_cancel hk, Nat.one_mul]
  have hdiv : x / 2 ^ k < 2 ^ (w - k) := by
    apply Nat.div_lt_of_lt_mul
    rw [← Nat.pow_add, Nat.add_sub_cancel' hk]
    exact hx
  rw [hmask, and_mask, Nat.mod_eq_of_lt hdiv]

/-- A field of `n` bits at bit `k`. -/
theorem shiftRight_and (x k n : Nat) : (x >>> k) &&& (2 ^ n - 1) = x / 2 ^ k % 2 ^ n := by
  rw [Nat.and_two_pow_sub_one_eq_mod, Nat.shiftRight_eq_div_pow]

/-- Or-ing low bits into a word that has none there. -/
theorem or_eq_add {a b k : Nat} (ha : a % 2 ^ k = 0) (hb : b < 2 ^ k) : a ||| b = a + b := by
  obtain ⟨c, rfl⟩ := Nat.dvd_of_mod_eq_zero ha
  exact (Nat.two_pow_add_eq_or_of_lt hb c).symm

/-- A number that has all the bits of `m` has each of them. -/
theorem bit_of_and_eq {x m k : Nat} (h : x &&& m = m) (hk : m.testBit k = true) :
    x / 2 ^ k % 2 = 1 := by
  have hbit : (x &&& m).testBit k = true := by rw [h, hk]
  rw [Nat.testBit_and, hk, Bool.and_true, Nat.testBit_eq_decide_div_mod_eq] at hbit
  exact of_decide_eq_true hbit

end Bits
