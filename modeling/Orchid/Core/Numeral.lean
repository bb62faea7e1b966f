import Mathlib.Data.Nat.Digits.Lemmas
import Orchid.Core.CString

/-! # Numerals

A number is printed by writing its digits into an array from the end towards
the start, least significant first, and printing the string that begins at the
last one written. The loop ends with the number or with the array, whichever is
first, so that the array has to be long enough.
-/

/-! ## Reading a numeral -/

/-- Read on from the value `acc` of the digits so far. -/
def parseFrom (base : Nat) (val : UInt8 → Option Nat) : Nat → List UInt8 → Option Nat
  | acc, [] => some acc
  | acc, c :: t => (val c).bind fun d => parseFrom base val (base * acc + d) t

/-- The number that a text stands for. The empty text is none. -/
def parseNumeral (base : Nat) (val : UInt8 → Option Nat) : List UInt8 → Option Nat
  | [] => none
  | c :: t => parseFrom base val 0 (c :: t)

/-- The text is the canonical numeral of `n`. -/
structure Numeral (base : Nat) (val : UInt8 → Option Nat) (t : List UInt8) (n : Nat) : Prop where
  value : parseNumeral base val t = some n
  noLeadingZero : ∀ c rest, t = c :: rest → val c = some 0 → rest = []

theorem parseFrom_append {base acc : Nat} {val : UInt8 → Option Nat} (t u : List UInt8) :
    parseFrom base val acc (t ++ u) =
      (parseFrom base val acc t).bind fun n => parseFrom base val n u := by
  induction t generalizing acc with
  | nil => rfl
  | cons c t ih =>
    rw [List.cons_append, parseFrom, parseFrom, Option.bind_assoc]
    congr 1
    funext d
    exact ih

/-! ## Writing one -/

/-- An array on the stack: what it holds, and the indices at which it was written, the
last first. An index may be outside the array. -/
structure Scratch where
  byte : Int → UInt8
  writes : List Int

namespace Scratch

open Function

/-- `buf[i] = c`. -/
def put (b : Scratch) (i : Int) (c : UInt8) : Scratch where
  byte := update b.byte i c
  writes := i :: b.writes

/-- `&buf[i]`. -/
def ptr (b : Scratch) (i : Int) : Nat → UInt8 := fun k => b.byte (i + k)

/-- The string behind a character, with the character in front. -/
theorem put_spells {b : Scratch} {i : Int} {c : UInt8} {t : List UInt8} (hc : c ≠ 0)
    (h : Spells (b.ptr (i + 1)) 0 t) : Spells ((b.put i c).ptr i) 0 (c :: t) := by
  refine ⟨hc, ?_, ?_⟩
  · simp [put, ptr]
  · have hshift : Spells (fun k => (b.put i c).ptr i (k + 1)) 0 t := by
      apply h.congr
      intro k _ _
      have hne : i + ((k + 1 : Nat) : Int) ≠ i := by omega
      simp only [put, ptr]
      rw [update_of_ne hne]
      congr 1
      omega
    exact hshift.shift

end Scratch

/-- The digit loop: `while (num > 0 && i >= 0) { buf[i--] = digit(num); num = next(num); }`,
from `i = room - 1` on. The room left is `i + 1`, where the string then begins. -/
def fillBack (digit : Nat → UInt8) (next : Nat → Nat) : Nat → Nat → Scratch → Nat × Scratch
  | 0, _, b => (0, b)
  | room + 1, num, b =>
    if num = 0 then (room + 1, b)
    else fillBack digit next room (next num) (b.put room (digit num))

/-- What makes the loop one that writes the digits to a base: `char` is how a digit
looks, and `val` reads it. -/
structure Positional (base : Nat) (char : Nat → UInt8) (val : UInt8 → Option Nat)
    (digit : Nat → UInt8) (next : Nat → Nat) : Prop where
  one_lt : 1 < base
  digit_eq : ∀ n, digit n = char (n % base)
  next_eq : ∀ n, next n = n / base
  val_char : ∀ d < base, val (char d) = some d
  char_ne : ∀ d < base, char d ≠ 0

/-- The digits of `n` as characters, the most significant first. -/
def digitText (base : Nat) (char : Nat → UInt8) (n : Nat) : List UInt8 :=
  (base.digits n).reverse.map char

namespace Positional

variable {base : Nat} {char : Nat → UInt8} {val : UInt8 → Option Nat} {digit : Nat → UInt8}
  {next : Nat → Nat}

theorem digitText_succ (h : Positional base char val digit next) {n : Nat} (hn : n ≠ 0) :
    digitText base char n = digitText base char (next n) ++ [digit n] := by
  rw [digitText, Nat.digits_eq_cons_digits_div h.one_lt hn, List.reverse_cons, List.map_append,
    h.next_eq, h.digit_eq]
  rfl

theorem parseFrom_digits (h : Positional base char val digit next) {l : List Nat}
    (hl : ∀ d ∈ l, d < base) :
    parseFrom base val 0 (l.reverse.map char) = some (Nat.ofDigits base l) := by
  induction l with
  | nil => rfl
  | cons d l ih =>
    rw [List.forall_mem_cons] at hl
    rw [List.reverse_cons, List.map_append, parseFrom_append, ih hl.2]
    simp [parseFrom, h.val_char d hl.1, Nat.ofDigits_cons, Nat.add_comm]

/-- The digits of a number other than zero are its numeral. -/
theorem numeral (h : Positional base char val digit next) {n : Nat} (hn : n ≠ 0) :
    Numeral base val (digitText base char n) n := by
  have hlt : ∀ d ∈ base.digits n, d < base := fun d hd => Nat.digits_lt_base h.one_lt hd
  have hne : base.digits n ≠ [] := Nat.digits_ne_nil_iff_ne_zero.mpr hn
  have hparse := h.parseFrom_digits hlt
  rw [Nat.ofDigits_digits] at hparse
  constructor
  · rw [digitText]
    cases ht : (base.digits n).reverse.map char with
    | nil => simp [hne] at ht
    | cons c t =>
      rw [ht] at hparse
      exact hparse
  · -- the first character is the last of the digits, which is not zero
    intro c rest ht hc
    have hlast := Nat.getLast_digit_ne_zero base hn
    have hhead : (digitText base char n).head? = some (char ((base.digits n).getLast hne)) := by
      rw [digitText, List.head?_map, List.head?_reverse, List.getLast?_eq_getLast_of_ne_nil hne]
      rfl
    rw [ht, List.head?_cons, Option.some.injEq] at hhead
    rw [hhead, h.val_char _ (hlt _ (List.getLast_mem hne)), Option.some.injEq] at hc
    exact absurd hc hlast

/-- With room for all of them the loop writes the digits in front of the string that is
there, and nothing outside the room. -/
theorem fillBack_spec (h : Positional base char val digit next) {room num : Nat} {b : Scratch}
    {t : List UInt8} (hnum : num < base ^ room) (ht : Spells (b.ptr room) 0 t) :
    ∃ start b', fillBack digit next room num b = (start, b') ∧
      start + (digitText base char num).length = room ∧
      Spells (b'.ptr start) 0 (digitText base char num ++ t) ∧
      ∀ i ∈ b'.writes, i ∈ b.writes ∨ 0 ≤ i ∧ i < room := by
  -- along the loop: the number that is left goes in front of what has been written
  induction room generalizing num b t with
  | zero =>
    have hzero : num = 0 := by simpa using hnum
    refine ⟨0, b, rfl, ?_, ?_, fun i hi => .inl hi⟩
    · simp [hzero, digitText]
    · simpa [hzero, digitText] using ht
  | succ room ih =>
    by_cases hzero : num = 0
    · refine ⟨room + 1, b, ?_, ?_, ?_, fun i hi => .inl hi⟩
      · rw [fillBack, if_pos hzero]
      · simp [hzero, digitText]
      · simpa [hzero, digitText] using ht
    · have hrest : next num < base ^ room := by
        rw [h.next_eq]
        apply Nat.div_lt_of_lt_mul
        rwa [Nat.pow_succ, Nat.mul_comm] at hnum
      have hdigit : digit num ≠ 0 := by
        rw [h.digit_eq]
        exact h.char_ne _ (Nat.mod_lt num (Nat.zero_lt_of_lt h.one_lt))
      have hput : Spells ((b.put room (digit num)).ptr room) 0 (digit num :: t) := by
        apply Scratch.put_spells hdigit
        rwa [Nat.cast_succ] at ht
      rcases ih hrest hput with ⟨start, b', hfill, hlength, hspells, hwrites⟩
      have htext := h.digitText_succ hzero
      refine ⟨start, b', ?_, ?_, ?_, ?_⟩
      · rw [fillBack, if_neg hzero]
        exact hfill
      · rw [htext, List.length_append, List.length_singleton]
        omega
      · rwa [htext, List.append_assoc, List.singleton_append]
      · intro i hi
        rcases hwrites i hi with hold | hnew
        · rcases List.mem_cons.mp hold with rfl | hold
          · right
            omega
          · exact .inl hold
        · right
          omega

/-- In an array that holds only a terminator, behind the room for the digits, the loop makes
the string of the digits. -/
theorem fillBack_fresh (h : Positional base char val digit next) {room num : Nat} {last : Int}
    (hlast : last = room) (hnum : num < base ^ room) (junk : Int → UInt8) :
    ∃ start b, fillBack digit next room num (Scratch.put ⟨junk, []⟩ last 0) = (start, b) ∧
      start + (digitText base char num).length = room ∧
      Spells (b.ptr start) 0 (digitText base char num) ∧ ∀ i ∈ b.writes, 0 ≤ i ∧ i ≤ last := by
  subst hlast
  have hend : Spells ((Scratch.put ⟨junk, []⟩ room 0).ptr room) 0 [] := by
    simp [Spells, Scratch.put, Scratch.ptr]
  rcases h.fillBack_spec hnum hend with ⟨start, b, hfill, hlength, hspells, hwrites⟩
  rw [List.append_nil] at hspells
  refine ⟨start, b, hfill, hlength, hspells, ?_⟩
  intro i hi
  rcases hwrites i hi with hold | hnew
  · have hi : i = room := by simpa [Scratch.put] using hold
    omega
  · omega

end Positional
