import Orchid.Core.Numeral

/-! # Printing numbers

A model of `serial_print_hex` and `serial_print_dec` of `kernel/serial.c` and of
their twins in `kernel/console.c`. What a call prints is what it hands to
`serial_putc` or `console_putc`, one character after another. The array on the
stack starts with arbitrary contents.

Hexadecimal numbers come out as their numerals. Decimal ones do as well, apart
from the smallest `int64_t`, whose negation overflows.
-/

namespace Orchid

/-! ## Model -/

/-- What a call prints, and where it wrote into its array. -/
structure Printed where
  text : List UInt8
  writes : List Int

/-- The `hex` array of `serial_print_hex`. -/
def serialHex : List UInt8 :=
  ['0', '1', '2', '3', '4', '5', '6', '7', '8', '9', 'a', 'b', 'c', 'd', 'e', 'f'].map ascii

/-- The `hex` array of `console_print_hex`. -/
def consoleHex : List UInt8 :=
  ['0', '1', '2', '3', '4', '5', '6', '7', '8', '9', 'A', 'B', 'C', 'D', 'E', 'F'].map ascii

/-- The two functions with their array of digits as a parameter. There is no result if
`serial_write` or `console_write` runs out of the 17 bytes. -/
def printHex (hex : List UInt8) (num : Nat) (junk : Int → UInt8) : Option Printed :=
  let buf : Scratch := ⟨junk, []⟩
  let buf := buf.put 16 0
  if num = 0 then some ⟨[ascii '0'], buf.writes⟩
  else
    let (start, buf) := fillBack (fun num => hex.getD (num &&& 0xF) 0) (fun num => num >>> 4) 16 num buf
    (readString (buf.ptr start) (17 - start) 0).map fun text => ⟨text, buf.writes⟩

/-- `serial_print_hex`. -/
def serialPrintHex : Nat → (Int → UInt8) → Option Printed := printHex serialHex

/-- `console_print_hex`. -/
def consolePrintHex : Nat → (Int → UInt8) → Option Printed := printHex consoleHex

/-- `if (num < 0) num = -num;` in `int64_t`. For the smallest number the negation overflows, which
is undefined in C; here it wraps, as the instruction does. -/
def negated (num : Int) : Int := if num < 0 then Int.bmod (-num) (2 ^ 64) else num

/-- The one body of the two functions. There is no result if `serial_write` or
`console_write` runs out of the 21 bytes. -/
def printDec (num : Int) (junk : Int → UInt8) : Option Printed :=
  let buf : Scratch := ⟨junk, []⟩
  let buf := buf.put 20 0
  if num = 0 then some ⟨[ascii '0'], buf.writes⟩
  else
    -- the loop runs as long as the number is positive
    let (room, buf) := fillBack (fun num => UInt8.ofNat (48 + num % 10)) (fun num => num / 10) 20
      (negated num).toNat buf
    let (start, buf) : Int × Scratch :=
      if num < 0 then (room - 1, buf.put (room - 1) (ascii '-')) else (room, buf)
    (readString (buf.ptr start) (21 - start).toNat 0).map fun text => ⟨text, buf.writes⟩

/-- `serial_print_dec`. -/
def serialPrintDec : Int → (Int → UInt8) → Option Printed := printDec

/-- `console_print_dec`. -/
def consolePrintDec : Int → (Int → UInt8) → Option Printed := printDec

/-! ## Numerals -/

/-- A decimal digit. -/
def decValue (c : UInt8) : Option Nat :=
  if 48 ≤ c ∧ c ≤ 57 then some (c.toNat - 48) else none

/-- A hexadecimal digit, of either case. -/
def hexValue (c : UInt8) : Option Nat :=
  if 48 ≤ c ∧ c ≤ 57 then some (c.toNat - 48)
  else if 97 ≤ c ∧ c ≤ 102 then some (c.toNat - 87)
  else if 65 ≤ c ∧ c ≤ 70 then some (c.toNat - 55)
  else none

/-- A letter as a capital, and any other character as it is. -/
def toUpper (c : UInt8) : UInt8 := if 97 ≤ c ∧ c ≤ 122 then c - 32 else c

/-- The text is the decimal numeral of `n`, with a sign if it is negative. -/
def Decimal (text : List UInt8) (n : Int) : Prop :=
  ∃ t, text = (if n < 0 then [ascii '-'] else []) ++ t ∧ Numeral 10 decValue t n.natAbs

/-- How the two `hex` arrays are read back. -/
structure HexDigits (hex : List UInt8) : Prop where
  value : ∀ d < 16, hexValue (hex.getD d 0) = some d
  nonzero : ∀ d < 16, hex.getD d 0 ≠ 0
  zero : hex.getD 0 0 = ascii '0'

theorem serialHex_digits : HexDigits serialHex := by
  constructor <;> decide

theorem consoleHex_digits : HexDigits consoleHex := by
  constructor <;> decide

theorem HexDigits.positional {hex : List UInt8} (h : HexDigits hex) :
    Positional 16 (fun d => hex.getD d 0) hexValue (fun num => hex.getD (num &&& 0xF) 0)
      (fun num => num >>> 4) where
  one_lt := by omega
  digit_eq n := by rw [show 0xF = 2 ^ 4 - 1 from rfl, Nat.and_two_pow_sub_one_eq_mod]
  next_eq n := Nat.shiftRight_eq_div_pow n 4
  val_char := h.value
  char_ne := h.nonzero

theorem decimal_positional :
    Positional 10 (fun d => UInt8.ofNat (48 + d)) decValue (fun num => UInt8.ofNat (48 + num % 10))
      (fun num => num / 10) where
  one_lt := by omega
  digit_eq _ := rfl
  next_eq _ := rfl
  val_char := by decide
  char_ne := by decide

/-! ## Hexadecimal -/

/-- What is printed for a number: its digits, or a zero. -/
def hexText (hex : List UInt8) (n : Nat) : List UInt8 :=
  if n = 0 then [ascii '0'] else digitText 16 (fun d => hex.getD d 0) n

theorem printHex_spec {hex : List UInt8} (h : HexDigits hex) {n : Nat} (hn : n < 2 ^ 64)
    (junk : Int → UInt8) :
    ∃ writes, (∀ i ∈ writes, 0 ≤ i ∧ i ≤ 16) ∧
      printHex hex n junk = some ⟨hexText hex n, writes⟩ := by
  by_cases hzero : n = 0
  · refine ⟨[16], by simp, ?_⟩
    simp [printHex, hexText, hzero, Scratch.put]
  · have hroom : n < 16 ^ 16 := by simpa using hn
    have hlast : (16 : Int) = (16 : Nat) := rfl
    rcases h.positional.fillBack_fresh hlast hroom junk with
      ⟨start, b, hfill, hlength, hspells, hwrites⟩
    refine ⟨b.writes, hwrites, ?_⟩
    have hread := readString_of_spells hspells (show _ < 17 - start by omega)
    simp only [printHex, hexText, if_neg hzero, hfill, hread, Option.map_some]

theorem hexText_numeral {hex : List UInt8} (h : HexDigits hex) (n : Nat) :
    Numeral 16 hexValue (hexText hex n) n := by
  unfold hexText
  by_cases hzero : n = 0
  · rw [if_pos hzero, hzero]
    constructor
    · decide
    · intro c rest ht _
      cases ht
      rfl
  · rw [if_neg hzero]
    exact h.positional.numeral hzero

/-- The two arrays differ in the case of the letters. -/
theorem toUpper_serialHex : ∀ d < 16, toUpper (serialHex.getD d 0) = consoleHex.getD d 0 := by
  decide

theorem toUpper_hexText (n : Nat) : (hexText serialHex n).map toUpper = hexText consoleHex n := by
  unfold hexText
  by_cases hzero : n = 0
  · simp only [if_pos hzero]
    decide
  · simp only [if_neg hzero, digitText, List.map_map]
    apply List.map_congr_left
    intro d hd
    apply toUpper_serialHex
    exact Nat.digits_lt_base (by omega) (List.mem_reverse.mp hd)

/-- Both functions print the numeral of every number, in small letters and in capitals,
and stay inside their array. -/
theorem printHex_faithful {n : Nat} (hn : n < 2 ^ 64) (junk junk' : Int → UInt8) :
    ∃ s c, serialPrintHex n junk = some s ∧ consolePrintHex n junk' = some c ∧
      (Numeral 16 hexValue s.text n ∧ Numeral 16 hexValue c.text n) ∧
      (n = 0 → s.text = [ascii '0'] ∧ c.text = [ascii '0']) ∧
      s.text.map toUpper = c.text ∧
      (∀ i ∈ s.writes, 0 ≤ i ∧ i ≤ 16) ∧ ∀ i ∈ c.writes, 0 ≤ i ∧ i ≤ 16 := by
  rcases printHex_spec serialHex_digits hn junk with ⟨sWrites, hsWrites, hs⟩
  rcases printHex_spec consoleHex_digits hn junk' with ⟨cWrites, hcWrites, hc⟩
  refine ⟨_, _, hs, hc, ⟨hexText_numeral serialHex_digits n, hexText_numeral consoleHex_digits n⟩,
    ?_, toUpper_hexText n, hsWrites, hcWrites⟩
  intro hzero
  simp [hexText, hzero]

/-- `0xbeef`. -/
theorem printHex_faithful_beef : ∃ s c, serialPrintHex 0xbeef (fun _ => 0) = some s ∧
    consolePrintHex 0xbeef (fun _ => 1) = some c ∧ Numeral 16 hexValue s.text 0xbeef ∧
    s.text.map toUpper = c.text := by
  rcases printHex_faithful (n := 0xbeef) (by omega) (fun _ => 0) (fun _ => 1) with
    ⟨s, c, hs, hc, hnumeral, _, hcase, _⟩
  exact ⟨s, c, hs, hc, hnumeral.1, hcase⟩

/-! ## Decimal -/

/-- The negation is right for all but one number. -/
theorem negated_eq_natAbs {n : Int} (hlo : -2 ^ 63 < n) (hhi : n < 2 ^ 63) :
    (negated n).toNat = n.natAbs := by
  unfold negated
  split
  · have hwrap : Int.bmod (-n) (2 ^ 64) = -n := Int.bmod_eq_of_le (by omega) (by omega)
    rw [hwrap]
    omega
  · omega

theorem negated_min : (negated (-2 ^ 63)).toNat = 0 := by decide

/-- Nineteen digits are enough, which leaves room for the sign. -/
theorem negated_lt {n : Int} (hlo : -2 ^ 63 ≤ n) (hhi : n < 2 ^ 63) :
    (negated n).toNat < 10 ^ 19 := by
  by_cases hmin : n = -2 ^ 63
  · rw [hmin, negated_min]
    omega
  · have habs := negated_eq_natAbs (by omega) hhi
    omega

/-- What is printed for a number: the digits of the negated copy behind the sign, or a
zero. -/
def decText (n : Int) : List UInt8 :=
  if n = 0 then [ascii '0']
  else (if n < 0 then [ascii '-'] else []) ++
    digitText 10 (fun d => UInt8.ofNat (48 + d)) (negated n).toNat

theorem printDec_spec {n : Int} (hlo : -2 ^ 63 ≤ n) (hhi : n < 2 ^ 63) (junk : Int → UInt8) :
    ∃ writes, (∀ i ∈ writes, 0 ≤ i ∧ i ≤ 20) ∧
      printDec n junk = some ⟨decText n, writes⟩ := by
  by_cases hn : n = 0
  · refine ⟨[20], by simp, ?_⟩
    simp [printDec, decText, hn, Scratch.put]
  have hdigits := negated_lt hlo hhi
  have hlength : (digitText 10 (fun d => UInt8.ofNat (48 + d)) (negated n).toNat).length ≤ 19 := by
    rw [digitText, List.length_map, List.length_reverse]
    exact (Nat.digits_length_le_iff (by omega) _).mpr hdigits
  have hroom : (negated n).toNat < 10 ^ 20 := by omega
  have hlast : (20 : Int) = (20 : Nat) := rfl
  rcases decimal_positional.fillBack_fresh hlast hroom junk with
    ⟨start, b, hfill, hstart, hspells, hinside⟩
  by_cases hneg : n < 0
  · -- the digits end at index 1 or behind it, so that the sign is inside the array
    have hsign : ascii '-' ≠ 0 := by decide
    have hspells : Spells ((b.put (start - 1) (ascii '-')).ptr (start - 1)) 0
        (ascii '-' :: digitText 10 (fun d => UInt8.ofNat (48 + d)) (negated n).toNat) := by
      apply Scratch.put_spells hsign
      rwa [Int.sub_add_cancel]
    have hread := readString_of_spells hspells
      (show _ < (21 - ((start : Int) - 1)).toNat by rw [List.length_cons]; omega)
    refine ⟨(b.put (start - 1) (ascii '-')).writes, ?_, ?_⟩
    · intro i hi
      rcases List.mem_cons.mp hi with rfl | hi
      · omega
      · exact hinside i hi
    · simp only [printDec, decText, if_neg hn, hfill, if_pos hneg, hread, Option.map_some,
        List.singleton_append]
  · have hread := readString_of_spells hspells
      (show _ < (21 - (start : Int)).toNat by omega)
    refine ⟨b.writes, hinside, ?_⟩
    simp only [printDec, decText, if_neg hn, hfill, if_neg hneg, hread, Option.map_some,
      List.nil_append]

theorem Decimal.zero : Decimal [ascii '0'] 0 := by
  refine ⟨[ascii '0'], rfl, ?_, ?_⟩
  · decide
  · intro c rest ht _
    cases ht
    rfl

/-- A sign alone is no numeral. -/
theorem not_decimal_sign {n : Int} (hn : n < 0) : ¬ Decimal [ascii '-'] n := by
  rintro ⟨t, ht, hnumeral⟩
  rw [if_pos hn, List.singleton_append, List.cons.injEq] at ht
  have hvalue := hnumeral.value
  rw [← ht.2] at hvalue
  cases hvalue

theorem decText_min : decText (-2 ^ 63) = [ascii '-'] := by
  rw [decText, negated_min]
  simp [digitText]

theorem decText_decimal {n : Int} (hlo : -2 ^ 63 < n) (hhi : n < 2 ^ 63) :
    Decimal (decText n) n := by
  unfold decText
  split
  · next hzero =>
    rw [hzero]
    exact Decimal.zero
  · next hzero =>
    refine ⟨_, rfl, ?_⟩
    rw [negated_eq_natAbs hlo hhi]
    exact decimal_positional.numeral (Int.natAbs_ne_zero.mpr hzero)

/-- Both functions stay inside their array for every number, and what they print is its
numeral if and only if it is not the smallest one. -/
theorem printDec_faithful_iff {n : Int} (hlo : -2 ^ 63 ≤ n) (hhi : n < 2 ^ 63)
    (junk junk' : Int → UInt8) :
    ∃ s c, serialPrintDec n junk = some s ∧ consolePrintDec n junk' = some c ∧
      ((∀ i ∈ s.writes, 0 ≤ i ∧ i ≤ 20) ∧ ∀ i ∈ c.writes, 0 ≤ i ∧ i ≤ 20) ∧
      ((Decimal s.text n ∧ Decimal c.text n) ↔ n ≠ -2 ^ 63) := by
  rcases printDec_spec hlo hhi junk with ⟨sWrites, hsWrites, hs⟩
  rcases printDec_spec hlo hhi junk' with ⟨cWrites, hcWrites, hc⟩
  refine ⟨_, _, hs, hc, ⟨hsWrites, hcWrites⟩, ?_, ?_⟩
  · rintro ⟨hdecimal, _⟩ hmin
    subst hmin
    rw [decText_min] at hdecimal
    exact not_decimal_sign (by omega) hdecimal
  · intro hne
    have hdecimal := decText_decimal (by omega) hhi
    exact ⟨hdecimal, hdecimal⟩

/-- The number after the smallest is printed with its sign and all its digits. -/
theorem printDec_faithful_smallest_but_one : ∃ s c,
    serialPrintDec (-2 ^ 63 + 1) (fun _ => 0) = some s ∧
    consolePrintDec (-2 ^ 63 + 1) (fun _ => 0) = some c ∧
    Decimal s.text (-2 ^ 63 + 1) ∧ Decimal c.text (-2 ^ 63 + 1) := by
  rcases printDec_faithful_iff (n := -2 ^ 63 + 1) (by omega) (by omega) (fun _ => 0) (fun _ => 0) with
    ⟨s, c, hs, hc, _, hiff⟩
  exact ⟨s, c, hs, hc, hiff.mpr (by omega)⟩

/-- `INT64_MIN` is printed as a sign without digits where the negation wraps. With the `-O2` of the
`Makefile` the compiler makes use of the overflow being undefined, and the functions print `-8`,
which is not the number either. -/
theorem printDec_min : ∃ s c, serialPrintDec (-2 ^ 63) (fun _ => 0) = some s ∧
    consolePrintDec (-2 ^ 63) (fun _ => 0) = some c ∧
    s.text = [ascii '-'] ∧ c.text = [ascii '-'] ∧
    ¬ Decimal s.text (-2 ^ 63) ∧ ¬ Decimal c.text (-2 ^ 63) := by
  rcases printDec_spec (n := -2 ^ 63) (by omega) (by omega) (fun _ => 0) with ⟨writes, _, hprint⟩
  rw [decText_min] at hprint
  have hnot : ¬ Decimal [ascii '-'] (-2 ^ 63) := not_decimal_sign (by omega)
  exact ⟨_, _, hprint, hprint, rfl, rfl, hnot, hnot⟩

end Orchid
