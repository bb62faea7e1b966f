import Orchid.Core.ByteMem

/-! # Pixels in a byte memory

A picture of 32-bit pixels, line by line: `pitch` bytes from one line to the
next, of which the visible pixels may leave some unused. The memory keeps a
record of the stores made to it.
-/

/-- A memory and the stores made so far, each with its address and its number
of bytes. -/
structure Traced where
  mem : ByteMem
  stores : List (ℕ × ℕ)

namespace Traced

/-- Store the low `n` bytes of `v` at `a`. -/
def write (s : Traced) (a n v : ℕ) : Traced :=
  ⟨s.mem.writeLE a n v, (a, n) :: s.stores⟩

/-- Every store was made between `lo` and `hi`. -/
def Within (lo hi : ℕ) (s : Traced) : Prop :=
  ∀ w ∈ s.stores, lo ≤ w.1 ∧ w.1 + w.2 ≤ hi

theorem Within.write {lo hi a n : ℕ} {s : Traced} (h : s.Within lo hi) (hlo : lo ≤ a)
    (hhi : a + n ≤ hi) (v : ℕ) : (s.write a n v).Within lo hi := by
  intro w hw
  rcases List.mem_cons.mp hw with rfl | hw
  · exact ⟨hlo, hhi⟩
  · exact h w hw

end Traced

namespace Raster

variable {base pitch x y x' y' : ℕ} {m m' : ByteMem}

/-- The place of a pixel. -/
def place (base pitch x y : ℕ) : ℕ := base + y * pitch + 4 * x

/-- The pixel in column `x` of line `y`. -/
def pixel (m : ByteMem) (base pitch x y : ℕ) : ℕ := m.read32 (place base pitch x y)

/-- Pixels do not overlap. -/
theorem place_apart (hx : 4 * x + 4 ≤ pitch) (hx' : 4 * x' + 4 ≤ pitch)
    (h : ¬ (x = x' ∧ y = y')) :
    place base pitch x y + 4 ≤ place base pitch x' y' ∨
      place base pitch x' y' + 4 ≤ place base pitch x y := by
  unfold place
  rcases Nat.lt_trichotomy y y' with hy | hy | hy
  · have hline := Nat.mul_le_mul_right pitch (Nat.succ_le_of_lt hy)
    rw [Nat.succ_mul] at hline
    omega
  · subst hy
    have hne : x ≠ x' := fun he => h ⟨he, rfl⟩
    omega
  · have hline := Nat.mul_le_mul_right pitch (Nat.succ_le_of_lt hy)
    rw [Nat.succ_mul] at hline
    omega

/-- A pixel of a picture of `height` lines is inside it. -/
theorem place_add_le {height : ℕ} (hx : 4 * x + 4 ≤ pitch) (hy : y < height) :
    place base pitch x y + 4 ≤ base + height * pitch := by
  have hline := Nat.mul_le_mul_right pitch (Nat.succ_le_of_lt hy)
  rw [Nat.succ_mul] at hline
  unfold place
  omega

theorem le_place : base ≤ place base pitch x y := by
  unfold place
  omega

/-- One pixel is set. -/
theorem pixel_write {v : ℕ} (hx : 4 * x + 4 ≤ pitch) (hx' : 4 * x' + 4 ≤ pitch)
    (hv : v < 2 ^ 32) :
    pixel (m.writeLE (place base pitch x' y') 4 v) base pitch x y =
      if x = x' ∧ y = y' then v else pixel m base pitch x y := by
  by_cases h : x = x' ∧ y = y'
  · obtain ⟨rfl, rfl⟩ := h
    rw [if_pos ⟨rfl, rfl⟩]
    exact (ByteMem.readLE_writeLE_self ..).trans (Nat.mod_eq_of_lt hv)
  · rw [if_neg h]
    exact ByteMem.readLE_writeLE_of_disjoint (place_apart hx hx' h)

/-- A pixel whose bytes were moved up by `k` lines. -/
theorem pixel_of_moved {k : ℕ}
    (h : ∀ i, y * pitch ≤ i → i < y * pitch + pitch → m' (base + i) = m (base + k * pitch + i))
    (hx : 4 * x + 4 ≤ pitch) : pixel m' base pitch x y = pixel m base pitch x (y + k) := by
  apply ByteMem.readLE_eq_of_bytes
  intro i hi
  have hmoved := h (y * pitch + 4 * x + i) (by omega) (by omega)
  rw [show place base pitch x y + i = base + (y * pitch + 4 * x + i) by unfold place; omega,
    hmoved]
  congr 1
  unfold place
  rw [Nat.add_mul]
  omega

/-- A pixel whose bytes were cleared. -/
theorem pixel_of_zero
    (h : ∀ i, y * pitch ≤ i → i < y * pitch + pitch → m (base + i) = 0)
    (hx : 4 * x + 4 ≤ pitch) : pixel m base pitch x y = 0 := by
  refine (ByteMem.readLE_of_digits (v := 0) fun i hi => ?_).trans (Nat.zero_mod _)
  have hzero := h (y * pitch + 4 * x + i) (by omega) (by omega)
  rw [show place base pitch x y + i = base + (y * pitch + 4 * x + i) by unfold place; omega, hzero,
    Nat.zero_div]
  rfl

end Raster
