import Orchid.Core.Raster
import Orchid.Device.Font

/-! # The framebuffer console

A model of the drawing part of `kernel/console.c`: `draw_char`, `scroll`,
`advance_cursor`, `console_clear`, `console_init` and `console_putc`. The
framebuffer is a range of the byte memory; every store to it is recorded.
`console_printf` and the number formatting above `console_putc` are in `Print` and
`Printf`.

The second half says what each function does to the pixels of a framebuffer
whose geometry is sound, and that it stores nothing outside the buffer.
-/

namespace Orchid

/-- `uint64_t` arithmetic. -/
def u64 (n : ℕ) : ℕ := n % 2 ^ 64

/-- A framebuffer with 32-bit pixels: `height` lines of `pitch` bytes in
memory, with the place after the last byte an address too. -/
structure Framebuffer where
  address : ℕ
  width : ℕ
  height : ℕ
  pitch : ℕ
  inMemory : address + height * pitch < 2 ^ 64

def fontWidth : ℕ := 8

def fontHeight : ℕ := 16

/-- The state of `console.c`. -/
structure Console where
  fb : Framebuffer
  cursorX : ℕ
  cursorY : ℕ
  video : Traced

/-- `fb_pixels_per_line`. -/
def Framebuffer.pixelsPerLine (fb : Framebuffer) : ℕ := fb.pitch / 4

/-! ## Drawing -/

/-- `fb_addr[y * fb_pixels_per_line + x] = color`. -/
def plot (fb : Framebuffer) (x y color : ℕ) (v : Traced) : Traced :=
  v.write (u64 (fb.address + 4 * u64 (y * fb.pixelsPerLine + x))) 4 color

/-- The colour of a column of a glyph's row. -/
def inkOf (line col fg bg : ℕ) : ℕ := if line &&& (0x80 >>> col) ≠ 0 then fg else bg

/-- The inner loop of `draw_char`, over the first columns of a row. -/
def drawCols (fb : Framebuffer) (line px y fg bg : ℕ) : ℕ → Traced → Traced
  | 0, v => v
  | col + 1, v =>
    let v := drawCols fb line px y fg bg col v
    let x := u64 (px + col)
    -- pixels off the screen are skipped
    if fb.width ≤ x ∨ fb.height ≤ y then v else plot fb x y (inkOf line col fg bg) v

/-- The outer loop of `draw_char`, over the first rows of a glyph. -/
def drawRows (fb : Framebuffer) (g : List ℕ) (px py fg bg : ℕ) : ℕ → Traced → Traced
  | 0, v => v
  | row + 1, v =>
    drawCols fb (g.getD row 0) px (u64 (py + row)) fg bg fontWidth
      (drawRows fb g px py fg bg row v)

/-- `draw_char`. -/
def drawChar (fb : Framebuffer) (c : UInt8) (px py fg bg : ℕ) (v : Traced) : Traced :=
  drawRows fb (glyph c) px py fg bg fontHeight v

/-! ## Scrolling and clearing -/

/-- `rep movsq`. -/
def moveQwords (dst src : ℕ) : ℕ → Traced → Traced
  | 0, v => v
  | n + 1, v =>
    let v := moveQwords dst src n v
    v.write (u64 (dst + 8 * n)) 8 (v.mem.read64 (u64 (src + 8 * n)))

/-- `for (i = 0; i < n; i++) dst[i] = src[i];` on bytes. -/
def moveBytes (dst src : ℕ) : ℕ → Traced → Traced
  | 0, v => v
  | n + 1, v =>
    let v := moveBytes dst src n v
    v.write (u64 (dst + n)) 1 (v.mem (u64 (src + n))).toNat

/-- `for (i = 0; i < n; i++) p[i] = 0;` on 64-bit words. -/
def clearQwords (p : ℕ) : ℕ → Traced → Traced
  | 0, v => v
  | n + 1, v => (clearQwords p n v).write (u64 (p + 8 * n)) 8 0

/-- `scroll`. -/
def scroll (fb : Framebuffer) (v : Traced) : Traced :=
  let lineBytes := fb.pitch
  let totalBytes := u64 (u64 (fb.height + 2 ^ 64 - fontHeight) * lineBytes)
  let src := u64 (fb.address + u64 (fontHeight * lineBytes))
  let dst := fb.address
  let qwordCount := totalBytes / 8
  let v := moveQwords dst src qwordCount v
  -- `rep movsq` leaves both pointers behind what it copied
  let v := moveBytes (u64 (dst + 8 * qwordCount)) (u64 (src + 8 * qwordCount)) (totalBytes % 8) v
  clearQwords (u64 (fb.address + u64 (u64 (fb.height + 2 ^ 64 - fontHeight) * lineBytes)))
    (u64 (fontHeight * lineBytes) / 8) v

/-- `console_clear`. -/
def consoleClear (s : Console) : Console :=
  { s with
    cursorX := 0
    cursorY := 0
    video := clearQwords s.fb.address (u64 (s.fb.pixelsPerLine * s.fb.height) / 2) s.video }

/-- `console_init`. -/
def consoleInit (fb : Framebuffer) (video : Traced) : Console :=
  consoleClear ⟨fb, 0, 0, video⟩

/-! ## Characters -/

/-- What `advance_cursor` and the newline end with: a cursor below the last
row goes back to it and the screen scrolls. -/
def scrollAtBottom (s : Console) : Console :=
  if u64 (u64 (s.cursorY * fontHeight) + fontHeight) > s.fb.height then
    { s with cursorY := u64 (s.cursorY + 2 ^ 64 - 1), video := scroll s.fb s.video }
  else s

/-- `advance_cursor`. -/
def advanceCursor (s : Console) : Console :=
  let x := u64 (s.cursorX + 1)
  if u64 (u64 (x * fontWidth) + fontWidth) > s.fb.width then
    scrollAtBottom { s with cursorX := 0, cursorY := u64 (s.cursorY + 1) }
  else scrollAtBottom { s with cursorX := x }

/-- `draw_char` at the cursor, white on black. -/
def drawAtCursor (c : UInt8) (s : Console) : Console :=
  { s with
    video := drawChar s.fb c (u64 (s.cursorX * fontWidth)) (u64 (s.cursorY * fontHeight))
      0xFFFFFF 0x000000 s.video }

/-- The end of `console_putc`, for a character that is not special. -/
def putPlain (c : UInt8) (s : Console) : Console := advanceCursor (drawAtCursor c s)

/-- The cursor one place back, to the end of the row above from the first
column. -/
def cursorBack (s : Console) : Console :=
  if s.cursorX > 0 then { s with cursorX := u64 (s.cursorX + 2 ^ 64 - 1) }
  else if s.cursorY > 0 then
    { s with
      cursorY := u64 (s.cursorY + 2 ^ 64 - 1)
      cursorX := u64 (s.fb.width / fontWidth + 2 ^ 64 - 1) }
  else s

/-- `console_putc`. -/
def consolePutc (c : UInt8) (s : Console) : Console :=
  if c = 10 then scrollAtBottom { s with cursorX := 0, cursorY := u64 (s.cursorY + 1) }
  else if c = 13 then { s with cursorX := 0 }
  -- `console_putc(' ')` four times; a space is not special
  else if c = 9 then putPlain 32 (putPlain 32 (putPlain 32 (putPlain 32 s)))
  else if c = 8 then drawAtCursor 32 (cursorBack s)
  else putPlain c s

example (s : Console) : consolePutc 32 s = putPlain 32 s := rfl

/-- `console_putc` on one character after another. -/
def consolePutcs (cs : List UInt8) (s : Console) : Console :=
  cs.foldl (fun s c => consolePutc c s) s

/-! ## Sound geometry -/

/-- At least one character cell, and whole lines of pixels and of 64-bit
words. -/
structure Framebuffer.Ok (fb : Framebuffer) : Prop where
  width : 8 ≤ fb.width
  height : 16 ≤ fb.height
  pitch : 8 ∣ fb.pitch
  line : 4 * fb.width ≤ fb.pitch

theorem u64_of_lt {n : ℕ} (h : n < 2 ^ 64) : u64 n = n := Nat.mod_eq_of_lt h

/-- Subtraction that does not go below zero. -/
theorem u64_sub {n k : ℕ} (hk : k ≤ n) (hn : n < 2 ^ 64) : u64 (n + 2 ^ 64 - k) = n - k := by
  unfold u64
  omega

namespace Framebuffer

variable {fb : Framebuffer}

/-- The end of the buffer. -/
def limit (fb : Framebuffer) : ℕ := fb.address + fb.height * fb.pitch

/-- The pixel in column `x` of line `y`. -/
def pixel (fb : Framebuffer) (v : Traced) (x y : ℕ) : ℕ :=
  Raster.pixel v.mem fb.address fb.pitch x y

namespace Ok

theorem pixel_in_line (h : fb.Ok) {x : ℕ} (hx : x < fb.width) : 4 * x + 4 ≤ fb.pitch := by
  have := h.line
  omega

theorem four_mul_pixelsPerLine (h : fb.Ok) : 4 * fb.pixelsPerLine = fb.pitch := by
  have := h.pitch
  unfold pixelsPerLine
  omega

/-- The buffer has at least 16 lines of 32 bytes, so neither side is near the
end of the number range. -/
theorem sides_lt (h : fb.Ok) : 16 * fb.pitch < 2 ^ 64 ∧ 32 * fb.height < 2 ^ 64 := by
  have hmem := fb.inMemory
  have hlines := Nat.mul_le_mul_right fb.pitch h.height
  have hpitch : 32 ≤ fb.pitch := by
    have := h.width
    have := h.line
    omega
  have hcols := Nat.mul_le_mul_left fb.height hpitch
  omega

theorem width_lt (h : fb.Ok) : fb.width + 8 < 2 ^ 64 := by
  have := h.sides_lt
  have := h.line
  omega

theorem height_lt (h : fb.Ok) : fb.height + 16 < 2 ^ 64 := by
  have := h.sides_lt
  omega

/-- The part above and the last 16 lines make up the buffer. -/
theorem upper_add_last (h : fb.Ok) :
    (fb.height - 16) * fb.pitch + 16 * fb.pitch = fb.height * fb.pitch := by
  rw [← Nat.add_mul, Nat.sub_add_cancel h.height]

/-- Both parts are whole words. -/
theorem words (h : fb.Ok) :
    8 * ((fb.height - 16) * fb.pitch / 8) = (fb.height - 16) * fb.pitch ∧
      8 * (16 * fb.pitch / 8) = 16 * fb.pitch :=
  ⟨Nat.mul_div_cancel' (h.pitch.mul_left _), Nat.mul_div_cancel' (h.pitch.mul_left _)⟩

end Ok

end Framebuffer

section Pixels

variable {fb : Framebuffer} {v : Traced} {x y x' y' : ℕ}

theorem plot_eq (h : fb.Ok) (hx : x < fb.width) (hy : y < fb.height) (color : ℕ) :
    plot fb x y color v = v.write (Raster.place fb.address fb.pitch x y) 4 color := by
  have hend : Raster.place fb.address fb.pitch x y + 4 ≤ fb.address + fb.height * fb.pitch :=
    Raster.place_add_le (h.pixel_in_line hx) hy
  have hmem := fb.inMemory
  -- the index counts pixels, the place bytes
  have hindex : 4 * (y * fb.pixelsPerLine + x) = y * fb.pitch + 4 * x := by
    rw [← h.four_mul_pixelsPerLine]
    ring
  unfold Raster.place at hend ⊢
  unfold plot
  rw [u64_of_lt (by omega : y * fb.pixelsPerLine + x < 2 ^ 64), hindex, ← Nat.add_assoc,
    u64_of_lt (by omega)]

theorem pixel_plot (h : fb.Ok) (hx : x < fb.width) (hy : y < fb.height) (hx' : x' < fb.width)
    {color : ℕ} (hcolor : color < 2 ^ 32) :
    fb.pixel (plot fb x y color v) x' y' = if x' = x ∧ y' = y then color else fb.pixel v x' y' := by
  rw [plot_eq h hx hy]
  exact Raster.pixel_write (h.pixel_in_line hx') (h.pixel_in_line hx) hcolor

theorem within_plot (h : fb.Ok) (hx : x < fb.width) (hy : y < fb.height) (color : ℕ)
    (hv : v.Within fb.address fb.limit) : (plot fb x y color v).Within fb.address fb.limit := by
  rw [plot_eq h hx hy]
  exact hv.write Raster.le_place (Raster.place_add_le (h.pixel_in_line hx) hy) color

/-! ## What `draw_char` draws -/

variable {line px py fg bg : ℕ} {g : List ℕ}

theorem inkOf_lt (hfg : fg < 2 ^ 32) (hbg : bg < 2 ^ 32) (line col : ℕ) :
    inkOf line col fg bg < 2 ^ 32 := by
  unfold inkOf
  split
  · exact hfg
  · exact hbg

/-- The columns drawn so far, on a row that is on the screen. -/
theorem pixel_drawCols (h : fb.Ok) {n : ℕ} (hpx : px + n ≤ fb.width) (hy : y < fb.height)
    (hfg : fg < 2 ^ 32) (hbg : bg < 2 ^ 32) (hx' : x' < fb.width) :
    fb.pixel (drawCols fb line px y fg bg n v) x' y' =
      if y' = y ∧ px ≤ x' ∧ x' < px + n then inkOf line (x' - px) fg bg
      else fb.pixel v x' y' := by
  induction n with
  | zero =>
    have hn : ¬ (y' = y ∧ px ≤ x' ∧ x' < px + 0) := by omega
    rw [if_neg hn, drawCols]
  | succ n ih =>
    have hw := h.width_lt
    have hx : u64 (px + n) = px + n := u64_of_lt (by omega)
    have hon : ¬ (fb.width ≤ px + n ∨ fb.height ≤ y) := by omega
    simp only [drawCols, hx, if_neg hon]
    rw [pixel_plot h (by omega) hy hx' (inkOf_lt hfg hbg line n), ih (by omega)]
    by_cases hnew : x' = px + n ∧ y' = y
    · have hin : y' = y ∧ px ≤ x' ∧ x' < px + (n + 1) := by omega
      rw [if_pos hnew, if_pos hin, hnew.1, Nat.add_sub_cancel_left]
    · rw [if_neg hnew]
      by_cases hold : y' = y ∧ px ≤ x' ∧ x' < px + n
      · have hin : y' = y ∧ px ≤ x' ∧ x' < px + (n + 1) := by omega
        rw [if_pos hold, if_pos hin]
      · have hin : ¬ (y' = y ∧ px ≤ x' ∧ x' < px + (n + 1)) := by omega
        rw [if_neg hold, if_neg hin]

theorem within_drawCols (h : fb.Ok) {n : ℕ} (hpx : px + n ≤ fb.width) (hy : y < fb.height)
    (hv : v.Within fb.address fb.limit) :
    (drawCols fb line px y fg bg n v).Within fb.address fb.limit := by
  induction n with
  | zero => exact hv
  | succ n ih =>
    have hw := h.width_lt
    have hx : u64 (px + n) = px + n := u64_of_lt (by omega)
    have hon : ¬ (fb.width ≤ px + n ∨ fb.height ≤ y) := by omega
    simp only [drawCols, hx, if_neg hon]
    exact within_plot h (by omega) hy _ (ih (by omega))

/-- The rows drawn so far, of a glyph that is on the screen. -/
theorem pixel_drawRows (h : fb.Ok) {n : ℕ} (hpx : px + 8 ≤ fb.width) (hpy : py + n ≤ fb.height)
    (hfg : fg < 2 ^ 32) (hbg : bg < 2 ^ 32) (hx' : x' < fb.width) :
    fb.pixel (drawRows fb g px py fg bg n v) x' y' =
      if (py ≤ y' ∧ y' < py + n) ∧ px ≤ x' ∧ x' < px + 8 then
        inkOf (g.getD (y' - py) 0) (x' - px) fg bg
      else fb.pixel v x' y' := by
  induction n with
  | zero =>
    have hn : ¬ ((py ≤ y' ∧ y' < py + 0) ∧ px ≤ x' ∧ x' < px + 8) := by omega
    rw [if_neg hn, drawRows]
  | succ n ih =>
    have hh := h.height_lt
    rw [drawRows, u64_of_lt (by omega : py + n < 2 ^ 64), fontWidth,
      pixel_drawCols h hpx (by omega) hfg hbg hx', ih (by omega)]
    by_cases hnew : y' = py + n ∧ px ≤ x' ∧ x' < px + 8
    · have hin : (py ≤ y' ∧ y' < py + (n + 1)) ∧ px ≤ x' ∧ x' < px + 8 := by omega
      rw [if_pos hnew, if_pos hin, hnew.1, Nat.add_sub_cancel_left]
    · rw [if_neg hnew]
      by_cases hold : (py ≤ y' ∧ y' < py + n) ∧ px ≤ x' ∧ x' < px + 8
      · have hin : (py ≤ y' ∧ y' < py + (n + 1)) ∧ px ≤ x' ∧ x' < px + 8 := by omega
        rw [if_pos hold, if_pos hin]
      · have hin : ¬ ((py ≤ y' ∧ y' < py + (n + 1)) ∧ px ≤ x' ∧ x' < px + 8) := by omega
        rw [if_neg hold, if_neg hin]

theorem within_drawRows (h : fb.Ok) {n : ℕ} (hpx : px + 8 ≤ fb.width) (hpy : py + n ≤ fb.height)
    (hv : v.Within fb.address fb.limit) :
    (drawRows fb g px py fg bg n v).Within fb.address fb.limit := by
  induction n with
  | zero => exact hv
  | succ n ih =>
    have hh := h.height_lt
    rw [drawRows, u64_of_lt (by omega : py + n < 2 ^ 64)]
    exact within_drawCols h hpx (by omega) (ih (by omega))

/-! ## What `scroll` and `console_clear` do -/

variable {p n : ℕ}

/-- The clearing loop, on words that do not wrap around. -/
theorem clearQwords_mem (hp : p + 8 * n ≤ 2 ^ 64) :
    (clearQwords p n v).mem = v.mem.clearWords p n := by
  induction n with
  | zero => rfl
  | succ n ih =>
    rw [clearQwords, u64_of_lt (by omega : p + 8 * n < 2 ^ 64), ByteMem.clearWords, ← ih (by omega)]
    rfl

theorem within_clearQwords {lo hi : ℕ} (hhi : hi ≤ 2 ^ 64) (hlo : lo ≤ p) (hp : p + 8 * n ≤ hi)
    (hv : v.Within lo hi) : (clearQwords p n v).Within lo hi := by
  induction n with
  | zero => exact hv
  | succ n ih =>
    rw [clearQwords, u64_of_lt (by omega : p + 8 * n < 2 ^ 64)]
    exact (ih (by omega)).write (by omega) (by omega) 0

theorem moveQwords_mem {dst src : ℕ} (hdst : dst + 8 * n ≤ 2 ^ 64) (hsrc : src + 8 * n ≤ 2 ^ 64) :
    (moveQwords dst src n v).mem = v.mem.copyWords dst src 0 n := by
  induction n with
  | zero => rfl
  | succ n ih =>
    rw [moveQwords, u64_of_lt (by omega : dst + 8 * n < 2 ^ 64),
      u64_of_lt (by omega : src + 8 * n < 2 ^ 64), ByteMem.copyWords, Nat.zero_add,
      ← ih (by omega) (by omega)]
    rfl

theorem within_moveQwords {lo hi dst src : ℕ} (hhi : hi ≤ 2 ^ 64) (hlo : lo ≤ dst)
    (hdst : dst + 8 * n ≤ hi) (hv : v.Within lo hi) : (moveQwords dst src n v).Within lo hi := by
  induction n with
  | zero => exact hv
  | succ n ih =>
    rw [moveQwords, u64_of_lt (by omega : dst + 8 * n < 2 ^ 64)]
    exact (ih (by omega)).write (by omega) (by omega) _

/-- Without wrapping around: whole words are moved up by 16 lines, nothing is
left for the byte loop, and 16 lines are cleared. -/
theorem scroll_eq (h : fb.Ok) :
    scroll fb v =
      clearQwords (fb.address + (fb.height - 16) * fb.pitch) (16 * fb.pitch / 8)
        (moveQwords fb.address (fb.address + 16 * fb.pitch) ((fb.height - 16) * fb.pitch / 8) v) := by
  have hmem := fb.inMemory
  have hh := h.height_lt
  have hheight := h.height
  have hsplit := h.upper_add_last
  have hdvd : (fb.height - 16) * fb.pitch % 8 = 0 :=
    Nat.mod_eq_zero_of_dvd (h.pitch.mul_left _)
  unfold scroll
  simp only [fontHeight]
  rw [u64_sub hheight (by omega), u64_of_lt (by omega : (fb.height - 16) * fb.pitch < 2 ^ 64),
    u64_of_lt (by omega : 16 * fb.pitch < 2 ^ 64), hdvd, moveBytes,
    u64_of_lt (by omega : fb.address + (fb.height - 16) * fb.pitch < 2 ^ 64),
    u64_of_lt (by omega : fb.address + 16 * fb.pitch < 2 ^ 64)]

/-- The buffer after `scroll`, byte by byte. -/
theorem scroll_mem_apply (h : fb.Ok) {i : ℕ} (hi : i < fb.height * fb.pitch) :
    (scroll fb v).mem (fb.address + i) =
      if i < (fb.height - 16) * fb.pitch then v.mem (fb.address + 16 * fb.pitch + i) else 0 := by
  have hmem := fb.inMemory
  have hsplit := h.upper_add_last
  have hbelow : fb.address + 8 ≤ fb.address + 16 * fb.pitch := by
    have := h.width
    have := h.line
    omega
  obtain ⟨hupper, hlast⟩ := h.words
  rw [scroll_eq h, clearQwords_mem (by omega), ByteMem.clearWords_apply, hlast,
    moveQwords_mem (by omega) (by omega), ByteMem.copyWords_apply_of_below hbelow, hupper]
  by_cases hup : i < (fb.height - 16) * fb.pitch
  · have hclear : ¬ (fb.address + (fb.height - 16) * fb.pitch ≤ fb.address + i ∧
        fb.address + i < fb.address + (fb.height - 16) * fb.pitch + 16 * fb.pitch) := by omega
    have hmove : fb.address ≤ fb.address + i ∧
        fb.address + i < fb.address + (fb.height - 16) * fb.pitch := by omega
    rw [if_neg hclear, if_pos hmove, if_pos hup, Nat.add_sub_cancel_left]
  · have hclear : fb.address + (fb.height - 16) * fb.pitch ≤ fb.address + i ∧
        fb.address + i < fb.address + (fb.height - 16) * fb.pitch + 16 * fb.pitch := by omega
    rw [if_pos hclear, if_neg hup]

/-- Every line is the one 16 below it, and the last 16 are black. -/
theorem pixel_scroll (h : fb.Ok) (hx : x < fb.width) (hy : y < fb.height) :
    fb.pixel (scroll fb v) x y = if y + 16 < fb.height then fb.pixel v x (y + 16) else 0 := by
  have hend := Nat.mul_le_mul_right fb.pitch (Nat.succ_le_of_lt hy)
  rw [Nat.succ_mul] at hend
  by_cases hup : y + 16 < fb.height
  · have hline : (y + 1) * fb.pitch ≤ (fb.height - 16) * fb.pitch :=
      Nat.mul_le_mul_right _ (by omega)
    rw [Nat.succ_mul] at hline
    rw [if_pos hup]
    refine Raster.pixel_of_moved (fun i _ hi => ?_) (h.pixel_in_line hx)
    rw [scroll_mem_apply h (by omega), if_pos (by omega)]
  · have hline : (fb.height - 16) * fb.pitch ≤ y * fb.pitch :=
      Nat.mul_le_mul_right _ (by omega)
    rw [if_neg hup]
    refine Raster.pixel_of_zero (fun i hlo hi => ?_) (h.pixel_in_line hx)
    rw [scroll_mem_apply h (by omega), if_neg (by omega)]

theorem within_scroll (h : fb.Ok) (hv : v.Within fb.address fb.limit) :
    (scroll fb v).Within fb.address fb.limit := by
  have hmem := fb.inMemory
  have hsplit := h.upper_add_last
  obtain ⟨hupper, hlast⟩ := h.words
  have hlimit : fb.limit ≤ 2 ^ 64 := hmem.le
  rw [scroll_eq h]
  apply within_clearQwords hlimit (by omega)
  · unfold Framebuffer.limit
    omega
  · apply within_moveQwords hlimit le_rfl _ hv
    unfold Framebuffer.limit
    omega

/-- The words `console_clear` writes are the whole buffer. -/
theorem clear_words (h : fb.Ok) :
    8 * (u64 (fb.pixelsPerLine * fb.height) / 2) = fb.height * fb.pitch := by
  have hmem := fb.inMemory
  have hpixels : 4 * (fb.pixelsPerLine * fb.height) = fb.height * fb.pitch := by
    rw [← h.four_mul_pixelsPerLine]
    ring
  have hdvd : 8 ∣ fb.height * fb.pitch := h.pitch.mul_left _
  rw [u64_of_lt (by omega)]
  omega

theorem pixel_consoleClear (h : fb.Ok) {s : Console} (hs : s.fb = fb) (hx : x < fb.width)
    (hy : y < fb.height) : fb.pixel (consoleClear s).video x y = 0 := by
  subst hs
  have hmem := s.fb.inMemory
  have hwords := clear_words h
  have hend := Nat.mul_le_mul_right s.fb.pitch (Nat.succ_le_of_lt hy)
  rw [Nat.succ_mul] at hend
  refine Raster.pixel_of_zero (fun i _ hi => ?_) (h.pixel_in_line hx)
  have hin : s.fb.address ≤ s.fb.address + i ∧
      s.fb.address + i < s.fb.address + s.fb.height * s.fb.pitch := by omega
  rw [consoleClear, clearQwords_mem (by omega), ByteMem.clearWords_apply, hwords, if_pos hin]

theorem within_consoleClear (h : fb.Ok) {s : Console} (hs : s.fb = fb)
    (hv : s.video.Within fb.address fb.limit) :
    (consoleClear s).video.Within fb.address fb.limit := by
  subst hs
  have hwords := clear_words h
  apply within_clearQwords s.fb.inMemory.le le_rfl _ hv
  omega

end Pixels

end Orchid
