import Mathlib.Data.Nat.Bitwise
import Orchid.Device.Console

/-! # The console is a text terminal

What the console is for, without pixels: a grid of characters and a cursor.
`Terminal.putc` says what each character does to them, `Terminal.render` what
the screen looks like. The framebuffer driven by `console_putc` always shows
the terminal driven by the same characters (`console_shows_terminal`).

A scroll moves the whole buffer by 16 lines, so it drags the lines of the
bottom margin into the last text row. They are black, which is why that row
still comes out blank.
-/

namespace Orchid

/-- A grid of characters, by row and column, and a cursor. -/
structure Terminal where
  cell : ℕ → ℕ → UInt8
  x : ℕ
  y : ℕ

namespace Terminal

/-- All blank, with the cursor in the first place. -/
def blank : Terminal := ⟨fun _ _ => 32, 0, 0⟩

/-- The character at the cursor. -/
def set (c : UInt8) (t : Terminal) : Terminal :=
  { t with cell := fun row col => if row = t.y ∧ col = t.x then c else t.cell row col }

theorem set_cell (c : UInt8) (t : Terminal) (row col : ℕ) :
    (t.set c).cell row col = if row = t.y ∧ col = t.x then c else t.cell row col := rfl

variable (cols rows : ℕ)

/-- All rows go up by one, and the last is blank. -/
def scrollUp (t : Terminal) : Terminal :=
  { t with cell := fun row col => if row + 1 < rows then t.cell (row + 1) col else 32 }

theorem scrollUp_cell (t : Terminal) (row col : ℕ) :
    (t.scrollUp rows).cell row col = if row + 1 < rows then t.cell (row + 1) col else 32 := rfl

/-- To the start of the next row. -/
def newline (t : Terminal) : Terminal :=
  if t.y + 1 < rows then { t with x := 0, y := t.y + 1 } else { t.scrollUp rows with x := 0 }

/-- Print a character and go on to the next place. -/
def print (c : UInt8) (t : Terminal) : Terminal :=
  if t.x + 1 < cols then { t.set c with x := t.x + 1 } else (t.set c).newline rows

/-- One place back, to the end of the row above from the first column. -/
def back (t : Terminal) : Terminal :=
  if 0 < t.x then { t with x := t.x - 1 }
  else if 0 < t.y then { t with x := cols - 1, y := t.y - 1 }
  else t

/-- The effect of a character. -/
def putc (c : UInt8) (t : Terminal) : Terminal :=
  if c = 10 then t.newline rows
  else if c = 13 then { t with x := 0 }
  else if c = 9 then (((t.print cols rows 32).print cols rows 32).print cols rows 32).print cols rows 32
  else if c = 8 then (t.back cols).set 32
  else t.print cols rows c

def putcs (cs : List UInt8) (t : Terminal) : Terminal :=
  cs.foldl (fun t c => t.putc cols rows c) t

/-- The character that is shown for a byte: itself if it is printable, from the space to the
tilde, and otherwise a question mark. -/
def shown (c : UInt8) : ℕ :=
  if ' '.toNat ≤ c.toNat ∧ c.toNat ≤ '~'.toNat then c.toNat else '?'.toNat

/-- Whether the picture of a byte in the built-in font is white in a column and a row: the
bits of a row of the font are its columns, the highest one leftmost. -/
def ink (c : UInt8) (col row : ℕ) : Bool :=
  ((font.getD (shown c - ' '.toNat) []).getD row 0).testBit (7 - col)

/-- The screen: every cell shows its picture in white on black, and what is not
part of a cell is black. -/
def render (t : Terminal) (x y : ℕ) : ℕ :=
  if x < 8 * cols ∧ y < 16 * rows then
    if ink (t.cell (y / 16) (x / 8)) (x % 8) (y % 16) then 0xFFFFFF else 0x000000
  else 0x000000

end Terminal

/-! ## The framebuffer shows the terminal -/

namespace Framebuffer

/-- The character cells in a row. -/
def cols (fb : Framebuffer) : ℕ := fb.width / 8

/-- The rows of character cells. -/
def rows (fb : Framebuffer) : ℕ := fb.height / 16

end Framebuffer

/-- The console's state stands for the terminal's. -/
structure Shows (fb : Framebuffer) (s : Console) (t : Terminal) : Prop where
  fb_eq : s.fb = fb
  cursorX : s.cursorX = t.x
  cursorY : s.cursorY = t.y
  x_lt : t.x < fb.cols
  y_lt : t.y < fb.rows
  pixels : ∀ x < fb.width, ∀ y < fb.height, fb.pixel s.video x y = t.render fb.cols fb.rows x y
  within : s.video.Within fb.address fb.limit

/-- The row of the font that `draw_char` takes is that of the character shown. -/
theorem glyph_eq_font (c : UInt8) : glyph c = font.getD (Terminal.shown c - 32) [] := by
  have hprintable : (c < 32 ∨ 126 < c) ↔ ¬ (' '.toNat ≤ c.toNat ∧ c.toNat ≤ '~'.toNat) := by
    rw [UInt8.lt_iff_toNat_lt, UInt8.lt_iff_toNat_lt, not_and_or, Nat.not_le, Nat.not_le]
    rfl
  unfold glyph Terminal.shown
  by_cases hc : ' '.toNat ≤ c.toNat ∧ c.toNat ≤ '~'.toNat
  · rw [if_neg (fun h => hprintable.mp h hc), if_pos hc]
  · rw [if_pos (hprintable.mpr hc), if_neg hc]
    rfl

/-- The mask of `draw_char` picks the bit of the column. -/
theorem inkOf_eq_testBit {col : ℕ} (hcol : col < 8) (line fg bg : ℕ) :
    inkOf line col fg bg = if line.testBit (7 - col) then fg else bg := by
  have hmask : ∀ col < 8, 0x80 >>> col = 2 ^ (7 - col) := by decide
  rw [inkOf, hmask col hcol, Nat.and_two_pow]
  cases line.testBit (7 - col) <;> simp

/-- So `draw_char` draws the picture of the character. -/
theorem inkOf_glyph {col : ℕ} (hcol : col < 8) (c : UInt8) (row fg bg : ℕ) :
    inkOf ((glyph c).getD row 0) col fg bg = if Terminal.ink c col row then fg else bg := by
  rw [inkOf_eq_testBit hcol, glyph_eq_font]
  rfl

/-- A space is black. -/
theorem ink_space (col row : ℕ) : Terminal.ink 32 col row = false := by
  have hspace : font.getD (Terminal.shown 32 - ' '.toNat) [] = List.replicate 16 0 := by rfl
  have hline : (List.replicate 16 0).getD row 0 = 0 := by
    rw [List.getD_eq_getElem?_getD, List.getElem?_replicate]
    split <;> rfl
  rw [Terminal.ink, hspace, hline, Nat.zero_testBit]

section Steps

variable {fb : Framebuffer} {s : Console} {t : Terminal}

/-- Drawing at the cursor sets the cell there. -/
theorem Shows.draw (hok : fb.Ok) (h : Shows fb s t) (c : UInt8) :
    Shows fb (drawAtCursor c s) (t.set c) := by
  have hx := h.x_lt
  have hy := h.y_lt
  have hw := hok.width_lt
  have hh := hok.height_lt
  unfold Framebuffer.cols at hx
  unfold Framebuffer.rows at hy
  have hpx : u64 (s.cursorX * fontWidth) = 8 * t.x := by
    rw [h.cursorX, fontWidth, u64_of_lt (by omega), Nat.mul_comm]
  have hpy : u64 (s.cursorY * fontHeight) = 16 * t.y := by
    rw [h.cursorY, fontHeight, u64_of_lt (by omega), Nat.mul_comm]
  have hvideo : (drawAtCursor c s).video =
      drawRows fb (glyph c) (8 * t.x) (16 * t.y) 0xFFFFFF 0x000000 16 s.video := by
    simp only [drawAtCursor, drawChar, hpx, hpy, h.fb_eq]
    rfl
  refine ⟨h.fb_eq, h.cursorX, h.cursorY, h.x_lt, h.y_lt, ?_, ?_⟩
  · intro x' hx' y' hy'
    have hold := h.pixels x' hx' y' hy'
    rw [hvideo, pixel_drawRows hok (by omega) (by omega) (by omega) (by omega) hx', hold]
    unfold Terminal.render Framebuffer.cols Framebuffer.rows
    rw [Terminal.set_cell]
    by_cases hin : (16 * t.y ≤ y' ∧ y' < 16 * t.y + 16) ∧ 8 * t.x ≤ x' ∧ x' < 8 * t.x + 8
    · -- a pixel of the cell
      have hcell : y' / 16 = t.y ∧ x' / 8 = t.x := by omega
      have hgrid : x' < 8 * (fb.width / 8) ∧ y' < 16 * (fb.height / 16) := by omega
      have hrow : y' - 16 * t.y = y' % 16 := by omega
      have hcol : x' - 8 * t.x = x' % 8 := by omega
      rw [if_pos hin, if_pos hgrid, if_pos hcell, hrow, hcol,
        inkOf_glyph (Nat.mod_lt x' (by decide))]
    · have hcell : ¬ (y' / 16 = t.y ∧ x' / 8 = t.x) := by omega
      rw [if_neg hin, if_neg hcell]
  · rw [hvideo]
    exact within_drawRows hok (by omega) (by omega) h.within

/-- A cursor on a text row stays. -/
theorem scrollAtBottom_of_lt (hok : fb.Ok) (hfb : s.fb = fb) (hy : s.cursorY < fb.rows) :
    scrollAtBottom s = s := by
  have hh := hok.height_lt
  unfold Framebuffer.rows at hy
  have hrow : u64 (s.cursorY * fontHeight) = s.cursorY * 16 := u64_of_lt (by
    rw [fontHeight]
    omega)
  have hon : ¬ u64 (u64 (s.cursorY * fontHeight) + fontHeight) > s.fb.height := by
    rw [hrow, hfb, fontHeight, u64_of_lt (by omega)]
    omega
  rw [scrollAtBottom, if_neg hon]

/-- The row below the last: the screen scrolls. -/
theorem scrollAtBottom_of_eq (hok : fb.Ok) (hfb : s.fb = fb) (hy : s.cursorY = fb.rows) :
    scrollAtBottom s = { s with cursorY := fb.rows - 1, video := scroll fb s.video } := by
  have hh := hok.height_lt
  have hheight := hok.height
  unfold Framebuffer.rows at hy ⊢
  have hrow : u64 (s.cursorY * fontHeight) = s.cursorY * 16 := u64_of_lt (by
    rw [fontHeight]
    omega)
  have hoff : u64 (u64 (s.cursorY * fontHeight) + fontHeight) > s.fb.height := by
    rw [hrow, hfb, fontHeight, u64_of_lt (by omega)]
    omega
  rw [scrollAtBottom, if_pos hoff, u64_sub (by omega) (by omega), hfb, hy]

/-- A scroll of the buffer is a scroll of the rows: the bottom margin that
comes with it is black. -/
theorem render_scrollUp (hok : fb.Ok) (h : Shows fb s t) {x y : ℕ} (hx : x < fb.width)
    (hy : y < fb.height) :
    fb.pixel (scroll fb s.video) x y = (t.scrollUp fb.rows).render fb.cols fb.rows x y := by
  rw [pixel_scroll hok hx hy]
  by_cases hup : y + 16 < fb.height
  · rw [if_pos hup, h.pixels x hx (y + 16) hup]
    unfold Terminal.render
    rw [Terminal.scrollUp_cell]
    by_cases hgrid : x < 8 * fb.cols ∧ y + 16 < 16 * fb.rows
    · have hgrid' : x < 8 * fb.cols ∧ y < 16 * fb.rows := by omega
      have hrow : y / 16 + 1 < fb.rows := by omega
      rw [if_pos hgrid, if_pos hgrid', if_pos hrow, Nat.add_div_right y (by omega),
        Nat.add_mod_right]
    · rw [if_neg hgrid]
      by_cases hgrid' : x < 8 * fb.cols ∧ y < 16 * fb.rows
      · have hrow : ¬ y / 16 + 1 < fb.rows := by omega
        rw [if_pos hgrid', if_neg hrow, ink_space]
        rfl
      · rw [if_neg hgrid']
  · rw [if_neg hup]
    unfold Terminal.render
    rw [Terminal.scrollUp_cell]
    by_cases hgrid : x < 8 * fb.cols ∧ y < 16 * fb.rows
    · have hrow : ¬ y / 16 + 1 < fb.rows := by
        unfold Framebuffer.rows
        omega
      rw [if_pos hgrid, if_neg hrow, ink_space]
      rfl
    · rw [if_neg hgrid]

/-- The cursor at the start of the next row. -/
theorem Shows.newline (hok : fb.Ok) (h : Shows fb s t) :
    Shows fb (scrollAtBottom { s with cursorX := 0, cursorY := u64 (s.cursorY + 1) })
      (t.newline fb.rows) := by
  have hcols : 0 < fb.cols := by
    have := h.x_lt
    omega
  have hy := h.y_lt
  have hnext : u64 (s.cursorY + 1) = t.y + 1 := by
    have := hok.height_lt
    rw [h.cursorY]
    unfold Framebuffer.rows at hy
    exact u64_of_lt (by omega)
  rw [hnext]
  by_cases hlast : t.y + 1 < fb.rows
  · have hkeep := scrollAtBottom_of_lt (s := { s with cursorX := 0, cursorY := t.y + 1 }) hok
      h.fb_eq hlast
    rw [hkeep, Terminal.newline, if_pos hlast]
    exact ⟨h.fb_eq, rfl, rfl, hcols, hlast, h.pixels, h.within⟩
  · -- on the last row: the buffer moves, the cursor stays
    have hbelow : t.y + 1 = fb.rows := by omega
    have hscroll := scrollAtBottom_of_eq (s := { s with cursorX := 0, cursorY := t.y + 1 }) hok
      h.fb_eq hbelow
    rw [hscroll, Terminal.newline, if_neg hlast]
    refine ⟨h.fb_eq, rfl, ?_, hcols, hy, ?_, within_scroll hok h.within⟩
    · exact (Nat.eq_sub_of_add_eq hbelow).symm
    · intro x hx y hy'
      exact render_scrollUp hok h hx hy'

theorem Shows.print (hok : fb.Ok) (h : Shows fb s t) (c : UInt8) :
    Shows fb (putPlain c s) (t.print fb.cols fb.rows c) := by
  obtain rfl := h.fb_eq
  have hdraw := h.draw hok c
  have hx := h.x_lt
  have hw := hok.width_lt
  unfold Framebuffer.cols at hx
  -- the drawn state has the old cursor and the same screen
  have hfb : (drawAtCursor c s).fb = s.fb := rfl
  have hnext : u64 ((drawAtCursor c s).cursorX + 1) = t.x + 1 := by
    rw [hdraw.cursorX]
    exact u64_of_lt (by
      have : (t.set c).x = t.x := rfl
      omega)
  have hright : u64 (u64 ((t.x + 1) * fontWidth) + fontWidth) = (t.x + 1) * 8 + 8 := by
    rw [fontWidth, u64_of_lt (by omega : (t.x + 1) * 8 < 2 ^ 64), u64_of_lt (by omega)]
  unfold putPlain advanceCursor
  simp only [hnext, hright]
  by_cases hfits : t.x + 1 < s.fb.cols
  · have hon : ¬ (t.x + 1) * 8 + 8 > (drawAtCursor c s).fb.width := by
      rw [hfb]
      unfold Framebuffer.cols at hfits
      omega
    have hrow : (drawAtCursor c s).cursorY < s.fb.rows := by
      rw [hdraw.cursorY]
      exact hdraw.y_lt
    have hkeep := scrollAtBottom_of_lt (s := { drawAtCursor c s with cursorX := t.x + 1 }) hok
      hdraw.fb_eq hrow
    rw [if_neg hon, hkeep, Terminal.print, if_pos hfits]
    exact ⟨hdraw.fb_eq, rfl, hdraw.cursorY, hfits, hdraw.y_lt, hdraw.pixels, hdraw.within⟩
  · have hoff : (t.x + 1) * 8 + 8 > (drawAtCursor c s).fb.width := by
      rw [hfb]
      unfold Framebuffer.cols at hfits
      omega
    rw [if_pos hoff, Terminal.print, if_neg hfits]
    exact hdraw.newline hok

/-- The cursor one place back. -/
theorem Shows.back (hok : fb.Ok) (h : Shows fb s t) :
    Shows fb (cursorBack s) (t.back fb.cols) := by
  obtain rfl := h.fb_eq
  have hx := h.x_lt
  have hy := h.y_lt
  have hw := hok.width_lt
  have hh := hok.height_lt
  unfold cursorBack Terminal.back
  rw [h.cursorX, h.cursorY]
  by_cases hcol : 0 < t.x
  · rw [if_pos hcol, if_pos hcol]
    refine ⟨rfl, ?_, rfl, ?_, hy, h.pixels, h.within⟩
    · unfold Framebuffer.cols at hx
      exact u64_sub hcol (by omega)
    · exact lt_of_le_of_lt (Nat.sub_le _ _) hx
  · rw [if_neg hcol, if_neg hcol]
    by_cases hrow : 0 < t.y
    · rw [if_pos hrow, if_pos hrow]
      have hwidth := hok.width
      refine ⟨rfl, ?_, ?_, ?_, ?_, h.pixels, h.within⟩
      · unfold Framebuffer.cols
        exact u64_sub (by rw [fontWidth]; omega) (by rw [fontWidth]; omega)
      · unfold Framebuffer.rows at hy
        exact u64_sub hrow (by omega)
      · exact Nat.sub_lt (lt_of_le_of_lt (Nat.zero_le _) hx) Nat.one_pos
      · exact lt_of_le_of_lt (Nat.sub_le _ _) hy
    · rw [if_neg hrow, if_neg hrow]
      exact h

/-- One character. -/
theorem Shows.putc (hok : fb.Ok) (h : Shows fb s t) (c : UInt8) :
    Shows fb (consolePutc c s) (t.putc fb.cols fb.rows c) := by
  unfold consolePutc Terminal.putc
  by_cases hnl : c = 10
  · rw [if_pos hnl, if_pos hnl]
    exact h.newline hok
  rw [if_neg hnl, if_neg hnl]
  by_cases hcr : c = 13
  · rw [if_pos hcr, if_pos hcr]
    exact ⟨h.fb_eq, rfl, h.cursorY, lt_of_le_of_lt (Nat.zero_le _) h.x_lt, h.y_lt, h.pixels,
      h.within⟩
  rw [if_neg hcr, if_neg hcr]
  by_cases htab : c = 9
  · rw [if_pos htab, if_pos htab]
    exact (((h.print hok 32).print hok 32).print hok 32).print hok 32
  rw [if_neg htab, if_neg htab]
  by_cases hbs : c = 8
  · rw [if_pos hbs, if_pos hbs]
    exact (h.back hok).draw hok 32
  · rw [if_neg hbs, if_neg hbs]
    exact h.print hok c

theorem Shows.putcs (hok : fb.Ok) (h : Shows fb s t) (cs : List UInt8) :
    Shows fb (consolePutcs cs s) (t.putcs fb.cols fb.rows cs) := by
  induction cs generalizing s t with
  | nil => exact h
  | cons c cs ih => exact ih (h.putc hok c)

/-- A cleared buffer shows the blank terminal. -/
theorem shows_consoleInit (hok : fb.Ok) (mem : ByteMem) :
    Shows fb (consoleInit fb ⟨mem, []⟩) .blank := by
  have hwidth := hok.width
  have hheight := hok.height
  refine ⟨rfl, rfl, rfl, ?_, ?_, ?_, ?_⟩
  · exact Nat.div_pos hwidth (by omega)
  · exact Nat.div_pos hheight (by omega)
  · intro x hx y hy
    rw [consoleInit, pixel_consoleClear hok rfl hx hy]
    unfold Terminal.render Terminal.blank
    simp only [ink_space]
    split <;> rfl
  · apply within_consoleClear hok rfl
    intro w hw
    cases hw

end Steps

/-- After `console_init` and any characters, from any contents of memory: the
visible pixels are the rendering of the terminal the same characters were
given to, black outside its cells; the cursors agree and are inside the grid;
and every store ever made was inside the buffer. -/
theorem console_shows_terminal (fb : Framebuffer) (hok : fb.Ok) (mem : ByteMem)
    (cs : List UInt8) :
    let s := consolePutcs cs (consoleInit fb ⟨mem, []⟩)
    let t := Terminal.blank.putcs (fb.width / 8) (fb.height / 16) cs
    (∀ x < fb.width, ∀ y < fb.height,
        fb.pixel s.video x y = t.render (fb.width / 8) (fb.height / 16) x y) ∧
      (s.cursorX = t.x ∧ s.cursorY = t.y) ∧
      (s.cursorX < fb.width / 8 ∧ s.cursorY < fb.height / 16) ∧
      ∀ w ∈ s.video.stores,
        fb.address ≤ w.1 ∧ w.1 + w.2 ≤ fb.address + fb.pitch * fb.height := by
  intro s t
  have h : Shows fb s t := (shows_consoleInit hok mem).putcs hok cs
  refine ⟨h.pixels, ⟨h.cursorX, h.cursorY⟩, ⟨?_, ?_⟩, ?_⟩
  · rw [h.cursorX]
    exact h.x_lt
  · rw [h.cursorY]
    exact h.y_lt
  · intro w hw
    rw [Nat.mul_comm fb.pitch]
    exact h.within w hw

/-- A screen of two cells with a margin at the right and at the bottom. -/
def tinyFramebuffer : Framebuffer := ⟨0, 17, 17, 72, by decide⟩

/-- An A, which scrolls away, and a byte that is not printable: the screen shows a question
mark, with the first bit of its arc in the third line. -/
theorem console_shows_terminal_tiny :
    let s := consolePutcs [65, 10, 200] (consoleInit tinyFramebuffer ⟨fun _ => 7, []⟩)
    (∀ x < 17, ∀ y < 17, tinyFramebuffer.pixel s.video x y =
        (Terminal.blank.putcs 2 1 [65, 10, 200]).render 2 1 x y) ∧
      tinyFramebuffer.pixel s.video 1 2 = 0xFFFFFF ∧ tinyFramebuffer.pixel s.video 0 2 = 0 ∧
      (s.cursorX < 2 ∧ s.cursorY < 1) := by
  have h := console_shows_terminal tinyFramebuffer ⟨by decide, by decide, by decide, by decide⟩
    (fun _ => 7) [65, 10, 200]
  refine ⟨h.1, ?_, ?_, h.2.2.1⟩
  · exact (h.1 1 (by decide) 2 (by decide)).trans (by decide)
  · exact (h.1 0 (by decide) 2 (by decide)).trans (by decide)

end Orchid
