import Mathlib.Data.BitVec
import Mathlib.Data.List.GetD
import CfuPlayground.Lib.Digits
import CfuPlayground.Lib.Stores

/-!
# The frame buffer routines

`fb_util.c` draws by storing words at `FB_BASE_ADDR`. A routine is the list of its stores, in
order; pointers count words and wrap with the address space of 32 bits. A pixel of the screen has
an address of its own (`pixel_inj`), and no word outside the buffer is a pixel
(`word_eq_pixel_iff`).
-/

namespace CfuPlayground.Framebuffer

open Lib

/-! ## Memory -/

/-- The address of a word. -/
abbrev Address := BitVec 30

/-- A store of a word. -/
abbrev Store := Address × BitVec 32

instance instNontrivialWord : Nontrivial (BitVec 32) := ⟨0, 1, by decide⟩

/-- `FB_WIDTH`, `FB_HEIGHT` and `FB_BASE_ADDR`. The buffer leaves room for other words. -/
structure Screen where
  width : ℕ
  height : ℕ
  base : Address
  width_pos : 0 < width
  height_pos : 0 < height
  area_lt : width * height < 2 ^ 30

/-- A screen of 640 by 480 pixels. -/
def vga : Screen := ⟨640, 480, 0, by decide, by decide, by decide⟩

variable (s : Screen)

/-- `FB_WIDTH` in an expression of type `uint32_t`. -/
def Screen.fbWidth : BitVec 32 := BitVec.ofNat 32 s.width

/-- `FB_HEIGHT` in an expression of type `uint32_t`. -/
def Screen.fbHeight : BitVec 32 := BitVec.ofNat 32 s.height

/-- A pointer to words plus an offset. -/
def advance (p : Address) (n : BitVec 32) : Address := p + n.setWidth 30

/-- The word at index `n` from the start of the buffer. -/
def Screen.word (n : ℕ) : Address := s.base + BitVec.ofNat 30 n

/-- The word of a pixel. -/
def Screen.pixel (row column : ℕ) : Address := s.word (row * s.width + column)

/-- The words of the frame buffer. -/
def Screen.frame : Set Address :=
  {a | ∃ row < s.height, ∃ column < s.width, a = s.pixel row column}

/-! ## Rectangles -/

/-- `(pos + size) > limit ? (limit - pos) : size`. -/
def clip (pos size limit : BitVec 32) : BitVec 32 :=
  if pos + size > limit then limit - pos else size

/-- `bar_line[i] = color`; none outside the array. -/
def setBar (barLine : List (BitVec 32)) (i : ℕ) (color : BitVec 32) : Option (List (BitVec 32)) :=
  if i < barLine.length then some (barLine.set i color) else none

/-- `memcpy` of `n` bytes between words. -/
def memcpy (dst : Address) (src : List (BitVec 32)) (n : BitVec 32) : List Store :=
  (List.range (n.toNat / 4)).map fun j => (dst + BitVec.ofNat 30 j, src.getD j 0)

/-- `fb_fill_rect`; none if it writes outside `bar_line`. -/
def fbFillRect (left top width height color : BitVec 32) : Option (List Store) := do
  let width := clip left width s.fbWidth
  let height := clip top height s.fbHeight
  let barLine ← (List.range width.toNat).foldlM (fun bar i => setBar bar i color)
    (List.replicate s.width 0)
  let fb32Ptr := advance s.base (top * s.fbWidth + left)
  some ((List.range height.toNat).flatMap fun i =>
    memcpy (fb32Ptr + BitVec.ofNat 30 (i * s.width)) barLine (width * 4))

/-- `fb_draw_rect`. -/
def fbDrawRect (left top width height color : BitVec 32) : List Store :=
  let width := clip left width s.fbWidth
  let height := clip top height s.fbHeight
  let ptr0 := advance s.base (top * s.fbWidth + left)
  let ptr1 := advance ptr0 width
  let sides := (List.range height.toNat).flatMap fun i =>
    [(ptr0 + BitVec.ofNat 30 (i * s.width), color), (ptr1 + BitVec.ofNat 30 (i * s.width), color)]
  let ptr1 := advance s.base ((top + height - 1) * s.fbWidth + left)
  let rows := (List.range width.toNat).flatMap fun i =>
    [(ptr0 + BitVec.ofNat 30 i, color), (ptr1 + BitVec.ofNat 30 i, color)]
  sides ++ rows

/-! ## Lines -/

/-- The value of an `int32_t`, as the machine wraps it. -/
def int32 (z : ℤ) : ℤ := z.bmod (2 ^ 32)

/-- The variables of the loop along a line that is not upright or level. -/
structure LineState where
  x : ℤ
  y : ℤ
  d : ℤ

/-- A round of the loop. -/
def LineState.next (dx dy : ℤ) (st : LineState) : LineState :=
  let xIncrement := int32 (2 * dy)
  let yIncrement := int32 (2 * (dy - dx))
  if st.d ≤ 0 then ⟨int32 (st.x + 1), st.y, int32 (st.d + xIncrement)⟩
  else ⟨int32 (st.x + 1), int32 (st.y + 1), int32 (st.d + yIncrement)⟩

/-- `fb_offset` in a round, for the end points as the swaps leave them. -/
def lineOffset (flip : Bool) (y0 y1 : BitVec 32) (st : LineState) : BitVec 32 :=
  if flip then (y0 + y1 - BitVec.ofInt 32 st.y) * s.fbWidth + BitVec.ofInt 32 st.x
  else BitVec.ofInt 32 (st.y * s.width + st.x)

/-- The loop along the line. -/
def slopeLoop (fuel : ℕ) (flip : Bool) (x0 y0 x1 y1 color : BitVec 32) : Option (List Store) :=
  let dx := (x1 - x0).toInt
  let dy := (y1 - y0).toInt
  emitWhile (fun st => decide (st.x ≤ x1.toInt))
    (fun st => (advance s.base (lineOffset s flip y0 y1 st), color)) (LineState.next dx dy) fuel
    ⟨x0.toInt, y0.toInt, int32 (2 * dy - dx)⟩

/-- The second swap: the row of the first end point is the smaller one. -/
def flipCase (fuel : ℕ) (x0 y0 x1 y1 color : BitVec 32) : Option (List Store) :=
  if y1 < y0 then slopeLoop s fuel true x0 y1 x1 y0 color
  else slopeLoop s fuel false x0 y0 x1 y1 color

/-- The first swap: the first end point is the left one. -/
def otherCase (fuel : ℕ) (x0 y0 x1 y1 color : BitVec 32) : Option (List Store) :=
  if x1 < x0 then flipCase s fuel x1 y1 x0 y0 color else flipCase s fuel x0 y0 x1 y1 color

/-- `fb_draw_line`, whose argument `width` is never read; none if the fuel does not suffice. -/
def fbDrawLine (fuel : ℕ) (x0 y0 x1 y1 color : BitVec 32) : Option (List Store) :=
  let dx := (x1 - x0).toInt
  let dy := (y1 - y0).toInt
  if dx = 0 ∧ dy = 0 then some [(advance s.base (y0 * s.fbWidth + x0), color)]
  else if dx = 0 then
    let start := if y0 < y1 then y0 else y1
    let stop := if y0 < y1 then y1 else y0
    emitWhile (fun st => decide (st.1 ≤ stop)) (fun st => (advance s.base st.2, color))
      (fun st => (st.1 + 1, st.2 + s.fbWidth)) fuel (start, start * s.fbWidth + x0)
  else if dy = 0 then
    let start := if x0 < x1 then x0 else x1
    let stop := if x0 < x1 then x1 else x0
    emitWhile (fun i => decide (i ≤ stop))
      (fun i => (advance (advance s.base (y0 * s.fbWidth)) i, color)) (· + 1) fuel start
  else otherCase s fuel x0 y0 x1 y1 color

/-! ## Text -/

/-- The table `BigFont`: a header of four bytes, of which the first two are the width and the
height of a character, and the rows of the characters. -/
structure BigFont where
  byte : ℤ → BitVec 8
  width_eq : byte 0 = 16
  height_eq : byte 1 = 16

/-- The characters of `BigFont`: a number holds the 32 bytes of a character. -/
def bigFontCharacters : List ℕ := [
  0x0000000000000000000000000000000000000000000000000000000000000000,
  0x0000000007000F800F800F800F800F8007000700000000000700070007000000,
  0x00000E380E380E380E3806300000000000000000000000000000000000000000,
  0x00000C300C300C307FFE7FFE0C300C300C300C307FFE7FFE0C300C300C300000,
  0x0000024002400FF81FF81A401A401FF00FF8025802581FF81FF0024002400000,
  0x0000000000000E100E300E7000E001C0038007000E700C700870000000000000,
  0x000000000F001980198019800F000F080F9819F818F018E019F00F9800000000,
  0x000000000700070007000E000000000000000000000000000000000000000000,
  0x0000000000F001C0038007000E000E000E000E000700038001C000F000000000,
  0x000000000F00038001C000E0007000700070007000E001C003800F0000000000,
  0x0000000001801188099007E007E03FFC3FFC07E007E009901188018000000000,
  0x00000000000000000180018001800FF00FF00180018001800000000000000000,
  0x000000000000000000000000000000000000000000000700070007000E000000,
  0x00000000000000000000000000001FF81FF80000000000000000000000000000,
  0x0000000000000000000000000000000000000000000007000700070000000000,
  0x0000000000020006000E001C0038007000E001C0038007000E001C0000000000,
  0x000000000FF01C381C781CF81CF81DB81DB81F381F381E381C380FF000000000,
  0x000000000180018003801F801F800380038003800380038003801FF000000000,
  0x000000000FE01C701C380038007000E001C0038007000E381C381FF800000000,
  0x000000000FE01C701C380038007003C003C0007000381C381C700FE000000000,
  0x0000000000E001E003E006E00CE018E01FF81FF800E000E000E003F800000000,
  0x000000001FF81C001C001C001C001FE01FF0007800381C381C700FE000000000,
  0x0000000003E007000E001C001C001FF01FF81C381C381C381C380FF000000000,
  0x000000001FFC1C1C1C1C1C1C001C0038007000E001C003800380038000000000,
  0x000000000FF01C381C381C381F3807E007E01CF81C381C381C380FF000000000,
  0x000000000FF01C381C381C381C381FF80FF800380038007000E007C000000000,
  0x0000000000000000038003800380000000000380038003800000000000000000,
  0x0000000000000000038003800380000000000380038003800700000000000000,
  0x0000007000E001C0038007000E001C001C000E000700038001C000E000700000,
  0x000000000000000000003FFC3FFC000000003FFC3FFC00000000000000000000,
  0x00001C000E000700038001C000E00070007000E001C0038007000E001C000000,
  0x000003C00FF01E7818380038007000E001C001C00000000001C001C001C00000,
  0x00000FF81C1C1C1C1C1C1C1C1CFC1CFC1CFC1CFC1C001C001C001FF007F80000,
  0x0000000003C007E00E701C381C381C381C381FF81C381C381C381C3800000000,
  0x000000001FF00E380E380E380E380FF00FF00E380E380E380E381FF000000000,
  0x0000000007F00E381C381C001C001C001C001C001C001C380E3807F000000000,
  0x000000001FE00E700E380E380E380E380E380E380E380E380E701FE000000000,
  0x000000001FF80E180E080E000E300FF00FF00E300E000E080E181FF800000000,
  0x000000001FF80E180E080E000E300FF00FF00E300E000E000E001F0000000000,
  0x0000000007F00E381C381C381C001C001C001CF81C381C380E3807F800000000,
  0x000000001C701C701C701C701C701FF01FF01C701C701C701C701C7000000000,
  0x000000000FE003800380038003800380038003800380038003800FE000000000,
  0x0000000001FC00700070007000700070007038703870387038700FE000000000,
  0x000000001E380E380E700EE00FC00F800F800FC00EE00E700E381E3800000000,
  0x000000001F000E000E000E000E000E000E000E000E080E180E381FF800000000,
  0x000000001C1C1E3C1F7C1FFC1FFC1DDC1C9C1C1C1C1C1C1C1C1C1C1C00000000,
  0x000000001C1C1C1C1E1C1F1C1F9C1DDC1CFC1C7C1C3C1C1C1C1C1C1C00000000,
  0x0000000003E007F00E381C1C1C1C1C1C1C1C1C1C1C1C0E3807F003E000000000,
  0x000000001FF00E380E380E380E380FF00FF00E000E000E000E001F0000000000,
  0x0000000003E00F780E381C1C1C1C1C1C1C1C1C7C1CFC0FF80FF8003800FC0000,
  0x000000001FF00E380E380E380E380FF00FF00E700E380E380E381E3800000000,
  0x000000000FF01C381C381C381C000FE007F000381C381C381C380FF000000000,
  0x000000001FFC19CC11C401C001C001C001C001C001C001C001C007F000000000,
  0x000000001C701C701C701C701C701C701C701C701C701C701C700FE000000000,
  0x000000001C701C701C701C701C701C701C701C701C700EE007C0038000000000,
  0x000000001C1C1C1C1C1C1C1C1C1C1C9C1C9C1C9C0FF80FF80770077000000000,
  0x000000001C701C701C700EE007C00380038007C00EE01C701C701C7000000000,
  0x000000001C701C701C701C701C700EE007C003800380038003800FE000000000,
  0x000000001FF81C381838107000E001C0038007000E081C181C381FF800000000,
  0x0000000007F0070007000700070007000700070007000700070007F000000000,
  0x00000000100018001C000E000700038001C000E000700038001C000700000000,
  0x0000000007F0007000700070007000700070007000700070007007F000000000,
  0x0000018003C007E00E701C380000000000000000000000000000000000000000,
  0x000000000000000000000000000000000000000000000000000000007FFF7FFF,
  0x000000001C001C00070007000000000000000000000000000000000000000000,
  0x0000000000000000000000000FE0007000700FF01C701C701C700FD800000000,
  0x000000001E000E000E000E000FF00E380E380E380E380E380E381BF000000000,
  0x0000000000000000000000000FE01C701C701C001C001C701C700FE000000000,
  0x0000000000F80070007000700FF01C701C701C701C701C701C700FD800000000,
  0x0000000000000000000000000FE01C701C701FF01C001C701C700FE000000000,
  0x0000000003E007700770070007001FE01FE007000700070007001FC000000000,
  0x0000000000000000000000000FD81C701C701C701C700FF007F000701C700FE0,
  0x000000001E000E000E000E000EF00F380F380E380E380E380E381E3800000000,
  0x0000000001C001C001C000000FC001C001C001C001C001C001C00FF800000000,
  0x00000000007000700070000003F00070007000700070007000701C700CF007E0,
  0x000000001E000E000E000E000E380E700EE00FC00EE00E700E381E3800000000,
  0x000000000FC001C001C001C001C001C001C001C001C001C001C00FF800000000,
  0x0000000000000000000000001FF81C9C1C9C1C9C1C9C1C9C1C9C1C9C00000000,
  0x0000000000000000000000001FE01C701C701C701C701C701C701C7000000000,
  0x0000000000000000000000000FE01C701C701C701C701C701C700FE000000000,
  0x0000000000000000000000001BF00E380E380E380E380E380FF00E000E001F00,
  0x0000000000000000000000001FB038E038E038E038E038E01FE000E000E001F0,
  0x0000000000000000000000001EF00FF80F380E000E000E000E001F0000000000,
  0x0000000000000000000000000FE01C301C300F8003E0187018700FE000000000,
  0x0000000000000100030007001FF007000700070007000770077003E000000000,
  0x0000000000000000000000001C701C701C701C701C701C701C700FD800000000,
  0x0000000000000000000000001C701C701C701C701C700EE007C0038000000000,
  0x0000000000000000000000001C1C1C1C1C1C1C9C1C9C0FF80770077000000000,
  0x0000000000000000000000001CE01CE00FC0078007800FC01CE01CE000000000,
  0x0000000000000000000000000E380E380E380E380E3807F003E000E001C01F80,
  0x0000000000000000000000001FE018E011C0038007000E201C601FE000000000,
  0x0000000001F803800380038007001C001C00070003800380038001F800000000,
  0x000001C001C001C001C001C001C001C001C001C001C001C001C001C001C00000,
  0x000000001F8001C001C001C000E00038003800E001C001C001C01F8000000000,
  0x000000001F1C3B9C39DC38F80000000000000000000000000000000000000000]

/-- `BigFont[n]`. -/
def bigFontByte (n : ℤ) : BitVec 8 :=
  if n = 0 then 0x10 else if n = 1 then 0x10 else if n = 2 then 0x20 else if n = 3 then 0x5F
  else BitVec.ofNat 8
    (bigFontCharacters.getD ((n - 4) / 32).toNat 0 >>> (8 * (31 - (n - 4) % 32).toNat))

def bigFont : BigFont := ⟨bigFontByte, rfl, rfl⟩

/-- `f_basis[b].data[l]`, as `dotfont_init` sets it. -/
def basis (b : BitVec 8) (l : ℕ) : Char := if b.getLsbD (7 - l) then 'X' else '.'

/-- Dot `k` of the row at `font_data_ptr + i`: its two bytes are drawn one after the other. -/
def dot (font : BigFont) (fontDataPtr : ℤ) (i k : ℕ) : Char :=
  if k < 8 then basis (font.byte (4 + fontDataPtr + i)) k
  else basis (font.byte (4 + fontDataPtr + i + 1)) (k - 8)

/-- The body of the loop over the string, for the character at `c_pos`. -/
def drawChar (font : BigFont) (x y color : BitVec 32) (cPos : ℕ) (currentChar : BitVec 8) :
    List Store :=
  let width : ℤ := s.width
  let height : ℤ := s.height
  let fontWidth := (font.byte 0).toNat
  let fontHeight := (font.byte 1).toNat
  let fontOffset := fontWidth / 8
  let fontYMin := y.toInt
  let fontYMax := if y.toInt + fontHeight > height then height - y.toInt else y.toInt + fontHeight
  let fontDataPtr := (currentChar.toInt - 32) * (fontHeight * fontOffset)
  let fontXMin := x + BitVec.ofNat 32 (cPos * fontWidth)
  (List.range (fontYMax - fontYMin).toNat).flatMap fun r =>
    (List.range 16).flatMap fun k =>
      if dot font fontDataPtr (2 * r) k = 'X' then
        [(advance (advance s.base (BitVec.ofInt 32 ((fontYMin + r) * width))) fontXMin +
          BitVec.ofNat 30 k, color)]
      else []

/-- `fb_draw_string`. -/
def fbDrawString (font : BigFont) (x y color : BitVec 32) (msgStr : List (BitVec 8)) :
    List Store :=
  (msgStr.takeWhile (· ≠ 0)).zipIdx.flatMap fun (c, cPos) => drawChar s font x y color cPos c

/-! ## Addresses -/

variable {s}

theorem word_eq_iff {n m : ℕ} : s.word n = s.word m ↔ n % 2 ^ 30 = m % 2 ^ 30 := by
  rw [Screen.word, Screen.word, BitVec.add_right_inj, ← BitVec.toNat_inj, BitVec.toNat_ofNat,
    BitVec.toNat_ofNat]

theorem word_add (n m : ℕ) : s.word n + BitVec.ofNat 30 m = s.word (n + m) := by
  rw [Screen.word, Screen.word, BitVec.add_assoc, BitVec.ofNat_add]

theorem advance_base (n : BitVec 32) : advance s.base n = s.word n.toNat := by
  rw [advance, Screen.word, BitVec.ofNat_toNat]

theorem advance_word (n : ℕ) (m : BitVec 32) : advance (s.word n) m = s.word (n + m.toNat) := by
  rw [← word_add, advance, BitVec.ofNat_toNat]

variable (s)

theorem width_lt : s.width < 2 ^ 30 :=
  (Nat.le_mul_of_pos_right _ s.height_pos).trans_lt s.area_lt

theorem height_lt : s.height < 2 ^ 30 :=
  (Nat.le_mul_of_pos_left _ s.width_pos).trans_lt s.area_lt

theorem index_lt {row column : ℕ} (hr : row < s.height) (hc : column < s.width) :
    row * s.width + column < s.width * s.height := by
  calc row * s.width + column < row * s.width + s.width := by omega
    _ = s.width * (row + 1) := by ring
    _ ≤ s.width * s.height := Nat.mul_le_mul_left _ hr

variable {s}

theorem word_eq_pixel_iff {n row column : ℕ} (hr : row < s.height) (hc : column < s.width) :
    s.word n = s.pixel row column ↔ n % 2 ^ 30 = row * s.width + column := by
  have hlt := (index_lt s hr hc).trans s.area_lt
  rw [Screen.pixel, word_eq_iff, Nat.mod_eq_of_lt hlt]

theorem pixel_inj {r c r' c' : ℕ} (hr : r < s.height) (hc : c < s.width) (hr' : r' < s.height)
    (hc' : c' < s.width) : s.pixel r c = s.pixel r' c' ↔ r = r' ∧ c = c' := by
  have hlt := (index_lt s hr hc).trans s.area_lt
  rw [← mul_add_inj hc hc', ← Nat.mod_eq_of_lt hlt]
  exact word_eq_pixel_iff hr' hc'

theorem fbWidth_toNat : s.fbWidth.toNat = s.width := by
  have hlt := width_lt s
  rw [Screen.fbWidth, BitVec.toNat_ofNat]
  omega

theorem fbHeight_toNat : s.fbHeight.toNat = s.height := by
  have hlt := height_lt s
  rw [Screen.fbHeight, BitVec.toNat_ofNat]
  omega

end CfuPlayground.Framebuffer
