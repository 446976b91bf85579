import Mathlib.Data.List.TakeWhile
import CfuPlayground.Framebuffer.Model

/-!
# Text

`fb_draw_string` never uses the limit `font_x_max` that it computes, so the characters go on beyond
the right edge, in the words of the next row. Its limit `font_y_max` for a string over the bottom
edge is a number of rows and not a row, so rows of the screen are left out. The text is drawn
exactly if this makes no difference (`drawsText_iff`).
-/

namespace CfuPlayground.Framebuffer

open Lib

variable {s : Screen} {font : BigFont} {x y color : BitVec 32} {msg : List (BitVec 8)}

/-! ## Characters -/

/-- Bit `(i, k)` of the glyph of a character: a row of 16 bits is two bytes. -/
def glyph (font : BigFont) (c : BitVec 8) (i k : ℕ) : Bool :=
  (font.byte (4 + ((c.toNat : ℤ) - 32) * 32 + (2 * i + k / 8 : ℕ))).getLsbD (7 - k % 8)

/-- The characters from the space to the tilde. -/
def Printable (c : BitVec 8) : Prop := 32 ≤ c.toNat ∧ c.toNat ≤ 126

theorem basis_eq_iff (b : BitVec 8) (l : ℕ) : basis b l = 'X' ↔ b.getLsbD (7 - l) = true := by
  rw [basis]
  split_ifs with h
  · exact iff_of_true rfl h
  · exact iff_of_false (by decide) h

theorem dot_eq_iff {c : BitVec 8} {i k : ℕ} (hc : Printable c) (hk : k < 16) :
    dot font ((c.toInt - 32) * 32) (2 * i) k = 'X' ↔ glyph font c i k = true := by
  have hint : c.toInt = c.toNat := BitVec.toInt_eq_toNat_of_lt (by have := hc.2; omega)
  rw [dot, glyph, hint]
  rcases Nat.lt_or_ge k 8 with hlt | hge
  · rw [if_pos hlt, basis_eq_iff, Nat.div_eq_of_lt hlt, Nat.mod_eq_of_lt hlt]
    rfl
  · have hdiv : k / 8 = 1 := by omega
    have hmod : k % 8 = k - 8 := by omega
    rw [if_neg (not_lt.mpr hge), basis_eq_iff, hdiv, hmod, Nat.cast_add, ← add_assoc]
    rfl

/-! ## The words that are written -/

/-- The number of rows between `font_y_min` and `font_y_max`. -/
def rowsDrawn (s : Screen) (y : BitVec 32) : ℕ :=
  if s.height < y.toNat + 16 then s.height - 2 * y.toNat else 16

/-- The index of a dot of character `p`. -/
def dotIndex (s : Screen) (x y : BitVec 32) (p i k : ℕ) : ℕ :=
  (y.toNat + i) * s.width + (x.toNat + 16 * p + k)

theorem advance_dot (hy : y.toNat < s.height) (p r k : ℕ) :
    advance (advance s.base (BitVec.ofInt 32 ((y.toInt + r) * s.width)))
      (x + BitVec.ofNat 32 (p * 16)) + BitVec.ofNat 30 k = s.word (dotIndex s x y p r k) := by
  have hheight := height_lt s
  have hrow : (y.toInt + r) * (s.width : ℤ) = ((y.toNat + r) * s.width : ℕ) := by
    rw [BitVec.toInt_eq_toNat_of_lt (by omega)]
    push_cast
    ring
  rw [hrow, BitVec.ofInt_natCast, advance_base, advance_word, word_add, word_eq_iff, dotIndex,
    BitVec.toNat_add, BitVec.toNat_ofNat, BitVec.toNat_ofNat]
  omega

theorem drawChar_eq {p : ℕ} {c : BitVec 8} (hc : Printable c) (hy : y.toNat < s.height) :
    drawChar s font x y color p c = (List.range (rowsDrawn s y)).flatMap fun r =>
      (List.range 16).flatMap fun k =>
        if glyph font c r k then [(s.word (dotIndex s x y p r k), color)] else [] := by
  have hheight := height_lt s
  have hint : y.toInt = y.toNat := BitVec.toInt_eq_toNat_of_lt (by omega)
  have hwidth : (font.byte 0).toNat = 16 := by rw [font.width_eq]; rfl
  have hfont : (font.byte 1).toNat = 16 := by rw [font.height_eq]; rfl
  have hrows : ((if y.toInt + (16 : ℕ) > s.height then (s.height : ℤ) - y.toInt
      else y.toInt + (16 : ℕ)) - y.toInt).toNat = rowsDrawn s y := by
    rw [hint, rowsDrawn]
    split_ifs
    · omega
    · omega
    · omega
    · omega
  have hptr : ((c.toInt - 32) * ((16 : ℕ) * (16 / 8 : ℕ)) : ℤ) = (c.toInt - 32) * 32 := by norm_num
  rw [drawChar]
  simp only [hwidth, hfont, hrows, hptr, advance_dot hy]
  apply List.flatMap_congr
  intro r _
  apply List.flatMap_congr
  intro k hk
  simp only [dot_eq_iff hc (List.mem_range.mp hk)]

/-- Bit `(i, k)` of the glyph of character `p` is set. -/
def Ink (font : BigFont) (msg : List (BitVec 8)) (p i k : ℕ) : Prop :=
  i < 16 ∧ k < 16 ∧ ∃ c, msg[p]? = some c ∧ glyph font c i k = true

theorem fbDrawString_eq (hmsg : ∀ c ∈ msg, Printable c) : fbDrawString s font x y color msg =
    msg.zipIdx.flatMap fun (c, p) => drawChar s font x y color p c := by
  have hall : msg.takeWhile (· ≠ 0) = msg := by
    rw [List.takeWhile_eq_self_iff]
    intro c hc
    have hne : c ≠ 0 := by
      rintro rfl
      exact absurd (hmsg 0 hc).1 (by decide)
    exact decide_eq_true hne
  rw [fbDrawString, hall]

theorem rowsDrawn_le (s : Screen) (y : BitVec 32) : rowsDrawn s y ≤ 16 := by
  rw [rowsDrawn]
  split_ifs
  · omega
  · exact le_rfl

theorem mem_fbDrawString {a : Address} (hy : y.toNat < s.height)
    (hmsg : ∀ c ∈ msg, Printable c) :
    a ∈ (fbDrawString s font x y color msg).map Prod.fst ↔
      ∃ p i k, Ink font msg p i k ∧ i < rowsDrawn s y ∧ a = s.word (dotIndex s x y p i k) := by
  rw [fbDrawString_eq hmsg, List.mem_map]
  constructor
  · rintro ⟨st, hst, rfl⟩
    obtain ⟨⟨c, p⟩, hcp, hst⟩ := List.mem_flatMap.mp hst
    have hget := List.mem_zipIdx_iff_getElem?.mp hcp
    dsimp only at hget hst
    rw [drawChar_eq (hmsg c (List.mem_of_getElem? hget)) hy] at hst
    obtain ⟨i, hi, hst⟩ := List.mem_flatMap.mp hst
    obtain ⟨k, hk, hst⟩ := List.mem_flatMap.mp hst
    have hi := List.mem_range.mp hi
    have hrows := rowsDrawn_le s y
    by_cases hglyph : glyph font c i k = true
    · rw [if_pos hglyph, List.mem_singleton] at hst
      exact ⟨p, i, k, ⟨by omega, List.mem_range.mp hk, c, hget, hglyph⟩, hi, by rw [hst]⟩
    · rw [if_neg hglyph] at hst
      cases hst
  · rintro ⟨p, i, k, ⟨-, hk, c, hget, hglyph⟩, hi, rfl⟩
    refine ⟨(s.word (dotIndex s x y p i k), color), ?_, rfl⟩
    refine List.mem_flatMap.mpr ⟨(c, p), List.mem_zipIdx_iff_getElem?.mpr hget, ?_⟩
    dsimp only
    rw [drawChar_eq (hmsg c (List.mem_of_getElem? hget)) hy]
    refine List.mem_flatMap.mpr ⟨i, List.mem_range.mpr hi, ?_⟩
    refine List.mem_flatMap.mpr ⟨k, List.mem_range.mpr hk, ?_⟩
    rw [if_pos hglyph]
    exact List.mem_singleton_self _

theorem fbDrawString_color (hy : y.toNat < s.height) (hmsg : ∀ c ∈ msg, Printable c) :
    ∀ st ∈ fbDrawString s font x y color msg, st.2 = color := by
  intro st hst
  rw [fbDrawString_eq hmsg] at hst
  obtain ⟨⟨c, p⟩, hcp, hst⟩ := List.mem_flatMap.mp hst
  have hget := List.mem_zipIdx_iff_getElem?.mp hcp
  dsimp only at hget hst
  rw [drawChar_eq (hmsg c (List.mem_of_getElem? hget)) hy] at hst
  obtain ⟨i, _, hst⟩ := List.mem_flatMap.mp hst
  obtain ⟨k, _, hst⟩ := List.mem_flatMap.mp hst
  by_cases hglyph : glyph font c i k = true
  · rw [if_pos hglyph, List.mem_singleton] at hst
    rw [hst]
  · rw [if_neg hglyph] at hst
    cases hst

/-! ## The text -/

/-- The pixels of the screen that are set bits of the string. -/
def text (s : Screen) (font : BigFont) (x y : BitVec 32) (msg : List (BitVec 8)) : Set Address :=
  {a | ∃ p i k, Ink font msg p i k ∧ (y.toNat + i < s.height ∧ x.toNat + 16 * p + k < s.width) ∧
    a = s.pixel (y.toNat + i) (x.toNat + 16 * p + k)}

/-- `fb_draw_string` writes to the pixels of the text only and paints them. -/
def DrawsText (s : Screen) (font : BigFont) (x y color : BitVec 32) (msg : List (BitVec 8)) :
    Prop :=
  (∀ st ∈ fbDrawString s font x y color msg, st.1 ∈ text s font x y msg) ∧
    Paints (fbDrawString s font x y color msg) color (text s font x y msg)

/-- The edges make no difference: a set bit beyond the right edge falls on the word of a set bit
that is on the screen, and a set bit that is on the screen, but in a row that is left out, is the
word of a bit that falls there. -/
def TextWhen (s : Screen) (font : BigFont) (x y : BitVec 32) (msg : List (BitVec 8)) : Prop :=
  (∀ p i k, Ink font msg p i k → i < rowsDrawn s y → s.width ≤ x.toNat + 16 * p + k →
    ∃ p' i' k', Ink font msg p' i' k' ∧
      (y.toNat + i' < s.height ∧ x.toNat + 16 * p' + k' < s.width) ∧
      dotIndex s x y p i k % 2 ^ 30 = dotIndex s x y p' i' k') ∧
  (∀ p i k, Ink font msg p i k → rowsDrawn s y ≤ i →
    (y.toNat + i < s.height ∧ x.toNat + 16 * p + k < s.width) →
    ∃ p' i' k', Ink font msg p' i' k' ∧ i' < rowsDrawn s y ∧
      s.width ≤ x.toNat + 16 * p' + k' ∧
      dotIndex s x y p' i' k' % 2 ^ 30 = dotIndex s x y p i k)

theorem row_lt {i : ℕ} (hi : i < rowsDrawn s y) :
    y.toNat + i < s.height := by
  rw [rowsDrawn] at hi
  split_ifs at hi
  · omega
  · omega

theorem drawsText_iff_words (hy : y.toNat < s.height) (hmsg : ∀ c ∈ msg, Printable c) :
    DrawsText s font x y color msg ↔ ∀ a, (∃ p i k, Ink font msg p i k ∧ i < rowsDrawn s y ∧
      a = s.word (dotIndex s x y p i k)) ↔ a ∈ text s font x y msg := by
  have hwords : ∀ a, a ∈ (fbDrawString s font x y color msg).map Prod.fst ↔ _ :=
    fun a => mem_fbDrawString hy hmsg
  rw [DrawsText, paints_iff (fbDrawString_color hy hmsg)]
  simp only [hwords]
  constructor
  · exact fun h => h.2
  · intro h
    refine ⟨fun st hst => ?_, h⟩
    exact (h st.1).mp ((hwords st.1).mp (List.mem_map_of_mem hst))

theorem DrawsText.textWhen (hy : y.toNat < s.height) (hmsg : ∀ c ∈ msg, Printable c)
    (h : DrawsText s font x y color msg) : TextWhen s font x y msg := by
  rw [drawsText_iff_words hy hmsg] at h
  constructor
  · intro p i k hink hi hbeyond
    obtain ⟨p', i', k', hink', hon, heq⟩ := (h _).mp ⟨p, i, k, hink, hi, rfl⟩
    refine ⟨p', i', k', hink', hon, ?_⟩
    rw [(word_eq_pixel_iff hon.1 hon.2).mp heq, dotIndex, add_assoc]
  · intro p i k hink hi hon
    obtain ⟨p', i', k', hink', hi', heq⟩ := (h _).mpr ⟨p, i, k, hink, hon, rfl⟩
    refine ⟨p', i', k', hink', hi', ?_, (word_eq_pixel_iff hon.1 hon.2).mp heq.symm⟩
    by_contra hlt
    have hpixel := (pixel_inj hon.1 hon.2 (row_lt hi') (not_le.mp hlt)).mp heq
    omega

theorem drawsText_of_textWhen (hy : y.toNat < s.height) (hmsg : ∀ c ∈ msg, Printable c)
    (h : TextWhen s font x y msg) : DrawsText s font x y color msg := by
  rw [drawsText_iff_words hy hmsg]
  obtain ⟨hbeyond, hbelow⟩ := h
  intro a
  constructor
  · rintro ⟨p, i, k, hink, hi, rfl⟩
    by_cases hlt : x.toNat + 16 * p + k < s.width
    · exact ⟨p, i, k, hink, ⟨row_lt hi, hlt⟩, rfl⟩
    · obtain ⟨p', i', k', hink', hon, heq⟩ := hbeyond p i k hink hi (not_lt.mp hlt)
      exact ⟨p', i', k', hink', hon, (word_eq_pixel_iff hon.1 hon.2).mpr heq⟩
  · rintro ⟨p, i, k, hink, hon, rfl⟩
    by_cases hi : i < rowsDrawn s y
    · exact ⟨p, i, k, hink, hi, rfl⟩
    · obtain ⟨p', i', k', hink', hi', -, heq⟩ := hbelow p i k hink (not_lt.mp hi) hon
      exact ⟨p', i', k', hink', hi', ((word_eq_pixel_iff hon.1 hon.2).mpr heq).symm⟩

/-- **When a text is drawn**: exactly if its edges make no difference. -/
theorem drawsText_iff (hy : y.toNat < s.height) (hmsg : ∀ c ∈ msg, Printable c) :
    DrawsText s font x y color msg ↔ TextWhen s font x y msg :=
  ⟨DrawsText.textWhen hy hmsg, drawsText_of_textWhen hy hmsg⟩

theorem textWhen_of_fits (hx : x.toNat + 16 * msg.length ≤ s.width)
    (hy : y.toNat + 16 ≤ s.height) : TextWhen s font x y msg := by
  have hrows : rowsDrawn s y = 16 := if_neg (by omega)
  constructor
  · rintro p i k ⟨-, hk, c, hget, -⟩ - hbeyond
    have hp := (List.getElem?_eq_some_iff.mp hget).1
    omega
  · rintro p i k ⟨hi, -⟩ hbelow -
    omega

/-- On a screen of 32 rows or more, a text over the bottom edge is not drawn at all. -/
theorem rowsDrawn_eq_zero (hheight : 32 ≤ s.height) (hy : s.height < y.toNat + 16) :
    rowsDrawn s y = 0 := by
  rw [rowsDrawn, if_pos hy]
  omega

/-- A text in the corner. -/
theorem drawsText_iff_corner : DrawsText vga bigFont 0 0 0x889922 [0x43, 0x46, 0x55] :=
  (drawsText_iff (by decide) (by unfold Printable; decide)).mpr
    (textWhen_of_fits (by decide) (by decide))

/-- A hyphen in the last column appears at the start of the next row. -/
theorem drawsText_fails : ¬ DrawsText vga bigFont 639 0 0x889922 [0x2D] := by
  intro h
  obtain ⟨hbeyond, -⟩ := h.textWhen (by decide) (by unfold Printable; decide)
  obtain ⟨p, i, k, ⟨hi, -, c, hget, hglyph⟩, ⟨-, hcolumn⟩, -⟩ :=
    hbeyond 0 7 3 ⟨by decide, by decide, 0x2D, rfl, by decide⟩ (by decide) (by decide)
  have hnone : ∀ i < 16, glyph bigFont 0x2D i 0 = false := by decide
  have hwidth : vga.width = 640 := rfl
  have hx : (639 : BitVec 32).toNat = 639 := rfl
  obtain ⟨rfl, rfl⟩ : p = 0 ∧ k = 0 := by omega
  obtain rfl := Option.some.inj hget
  rw [hnone i hi] at hglyph
  cases hglyph

end CfuPlayground.Framebuffer
