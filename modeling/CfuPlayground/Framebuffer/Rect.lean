import CfuPlayground.Framebuffer.Model

/-!
# Rectangles

`fb_fill_rect` clips with sums and differences of type `uint32_t`. It paints the clipped rectangle
exactly when its corner is on the screen, or at its edge, and neither sum wraps, and in the cases
in which nothing is painted (`fills_iff`). `fb_draw_rect` draws the right side one column too far
to the right, so it never draws the border of the rectangle (`not_drawsBorder`).
-/

namespace CfuPlayground.Framebuffer

open Lib

variable {s : Screen} {left top width height color : BitVec 32}

/-! ## Clipping -/

theorem toNat_clip (pos size limit : BitVec 32) : (clip pos size limit).toNat =
    if limit.toNat < (pos.toNat + size.toNat) % 2 ^ 32 then
      (2 ^ 32 - pos.toNat + limit.toNat) % 2 ^ 32
    else size.toNat := by
  unfold clip
  by_cases h : limit.toNat < (pos.toNat + size.toNat) % 2 ^ 32
  · rw [if_pos (BitVec.lt_def.mpr (by rwa [BitVec.toNat_add])), if_pos h, BitVec.toNat_sub]
  · rw [if_neg (fun hlt => h (by rw [← BitVec.toNat_add]; exact BitVec.lt_def.mp hlt)), if_neg h]

/-- Without wrapping, and with its start on the screen or at the edge, a range is cut there. -/
theorem clip_of_le {pos size limit : BitVec 32} (hpos : pos.toNat ≤ limit.toNat)
    (hsum : pos.toNat + size.toNat < 2 ^ 32) :
    (clip pos size limit).toNat = min size.toNat (limit.toNat - pos.toNat) := by
  have hlimit := limit.isLt
  rw [toNat_clip, Nat.mod_eq_of_lt hsum]
  split_ifs with h
  · omega
  · omega

theorem clip_pos {pos size limit : BitVec 32} (hlimit : limit.toNat < 2 ^ 30)
    (h : limit.toNat < pos.toNat ∨ 2 ^ 32 ≤ pos.toNat + size.toNat) :
    0 < (clip pos size limit).toNat := by
  have hpos := pos.isLt
  rw [toNat_clip]
  split_ifs with hsum
  · omega
  · omega

/-! ## The bar -/

theorem fillBar (w n : ℕ) (color : BitVec 32) :
    (List.range n).foldlM (fun bar i => setBar bar i color) (List.replicate w 0) =
      if n ≤ w then some (List.replicate n color ++ List.replicate (w - n) 0) else none := by
  induction n with
  | zero => simp
  | succ n ih =>
    rw [List.range_succ, List.foldlM_append, ih]
    by_cases h : n ≤ w
    · rw [if_pos h]
      change (setBar (List.replicate n color ++ List.replicate (w - n) 0) n color).bind some = _
      have hlen : (List.replicate n color ++ List.replicate (w - n) (0 : BitVec 32)).length = w := by
        rw [List.length_append, List.length_replicate, List.length_replicate]
        omega
      rw [setBar, hlen]
      by_cases hn : n < w
      · have hrest : List.replicate (w - n) (0 : BitVec 32) =
            0 :: List.replicate (w - (n + 1)) 0 := by
          rw [show w - n = w - (n + 1) + 1 by omega, List.replicate_succ]
        rw [if_pos hn, if_pos (Nat.succ_le_of_lt hn), hrest, Option.bind_some,
          List.replicate_succ', List.append_assoc,
          List.set_append_right _ _ (by rw [List.length_replicate]), List.length_replicate,
          Nat.sub_self]
        rfl
      · rw [if_neg hn, if_neg (by omega)]
        rfl
    · rw [if_neg h, if_neg (by omega)]
      rfl

/-! ## Filling -/

/-- The first word of the rectangle, as an index that may lie anywhere. -/
def corner (s : Screen) (left top : BitVec 32) : ℕ := (top * s.fbWidth + left).toNat

/-- The words of a row after the other. -/
def rowsOf (s : Screen) (start h w : ℕ) (color : BitVec 32) : List Store :=
  (List.range h).flatMap fun i =>
    (List.range w).map fun j => (s.word (start + i * s.width + j), color)

theorem fbFillRect_eq (s : Screen) (left top width height color : BitVec 32) :
    fbFillRect s left top width height color =
      if (clip left width s.fbWidth).toNat ≤ s.width then
        some (rowsOf s (corner s left top) (clip top height s.fbHeight).toNat
          (clip left width s.fbWidth).toNat color)
      else none := by
  unfold fbFillRect
  simp only [fillBar]
  generalize clip left width s.fbWidth = w
  generalize clip top height s.fbHeight = h
  by_cases hw : w.toNat ≤ s.width
  · have hlt : s.width < 2 ^ 30 := (Nat.le_mul_of_pos_right _ s.height_pos).trans_lt s.area_lt
    have hbytes : (w * 4).toNat / 4 = w.toNat := by
      rw [BitVec.toNat_mul, show (4 : BitVec 32).toNat = 4 from rfl, Nat.mod_eq_of_lt (by omega),
        Nat.mul_div_cancel _ (by decide)]
    rw [if_pos hw, if_pos hw, rowsOf, corner]
    change some _ = some _
    congr 1
    apply List.flatMap_congr
    intro i _
    rw [memcpy, hbytes]
    apply List.map_congr_left
    intro j hj
    rw [List.mem_range] at hj
    rw [advance_base, word_add, word_add, List.getD_append _ _ _ _ (by simpa using hj),
      List.getD_replicate _ hj]
  · rw [if_neg hw, if_neg hw]
    rfl

theorem mem_rowsOf {start h w : ℕ} {a : Address} : a ∈ (rowsOf s start h w color).map Prod.fst ↔
    ∃ i < h, ∃ j < w, a = s.word (start + i * s.width + j) := by
  simp only [rowsOf, List.map_flatMap, List.map_map, List.mem_flatMap, List.mem_map, List.mem_range,
    Function.comp_apply, eq_comm]

theorem rowsOf_color {start h w : ℕ} : ∀ st ∈ rowsOf s start h w color, st.2 = color := by
  intro st hst
  obtain ⟨i, _, hst⟩ := List.mem_flatMap.mp hst
  obtain ⟨j, _, rfl⟩ := List.mem_map.mp hst
  rfl

/-- The words of the clipped rectangle; the sums are taken over the integers. -/
def rectangle (s : Screen) (left top width height : BitVec 32) : Set Address :=
  {a | ∃ row < s.height, ∃ column < s.width, (left.toNat ≤ column ∧
    column < left.toNat + width.toNat) ∧ (top.toNat ≤ row ∧ row < top.toNat + height.toNat) ∧
    a = s.pixel row column}

/-- `fb_fill_rect` stays inside `bar_line` and the frame buffer and paints the rectangle. -/
def Fills (s : Screen) (left top width height color : BitVec 32) : Prop :=
  ∃ ws, fbFillRect s left top width height color = some ws ∧ (∀ st ∈ ws, st.1 ∈ s.frame) ∧
    Paints ws color (rectangle s left top width height)

theorem rectangle_subset_frame : rectangle s left top width height ⊆ s.frame := by
  rintro a ⟨row, hr, column, hc, -, -, rfl⟩
  exact ⟨row, hr, column, hc, rfl⟩

/-- The rectangle is filled if the bar is wide enough and the words that are written are those of
the rectangle. -/
theorem fills_iff_words : Fills s left top width height color ↔
    (clip left width s.fbWidth).toNat ≤ s.width ∧
      ∀ a, (∃ i < (clip top height s.fbHeight).toNat, ∃ j < (clip left width s.fbWidth).toNat,
        a = s.word (corner s left top + i * s.width + j)) ↔
          a ∈ rectangle s left top width height := by
  unfold Fills
  rw [fbFillRect_eq]
  by_cases hw : (clip left width s.fbWidth).toNat ≤ s.width
  · rw [if_pos hw]
    constructor
    · rintro ⟨ws, hws, -, hpaints⟩
      cases hws
      rw [paints_iff rowsOf_color] at hpaints
      exact ⟨hw, fun a => mem_rowsOf.symm.trans (hpaints a)⟩
    · rintro ⟨-, h⟩
      refine ⟨_, rfl, fun st hst => ?_, (paints_iff rowsOf_color).mpr fun a => ?_⟩
      · exact rectangle_subset_frame ((h st.1).mp (mem_rowsOf.mp (List.mem_map_of_mem hst)))
      · exact mem_rowsOf.trans (h a)
  · rw [if_neg hw]
    constructor
    · rintro ⟨ws, hws, -⟩
      cases hws
    · exact fun h => absurd h.1 hw

/-- The corner and the size are such that the clipping is right, or that nothing is drawn and
nothing is to be drawn. -/
def FillsWhen (s : Screen) (left top width height : BitVec 32) : Prop :=
  (left.toNat ≤ s.width ∧ left.toNat + width.toNat < 2 ^ 32 ∧
    (width.toNat = 0 ∨ left.toNat = s.width ∨
      (top.toNat ≤ s.height ∧ top.toNat + height.toNat < 2 ^ 32))) ∨
  (s.width < left.toNat ∧ width.toNat ≤ s.width ∧ 2 ^ 32 ≤ left.toNat + width.toNat ∧
    top.toNat ≤ s.height ∧ top.toNat + height.toNat < 2 ^ 32 ∧
    (height.toNat = 0 ∨ top.toNat = s.height))

theorem corner_eq (hl : left.toNat ≤ s.width) (ht : top.toNat ≤ s.height) :
    corner s left top = top.toNat * s.width + left.toNat := by
  have harea := s.area_lt
  have hwidth := width_lt s
  have hrow : top.toNat * s.width ≤ s.width * s.height := by
    rw [mul_comm]
    exact Nat.mul_le_mul_left _ ht
  rw [corner, BitVec.toNat_add, BitVec.toNat_mul, fbWidth_toNat, Nat.mod_add_mod,
    Nat.mod_eq_of_lt (by omega)]

theorem rectangle_empty (h : s.width ≤ left.toNat ∨ s.height ≤ top.toNat ∨ width.toNat = 0 ∨
    height.toNat = 0) (a : Address) : a ∉ rectangle s left top width height := by
  rintro ⟨row, hr, column, hc, hcolumn, hrow, -⟩
  omega

/-- With the corner on the screen and no sum that wraps, the words are those of the rectangle. -/
theorem words_of_corner (hl : left.toNat ≤ s.width) (hlw : left.toNat + width.toNat < 2 ^ 32)
    (ht : top.toNat ≤ s.height) (hth : top.toNat + height.toNat < 2 ^ 32) (a : Address) :
    (∃ i < (clip top height s.fbHeight).toNat, ∃ j < (clip left width s.fbWidth).toNat,
      a = s.word (corner s left top + i * s.width + j)) ↔
        a ∈ rectangle s left top width height := by
  rw [clip_of_le (by rwa [fbWidth_toNat]) hlw, clip_of_le (by rwa [fbHeight_toNat]) hth,
    corner_eq hl ht, fbWidth_toNat, fbHeight_toNat]
  have hindex : ∀ i j, top.toNat * s.width + left.toNat + i * s.width + j =
      (top.toNat + i) * s.width + (left.toNat + j) := by
    intro i j
    ring
  constructor
  · rintro ⟨i, hi, j, hj, rfl⟩
    refine ⟨top.toNat + i, by omega, left.toNat + j, by omega, by omega, by omega, ?_⟩
    rw [hindex]
    rfl
  · rintro ⟨row, hr, column, hc, hcolumn, hrow, rfl⟩
    refine ⟨row - top.toNat, by omega, column - left.toNat, by omega, ?_⟩
    rw [hindex, Nat.add_sub_of_le hrow.1, Nat.add_sub_of_le hcolumn.1]
    rfl

/-- The row below the screen is not part of the rectangle, wherever its words wrap to. -/
theorem below_notMem (hl : left.toNat < s.width) :
    s.word (s.height * s.width + left.toNat) ∉ rectangle s left top width height := by
  rintro ⟨row, hr, column, hc, hcolumn, -, h⟩
  have hlt := (index_lt s hr hc).trans s.area_lt
  have harea := s.area_lt
  have hwidth := width_lt s
  have hindex := (word_eq_pixel_iff hr hc).mp h
  rw [mul_comm s.height] at hindex
  have hle := index_lt s hr hc
  have hcol : column ≤ row * s.width + column := Nat.le_add_left _ _
  omega

/-- Rows are written if the range of rows wraps or lies below the screen, and if it is cut there
but not empty. -/
theorem rows_pos (h : ¬ (top.toNat ≤ s.height ∧ top.toNat + height.toNat < 2 ^ 32 ∧
    (height.toNat = 0 ∨ top.toNat = s.height))) : 0 < (clip top height s.fbHeight).toNat := by
  by_cases hgood : top.toNat ≤ s.height ∧ top.toNat + height.toNat < 2 ^ 32
  · rw [clip_of_le (by rw [fbHeight_toNat]; exact hgood.1) hgood.2, fbHeight_toNat]
    omega
  · apply clip_pos
    · rw [fbHeight_toNat]
      exact height_lt s
    · rw [fbHeight_toNat]
      omega

/-- When the bar suffices, the range of columns wraps exactly if it begins beyond the edge. -/
theorem columns_of_bar (hbar : (clip left width s.fbWidth).toNat ≤ s.width) :
    (left.toNat ≤ s.width → left.toNat + width.toNat < 2 ^ 32) ∧
      (s.width < left.toNat → width.toNat ≤ s.width ∧ 2 ^ 32 ≤ left.toNat + width.toNat) := by
  have hwidth := width_lt s
  have hl := left.isLt
  have hw := width.isLt
  rw [toNat_clip, fbWidth_toNat] at hbar
  split_ifs at hbar with hsum
  · omega
  · omega

/-- When the condition fails, some word is written that is not one of the rectangle. -/
theorem wrong_word (hbar : (clip left width s.fbWidth).toNat ≤ s.width)
    (hcond : ¬ FillsWhen s left top width height) :
    ∃ i < (clip top height s.fbHeight).toNat, ∃ j < (clip left width s.fbWidth).toNat,
      s.word (corner s left top + i * s.width + j) ∉ rectangle s left top width height := by
  have hheight := height_lt s
  obtain ⟨hin, hout⟩ := columns_of_bar hbar
  unfold FillsWhen at hcond
  rcases le_or_gt left.toNat s.width with hl | hl
  · have hlw := hin hl
    have hcols : 0 < (clip left width s.fbWidth).toNat := by
      rw [clip_of_le (by rwa [fbWidth_toNat]) hlw, fbWidth_toNat]
      omega
    rcases lt_or_ge top.toNat s.height with ht | ht
    · -- the sum of `top` and `height` wraps, and the height is not cut
      have hrows : (clip top height s.fbHeight).toNat = height.toNat := by
        rw [toNat_clip, fbHeight_toNat, if_neg (by omega)]
      refine ⟨s.height - top.toNat, by omega, 0, hcols, ?_⟩
      have hindex : top.toNat * s.width + left.toNat + (s.height - top.toNat) * s.width + 0 =
          s.height * s.width + left.toNat := by
        rw [Nat.sub_mul]
        have hle := Nat.mul_le_mul_right s.width ht.le
        omega
      rw [corner_eq hl ht.le, hindex]
      exact below_notMem (by omega)
    · exact ⟨0, rows_pos (by omega), 0, hcols, rectangle_empty (Or.inr (Or.inl ht)) _⟩
  · obtain ⟨hw, hlw⟩ := hout hl
    have hcols : 0 < (clip left width s.fbWidth).toNat := by
      apply clip_pos
      · rw [fbWidth_toNat]
        exact width_lt s
      · rw [fbWidth_toNat]
        exact Or.inl hl
    exact ⟨0, rows_pos (by omega), 0, hcols, rectangle_empty (Or.inl hl.le) _⟩

/-- Under the condition the bar suffices, and the words are those of the rectangle. -/
theorem words_of_condition (hcond : FillsWhen s left top width height) :
    (clip left width s.fbWidth).toNat ≤ s.width ∧
      ∀ a, (∃ i < (clip top height s.fbHeight).toNat, ∃ j < (clip left width s.fbWidth).toNat,
        a = s.word (corner s left top + i * s.width + j)) ↔
          a ∈ rectangle s left top width height := by
  have hwidth := width_lt s
  have hl := left.isLt
  rcases hcond with ⟨hle, hlw, hrows⟩ | ⟨hlt, hw, hlw, ht, hth, hzero⟩
  · have hclip : (clip left width s.fbWidth).toNat = min width.toNat (s.width - left.toNat) := by
      rw [clip_of_le (by rwa [fbWidth_toNat]) hlw, fbWidth_toNat]
    refine ⟨by omega, fun a => ?_⟩
    by_cases hgood : top.toNat ≤ s.height ∧ top.toNat + height.toNat < 2 ^ 32
    · exact words_of_corner hle hlw hgood.1 hgood.2 a
    · have hempty : a ∉ rectangle s left top width height := rectangle_empty (by omega) a
      refine ⟨fun ⟨i, _, j, hj, _⟩ => ?_, fun h => absurd h hempty⟩
      omega
  · have hclip : (clip left width s.fbWidth).toNat = width.toNat := by
      rw [toNat_clip, fbWidth_toNat, if_neg (by omega)]
    have hrows : (clip top height s.fbHeight).toNat = 0 := by
      rw [clip_of_le (by rwa [fbHeight_toNat]) hth, fbHeight_toNat]
      omega
    refine ⟨by omega, fun a => ?_⟩
    have hempty : a ∉ rectangle s left top width height := rectangle_empty (by omega) a
    refine ⟨fun ⟨i, hi, _⟩ => ?_, fun h => absurd h hempty⟩
    omega

/-- **When a rectangle is filled**: exactly if its corner is on the screen or at its edge and the
sums do not wrap, or nothing is drawn. -/
theorem fills_iff (s : Screen) (left top width height color : BitVec 32) :
    Fills s left top width height color ↔ FillsWhen s left top width height := by
  rw [fills_iff_words]
  constructor
  · rintro ⟨hbar, hwords⟩
    by_contra hcond
    obtain ⟨i, hi, j, hj, hnot⟩ := wrong_word hbar hcond
    exact hnot ((hwords _).mp ⟨i, hi, j, hj, rfl⟩)
  · exact words_of_condition

/-- A rectangle to the right of the screen overruns `bar_line`. -/
theorem fills_fails : ¬ Fills vga 700 0 10 10 0xFF0000 := by
  rw [fills_iff_words]
  exact fun h => absurd h.1 (by decide)

/-! ## Drawing the border -/

/-- The first or last row or column of the clipped rectangle. -/
def border (s : Screen) (left top width height : BitVec 32) : Set Address :=
  {a | ∃ row < s.height, ∃ column < s.width, (left.toNat ≤ column ∧
    column < left.toNat + width.toNat) ∧ (top.toNat ≤ row ∧ row < top.toNat + height.toNat) ∧
    (row = top.toNat ∨ row + 1 = min (top.toNat + height.toNat) s.height ∨
      column = left.toNat ∨ column + 1 = min (left.toNat + width.toNat) s.width) ∧
    a = s.pixel row column}

/-- `fb_draw_rect` stays inside the frame buffer and paints the border. -/
def DrawsBorder (s : Screen) (left top width height color : BitVec 32) : Prop :=
  (∀ st ∈ fbDrawRect s left top width height color, st.1 ∈ s.frame) ∧
    Paints (fbDrawRect s left top width height color) color (border s left top width height)

/-- The word that the loop over the sides writes last. -/
def sideWord (s : Screen) (left top width height : BitVec 32) : Address :=
  s.word (corner s left top + (clip left width s.fbWidth).toNat +
    ((clip top height s.fbHeight).toNat - 1) * s.width)

theorem sideWord_mem (hrows : 0 < (clip top height s.fbHeight).toNat) :
    sideWord s left top width height ∈ (fbDrawRect s left top width height color).map Prod.fst := by
  apply List.mem_map_of_mem (a := (sideWord s left top width height, color))
  apply List.mem_append_left
  apply List.mem_flatMap.mpr
  refine ⟨(clip top height s.fbHeight).toNat - 1, List.mem_range.mpr (by omega), ?_⟩
  apply List.mem_cons_of_mem
  rw [List.mem_singleton, advance_base, advance_word, word_add]
  rfl

theorem fbDrawRect_color : ∀ st ∈ fbDrawRect s left top width height color, st.2 = color := by
  intro st hst
  rcases List.mem_append.mp hst with h | h
  all_goals
    obtain ⟨i, _, h⟩ := List.mem_flatMap.mp h
    simp only [List.mem_cons, List.not_mem_nil, or_false] at h
    rcases h with rfl | rfl
    · rfl
    · rfl

/-- The word is one column to the right of the rectangle, or at the start of the row below it. -/
theorem sideWord_notMem (hl : left.toNat < s.width) (ht : top.toNat < s.height)
    (hh : 0 < height.toNat) (hlw : left.toNat + width.toNat < 2 ^ 32)
    (hth : top.toNat + height.toNat < 2 ^ 32) :
    sideWord s left top width height ∉ border s left top width height := by
  have hw' : (clip left width s.fbWidth).toNat = min width.toNat (s.width - left.toNat) := by
    rw [clip_of_le (by rw [fbWidth_toNat]; exact hl.le) hlw, fbWidth_toNat]
  have hh' : (clip top height s.fbHeight).toNat = min height.toNat (s.height - top.toNat) := by
    rw [clip_of_le (by rw [fbHeight_toNat]; exact ht.le) hth, fbHeight_toNat]
  have hindex : ∀ w h, 0 < h → top.toNat * s.width + left.toNat + w + (h - 1) * s.width =
      (top.toNat + h - 1) * s.width + (left.toNat + w) := by
    intro w h hpos
    obtain ⟨h, rfl⟩ := Nat.exists_eq_succ_of_ne_zero hpos.ne'
    rw [Nat.succ_sub_one, Nat.add_succ_sub_one]
    ring
  rw [sideWord, corner_eq hl.le ht.le, hindex _ _ (by omega), hw', hh']
  rintro ⟨row, hr, column, hc, hcolumn, hrow, -, h⟩
  rcases Nat.lt_or_ge (left.toNat + min width.toNat (s.width - left.toNat)) s.width with hlt | hge
  · -- beside the rectangle
    have hpixel := (pixel_inj (by omega) hlt hr hc).mp h
    omega
  · -- at the start of a row
    have hedge : left.toNat + min width.toNat (s.width - left.toNat) = s.width := by omega
    have hrows : top.toNat + min height.toNat (s.height - top.toNat) - 1 + 1 ≤ s.height := by omega
    have hstart : (top.toNat + min height.toNat (s.height - top.toNat) - 1) * s.width + s.width ≤
        s.width * s.height := by
      rw [← Nat.succ_mul, mul_comm]
      exact Nat.mul_le_mul_left _ hrows
    have hbefore : row * s.width ≤
        (top.toNat + min height.toNat (s.height - top.toNat) - 1) * s.width :=
      Nat.mul_le_mul_right _ (by omega)
    have harea := s.area_lt
    rw [hedge, word_eq_pixel_iff hr hc, Nat.mod_eq_of_lt (by omega)] at h
    omega

theorem not_drawsBorder_of_sideWord (hrows : 0 < (clip top height s.fbHeight).toNat)
    (h : sideWord s left top width height ∉ border s left top width height) :
    ¬ DrawsBorder s left top width height color := by
  rintro ⟨-, hpaints⟩
  exact h (((paints_iff fbDrawRect_color).mp hpaints _).mp (sideWord_mem hrows))

/-- **The border is never drawn**: the right side is one column too far to the right. -/
theorem not_drawsBorder (hl : left.toNat < s.width) (ht : top.toNat < s.height)
    (hh : 0 < height.toNat) (hlw : left.toNat + width.toNat < 2 ^ 32)
    (hth : top.toNat + height.toNat < 2 ^ 32) : ¬ DrawsBorder s left top width height color := by
  apply not_drawsBorder_of_sideWord
  · rw [clip_of_le (by rw [fbHeight_toNat]; exact ht.le) hth, fbHeight_toNat]
    omega
  · exact sideWord_notMem hl ht hh hlw hth

theorem not_drawsBorder_corner : ¬ DrawsBorder vga 320 240 320 240 0xFF0000 :=
  not_drawsBorder (by decide) (by decide) (by decide) (by decide) (by decide)

/-- The first rectangle of the demo does not have the border of its size. -/
theorem not_drawsBorder_fails : ¬ DrawsBorder vga 0 0 320 240 0xFFFF00 :=
  not_drawsBorder_of_sideWord (by decide)
    (sideWord_notMem (by decide) (by decide) (by decide) (by decide) (by decide))

end CfuPlayground.Framebuffer
