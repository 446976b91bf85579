import CfuPlayground.Framebuffer.Stroke

/-!
# Lines

A line that is not steep is drawn with the nearest pixel of each column (`drawsNearest`). A steeper
line has too few stores: a complete line is drawn exactly if it is upright or not steep
(`drawsLine_iff`).
-/

namespace CfuPlayground.Framebuffer

open Lib

variable {s : Screen} {x0 y0 x1 y1 color : BitVec 32}

/-! ## Paths -/

/-- A path of pixels, given as columns and rows, from one end point to the other. -/
structure LinePath (p q : ℕ × ℕ) (path : List (ℕ × ℕ)) : Prop where
  length : path.length = max (Nat.dist p.1 q.1) (Nat.dist p.2 q.2) + 1
  nodup : path.Nodup
  head : path.head? = some p
  last : path.getLast? = some q
  box : ∀ c ∈ path, (min p.1 q.1 ≤ c.1 ∧ c.1 ≤ max p.1 q.1) ∧
    (min p.2 q.2 ≤ c.2 ∧ c.2 ≤ max p.2 q.2)
  near : path.IsChain fun c c' => Nat.dist c.1 c'.1 ≤ 1 ∧ Nat.dist c.2 c'.2 ≤ 1

theorem LinePath.reverse {p q : ℕ × ℕ} {path : List (ℕ × ℕ)} (h : LinePath p q path) :
    LinePath q p path.reverse where
  length := by rw [List.length_reverse, h.length, Nat.dist_comm p.1, Nat.dist_comm p.2]
  nodup := List.nodup_reverse.mpr h.nodup
  head := by rw [List.head?_reverse, h.last]
  last := by rw [List.getLast?_reverse, h.head]
  box := by
    intro c hc
    rw [min_comm q.1, max_comm q.1, min_comm q.2, max_comm q.2]
    exact h.box c (List.mem_reverse.mp hc)
  near := by
    rw [List.isChain_reverse]
    apply h.near.imp
    intro c c' hnear
    rwa [Nat.dist_comm c'.1, Nat.dist_comm c'.2]

theorem linePath_range {n : ℕ} {f : ℕ → ℕ × ℕ} (hinj : Function.Injective f)
    (hlen : max (Nat.dist (f 0).1 (f n).1) (Nat.dist (f 0).2 (f n).2) = n)
    (hbox : ∀ k ≤ n, (min (f 0).1 (f n).1 ≤ (f k).1 ∧ (f k).1 ≤ max (f 0).1 (f n).1) ∧
      (min (f 0).2 (f n).2 ≤ (f k).2 ∧ (f k).2 ≤ max (f 0).2 (f n).2))
    (hnear : ∀ k, Nat.dist (f k).1 (f (k + 1)).1 ≤ 1 ∧ Nat.dist (f k).2 (f (k + 1)).2 ≤ 1) :
    LinePath (f 0) (f n) ((List.range (n + 1)).map f) where
  length := by rw [List.length_map, List.length_range, hlen]
  nodup := List.nodup_range.map hinj
  head := by rw [List.head?_map, List.head?_range]; rfl
  last := by rw [List.getLast?_map, List.getLast?_range]; rfl
  box := by
    intro c hc
    obtain ⟨k, hk, rfl⟩ := List.mem_map.mp hc
    exact hbox k (Nat.lt_succ_iff.mp (List.mem_range.mp hk))
  near := by
    rw [List.isChain_map, List.isChain_range_succ]
    exact fun k _ => hnear k

theorem linePath_point (p : ℕ × ℕ) : LinePath p p [p] where
  length := by simp [Nat.dist_self]
  nodup := List.nodup_singleton p
  head := rfl
  last := rfl
  box := by simp
  near := List.isChain_singleton p

theorem linePath_vertical (x y n : ℕ) :
    LinePath (x, y) (x, y + n) ((List.range (n + 1)).map fun k => (x, y + k)) := by
  apply linePath_range (f := fun k => (x, y + k))
  · intro a b hab
    simpa using hab
  · simp [Nat.dist]
  · intro k hk
    simp only [min_self, max_self]
    omega
  · intro k
    simp only [Nat.dist]
    omega

theorem linePath_horizontal (x y n : ℕ) :
    LinePath (x, y) (x + n, y) ((List.range (n + 1)).map fun k => (x + k, y)) := by
  apply linePath_range (f := fun k => (x + k, y))
  · intro a b hab
    simpa using hab
  · simp [Nat.dist]
  · intro k hk
    simp only [min_self, max_self]
    omega
  · intro k
    simp only [Nat.dist]
    omega

theorem linePath_columns {x a b n : ℕ} (hn : 0 < n) (h : Nat.dist a b ≤ n) :
    LinePath (x, a) (x + n, b) ((List.range (n + 1)).map fun k => (x + k, rowAt a b n k)) := by
  have hpath := @linePath_range n (fun k => (x + k, rowAt a b n k))
  simp only [rowAt_zero, rowAt_last hn h, Nat.add_zero] at hpath
  apply hpath
  · intro k k' hk
    have hcolumn := congrArg Prod.fst hk
    simpa using hcolumn
  · rw [Nat.dist] at h ⊢
    rw [Nat.dist]
    omega
  · intro k hk
    refine ⟨by omega, rowAt_mem hn h hk⟩
  · intro k
    refine ⟨?_, rowAt_succ a b n k⟩
    rw [Nat.dist]
    omega

/-! ## Complete lines -/

/-- `fb_draw_line` paints exactly the pixels of a path between the end points. -/
def DrawsLine (s : Screen) (x0 y0 x1 y1 color : BitVec 32) : Prop :=
  ∃ ws path, Returns s x0 y0 x1 y1 color ws ∧
    LinePath (x0.toNat, y0.toNat) (x1.toNat, y1.toNat) path ∧
    Paints ws color {a | ∃ p ∈ path, a = s.pixel p.2 p.1}

theorem paints_strokes (s : Screen) (color : BitVec 32) (path : List (ℕ × ℕ)) :
    Paints (strokes s color path) color {a | ∃ p ∈ path, a = s.pixel p.2 p.1} := by
  have hcolor : ∀ w ∈ strokes s color path, w.2 = color := by
    intro w hw
    obtain ⟨p, _, rfl⟩ := List.mem_map.mp hw
    rfl
  rw [paints_iff hcolor]
  intro a
  rw [strokes, List.map_map, List.mem_map]
  constructor
  · rintro ⟨p, hp, rfl⟩
    exact ⟨p, hp, rfl⟩
  · rintro ⟨p, hp, rfl⟩
    exact ⟨p, hp, rfl⟩

theorem drawsLine_of_strokes {path : List (ℕ × ℕ)}
    (hret : Returns s x0 y0 x1 y1 color (strokes s color path))
    (hpath : LinePath (x0.toNat, y0.toNat) (x1.toNat, y1.toNat) path) :
    DrawsLine s x0 y0 x1 y1 color :=
  ⟨_, path, hret, hpath, paints_strokes s color path⟩

theorem drawsLine_of_strokes_reverse {path : List (ℕ × ℕ)}
    (hret : Returns s x0 y0 x1 y1 color (strokes s color path))
    (hpath : LinePath (x1.toNat, y1.toNat) (x0.toNat, y0.toNat) path) :
    DrawsLine s x0 y0 x1 y1 color := by
  refine ⟨_, path.reverse, hret, hpath.reverse, ?_⟩
  have hset : {a | ∃ p ∈ path.reverse, a = s.pixel p.2 p.1} =
      {a | ∃ p ∈ path, a = s.pixel p.2 p.1} := by
    simp only [List.mem_reverse]
  rw [hset]
  exact paints_strokes s color path

theorem drawsLine_vertical (h0 : OnScreen s x0 y0) (h1 : OnScreen s x1 y1)
    (hx : x0.toNat = x1.toNat) (hy : y0.toNat ≠ y1.toNat) : DrawsLine s x0 y0 x1 y1 color := by
  have hret := @returns_vertical s x0 y0 x1 y1 color h0 h1 hx hy
  have hpath := linePath_vertical x0.toNat (min y0.toNat y1.toNat)
    (max y0.toNat y1.toNat - min y0.toNat y1.toNat)
  rw [Nat.add_sub_cancel' min_le_max] at hpath
  rcases Nat.lt_or_gt_of_ne hy with hlt | hgt
  · rw [min_eq_left hlt.le, max_eq_right hlt.le] at hpath hret
    exact drawsLine_of_strokes hret (hx ▸ hpath)
  · rw [min_eq_right hgt.le, max_eq_left hgt.le] at hpath hret
    exact drawsLine_of_strokes_reverse hret (hx ▸ hpath)

theorem drawsLine_horizontal (h0 : OnScreen s x0 y0) (h1 : OnScreen s x1 y1)
    (hx : x0.toNat ≠ x1.toNat) (hy : y0.toNat = y1.toNat) : DrawsLine s x0 y0 x1 y1 color := by
  have hret := @returns_horizontal s x0 y0 x1 y1 color h0 h1 hx hy
  have hpath := linePath_horizontal (min x0.toNat x1.toNat) y0.toNat
    (max x0.toNat x1.toNat - min x0.toNat x1.toNat)
  rw [Nat.add_sub_cancel' min_le_max] at hpath
  rcases Nat.lt_or_gt_of_ne hx with hlt | hgt
  · rw [min_eq_left hlt.le, max_eq_right hlt.le] at hpath hret
    exact drawsLine_of_strokes hret (hy ▸ hpath)
  · rw [min_eq_right hgt.le, max_eq_left hgt.le] at hpath hret
    exact drawsLine_of_strokes_reverse hret (hy ▸ hpath)

theorem drawsLine_gentle (h0 : OnScreen s x0 y0) (h1 : OnScreen s x1 y1)
    (hx : x0.toNat ≠ x1.toNat) (hy : y0.toNat ≠ y1.toNat)
    (hdy : Nat.dist y0.toNat y1.toNat ≤ Nat.dist x0.toNat x1.toNat) :
    DrawsLine s x0 y0 x1 y1 color := by
  rcases Nat.lt_or_gt_of_ne hx with hlt | hgt
  · rw [Nat.dist_eq_sub_of_le hlt.le] at hdy
    have hpath := linePath_columns (x := x0.toNat) (by omega) hdy
    rw [Nat.add_sub_cancel' hlt.le] at hpath
    exact drawsLine_of_strokes (returns_gentle h0 h1 hlt hy hdy).1 hpath
  · rw [Nat.dist_comm y0.toNat, Nat.dist_eq_sub_of_le_right hgt.le] at hdy
    have hpath := linePath_columns (x := x1.toNat) (by omega) hdy
    rw [Nat.add_sub_cancel' hgt.le] at hpath
    exact drawsLine_of_strokes_reverse (returns_gentle h1 h0 hgt hy.symm hdy).2 hpath

theorem LinePath.nodup_words {path : List (ℕ × ℕ)} (h0 : OnScreen s x0 y0)
    (h1 : OnScreen s x1 y1) (h : LinePath (x0.toNat, y0.toNat) (x1.toNat, y1.toNat) path) :
    (path.map fun p => s.pixel p.2 p.1).Nodup := by
  have hon : ∀ p ∈ path, p.2 < s.height ∧ p.1 < s.width := by
    intro p hp
    obtain ⟨⟨-, hcolumn⟩, ⟨-, hrow⟩⟩ := h.box p hp
    exact ⟨hrow.trans_lt (max_lt h0.row h1.row), hcolumn.trans_lt (max_lt h0.column h1.column)⟩
  apply List.Nodup.map_on _ h.nodup
  intro p hp q hq hpq
  obtain ⟨hrow, hcolumn⟩ :=
    (pixel_inj (hon p hp).1 (hon p hp).2 (hon q hq).1 (hon q hq).2).mp hpq
  exact Prod.ext hcolumn hrow

theorem length_le_of_paints {ws : List Store} {path : List (ℕ × ℕ)} (h0 : OnScreen s x0 y0)
    (h1 : OnScreen s x1 y1) (hpath : LinePath (x0.toNat, y0.toNat) (x1.toNat, y1.toNat) path)
    (hpaints : Paints ws color {a | ∃ p ∈ path, a = s.pixel p.2 p.1}) :
    path.length ≤ ws.length := by
  have hsub : (path.map fun p => s.pixel p.2 p.1) ⊆ ws.map Prod.fst := by
    intro a ha
    obtain ⟨p, hp, rfl⟩ := List.mem_map.mp ha
    exact hpaints.mem ⟨p, hp, rfl⟩
  have hle := (hpath.nodup_words h0 h1).length_le_of_subset hsub
  rwa [List.length_map, List.length_map] at hle

theorem not_drawsLine_steep (h0 : OnScreen s x0 y0) (h1 : OnScreen s x1 y1)
    (hx : x0.toNat ≠ x1.toNat)
    (hdy : Nat.dist x0.toNat x1.toNat < Nat.dist y0.toNat y1.toNat) :
    ¬ DrawsLine s x0 y0 x1 y1 color := by
  rintro ⟨ws, path, hret, hpath, hpaints⟩
  have hy : y0.toNat ≠ y1.toNat := by
    intro heq
    rw [heq, Nat.dist_self] at hdy
    exact absurd hdy (Nat.not_lt_zero _)
  have hle := length_le_of_paints h0 h1 hpath hpaints
  rw [hret.length_eq h0 h1 hx hy, hpath.length] at hle
  dsimp only at hle
  omega

/-- **When a line is complete**: exactly if it is upright or not steep. -/
theorem drawsLine_iff (h0 : OnScreen s x0 y0) (h1 : OnScreen s x1 y1) :
    DrawsLine s x0 y0 x1 y1 color ↔
      x0.toNat = x1.toNat ∨ Nat.dist y0.toNat y1.toNat ≤ Nat.dist x0.toNat x1.toNat := by
  constructor
  · intro h
    by_contra hsteep
    obtain ⟨hx, hdy⟩ := not_or.mp hsteep
    exact not_drawsLine_steep h0 h1 hx (not_le.mp hdy) h
  · intro h
    by_cases hx : x0.toNat = x1.toNat
    · by_cases hy : y0.toNat = y1.toNat
      · have hpath := linePath_point (x0.toNat, y0.toNat)
        exact drawsLine_of_strokes (returns_point h0 h1 hx hy) (hx ▸ hy ▸ hpath)
      · exact drawsLine_vertical h0 h1 hx hy
    · by_cases hy : y0.toNat = y1.toNat
      · exact drawsLine_horizontal h0 h1 hx hy
      · exact drawsLine_gentle h0 h1 hx hy (h.resolve_left hx)

/-- The falling line of the demo. -/
theorem drawsLine_iff_falls : DrawsLine vga 0 240 320 0 0xFFFFFF :=
  (drawsLine_iff ⟨by decide, by decide⟩ ⟨by decide, by decide⟩).mpr (Or.inr (by decide))

/-- A line that rises by three rows in one column. -/
theorem drawsLine_fails : ¬ DrawsLine vga 0 0 1 3 0xFFFFFF :=
  not_drawsLine_steep ⟨by decide, by decide⟩ ⟨by decide, by decide⟩ (by decide) (by decide)

/-! ## Nearest pixels -/

/-- The exact height of the segment over a column. -/
def exactRow (x0 y0 x1 y1 : BitVec 32) (column : ℕ) : ℚ :=
  y0.toNat + ((y1.toNat : ℚ) - y0.toNat) * ((column : ℚ) - x0.toNat) /
    ((x1.toNat : ℚ) - x0.toNat)

/-- The routine returns after stores that paint one pixel of each column, the nearest one. -/
def DrawsNearest (s : Screen) (x0 y0 x1 y1 color : BitVec 32) (ws : List Store) : Prop :=
  Returns s x0 y0 x1 y1 color ws ∧ ∃ row : ℕ → ℕ,
    (∀ column, min x0.toNat x1.toNat ≤ column → column ≤ max x0.toNat x1.toNat →
      row column < s.height ∧ |(row column : ℚ) - exactRow x0 y0 x1 y1 column| ≤ 1 / 2) ∧
    Paints ws color {a | ∃ column, (min x0.toNat x1.toNat ≤ column ∧
      column ≤ max x0.toNat x1.toNat) ∧ a = s.pixel (row column) column}

theorem exactRow_swap (hx : x0.toNat ≠ x1.toNat) (column : ℕ) :
    exactRow x1 y1 x0 y0 column = exactRow x0 y0 x1 y1 column := by
  have hne : (x1.toNat : ℚ) - x0.toNat ≠ 0 := sub_ne_zero.mpr (by exact_mod_cast hx.symm)
  have hne' : (x0.toNat : ℚ) - x1.toNat ≠ 0 := sub_ne_zero.mpr (by exact_mod_cast hx)
  rw [exactRow, exactRow]
  field_simp
  ring

theorem DrawsNearest.swap {ws : List Store} (h : DrawsNearest s x0 y0 x1 y1 color ws)
    (hx : x0.toNat ≠ x1.toNat) (hret : Returns s x1 y1 x0 y0 color ws) :
    DrawsNearest s x1 y1 x0 y0 color ws := by
  obtain ⟨-, row, hrow, hpaints⟩ := h
  refine ⟨hret, row, ?_⟩
  simp only [exactRow_swap hx, min_comm x1.toNat, max_comm x1.toNat]
  exact ⟨hrow, hpaints⟩

theorem drawsNearest_of_lt (h0 : OnScreen s x0 y0) (h1 : OnScreen s x1 y1)
    (hx : x0.toNat < x1.toNat) (hy : y0.toNat ≠ y1.toNat)
    (hdy : Nat.dist y0.toNat y1.toNat ≤ x1.toNat - x0.toNat) :
    DrawsNearest s x0 y0 x1 y1 color (strokes s color (gentlePath x0 y0 x1 y1)) := by
  refine ⟨(returns_gentle h0 h1 hx hy hdy).1, fun column =>
    rowAt y0.toNat y1.toNat (x1.toNat - x0.toNat) (column - x0.toNat), ?_, ?_⟩
  · intro column hmin hmax
    rw [min_eq_left hx.le] at hmin
    rw [max_eq_right hx.le] at hmax
    constructor
    · have hmem := rowAt_mem (k := column - x0.toNat) (by omega) hdy (by omega)
      exact hmem.2.trans_lt (max_lt h0.row h1.row)
    · have hnear := rowAt_near (k := column - x0.toNat) (by omega) hdy (by omega)
      rwa [Nat.cast_sub hmin, Nat.cast_sub hx.le] at hnear
  · have hset : {a | ∃ p ∈ gentlePath x0 y0 x1 y1, a = s.pixel p.2 p.1} =
        {a | ∃ column, (min x0.toNat x1.toNat ≤ column ∧ column ≤ max x0.toNat x1.toNat) ∧
          a = s.pixel (rowAt y0.toNat y1.toNat (x1.toNat - x0.toNat) (column - x0.toNat))
            column} := by
      ext a
      rw [min_eq_left hx.le, max_eq_right hx.le]
      constructor
      · rintro ⟨p, hp, rfl⟩
        obtain ⟨k, hk, rfl⟩ := List.mem_map.mp hp
        have hk := List.mem_range.mp hk
        refine ⟨x0.toNat + k, by omega, ?_⟩
        rw [Nat.add_sub_cancel_left]
      · rintro ⟨column, ⟨hmin, hmax⟩, rfl⟩
        refine ⟨_, List.mem_map.mpr ⟨column - x0.toNat, List.mem_range.mpr (by omega), rfl⟩, ?_⟩
        rw [Nat.add_sub_cancel' hmin]
    rw [← hset]
    exact paints_strokes s color _

/-- **Nearest pixels**: a line that is not steep has one pixel in each column, no more than half a
row away from the segment, and the same ones for both orders of the end points. -/
theorem drawsNearest (h0 : OnScreen s x0 y0) (h1 : OnScreen s x1 y1)
    (hy : 0 < Nat.dist y0.toNat y1.toNat)
    (hdy : Nat.dist y0.toNat y1.toNat ≤ Nat.dist x0.toNat x1.toNat) :
    ∃ ws, DrawsNearest s x0 y0 x1 y1 color ws ∧ DrawsNearest s x1 y1 x0 y0 color ws := by
  have hne : y0.toNat ≠ y1.toNat := by
    intro heq
    rw [heq, Nat.dist_self] at hy
    exact absurd hy (Nat.lt_irrefl 0)
  rcases Nat.lt_trichotomy x0.toNat x1.toNat with hlt | heq | hgt
  · rw [Nat.dist_eq_sub_of_le hlt.le] at hdy
    have h := @drawsNearest_of_lt s x0 y0 x1 y1 color h0 h1 hlt hne hdy
    exact ⟨_, h, h.swap hlt.ne (returns_gentle h0 h1 hlt hne hdy).2⟩
  · rw [heq, Nat.dist_self] at hdy
    omega
  · rw [Nat.dist_comm y0.toNat, Nat.dist_eq_sub_of_le_right hgt.le] at hdy
    have h := @drawsNearest_of_lt s x1 y1 x0 y0 color h1 h0 hgt hne.symm hdy
    exact ⟨_, h.swap hgt.ne (returns_gentle h1 h0 hgt hne.symm hdy).2, h⟩

/-- The falling line again. -/
theorem drawsNearest_falls : ∃ ws, DrawsNearest vga 0 240 320 0 0xFFFFFF ws ∧
    DrawsNearest vga 320 0 0 240 0xFFFFFF ws :=
  drawsNearest ⟨by decide, by decide⟩ ⟨by decide, by decide⟩ (by decide) (by decide)

end CfuPlayground.Framebuffer
