import CfuPlayground.Framebuffer.Model
import CfuPlayground.Lib.Bresenham

/-!
# The strokes of a line

The stores of `fb_draw_line` in each of its cases: a point, an upright line, a level line, and
another line that is not steep, which is drawn from its left end point with the nearest pixel of
each column. Whatever the slope, there is one store for each column (`Returns.length_eq`).
-/

namespace CfuPlayground.Framebuffer

open Lib

variable {s : Screen} {x0 y0 x1 y1 color : BitVec 32}

/-! ## Numbers -/

theorem toInt_of_lt {x : BitVec 32} (h : x.toNat < 2 ^ 30) : x.toInt = x.toNat :=
  BitVec.toInt_eq_toNat_of_lt (by omega)

theorem int32_of_mem {z : ℤ} (hlo : -2 ^ 31 ≤ z) (hhi : z < 2 ^ 31) : int32 z = z := by
  rw [int32]
  apply Int.bmod_eq_of_le
  · omega
  · omega

theorem toInt_sub_of_lt {x y : BitVec 32} (hx : x.toNat < 2 ^ 30) (hy : y.toNat < 2 ^ 30) :
    (x - y).toInt = x.toNat - y.toNat := by
  rw [BitVec.toInt_sub, toInt_of_lt hx, toInt_of_lt hy]
  exact int32_of_mem (by omega) (by omega)

/-! ## The loop -/

theorem next_x (dx dy : ℤ) (st : LineState) : (st.next dx dy).x = int32 (st.x + 1) := by
  rw [LineState.next]
  split_ifs
  · rfl
  · rfl

theorem iterate_x (dx dy : ℤ) {st : LineState} {k : ℕ} (hlo : 0 ≤ st.x) (hk : st.x + k < 2 ^ 31) :
    ((LineState.next dx dy)^[k] st).x = st.x + k := by
  induction k with
  | zero => simp
  | succ k ih =>
    push_cast at hk
    rw [Function.iterate_succ_apply', next_x, ih (by omega), int32_of_mem (by omega) (by omega)]
    push_cast
    ring

/-- The state before the first round. -/
def lineStart (x0 y0 x1 y1 : BitVec 32) : LineState :=
  ⟨x0.toInt, y0.toInt, int32 (2 * (y1 - y0).toInt - (x1 - x0).toInt)⟩

/-- The state after `k` rounds. -/
def lineState (x0 y0 x1 y1 : BitVec 32) (k : ℕ) : LineState :=
  (LineState.next (x1 - x0).toInt (y1 - y0).toInt)^[k] (lineStart x0 y0 x1 y1)

theorem slopeLoop_eq {fuel : ℕ} (flip : Bool) (hx0 : x0.toNat < 2 ^ 30) (hx1 : x1.toNat < 2 ^ 30)
    (h : x0.toNat ≤ x1.toNat) (hfuel : x1.toNat - x0.toNat + 1 < fuel) :
    slopeLoop s fuel flip x0 y0 x1 y1 color =
      some ((List.range (x1.toNat - x0.toNat + 1)).map fun k =>
        (advance s.base (lineOffset s flip y0 y1 (lineState x0 y0 x1 y1 k)), color)) := by
  have hx : ∀ k ≤ x1.toNat - x0.toNat + 1,
      (lineState x0 y0 x1 y1 k).x = x0.toNat + k := by
    intro k hk
    have hstart : (lineStart x0 y0 x1 y1).x = x0.toNat := toInt_of_lt hx0
    rw [lineState, iterate_x _ _ (by omega) (by omega), hstart]
  apply @emitWhile_eq _ _ _ _ _ _ (lineState x0 y0 x1 y1)
  · intro k hk
    rw [decide_eq_true_eq, hx k hk.le, toInt_of_lt hx1]
    omega
  · intro k _
    exact (Function.iterate_succ_apply' _ _ _).symm
  · rw [decide_eq_false_iff_not, hx _ le_rfl, toInt_of_lt hx1]
    omega
  · exact hfuel

/-- Where a line rises by no more rows than columns, the state is the nearest row and its sign. -/
theorem iterate_next {x y dx dy k : ℕ} (h : dy ≤ dx) (hx : x + dx < 2 ^ 30) (hy : y + dy < 2 ^ 30)
    (hdx : 0 < dx) (hk : k ≤ dx) : (LineState.next dx dy)^[k] ⟨x, y, int32 (2 * dy - dx)⟩ =
      ⟨x + k, y + rise dx dy k, decision dx dy k⟩ := by
  induction k with
  | zero =>
    rw [Function.iterate_zero_apply, decision_zero, int32_of_mem (by omega) (by omega), rise]
    simp
  | succ k ih =>
    have hrise := rise_le hdx h hk
    obtain ⟨hlo, hhi⟩ := decision_bounds h (k + 1)
    have hcolumn : int32 ((x : ℤ) + k + 1) = x + (k + 1 : ℕ) := by
      rw [int32_of_mem (by omega) (by omega)]
      push_cast
      ring
    rw [Function.iterate_succ_apply', ih (by omega), LineState.next]
    rcases le_or_gt (decision dx dy k) 0 with hd | hd
    · have hincrement : int32 (2 * (dy : ℤ)) = 2 * dy := int32_of_mem (by omega) (by omega)
      rw [if_pos hd, hcolumn, hincrement, ← decision_succ_of_nonpos hd,
        int32_of_mem (by omega) (by omega), rise_succ_of_nonpos hd]
    · have hincrement : int32 (2 * ((dy : ℤ) - dx)) = 2 * (dy - dx) :=
        int32_of_mem (by omega) (by omega)
      have hup := rise_succ_of_pos hd
      have hrow : int32 ((y : ℤ) + rise dx dy k + 1) = y + (rise dx dy k + 1 : ℕ) := by
        rw [int32_of_mem (by omega) (by omega)]
        push_cast
        ring
      rw [if_neg (not_le.mpr hd), hcolumn, hrow, hincrement, ← decision_succ_of_pos hd,
        int32_of_mem (by omega) (by omega), hup]

/-! ## Strokes -/

/-- The stores that draw pixels, given as columns and rows. -/
def strokes (s : Screen) (color : BitVec 32) (path : List (ℕ × ℕ)) : List Store :=
  path.map fun p => (s.pixel p.2 p.1, color)

theorem strokes_map_range (n : ℕ) (f : ℕ → ℕ × ℕ) : strokes s color ((List.range n).map f) =
    (List.range n).map fun k => (s.pixel (f k).2 (f k).1, color) := by
  rw [strokes, List.map_map]
  rfl

theorem advance_eq_pixel {n : BitVec 32} {row column : ℕ}
    (h : n.toNat = row * s.width + column) : advance s.base n = s.pixel row column := by
  rw [advance_base, h, Screen.pixel]

/-- A point of the screen. -/
structure OnScreen (s : Screen) (x y : BitVec 32) : Prop where
  column : x.toNat < s.width
  row : y.toNat < s.height

theorem OnScreen.column_lt {x y : BitVec 32} (h : OnScreen s x y) : x.toNat < 2 ^ 30 :=
  h.column.trans (width_lt s)

theorem OnScreen.row_lt {x y : BitVec 32} (h : OnScreen s x y) : y.toNat < 2 ^ 30 :=
  h.row.trans (height_lt s)

/-- The pixels of a line that is not steep, from the left end point. -/
def gentlePath (x0 y0 x1 y1 : BitVec 32) : List (ℕ × ℕ) :=
  (List.range (x1.toNat - x0.toNat + 1)).map fun k =>
    (x0.toNat + k, rowAt y0.toNat y1.toNat (x1.toNat - x0.toNat) k)

/-- The offset of a round is that of the pixel: a line that falls is drawn mirrored. -/
theorem lineOffset_false {row column : ℕ} {d : ℤ} (hr : row < s.height) (hc : column < s.width) :
    (lineOffset s false y0 y1 ⟨column, row, d⟩).toNat = row * s.width + column := by
  have hlt := (index_lt s hr hc).trans s.area_lt
  have hcast : (row : ℤ) * s.width + column = (row * s.width + column : ℕ) := by push_cast; ring
  rw [lineOffset, if_neg (by decide), hcast, BitVec.ofInt_natCast, BitVec.toNat_ofNat]
  omega

theorem lineOffset_true {row column : ℕ} {d : ℤ} (hr : y0.toNat + y1.toNat - row < s.height)
    (hle : row ≤ y0.toNat + y1.toNat) (hc : column < s.width) :
    (lineOffset s true y0 y1 ⟨column, row, d⟩).toNat =
      (y0.toNat + y1.toNat - row) * s.width + column := by
  have hlt := (index_lt s hr hc).trans s.area_lt
  have hrow : y0 + y1 - BitVec.ofInt 32 row = BitVec.ofNat 32 (y0.toNat + y1.toNat - row) := by
    have hsum : y0 + y1 = BitVec.ofNat 32 (y0.toNat + y1.toNat - row) + BitVec.ofNat 32 row := by
      rw [← BitVec.ofNat_add, Nat.sub_add_cancel hle, BitVec.ofNat_add, BitVec.ofNat_toNat,
        BitVec.ofNat_toNat, BitVec.setWidth_eq, BitVec.setWidth_eq]
    rw [BitVec.ofInt_natCast, hsum, BitVec.add_sub_cancel]
  have hwidth : s.fbWidth = BitVec.ofNat 32 s.width := rfl
  rw [lineOffset, if_pos rfl, hrow, BitVec.ofInt_natCast, hwidth, ← BitVec.ofNat_mul,
    ← BitVec.ofNat_add, BitVec.toNat_ofNat]
  omega

theorem slopeLoop_gentle {fuel : ℕ} (flip : Bool) (h0 : OnScreen s x0 y0) (h1 : OnScreen s x1 y1)
    (hx : x0.toNat < x1.toNat) (hy : y0.toNat ≤ y1.toNat)
    (hdy : y1.toNat - y0.toNat ≤ x1.toNat - x0.toNat) (hfuel : x1.toNat - x0.toNat + 1 < fuel) :
    slopeLoop s fuel flip x0 y0 x1 y1 color = some (strokes s color
      ((List.range (x1.toNat - x0.toNat + 1)).map fun k => (x0.toNat + k,
        if flip then y1.toNat - rise (x1.toNat - x0.toNat) (y1.toNat - y0.toNat) k
        else y0.toNat + rise (x1.toNat - x0.toNat) (y1.toNat - y0.toNat) k))) := by
  rw [slopeLoop_eq flip h0.column_lt h1.column_lt hx.le hfuel, strokes_map_range]
  apply congrArg some
  apply List.map_congr_left
  intro k hk
  have hk : k ≤ x1.toNat - x0.toNat := Nat.lt_succ_iff.mp (List.mem_range.mp hk)
  have hrise := rise_le (by omega) hdy hk
  have hc0 := h0.column_lt
  have hc1 := h1.column_lt
  have hr1 := h1.row_lt
  have hcolumn := h1.column
  have hrow := h1.row
  have hstate := iterate_next hdy (by omega : x0.toNat + _ < 2 ^ 30)
    (by omega : y0.toNat + _ < 2 ^ 30) (by omega) hk
  have hdx : (x1 - x0).toInt = (x1.toNat - x0.toNat : ℕ) := by
    rw [toInt_sub_of_lt hc1 hc0]
    omega
  have hdy' : (y1 - y0).toInt = (y1.toNat - y0.toNat : ℕ) := by
    rw [toInt_sub_of_lt hr1 h0.row_lt]
    omega
  rw [lineState, lineStart, hdx, hdy', toInt_of_lt hc0, toInt_of_lt h0.row_lt, hstate,
    ← Nat.cast_add, ← Nat.cast_add]
  apply Prod.ext
  · apply advance_eq_pixel
    cases flip with
    | false =>
      exact lineOffset_false (by omega) (by omega)
    | true =>
      rw [lineOffset_true (by omega) (by omega) (by omega)]
      have hmirror : ∀ r, y0.toNat + y1.toNat - (y0.toNat + r) = y1.toNat - r := by omega
      rw [hmirror]
      rfl
  · rfl

theorem flipCase_gentle {fuel : ℕ} (h0 : OnScreen s x0 y0) (h1 : OnScreen s x1 y1)
    (hx : x0.toNat < x1.toNat)
    (hdy : Nat.dist y0.toNat y1.toNat ≤ x1.toNat - x0.toNat)
    (hfuel : x1.toNat - x0.toNat + 1 < fuel) :
    flipCase s fuel x0 y0 x1 y1 color = some (strokes s color (gentlePath x0 y0 x1 y1)) := by
  rw [Nat.dist] at hdy
  unfold flipCase
  by_cases hlt : y1.toNat < y0.toNat
  · have hloop := @slopeLoop_gentle s x0 y1 x1 y0 color fuel true ⟨h0.column, h1.row⟩
      ⟨h1.column, h0.row⟩ hx hlt.le (by omega) hfuel
    rw [if_pos (BitVec.lt_def.mpr hlt), hloop]
    simp only [gentlePath, rowAt, if_pos hlt, if_true]
  · have hloop := @slopeLoop_gentle s x0 y0 x1 y1 color fuel false h0 h1 hx (by omega) (by omega)
      hfuel
    rw [if_neg fun h => hlt (BitVec.lt_def.mp h), hloop]
    simp only [gentlePath, rowAt, if_neg hlt, if_false, Bool.false_eq_true]

/-! ## Level and upright lines -/

theorem toNat_add_ofNat {x : BitVec 32} {k : ℕ} (h : x.toNat + k < 2 ^ 32) :
    (x + BitVec.ofNat 32 k).toNat = x.toNat + k := by
  rw [BitVec.toNat_add, BitVec.toNat_ofNat]
  omega

theorem add_ofNat_succ (x : BitVec 32) (k : ℕ) :
    x + BitVec.ofNat 32 (k + 1) = x + BitVec.ofNat 32 k + 1 := by
  rw [BitVec.ofNat_add, BitVec.add_assoc]
  rfl

theorem toNat_index {x y : BitVec 32} (h : OnScreen s x y) :
    (y * s.fbWidth + x).toNat = y.toNat * s.width + x.toNat := by
  have hindex := (index_lt s h.row h.column).trans s.area_lt
  rw [BitVec.toNat_add, BitVec.toNat_mul, fbWidth_toNat]
  omega

theorem countLoop_eq {σ ω : Type} {counter : σ → BitVec 32} {emit : σ → ω} {next : σ → σ}
    {f : ℕ → σ} {start stop : BitVec 32} {fuel : ℕ} (hlt : stop.toNat < 2 ^ 30)
    (hle : start.toNat ≤ stop.toNat) (hfuel : stop.toNat - start.toNat + 1 < fuel)
    (hcounter : ∀ k, counter (f k) = start + BitVec.ofNat 32 k)
    (hnext : ∀ k, next (f k) = f (k + 1)) :
    emitWhile (fun st => decide (counter st ≤ stop)) emit next fuel (f 0) =
      some ((List.range (stop.toNat - start.toNat + 1)).map fun k => emit (f k)) := by
  have hcount : ∀ k ≤ stop.toNat - start.toNat + 1, (counter (f k)).toNat = start.toNat + k := by
    intro k hk
    rw [hcounter, toNat_add_ofNat (by omega)]
  apply emitWhile_eq
  · intro k hk
    rw [decide_eq_true_eq, BitVec.le_def, hcount k hk.le]
    omega
  · exact fun k _ => hnext k
  · rw [decide_eq_false_iff_not, BitVec.le_def, hcount _ le_rfl]
    omega
  · exact hfuel

theorem verticalLoop_eq {start stop x : BitVec 32} {fuel : ℕ} (hstop : OnScreen s x stop)
    (hle : start.toNat ≤ stop.toNat) (hfuel : stop.toNat - start.toNat + 1 < fuel) :
    emitWhile (fun st => decide (st.1 ≤ stop)) (fun st => (advance s.base st.2, color))
      (fun st => (st.1 + 1, st.2 + s.fbWidth)) fuel (start, start * s.fbWidth + x) =
      some (strokes s color ((List.range (stop.toNat - start.toNat + 1)).map fun k =>
        (x.toNat, start.toNat + k))) := by
  let f : ℕ → BitVec 32 × BitVec 32 := fun k =>
    (start + BitVec.ofNat 32 k, (start + BitVec.ofNat 32 k) * s.fbWidth + x)
  have hnext : ∀ k, ((f k).1 + 1, (f k).2 + s.fbWidth) = f (k + 1) := by
    intro k
    apply Prod.ext
    · exact (add_ofNat_succ start k).symm
    · simp only [f, add_ofNat_succ]
      ring
  have hloop := @countLoop_eq _ _ Prod.fst (fun st => (advance s.base st.2, color))
    (fun st => (st.1 + 1, st.2 + s.fbWidth)) f start stop fuel hstop.row_lt hle hfuel
    (fun _ => rfl) hnext
  have hstart : f 0 = (start, start * s.fbWidth + x) := by simp [f]
  rw [hstart] at hloop
  refine hloop.trans ?_
  rw [strokes_map_range]
  apply congrArg some
  apply List.map_congr_left
  intro k hk
  have hk := List.mem_range.mp hk
  have hlt := hstop.row_lt
  have hheight := hstop.row
  have hrow : (start + BitVec.ofNat 32 k).toNat = start.toNat + k := toNat_add_ofNat (by omega)
  have hon : OnScreen s x (start + BitVec.ofNat 32 k) := ⟨hstop.column, by omega⟩
  apply Prod.ext
  · exact advance_eq_pixel ((toNat_index hon).trans (by rw [hrow]))
  · rfl

theorem horizontalLoop_eq {start stop y : BitVec 32} {fuel : ℕ} (hstop : OnScreen s stop y)
    (hle : start.toNat ≤ stop.toNat) (hfuel : stop.toNat - start.toNat + 1 < fuel) :
    emitWhile (fun i => decide (i ≤ stop))
      (fun i => (advance (advance s.base (y * s.fbWidth)) i, color)) (· + 1) fuel start =
      some (strokes s color ((List.range (stop.toNat - start.toNat + 1)).map fun k =>
        (start.toNat + k, y.toNat))) := by
  let f : ℕ → BitVec 32 := fun k => start + BitVec.ofNat 32 k
  have hloop := @countLoop_eq _ _ id
    (fun i => (advance (advance s.base (y * s.fbWidth)) i, color)) (· + 1) f start stop fuel
    hstop.column_lt hle hfuel (fun _ => rfl) (fun k => (add_ofNat_succ start k).symm)
  have hstart : f 0 = start := by simp [f]
  rw [hstart] at hloop
  refine hloop.trans ?_
  rw [strokes_map_range]
  apply congrArg some
  apply List.map_congr_left
  intro k hk
  have hk := List.mem_range.mp hk
  have hlt := hstop.column_lt
  have hcolumn : (f k).toNat = start.toNat + k := toNat_add_ofNat (by omega)
  have hoffset : (y * s.fbWidth).toNat = y.toNat * s.width := by
    have hindex := (index_lt s hstop.row hstop.column).trans s.area_lt
    rw [BitVec.toNat_mul, fbWidth_toNat]
    omega
  rw [advance_base, advance_word, hoffset, hcolumn]
  rfl

/-! ## The cases of the function -/

/-- The routine returns after these stores. -/
def Returns (s : Screen) (x0 y0 x1 y1 color : BitVec 32) (ws : List Store) : Prop :=
  ∃ n, ∀ fuel > n, fbDrawLine s fuel x0 y0 x1 y1 color = some ws

theorem toInt_sub_eq_zero {x y : BitVec 32} (hx : x.toNat < 2 ^ 30) (hy : y.toNat < 2 ^ 30) :
    (x - y).toInt = 0 ↔ y.toNat = x.toNat := by
  rw [toInt_sub_of_lt hx hy]
  omega

theorem toNat_ite_min (x y : BitVec 32) : (if x < y then x else y).toNat = min x.toNat y.toNat := by
  split_ifs with h
  · rw [BitVec.lt_def] at h
    omega
  · rw [BitVec.lt_def] at h
    omega

theorem toNat_ite_max (x y : BitVec 32) : (if x < y then y else x).toNat = max x.toNat y.toNat := by
  split_ifs with h
  · rw [BitVec.lt_def] at h
    omega
  · rw [BitVec.lt_def] at h
    omega

theorem returns_point (h0 : OnScreen s x0 y0) (h1 : OnScreen s x1 y1)
    (hx : x0.toNat = x1.toNat) (hy : y0.toNat = y1.toNat) :
    Returns s x0 y0 x1 y1 color (strokes s color [(x0.toNat, y0.toNat)]) := by
  refine ⟨0, fun fuel _ => ?_⟩
  have hdx := (toInt_sub_eq_zero h1.column_lt h0.column_lt).mpr hx
  have hdy := (toInt_sub_eq_zero h1.row_lt h0.row_lt).mpr hy
  unfold fbDrawLine
  rw [if_pos ⟨hdx, hdy⟩, advance_eq_pixel (toNat_index h0)]
  rfl

theorem returns_vertical (h0 : OnScreen s x0 y0) (h1 : OnScreen s x1 y1)
    (hx : x0.toNat = x1.toNat) (hy : y0.toNat ≠ y1.toNat) :
    Returns s x0 y0 x1 y1 color (strokes s color
      ((List.range (max y0.toNat y1.toNat - min y0.toNat y1.toNat + 1)).map fun k =>
        (x0.toNat, min y0.toNat y1.toNat + k))) := by
  refine ⟨max y0.toNat y1.toNat - min y0.toNat y1.toNat + 1, fun fuel hfuel => ?_⟩
  have hdx := (toInt_sub_eq_zero h1.column_lt h0.column_lt).mpr hx
  have hdy := mt (toInt_sub_eq_zero h1.row_lt h0.row_lt).mp hy
  have hr0 := h0.row
  have hr1 := h1.row
  unfold fbDrawLine
  rw [if_neg fun h => hdy h.2, if_pos hdx]
  rw [← toNat_ite_min, ← toNat_ite_max] at hfuel ⊢
  apply verticalLoop_eq
  · refine ⟨h0.column, ?_⟩
    rw [toNat_ite_max]
    omega
  · rw [toNat_ite_min, toNat_ite_max]
    omega
  · exact hfuel

theorem returns_horizontal (h0 : OnScreen s x0 y0) (h1 : OnScreen s x1 y1)
    (hx : x0.toNat ≠ x1.toNat) (hy : y0.toNat = y1.toNat) :
    Returns s x0 y0 x1 y1 color (strokes s color
      ((List.range (max x0.toNat x1.toNat - min x0.toNat x1.toNat + 1)).map fun k =>
        (min x0.toNat x1.toNat + k, y0.toNat))) := by
  refine ⟨max x0.toNat x1.toNat - min x0.toNat x1.toNat + 1, fun fuel hfuel => ?_⟩
  have hdx := mt (toInt_sub_eq_zero h1.column_lt h0.column_lt).mp hx
  have hdy := (toInt_sub_eq_zero h1.row_lt h0.row_lt).mpr hy
  have hc0 := h0.column
  have hc1 := h1.column
  unfold fbDrawLine
  rw [if_neg fun h => hdx h.1, if_neg hdx, if_pos hdy]
  rw [← toNat_ite_min, ← toNat_ite_max] at hfuel ⊢
  apply horizontalLoop_eq
  · refine ⟨?_, h0.row⟩
    rw [toNat_ite_max]
    omega
  · rw [toNat_ite_min, toNat_ite_max]
    omega
  · exact hfuel

theorem returns_other {ws : List Store} {n : ℕ} (h0 : OnScreen s x0 y0) (h1 : OnScreen s x1 y1)
    (hx : x0.toNat < x1.toNat) (hy : y0.toNat ≠ y1.toNat)
    (hflip : ∀ fuel > n, flipCase s fuel x0 y0 x1 y1 color = some ws) :
    Returns s x0 y0 x1 y1 color ws ∧ Returns s x1 y1 x0 y0 color ws := by
  have hdx := mt (toInt_sub_eq_zero h1.column_lt h0.column_lt).mp hx.ne
  have hdy := mt (toInt_sub_eq_zero h1.row_lt h0.row_lt).mp hy
  have hdx' := mt (toInt_sub_eq_zero h0.column_lt h1.column_lt).mp hx.ne'
  have hdy' := mt (toInt_sub_eq_zero h0.row_lt h1.row_lt).mp hy.symm
  constructor
  · refine ⟨n, fun fuel hfuel => ?_⟩
    unfold fbDrawLine
    rw [if_neg fun h => hdx h.1, if_neg hdx, if_neg hdy, otherCase,
      if_neg fun h => absurd (BitVec.lt_def.mp h) (by omega), hflip fuel hfuel]
  · refine ⟨n, fun fuel hfuel => ?_⟩
    unfold fbDrawLine
    rw [if_neg fun h => hdx' h.1, if_neg hdx', if_neg hdy', otherCase,
      if_pos (BitVec.lt_def.mpr hx), hflip fuel hfuel]

/-- Both orders of the end points of a line that is not steep draw the same strokes. -/
theorem returns_gentle (h0 : OnScreen s x0 y0) (h1 : OnScreen s x1 y1)
    (hx : x0.toNat < x1.toNat) (hy : y0.toNat ≠ y1.toNat)
    (hdy : Nat.dist y0.toNat y1.toNat ≤ x1.toNat - x0.toNat) :
    Returns s x0 y0 x1 y1 color (strokes s color (gentlePath x0 y0 x1 y1)) ∧
      Returns s x1 y1 x0 y0 color (strokes s color (gentlePath x0 y0 x1 y1)) :=
  returns_other h0 h1 hx hy fun _ hfuel => flipCase_gentle h0 h1 hx hdy hfuel

theorem flipCase_length {fuel : ℕ} {ws : List Store} (h0 : OnScreen s x0 y0)
    (h1 : OnScreen s x1 y1) (hx : x0.toNat < x1.toNat) (hfuel : x1.toNat - x0.toNat + 1 < fuel)
    (h : flipCase s fuel x0 y0 x1 y1 color = some ws) :
    ws.length = x1.toNat - x0.toNat + 1 := by
  unfold flipCase at h
  by_cases hlt : y1 < y0
  · rw [if_pos hlt, slopeLoop_eq _ h0.column_lt h1.column_lt hx.le hfuel] at h
    rw [← Option.some.inj h, List.length_map, List.length_range]
  · rw [if_neg hlt, slopeLoop_eq _ h0.column_lt h1.column_lt hx.le hfuel] at h
    rw [← Option.some.inj h, List.length_map, List.length_range]

theorem Returns.length_eq {ws : List Store} (h : Returns s x0 y0 x1 y1 color ws)
    (h0 : OnScreen s x0 y0) (h1 : OnScreen s x1 y1) (hx : x0.toNat ≠ x1.toNat)
    (hy : y0.toNat ≠ y1.toNat) : ws.length = Nat.dist x0.toNat x1.toNat + 1 := by
  obtain ⟨n, hn⟩ := h
  have hdx := mt (toInt_sub_eq_zero h1.column_lt h0.column_lt).mp hx
  have hdy := mt (toInt_sub_eq_zero h1.row_lt h0.row_lt).mp hy
  have hws := hn (max n (Nat.dist x0.toNat x1.toNat + 1) + 1) (by omega)
  unfold fbDrawLine at hws
  rw [if_neg fun h => hdx h.1, if_neg hdx, if_neg hdy, otherCase] at hws
  rcases Nat.lt_or_gt_of_ne hx with hlt | hgt
  · rw [if_neg fun h => absurd (BitVec.lt_def.mp h) (by omega)] at hws
    rw [Nat.dist_eq_sub_of_le hlt.le] at hws ⊢
    exact flipCase_length h0 h1 hlt (by omega) hws
  · rw [if_pos (BitVec.lt_def.mpr hgt)] at hws
    rw [Nat.dist_eq_sub_of_le_right hgt.le] at hws ⊢
    exact flipCase_length h1 h0 hgt (by omega) hws

end CfuPlayground.Framebuffer
