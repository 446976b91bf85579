import CfuPlayground.FilterPreload.Model

/-!
# The walk of a convolution

A convolution command adds at the counters it finds, advances, and lets `CALC_COORDS` decide on
the counters already advanced. `walk g n k` is this loop for at most `n` rounds from `k`: the
counters added at and the final counters, or `none` if `DONE` is not reached.

* `walk_column`: below the last depth step a walk stays at one filter point and ends there.
* `walk_eq`: the closed form, from any depth that is a multiple of four.
* `walk_isSome_iff`: a walk reaches `DONE` exactly if `Finishes` holds where it starts.
-/

namespace CfuPlayground.FilterPreload

/-- At most `n` rounds of `CONV_ADD` and `CALC_COORDS`. -/
def walk (g : Config) : ℕ → Counters → Option (List Counters × Counters)
  | 0, _ => none
  | n + 1, k =>
    match calcCoords g (advance g k) with
    | .execConvDone => some ([k], advance g k)
    | .execConvFetchVal => (walk g n (advance g k)).map fun w => (k :: w.1, w.2)
    | _ => none

/-- The counters at depth step `i` of the filter point of `k`. -/
def tapAt (k : Counters) (i : ℕ) : Counters := { k with curInputDepth := BitVec.ofNat 32 (4 * i) }

/-- `n` depth steps of the filter point of `k`, from step `i` on. -/
def column (k : Counters) (i n : ℕ) : List Counters := (List.range n).map fun l => tapAt k (i + l)

/-- The last depth step, at which the depth counter rests after a convolution. -/
def restIndex (g : Config) : ℕ := (g.inputChannelDepth.toNat - 1) / 4

/-- The depth test can see every depth step of the image. -/
def Fits (g : Config) : Prop := g.inputChannelDepth.toNat + 4 ≤ 2 ^ 32

instance (g : Config) : Decidable (Fits g) :=
  inferInstanceAs (Decidable (g.inputChannelDepth.toNat + 4 ≤ 2 ^ 32))

/-- The counters whose filter point a walk from `k` ends at. -/
def exit (g : Config) (k : Counters) : Counters := if depthEnd g k then advance g k else k

/-- The condition under which a convolution from the counters `k` reaches `DONE`. -/
def Finishes (g : Config) (k : Counters) : Prop :=
  Fits g ∧ columnEnd g (exit g k) = true ∧ rowEnd g (exit g k) = true

instance (g : Config) (k : Counters) : Decidable (Finishes g k) :=
  inferInstanceAs (Decidable (_ ∧ _))

variable {g : Config} {k : Counters} {i : ℕ}

theorem column_succ (n : ℕ) : column k i (n + 1) = tapAt k i :: column k (i + 1) n := by
  unfold column
  rw [List.range_succ_eq_map, List.map_cons, List.map_map]
  congr 1
  apply List.map_congr_left
  intro l _
  show tapAt k (i + (l + 1)) = tapAt k (i + 1 + l)
  rw [Nat.add_assoc, Nat.add_comm 1 l]

theorem tapAt_zero (h : k.curInputDepth = 0) : tapAt k 0 = k := by
  rcases k with ⟨d, x, y⟩
  cases h
  rfl

theorem restIndex_lt (hfit : Fits g) : 4 * restIndex g + 8 ≤ 2 ^ 32 := by
  unfold Fits at hfit
  unfold restIndex
  omega

theorem depthEnd_iff : depthEnd g k = true ↔
    g.inputChannelDepth.toNat ≤ (k.curInputDepth.toNat + 4) % 2 ^ 32 := by
  unfold depthEnd
  rw [decide_eq_true_iff, ge_iff_le, BitVec.le_def, BitVec.toNat_add]
  rfl

theorem depthEnd_tapAt (hi : 4 * i + 4 < 2 ^ 32) :
    depthEnd g (tapAt k i) = true ↔ restIndex g ≤ i := by
  rw [depthEnd_iff]
  unfold restIndex tapAt
  rw [BitVec.toNat_ofNat]
  omega

theorem advance_of_not_depthEnd (h : depthEnd g k = false) :
    advance g k = { k with curInputDepth := k.curInputDepth + 4 } := by
  simp [advance, h]

theorem advance_tapAt (h : depthEnd g (tapAt k i) = false) :
    advance g (tapAt k i) = tapAt k (i + 1) := by
  rw [advance_of_not_depthEnd h]
  unfold tapAt
  rw [Nat.mul_add, BitVec.ofNat_add]
  rfl

theorem advance_depth_of_depthEnd (h : depthEnd g k = true) :
    (advance g k).curInputDepth = 0 := by
  unfold advance
  rw [if_pos h]
  split_ifs <;> rfl

theorem calcCoords_of_not_depthEnd (h : depthEnd g k = false) :
    calcCoords g k = .execConvFetchVal := by
  simp [calcCoords, h]

theorem calcCoords_of_depthEnd (h : depthEnd g k = true) : calcCoords g k =
    if columnEnd g k && rowEnd g k then .execConvDone else .execConvCalcCoords := by
  cases hx : columnEnd g k <;> cases hy : rowEnd g k <;> simp [calcCoords, h, hx, hy]

theorem walk_of_fetch {n : ℕ} (h : calcCoords g (advance g k) = .execConvFetchVal) :
    walk g (n + 1) k = (walk g n (advance g k)).map fun w => (k :: w.1, w.2) := by
  simp only [walk, h]

/-- A walk whose next counters are at the last depth step ends there or gets stuck. -/
theorem walk_of_depthEnd {n : ℕ} (h : depthEnd g (advance g k) = true) :
    walk g (n + 1) k =
      if columnEnd g (advance g k) && rowEnd g (advance g k) then some ([k], advance g k)
      else none := by
  have hcalc := calcCoords_of_depthEnd h
  cases hc : columnEnd g (advance g k) && rowEnd g (advance g k) <;> rw [hc] at hcalc <;>
    simp only [walk, hcalc] <;> rfl

/-- **A column.** From a depth step before the last one, a walk visits the depth steps up to the
last one, which it does not visit, at one filter point. -/
theorem walk_column (hfit : Fits g) (k : Counters) {i j : ℕ} (hj : i + (j + 1) = restIndex g)
    (n : ℕ) :
    walk g (j + 1 + n) (tapAt k i) =
      if columnEnd g k && rowEnd g k then some (column k i (j + 1), tapAt k (restIndex g))
      else none := by
  have hrest := restIndex_lt hfit
  induction j generalizing i with
  | zero =>
    have hstep : advance g (tapAt k i) = tapAt k (restIndex g) := by
      rw [← hj]
      apply advance_tapAt
      rw [← Bool.not_eq_true, depthEnd_tapAt (by omega)]
      omega
    have hfuel : 0 + 1 + n = n + 1 := by omega
    rw [hfuel, walk_of_depthEnd (by rw [hstep, depthEnd_tapAt (by omega)]), hstep]
    rfl
  | succ j ih =>
    have hnot : ∀ l, l < restIndex g → depthEnd g (tapAt k l) = false := by
      intro l hl
      rw [← Bool.not_eq_true, depthEnd_tapAt (by omega)]
      omega
    have hstep : advance g (tapAt k i) = tapAt k (i + 1) := advance_tapAt (hnot i (by omega))
    have hcalc : calcCoords g (advance g (tapAt k i)) = .execConvFetchVal := by
      rw [hstep]
      exact calcCoords_of_not_depthEnd (hnot (i + 1) (by omega))
    have hfuel : j + 1 + 1 + n = (j + 1 + n) + 1 := by omega
    rw [hfuel, walk_of_fetch hcalc, hstep, ih (by omega)]
    split_ifs
    · rw [column_succ (j + 1)]
      rfl
    · rfl

theorem walk_of_lt (hfit : Fits g) (k : Counters) (hi : i < restIndex g) (n : ℕ) :
    walk g (restIndex g - i + n) (tapAt k i) =
      if columnEnd g k && rowEnd g k then
        some (column k i (restIndex g - i), tapAt k (restIndex g))
      else none := by
  obtain ⟨j, hj⟩ : ∃ j, restIndex g - i = j + 1 := ⟨restIndex g - i - 1, by omega⟩
  rw [hj, walk_column hfit k (by omega)]

theorem walk_of_wrap (hfit : Fits g) {e : Counters} (he : advance g k = e)
    (hdepth : e.curInputDepth = 0) (n : ℕ) :
    walk g (restIndex g + n + 1) k =
      if columnEnd g e && rowEnd g e then
        some (k :: column e 0 (restIndex g), tapAt e (restIndex g))
      else none := by
  have hrest := restIndex_lt hfit
  have htap : advance g k = tapAt e 0 := he.trans (tapAt_zero hdepth).symm
  rcases Nat.eq_zero_or_pos (restIndex g) with h0 | hpos
  · rw [walk_of_depthEnd (by rw [htap, depthEnd_tapAt (by omega), h0]), htap, h0]
    rfl
  · have hcalc : calcCoords g (advance g k) = .execConvFetchVal := by
      rw [htap]
      apply calcCoords_of_not_depthEnd
      rw [← Bool.not_eq_true, depthEnd_tapAt (by omega)]
      omega
    have hwalk := walk_of_lt hfit e hpos n
    rw [Nat.sub_zero] at hwalk
    rw [walk_of_fetch hcalc, htap, hwalk]
    split_ifs <;> rfl

/-! ## The closed form -/

/-- The counters that a walk from `k` adds at. -/
def visited (g : Config) (k : Counters) : List Counters :=
  if k.curInputDepth.toNat / 4 < restIndex g then
    column k (k.curInputDepth.toNat / 4) (restIndex g - k.curInputDepth.toNat / 4)
  else k :: column (exit g k) 0 (restIndex g)

theorem tapAt_div (hk : k.curInputDepth.toNat % 4 = 0) : tapAt k (k.curInputDepth.toNat / 4) = k := by
  have hmul : 4 * (k.curInputDepth.toNat / 4) = k.curInputDepth.toNat := by omega
  rcases k with ⟨d, x, y⟩
  simp only [tapAt, hmul, BitVec.ofNat_toNat, BitVec.setWidth_eq]

theorem walk_succ_of_some {n : ℕ} {w : List Counters × Counters} (h : walk g n k = some w) :
    walk g (n + 1) k = some w := by
  induction n generalizing k w with
  | zero => cases h
  | succ n ih =>
    rw [walk] at h ⊢
    split at h
    · exact h
    · obtain ⟨w', hw', rfl⟩ := Option.map_eq_some_iff.mp h
      rw [ih hw']
      rfl
    · cases h

theorem walk_add_of_some {n : ℕ} {w : List Counters × Counters} (h : walk g n k = some w)
    (m : ℕ) : walk g (n + m) k = some w := by
  induction m with
  | zero => exact h
  | succ m ih => exact walk_succ_of_some ih

theorem advance_depth_mod_four (hk : k.curInputDepth.toNat % 4 = 0) :
    (advance g k).curInputDepth.toNat % 4 = 0 := by
  unfold advance
  split_ifs
  · rfl
  · rfl
  · rfl
  · show (k.curInputDepth + 4).toNat % 4 = 0
    have h4 : (4 : Word).toNat = 4 := rfl
    rw [BitVec.toNat_add]
    omega

theorem walk_eq_none_of_not_fits (hfit : ¬ Fits g) (hk : k.curInputDepth.toNat % 4 = 0) (n : ℕ) :
    walk g n k = none := by
  have hnot : ∀ k : Counters, k.curInputDepth.toNat % 4 = 0 → depthEnd g k = false := by
    intro k hk
    have hlt := k.curInputDepth.isLt
    rw [← Bool.not_eq_true, depthEnd_iff]
    unfold Fits at hfit
    omega
  induction n generalizing k with
  | zero => rfl
  | succ n ih =>
    have hk' := advance_depth_mod_four (g := g) hk
    rw [walk_of_fetch (calcCoords_of_not_depthEnd (hnot _ hk')), ih hk']
    rfl

/-- A walk from before the last depth step ends at the filter point it starts at. -/
theorem exit_of_lt (hfit : Fits g) (hk : k.curInputDepth.toNat % 4 = 0)
    (hlt : k.curInputDepth.toNat / 4 < restIndex g) : exit g k = k := by
  have hrest := restIndex_lt hfit
  rw [exit, if_neg]
  rw [← tapAt_div hk, depthEnd_tapAt (by omega)]
  omega

/-- Past the last depth step that the depth test sees, the depth counter wraps around. -/
theorem advance_of_wrap (hk : k.curInputDepth.toNat % 4 = 0)
    (hge : ¬ k.curInputDepth.toNat / 4 < restIndex g) (hend : ¬ depthEnd g k = true) :
    advance g k = tapAt k 0 := by
  have hlast : k.curInputDepth.toNat + 4 = 2 ^ 32 := by
    have hlt := k.curInputDepth.isLt
    rw [← tapAt_div hk] at hend
    by_contra hne
    exact hend ((depthEnd_tapAt (by omega)).mpr (by omega))
  rw [advance_of_not_depthEnd (by simpa using hend), tapAt]
  congr 1
  apply BitVec.eq_of_toNat_eq
  have h4 : (4 : Word).toNat = 4 := rfl
  rw [BitVec.toNat_add, BitVec.toNat_ofNat]
  omega

/-- **The closed form.** A walk from a depth that is a multiple of four, with enough rounds. -/
theorem walk_eq (hk : k.curInputDepth.toNat % 4 = 0) (n : ℕ) :
    walk g (2 ^ 30 + n) k =
      if Finishes g k then some (visited g k, tapAt (exit g k) (restIndex g)) else none := by
  by_cases hfit : Fits g
  swap
  · rw [walk_eq_none_of_not_fits hfit hk, if_neg fun h => hfit h.1]
  have hrest := restIndex_lt hfit
  have hlt := k.curInputDepth.isLt
  have hif : ∀ w : List Counters × Counters,
      (if columnEnd g (exit g k) && rowEnd g (exit g k) then some w else none) =
        if Finishes g k then some w else none := by
    intro w
    simp [Finishes, hfit]
  rw [← hif]
  have hfuel : 2 ^ 30 + n = restIndex g + (2 ^ 30 + n - restIndex g - 1) + 1 := by omega
  unfold visited
  by_cases hbelow : k.curInputDepth.toNat / 4 < restIndex g
  · have hfuel' : 2 ^ 30 + n = restIndex g - k.curInputDepth.toNat / 4 +
        (2 ^ 30 + n - (restIndex g - k.curInputDepth.toNat / 4)) := by omega
    have hwalk := walk_of_lt hfit k hbelow
      (2 ^ 30 + n - (restIndex g - k.curInputDepth.toNat / 4))
    rw [tapAt_div hk] at hwalk
    rw [if_pos hbelow, exit_of_lt hfit hk hbelow, hfuel', hwalk]
  · rw [if_neg hbelow, hfuel]
    by_cases hend : depthEnd g k = true
    · have hexit : advance g k = exit g k := by rw [exit, if_pos hend]
      rw [walk_of_wrap hfit hexit (by rw [← hexit]; exact advance_depth_of_depthEnd hend)]
    · have hexit : exit g k = k := by rw [exit, if_neg hend]
      rw [walk_of_wrap hfit (advance_of_wrap hk hbelow hend) rfl, hexit]
      rfl

/-- **When a walk ends.** -/
theorem walk_isSome_iff (hk : k.curInputDepth.toNat % 4 = 0) (n : ℕ) :
    (walk g (2 ^ 30 + n) k).isSome = true ↔ Finishes g k := by
  rw [walk_eq hk]
  split_ifs with h <;> simp [h]

theorem walk_eq_none (hk : k.curInputDepth.toNat % 4 = 0) (h : ¬ Finishes g k) (n : ℕ) :
    walk g n k = none := by
  rw [Option.eq_none_iff_forall_ne_some]
  intro w hw
  have hmore := walk_add_of_some hw (2 ^ 30)
  rw [Nat.add_comm] at hmore
  exact h ((walk_isSome_iff hk n).mp (by rw [hmore]; rfl))

end CfuPlayground.FilterPreload
