import CfuPlayground.FilterPreload.Taps

/-!
# When a convolution covers the taps of the reference

`convAcc` is what the convolution of an output leaves in the accumulator, from a depth counter
`depth`. `Covers` is the condition on geometry, depth counter and output position under which this
is the accumulator of the reference, for all tensors:

* `convAcc_of_covers`: then it is;
* `covers_of_exact`: conversely, if the selected taps of the walk are the filter points inside the
  image, the position is covered.
-/

namespace CfuPlayground.FilterPreload

open Lib Tflite

/-- The accumulator after the convolution of an output, from depth counter `depth`. -/
def convAcc (mem : Memory) (g : Geometry) (r : Arguments) (p : Position) (depth : Word) :
    Option Word :=
  (walk (convConfig g r p) (2 ^ 30) ⟨depth, 0, 0⟩).map fun w =>
    (w.1.map (tapSum mem (convConfig g r p))).sum

/-- No counters of a walk from `k` select a lane. -/
def AddsNothing (c : Config) (k : Counters) : Prop :=
  addSelect c k 0 = false ∧ (restIndex c = 0 ∨ addSelect c (tapAt (exit c k) 0) 0 = false)

instance (c : Config) (k : Counters) : Decidable (AddsNothing c k) :=
  inferInstanceAs (Decidable (_ ∧ _))

/-- The only filter point inside the image is the first one. -/
def OnlyOrigin (g : Geometry) (outY outX : Word) : Prop :=
  ∀ y ∈ indices g.filterHeight, ∀ x ∈ indices g.filterWidth,
    g.inside outY outX y x = true ↔ y = 0 ∧ x = 0

/-- No filter point is inside the image. -/
def Outside (g : Geometry) (outY outX : Word) : Prop :=
  ∀ y ∈ indices g.filterHeight, ∀ x ∈ indices g.filterWidth, g.inside outY outX y x = false

/-- The depth counter stands at the last depth step and only the first filter point is inside
the image; or no filter point is, and the walk ends and adds nothing. -/
def Covers (g : Geometry) (depth outY outX : Word) : Prop :=
  depth = g.inputDepth - 4 ∧ OnlyOrigin g outY outX ∨
    Outside g outY outX ∧ Finishes (walkConfig g outY outX) ⟨depth, 0, 0⟩ ∧
      AddsNothing (walkConfig g outY outX) ⟨depth, 0, 0⟩

-- Over the lists, not over all words.
instance (g : Geometry) (outY outX : Word) : Decidable (OnlyOrigin g outY outX) :=
  @List.decidableBAll _ _ (fun _ => List.decidableBAll _ _) _

instance (g : Geometry) (outY outX : Word) : Decidable (Outside g outY outX) :=
  @List.decidableBAll _ _ (fun _ => List.decidableBAll _ _) _

instance (g : Geometry) (depth outY outX : Word) : Decidable (Covers g depth outY outX) :=
  inferInstanceAs (Decidable (depth = g.inputDepth - 4 ∧ OnlyOrigin g outY outX ∨
    Outside g outY outX ∧ Finishes (walkConfig g outY outX) ⟨depth, 0, 0⟩ ∧
      AddsNothing (walkConfig g outY outX) ⟨depth, 0, 0⟩))

variable {g : Geometry} {r : Arguments} {mem : Memory} {p : Position} {k : Counters}
  {c : Config} {depth outY outX : Word}

/-! ## The convolution as a sum -/

theorem convAcc_eq (hdepth : depth.toNat % 4 = 0) : convAcc mem g r p depth =
    if Finishes (walkConfig g p.outY p.outX) ⟨depth, 0, 0⟩ then
      some ((visited (walkConfig g p.outY p.outX) ⟨depth, 0, 0⟩).map
        (tapSum mem (convConfig g r p))).sum
    else none := by
  have hwalk := walk_eq (g := convConfig g r p) (k := ⟨depth, 0, 0⟩) hdepth 0
  rw [Nat.add_zero] at hwalk
  rw [convAcc, hwalk, apply_ite (Option.map _)]
  rfl

theorem fits_walkConfig (hv : g.Valid) : Fits (walkConfig g outY outX) := by
  have hpos := toNat_toInt_of_pos hv.inputDepth
  have hlt := BitVec.toInt_lt (x := g.inputDepth)
  show g.inputDepth.toNat + 4 ≤ 2 ^ 32
  omega

/-! ## Selection -/

theorem addSelect_tapAt {i : ℕ} (hfit : Fits c) (hpos : 0 < c.inputChannelDepth.toNat)
    (hi : i ≤ restIndex c) : addSelect c (tapAt k i) 0 = addSelect c (tapAt k 0) 0 := by
  have hrest := restIndex_lt hfit
  unfold addSelect
  congr 1
  rw [decide_eq_decide, BitVec.lt_def, BitVec.lt_def, BitVec.toNat_add, BitVec.toNat_add]
  unfold restIndex at hi hrest
  simp only [tapAt, BitVec.toNat_ofNat]
  omega

theorem mem_column {t : Counters} {i n : ℕ} :
    t ∈ column k i n ↔ ∃ l < n, tapAt k (i + l) = t := by
  simp [column]

theorem aligned_of_mem_visited (hk : k.curInputDepth.toNat % 4 = 0) {t : Counters}
    (ht : t ∈ visited c k) : t.curInputDepth.toNat % 4 = 0 := by
  unfold visited at ht
  split_ifs at ht
  · obtain ⟨l, -, rfl⟩ := mem_column.mp ht
    exact mod_four _
  · rcases List.mem_cons.mp ht with rfl | ht
    · exact hk
    · obtain ⟨l, -, rfl⟩ := mem_column.mp ht
      exact mod_four _

theorem addsNothing_iff (hfit : Fits c) (hpos : 0 < c.inputChannelDepth.toNat)
    (hk : k.curInputDepth.toNat % 4 = 0) :
    AddsNothing c k ↔ ∀ t ∈ visited c k, addSelect c t 0 = false := by
  unfold visited
  split_ifs with hbelow
  · have hexit : exit c k = k := exit_of_lt hfit hk hbelow
    have hself : addSelect c k 0 = addSelect c (tapAt k 0) 0 := by
      rw [← addSelect_tapAt (k := k) hfit hpos hbelow.le, tapAt_div hk]
    constructor
    · rintro ⟨hsel, -⟩ t ht
      obtain ⟨l, hl, rfl⟩ := mem_column.mp ht
      rw [addSelect_tapAt hfit hpos (by omega), ← hself]
      exact hsel
    · intro h
      have hsel := h _ (mem_column.mpr ⟨0, by omega, rfl⟩)
      rw [addSelect_tapAt hfit hpos (by omega)] at hsel
      exact ⟨hself.trans hsel, .inr (by rw [hexit]; exact hsel)⟩
  · constructor
    · rintro ⟨hsel, hrest⟩ t ht
      rcases List.mem_cons.mp ht with rfl | ht
      · exact hsel
      · obtain ⟨l, hl, rfl⟩ := mem_column.mp ht
        rw [addSelect_tapAt hfit hpos (by omega)]
        exact hrest.resolve_left (by omega)
    · intro h
      refine ⟨h k List.mem_cons_self, ?_⟩
      rcases Nat.eq_zero_or_pos (restIndex c) with h0 | hpos'
      · exact .inl h0
      · exact .inr (h _ (List.mem_cons_of_mem _ (mem_column.mpr ⟨0, hpos', rfl⟩)))

/-! ## Covered positions -/

theorem zero_mem_indices {n : Word} (h : 0 < n.toInt) : 0 ∈ indices n :=
  mem_indices.mpr ⟨0, by omega, rfl⟩

theorem ofNat_mem_indices {n : Word} {i : ℕ} (h : 0 < n.toInt) (hi : i < n.toNat) :
    BitVec.ofNat 32 i ∈ indices n :=
  mem_indices.mpr ⟨i, by rwa [toNat_toInt_of_pos h], rfl⟩

theorem toNat_lt_of_pos {n : Word} (h : 0 < n.toInt) : n.toNat < 2 ^ 31 := by
  have hpos := toNat_toInt_of_pos h
  have hlt := BitVec.toInt_lt (x := n)
  omega

theorem inRange_iff {n x : Word} (h : 0 < n.toInt) :
    (0 ≤ x.toInt ∧ x.toInt < n.toInt) ↔ x.toNat < n.toNat := by
  have hn := toNat_toInt_of_pos h
  have hlt := toNat_lt_of_pos h
  rw [BitVec.toInt_eq_toNat_cond x]
  split_ifs <;> omega

theorem inside_iff_toNat (hv : g.Valid) {y x : Word} : g.inside outY outX y x = true ↔
    (g.inX outX x).toNat < g.inputWidth.toNat ∧ (g.inY outY y).toNat < g.inputHeight.toNat := by
  rw [Geometry.inside_iff, inRange_iff hv.inputWidth, inRange_iff hv.inputHeight]

/-- If only the first filter point is inside the image, it is in the last column and row. -/
theorem ends_of_onlyOrigin (hv : g.Valid) (h : OnlyOrigin g outY outX) (d : Word) :
    columnEnd (walkConfig g outY outX) ⟨d, 0, 0⟩ = true ∧
      rowEnd (walkConfig g outY outX) ⟨d, 0, 0⟩ = true := by
  have hy0 := zero_mem_indices hv.filterHeight
  have hx0 := zero_mem_indices hv.filterWidth
  obtain ⟨hinX, hinY⟩ := (inside_iff_toNat hv).mp ((h 0 hy0 0 hx0).mpr ⟨rfl, rfl⟩)
  have hone : (1 : Word) ≠ 0 := by decide
  constructor
  · unfold columnEnd
    by_contra hnot
    simp only [Bool.or_eq_true, decide_eq_true_eq, ge_iff_le, not_or, BitVec.not_le, zero_add,
      BitVec.lt_def] at hnot
    have h1 : (1 : Word) ∈ indices g.filterWidth := ofNat_mem_indices hv.filterWidth hnot.1
    refine hone ((h 0 hy0 1 h1).mp ((inside_iff_toNat hv).mpr ⟨?_, hinY⟩)).2
    rw [Geometry.inX_add, ← add_zero (g.inX outX 0)]
    exact hnot.2
  · unfold rowEnd
    by_contra hnot
    simp only [Bool.or_eq_true, decide_eq_true_eq, ge_iff_le, not_or, BitVec.not_le, zero_add,
      BitVec.lt_def] at hnot
    have h1 : (1 : Word) ∈ indices g.filterHeight := ofNat_mem_indices hv.filterHeight hnot.1
    refine hone ((h 1 h1 0 hx0).mp ((inside_iff_toNat hv).mpr ⟨hinX, ?_⟩)).1
    rw [Geometry.inY_add, ← add_zero (g.inY outY 0)]
    exact hnot.2

/-- A walk that starts at the last depth step of the only point visits each depth step once. -/
theorem visited_of_onlyOrigin (hv : g.Valid) (h : OnlyOrigin g outY outX) :
    Finishes (walkConfig g outY outX)
        (tapAt ⟨0, 0, 0⟩ (restIndex (walkConfig g outY outX))) ∧
      visited (walkConfig g outY outX) (tapAt ⟨0, 0, 0⟩ (restIndex (walkConfig g outY outX))) =
        tapAt ⟨0, 0, 0⟩ (restIndex (walkConfig g outY outX)) ::
          column ⟨0, 0, 0⟩ 0 (restIndex (walkConfig g outY outX)) := by
  set c := walkConfig g outY outX with hc
  have hfit : Fits c := fits_walkConfig hv
  have hrest := restIndex_lt hfit
  obtain ⟨hcol, hrow⟩ := ends_of_onlyOrigin hv h (BitVec.ofNat 32 (4 * restIndex c))
  have hexit : exit c (tapAt ⟨0, 0, 0⟩ (restIndex c)) = ⟨0, 0, 0⟩ := by
    have hend : depthEnd c (tapAt ⟨0, 0, 0⟩ (restIndex c)) = true :=
      (depthEnd_tapAt (by omega)).mpr le_rfl
    rw [exit, if_pos hend, advance, if_pos hend]
    exact (if_pos hcol).trans (if_pos hrow)
  refine ⟨⟨hfit, ?_⟩, ?_⟩
  · rw [hexit]
    exact ends_of_onlyOrigin hv h 0
  · unfold visited
    rw [hexit, if_neg]
    simp only [tapAt, BitVec.toNat_ofNat]
    omega

theorem acc_of_onlyOrigin (hv : g.Valid) (h : OnlyOrigin g p.outY p.outX) :
    g.acc r mem p = g.pointSum r mem p 0 0 := by
  have hmem : ∀ (n : Word) (k : ℕ), 0 < n.toInt → k ∈ Finset.range n.toNat →
      BitVec.ofNat 32 k ∈ indices n := fun n k hn hk =>
    ofNat_mem_indices hn (Finset.mem_range.mp hk)
  have hzero : ∀ (n : Word) (k : ℕ), k ∈ Finset.range n.toNat → BitVec.ofNat 32 k = 0 → k = 0 := by
    intro n k hk h0
    rw [← toNat_ofNat_of_lt (Finset.mem_range.mp hk), h0]
    rfl
  have hpos : ∀ n : Word, 0 < n.toInt → 0 ∈ Finset.range n.toNat := by
    intro n hn
    rw [Finset.mem_range, ← toNat_toInt_of_pos hn]
    omega
  unfold Geometry.acc
  rw [Finset.sum_eq_single 0, Finset.sum_eq_single 0]
  · exact if_pos ((h 0 (zero_mem_indices hv.filterHeight) 0
      (zero_mem_indices hv.filterWidth)).mpr ⟨rfl, rfl⟩)
  · intro x hx hx0
    refine if_neg fun hin => hx0 (hzero _ _ hx ?_)
    exact ((h _ (zero_mem_indices hv.filterHeight) _ (hmem _ _ hv.filterWidth hx)).mp hin).2
  · exact fun hnot => absurd (hpos _ hv.filterWidth) hnot
  · intro y hy hy0
    refine Finset.sum_eq_zero fun x hx => if_neg fun hin => hy0 (hzero _ _ hy ?_)
    exact ((h _ (hmem _ _ hv.filterHeight hy) _ (hmem _ _ hv.filterWidth hx)).mp hin).1
  · exact fun hnot => absurd (hpos _ hv.filterHeight) hnot

theorem acc_of_outside (hv : g.Valid) (h : Outside g p.outY p.outX) : g.acc r mem p = 0 := by
  unfold Geometry.acc
  refine Finset.sum_eq_zero fun y hy => Finset.sum_eq_zero fun x hx => ?_
  have hy' := ofNat_mem_indices hv.filterHeight (Finset.mem_range.mp hy)
  have hx' := ofNat_mem_indices hv.filterWidth (Finset.mem_range.mp hx)
  rw [h _ hy' _ hx']
  rfl

theorem inputDepth_pos (hv : g.Valid) : 0 < g.inputDepth.toNat := by
  have hD := restIndex_walkConfig hv 0 0
  omega

theorem tapSum_origin (hv : g.Valid) (hi : Aligned r.inputData) (hf : Aligned r.filterData)
    (hin : g.inside p.outY p.outX 0 0 = true) {i : ℕ}
    (hile : i ≤ restIndex (walkConfig g p.outY p.outX)) :
    tapSum mem (convConfig g r p) (tapAt ⟨0, 0, 0⟩ i) = wordSum g r mem p 0 0 i := by
  have hD := restIndex_walkConfig hv p.outY p.outX
  have hwidth := toNat_toInt_of_pos hv.filterWidth
  have hwidth' := hv.filterWidth
  have hsel : addSelect (walkConfig g p.outY p.outX) (tapAt ⟨0, 0, 0⟩ i) 0 = true := by
    unfold addSelect
    simp only [Bool.and_eq_true, decide_eq_true_eq, BitVec.lt_def]
    refine ⟨⟨?_, ?_⟩, ?_⟩
    · show (g.inX p.outX 0 + 0).toNat < g.inputWidth.toNat
      rw [add_zero]
      exact ((inside_iff_toNat hv).mp hin).1
    · show 0 < g.filterWidth.toNat
      omega
    · show (BitVec.ofNat 32 (4 * i) + 0).toNat < g.inputDepth.toNat
      rw [add_zero, BitVec.toNat_ofNat]
      omega
  rw [tapSum_tapAt hv hi hf, if_pos hsel]

/-- From the last depth step, with only the first filter point inside the image. -/
theorem convAcc_of_onlyOrigin (hv : g.Valid) (hi : Aligned r.inputData)
    (hf : Aligned r.filterData) (hdepth : (g.inputDepth - 4).toNat % 4 = 0)
    (h : OnlyOrigin g p.outY p.outX) :
    convAcc mem g r p (g.inputDepth - 4) = some (g.acc r mem p) := by
  have hstart : (⟨g.inputDepth - 4, 0, 0⟩ : Counters) =
      tapAt ⟨0, 0, 0⟩ (restIndex (walkConfig g p.outY p.outX)) := by
    rw [← ofNat_restIndex hv p.outY p.outX]
    rfl
  have hin := (h 0 (zero_mem_indices hv.filterHeight) 0
    (zero_mem_indices hv.filterWidth)).mpr ⟨rfl, rfl⟩
  obtain ⟨hfin, hvisited⟩ := visited_of_onlyOrigin hv h
  rw [convAcc_eq hdepth, hstart, if_pos hfin, hvisited, List.map_cons, List.sum_cons,
    tapSum_origin hv hi hf hin le_rfl, sum_column fun i hlt => tapSum_origin hv hi hf hin hlt.le,
    add_comm, ← Finset.sum_range_succ, ← pointSum_eq hv, acc_of_onlyOrigin hv h]

theorem convAcc_of_outside (hv : g.Valid) (hi : Aligned r.inputData) (hf : Aligned r.filterData)
    (hdepth : depth.toNat % 4 = 0) (hout : Outside g p.outY p.outX)
    (hfin : Finishes (walkConfig g p.outY p.outX) ⟨depth, 0, 0⟩)
    (hnone : AddsNothing (walkConfig g p.outY p.outX) ⟨depth, 0, 0⟩) :
    convAcc mem g r p depth = some (g.acc r mem p) := by
  have hnot := (addsNothing_iff (fits_walkConfig hv) (inputDepth_pos hv) hdepth).mp hnone
  rw [convAcc_eq hdepth, if_pos hfin, acc_of_outside hv hout]
  congr 1
  apply List.sum_eq_zero
  intro x hx
  obtain ⟨t, ht, rfl⟩ := List.mem_map.mp hx
  rw [tapSum_eq hv hi hf (aligned_of_mem_visited hdepth ht), hnot t ht]
  rfl

/-- **Sufficiency.** At a covered position the convolution computes the reference's sum. -/
theorem convAcc_of_covers (hv : g.Valid) (hi : Aligned r.inputData) (hf : Aligned r.filterData)
    (hdepth : depth.toNat % 4 = 0) (h : Covers g depth p.outY p.outX) :
    convAcc mem g r p depth = some (g.acc r mem p) := by
  rcases h with ⟨rfl, honly⟩ | ⟨hout, hfin, hnone⟩
  · exact convAcc_of_onlyOrigin hv hi hf hdepth honly
  · exact convAcc_of_outside hv hi hf hdepth hout hfin hnone

/-! ## Exact walks -/

/-- A walk from `k` ends, and it adds the word of every filter point inside the image, at each
depth step, and no other word of the filter. -/
def Exact (g : Geometry) (k : Counters) (outY outX : Word) : Prop :=
  Finishes (walkConfig g outY outX) k ∧
    ∀ y ∈ indices g.filterHeight, ∀ x ∈ indices g.filterWidth,
      ∀ i ≤ restIndex (walkConfig g outY outX), g.inside outY outX y x = true ↔
        tapAt ⟨0, x, y⟩ i ∈ visited (walkConfig g outY outX) k ∧
          addSelect (walkConfig g outY outX) (tapAt ⟨0, x, y⟩ i) 0 = true

theorem tapAt_injective {e e' : Counters} {i j : ℕ} (hi : 4 * i < 2 ^ 32) (hj : 4 * j < 2 ^ 32)
    (h : tapAt e i = tapAt e' j) : i = j := by
  have hdepth := congrArg (fun k : Counters => k.curInputDepth.toNat) h
  simp only [tapAt, BitVec.toNat_ofNat] at hdepth
  omega

theorem eq_of_last_mem_visited (hfit : Fits c) {e : Counters}
    (h : tapAt e (restIndex c) ∈ visited c k) : tapAt e (restIndex c) = k := by
  have hrest := restIndex_lt hfit
  unfold visited at h
  split_ifs at h
  · obtain ⟨l, hl, hlt⟩ := mem_column.mp h
    have := tapAt_injective (by omega) (by omega) hlt
    omega
  · rcases List.mem_cons.mp h with hk | h
    · exact hk
    · obtain ⟨l, hl, hlt⟩ := mem_column.mp h
      have := tapAt_injective (by omega) (by omega) hlt
      omega

theorem point_of_mem_visited (hv : g.Valid) {t : Counters}
    (h : t ∈ visited (walkConfig g outY outX) ⟨depth, 0, 0⟩) :
    t.curFilterX ∈ indices g.filterWidth ∧ t.curFilterY ∈ indices g.filterHeight := by
  have hx0 := zero_mem_indices hv.filterWidth
  have hy0 := zero_mem_indices hv.filterHeight
  have hexit : (exit (walkConfig g outY outX) ⟨depth, 0, 0⟩).curFilterX ∈ indices g.filterWidth ∧
      (exit (walkConfig g outY outX) ⟨depth, 0, 0⟩).curFilterY ∈ indices g.filterHeight := by
    have hone : ∀ n : Word, 0 < n.toInt → ¬ 0 + 1 ≥ n → (0 + 1 : Word) ∈ indices n := by
      intro n hn hlt
      refine ofNat_mem_indices hn ?_
      rw [ge_iff_le, BitVec.not_le, BitVec.lt_def] at hlt
      exact hlt
    unfold exit advance
    split_ifs with hend hcol hrow
    · exact ⟨hx0, hy0⟩
    · refine ⟨hx0, hone _ hv.filterHeight fun hle => hrow ?_⟩
      exact Bool.or_eq_true_iff.mpr (.inl (decide_eq_true hle))
    · refine ⟨hone _ hv.filterWidth fun hle => hcol ?_, hy0⟩
      exact Bool.or_eq_true_iff.mpr (.inl (decide_eq_true hle))
    · exact ⟨hx0, hy0⟩
  unfold visited at h
  split_ifs at h
  · obtain ⟨l, -, rfl⟩ := mem_column.mp h
    exact ⟨hx0, hy0⟩
  · rcases List.mem_cons.mp h with rfl | h
    · exact ⟨hx0, hy0⟩
    · obtain ⟨l, -, rfl⟩ := mem_column.mp h
      exact hexit

theorem lt_of_select (h : addSelect c k 0 = true) :
    k.curInputDepth.toNat < c.inputChannelDepth.toNat := by
  unfold addSelect at h
  simp only [Bool.and_eq_true, decide_eq_true_eq, BitVec.lt_def] at h
  rw [← add_zero k.curInputDepth]
  exact h.2

/-- A walk that is exact starts at the last depth step of each filter point inside the image. -/
theorem Exact.start_eq (hv : g.Valid) (h : Exact g k outY outX) {y x : Word}
    (hy : y ∈ indices g.filterHeight) (hx : x ∈ indices g.filterWidth)
    (hin : g.inside outY outX y x = true) :
    tapAt ⟨0, x, y⟩ (restIndex (walkConfig g outY outX)) = k :=
  eq_of_last_mem_visited (fits_walkConfig hv) ((h.2 y hy x hx _ le_rfl).mp hin).1

theorem Exact.onlyOrigin (hv : g.Valid) (h : Exact g ⟨depth, 0, 0⟩ outY outX) {y x : Word}
    (hy : y ∈ indices g.filterHeight) (hx : x ∈ indices g.filterWidth)
    (hin : g.inside outY outX y x = true) :
    depth = g.inputDepth - 4 ∧ OnlyOrigin g outY outX := by
  have hk := h.start_eq hv hy hx hin
  obtain rfl : x = 0 := congrArg Counters.curFilterX hk
  obtain rfl : y = 0 := congrArg Counters.curFilterY hk
  refine ⟨?_, fun y' hy' x' hx' => ⟨fun hin' => ?_, ?_⟩⟩
  · have hd : BitVec.ofNat 32 (4 * restIndex (walkConfig g outY outX)) = depth :=
      congrArg Counters.curInputDepth hk
    rw [← hd]
    exact ofNat_restIndex hv outY outX
  · have hk' := h.start_eq hv hy' hx' hin'
    exact ⟨congrArg Counters.curFilterY hk', congrArg Counters.curFilterX hk'⟩
  · rintro ⟨rfl, rfl⟩
    exact hin

theorem Exact.addsNothing (hv : g.Valid) (hdepth : depth.toNat % 4 = 0)
    (h : Exact g ⟨depth, 0, 0⟩ outY outX) (hout : Outside g outY outX) :
    AddsNothing (walkConfig g outY outX) ⟨depth, 0, 0⟩ := by
  have hD := restIndex_walkConfig hv outY outX
  refine (addsNothing_iff (fits_walkConfig hv) (inputDepth_pos hv) hdepth).mpr fun t ht => ?_
  by_contra hsel
  have hsel' : addSelect (walkConfig g outY outX) t 0 = true := by simpa using hsel
  have hlt : t.curInputDepth.toNat < g.inputDepth.toNat := lt_of_select hsel'
  obtain ⟨hx, hy⟩ := point_of_mem_visited hv ht
  have htap : tapAt ⟨0, t.curFilterX, t.curFilterY⟩ (t.curInputDepth.toNat / 4) = t :=
    tapAt_div (aligned_of_mem_visited hdepth ht)
  have hin := (h.2 _ hy _ hx (t.curInputDepth.toNat / 4) (by omega)).mpr
    ⟨by rw [htap]; exact ht, by rw [htap]; exact hsel'⟩
  rw [hout _ hy _ hx] at hin
  cases hin

/-- **Necessity.** Where the walk is exact, the position is covered. -/
theorem covers_of_exact (hv : g.Valid) (hdepth : depth.toNat % 4 = 0)
    (h : Exact g ⟨depth, 0, 0⟩ outY outX) : Covers g depth outY outX := by
  by_cases hany : ∃ y ∈ indices g.filterHeight, ∃ x ∈ indices g.filterWidth,
      g.inside outY outX y x = true
  · obtain ⟨y, hy, x, hx, hin⟩ := hany
    exact .inl (h.onlyOrigin hv hy hx hin)
  · have hout : Outside g outY outX := fun y hy x hx =>
      Bool.eq_false_iff.mpr fun hin => hany ⟨y, hy, x, hx, hin⟩
    exact .inr ⟨hout, h.1, h.addsNothing hv hdepth hout⟩

end CfuPlayground.FilterPreload
