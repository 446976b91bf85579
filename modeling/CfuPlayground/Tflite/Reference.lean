import CfuPlayground.Tflite.Pointwise

/-!
# The reference kernel as a sum over taps

A convolution with one group and no dilation is a `Geometry` (sizes, strides, paddings, input
offset) and `Arguments` (tensors, bias, requantization).

* `positions`: the outputs in the order of the four loops; `forOutputs_eq_foldlM`.
* `accReference_eq`: the accumulator of an output is the sum of the terms of all channels at the
  filter points inside the image.
* `reference_eq_some`: the bytes that the reference writes, output by output.
-/

namespace CfuPlayground.Tflite

open Lib

/-! ## Outputs -/

/-- The place of an output byte. -/
structure Position where
  batch : Word
  outY : Word
  outX : Word
  outChannel : Word

/-- The values of `i` in `for (int i = 0; i < n; ++i)`. -/
def indices (n : Word) : List Word := (List.range n.toInt.toNat).map (BitVec.ofNat 32)

/-- The outputs in the order of the loops. -/
def positions (d : Dimensions) : List Position :=
  (indices d.batches).flatMap fun batch => (indices d.outputHeight).flatMap fun outY =>
    (indices d.outputWidth).flatMap fun outX => (indices d.outputDepth).map fun outChannel =>
      ⟨batch, outY, outX, outChannel⟩

theorem mem_indices {n i : Word} : i ∈ indices n ↔ ∃ k < n.toInt.toNat, BitVec.ofNat 32 k = i := by
  simp [indices]

theorem mem_positions {d : Dimensions} {p : Position} :
    p ∈ positions d ↔ p.batch ∈ indices d.batches ∧ p.outY ∈ indices d.outputHeight ∧
      p.outX ∈ indices d.outputWidth ∧ p.outChannel ∈ indices d.outputDepth := by
  rcases p with ⟨batch, outY, outX, outChannel⟩
  simp [positions]

/-- The place of an output in the order of the loops. -/
def Dimensions.index (d : Dimensions) (batch outY outX outChannel : ℕ) : ℕ :=
  ((batch * d.outputHeight.toInt.toNat + outY) * d.outputWidth.toInt.toNat + outX) *
    d.outputDepth.toInt.toNat + outChannel

namespace Dimensions

variable (d : Dimensions) (batch outY outX : ℕ)

theorem index_column : d.index batch outY outX 0 + d.outputDepth.toInt.toNat =
    d.index batch outY (outX + 1) 0 := by
  unfold index
  ring

theorem index_row : d.index batch outY d.outputWidth.toInt.toNat 0 =
    d.index batch (outY + 1) 0 0 := by
  unfold index
  ring

theorem index_batch : d.index batch d.outputHeight.toInt.toNat 0 0 =
    d.index (batch + 1) 0 0 0 := by
  unfold index
  ring

end Dimensions

theorem length_indices (n : Word) : (indices n).length = n.toInt.toNat := by
  rw [indices, List.length_map, List.length_range]

theorem getElem?_indices {n : Word} {i : ℕ} (h : i < n.toInt.toNat) :
    (indices n)[i]? = some (BitVec.ofNat 32 i) := by
  rw [indices, List.getElem?_map, List.getElem?_range h]
  rfl

theorem getElem?_positions {d : Dimensions} {batch outY outX outChannel : ℕ}
    (hb : batch < d.batches.toInt.toNat) (hy : outY < d.outputHeight.toInt.toNat)
    (hx : outX < d.outputWidth.toInt.toNat) (hc : outChannel < d.outputDepth.toInt.toNat) :
    (positions d)[d.index batch outY outX outChannel]? =
      some ⟨BitVec.ofNat 32 batch, BitVec.ofNat 32 outY, BitVec.ofNat 32 outX,
        BitVec.ofNat 32 outChannel⟩ := by
  set rows := d.outputHeight.toInt.toNat
  set columns := d.outputWidth.toInt.toNat
  set channels := d.outputDepth.toInt.toNat
  have hindex : d.index batch outY outX outChannel =
      batch * (rows * (columns * channels)) +
        (outY * (columns * channels) + (outX * channels + outChannel)) := by
    unfold Dimensions.index
    ring
  have hx' : outX * channels + outChannel < columns * channels :=
    block_lt hx hc
  have hy' : outY * (columns * channels) + (outX * channels + outChannel) <
      rows * (columns * channels) := block_lt hy hx'
  have hchannel : ∀ b y x, ((indices d.outputDepth).map (Position.mk b y x)).length = channels := by
    intro b y x
    rw [List.length_map, length_indices]
  have hcolumn : ∀ b y, ((indices d.outputWidth).flatMap fun x =>
      (indices d.outputDepth).map (Position.mk b y x)).length = columns * channels := by
    intro b y
    rw [length_flatMap_of (hchannel b y), length_indices]
  have hrow : ∀ b, ((indices d.outputHeight).flatMap fun y =>
      (indices d.outputWidth).flatMap fun x =>
        (indices d.outputDepth).map (Position.mk b y x)).length = rows * (columns * channels) := by
    intro b
    rw [length_flatMap_of (hcolumn b), length_indices]
  rw [hindex, positions, getElem?_flatMap hrow _ _ hy', getElem?_indices hb, Option.bind_some,
    getElem?_flatMap (hcolumn _) _ _ hx', getElem?_indices hy, Option.bind_some,
    getElem?_flatMap (hchannel _ _) _ _ hc, getElem?_indices hx, Option.bind_some,
    List.getElem?_map, getElem?_indices hc]
  rfl

theorem inDim_of_mem {n i : Word} (h : i ∈ indices n) : InDim n i := by
  obtain ⟨k, hk, rfl⟩ := mem_indices.mp h
  exact inDim_ofNat hk

section Fold

variable {m : Type → Type} [Monad m] [LawfulMonad m] {β : Type}

theorem forInt_eq_foldlM (n : Word) (f : Word → β → m β) (b : β) :
    forInt n f b = (indices n).foldlM (fun b i => f i b) b := by
  rw [forInt, forN_eq_foldlM, indices, List.foldlM_map]

theorem forOutputs_eq_foldlM (d : Dimensions) (f : Word → Word → Word → Word → β → m β) (b : β) :
    forOutputs d f b =
      (positions d).foldlM (fun b p => f p.batch p.outY p.outX p.outChannel b) b := by
  simp only [forOutputs, positions, forInt_eq_foldlM, foldlM_flatMap, List.foldlM_map]

end Fold

/-! ## Calls -/

/-- Sizes, strides, paddings and input offset of a convolution with one group. -/
structure Geometry where
  batches : Word
  inputHeight : Word
  inputWidth : Word
  inputDepth : Word
  outputHeight : Word
  outputWidth : Word
  outputDepth : Word
  filterHeight : Word
  filterWidth : Word
  paddingWidth : BitVec 16
  paddingHeight : BitVec 16
  strideWidth : BitVec 16
  strideHeight : BitVec 16
  inputOffset : Word

/-- The arguments that the geometry leaves open. -/
structure Arguments where
  outputOffset : Word
  quantizedActivationMin : Word
  quantizedActivationMax : Word
  outputMultiplier : Word → Word
  outputShift : Word → Word
  inputData : Word
  filterData : Word
  biasShape : RuntimeShape
  biasData : Option (Word → Word)

namespace Geometry

variable (g : Geometry) (r : Arguments)

def params : ConvParams where
  paddingWidth := g.paddingWidth
  paddingHeight := g.paddingHeight
  strideWidth := g.strideWidth
  strideHeight := g.strideHeight
  dilationWidthFactor := 1
  dilationHeightFactor := 1
  inputOffset := g.inputOffset
  outputOffset := r.outputOffset
  quantizedActivationMin := r.quantizedActivationMin
  quantizedActivationMax := r.quantizedActivationMax

def data : ConvData where
  outputMultiplier := r.outputMultiplier
  outputShift := r.outputShift
  inputShape := ⟨[g.batches, g.inputHeight, g.inputWidth, g.inputDepth]⟩
  inputData := r.inputData
  filterShape := ⟨[g.outputDepth, g.filterHeight, g.filterWidth, g.inputDepth]⟩
  filterData := r.filterData
  biasShape := r.biasShape
  biasData := r.biasData
  outputShape := ⟨[g.batches, g.outputHeight, g.outputWidth, g.outputDepth]⟩

def dimensions : Dimensions where
  batches := g.batches
  inputDepth := g.inputDepth
  outputDepth := g.outputDepth
  inputHeight := g.inputHeight
  inputWidth := g.inputWidth
  filterInputDepth := g.inputDepth
  outputHeight := g.outputHeight
  outputWidth := g.outputWidth

/-- The sizes are positive, the depth is a multiple of four and the input offset is the negative
of a zero point in `[-128, 127]`. -/
structure Valid : Prop where
  batches : 0 < g.batches.toInt
  inputHeight : 0 < g.inputHeight.toInt
  inputWidth : 0 < g.inputWidth.toInt
  inputDepth : 0 < g.inputDepth.toInt
  outputHeight : 0 < g.outputHeight.toInt
  outputWidth : 0 < g.outputWidth.toInt
  outputDepth : 0 < g.outputDepth.toInt
  filterHeight : 0 < g.filterHeight.toInt
  filterWidth : 0 < g.filterWidth.toInt
  aligned : g.inputDepth.toNat % 4 = 0
  inputOffset : -127 ≤ g.inputOffset.toInt ∧ g.inputOffset.toInt ≤ 128

/-- `in_x` of a filter point. -/
def inX (outX filterX : Word) : Word :=
  outX * g.strideWidth.signExtend 32 - g.paddingWidth.signExtend 32 + filterX

/-- `in_y` of a filter point. -/
def inY (outY filterY : Word) : Word :=
  outY * g.strideHeight.signExtend 32 - g.paddingHeight.signExtend 32 + filterY

/-- The filter point lies inside the image. -/
def inside (outY outX filterY filterX : Word) : Bool :=
  isPointInsideImage g.dimensions (g.inX outX filterX) (g.inY outY filterY)

/-- The offset of a filter value. -/
def filterAt (p : Position) (filterY filterX inChannel : Word) : Word :=
  ((p.outChannel * g.filterHeight + filterY) * g.filterWidth + filterX) * g.inputDepth + inChannel

/-- The offset of the image value that meets it. -/
def imageAt (p : Position) (filterY filterX inChannel : Word) : Word :=
  ((p.batch * g.inputHeight + g.inY p.outY filterY) * g.inputWidth + g.inX p.outX filterX) *
    g.inputDepth + inChannel

/-- What a tap adds to the accumulator. -/
def term (mem : Memory) (p : Position) (filterY filterX inChannel : Word) : Word :=
  load mem r.filterData (g.filterAt p filterY filterX inChannel) *
    (load mem r.inputData (g.imageAt p filterY filterX inChannel) + g.inputOffset)

/-- The sum of the terms at a filter point. -/
def pointSum (mem : Memory) (p : Position) (filterY filterX : Word) : Word :=
  ∑ inChannel ∈ Finset.range g.inputDepth.toNat,
    g.term r mem p filterY filterX (BitVec.ofNat 32 inChannel)

/-- The accumulator that the reference computes. -/
def acc (mem : Memory) (p : Position) : Word :=
  ∑ filterY ∈ Finset.range g.filterHeight.toNat, ∑ filterX ∈ Finset.range g.filterWidth.toNat,
    if g.inside p.outY p.outX (BitVec.ofNat 32 filterY) (BitVec.ofNat 32 filterX) then
      g.pointSum r mem p (BitVec.ofNat 32 filterY) (BitVec.ofNat 32 filterX)
    else 0

/-- The requantization checks that a kernel makes before its loops. -/
def Accepts : Prop :=
  r.quantizedActivationMin.toInt ≤ r.quantizedActivationMax.toInt ∧
    (r.biasData.isSome → r.biasShape.flatSize = g.outputDepth)

end Geometry

theorem exists_geometry {T : Target} {params : ConvParams} {data : ConvData} {d : Dimensions}
    (hc : Consistent T params data d) (hgroup : d.filterInputDepth = d.inputDepth)
    (hwidth : params.dilationWidthFactor = 1) (hheight : params.dilationHeightFactor = 1) :
    ∃ g : Geometry, ∃ r : Arguments, g.dimensions = d ∧ g.params r = params ∧
      g.data r = data := by
  obtain ⟨filterHeight, filterWidth, hfilter⟩ := hc.filter
  rcases data with ⟨multiplier, shift, ⟨is⟩, input, ⟨fs⟩, filter, bs, bias, ⟨os⟩⟩
  rcases params with ⟨pw, ph, sw, sh, dw, dh, io, oo, lo, hi⟩
  rcases d with ⟨batches, depth, odepth, ih, iw, fdepth, oh, ow⟩
  obtain rfl : is = _ := hc.input
  obtain rfl : os = _ := hc.output
  obtain rfl : fs = _ := hfilter
  cases hgroup
  cases hwidth
  cases hheight
  exact ⟨⟨batches, ih, iw, depth, oh, ow, odepth, filterHeight, filterWidth, pw, ph, sw, sh, io⟩,
    ⟨oo, lo, hi, multiplier, shift, input, filter, bs, bias⟩, rfl, rfl, rfl⟩

/-! ## The accumulator -/

theorem toNat_toInt_of_pos {n : Word} (h : 0 < n.toInt) : n.toInt.toNat = n.toNat := by
  rw [BitVec.toInt_eq_toNat_cond] at h ⊢
  split_ifs at h ⊢ <;> omega

theorem toNat_ofNat_of_lt {n : Word} {i : ℕ} (h : i < n.toNat) : (BitVec.ofNat 32 i).toNat = i := by
  have hn := n.isLt
  rw [BitVec.toNat_ofNat]
  omega

theorem isPointInsideImage_iff {d : Dimensions} {inX inY : Word} :
    isPointInsideImage d inX inY = true ↔
      (0 ≤ inX.toInt ∧ inX.toInt < d.inputWidth.toInt) ∧
        0 ≤ inY.toInt ∧ inY.toInt < d.inputHeight.toInt := by
  simp [isPointInsideImage, and_assoc]

namespace Geometry

variable {g : Geometry} {r : Arguments} {mem : Memory} {p : Position}

theorem inX_eq (outX filterX : Word) : inXOrigin (g.params r) outX +
    (g.params r).dilationWidthFactor.signExtend 32 * filterX = g.inX outX filterX := by
  have h1 : (g.params r).dilationWidthFactor.signExtend 32 = (1 : Word) := rfl
  rw [h1, one_mul]
  rfl

theorem inY_eq (outY filterY : Word) : inYOrigin (g.params r) outY +
    (g.params r).dilationHeightFactor.signExtend 32 * filterY = g.inY outY filterY := by
  have h1 : (g.params r).dilationHeightFactor.signExtend 32 = (1 : Word) := rfl
  rw [h1, one_mul]
  rfl

theorem inX_add (outX filterX : Word) : g.inX outX filterX = g.inX outX 0 + filterX := by
  rw [inX, inX, add_zero]

theorem inY_add (outY filterY : Word) : g.inY outY filterY = g.inY outY 0 + filterY := by
  rw [inY, inY, add_zero]

theorem inside_iff {outY outX filterY filterX : Word} :
    g.inside outY outX filterY filterX = true ↔
      (0 ≤ (g.inX outX filterX).toInt ∧ (g.inX outX filterX).toInt < g.inputWidth.toInt) ∧
        0 ≤ (g.inY outY filterY).toInt ∧ (g.inY outY filterY).toInt < g.inputHeight.toInt :=
  isPointInsideImage_iff

theorem channelLoop_eq (hv : g.Valid) (hp : p ∈ positions g.dimensions) {filterY filterX : Word}
    (hy : filterY ∈ indices g.filterHeight) (hx : filterX ∈ indices g.filterWidth)
    (hin : g.inside p.outY p.outX filterY filterX = true) (acc : Word) :
    forInt g.inputDepth (fun inChannel acc => do
      let inputAt ← offset (g.data r).inputShape p.batch (g.inY p.outY filterY)
        (g.inX p.outX filterX) (inChannel + 0 * g.inputDepth)
      let filterAt ← offset (g.data r).filterShape p.outChannel filterY filterX inChannel
      pure (acc + load mem r.filterData filterAt *
        (load mem r.inputData inputAt + g.inputOffset))) acc =
      some (acc + g.pointSum r mem p filterY filterX) := by
  obtain ⟨hbatch, -, -, hchannel⟩ := mem_positions.mp hp
  obtain ⟨hinX, hinY⟩ := inside_iff.mp hin
  rw [forInt, toNat_toInt_of_pos hv.inputDepth]
  refine forN_sum (fun i => g.term r mem p filterY filterX (BitVec.ofNat 32 i))
    (fun i hi acc => ?_) acc
  have hi' : InDim g.inputDepth (BitVec.ofNat 32 i) :=
    inDim_ofNat (by rwa [toNat_toInt_of_pos hv.inputDepth])
  have himage : offset (g.data r).inputShape p.batch (g.inY p.outY filterY) (g.inX p.outX filterX)
      (BitVec.ofNat 32 i) = some (g.imageAt p filterY filterX (BitVec.ofNat 32 i)) :=
    (offset_eq_some rfl).mpr ⟨inDim_of_mem hbatch, .inr hinY, .inr hinX, hi', rfl⟩
  have hfilter : offset (g.data r).filterShape p.outChannel filterY filterX (BitVec.ofNat 32 i) =
      some (g.filterAt p filterY filterX (BitVec.ofNat 32 i)) :=
    (offset_eq_some rfl).mpr ⟨inDim_of_mem hchannel, inDim_of_mem hy, inDim_of_mem hx, hi', rfl⟩
  rw [zero_mul, add_zero, himage, hfilter]
  rfl

/-- **The accumulator of the reference** is the sum over the filter points inside the image. -/
theorem accReference_eq (hv : g.Valid) (hp : p ∈ positions g.dimensions) :
    accReference mem (g.params r) (g.data r) g.dimensions g.filterHeight g.filterWidth 0
      p.batch p.outY p.outX p.outChannel = some (g.acc r mem p) := by
  unfold accReference acc
  rw [forInt, toNat_toInt_of_pos hv.filterHeight, ← zero_add (Finset.sum _ _)]
  refine forN_sum _ (fun y hy acc => ?_) 0
  rw [forInt, toNat_toInt_of_pos hv.filterWidth]
  refine forN_sum _ (fun x hx acc => ?_) acc
  simp only [inX_eq, inY_eq]
  have hy' : BitVec.ofNat 32 y ∈ indices g.filterHeight :=
    mem_indices.mpr ⟨y, by rwa [toNat_toInt_of_pos hv.filterHeight], rfl⟩
  have hx' : BitVec.ofNat 32 x ∈ indices g.filterWidth :=
    mem_indices.mpr ⟨x, by rwa [toNat_toInt_of_pos hv.filterWidth], rfl⟩
  by_cases hin : g.inside p.outY p.outX (BitVec.ofNat 32 y) (BitVec.ofNat 32 x) = true
  · rw [if_pos hin]
    exact (if_pos hin).trans (channelLoop_eq hv hp hy' hx' hin acc)
  · rw [if_neg hin, add_zero]
    exact if_neg hin

end Geometry

/-! ## The bytes -/

/-- The byte of an output with the accumulator `acc`, and its offset. -/
def entry (params : ConvParams) (data : ConvData) (p : Position) (acc : Word) :
    Option (Word × BitVec 8) := do
  let byte ← requantize params data p.outChannel acc
  let outputAt ← offset data.outputShape p.batch p.outY p.outX p.outChannel
  pure (outputAt, byte)

theorem writeOutput_eq (params : ConvParams) (data : ConvData) (p : Position) (acc : Word)
    (output : Output) : writeOutput params data p.batch p.outY p.outX p.outChannel acc output =
      (entry params data p acc).map fun e => output ++ [e] := by
  unfold writeOutput entry
  cases requantize params data p.outChannel acc with
  | none => rfl
  | some byte =>
    cases offset data.outputShape p.batch p.outY p.outX p.outChannel <;> rfl

namespace Geometry

variable {g : Geometry} {r : Arguments} {mem : Memory} {T : Target} {output : Output}

theorem matchingDim_of_eq {shape1 shape2 : RuntimeShape} {i1 i2 : ℕ} {a : Word}
    (h1 : shape1.dims i1 = some a) (h2 : shape2.dims i2 = some a) :
    matchingDim shape1 i1 shape2 i2 = some a := by
  unfold matchingDim
  rw [h1, h2]
  show (dcheck (a = a)).bind _ = _
  rw [dcheck_of rfl, Option.bind_some, ite_self]
  rfl

theorem of_consistencyCheck {d : Dimensions}
    (h : consistencyCheck T (g.params r) (g.data r) = some d) : g.Accepts r ∧ g.dimensions = d := by
  have hbatches : matchingDim (g.data r).inputShape 0 (g.data r).outputShape 0 =
      some g.batches := matchingDim_of_eq rfl rfl
  have hdepth : matchingDim (g.data r).filterShape 0 (g.data r).outputShape 3 =
      some g.outputDepth := matchingDim_of_eq rfl rfl
  unfold consistencyCheck at h
  rw [hbatches, hdepth] at h
  simp only [Option.bind_eq_bind, Option.bind_eq_some_iff, dcheck_eq_some] at h
  obtain ⟨-, hact, -, -, -, -, -, -, _, hb, _, hd0, _, hod, -, hbias, _, hih, _, hiw, _, hfid, -,
    -, _, hoh, _, how, hd⟩ := h
  cases hb
  cases hd0
  cases hod
  cases hih
  cases hiw
  cases hfid
  cases hoh
  cases how
  exact ⟨⟨hact, hbias⟩, Option.some.inj hd⟩

theorem consistencyCheck_eq_some (hv : g.Valid) {d : Dimensions} :
    consistencyCheck T (g.params r) (g.data r) = some d ↔ g.Accepts r ∧ g.dimensions = d := by
  refine ⟨of_consistencyCheck, ?_⟩
  rintro ⟨⟨hact, hbias⟩, rfl⟩
  have hrem : T.rem g.inputDepth g.inputDepth = 0 := by
    have hne : g.inputDepth ≠ 0 := by
      intro h
      exact absurd hv.inputDepth (by rw [h]; decide)
    rw [Target.rem, if_neg hne]
    exact BitVec.srem_self
  have hbatches : matchingDim (g.data r).inputShape 0 (g.data r).outputShape 0 =
      some g.batches := matchingDim_of_eq rfl rfl
  have hdepth : matchingDim (g.data r).filterShape 0 (g.data r).outputShape 3 =
      some g.outputDepth := matchingDim_of_eq rfl rfl
  unfold consistencyCheck
  rw [hbatches, hdepth]
  simp only [Option.bind_eq_bind, Option.bind_eq_some_iff, dcheck_eq_some]
  exact ⟨(), hact, (), rfl, (), rfl, (), rfl, _, rfl, _, rfl, _, rfl, (), hbias, _, rfl, _, rfl, _,
    rfl, (), hrem, _, rfl, _, rfl, rfl⟩

theorem group_eq_zero (hv : g.Valid) {p : Position} (hp : p ∈ positions g.dimensions) :
    T.div p.outChannel (T.div g.outputDepth (T.div g.inputDepth g.inputDepth)) = 0 := by
  obtain ⟨k, hk, hkp⟩ := mem_indices.mp (mem_positions.mp hp).2.2.2
  have hlt := BitVec.toInt_lt (x := g.outputDepth)
  have hk' : k < g.outputDepth.toInt.toNat := hk
  have hidx : (BitVec.ofNat 32 k).toInt = k := toInt_ofNat_of_lt (by omega)
  rw [div_self hv.inputDepth, div_one, ← hkp]
  exact div_eq_zero_of_lt (by omega) (by omega)

variable (T mem g r) in
/-- One round of the reference: the byte of an output. -/
def referenceEntry (p : Position) : Option (Word × BitVec 8) :=
  (accReference mem (g.params r) (g.data r) g.dimensions g.filterHeight g.filterWidth
    (T.div p.outChannel (T.div g.outputDepth (T.div g.inputDepth g.inputDepth)))
    p.batch p.outY p.outX p.outChannel).bind (entry (g.params r) (g.data r) p)

theorem referenceEntry_eq (hv : g.Valid) {p : Position} (hp : p ∈ positions g.dimensions) :
    g.referenceEntry r mem T p = entry (g.params r) (g.data r) p (g.acc r mem p) := by
  rw [referenceEntry, group_eq_zero hv hp, accReference_eq hv hp, Option.bind_some]

theorem referenceStep_eq (output : Output) (p : Position) :
    (do
      let acc ← accReference mem (g.params r) (g.data r) g.dimensions g.filterHeight g.filterWidth
        (T.div p.outChannel (T.div g.outputDepth (T.div g.inputDepth g.inputDepth)))
        p.batch p.outY p.outX p.outChannel
      writeOutput (g.params r) (g.data r) p.batch p.outY p.outX p.outChannel acc output) =
    (g.referenceEntry r mem T p).map fun e => output ++ [e] := by
  simp only [writeOutput_eq]
  exact (Option.map_bind ..).symm

/-- **The bytes of the reference.** -/
theorem reference_eq_some (hv : g.Valid) :
    convPerChannelReference T mem (g.params r) (g.data r) = some output ↔ g.Accepts r ∧
      (positions g.dimensions).mapIdx (fun _ p =>
        entry (g.params r) (g.data r) p (g.acc r mem p)) = output.map some := by
  have hentries : (positions g.dimensions).mapIdx (fun _ p =>
      entry (g.params r) (g.data r) p (g.acc r mem p)) =
        (positions g.dimensions).mapIdx fun _ p => g.referenceEntry r mem T p :=
    List.mapIdx_eq_mapIdx_iff.mpr fun i hi =>
      (referenceEntry_eq hv (List.getElem_mem hi)).symm
  have hloops : (forOutputs g.dimensions (fun batch outY outX outChannel output => do
      let acc ← accReference mem (g.params r) (g.data r) g.dimensions g.filterHeight
        g.filterWidth (T.div outChannel (T.div g.outputDepth (T.div g.inputDepth g.inputDepth)))
        batch outY outX outChannel
      writeOutput (g.params r) (g.data r) batch outY outX outChannel acc output) [] =
        some output) ↔ (positions g.dimensions).mapIdx (fun _ p =>
          entry (g.params r) (g.data r) p (g.acc r mem p)) = output.map some := by
    rw [hentries, ← foldlM_emit, forOutputs_eq_foldlM]
    simp only [← referenceStep_eq]
  unfold convPerChannelReference
  constructor
  · intro h
    obtain ⟨d, hd, h'⟩ := Option.bind_eq_some_iff.mp h
    obtain ⟨hacc, rfl⟩ := (consistencyCheck_eq_some hv).mp hd
    exact ⟨hacc, hloops.mp h'⟩
  · rintro ⟨hacc, h⟩
    refine Option.bind_eq_some_iff.mpr ⟨_, (consistencyCheck_eq_some hv).mpr ⟨hacc, rfl⟩, ?_⟩
    exact hloops.mpr h

end Geometry

end CfuPlayground.Tflite
