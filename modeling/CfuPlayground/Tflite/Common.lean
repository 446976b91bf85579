import CfuPlayground.Cfu.Port
import CfuPlayground.Lib.Loop
import CfuPlayground.Lib.Lane

/-!
# What the `ConvPerChannel` kernels share

Shapes and `Offset` (`runtime_shape.h`), `MatchingDim` (`types.h`), the fixed-point arithmetic of
`common.h` (double rounding) and gemmlowp, the consistency checks at the head of the four int8
kernels and the requantization at the end of each output. Every `int` is a 32-bit word with
wrap-around; a failed `DCHECK` or `assert` is `none`. What a division by zero gives is left to
the `Target`.
-/

namespace CfuPlayground.Tflite

open Lib

/-- The results of `x / 0` and `x % 0`, which C++ leaves open. -/
structure Target where
  divZero : Word → Word
  remZero : Word → Word

/-- `a / b`. -/
def Target.div (T : Target) (a b : Word) : Word := if b = 0 then T.divZero a else a.sdiv b

/-- `a % b`. -/
def Target.rem (T : Target) (a b : Word) : Word := if b = 0 then T.remZero a else a.srem b

/-- `TFLITE_DCHECK(condition)`. -/
def dcheck (condition : Prop) [Decidable condition] : Option Unit :=
  if condition then some () else none

@[simp] theorem dcheck_eq_some {p : Prop} [Decidable p] {u : Unit} : dcheck p = some u ↔ p := by
  simp [dcheck]

theorem dcheck_of {p : Prop} [Decidable p] (h : p) : dcheck p = some () := if_pos h

/-! ## Shapes -/

structure RuntimeShape where
  dimsData : List Word
deriving DecidableEq

namespace RuntimeShape

def dimensionsCount (shape : RuntimeShape) : ℕ := shape.dimsData.length

def dims (shape : RuntimeShape) (i : ℕ) : Option Word := shape.dimsData[i]?

def flatSize (shape : RuntimeShape) : Word := shape.dimsData.foldl (· * ·) 1

end RuntimeShape

def matchingDim (shape1 : RuntimeShape) (index1 : ℕ) (shape2 : RuntimeShape) (index2 : ℕ) :
    Option Word := do
  let a ← shape1.dims index1
  let b ← shape2.dims index2
  dcheck (a = b)
  pure (if b.slt a then b else a)

/-- The check of `Offset` on one index. -/
def InDim (dim i : Word) : Prop := dim = 0 ∧ i = 0 ∨ 0 ≤ i.toInt ∧ i.toInt < dim.toInt

instance (dim i : Word) : Decidable (InDim dim i) :=
  inferInstanceAs (Decidable (dim = 0 ∧ i = 0 ∨ 0 ≤ i.toInt ∧ i.toInt < dim.toInt))

def offset (shape : RuntimeShape) (i0 i1 i2 i3 : Word) : Option Word :=
  match shape.dimsData with
  | [d0, d1, d2, d3] => do
    dcheck (InDim d0 i0)
    dcheck (InDim d1 i1)
    dcheck (InDim d2 i2)
    dcheck (InDim d3 i3)
    pure (((i0 * d1 + i1) * d2 + i2) * d3 + i3)
  | _ => none

/-! ## Fixed point -/

/-- `gemmlowp::SaturatingRoundingDoublingHighMul`. -/
def saturatingRoundingDoublingHighMul (a b : Word) : Word :=
  let ab := a.toInt * b.toInt
  let nudge : ℤ := if ab ≥ 0 then 2 ^ 30 else 1 - 2 ^ 30
  if a = b ∧ a = BitVec.intMin 32 then BitVec.intMax 32
  else BitVec.ofInt 32 ((ab + nudge).tdiv (2 ^ 31))

/-- `gemmlowp::RoundingDivideByPOT`. -/
def roundingDivideByPOT (x exponent : Word) : Option Word := do
  dcheck (0 ≤ exponent.toInt)
  dcheck (exponent.toInt ≤ 31)
  let mask : Word := (1 : Word) <<< exponent.toNat - 1
  let remainder := x &&& mask
  let threshold := mask.sshiftRight 1 + if x.slt 0 then 1 else 0
  pure (x.sshiftRight exponent.toNat + if threshold.slt remainder then 1 else 0)

/-- `MultiplyByQuantizedMultiplier`. -/
def multiplyByQuantizedMultiplier (x quantizedMultiplier shift : Word) : Option Word :=
  let leftShift := if shift.toInt > 0 then shift else 0
  let rightShift := if shift.toInt > 0 then 0 else -shift
  roundingDivideByPOT
    (saturatingRoundingDoublingHighMul (x * (1 : Word) <<< leftShift.toNat) quantizedMultiplier)
    rightShift

/-! ## Arguments -/

structure ConvParams where
  paddingWidth : BitVec 16
  paddingHeight : BitVec 16
  strideWidth : BitVec 16
  strideHeight : BitVec 16
  dilationWidthFactor : BitVec 16
  dilationHeightFactor : BitVec 16
  inputOffset : Word
  outputOffset : Word
  quantizedActivationMin : Word
  quantizedActivationMax : Word

/-- The other arguments of a kernel. The int32 arrays are functions of the index, the int8
tensors are addresses in a memory. -/
structure ConvData where
  outputMultiplier : Word → Word
  outputShift : Word → Word
  inputShape : RuntimeShape
  inputData : Word
  filterShape : RuntimeShape
  filterData : Word
  biasShape : RuntimeShape
  /-- `none` for the null pointer. -/
  biasData : Option (Word → Word)
  outputShape : RuntimeShape

/-- The bytes written to `output_data`, with their offsets, oldest first. -/
abbrev Output := List (Word × BitVec 8)

/-- The byte at an address; the target is little-endian. -/
def byteAt (mem : Memory) (adr : Word) : BitVec 8 :=
  lane (mem (wordAdr adr)) (adr.extractLsb' 0 2).toNat

/-- `const int32_t val = data[i]` for an int8 tensor. -/
def load (mem : Memory) (data i : Word) : Word := (byteAt mem (data + i)).signExtend 32

/-- The `const int`s that the kernels take from the shapes. -/
structure Dimensions where
  batches : Word
  inputDepth : Word
  outputDepth : Word
  inputHeight : Word
  inputWidth : Word
  filterInputDepth : Word
  outputHeight : Word
  outputWidth : Word

/-- The consistency checks at the head of a kernel. -/
def consistencyCheck (T : Target) (params : ConvParams) (data : ConvData) :
    Option Dimensions := do
  dcheck (params.quantizedActivationMin.toInt ≤ params.quantizedActivationMax.toInt)
  dcheck (data.inputShape.dimensionsCount = 4)
  dcheck (data.filterShape.dimensionsCount = 4)
  dcheck (data.outputShape.dimensionsCount = 4)
  let batches ← matchingDim data.inputShape 0 data.outputShape 0
  let inputDepth ← data.inputShape.dims 3
  let outputDepth ← matchingDim data.filterShape 0 data.outputShape 3
  dcheck (data.biasData.isSome → data.biasShape.flatSize = outputDepth)
  let inputHeight ← data.inputShape.dims 1
  let inputWidth ← data.inputShape.dims 2
  let filterInputDepth ← data.filterShape.dims 3
  dcheck (T.rem inputDepth filterInputDepth = 0)
  let outputHeight ← data.outputShape.dims 1
  let outputWidth ← data.outputShape.dims 2
  pure ⟨batches, inputDepth, outputDepth, inputHeight, inputWidth, filterInputDepth,
    outputHeight, outputWidth⟩

/-- `in_y_origin`. -/
def inYOrigin (params : ConvParams) (outY : Word) : Word :=
  outY * params.strideHeight.signExtend 32 - params.paddingHeight.signExtend 32

/-- `in_x_origin`. -/
def inXOrigin (params : ConvParams) (outX : Word) : Word :=
  outX * params.strideWidth.signExtend 32 - params.paddingWidth.signExtend 32

/-- `is_point_inside_image`. -/
def isPointInsideImage (d : Dimensions) (inX inY : Word) : Bool :=
  0 ≤ inX.toInt && inX.toInt < d.inputWidth.toInt && 0 ≤ inY.toInt &&
    inY.toInt < d.inputHeight.toInt

/-- From the accumulator to the output byte: bias, multiplier, offset, activation range. -/
def requantize (params : ConvParams) (data : ConvData) (outChannel acc : Word) :
    Option (BitVec 8) := do
  let acc := match data.biasData with
    | some biasData => acc + biasData outChannel
    | none => acc
  let acc ← multiplyByQuantizedMultiplier acc (data.outputMultiplier outChannel)
    (data.outputShift outChannel)
  let acc := acc + params.outputOffset
  let acc := if acc.slt params.quantizedActivationMin then params.quantizedActivationMin else acc
  let acc := if params.quantizedActivationMax.slt acc then params.quantizedActivationMax else acc
  pure (acc.setWidth 8)

/-- The end of the output loop: `output_data[Offset(...)] = static_cast<int8_t>(acc)`. -/
def writeOutput (params : ConvParams) (data : ConvData) (batch outY outX outChannel acc : Word)
    (output : Output) : Option Output := do
  let byte ← requantize params data outChannel acc
  let outputAt ← offset data.outputShape batch outY outX outChannel
  pure (output ++ [(outputAt, byte)])

/-! ## Loops -/

section Loops

variable {m : Type → Type} [Monad m] {β : Type}

/-- `for (int i = 0; i < n; ++i)`. -/
def forInt (n : Word) (f : Word → β → m β) (b : β) : m β :=
  forN n.toInt.toNat (fun i => f (BitVec.ofNat 32 i)) b

/-- `for (int i = 0; i < n; i += 4)`. -/
def forIntBy4 (n : Word) (f : Word → β → m β) (b : β) : m β :=
  forN ((n.toInt.toNat + 3) / 4) (fun i => f (BitVec.ofNat 32 (i * 4))) b

end Loops

end CfuPlayground.Tflite
