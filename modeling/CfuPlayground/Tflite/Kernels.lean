import CfuPlayground.Tflite.Common
import CfuPlayground.Cfu.Host

/-!
# The int8 `ConvPerChannel` kernels

The reference kernel and those of `proj/software_cnn`, `proj/proj_template` and
`proj/filter_preload`. The first two read the tensors from a memory; the other two are programs
that pass addresses to a CFU. Loop states are the values the loop bodies assign: `acc`, and in
the output loops the bytes written so far.
-/

namespace CfuPlayground.Tflite

open Lib

instance {ρ β : Type} : MonadLift Option (Client ρ β) := ⟨Client.ofOption⟩

/-- The four output loops: batch, row, column, channel. -/
def forOutputs {m : Type → Type} [Monad m] {β : Type} (d : Dimensions)
    (f : Word → Word → Word → Word → β → m β) (b : β) : m β :=
  forInt d.batches (fun batch => forInt d.outputHeight fun outY =>
    forInt d.outputWidth fun outX => forInt d.outputDepth fun outChannel =>
      f batch outY outX outChannel) b

/-! ## The reference kernel -/

/-- The accumulator of one output of the reference kernel. -/
def accReference (mem : Memory) (params : ConvParams) (data : ConvData) (d : Dimensions)
    (filterHeight filterWidth group batch outY outX outChannel : Word) : Option Word :=
  forInt filterHeight (fun filterY => forInt filterWidth fun filterX acc =>
    let inY := inYOrigin params outY + params.dilationHeightFactor.signExtend 32 * filterY
    let inX := inXOrigin params outX + params.dilationWidthFactor.signExtend 32 * filterX
    if isPointInsideImage d inX inY then
      forInt d.filterInputDepth (fun inChannel acc => do
        let inputAt ← offset data.inputShape batch inY inX (inChannel + group * d.filterInputDepth)
        let filterAt ← offset data.filterShape outChannel filterY filterX inChannel
        pure (acc + load mem data.filterData filterAt *
          (load mem data.inputData inputAt + params.inputOffset))) acc
    else pure acc) 0

/-- `ConvPerChannel` of tflite-micro. -/
def convPerChannelReference (T : Target) (mem : Memory) (params : ConvParams) (data : ConvData) :
    Option Output := do
  let d ← consistencyCheck T params data
  let filterHeight ← data.filterShape.dims 1
  let filterWidth ← data.filterShape.dims 2
  let groups := T.div d.inputDepth d.filterInputDepth
  let filtersPerGroup := T.div d.outputDepth groups
  forOutputs d (fun batch outY outX outChannel output => do
    let group := T.div outChannel filtersPerGroup
    let acc ← accReference mem params data d filterHeight filterWidth group batch outY outX
      outChannel
    writeOutput params data batch outY outX outChannel acc output) []

/-! ## The pointwise kernels -/

/-- One of the four unrolled steps of the channel loop of `proj/software_cnn`. -/
def softwareStep (mem : Memory) (data : ConvData)
    (batch inY inX outChannel filterY filterX inChannel acc : Word) : Option Word := do
  let inputAt ← offset data.inputShape batch inY inX inChannel
  let filterAt ← offset data.filterShape outChannel filterY filterX inChannel
  pure (acc + load mem data.filterData filterAt * (load mem data.inputData inputAt + 128))

/-- The accumulator of one output of `proj/software_cnn`. -/
def accSoftwareCnn (mem : Memory) (params : ConvParams) (data : ConvData) (d : Dimensions)
    (batch outY outX outChannel : Word) : Option Word :=
  forInt 1 (fun filterY => forInt 1 fun filterX acc =>
    let inY := inYOrigin params outY + filterY
    let inX := inXOrigin params outX + filterX
    if isPointInsideImage d inX inY then
      forIntBy4 d.inputDepth (fun inChannel acc => do
        let step := softwareStep mem data batch inY inX outChannel filterY filterX
        let acc ← step inChannel acc
        let acc ← step (inChannel + 1) acc
        let acc ← step (inChannel + 2) acc
        step (inChannel + 3) acc) acc
    else pure acc) 0

/-- `ConvPerChannel` of `proj/software_cnn`. -/
def convPerChannelSoftwareCnn (T : Target) (mem : Memory) (params : ConvParams)
    (data : ConvData) : Option Output := do
  let d ← consistencyCheck T params data
  forOutputs d (fun batch outY outX outChannel output => do
    let acc ← accSoftwareCnn mem params data d batch outY outX outChannel
    writeOutput params data batch outY outX outChannel acc output) []

/-- The accumulator of one output of `proj/proj_template`. -/
def accProjTemplate (params : ConvParams) (data : ConvData) (d : Dimensions)
    (batch outY outX outChannel : Word) : Program Word := do
  let acc ← callCfuOp0 1 0 0
  forInt 1 (fun filterY => forInt 1 fun filterX acc =>
    let inY := inYOrigin params outY + filterY
    let inX := inXOrigin params outX + filterX
    if isPointInsideImage d inX inY then
      forIntBy4 d.inputDepth (fun inChannel _ => do
        let inputAt ← offset data.inputShape batch inY inX inChannel
        let filterAt ← offset data.filterShape outChannel filterY filterX inChannel
        callCfuOp0 0 (data.inputData + inputAt) (data.filterData + filterAt)) acc
    else pure acc) acc

/-- `ConvPerChannel` of `proj/proj_template`. -/
def convPerChannelProjTemplate (T : Target) (params : ConvParams) (data : ConvData) :
    Program Output := do
  let d ← consistencyCheck T params data
  forOutputs d (fun batch outY outX outChannel output => do
    let acc ← accProjTemplate params data d batch outY outX outChannel
    writeOutput params data batch outY outX outChannel acc output) []

/-! ## The kernel of `proj/filter_preload` -/

/-- The body of its output channel loop. -/
def outputFilterPreload (params : ConvParams) (data : ConvData)
    (batch outY outX batchOffset outChannel : Word) (output : Output) : Program Output := do
  let filterRows ← data.filterShape.dims 1
  let outOffset := outChannel * filterRows
  let _ ← callCfuOp0 8 batchOffset outOffset
  let acc ← callCfuOp0 0 0 0
  writeOutput params data batch outY outX outChannel acc output

/-- `ConvPerChannel` of `proj/filter_preload`. -/
def convPerChannelFilterPreload (T : Target) (params : ConvParams) (data : ConvData) :
    Program Output := do
  let d ← consistencyCheck T params data
  let filterHeight ← data.filterShape.dims 1
  let filterWidth ← data.filterShape.dims 2
  let _ ← callCfuOp0 2 filterWidth filterHeight
  let _ ← callCfuOp0 3 d.inputWidth d.inputHeight
  let _ ← callCfuOp0 4 d.inputDepth params.inputOffset
  let _ ← callCfuOp0 6 data.inputData data.filterData
  let _ ← callCfuOp0 7 d.filterInputDepth params.inputOffset
  forInt d.batches (fun batch output => do
    let inputRows ← data.inputShape.dims 1
    let batchOffset := batch * inputRows
    forInt d.outputHeight (fun outY => forInt d.outputWidth fun outX output => do
      let _ ← callCfuOp0 5 (inXOrigin params outX) (inYOrigin params outY)
      forInt d.outputDepth
        (outputFilterPreload params data batch outY outX batchOffset) output) output) []

end CfuPlayground.Tflite
