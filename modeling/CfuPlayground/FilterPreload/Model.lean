import CfuPlayground.Cfu.Port

/-!
# The `Cfu` of `proj/filter_preload`

Commands `funct7 = 1 … 8` set registers, `funct7 = 0` runs a convolution: for each tap the
image word and the filter word are fetched, the four lane products are added to
`rsp_payload_outputs_0`, and the counters `cur_input_depth`, `cur_filter_x`, `cur_filter_y`
advance. The registers that only commands write are grouped in `Config`, the three counters in
`Counters`; the rest is laid out as in the source.
-/

namespace CfuPlayground.FilterPreload

/-- `PIPELINE_STATE_*`. -/
inductive PipelineState
  | init
  | execConvFetchVal
  | execConvFetchFilter
  | execConvAdd
  | execConvCalcCoords
  | execConvDone
  | execSetZeroes
  | execSetFilterInputDepth
  | execSetBaseOffsets
  | execSetFilterDims
  | execSetImageDims
  | execSetInputChannelShape
  | execSetImageCoords
  | execSetImageFilterAdr
deriving DecidableEq

/-- The value of the enumerator; `PIPELINE_STATE_EXEC_CONV_DONE = 100`. -/
def PipelineState.val : PipelineState → ℕ
  | .init => 0
  | .execConvFetchVal => 1
  | .execConvFetchFilter => 2
  | .execConvAdd => 3
  | .execConvCalcCoords => 4
  | .execConvDone => 100
  | .execSetZeroes => 101
  | .execSetFilterInputDepth => 102
  | .execSetBaseOffsets => 103
  | .execSetFilterDims => 104
  | .execSetImageDims => 105
  | .execSetInputChannelShape => 106
  | .execSetImageCoords => 107
  | .execSetImageFilterAdr => 108

/-- The configuration registers. -/
structure Config where
  InputOffset : BitVec 9 := 128
  filterBase : Word := 0
  filterBaseOffset : Word := 1
  filterInputDepth : Word := 1
  filterWidth : Word := 1
  filterHeight : Word := 1
  imageBase : Word := 0
  imageBaseOffset : Word := 1
  inputChannelDepth : Word := 1
  imageWidth : Word := 1
  imageHeight : Word := 1
  curImageX : Word := 0
  curImageY : Word := 0
deriving DecidableEq

/-- The counters of the traversal. -/
structure Counters where
  curInputDepth : Word := 0
  curFilterX : Word := 0
  curFilterY : Word := 0
deriving DecidableEq

/-- The registers. -/
structure State where
  curState : PipelineState
  rspValid : Bool
  rspPayloadOutputs0 : Word
  config : Config
  counters : Counters
  matrixVals : Word
  filterVals : Word
  cfuRamAdr : WordAdr
  cfuRamCyc : Bool
  cfuRamStb : Bool
deriving DecidableEq

/-- The registers after power-up and reset. `cfu_ram_cyc` and `cfu_ram_stb` have neither an initial
value nor a reset; the first falling edge in `INIT` clears them. -/
def State.start : State where
  curState := .init
  rspValid := false
  rspPayloadOutputs0 := 0
  config := {}
  counters := {}
  matrixVals := 0
  filterVals := 0
  cfuRamAdr := 0
  cfuRamCyc := false
  cfuRamStb := false

/-! ## Addresses and lanes -/

/-- `cur_filter_adr`. -/
def curFilterAdr (g : Config) (k : Counters) : Word :=
  g.filterBase +
    ((g.filterBaseOffset + k.curFilterY) * g.filterWidth + k.curFilterX) * g.filterInputDepth +
    k.curInputDepth

/-- `cur_image_adr`. -/
def curImageAdr (g : Config) (k : Counters) : Word :=
  g.imageBase +
    ((g.imageBaseOffset + g.curImageY + k.curFilterY) * g.imageWidth + g.curImageX +
      k.curFilterX) * g.inputChannelDepth +
    k.curInputDepth

/-- `add_select[lane]`. -/
def addSelect (g : Config) (k : Counters) (lane : ℕ) : Bool :=
  g.curImageX + k.curFilterX < g.imageWidth && k.curFilterX < g.filterWidth &&
    k.curInputDepth + BitVec.ofNat 32 lane < g.inputChannelDepth

/-- `prod_lane`: evaluated at 32 bits, cut to the signed 16-bit wire. -/
def prod (g : Config) (k : Counters) (matrixVals filterVals : Word) (lane : ℕ) : BitVec 16 :=
  (if addSelect g k lane then
    ((matrixVals.extractLsb' (8 * lane) 8).signExtend 32 + g.InputOffset.signExtend 32) *
      (filterVals.extractLsb' (8 * lane) 8).signExtend 32
  else (0 : Word)).setWidth 16

/-- `sum_prods`. -/
def sumProds (g : Config) (k : Counters) (matrixVals filterVals : Word) : Word :=
  (prod g k matrixVals filterVals 0).signExtend 32 +
    (prod g k matrixVals filterVals 1).signExtend 32 +
    (prod g k matrixVals filterVals 2).signExtend 32 +
    (prod g k matrixVals filterVals 3).signExtend 32

/-! ## Traversal -/

/-- `cur_input_depth + 4 >= input_channel_depth`. -/
def depthEnd (g : Config) (k : Counters) : Bool := k.curInputDepth + 4 ≥ g.inputChannelDepth

/-- The column test of `CONV_ADD` and `CALC_COORDS`. -/
def columnEnd (g : Config) (k : Counters) : Bool :=
  k.curFilterX + 1 ≥ g.filterWidth || g.curImageX + k.curFilterX + 1 ≥ g.imageWidth

/-- The row test of `CONV_ADD` and `CALC_COORDS`. -/
def rowEnd (g : Config) (k : Counters) : Bool :=
  k.curFilterY + 1 ≥ g.filterHeight || g.curImageY + k.curFilterY + 1 ≥ g.imageHeight

/-- The counters after `CONV_ADD`. -/
def advance (g : Config) (k : Counters) : Counters :=
  if depthEnd g k then
    if columnEnd g k then
      if rowEnd g k then { curInputDepth := 0, curFilterX := 0, curFilterY := 0 }
      else { curInputDepth := 0, curFilterX := 0, curFilterY := k.curFilterY + 1 }
    else { k with curInputDepth := 0, curFilterX := k.curFilterX + 1 }
  else { k with curInputDepth := k.curInputDepth + 4 }

/-- The successor of `CALC_COORDS`; where no branch assigns, `next_state = cur_state` stays. -/
def calcCoords (g : Config) (k : Counters) : PipelineState :=
  if depthEnd g k then
    if columnEnd g k then
      if rowEnd g k then .execConvDone else .execConvCalcCoords
    else .execConvCalcCoords
  else .execConvFetchVal

/-- The successor of `INIT` on a command. -/
def decode (funct7 : BitVec 7) : PipelineState :=
  if funct7 = 0 then .execConvFetchVal
  else if funct7 = 1 then .execSetZeroes
  else if funct7 = 2 then .execSetFilterDims
  else if funct7 = 3 then .execSetImageDims
  else if funct7 = 4 then .execSetInputChannelShape
  else if funct7 = 5 then .execSetImageCoords
  else if funct7 = 6 then .execSetImageFilterAdr
  else if funct7 = 7 then .execSetFilterInputDepth
  else if funct7 = 8 then .execSetBaseOffsets
  else .init

/-- `next_state`. -/
def nextState (i : In) (s : State) : PipelineState :=
  match s.curState with
  | .init => if i.cmdValid then decode i.cmdPayload.funct7 else .init
  | .execConvFetchVal =>
    if i.cfuRamErr then .execConvFetchVal
    else if i.cfuRamAck then .execConvFetchFilter else .execConvFetchVal
  | .execConvFetchFilter =>
    if i.cfuRamErr then .execConvFetchFilter
    else if i.cfuRamAck then .execConvAdd else .execConvFetchFilter
  | .execConvAdd => .execConvCalcCoords
  | .execConvCalcCoords => calcCoords s.config s.counters
  | _ => .init

/-! ## The two processes -/

/-- The outputs; `cmd_ready` looks at the state only. -/
def State.out (s : State) : Out where
  cmdReady := s.curState = .init
  rspValid := s.rspValid
  rspPayloadOutputs0 := s.rspPayloadOutputs0
  cfuRamAdr := s.cfuRamAdr
  cfuRamCyc := s.cfuRamCyc
  cfuRamStb := s.cfuRamStb

/-- The rising edge moves `rsp_valid` only. -/
def posedgeClk (i : In) (s : State) : State :=
  { s with
    rspValid :=
      if i.reset then false
      else if s.rspValid then !i.rspReady
      else s.curState.val ≥ PipelineState.execConvDone.val }

/-- The `case (cur_state)` of the falling edge. -/
def update (i : In) (s : State) : State :=
  match s.curState with
  | .execSetZeroes =>
    { s with
      rspPayloadOutputs0 := 0
      counters := { s.counters with curFilterX := 0, curFilterY := 0 } }
  | .execSetInputChannelShape =>
    { s with
      config := { s.config with
        inputChannelDepth := i.cmdPayload.inputs0
        InputOffset := i.cmdPayload.inputs1.setWidth 9 } }
  | .execSetFilterDims =>
    { s with
      config := { s.config with
        filterWidth := i.cmdPayload.inputs0
        filterHeight := i.cmdPayload.inputs1 } }
  | .execSetImageCoords =>
    { s with
      config := { s.config with
        curImageX := i.cmdPayload.inputs0
        curImageY := i.cmdPayload.inputs1 } }
  | .execSetImageDims =>
    { s with
      config := { s.config with
        imageWidth := i.cmdPayload.inputs0
        imageHeight := i.cmdPayload.inputs1 } }
  | .execSetFilterInputDepth =>
    { s with
      config := { s.config with
        filterInputDepth := i.cmdPayload.inputs0
        InputOffset := i.cmdPayload.inputs1.setWidth 9 } }
  | .execSetBaseOffsets =>
    { s with
      config := { s.config with
        imageBaseOffset := i.cmdPayload.inputs0
        filterBaseOffset := i.cmdPayload.inputs1 }
      rspPayloadOutputs0 := 0
      counters := { s.counters with curFilterX := 0, curFilterY := 0 } }
  | .execSetImageFilterAdr =>
    { s with
      config := { s.config with
        imageBase := i.cmdPayload.inputs0
        filterBase := i.cmdPayload.inputs1 } }
  | .execConvFetchVal =>
    { s with
      cfuRamAdr := wordAdr (curImageAdr s.config s.counters)
      cfuRamCyc := true
      cfuRamStb := true
      matrixVals := if i.cfuRamAck then i.cfuRamDatMiso else s.matrixVals }
  | .execConvFetchFilter =>
    { s with
      cfuRamAdr := wordAdr (curFilterAdr s.config s.counters)
      cfuRamCyc := true
      cfuRamStb := true
      filterVals := if i.cfuRamAck then i.cfuRamDatMiso else s.filterVals }
  | .execConvAdd =>
    { s with
      rspPayloadOutputs0 :=
        s.rspPayloadOutputs0 + sumProds s.config s.counters s.matrixVals s.filterVals
      cfuRamCyc := false
      cfuRamStb := false
      counters := advance s.config s.counters }
  | _ => { s with cfuRamCyc := false, cfuRamStb := false }

/-- The falling edge. -/
def negedgeClk (i : In) (s : State) : State :=
  if i.reset then
    { s with
      counters := { curInputDepth := 0, curFilterX := 0, curFilterY := 0 }
      rspPayloadOutputs0 := 0
      curState := .init }
  else { update i s with curState := nextState i s }

/-- The module. -/
def cfu : Gateware State where
  out := State.out
  posedgeClk := posedgeClk
  negedgeClk := negedgeClk

end CfuPlayground.FilterPreload
