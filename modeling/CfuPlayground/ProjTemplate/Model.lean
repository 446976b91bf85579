import CfuPlayground.Cfu.Port

/-!
# The `Cfu` of `proj/proj_template`

`funct7 ≠ 0` clears the accumulator `rsp_payload_outputs_0`; `funct7 = 0` fetches one word at
each of the two byte addresses and adds the four lane products. States, `next_state`, the lane
arithmetic and the two `always` blocks are written as in the source.
-/

namespace CfuPlayground.ProjTemplate

/-- `PIPELINE_STATE_*`. -/
inductive PipelineState
  | init
  | exec0
  | exec1FetchVal
  | exec1FetchFilter
  | exec1Add
deriving DecidableEq

/-- The registers. -/
structure State where
  curState : PipelineState
  rspValid : Bool
  rspPayloadOutputs0 : Word
  matrixVals : Word
  filterVals : Word
  cfuRamAdr : WordAdr
  cfuRamCyc : Bool
  cfuRamStb : Bool
deriving DecidableEq

/-- The registers after power-up and reset. `cfu_ram_cyc` and `cfu_ram_stb` have neither an initial
value nor a reset; that they power up as 0 is assumed. -/
def State.start : State where
  curState := .init
  rspValid := false
  rspPayloadOutputs0 := 0
  matrixVals := 0
  filterVals := 0
  cfuRamAdr := 0
  cfuRamCyc := false
  cfuRamStb := false

/-- `localparam InputOffset = $signed(9'd128)`. -/
def InputOffset : BitVec 9 := 128

/-- `prod_k`: the product of lane `k`, on its signed 16-bit wire. -/
def prod (matrixVals filterVals : Word) (k : ℕ) : BitVec 16 :=
  ((matrixVals.extractLsb' (8 * k) 8).signExtend 16 + InputOffset.signExtend 16) *
    (filterVals.extractLsb' (8 * k) 8).signExtend 16

/-- `sum_prods`. -/
def sumProds (matrixVals filterVals : Word) : Word :=
  (prod matrixVals filterVals 0).signExtend 32 + (prod matrixVals filterVals 1).signExtend 32 +
    (prod matrixVals filterVals 2).signExtend 32 + (prod matrixVals filterVals 3).signExtend 32

/-- `next_state`. -/
def nextState (i : In) : PipelineState → PipelineState
  | .init =>
    if i.cmdValid then
      if i.cmdPayload.funct7 ≠ 0 then .exec0 else .exec1FetchVal
    else .init
  | .exec0 => .init
  | .exec1FetchVal =>
    if i.cfuRamErr then .exec1FetchVal
    else if i.cfuRamAck then .exec1FetchFilter else .exec1FetchVal
  | .exec1FetchFilter =>
    if i.cfuRamErr then .exec1FetchFilter
    else if i.cfuRamAck then .exec1Add else .exec1FetchFilter
  | .exec1Add => .init

/-- The outputs; `cmd_ready` looks at the state only. -/
def State.out (s : State) : Out where
  cmdReady := s.curState = .init
  rspValid := s.rspValid
  rspPayloadOutputs0 := s.rspPayloadOutputs0
  cfuRamAdr := s.cfuRamAdr
  cfuRamCyc := s.cfuRamCyc
  cfuRamStb := s.cfuRamStb

/-- The rising edge moves `rsp_valid` only. -/
def posedgeClk (i : In) (s : State) : State :=
  { s with
    rspValid :=
      if i.reset then false
      else if s.rspValid then !i.rspReady
      else s.curState = .exec0 || s.curState = .exec1Add }

/-- The `case (cur_state)` of the falling edge. -/
def update (i : In) (s : State) : State :=
  match s.curState with
  | .exec0 => { s with rspPayloadOutputs0 := 0 }
  | .exec1FetchVal =>
    { s with
      cfuRamAdr := wordAdr i.cmdPayload.inputs0
      cfuRamCyc := true
      cfuRamStb := true
      matrixVals := if i.cfuRamAck then i.cfuRamDatMiso else s.matrixVals }
  | .exec1FetchFilter =>
    { s with
      cfuRamAdr := wordAdr i.cmdPayload.inputs1
      cfuRamCyc := true
      cfuRamStb := true
      filterVals := if i.cfuRamAck then i.cfuRamDatMiso else s.filterVals }
  | .exec1Add =>
    { s with
      rspPayloadOutputs0 := s.rspPayloadOutputs0 + sumProds s.matrixVals s.filterVals
      cfuRamCyc := false
      cfuRamStb := false }
  | .init => { s with cfuRamCyc := false, cfuRamStb := false }

/-- The falling edge. -/
def negedgeClk (i : In) (s : State) : State :=
  if i.reset then { s with rspPayloadOutputs0 := 0, curState := .init }
  else if i.cmdValid then { update i s with curState := nextState i s.curState }
  else { s with curState := nextState i s.curState }

/-- The module. -/
def cfu : Gateware State where
  out := State.out
  posedgeClk := posedgeClk
  negedgeClk := negedgeClk

end CfuPlayground.ProjTemplate
