import CfuPlayground.VexRiscv.Decode

/-!
# The pipeline of `VexRiscv_SlimCfu.v`

What decides how instructions move through `decode`, `execute`, `memory` and `writeBack`: the
arbitration, the CFU plugin, the exception ports and the pipeline liberator of the CSR plugin,
and the valid bits of the fetch stages. One step is one rising edge of `clk` without `reset`.

The caches, the register file, the arithmetic units, the CSRs and the branch target are inputs:
their wires may do anything from cycle to cycle, behind the gates that the source has in front of
them. Constants of the source (`mmuBus_busy`, `allowInterrupts`, ..) are folded.
-/

namespace CfuPlayground.VexRiscv

/-- What the instruction cache says about the word in `decode`. -/
inductive IBusRsp
  | hit
  | cacheMiss
  | error (readyForError : Bool)
deriving DecidableEq

/-- The wires that the pipeline reads in a cycle. -/
structure Inputs where
  /-- `fetchPc_booted`, and no `prefetch_haltIt`. -/
  prefetch : Bool
  iBusRsp : IBusRsp
  /-- `decode_INSTRUCTION`, `decode_RS1` and `decode_RS2`. -/
  instruction : Word
  rs1 : Word
  rs2 : Word
  hadBranch : Bool
  srcHazard : Bool
  interruptValid : Bool
  /-- `when_DBusCachedPlugin_l350`. -/
  dBusExecuteHalt : Bool
  refilling : Bool
  wfiWake : Bool
  /-- A CSR access that no CSR allows, and an `xret` above the privilege. -/
  csrIllegal : Bool
  privilegeLow : Bool
  /-- `BRANCH_DO` of a branch, and `BRANCH_CALC[1]`. -/
  branchDo : Bool
  branchMisaligned : Bool
  divBusy : Bool
  /-- The result of `memory` without the CFU. -/
  memoryData : Word
  dBusHalt : Bool
  dBusRedo : Bool
  dBusError : Bool
  /-- The wires of the CFU. -/
  cmdReady : Bool
  rspValid : Bool
  rspPayload : Word

/-- The registers. -/
structure Cpu where
  /-- The valid bits of `iBusRsp_stages_1` and of the `m2sPipe` behind it, which is `decode`. -/
  fetchValid : Bool
  m2sPipeValid : Bool
  executeIsValid : Bool
  executeInstruction : Word
  executeRs1 : Word
  executeRs2 : Word
  /-- `execute_CfuPlugin_hold` and `execute_CfuPlugin_fired`. -/
  hold : Bool
  fired : Bool
  memoryIsValid : Bool
  memoryInstruction : Word
  memoryCfuInFlight : Bool
  /-- `CfuPlugin_bus_rsp_rValid` and `CfuPlugin_bus_rsp_rData_outputs_0`. -/
  rValid : Bool
  rData : Word
  writeBackIsValid : Bool
  writeBackInstruction : Word
  writeBackData : Word
  /-- `exceptionPortCtrl_exceptionValidsRegs_*`. -/
  exceptionDecode : Bool
  exceptionExecute : Bool
  exceptionMemory : Bool
  exceptionWriteBack : Bool
  hadException : Bool
  /-- `pipelineLiberator_pcValids_*`. -/
  pcValids0 : Bool
  pcValids1 : Bool
  pcValids2 : Bool
deriving DecidableEq

/-- The registers that have a reset value have it. -/
structure Cpu.AtReset (s : Cpu) : Prop where
  fetchValid : s.fetchValid = false
  m2sPipeValid : s.m2sPipeValid = false
  executeIsValid : s.executeIsValid = false
  hold : s.hold = false
  fired : s.fired = false
  memoryIsValid : s.memoryIsValid = false
  memoryCfuInFlight : s.memoryCfuInFlight = false
  rValid : s.rValid = false
  writeBackIsValid : s.writeBackIsValid = false
  exceptionDecode : s.exceptionDecode = false
  exceptionExecute : s.exceptionExecute = false
  exceptionMemory : s.exceptionMemory = false
  exceptionWriteBack : s.exceptionWriteBack = false
  hadException : s.hadException = false
  pcValids0 : s.pcValids0 = false
  pcValids1 : s.pcValids1 = false
  pcValids2 : s.pcValids2 = false

/-- All registers 0. -/
def Cpu.zero : Cpu where
  fetchValid := false
  m2sPipeValid := false
  executeIsValid := false
  executeInstruction := 0
  executeRs1 := 0
  executeRs2 := 0
  hold := false
  fired := false
  memoryIsValid := false
  memoryInstruction := 0
  memoryCfuInFlight := false
  rValid := false
  rData := 0
  writeBackIsValid := false
  writeBackInstruction := 0
  writeBackData := 0
  exceptionDecode := false
  exceptionExecute := false
  exceptionMemory := false
  exceptionWriteBack := false
  hadException := false
  pcValids0 := false
  pcValids1 := false
  pcValids2 := false

/-- Nothing is in the way, and every instruction is a `nop`. -/
def Inputs.idle : Inputs where
  prefetch := true
  iBusRsp := .hit
  instruction := 0x00000013
  rs1 := 0
  rs2 := 0
  hadBranch := false
  srcHazard := false
  interruptValid := false
  dBusExecuteHalt := false
  refilling := false
  wfiWake := false
  csrIllegal := false
  privilegeLow := false
  branchDo := false
  branchMisaligned := false
  divBusy := false
  memoryData := 0
  dBusHalt := false
  dBusRedo := false
  dBusError := false
  cmdReady := false
  rspValid := false
  rspPayload := 0

theorem Cpu.atReset_zero : Cpu.zero.AtReset := by constructor <;> rfl

namespace Cpu

variable (i : Inputs) (s : Cpu)

/-! ## The CFU plugin -/

/-- `execute_CfuPlugin_hazard`: an older instruction with a side effect. -/
def hazard : Bool :=
  s.writeBackIsValid && hasSideEffect s.writeBackInstruction ||
    s.memoryIsValid && hasSideEffect s.memoryInstruction

def scheduleWish : Bool := s.executeIsValid && cfuEnable s.executeInstruction

def schedule : Bool := s.scheduleWish && !s.hazard

/-- `CfuPlugin_bus_cmd_valid`. -/
def cmdValid : Bool := (s.schedule || s.hold) && !s.fired

/-- `CfuPlugin_bus_cmd_payload`; `CFU_INPUT_2_KIND` is always `RS`. -/
def cmdPayload : Command := ⟨functionId s.executeInstruction, s.executeRs1, s.executeRs2⟩

/-- `CfuPlugin_bus_cmd_fire`. -/
def cmdFire : Bool := s.cmdValid && i.cmdReady

/-- `execute_CfuPlugin_CFU_IN_FLIGHT`. -/
def executeCfuInFlight : Bool := s.schedule || s.hold || s.fired

/-- `CfuPlugin_bus_rsp_ready`. -/
def rspReady : Bool := !s.rValid

/-- `memory_CfuPlugin_rsp_valid`. -/
def memoryRspValid : Bool := i.rspValid || s.rValid

/-- `memory_CfuPlugin_rsp_payload_outputs_0`. -/
def memoryRspPayload : Word := if s.rValid then s.rData else i.rspPayload

/-! ## Flushes from the last stage -/

/-- `DBusCachedPlugin_redoBranch_valid`. -/
def redoBranch : Bool := s.writeBackIsValid && memoryEnable s.writeBackInstruction && i.dBusRedo

/-- `DBusCachedPlugin_exceptionBus_valid`. -/
def dBusException : Bool :=
  s.writeBackIsValid && memoryEnable s.writeBackInstruction && i.dBusError && !i.dBusRedo

def pipelineLiberatorDone : Bool :=
  s.pcValids2 && !(s.exceptionWriteBack || s.exceptionMemory || s.exceptionExecute) &&
    !s.hadException

def interruptJump : Bool := i.interruptValid && s.pipelineLiberatorDone

/-- `when_CsrPlugin_l1032`. -/
def trap : Bool := s.hadException || s.interruptJump i

/-- `when_CsrPlugin_l1077`. -/
def writeBackXret : Bool := s.writeBackIsValid && envCtrl s.writeBackInstruction = .xret

def writeBackFlushIt : Bool := s.redoBranch i

def writeBackFlushNext : Bool :=
  s.redoBranch i || s.dBusException i || s.trap i || s.writeBackXret

/-- `memory_arbitration_isFlushed`, which is `execute_arbitration_isFlushed`. -/
def isFlushed : Bool := s.writeBackFlushNext i || s.writeBackFlushIt i

/-! ## `writeBack` and `memory` -/

def writeBackIsStuck : Bool :=
  s.writeBackIsValid && memoryEnable s.writeBackInstruction && i.dBusHalt

def writeBackRemoveIt : Bool := s.dBusException i || s.writeBackFlushIt i

def memoryHaltItself : Bool :=
  s.memoryIsValid && isDiv s.memoryInstruction && i.divBusy ||
    s.memoryCfuInFlight && !s.memoryRspValid i

def memoryIsStuck : Bool := s.memoryHaltItself i || s.writeBackIsStuck i

def memoryRemoveIt : Bool := s.isFlushed i

/-- `memory_CfuPlugin_rsp_ready`. -/
def memoryRspReady : Bool := s.memoryCfuInFlight && !s.writeBackIsStuck i

/-! ## `execute` -/

/-- `BranchPlugin_jumpInterface_valid`. -/
def branchJump : Bool := s.executeIsValid && isBranch s.executeInstruction && i.branchDo

/-- `CsrPlugin_selfException_valid`. -/
def selfException : Bool :=
  s.executeIsValid &&
    (isCsr s.executeInstruction && i.csrIllegal ||
      envCtrl s.executeInstruction = .xret && i.privilegeLow ||
      envCtrl s.executeInstruction = .ecall)

/-- `_zz_when_1`. -/
def executeException : Bool := s.selfException i || s.branchJump i && i.branchMisaligned

def executeHaltItself : Bool :=
  i.dBusExecuteHalt ||
    s.executeIsValid && envCtrl s.executeInstruction = .wfi && !i.wfiWake ||
    s.executeIsValid && isCsr s.executeInstruction && (s.writeBackIsValid || s.memoryIsValid) ||
    s.scheduleWish && s.hazard ||
    s.cmdValid && !i.cmdReady

def executeHaltByOther : Bool := i.refilling && s.executeIsValid

def executeIsStuck : Bool :=
  s.executeHaltItself i || s.executeHaltByOther i || s.memoryIsStuck i || s.writeBackIsStuck i

def executeRemoveIt : Bool := s.executeException i || s.isFlushed i

def executeFlushNext : Bool := s.branchJump i || s.executeException i

/-! ## `decode` -/

def decodeIsValid : Bool := s.m2sPipeValid && i.iBusRsp = .hit

/-- `_zz_when`. -/
def decodeException : Bool :=
  s.decodeIsValid i && !legalInstruction i.instruction ||
    s.m2sPipeValid && i.iBusRsp = .error true

def decodeIsFlushed : Bool := s.isFlushed i || s.executeFlushNext i

/-- `pipelineLiberator_active`. -/
def pipelineLiberatorActive : Bool := i.interruptValid && s.decodeIsValid i

/-- `when_CsrPlugin_l1129`. -/
def xretAhead : Bool :=
  s.writeBackXret || s.memoryIsValid && envCtrl s.memoryInstruction = .xret ||
    s.executeIsValid && envCtrl s.executeInstruction = .xret

def decodeHaltByOther : Bool :=
  s.decodeIsValid i && i.srcHazard || s.pipelineLiberatorActive i || s.xretAhead

def decodeIsStuck : Bool :=
  s.decodeHaltByOther i || s.executeIsStuck i || s.memoryIsStuck i || s.writeBackIsStuck i

def decodeRemoveIt : Bool := s.decodeException i || s.decodeIsFlushed i

def decodeFlushNext : Bool := s.decodeIsValid i && i.hadBranch || s.decodeException i

/-! ## Exceptions and fetching -/

def exceptionValidsDecode : Bool :=
  (s.exceptionDecode || s.decodeException i) && !s.decodeIsFlushed i

def exceptionValidsExecute : Bool :=
  (s.exceptionExecute || s.executeException i) && !s.isFlushed i

def exceptionValidsMemory : Bool := s.exceptionMemory && !s.isFlushed i

def exceptionValidsWriteBack : Bool :=
  (s.exceptionWriteBack || s.dBusException i) && !s.writeBackFlushIt i

/-- `IBusCachedPlugin_fetcherHalt`. -/
def fetcherHalt : Bool :=
  s.exceptionValidsWriteBack i || s.exceptionValidsMemory i || s.exceptionValidsExecute i ||
    s.exceptionValidsDecode i || s.trap i || s.writeBackXret

/-- `IBusCachedPlugin_iBusRsp_flush`. -/
def iBusRspFlush : Bool :=
  s.decodeRemoveIt i || s.decodeFlushNext i && !s.decodeIsStuck i ||
    s.m2sPipeValid && i.iBusRsp = .cacheMiss

/-- `iBusRsp_stages_2_input_ready`, which lets both fetch stages go on. -/
def stages2InputReady : Bool :=
  !s.decodeIsStuck i && !(s.m2sPipeValid && i.iBusRsp ≠ .hit)

/-! ## The rising edge -/

/-- The valid bit of a stage: `when_Pipeline_l151` clears it and `when_Pipeline_l154` loads it
from the stage before. -/
def nextIsValid (isStuck removeIt isValid previousIsMoving previousIsValid : Bool) : Bool :=
  if previousIsMoving then previousIsValid
  else if !isStuck || removeIt then false else isValid

def executeIsMoving : Bool := !s.executeIsStuck i && !s.executeRemoveIt i

def memoryIsMoving : Bool := !s.memoryIsStuck i && !s.memoryRemoveIt i

def decodeIsMoving : Bool := !s.decodeIsStuck i && !s.decodeRemoveIt i

/-- `execute_to_memory_CfuPlugin_CFU_IN_FLIGHT`. -/
def nextCfuInFlight : Bool :=
  if s.memoryIsStuck i then s.memoryCfuInFlight
  else s.executeCfuInFlight && !s.executeIsStuck i

/-- The last assignment that applies wins. -/
def nextHold : Bool := if i.cmdReady then false else if s.schedule then true else s.hold

def nextFired : Bool := if !s.executeIsStuck i then false else if s.cmdFire i then true else s.fired

def nextRValid : Bool :=
  if s.memoryRspReady i then false else if i.rspValid then true else s.rValid

/-- `pipelineLiberator_pcValids_*` with the `when_CsrPlugin_l998` that clears them. -/
def nextPcValid (loads previous pcValid : Bool) : Bool :=
  s.pipelineLiberatorActive i && !s.decodeRemoveIt i && if loads then previous else pcValid

/-- **One cycle.** -/
def step : Cpu where
  fetchValid :=
    if s.stages2InputReady i then !s.fetcherHalt i && i.prefetch
    else s.fetchValid && !s.iBusRspFlush i
  m2sPipeValid :=
    (if s.stages2InputReady i then s.fetchValid else s.m2sPipeValid) && !s.iBusRspFlush i
  executeIsValid := nextIsValid (s.executeIsStuck i) (s.executeRemoveIt i) s.executeIsValid
    (s.decodeIsMoving i) (s.decodeIsValid i)
  executeInstruction := if s.executeIsStuck i then s.executeInstruction else i.instruction
  executeRs1 := if s.executeIsStuck i then s.executeRs1 else i.rs1
  executeRs2 := if s.executeIsStuck i then s.executeRs2 else i.rs2
  hold := s.nextHold i
  fired := s.nextFired i
  memoryIsValid := nextIsValid (s.memoryIsStuck i) (s.memoryRemoveIt i) s.memoryIsValid
    (s.executeIsMoving i) s.executeIsValid
  memoryInstruction := if s.memoryIsStuck i then s.memoryInstruction else s.executeInstruction
  memoryCfuInFlight := s.nextCfuInFlight i
  rValid := s.nextRValid i
  rData := if s.rspReady then i.rspPayload else s.rData
  writeBackIsValid := nextIsValid (s.writeBackIsStuck i) (s.writeBackRemoveIt i)
    s.writeBackIsValid (s.memoryIsMoving i) s.memoryIsValid
  writeBackInstruction :=
    if s.writeBackIsStuck i then s.writeBackInstruction else s.memoryInstruction
  writeBackData :=
    if s.writeBackIsStuck i then s.writeBackData
    else if s.memoryCfuInFlight then s.memoryRspPayload i else i.memoryData
  exceptionDecode := s.exceptionValidsDecode i && s.decodeIsStuck i
  exceptionExecute :=
    if s.executeIsStuck i then s.exceptionValidsExecute i
    else s.exceptionValidsDecode i && !s.decodeIsStuck i
  exceptionMemory :=
    if s.memoryIsStuck i then s.exceptionValidsMemory i
    else s.exceptionValidsExecute i && !s.executeIsStuck i
  exceptionWriteBack :=
    !s.writeBackIsStuck i && s.exceptionValidsMemory i && !s.memoryIsStuck i
  hadException := s.exceptionValidsWriteBack i
  pcValids0 := s.nextPcValid i (!s.executeIsStuck i) true s.pcValids0
  pcValids1 := s.nextPcValid i (!s.memoryIsStuck i) s.pcValids0 s.pcValids1
  pcValids2 := s.nextPcValid i (!s.writeBackIsStuck i) s.pcValids1 s.pcValids2

end Cpu

end CfuPlayground.VexRiscv
