import CfuPlayground.VexRiscv.Alu
import CfuPlayground.VexRiscv.Faithful
import CfuPlayground.VexRiscv.Multiplier

/-!
# The data path of `VexRiscv_SlimCfu.v`

The register file, the bypasses and the hazards of `HazardSimplePlugin`, the data of loads, and the
registers that carry results from stage to stage. `Core` is the pipeline with its data path: it
drives the wires of `Inputs` that the data path computes. The caches, the CSRs and the next program
counter stay outside.

* `run_cpu`: the pipeline of a core is a `Cpu` on these wires.
* `lastStage` is the instruction that `writeBack` fires, with what it writes.
-/

namespace CfuPlayground.VexRiscv

/-- What the instruction cache says about a word that it fetches. -/
inductive FetchRsp
  | hit
  | cacheMiss
  | error
deriving DecidableEq

def FetchRsp.iBusRsp (readyForError : Bool) : FetchRsp → IBusRsp
  | .hit => .hit
  | .cacheMiss => .cacheMiss
  | .error => .error readyForError

/-- The wires that a core reads in a cycle. -/
structure Outside where
  /-- What the data path does not compute. -/
  inputs : Inputs
  /-- `IBusCachedPlugin_cache_io_cpu_fetch_data`. -/
  fetchData : Word
  fetchRsp : FetchRsp
  /-- `IBusCachedPlugin_iBusRsp_readyForError`. -/
  readyForError : Bool
  /-- `decode_PC`. -/
  decodePc : Word
  /-- `CsrPlugin_csrMapping_readDataSignal`. -/
  csrData : Word
  /-- `dataCache_1_io_cpu_writeBack_data`. -/
  cacheData : Word

/-- The registers of the data path. -/
structure Datapath where
  /-- `io_cpu_fetch_data_regNextWhen`, which is `decode_INSTRUCTION`, and what the cache says of
  it. -/
  decodeInstruction : Word
  decodeRsp : FetchRsp
  /-- `_zz_RegFilePlugin_regFile_port0` and `port1`. -/
  rs1Data : Word
  rs2Data : Word
  /-- `decode_to_execute_PC`, `execute_to_memory_PC` and `memory_to_writeBack_PC`. -/
  executePc : Word
  memoryPc : Word
  writeBackPc : Word
  /-- `execute_to_memory_REGFILE_WRITE_DATA` and `execute_to_memory_SHIFT_RIGHT`. -/
  memoryWriteData : Word
  memoryShiftRight : Word
  memoryProducts : Products
  divider : Divider
  writeBackSums : Sums
  /-- `HazardSimplePlugin_writeBackBuffer`. -/
  bufferValid : Bool
  bufferAddress : BitVec 5
  bufferData : Word
  regFile : BitVec 5 → Word
  /-- `_zz_7`, which is set in the first cycle. -/
  booting : Bool

/-- The registers that have a reset value have it. -/
structure Datapath.AtReset (d : Datapath) : Prop where
  counter : d.divider.counter = 0
  bufferValid : d.bufferValid = false
  booting : d.booting = true

/-- All registers 0 but `_zz_7`. -/
def Datapath.zero : Datapath where
  decodeInstruction := 0
  decodeRsp := .hit
  rs1Data := 0
  rs2Data := 0
  executePc := 0
  memoryPc := 0
  writeBackPc := 0
  memoryWriteData := 0
  memoryShiftRight := 0
  memoryProducts := ⟨0, 0, 0, 0⟩
  divider := Divider.zero
  writeBackSums := ⟨0, 0⟩
  bufferValid := false
  bufferAddress := 0
  bufferData := 0
  regFile := fun _ => 0
  booting := true

theorem Datapath.atReset_zero : Datapath.zero.AtReset := ⟨rfl, rfl, rfl⟩

/-- The pipeline and its data path. -/
structure Core where
  cpu : Cpu
  data : Datapath

/-- An instruction in the last stage. -/
structure LastStage where
  /-- `lastStagePc` and `lastStageInstruction`. -/
  pc : Word
  instruction : Word
  /-- What the data cache answers, if it is a load. -/
  cacheData : Word
  /-- `lastStageRegFileWrite_payload_data`. -/
  data : Word
deriving DecidableEq

/-- The data of a load: `writeBack_DBusCachedPlugin_rspFormated`. -/
def loadData (instruction address data : Word) : Word :=
  let byte0 : BitVec 8 :=
    if address.extractLsb' 0 2 = 0 then data.extractLsb' 0 8
    else if address.extractLsb' 0 2 = 1 then data.extractLsb' 8 8
    else if address.extractLsb' 0 2 = 2 then data.extractLsb' 16 8
    else data.extractLsb' 24 8
  let byte1 : BitVec 8 := if address.getLsbD 1 then data.extractLsb' 24 8 else data.extractLsb' 8 8
  let half : BitVec 16 := byte1 ++ byte0
  if instruction.extractLsb' 12 2 = 0 then
    if instruction.getLsbD 14 then byte0.setWidth 32 else byte0.signExtend 32
  else if instruction.extractLsb' 12 2 = 1 then
    if instruction.getLsbD 14 then half.setWidth 32 else half.signExtend 32
  else data.extractLsb' 16 16 ++ half

namespace Core

variable (o : Outside) (c : Core)

/-! ## Results -/

/-- The stage holds an instruction that writes the register `r`. -/
def writes (isValid : Bool) (instruction : Word) (r : BitVec 5) : Bool :=
  isValid && regfileWriteValid instruction && rdField instruction = r

def executeWrites (r : BitVec 5) : Bool :=
  writes c.cpu.executeIsValid c.cpu.executeInstruction r

def memoryWrites (r : BitVec 5) : Bool := writes c.cpu.memoryIsValid c.cpu.memoryInstruction r

def writeBackWrites (r : BitVec 5) : Bool :=
  writes c.cpu.writeBackIsValid c.cpu.writeBackInstruction r

def executeSrc1 : Word := (src1Ctrl c.cpu.executeInstruction).value c.cpu.executeInstruction
  c.cpu.executeRs1

def executeSrc2 : Word := (src2Ctrl c.cpu.executeInstruction).value c.cpu.executeInstruction
  c.cpu.executeRs2 c.data.executePc

/-- `_zz_decode_RS2`, the result in `execute`. -/
def executeValue : Word :=
  if c.cpu.executeIsValid && isCsr c.cpu.executeInstruction then o.csrData
  else aluData c.cpu.executeInstruction c.executeSrc1 c.executeSrc2

/-- The result in `memory`, without the CFU. -/
def memoryData : Word :=
  if c.cpu.memoryIsValid && isDiv c.cpu.memoryInstruction then c.data.divider.result
  else if c.cpu.memoryIsValid then
    shiftData c.cpu.memoryInstruction c.data.memoryWriteData c.data.memoryShiftRight
  else c.data.memoryWriteData

/-- `_zz_decode_RS2_1`, the result in `memory`. -/
def memoryValue : Word :=
  if c.cpu.memoryCfuInFlight then c.cpu.memoryRspPayload o.inputs else c.memoryData

/-- `_zz_decode_RS2_2`, the result in `writeBack`. -/
def writeBackValue : Word :=
  if c.cpu.writeBackIsValid && isMul c.cpu.writeBackInstruction then
    Multiplier.data c.cpu.writeBackInstruction c.data.writeBackSums
  else if c.cpu.writeBackIsValid && memoryEnable c.cpu.writeBackInstruction then
    loadData c.cpu.writeBackInstruction c.cpu.writeBackData o.cacheData
  else c.cpu.writeBackData

/-! ## Operands -/

/-- `decode_RS1` and `decode_RS2`, of the register `r` with `port` from the register file. -/
def decodeRs (r : BitVec 5) (port : Word) : Word :=
  if c.executeWrites r && bypassableExecute c.cpu.executeInstruction then c.executeValue o
  else if c.memoryWrites r && bypassableMemory c.cpu.memoryInstruction then c.memoryValue o
  else if c.writeBackWrites r then c.writeBackValue o
  else if c.data.bufferValid && c.data.bufferAddress = r then c.data.bufferData
  else port

/-- `HazardSimplePlugin_src0Hazard` and `src1Hazard`, of a register that is used. -/
def hazard (r : BitVec 5) : Bool :=
  c.executeWrites r && !bypassableExecute c.cpu.executeInstruction ||
    c.memoryWrites r && !bypassableMemory c.cpu.memoryInstruction

def srcHazard : Bool :=
  rs1Use c.data.decodeInstruction && c.hazard (rs1Field c.data.decodeInstruction) ||
    rs2Use c.data.decodeInstruction && c.hazard (rs2Field c.data.decodeInstruction)

/-- The wires of the pipeline. -/
def wires : Inputs :=
  { o.inputs with
    iBusRsp := c.data.decodeRsp.iBusRsp o.readyForError
    instruction := c.data.decodeInstruction
    rs1 := c.decodeRs o (rs1Field c.data.decodeInstruction) c.data.rs1Data
    rs2 := c.decodeRs o (rs2Field c.data.decodeInstruction) c.data.rs2Data
    srcHazard := c.srcHazard
    divBusy := !c.data.divider.done
    memoryData := c.memoryData }

/-! ## The rising edge -/

/-- `decode_INSTRUCTION_ANTICIPATED`, whose operands are read next. -/
def anticipated : Word :=
  if c.cpu.decodeIsStuck (c.wires o) then c.data.decodeInstruction else o.fetchData

/-- `writeBack_arbitration_isFiring`. -/
def writeBackIsFiring : Bool :=
  c.cpu.writeBackIsValid && !c.cpu.writeBackIsStuck (c.wires o) &&
    !c.cpu.writeBackRemoveIt (c.wires o)

/-- `HazardSimplePlugin_writeBackWrites_valid`. -/
def writeBackWritesValid : Bool :=
  regfileWriteValid c.cpu.writeBackInstruction && c.writeBackIsFiring o

/-- The registers of the data path after a cycle. -/
def nextData : Datapath where
  decodeInstruction :=
    if c.cpu.stages2InputReady (c.wires o) then o.fetchData else c.data.decodeInstruction
  decodeRsp := if c.cpu.stages2InputReady (c.wires o) then o.fetchRsp else c.data.decodeRsp
  rs1Data := c.data.regFile (rs1Field (c.anticipated o))
  rs2Data := c.data.regFile (rs2Field (c.anticipated o))
  executePc := if c.cpu.executeIsStuck (c.wires o) then c.data.executePc else o.decodePc
  memoryPc := if c.cpu.memoryIsStuck (c.wires o) then c.data.memoryPc else c.data.executePc
  writeBackPc := if c.cpu.writeBackIsStuck (c.wires o) then c.data.writeBackPc else c.data.memoryPc
  memoryWriteData :=
    if c.cpu.memoryIsStuck (c.wires o) then c.data.memoryWriteData else c.executeValue o
  memoryShiftRight :=
    if c.cpu.memoryIsStuck (c.wires o) then c.data.memoryShiftRight
    else shiftRight c.cpu.executeInstruction c.executeSrc1 c.executeSrc2
  memoryProducts :=
    if c.cpu.memoryIsStuck (c.wires o) then c.data.memoryProducts
    else Multiplier.products c.cpu.executeInstruction c.cpu.executeRs1 c.cpu.executeRs2
  divider := c.data.divider.step (c.wires o) c.cpu
  writeBackSums :=
    if c.cpu.writeBackIsStuck (c.wires o) then c.data.writeBackSums
    else Multiplier.sums c.data.memoryProducts
  bufferValid := c.writeBackWritesValid o
  bufferAddress := rdField c.cpu.writeBackInstruction
  bufferData := c.writeBackValue o
  regFile :=
    if c.data.booting then Function.update c.data.regFile 0 0
    else if c.writeBackWritesValid o then
      Function.update c.data.regFile (rdField c.cpu.writeBackInstruction) (c.writeBackValue o)
    else c.data.regFile
  booting := false

/-- The instruction that the last stage fires. -/
def lastStage : Option LastStage :=
  if c.writeBackIsFiring o then
    some ⟨c.data.writeBackPc, c.cpu.writeBackInstruction, o.cacheData, c.writeBackValue o⟩
  else none

/-- **One cycle.** -/
def step : Core where
  cpu := c.cpu.step (c.wires o)
  data := c.nextData o

def run (out : ℕ → Outside) (c : Core) : ℕ → Core := Lib.run step out c

theorem run_succ (out : ℕ → Outside) (c : Core) (n : ℕ) :
    run out c (n + 1) = (run out c n).step (out n) := rfl

/-- What the last stage has fired in the first `n` cycles, in order. -/
def fired (out : ℕ → Outside) (c : Core) (n : ℕ) : List LastStage :=
  Lib.log (fun k => (run out c k).lastStage (out k)) n

/-- The wires of the pipeline in the cycles of a run. -/
def wiresAt (out : ℕ → Outside) (c : Core) (n : ℕ) : Inputs := (run out c n).wires (out n)

theorem run_cpu (out : ℕ → Outside) (c : Core) (n : ℕ) :
    (run out c n).cpu = Cpu.run (wiresAt out c) c.cpu n := by
  induction n with
  | zero => rfl
  | succ n ih =>
    rw [Cpu.run_succ, ← ih]
    rfl

end Core

end CfuPlayground.VexRiscv
