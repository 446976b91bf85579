import CfuPlayground.Cfu.Port

/-!
# The Amaranth `Cfu` base class

The FSM of `Cfu.elab` around a table of eight instructions. The instructions are seen through
their wires: in every cycle each explicit instruction shows `done` and `output`, and the CFU
gives each of them `start`, the operands and `funct7`. Where `elab_instructions` has no entry,
`__build_instructions` puts a `_FallbackInstruction`.
-/

namespace CfuPlayground.AmaranthCfu

/-- The number of an instruction. -/
abbrev Funct3 := BitVec 3

/-- The wires an instruction drives. -/
structure InstructionOut where
  done : Bool
  output : Word

/-- The wires an instruction reads. -/
structure InstructionIn where
  start : Bool
  in0 : Word
  in1 : Word
  funct7 : BitVec 7

/-- The states of the FSM. -/
inductive FsmState
  | waitCmd
  | waitInstruction
  | waitTransfer
deriving DecidableEq

/-- The registers. -/
structure State where
  fsm : FsmState := .waitCmd
  storedFunctionId : Funct3 := 0
  storedOutput : Word := 0
deriving DecidableEq

/-- The wires of one cycle. -/
structure In where
  cmdValid : Bool
  cmdFunctionId : BitVec 10
  cmdIn0 : Word
  cmdIn1 : Word
  rspReady : Bool
  /-- The instructions made by `elab_instructions`. -/
  instructionDict : Funct3 → Option InstructionOut

/-- `cmd_function_id[:3]`. -/
def In.funct3 (i : In) : Funct3 := i.cmdFunctionId.extractLsb' 0 3

/-- `cmd_function_id[-7:]`. -/
def In.funct7 (i : In) : BitVec 7 := i.cmdFunctionId.extractLsb' 3 7

/-- `_FallbackInstruction`: done at once, with `in0` as output. -/
def fallbackInstruction (in0 : Word) : InstructionOut := ⟨true, in0⟩

/-- `__build_instructions`: the eight instructions. -/
def In.instructions (i : In) (f : Funct3) : InstructionOut :=
  (i.instructionDict f).getD (fallbackInstruction i.cmdIn0)

/-- `current_function_id`. -/
def currentFunctionId (i : In) (s : State) : Funct3 :=
  match s.fsm with
  | .waitCmd => i.funct3
  | .waitInstruction => s.storedFunctionId
  | .waitTransfer => 0

/-- `instruction_starts`. -/
def instructionStarts (i : In) (s : State) (f : Funct3) : Bool :=
  s.fsm = .waitCmd && i.cmdValid && f == currentFunctionId i s

/-- The wires of instruction `f`. -/
def instructionIn (i : In) (s : State) (f : Funct3) : InstructionIn where
  start := instructionStarts i s f
  in0 := i.cmdIn0
  in1 := i.cmdIn1
  funct7 := i.funct7

/-- `cmd_ready`. -/
def cmdReady (s : State) : Bool := s.fsm = .waitCmd

/-- The current instruction runs in this cycle: `check_instruction_done` applies. -/
def checking (i : In) (s : State) : Bool :=
  match s.fsm with
  | .waitCmd => i.cmdValid
  | .waitInstruction => true
  | .waitTransfer => false

/-- The instruction selected by `current_function_id`. -/
def current (i : In) (s : State) : InstructionOut := i.instructions (currentFunctionId i s)

/-- `rsp_valid`. -/
def rspValid (i : In) (s : State) : Bool :=
  s.fsm = .waitTransfer || checking i s && (current i s).done

/-- `rsp_out`. -/
def rspOut (i : In) (s : State) : Word :=
  match s.fsm with
  | .waitTransfer => s.storedOutput
  | _ => if checking i s && (current i s).done then (current i s).output else 0

/-- `check_instruction_done`, the part that moves registers. -/
def checkInstructionDone (i : In) (s : State) : State :=
  if (current i s).done then
    if i.rspReady then { s with fsm := .waitCmd }
    else { s with storedOutput := (current i s).output, fsm := .waitTransfer }
  else { s with fsm := .waitInstruction }

/-- **One clock edge** of the CFU. -/
def next (i : In) (s : State) : State :=
  match s.fsm with
  | .waitCmd =>
    if i.cmdValid then { checkInstructionDone i s with storedFunctionId := i.funct3 } else s
  | .waitInstruction => checkInstructionDone i s
  | .waitTransfer => if i.rspReady then { s with fsm := .waitCmd } else s

end CfuPlayground.AmaranthCfu
