import CfuPlayground.AmaranthCfu.Model

/-!
# Dynamic clock control between CPU and CFU

`CfuCpuClockCtrl` of `soc/clock_control.py`, and its composition with the Amaranth `Cfu` and a
CPU. The controller is clocked by every edge; the registers of the `Cfu` and of its
instructions take the edges with `cfu_cen`, those of the CPU the edges with `cpu_cen`. The
outputs of the CPU are functions of its registers; the instructions may answer their inputs
within the cycle.
-/

namespace CfuPlayground.ClockControl

open AmaranthCfu

/-- The states of the controller. -/
inductive FsmState
  | cpuEnabled
  | cfuEnabled
deriving DecidableEq

/-- The handshake signals the controller reads (`cfu_bus_minimized_layout`). -/
structure CfuBus where
  cmdValid : Bool
  cmdReady : Bool
  rspValid : Bool
  rspReady : Bool
deriving DecidableEq

/-- `cfu_cen`. -/
def cfuCen (b : CfuBus) : FsmState → Bool
  | .cpuEnabled => b.cmdValid
  | .cfuEnabled => true

/-- `cpu_cen`. -/
def cpuCen (b : CfuBus) : FsmState → Bool
  | .cpuEnabled => true
  | .cfuEnabled => if !b.rspValid && !b.cmdValid then b.cmdReady else true

/-- `NextState`. -/
def nextFsm (b : CfuBus) : FsmState → FsmState
  | .cpuEnabled => if b.cmdValid then .cfuEnabled else .cpuEnabled
  | .cfuEnabled =>
    if !b.rspValid && !b.cmdValid && b.cmdReady then .cpuEnabled else .cfuEnabled

/-- The CFU wires driven by a CPU. -/
structure CpuOut where
  cmdValid : Bool
  cmdFunctionId : BitVec 10
  cmdIn0 : Word
  cmdIn1 : Word
  rspReady : Bool

/-- A CPU with registers `κ`; `ext` is whatever else it reads. -/
structure Cpu (κ ε : Type) where
  out : κ → CpuOut
  next : (cmdReady rspValid : Bool) → (rspOut : Word) → (ext : ε) → κ → κ

/-- Instructions with registers `τ`, in the slots `elab_instructions` fills. -/
structure Instructions (τ : Type) where
  out : (Funct3 → InstructionIn) → τ → Funct3 → Option InstructionOut
  next : (Funct3 → InstructionIn) → τ → τ

/-- The registers of the composition. -/
structure System (κ τ : Type) where
  ctrl : FsmState
  cfu : AmaranthCfu.State
  instructions : τ
  cpu : κ

variable {κ τ ε : Type} (C : Cpu κ ε) (T : Instructions τ)

/-- The wires into the instructions; they do not depend on what the instructions drive. -/
def System.instructionIns (s : System κ τ) (f : Funct3) : InstructionIn :=
  let o := C.out s.cpu
  instructionIn ⟨o.cmdValid, o.cmdFunctionId, o.cmdIn0, o.cmdIn1, o.rspReady, fun _ => none⟩
    s.cfu f

/-- The wires into the `Cfu`. -/
def System.wires (s : System κ τ) : AmaranthCfu.In where
  cmdValid := (C.out s.cpu).cmdValid
  cmdFunctionId := (C.out s.cpu).cmdFunctionId
  cmdIn0 := (C.out s.cpu).cmdIn0
  cmdIn1 := (C.out s.cpu).cmdIn1
  rspReady := (C.out s.cpu).rspReady
  instructionDict := T.out (s.instructionIns C) s.instructions

/-- The handshake signals in a cycle. -/
def System.bus (s : System κ τ) : CfuBus where
  cmdValid := (s.wires C T).cmdValid
  cmdReady := cmdReady s.cfu
  rspValid := rspValid (s.wires C T) s.cfu
  rspReady := (s.wires C T).rspReady

/-- **One clock edge** of the composition. -/
def System.tick (e : ε) (s : System κ τ) : System κ τ where
  ctrl := nextFsm (s.bus C T) s.ctrl
  cfu := if cfuCen (s.bus C T) s.ctrl then next (s.wires C T) s.cfu else s.cfu
  instructions :=
    if cfuCen (s.bus C T) s.ctrl then T.next (s.instructionIns C) s.instructions
    else s.instructions
  cpu :=
    if cpuCen (s.bus C T) s.ctrl then
      C.next (s.bus C T).cmdReady (s.bus C T).rspValid (rspOut (s.wires C T) s.cfu) e s.cpu
    else s.cpu

/-- The composition out of reset. -/
def System.start (c : κ) (i : τ) : System κ τ := ⟨.cpuEnabled, {}, i, c⟩

end CfuPlayground.ClockControl
