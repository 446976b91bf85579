import Mathlib.Data.BitVec
import CfuPlayground.Lib.Run

/-!
# The port of a SystemVerilog CFU

The wires shared by the `Cfu` modules of `proj/proj_template` and `proj/filter_preload`: the
CPU's command and response channels, the reset, and the Wishbone master port to the RAM. The
master drives `cfu_ram_we = 0`, `cfu_ram_sel = 4'b1111` and classic cycles throughout, so only
the address, `cyc` and `stb` vary.
-/

namespace CfuPlayground

/-- A 32-bit register, wire or C `int`. -/
abbrev Word := BitVec 32

/-- A word address of the RAM. -/
abbrev WordAdr := BitVec 30

/-- The contents of the RAM, word by word. -/
abbrev Memory := WordAdr → Word

/-- The word address `adr[31:2]` of a byte address. -/
def wordAdr (adr : Word) : WordAdr := adr.extractLsb' 2 30

/-- `cmd_payload`. -/
structure Command where
  functionId : BitVec 10
  inputs0 : Word
  inputs1 : Word
deriving DecidableEq

/-- `cmd_payload_function_id[9:3]`. -/
def Command.funct7 (c : Command) : BitVec 7 := c.functionId.extractLsb' 3 7

/-- The command of `cfu_op0(funct7, rs1, rs2)`. -/
def cfuOp0 (funct7 : BitVec 7) (rs1 rs2 : Word) : Command := ⟨funct7 ++ (0 : BitVec 3), rs1, rs2⟩

@[simp] theorem cfuOp0_funct7 (f : BitVec 7) (a b : Word) : (cfuOp0 f a b).funct7 = f :=
  BitVec.extractLsb'_append_eq_left

@[simp] theorem cfuOp0_inputs0 (f : BitVec 7) (a b : Word) : (cfuOp0 f a b).inputs0 = a := rfl

@[simp] theorem cfuOp0_inputs1 (f : BitVec 7) (a b : Word) : (cfuOp0 f a b).inputs1 = b := rfl

/-- The wires a CFU reads. -/
structure In where
  cmdValid : Bool
  cmdPayload : Command
  rspReady : Bool
  reset : Bool
  cfuRamDatMiso : Word
  cfuRamAck : Bool
  cfuRamErr : Bool

/-- The wires a CFU drives. -/
structure Out where
  cmdReady : Bool
  rspValid : Bool
  rspPayloadOutputs0 : Word
  cfuRamAdr : WordAdr
  cfuRamCyc : Bool
  cfuRamStb : Bool

/-- A CFU with registers `σ`: its outputs, and the bodies of its two `always` blocks. -/
structure Gateware (σ : Type) where
  out : σ → Out
  /-- `always_ff @(posedge clk or posedge reset)`. -/
  posedgeClk : In → σ → σ
  /-- `always_ff @(negedge clk or posedge reset)`. -/
  negedgeClk : In → σ → σ

/-- One clock period: the falling edge, then the rising edge that ends it. -/
def Gateware.period {σ : Type} (G : Gateware σ) (i : In) (s : σ) : σ :=
  G.posedgeClk i (G.negedgeClk i s)

/-- The rising edge of `reset`, which triggers both blocks. -/
def Gateware.posedgeReset {σ : Type} (G : Gateware σ) (i : In) (s : σ) : σ :=
  G.posedgeClk { i with reset := true } (G.negedgeClk { i with reset := true } s)

end CfuPlayground
