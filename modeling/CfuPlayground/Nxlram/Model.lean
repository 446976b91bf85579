import CfuPlayground.Cfu.Port
import CfuPlayground.Lib.Lane

/-!
# `NXLRAM`

The Wishbone memory of `soc/hps_lattice_nx.py`: blocks of 16K words of 32 bits, cascaded in depth
and in width. Data and byte enables of the bus appear in their 32-bit slices, as the code cuts
them: `datW w` is `dat_w[32*w:32*(w+1)]`.

Of the primitives (`SP512K`, `DPSC512K`) it is taken that they are synchronous, with active-low
byte enables and one cycle of read latency, and that an edge without clock enable does nothing.
What a block shows after a write is left open (`writeOut`).
-/

namespace CfuPlayground.Nxlram

open Lib (lane)

abbrev kB : ℕ := 1024

/-- The arguments of the constructor. -/
structure Params where
  width : ℕ
  size : ℕ
  dualPort : Bool
deriving DecidableEq

namespace Params

variable (c : Params)

def depthCascading : ℕ := if c.width = 32 then c.size / (64 * kB) else c.size / (128 * kB)

def widthCascading : ℕ := if c.width = 32 then 1 else 2

/-- `(depth_cascading - 1).bit_length()`. -/
def selBits : ℕ := (c.depthCascading - 1).size

/-- The constructor accepts the arguments. -/
def Accepted : Prop :=
  (c.width = 32 ∧ c.size ∈ [64 * kB, 128 * kB, 192 * kB, 256 * kB, 320 * kB] ∨
      c.width = 64 ∧ c.size ∈ [128 * kB, 256 * kB]) ∧
    (c.dualPort = true → 2 ^ c.selBits = c.depthCascading)

instance : Decidable c.Accepted := inferInstanceAs (Decidable (_ ∧ _))

/-- `sel_uses_lsb` is `dual_port`. -/
def selBitsStart : ℕ := if c.dualPort then 0 else 14

def adrBitsStart : ℕ := if c.dualPort then c.selBits else 0

end Params

/-! ## The primitives -/

/-- A row of a block. -/
abbrev Row := BitVec 14

/-- A block: its words and its outputs. -/
structure Block where
  mem : Row → Word
  dout : Word
  bDout : Word

/-- The bytes whose enable is low are written. -/
def mergeBytes (byteenN : BitVec 4) (old new : Word) : Word :=
  let byte (k : ℕ) := if byteenN.getLsbD k then lane old k else lane new k
  byte 3 ++ byte 2 ++ byte 1 ++ byte 0

/-- **One clock edge** of a block. -/
def Block.clock (writeOut : Word → Word → Word) (ce cs we : Bool) (ad : Row) (di : Word)
    (byteenN : BitVec 4) (ceB : Bool) (adB : Row) (b : Block) : Block where
  mem := if ce && cs && we then
      Function.update b.mem ad (mergeBytes byteenN (b.mem ad) di) else b.mem
  dout := if ce && cs then if we then writeOut (b.mem ad) di else b.mem ad else b.dout
  bDout := if ceB then b.mem adB else b.bDout

/-! ## The module -/

/-- The wires a Wishbone master drives. -/
structure Wires where
  cyc : Bool
  stb : Bool
  we : Bool
  adr : ℕ
  datW : ℕ → Word
  sel : ℕ → BitVec 4

/-- The wires into the module; the lists `a_clkens`, `b_clkens` and `b_addrs` by their index. -/
structure In where
  bus : Wires
  aClkens : ℕ → Bool
  bClkens : ℕ → Bool
  bAddrs : ℕ → Row

/-- The registers: `lram_blocks[d][w]` and `bus.ack`. -/
structure State where
  blocks : ℕ → ℕ → Block
  ack : Bool

variable (c : Params)

/-- `adr[adr_bits_start:adr_bits_start+14]`. -/
def row (adr : ℕ) : Row := BitVec.ofNat 14 (adr / 2 ^ c.adrBitsStart)

/-- The blocks `d` are selected. -/
def selected (adr d : ℕ) : Bool :=
  if 0 < c.selBits then adr / 2 ^ c.selBitsStart % 2 ^ c.selBits == d else true

/-- `wren` of the blocks `d`. -/
def wren (b : Wires) (d : ℕ) : Bool := selected c b.adr d && (b.we && b.stb && b.cyc)

/-- The place of block `d`, `w` in the lists. -/
def listIndex (d w : ℕ) : ℕ := d * c.widthCascading + w

/-- `dat_r[32*w:32*(w+1)]`: the last assignment of a selected block counts. -/
def datR (b : Wires) (s : State) (w : ℕ) : Word :=
  (List.range c.depthCascading).foldl
    (fun r d => if selected c b.adr d then (s.blocks d w).dout else r) 0

/-- `b_douts[p]`. -/
def bDouts (s : State) (p : ℕ) : Word :=
  (s.blocks (p / c.widthCascading) (p % c.widthCascading)).bDout

/-- **One clock edge** of the module. -/
def next (writeOut : Word → Word → Word) (i : In) (s : State) : State where
  blocks d w := (s.blocks d w).clock writeOut (i.aClkens (listIndex c d w)) (selected c i.bus.adr d)
    (wren c i.bus d) (row c i.bus.adr) (i.bus.datW w) (~~~ i.bus.sel w)
    (i.bClkens (listIndex c d w)) (i.bAddrs (listIndex c d w))
  ack := i.bus.stb && i.bus.cyc && !s.ack

end CfuPlayground.Nxlram
