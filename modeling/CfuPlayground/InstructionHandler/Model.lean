import CfuPlayground.Cfu.Port
import CfuPlayground.Lib.Frame

/-!
# The emulated division

With `CONFIG_CPU_DIV_UNIMPLEMENTED` an illegal instruction goes through `trap_entry` of
`crt0-vexriscv.S`, `trap_handler` of `base.c` and `instruction_handler` of
`instruction_handler.cc`. The assembly lays out the saved registers, the C code finds them by
`reg_offset`.

The C functions work on the saved registers and on the CSRs; their own locals are Lean
variables, and the stack frames that a compiler gives them are not modelled. What they leave in
the registers is not fixed: after a `call` only `sp` is known. Unlike a text of `Lib.Assembly`,
`trap_entry` is followed for any `sp`, a multiple of four or not.
-/

namespace CfuPlayground.InstructionHandler

open Lib (ByteMemory loadWord storeWord)
open Lib.Assembly (Reg Machine sp)

/-- `x10`. -/
abbrev a0 : Reg := 10

/-! ## Integer division of libgcc -/

/-- The routines of libgcc. For a divisor that is not 0 they truncate toward zero, unless the
quotient is not representable; for the divisor 0 nothing is known. -/
structure Libgcc where
  divdi3 : BitVec 64 → BitVec 64 → BitVec 64
  udivdi3 : BitVec 64 → BitVec 64 → BitVec 64
  moddi3 : BitVec 64 → BitVec 64 → BitVec 64
  umoddi3 : BitVec 64 → BitVec 64 → BitVec 64
  divdi3_eq : ∀ x y, y ≠ 0 → ¬ (x = BitVec.intMin 64 ∧ y = -1) →
    divdi3 x y = BitVec.ofInt 64 (x.toInt.tdiv y.toInt)
  udivdi3_eq : ∀ x y, y ≠ 0 → udivdi3 x y = BitVec.ofNat 64 (x.toNat / y.toNat)
  moddi3_eq : ∀ x y, y ≠ 0 → ¬ (x = BitVec.intMin 64 ∧ y = -1) →
    moddi3 x y = BitVec.ofInt 64 (x.toInt.tmod y.toInt)
  umoddi3_eq : ∀ x y, y ≠ 0 → umoddi3 x y = BitVec.ofNat 64 (x.toNat % y.toNat)

/-- Routines that return `z` for the divisor 0. -/
def Libgcc.returning (z : BitVec 64) : Libgcc where
  divdi3 x y := if y = 0 then z else BitVec.ofInt 64 (x.toInt.tdiv y.toInt)
  udivdi3 x y := if y = 0 then z else BitVec.ofNat 64 (x.toNat / y.toNat)
  moddi3 x y := if y = 0 then z else BitVec.ofInt 64 (x.toInt.tmod y.toInt)
  umoddi3 x y := if y = 0 then z else BitVec.ofNat 64 (x.toNat % y.toNat)
  divdi3_eq _ _ hy _ := if_neg hy
  udivdi3_eq _ _ hy := if_neg hy
  moddi3_eq _ _ hy _ := if_neg hy
  umoddi3_eq _ _ hy := if_neg hy

variable (lib : Libgcc)

/-! ## `instruction_handler.cc` -/

/-- `reg_offset`. -/
def regOffset (reg : BitVec 8) : BitVec 8 := 31 - reg

/-- The address of `reg_base[i]`. -/
def elementAdr (regBase : Word) (i : BitVec 8) : Word := regBase + 4 * i.signExtend 32

/-- `div_instruction_handler`. -/
def divInstructionHandler (regBase instruction : Word) (m : Machine) : Machine :=
  let funct3 := ((instruction >>> 12) &&& 0x7).setWidth 8
  let rdOffset := regOffset (((instruction >>> 7) &&& 0x1f).setWidth 8)
  let src1 := loadWord m.mem
    (elementAdr regBase (regOffset (((instruction >>> 15) &&& 0x1f).setWidth 8)))
  let src2 := loadWord m.mem
    (elementAdr regBase (regOffset (((instruction >>> 20) &&& 0x1f).setWidth 8)))
  let assign (v : Word) : Machine :=
    m.setMem (storeWord m.mem (elementAdr regBase rdOffset) v)
  if funct3 = 0x4 then  -- div
    assign (if src2 ≠ 0 then (lib.divdi3 (src1.signExtend 64) (src2.signExtend 64)).setWidth 32
      else -1)
  else if funct3 = 0x5 then  -- divu
    assign (if src2 ≠ 0 then (lib.udivdi3 (src1.setWidth 64) (src2.setWidth 64)).setWidth 32
      else -1)
  else if funct3 = 0x6 then  -- rem
    assign ((lib.moddi3 (src1.signExtend 64) (src2.signExtend 64)).setWidth 32)
  else if funct3 = 0x7 then  -- remu
    assign ((lib.umoddi3 (src1.setWidth 64) (src2.setWidth 64)).setWidth 32)
  else m

/-- `instruction_handler`. -/
def instructionHandler (regBase : Word) (m : Machine) : Machine :=
  let instruction := m.mtval
  let pc := m.mepc
  let opcode := (instruction &&& 0x7F).setWidth 8
  if opcode = (0x33 : BitVec 8) then
    (divInstructionHandler lib regBase instruction m).setMepc (pc + 4)
  else m

/-- `CAUSE_ILLEGAL_INSTRUCTION`. -/
def causeIllegalInstruction : Word := 2

/-- `trap_handler`; `isr` is the handler of everything else. -/
def trapHandler (isr : Machine → Machine) (regBase : Word) (m : Machine) : Machine :=
  if m.mcause = causeIllegalInstruction then instructionHandler lib regBase m else isr m

/-! ## `trap_entry` -/

/-- `call` of a C function with the argument `a0`: it keeps `sp`, and leaves `clobber` in the
other registers. -/
def call (f : Word → Machine → Machine) (clobber : Reg → Word) (m : Machine) : Machine :=
  { f (m.reg a0) m with regs := Function.update clobber sp (m.regs sp) }

/-- The registers `trap_entry` saves, in this order: all but `x0` and `x2`. -/
def savedRegs : List Reg :=
  [1, 3, 4, 5, 6, 7, 8, 9, 10, 11, 12, 13, 14, 15, 16, 17, 18, 19, 20, 21, 22, 23, 24, 25, 26,
    27, 28, 29, 30, 31]

/-- `sw xk, -k * 4(sp)` for each of them. -/
def save (m : Machine) : Machine :=
  savedRegs.foldl (fun m k => m.sw k (-(k.setWidth 32) * 4) sp) m

/-- `lw xk, (31 - k) * 4(sp)` for each of them. -/
def restore (m : Machine) : Machine :=
  savedRegs.foldl (fun m k => m.lw k ((31 - k.setWidth 32) * 4) sp) m

/-- `trap_entry` up to `mret`. -/
def trapEntry (isr : Machine → Machine) (clobber : Reg → Word) (m : Machine) : Machine :=
  let m := save m
  let m := m.addi sp sp (-31 * 4)
  let m := m.addi a0 sp 0  -- mv a0, sp
  let m := call (trapHandler lib isr) clobber m
  let m := restore m
  m.addi sp sp (31 * 4)

/-! ## What it is for -/

/-- The fields of an R-type instruction. -/
def rd (w : Word) : Reg := w.extractLsb' 7 5
def rs1 (w : Word) : Reg := w.extractLsb' 15 5
def rs2 (w : Word) : Reg := w.extractLsb' 20 5
def opcode (w : Word) : BitVec 7 := w.extractLsb' 0 7
def funct3 (w : Word) : BitVec 3 := w.extractLsb' 12 3
def funct7 (w : Word) : BitVec 7 := w.extractLsb' 25 7

/-- The word encodes `div`, `divu`, `rem` or `remu`. -/
def IsDivision (w : Word) : Prop := opcode w = 0x33 ∧ funct7 w = 1 ∧ 4 ≤ (funct3 w).toNat

instance (w : Word) : Decidable (IsDivision w) := inferInstanceAs (Decidable (_ ∧ _))

/-- The four instructions of the M extension, by their `funct3`. -/
def divisionResult (funct3 : BitVec 3) (x y : Word) : Word :=
  if funct3 = 4 then
    if y = 0 then BitVec.allOnes 32
    else if x = BitVec.intMin 32 ∧ y = -1 then BitVec.intMin 32
    else BitVec.ofInt 32 (x.toInt.tdiv y.toInt)
  else if funct3 = 5 then
    if y = 0 then BitVec.allOnes 32 else BitVec.ofNat 32 (x.toNat / y.toNat)
  else if funct3 = 6 then
    if y = 0 then x
    else if x = BitVec.intMin 32 ∧ y = -1 then 0
    else BitVec.ofInt 32 (x.toInt.tmod y.toInt)
  else
    if y = 0 then x else BitVec.ofNat 32 (x.toNat % y.toNat)

end CfuPlayground.InstructionHandler
