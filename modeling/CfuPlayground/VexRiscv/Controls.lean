import CfuPlayground.VexRiscv.Decode

/-!
# The control bits of the data path

The bits of the decoded control word of `VexRiscv_SlimCfu.v` that choose operands, operations and
bypasses, under their numbers in it (`controlPatterns`).

* `plain_of_bypassableExecute`: a result that can be bypassed from `execute` is that of the ALU;
* `early_of_bypassableMemory`: one that can be bypassed from `memory` is neither loaded nor a
  product.
-/

namespace CfuPlayground.VexRiscv

open Lib (Pattern)

/-- The masks of bit `k` of the control word. -/
def controlPatterns : ℕ → List (Pattern 32)
  | 30 => [⟨0x00001000, 0x00000000⟩]
  | 28 => [⟨0x02004074, 0x02000030⟩]
  | 22 => [⟨0x00007034, 0x00005010⟩, ⟨0x02007064, 0x00005020⟩]
  | 21 => [⟨0x40003054, 0x40001010⟩, ⟨0x00007034, 0x00001010⟩, ⟨0x02007054, 0x00001010⟩]
  | 20 => [⟨0x00000064, 0x00000024⟩]
  | 19 => [⟨0x00001000, 0x00001000⟩]
  | 18 => [⟨0x00003000, 0x00002000⟩]
  | 17 => [⟨0x00002010, 0x00002000⟩, ⟨0x00005000, 0x00001000⟩]
  | 15 => [⟨0x0000000c, 0x00000008⟩, ⟨0x00000034, 0x00000020⟩, ⟨0x00000064, 0x00000020⟩]
  | 12 => [⟨0x00000008, 0x00000008⟩, ⟨0x00000040, 0x00000040⟩, ⟨0x00000004, 0x00000004⟩,
      ⟨0x00004020, 0x00004020⟩, ⟨0x00000030, 0x00000010⟩, ⟨0x02000020, 0x00000020⟩]
  | 11 => [⟨0x00000004, 0x00000004⟩, ⟨0x00002030, 0x00002010⟩, ⟨0x00001030, 0x00000010⟩,
      ⟨0x02002060, 0x00002020⟩, ⟨0x02003020, 0x00000020⟩]
  | 10 => [⟨0x00000048, 0x00000048⟩, ⟨0x00001010, 0x00001010⟩, ⟨0x00002010, 0x00002010⟩,
      ⟨0x00000050, 0x00000010⟩, ⟨0x0000000c, 0x00000004⟩, ⟨0x00000024, 0x00000000⟩]
  | 9 => [⟨0x00000004, 0x00000004⟩, ⟨0x00000070, 0x00000020⟩]
  | 8 => [⟨0x00000004, 0x00000004⟩, ⟨0x00000020, 0x00000000⟩]
  | 7 => [⟨0x00004014, 0x00004010⟩]
  | 6 => [⟨0x00006014, 0x00002010⟩]
  | 5 => [⟨0x00000044, 0x00000000⟩, ⟨0x00000018, 0x00000000⟩, ⟨0x00006004, 0x00002000⟩,
      ⟨0x00005004, 0x00001000⟩, ⟨0x00004050, 0x00004000⟩]
  | 3 => [⟨0x00000044, 0x00000040⟩, ⟨0x00002014, 0x00002010⟩, ⟨0x40000034, 0x40000030⟩]
  | 2 => [⟨0x00000014, 0x00000004⟩, ⟨0x00004050, 0x00004050⟩]
  | 1 => [⟨0x00000044, 0x00000004⟩, ⟨0x00004050, 0x00004050⟩]
  | _ => []

def controlBit (k : ℕ) (i : Word) : Bool := Pattern.any (controlPatterns k) i

/-- `IS_RS1_SIGNED` and `IS_RS2_SIGNED`; bit 31 is the same as bit 30. -/
def isSigned (i : Word) : Bool := controlBit 30 i

/-- `IS_MUL`. -/
def isMul (i : Word) : Bool := controlBit 28 i

/-- `ShiftCtrlEnum`. -/
inductive ShiftCtrl
  | disable
  | sll
  | srl
  | sra
deriving DecidableEq

def shiftCtrl (i : Word) : ShiftCtrl :=
  match controlBit 22 i, controlBit 21 i with
  | false, false => .disable
  | false, true => .sll
  | true, false => .srl
  | true, true => .sra

/-- `SRC_ADD_ZERO`. -/
def srcAddZero (i : Word) : Bool := controlBit 20 i

/-- `AluBitwiseCtrlEnum`. -/
inductive AluBitwiseCtrl
  | xor
  | or
  | and
deriving DecidableEq

def aluBitwiseCtrl (i : Word) : AluBitwiseCtrl :=
  match controlBit 19 i, controlBit 18 i with
  | true, false => .and
  | false, true => .or
  | _, _ => .xor

/-- `SRC_LESS_UNSIGNED`. -/
def srcLessUnsigned (i : Word) : Bool := controlBit 17 i

/-- `RS2_USE`. -/
def rs2Use (i : Word) : Bool := controlBit 15 i

/-- `BYPASSABLE_MEMORY_STAGE`. -/
def bypassableMemory (i : Word) : Bool := controlBit 12 i

/-- `BYPASSABLE_EXECUTE_STAGE`. -/
def bypassableExecute (i : Word) : Bool := controlBit 11 i

/-- The fields for registers. -/
def rdField (i : Word) : BitVec 5 := i.extractLsb' 7 5

def rs1Field (i : Word) : BitVec 5 := i.extractLsb' 15 5

def rs2Field (i : Word) : BitVec 5 := i.extractLsb' 20 5

/-- `REGFILE_WRITE_VALID`, with `when_RegFilePlugin_l63`. -/
def regfileWriteValid (i : Word) : Bool := controlBit 10 i && rdField i ≠ 0

/-- `Src2CtrlEnum`. -/
inductive Src2Ctrl
  | rs
  | imi
  | ims
  | pc
deriving DecidableEq

def src2Ctrl (i : Word) : Src2Ctrl :=
  match controlBit 9 i, controlBit 8 i with
  | false, false => .rs
  | false, true => .imi
  | true, false => .ims
  | true, true => .pc

/-- `AluCtrlEnum`. -/
inductive AluCtrl
  | addSub
  | sltSltu
  | bitwise
deriving DecidableEq

def aluCtrl (i : Word) : AluCtrl :=
  match controlBit 7 i, controlBit 6 i with
  | true, false => .bitwise
  | false, true => .sltSltu
  | _, _ => .addSub

/-- `RS1_USE`. -/
def rs1Use (i : Word) : Bool := controlBit 5 i

/-- `SRC_USE_SUB_LESS`. -/
def srcUseSubLess (i : Word) : Bool := controlBit 3 i

/-- `Src1CtrlEnum`. -/
inductive Src1Ctrl
  | rs
  | imu
  | pcIncrement
  | urs1
deriving DecidableEq

def src1Ctrl (i : Word) : Src1Ctrl :=
  match controlBit 2 i, controlBit 1 i with
  | false, false => .rs
  | false, true => .imu
  | true, false => .pcIncrement
  | true, true => .urs1

/-! ## Bypasses -/

variable {i : Word}

/-- The result is that of the ALU. -/
structure Plain (i : Word) : Prop where
  memoryEnable : memoryEnable i = false
  isMul : isMul i = false
  isDiv : isDiv i = false
  cfuEnable : cfuEnable i = false
  shiftCtrl : shiftCtrl i = .disable

theorem plain_of_bypassableExecute (hl : legalInstruction i = true)
    (hw : regfileWriteValid i = true) (hb : bypassableExecute i = true) : Plain i := by
  have hbits := Pattern.any_both (Pattern.any_both hl (Bool.and_eq_true_iff.mp hw).1) hb
  have h22 : controlBit 22 i = false := Pattern.not_any_of_any hbits (by decide +kernel)
  have h21 : controlBit 21 i = false := Pattern.not_any_of_any hbits (by decide +kernel)
  exact
    { memoryEnable := Pattern.not_any_of_any hbits (by decide +kernel)
      isMul := Pattern.not_any_of_any hbits (by decide +kernel)
      isDiv := Pattern.not_any_of_any hbits (by decide +kernel)
      cfuEnable := Pattern.not_any_of_any hbits (by decide +kernel)
      shiftCtrl := by rw [shiftCtrl, h22, h21] }

/-- The result is there in `memory`. -/
structure Early (i : Word) : Prop where
  memoryEnable : memoryEnable i = false
  isMul : isMul i = false

theorem early_of_bypassableMemory (hl : legalInstruction i = true)
    (hw : regfileWriteValid i = true) (hb : bypassableMemory i = true) : Early i := by
  have hbits := Pattern.any_both (Pattern.any_both hl (Bool.and_eq_true_iff.mp hw).1) hb
  exact
    { memoryEnable := Pattern.not_any_of_any hbits (by decide +kernel)
      isMul := Pattern.not_any_of_any hbits (by decide +kernel) }

theorem Plain.early (h : Plain i) : Early i := ⟨h.memoryEnable, h.isMul⟩

end CfuPlayground.VexRiscv
