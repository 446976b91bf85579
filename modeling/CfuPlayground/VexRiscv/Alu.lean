import CfuPlayground.Lib.Signed
import CfuPlayground.VexRiscv.Controls

/-!
# The ALU and the shifter of `VexRiscv_SlimCfu.v`

`SrcPlugin`, `IntAluPlugin` and `FullBarrelShifterPlugin`: the operands and the result of
`execute`, and the second half of the shifter in `memory`.

* `IntegerOp`: the integer operations of RV32I; `encodings` lists their instructions;
* `Performs.result`: control bits that choose an operation compute it;
* **`integer_result`**: each instruction of the list computes its operation, for all operands.
-/

namespace CfuPlayground.VexRiscv

open Lib

/-! ## `execute` -/

/-- `execute_SRC1`. -/
def Src1Ctrl.value (c : Src1Ctrl) (i rs1 : Word) : Word :=
  match c with
  | .rs => rs1
  | .pcIncrement => 4
  | .imu => i.extractLsb' 12 20 ++ (0 : BitVec 12)
  | .urs1 => (rs1Field i).setWidth 32

/-- `execute_SRC2`. -/
def Src2Ctrl.value (c : Src2Ctrl) (i rs2 pc : Word) : Word :=
  match c with
  | .rs => rs2
  | .imi => (i.extractLsb' 20 12).signExtend 32
  | .ims => (i.extractLsb' 25 7 ++ i.extractLsb' 7 5).signExtend 32
  | .pc => pc

/-- `SRC2_FORCE_ZERO`. -/
def src2ForceZero (i : Word) : Bool := srcAddZero i && !srcUseSubLess i

/-- `execute_SrcPlugin_addSub`. -/
def addSub (i a b : Word) : Word :=
  if src2ForceZero i then a
  else a + (if srcUseSubLess i then ~~~b else b) + (if srcUseSubLess i then 1 else 0)

/-- `execute_SrcPlugin_less`. -/
def less (i a b : Word) : Bool :=
  if a.msb = b.msb then (addSub i a b).msb else if srcLessUnsigned i then b.msb else a.msb

/-- `execute_IntAluPlugin_bitwise`. -/
def bitwise (i a b : Word) : Word :=
  match aluBitwiseCtrl i with
  | .and => a &&& b
  | .or => a ||| b
  | .xor => a ^^^ b

/-- `execute_REGFILE_WRITE_DATA`. -/
def aluData (i a b : Word) : Word :=
  match aluCtrl i with
  | .bitwise => bitwise i a b
  | .sltSltu => (BitVec.ofBool (less i a b)).setWidth 32
  | .addSub => addSub i a b

/-- `execute_FullBarrelShifterPlugin_reversed`. -/
def reversed (i a : Word) : Word := if shiftCtrl i = .sll then a.reverse else a

/-- `execute_SHIFT_RIGHT`. -/
def shiftRight (i a b : Word) : Word :=
  ((BitVec.ofBool (shiftCtrl i = .sra && (reversed i a).msb) ++ reversed i a).sshiftRight
    (b.extractLsb' 0 5).toNat).extractLsb' 0 32

/-- What `memory` makes of the results of `execute`. -/
def shiftData (i data right : Word) : Word :=
  match shiftCtrl i with
  | .sll => right.reverse
  | .srl => right
  | .sra => right
  | .disable => data

/-- The result of the ALU and the shifter. -/
def integerData (i rs1 rs2 pc : Word) : Word :=
  let a := (src1Ctrl i).value i rs1
  let b := (src2Ctrl i).value i rs2 pc
  shiftData i (aluData i a b) (shiftRight i a b)

/-! ## RV32I -/

inductive IntegerOp
  | add
  | sub
  | sll
  | slt
  | sltu
  | xor
  | srl
  | sra
  | or
  | and
  | lui
deriving DecidableEq

def IntegerOp.result (op : IntegerOp) (a b : Word) : Word :=
  match op with
  | .add => a + b
  | .sub => a - b
  | .sll => a <<< (b.toNat % 32)
  | .slt => if a.toInt < b.toInt then 1 else 0
  | .sltu => if a.toNat < b.toNat then 1 else 0
  | .xor => a ^^^ b
  | .srl => a >>> (b.toNat % 32)
  | .sra => a.sshiftRight (b.toNat % 32)
  | .or => a ||| b
  | .and => a &&& b
  | .lui => a

/-- An instruction with its operands. -/
structure Encoding where
  pattern : Pattern 32
  op : IntegerOp
  src1 : Src1Ctrl
  src2 : Src2Ctrl

/-- The instructions that write an integer result. -/
def encodings : List Encoding := [
  -- `lui`, `auipc`, and the links of `jal` and `jalr`
  ⟨⟨0x0000007f, 0x00000037⟩, .lui, .imu, .pc⟩,
  ⟨⟨0x0000007f, 0x00000017⟩, .add, .imu, .pc⟩,
  ⟨⟨0x0000007f, 0x0000006f⟩, .add, .pcIncrement, .pc⟩,
  ⟨⟨0x0000707f, 0x00000067⟩, .add, .pcIncrement, .pc⟩,
  -- `addi`, `slti`, `sltiu`, `xori`, `ori`, `andi`, `slli`, `srli`, `srai`
  ⟨⟨0x0000707f, 0x00000013⟩, .add, .rs, .imi⟩,
  ⟨⟨0x0000707f, 0x00002013⟩, .slt, .rs, .imi⟩,
  ⟨⟨0x0000707f, 0x00003013⟩, .sltu, .rs, .imi⟩,
  ⟨⟨0x0000707f, 0x00004013⟩, .xor, .rs, .imi⟩,
  ⟨⟨0x0000707f, 0x00006013⟩, .or, .rs, .imi⟩,
  ⟨⟨0x0000707f, 0x00007013⟩, .and, .rs, .imi⟩,
  ⟨⟨0xfe00707f, 0x00001013⟩, .sll, .rs, .imi⟩,
  ⟨⟨0xfe00707f, 0x00005013⟩, .srl, .rs, .imi⟩,
  ⟨⟨0xfe00707f, 0x40005013⟩, .sra, .rs, .imi⟩,
  -- the same with two registers, and `sub`
  ⟨⟨0xfe00707f, 0x00000033⟩, .add, .rs, .rs⟩,
  ⟨⟨0xfe00707f, 0x40000033⟩, .sub, .rs, .rs⟩,
  ⟨⟨0xfe00707f, 0x00001033⟩, .sll, .rs, .rs⟩,
  ⟨⟨0xfe00707f, 0x00002033⟩, .slt, .rs, .rs⟩,
  ⟨⟨0xfe00707f, 0x00003033⟩, .sltu, .rs, .rs⟩,
  ⟨⟨0xfe00707f, 0x00004033⟩, .xor, .rs, .rs⟩,
  ⟨⟨0xfe00707f, 0x00005033⟩, .srl, .rs, .rs⟩,
  ⟨⟨0xfe00707f, 0x40005033⟩, .sra, .rs, .rs⟩,
  ⟨⟨0xfe00707f, 0x00006033⟩, .or, .rs, .rs⟩,
  ⟨⟨0xfe00707f, 0x00007033⟩, .and, .rs, .rs⟩]

/-! ## From the control bits to the operations -/

/-- The control bits of `i` choose the operation. -/
def Performs (i : Word) : IntegerOp → Prop
  | .add => shiftCtrl i = .disable ∧ aluCtrl i = .addSub ∧ src2ForceZero i = false ∧
      srcUseSubLess i = false
  | .sub => shiftCtrl i = .disable ∧ aluCtrl i = .addSub ∧ srcUseSubLess i = true
  | .lui => shiftCtrl i = .disable ∧ aluCtrl i = .addSub ∧ src2ForceZero i = true
  | .slt => shiftCtrl i = .disable ∧ aluCtrl i = .sltSltu ∧ srcUseSubLess i = true ∧
      srcLessUnsigned i = false
  | .sltu => shiftCtrl i = .disable ∧ aluCtrl i = .sltSltu ∧ srcUseSubLess i = true ∧
      srcLessUnsigned i = true
  | .xor => shiftCtrl i = .disable ∧ aluCtrl i = .bitwise ∧ aluBitwiseCtrl i = .xor
  | .or => shiftCtrl i = .disable ∧ aluCtrl i = .bitwise ∧ aluBitwiseCtrl i = .or
  | .and => shiftCtrl i = .disable ∧ aluCtrl i = .bitwise ∧ aluBitwiseCtrl i = .and
  | .sll => shiftCtrl i = .sll
  | .srl => shiftCtrl i = .srl
  | .sra => shiftCtrl i = .sra

instance (i : Word) : (op : IntegerOp) → Decidable (Performs i op)
  | .add => inferInstanceAs (Decidable (_ ∧ _ ∧ _ ∧ _))
  | .sub => inferInstanceAs (Decidable (_ ∧ _ ∧ _))
  | .lui => inferInstanceAs (Decidable (_ ∧ _ ∧ _))
  | .slt => inferInstanceAs (Decidable (_ ∧ _ ∧ _ ∧ _))
  | .sltu => inferInstanceAs (Decidable (_ ∧ _ ∧ _ ∧ _))
  | .xor => inferInstanceAs (Decidable (_ ∧ _ ∧ _))
  | .or => inferInstanceAs (Decidable (_ ∧ _ ∧ _))
  | .and => inferInstanceAs (Decidable (_ ∧ _ ∧ _))
  | .sll => inferInstanceAs (Decidable (_ = _))
  | .srl => inferInstanceAs (Decidable (_ = _))
  | .sra => inferInstanceAs (Decidable (_ = _))

variable {i a b : Word}

theorem addSub_of_sub (h : srcUseSubLess i = true) : addSub i a b = a - b := by
  have hz : src2ForceZero i = false := by simp [src2ForceZero, h]
  have hneg : ~~~b + 1 = -b := (BitVec.neg_eq_not_add b).symm
  rw [addSub, hz, h, if_neg (by decide), if_pos rfl, if_pos rfl, BitVec.add_assoc, hneg,
    BitVec.sub_eq_add_neg]

theorem msb_sub (h : a.msb = b.msb) : (a - b).msb = decide (a.toNat < b.toNat) := by
  have ha := a.isLt
  have hb := b.isLt
  rw [BitVec.msb_eq_decide, BitVec.msb_eq_decide, decide_eq_decide] at h
  rw [BitVec.msb_eq_decide, decide_eq_decide, BitVec.toNat_sub]
  omega

theorem less_of_unsigned (hsub : srcUseSubLess i = true) (hu : srcLessUnsigned i = true) :
    less i a b = decide (a.toNat < b.toNat) := by
  rw [less, addSub_of_sub hsub, hu, if_pos rfl]
  split_ifs with h
  · exact msb_sub h
  · have ha := a.isLt
    have hb := b.isLt
    rw [BitVec.msb_eq_decide, BitVec.msb_eq_decide, decide_eq_decide] at h
    rw [BitVec.msb_eq_decide, decide_eq_decide]
    omega

theorem less_of_signed (hsub : srcUseSubLess i = true) (hu : srcLessUnsigned i = false) :
    less i a b = decide (a.toInt < b.toInt) := by
  rw [less, addSub_of_sub hsub, hu, if_neg Bool.false_ne_true]
  split_ifs with h
  · rw [msb_sub h]
    exact (BitVec.slt_eq_ult_of_msb_eq h).symm
  · rw [BitVec.msb_eq_toInt, BitVec.msb_eq_toInt, decide_eq_decide] at h
    rw [BitVec.msb_eq_toInt, decide_eq_decide]
    omega

theorem shiftRight_eq : shiftRight i a b = BitVec.ofInt 32
    (reading (shiftCtrl i = .sra) (reversed i a) / 2 ^ (b.toNat % 32)) := by
  have hamplitude : (b.extractLsb' 0 5).toNat = b.toNat % 32 := by
    rw [BitVec.extractLsb'_toNat, Nat.shiftRight_zero]
  rw [shiftRight, hamplitude, BitVec.sshiftRight_eq, toInt_guard, extractLsb'_ofInt _ (by decide),
    pow_zero, Int.ediv_one, Int.shiftRight_eq_div_pow]
  push_cast
  rfl

theorem reverse_shiftRight_reverse (n : ℕ) : (a.reverse >>> n).reverse = a <<< n := by
  apply BitVec.eq_of_getLsbD_eq
  intro k hk
  rw [BitVec.getLsbD_reverse, BitVec.getMsbD_eq_getLsbD, BitVec.getLsbD_ushiftRight,
    BitVec.getLsbD_reverse, BitVec.getMsbD_eq_getLsbD, BitVec.getLsbD_shiftLeft]
  by_cases hn : k < n
  · simp [hn]
    omega
  · simp only [hk, hn, decide_true, decide_false, Bool.true_and, Bool.not_false]
    have hlt : n + (32 - 1 - k) < 32 := by omega
    simp only [hlt, decide_true, Bool.true_and]
    congr 1
    omega

theorem shiftRight_of_ne_sra (h : shiftCtrl i ≠ .sra) :
    shiftRight i a b = reversed i a >>> (b.toNat % 32) := by
  rw [shiftRight_eq, decide_eq_false h, reading, if_neg Bool.false_ne_true]
  apply BitVec.eq_of_toNat_eq
  have hcast : ((reversed i a).toNat : ℤ) / 2 ^ (b.toNat % 32) =
      ((reversed i a).toNat / 2 ^ (b.toNat % 32) : ℕ) := by
    push_cast
    rfl
  rw [hcast, BitVec.ofInt_natCast, BitVec.toNat_ofNat, BitVec.toNat_ushiftRight,
    Nat.shiftRight_eq_div_pow,
    Nat.mod_eq_of_lt ((Nat.div_le_self _ _).trans_lt (reversed i a).isLt)]

theorem shiftRight_of_sra (h : shiftCtrl i = .sra) :
    shiftRight i a b = a.sshiftRight (b.toNat % 32) := by
  rw [shiftRight_eq, decide_eq_true h, reading, if_pos rfl, reversed, if_neg (by simp [h]),
    BitVec.sshiftRight_eq, Int.shiftRight_eq_div_pow]
  push_cast
  rfl

/-- **Control bits that choose an operation compute it.** -/
theorem Performs.result {op : IntegerOp} (h : Performs i op) :
    shiftData i (aluData i a b) (shiftRight i a b) = op.result a b := by
  cases op with
  | add =>
    obtain ⟨hshift, halu, hzero, hsub⟩ := h
    simp [shiftData, hshift, aluData, halu, addSub, hzero, hsub, IntegerOp.result]
  | sub =>
    obtain ⟨hshift, halu, hsub⟩ := h
    simp [shiftData, hshift, aluData, halu, addSub_of_sub hsub, IntegerOp.result]
  | lui =>
    obtain ⟨hshift, halu, hzero⟩ := h
    simp [shiftData, hshift, aluData, halu, addSub, hzero, IntegerOp.result]
  | slt =>
    obtain ⟨hshift, halu, hsub, hu⟩ := h
    by_cases hlt : a.toInt < b.toInt <;>
      simp [shiftData, hshift, aluData, halu, less_of_signed hsub hu, IntegerOp.result, hlt]
  | sltu =>
    obtain ⟨hshift, halu, hsub, hu⟩ := h
    by_cases hlt : a.toNat < b.toNat <;>
      simp [shiftData, hshift, aluData, halu, less_of_unsigned hsub hu, IntegerOp.result, hlt]
  | xor =>
    obtain ⟨hshift, halu, hbits⟩ := h
    simp [shiftData, hshift, aluData, halu, bitwise, hbits, IntegerOp.result]
  | or =>
    obtain ⟨hshift, halu, hbits⟩ := h
    simp [shiftData, hshift, aluData, halu, bitwise, hbits, IntegerOp.result]
  | and =>
    obtain ⟨hshift, halu, hbits⟩ := h
    simp [shiftData, hshift, aluData, halu, bitwise, hbits, IntegerOp.result]
  | sll =>
    have hne : shiftCtrl i ≠ .sra := by simp [show shiftCtrl i = .sll from h]
    have hrev : reversed i a = a.reverse := if_pos h
    rw [shiftData, show shiftCtrl i = .sll from h, shiftRight_of_ne_sra hne, hrev]
    exact reverse_shiftRight_reverse _
  | srl =>
    have hne : shiftCtrl i ≠ .sra := by simp [show shiftCtrl i = .srl from h]
    rw [shiftData, show shiftCtrl i = .srl from h, shiftRight_of_ne_sra hne, reversed,
      if_neg (by simp [show shiftCtrl i = .srl from h])]
    rfl
  | sra =>
    rw [shiftData, show shiftCtrl i = .sra from h, shiftRight_of_sra h]
    rfl

/-! ## The instructions -/

/-- The control bits that an operation and its operands depend on. -/
def IntegerOp.bits : IntegerOp → List ℕ
  | .add | .sub | .lui => [22, 21, 20, 7, 6, 3]
  | .slt | .sltu => [22, 21, 17, 7, 6, 3]
  | .xor | .or | .and => [22, 21, 19, 18, 7, 6]
  | .sll | .srl | .sra => [22, 21]

def operandBits : List ℕ := [9, 8, 2, 1]

/-- What the control bits of an encoding say: they are the same for all its words, and choose its
operation and its operands. -/
structure Encoding.Sound (e : Encoding) : Prop where
  fixed : ∀ k ∈ operandBits ++ e.op.bits, e.pattern.Decides (controlPatterns k)
  performs : Performs e.pattern.value e.op
  src1 : src1Ctrl e.pattern.value = e.src1
  src2 : src2Ctrl e.pattern.value = e.src2

instance (e : Encoding) : Decidable e.Sound :=
  decidable_of_iff ((∀ k ∈ operandBits ++ e.op.bits, e.pattern.Decides (controlPatterns k)) ∧
      Performs e.pattern.value e.op ∧ src1Ctrl e.pattern.value = e.src1 ∧
      src2Ctrl e.pattern.value = e.src2)
    ⟨fun ⟨hf, hp, h1, h2⟩ => ⟨hf, hp, h1, h2⟩, fun h => ⟨h.fixed, h.performs, h.src1, h.src2⟩⟩

theorem encodings_sound : ∀ e ∈ encodings, e.Sound := by decide +kernel

theorem Encoding.Sound.operands {e : Encoding} (he : e.Sound) (h : e.pattern.Matches i) :
    src1Ctrl i = e.src1 ∧ src2Ctrl i = e.src2 := by
  have hbit : ∀ k ∈ operandBits, controlBit k i = controlBit k e.pattern.value := fun k hk =>
    h.any_eq (he.fixed k (List.mem_append_left _ hk))
  rw [← he.src1, ← he.src2, src1Ctrl, src1Ctrl, src2Ctrl, src2Ctrl, hbit 2 (by decide),
    hbit 1 (by decide), hbit 9 (by decide), hbit 8 (by decide)]
  exact ⟨rfl, rfl⟩

theorem Encoding.Sound.performs_of_matches {e : Encoding} (he : e.Sound)
    (h : e.pattern.Matches i) : Performs i e.op := by
  have hbit : ∀ k ∈ e.op.bits, controlBit k i = controlBit k e.pattern.value := fun k hk =>
    h.any_eq (he.fixed k (List.mem_append_right _ hk))
  have hp := he.performs
  generalize e.op = op at hbit hp
  cases op <;>
    simpa (disch := decide) only [Performs, shiftCtrl, aluCtrl, aluBitwiseCtrl, src2ForceZero,
      srcAddZero, srcUseSubLess, srcLessUnsigned, hbit] using hp

theorem Encoding.Sound.integerData {rs1 rs2 pc : Word} {e : Encoding} (he : e.Sound)
    (h : e.pattern.Matches i) : integerData i rs1 rs2 pc =
      e.op.result (e.src1.value i rs1) (e.src2.value i rs2 pc) := by
  obtain ⟨h1, h2⟩ := he.operands h
  rw [VexRiscv.integerData, h1, h2]
  exact (he.performs_of_matches h).result

/-- **The integer instructions.** Each computes its operation on its operands. -/
theorem integer_result {rs1 rs2 pc : Word} {e : Encoding} (he : e ∈ encodings)
    (h : e.pattern.Matches i) : integerData i rs1 rs2 pc =
      e.op.result (e.src1.value i rs1) (e.src2.value i rs2 pc) :=
  (encodings_sound e he).integerData h

/-- `sra x1, x2, x3` of -8 and 33. -/
theorem integer_result_sra : integerData 0x403150b3 (-8) 33 0 = -4 :=
  integer_result (e := ⟨⟨0xfe00707f, 0x40005033⟩, .sra, .rs, .rs⟩) (by simp [encodings])
    (by decide)

end CfuPlayground.VexRiscv
