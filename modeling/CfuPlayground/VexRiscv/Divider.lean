import Mathlib.Data.BitVec
import CfuPlayground.InstructionHandler.Division
import CfuPlayground.Lib.LongDivision
import CfuPlayground.Lib.Signed
import CfuPlayground.VexRiscv.Controls
import CfuPlayground.VexRiscv.Model

/-!
# The divider of `VexRiscv_SlimCfu.v`

`DivPlugin`: a restoring divider of the absolute values, one bit in a cycle, with a sign that is
put on the result at the end.

* `Working` is the state after some cycles, `Working.run` its step lemma;
* `signed_eq`: the signs are those of the truncated division;
* **`divider_divides`**: 33 cycles after the operands have come, the result is that of the
  M extension, for all operands. This is the division that `instruction_handler` emulates.
-/

namespace CfuPlayground.VexRiscv

open Lib
open InstructionHandler (divisionResult funct3)

/-- `memory_DivPlugin_*`. The bits of `rs1` and `accumulator` above these are never read. -/
structure Divider where
  rs1 : Word
  rs2 : Word
  accumulator : Word
  needRevert : Bool
  counter : BitVec 6
  done : Bool
  result : Word

def Divider.zero : Divider := ⟨0, 0, 0, false, 0, false, 0⟩

/-- The negation in front of and behind the divider. -/
def negateIf (negate : Bool) (x : Word) : Word :=
  (if negate then ~~~x else x) + (if negate then 1 else 0)

namespace Divider

section Stage

variable (d : Divider)

/-- `div_stage_0_remainderShifted`. -/
def remainderShifted : BitVec 33 := d.accumulator ++ d.rs1.extractLsb' 31 1

/-- `div_stage_0_remainderMinusDenominator`. -/
def remainderMinusDenominator : BitVec 33 := d.remainderShifted - d.rs2.setWidth 33

/-- `div_stage_0_outRemainder`. -/
def outRemainder : Word :=
  if !d.remainderMinusDenominator.msb then d.remainderMinusDenominator.extractLsb' 0 32
  else d.remainderShifted.extractLsb' 0 32

/-- `div_stage_0_outNumerator`. -/
def outNumerator : Word :=
  (d.rs1 ++ BitVec.ofBool (!d.remainderMinusDenominator.msb)).extractLsb' 0 32

end Stage

/-- The operands come from `execute`, with the instruction. -/
def load (instruction rs1 rs2 : Word) (d : Divider) : Divider where
  rs1 := negateIf (isDiv instruction && rs1.msb && isSigned instruction) rs1
  rs2 := negateIf (rs2.msb && isSigned instruction) rs2
  accumulator := 0
  needRevert :=
    ((isDiv instruction && rs1.msb && isSigned instruction) ^^
        (rs2.msb && isSigned instruction && !instruction.getLsbD 13)) &&
      !(rs2 = 0 && isSigned instruction && !instruction.getLsbD 13)
  counter := 0
  done := false
  result := d.result

/-- A cycle with a division in `memory`. -/
def work (instruction : Word) (d : Divider) : Divider :=
  if d.done then d
  else
    { d with
      rs1 := d.outNumerator
      accumulator := d.outRemainder
      counter := if d.counter = 0x21 then 0 else d.counter + 1
      done := d.counter = 0x20
      result :=
        if d.counter = 0x20 then
          negateIf d.needRevert (if instruction.getLsbD 13 then d.accumulator else d.rs1)
        else d.result }

/-- **One cycle.** -/
def step (i : Inputs) (s : Cpu) (d : Divider) : Divider :=
  if !s.memoryIsStuck i then d.load s.executeInstruction s.executeRs1 s.executeRs2
  else if s.memoryIsValid && isDiv s.memoryInstruction then d.work s.memoryInstruction
  else { d with done := d.counter = 0x20 || d.done }

/-! ## One bit -/

section Bits

variable {d : Divider}

theorem toNat_remainderShifted : d.remainderShifted.toNat =
    2 * d.accumulator.toNat + d.rs1.toNat / 2 ^ 31 := by
  have hlt := d.rs1.isLt
  rw [remainderShifted, toNat_append_eq, BitVec.extractLsb'_toNat, Nat.shiftRight_eq_div_pow]
  omega

theorem msb_remainderMinusDenominator
    (h : 2 * d.accumulator.toNat + d.rs1.toNat / 2 ^ 31 < d.rs2.toNat + 2 ^ 32) :
    d.remainderMinusDenominator.msb = true ↔
      2 * d.accumulator.toNat + d.rs1.toNat / 2 ^ 31 < d.rs2.toNat := by
  have hrs2 := d.rs2.isLt
  have hacc := d.accumulator.isLt
  have hrs1 := d.rs1.isLt
  rw [BitVec.msb_eq_decide, decide_eq_true_eq, remainderMinusDenominator, BitVec.toNat_sub,
    toNat_remainderShifted, BitVec.toNat_setWidth]
  omega

theorem toNat_outRemainder
    (h : 2 * d.accumulator.toNat + d.rs1.toNat / 2 ^ 31 < d.rs2.toNat + 2 ^ 32) :
    d.outRemainder.toNat =
      divideRemainder d.rs2.toNat d.accumulator.toNat (d.rs1.toNat / 2 ^ 31) := by
  have hrs2 := d.rs2.isLt
  have hacc := d.accumulator.isLt
  have hrs1 := d.rs1.isLt
  have hfits := msb_remainderMinusDenominator h
  rw [outRemainder, divideRemainder]
  cases hmsb : d.remainderMinusDenominator.msb with
  | true =>
    have hlt := hfits.mp hmsb
    rw [Bool.not_true, if_neg (by decide), if_neg (by omega), BitVec.extractLsb'_toNat,
      Nat.shiftRight_zero, toNat_remainderShifted]
    omega
  | false =>
    have hle : ¬ 2 * d.accumulator.toNat + d.rs1.toNat / 2 ^ 31 < d.rs2.toNat := by
      rw [← hfits, hmsb]
      decide
    rw [Bool.not_false, if_pos rfl, if_pos (by omega), BitVec.extractLsb'_toNat,
      Nat.shiftRight_zero, remainderMinusDenominator, BitVec.toNat_sub, toNat_remainderShifted,
      BitVec.toNat_setWidth]
    omega

theorem toNat_outNumerator
    (h : 2 * d.accumulator.toNat + d.rs1.toNat / 2 ^ 31 < d.rs2.toNat + 2 ^ 32) :
    d.outNumerator.toNat = 2 * d.rs1.toNat % 2 ^ 32 +
      divideBit d.rs2.toNat d.accumulator.toNat (d.rs1.toNat / 2 ^ 31) := by
  have hfits := msb_remainderMinusDenominator h
  have hbit : (BitVec.ofBool (!d.remainderMinusDenominator.msb)).toNat =
      divideBit d.rs2.toNat d.accumulator.toNat (d.rs1.toNat / 2 ^ 31) := by
    rw [divideBit, BitVec.toNat_ofBool]
    cases hmsb : d.remainderMinusDenominator.msb with
    | true =>
      rw [if_neg (by have := hfits.mp hmsb; omega)]
      rfl
    | false =>
      rw [if_pos (by rw [← not_lt, ← hfits, hmsb]; decide)]
      rfl
  have hle : divideBit d.rs2.toNat d.accumulator.toNat (d.rs1.toNat / 2 ^ 31) < 2 := by
    unfold divideBit
    split_ifs <;> decide
  rw [outNumerator, BitVec.extractLsb'_toNat, Nat.shiftRight_zero, toNat_append_eq, hbit]
  omega

end Bits

/-! ## All bits -/

/-- What the divider divides. -/
def magnitude (instruction x : Word) : ℕ := (reading (isSigned instruction) x).natAbs

/-- The divider after `k` cycles of work for the operands `a` and `b`. -/
structure Working (instruction a b : Word) (k : ℕ) (d : Divider) : Prop where
  dividing : Dividing 32 (magnitude instruction a) (magnitude instruction b) k
    d.accumulator.toNat d.rs1.toNat
  rs2 : d.rs2.toNat = magnitude instruction b
  needRevert : d.needRevert = (load instruction a b d).needRevert
  counter : d.counter = BitVec.ofNat 6 k
  done : d.done = false

variable {instruction a b : Word} {d : Divider} {k : ℕ}

theorem negateIf_eq (negate : Bool) (x : Word) : negateIf negate x = if negate then -x else x := by
  cases negate <;> simp [negateIf, BitVec.neg_eq_not_add]

theorem magnitude_lt (instruction x : Word) : magnitude instruction x < 2 ^ 32 := by
  rw [magnitude, natAbs_reading]
  exact BitVec.isLt _

theorem working_load (hdiv : isDiv instruction = true) :
    Working instruction a b 0 (d.load instruction a b) where
  dividing := by
    have hrs1 : (d.load instruction a b).rs1.toNat = magnitude instruction a := by
      rw [magnitude, natAbs_reading, load, negateIf_eq, hdiv, Bool.true_and, Bool.and_comm]
    rw [hrs1]
    exact dividing_start (magnitude_lt instruction a)
  rs2 := by
    have hrs2 : (d.load instruction a b).rs2 = negateIf (b.msb && isSigned instruction) b := rfl
    rw [hrs2, magnitude, natAbs_reading, negateIf_eq, Bool.and_comm]
  needRevert := rfl
  counter := rfl
  done := rfl

/-- **Step lemma.** -/
theorem Working.work (h : Working instruction a b k d) (hk : k < 32) :
    Working instruction a b (k + 1) (d.work instruction) := by
  have hn := magnitude_lt instruction a
  have hb : d.rs1.toNat / 2 ^ 31 < 2 := by
    have hlt := d.rs1.isLt
    omega
  have hbound := h.dividing.shifted_lt hn hk hb
  rw [← h.rs2] at hbound
  have hstep := h.dividing.step hn hk
  rw [← h.rs2] at hstep
  have hcount : d.counter ≠ 0x20 ∧ d.counter ≠ 0x21 := by
    rw [h.counter]
    interval_cases k <;> decide
  have hwork : d.work instruction =
      { d with
        rs1 := d.outNumerator
        accumulator := d.outRemainder
        counter := d.counter + 1 } := by
    rw [Divider.work, if_neg (by simp [h.done]), if_neg hcount.1, if_neg hcount.2,
      decide_eq_false hcount.1, ← h.done]
  rw [hwork]
  constructor
  · rw [toNat_outRemainder hbound, toNat_outNumerator hbound, ← h.rs2]
    exact hstep
  · exact h.rs2
  · exact h.needRevert
  · rw [h.counter, BitVec.ofNat_add]
    rfl
  · exact h.done

/-! ## The sign -/

theorem isSigned_eq (i : Word) : isSigned i = !i.getLsbD 12 := by
  have htwo : (0x00001000 : Word) = BitVec.twoPow 32 12 := by decide
  have h : isSigned i = true ↔ i &&& 0x00001000 = 0 := by
    rw [isSigned, controlBit, Pattern.any_iff]
    simp [controlPatterns, Pattern.Matches]
  rw [htwo, BitVec.and_twoPow] at h
  cases hbit : i.getLsbD 12
  · exact h.mpr (by rw [hbit]; rfl)
  · have hne : ¬ isSigned i = true := by
      rw [h, hbit]
      decide
    simpa using hne

theorem getLsbD_funct3 (i : Word) {j : ℕ} (hj : j < 3) :
    (funct3 i).getLsbD j = i.getLsbD (12 + j) := by
  rw [funct3, BitVec.getLsbD_extractLsb']
  simp [hj]

theorem getLsbD_of_isDiv (h : isDiv instruction = true) : instruction.getLsbD 14 = true := by
  obtain ⟨p, hp, hm⟩ := Pattern.any_iff.mp h
  obtain rfl := List.mem_singleton.mp hp
  have hbit := congrArg (BitVec.getLsbD · 14) hm
  simpa using hbit

theorem funct3_of_isDiv (h : isDiv instruction = true) : 4 ≤ (funct3 instruction).toNat := by
  have hbit := getLsbD_funct3 instruction (j := 2) (by decide)
  rw [getLsbD_of_isDiv h] at hbit
  generalize funct3 instruction = f at hbit
  revert f
  decide

theorem toInt_eq_natAbs (x : Word) :
    x.toInt = if x.msb then -(x.toInt.natAbs : ℤ) else x.toInt.natAbs := by
  rw [BitVec.msb_eq_toInt]
  by_cases h : x.toInt < 0
  · rw [if_pos (decide_eq_true h)]
    omega
  · rw [if_neg (by simpa using h)]
    omega

theorem tdiv_eq_natAbs (x y : Word) : BitVec.ofInt 32 (x.toInt.tdiv y.toInt) =
    negateIf (x.msb ^^ y.msb) (BitVec.ofNat 32 (x.toInt.natAbs / y.toInt.natAbs)) := by
  rw [negateIf_eq, ← BitVec.ofInt_natCast, Int.ofNat_tdiv]
  conv_lhs => rw [toInt_eq_natAbs x, toInt_eq_natAbs y]
  cases x.msb <;> cases y.msb <;> simp [← BitVec.ofInt_neg]

theorem tmod_eq_natAbs (x y : Word) : BitVec.ofInt 32 (x.toInt.tmod y.toInt) =
    negateIf x.msb (BitVec.ofNat 32 (x.toInt.natAbs % y.toInt.natAbs)) := by
  rw [negateIf_eq, ← BitVec.ofInt_natCast, Int.ofNat_tmod]
  conv_lhs => rw [toInt_eq_natAbs x, toInt_eq_natAbs y]
  cases x.msb <;> cases y.msb <;> simp [← BitVec.ofInt_neg]

theorem quotientBits_natAbs {y : Word} (hy : y ≠ 0) (n : ℕ) :
    quotientBits y.toInt.natAbs 32 n = n / y.toInt.natAbs :=
  if_neg (Int.natAbs_ne_zero.mpr (InstructionHandler.toInt_ne_zero hy))

/-! The four instructions, with the bits of their `funct3`. -/

theorem signed_quotient (x y : Word) :
    negateIf ((x.msb ^^ y.msb) && !(y = 0 : Bool))
      (BitVec.ofNat 32 (quotientBits y.toInt.natAbs 32 x.toInt.natAbs)) =
    divisionResult 4 x y := by
  by_cases hy : y = 0
  · subst hy
    simp [negateIf, quotientBits, divisionResult]
  · rw [quotientBits_natAbs hy, InstructionHandler.divisionResult_div hy, tdiv_eq_natAbs,
      decide_eq_false hy, Bool.not_false, Bool.and_true]

theorem signed_remainder (x y : Word) :
    negateIf x.msb (BitVec.ofNat 32 (x.toInt.natAbs % y.toInt.natAbs)) =
      divisionResult 6 x y := by
  by_cases hy : y = 0
  · subst hy
    have hx := tmod_eq_natAbs x 0
    rw [← hx]
    simp [divisionResult]
  · rw [InstructionHandler.divisionResult_rem hy, tmod_eq_natAbs]

theorem unsigned_quotient (x y : Word) :
    BitVec.ofNat 32 (quotientBits y.toNat 32 x.toNat) = divisionResult 5 x y := by
  by_cases hy : y = 0
  · subst hy
    rfl
  · rw [InstructionHandler.divisionResult_divu hy, quotientBits, if_neg]
    exact (InstructionHandler.toNat_pos_of_ne_zero hy).ne'

theorem unsigned_remainder (x y : Word) :
    BitVec.ofNat 32 (x.toNat % y.toNat) = divisionResult 7 x y := by
  by_cases hy : y = 0
  · subst hy
    simp [divisionResult]
  · rw [InstructionHandler.divisionResult_remu hy]

/-- **The sign of the result.** -/
theorem signed_eq (hdiv : isDiv instruction = true) :
    negateIf (load instruction a b d).needRevert
        (if instruction.getLsbD 13 then
          BitVec.ofNat 32 (magnitude instruction a % magnitude instruction b)
        else BitVec.ofNat 32 (quotientBits (magnitude instruction b) 32 (magnitude instruction a))) =
      divisionResult (funct3 instruction) a b := by
  have hrevert : (load instruction a b d).needRevert =
      (((isDiv instruction && a.msb && isSigned instruction) ^^
          (b.msb && isSigned instruction && !instruction.getLsbD 13)) &&
        !(b = 0 && isSigned instruction && !instruction.getLsbD 13)) := rfl
  have h13 := getLsbD_funct3 instruction (j := 1) (by decide)
  have h12 := getLsbD_funct3 instruction (j := 0) (by decide)
  have hf := funct3_of_isDiv hdiv
  rw [hrevert, hdiv, magnitude, magnitude, isSigned_eq, ← h13, ← h12]
  generalize funct3 instruction = f at hf
  rcases lt_or_ge f.toNat 6 with hquot | hrem
  · rcases InstructionHandler.quotient_cases hf hquot with rfl | rfl
    · simpa [reading, show (4 : BitVec 3).getLsbD 0 = false from rfl,
        show (4 : BitVec 3).getLsbD 1 = false from rfl] using signed_quotient a b
    · simpa [reading, negateIf_eq, show (5 : BitVec 3).getLsbD 0 = true from rfl,
        show (5 : BitVec 3).getLsbD 1 = false from rfl] using unsigned_quotient a b
  · rcases InstructionHandler.remainder_cases hrem with rfl | rfl
    · simpa [reading, show (6 : BitVec 3).getLsbD 0 = false from rfl,
        show (6 : BitVec 3).getLsbD 1 = true from rfl] using signed_remainder a b
    · simpa [reading, negateIf_eq, show (7 : BitVec 3).getLsbD 0 = true from rfl,
        show (7 : BitVec 3).getLsbD 1 = true from rfl] using unsigned_remainder a b

/-! ## The result -/

/-- The result is there. -/
structure Finished (instruction a b : Word) (d : Divider) : Prop where
  done : d.done = true
  result : d.result = divisionResult (funct3 instruction) a b

theorem Working.finish (hdiv : isDiv instruction = true) (h : Working instruction a b 32 d) :
    Finished instruction a b (d.work instruction) := by
  obtain ⟨hr, hq⟩ := h.dividing.finish
  have hcount : d.counter = 0x20 := h.counter
  have hwork : d.work instruction =
      { d with
        rs1 := d.outNumerator
        accumulator := d.outRemainder
        counter := d.counter + 1
        done := true
        result :=
          negateIf d.needRevert (if instruction.getLsbD 13 then d.accumulator else d.rs1) } := by
    rw [Divider.work, if_neg (by simp [h.done]), if_pos hcount, if_neg (by rw [hcount]; decide),
      decide_eq_true hcount]
  have hacc : d.accumulator = BitVec.ofNat 32
      (magnitude instruction a % magnitude instruction b) := by
    rw [← hr, BitVec.ofNat_toNat, BitVec.setWidth_eq]
  have hrs1 : d.rs1 = BitVec.ofNat 32
      (quotientBits (magnitude instruction b) 32 (magnitude instruction a)) := by
    rw [← hq, BitVec.ofNat_toNat, BitVec.setWidth_eq]
  rw [hwork]
  refine ⟨rfl, ?_⟩
  rw [← signed_eq (d := d) hdiv, ← h.needRevert, ← hacc, ← hrs1]

theorem Finished.work (h : Finished instruction a b d) : d.work instruction = d := by
  rw [Divider.work, if_pos h.done]

/-- **Run lemma.** -/
theorem working_run (hdiv : isDiv instruction = true) (hk : k ≤ 32) :
    Working instruction a b k ((work instruction)^[k] (d.load instruction a b)) := by
  induction k with
  | zero => exact working_load hdiv
  | succ k ih =>
    rw [Function.iterate_succ_apply']
    exact (ih (by omega)).work (by omega)

/-- **Division in hardware.** The divider works for 33 cycles; then, and as long as the instruction
stays, its result is that of the M extension, for all operands. -/
theorem divider_divides (hdiv : isDiv instruction = true) :
    (∀ k < 33, ((work instruction)^[k] (d.load instruction a b)).done = false) ∧
      ∀ k, 33 ≤ k → ((work instruction)^[k] (d.load instruction a b)).done = true ∧
        ((work instruction)^[k] (d.load instruction a b)).result =
          divisionResult (funct3 instruction) a b := by
  refine ⟨fun k hk => (working_run hdiv (by omega)).done, fun k hk => ?_⟩
  have hfinished : Finished instruction a b
      ((work instruction)^[k] (d.load instruction a b)) := by
    induction k, hk using Nat.le_induction with
    | base =>
      rw [Function.iterate_succ_apply']
      exact (working_run hdiv le_rfl).finish hdiv
    | succ k hk ih =>
      rw [Function.iterate_succ_apply', ih.work]
      exact ih
  exact ⟨hfinished.done, hfinished.result⟩

/-- `div x1, x2, x3` of -7 and 2. -/
theorem divider_divides_seven :
    ((work 0x023140b3)^[33] (zero.load 0x023140b3 (-7) 2)).result = -3 :=
  ((divider_divides (by decide)).2 33 le_rfl).2

end Divider

end CfuPlayground.VexRiscv
