import CfuPlayground.Lib.Signed
import CfuPlayground.VexRiscv.Divider

/-!
# The multiplier of `VexRiscv_SlimCfu.v`

`MulPlugin`: four products of halves in `execute`, the sum of the lower three in `memory`, and the
sum with the last one in `writeBack`.

* `toInt_low`: the sum of 52 bits does not overflow;
* **`multiplier_multiplies`**: the data for the register file is that of the M extension, for all
  operands.
-/

namespace CfuPlayground.VexRiscv

open Lib
open InstructionHandler (funct3)

namespace Multiplier

/-- `execute_MulPlugin_aSigned` and `bSigned`. -/
def aSigned (instruction : Word) : Bool :=
  instruction.extractLsb' 12 2 = 1 || instruction.extractLsb' 12 2 = 2

def bSigned (instruction : Word) : Bool := instruction.extractLsb' 12 2 = 1

/-- `aULow` and `bULow`. -/
def low16 (x : Word) : BitVec 16 := x.extractLsb' 0 16

/-- `aSLow` and `bSLow`. -/
def sLow (x : Word) : BitVec 17 := (0 : BitVec 1) ++ low16 x

/-- `aHigh` and `bHigh`. -/
def high (signed : Bool) (x : Word) : BitVec 17 :=
  BitVec.ofBool (signed && x.msb) ++ x.extractLsb' 16 16

end Multiplier

/-- `execute_to_memory_MUL_*`. -/
structure Products where
  ll : BitVec 32
  lh : BitVec 34
  hl : BitVec 34
  hh : BitVec 34

/-- `memory_to_writeBack_MUL_*`. -/
structure Sums where
  low : BitVec 52
  hh : BitVec 34

namespace Multiplier

/-- `execute_MUL_*`. -/
def products (instruction a b : Word) : Products where
  ll := (low16 a).setWidth 32 * (low16 b).setWidth 32
  lh := (sLow a).signExtend 34 * (high (bSigned instruction) b).signExtend 34
  hl := (high (aSigned instruction) a).signExtend 34 * (sLow b).signExtend 34
  hh := (high (aSigned instruction) a).signExtend 34 *
    (high (bSigned instruction) b).signExtend 34

/-- `memory_MUL_LOW` and `memory_MUL_HH`. -/
def sums (p : Products) : Sums where
  low := 0 + ((0 : BitVec 1) ++ p.ll).signExtend 52 + (p.lh.setWidth 50 <<< 16).signExtend 52 +
    (p.hl.setWidth 50 <<< 16).signExtend 52
  hh := p.hh

/-- `writeBack_MulPlugin_result`. -/
def result (s : Sums) : BitVec 66 := s.low.signExtend 66 + (s.hh.setWidth 66 <<< 32)

/-- What `MulPlugin` puts on the data for the register file. -/
def data (instruction : Word) (s : Sums) : Word :=
  if instruction.extractLsb' 12 2 = 0 then s.low.extractLsb' 0 32
  else (result s).extractLsb' 32 32

end Multiplier

/-- The multiplications of the M extension, by their `funct3`. -/
def productResult (funct3 : BitVec 3) (x y : Word) : Word :=
  if funct3 = 0 then x * y
  else if funct3 = 1 then BitVec.ofInt 32 (x.toInt * y.toInt / 2 ^ 32)
  else if funct3 = 2 then BitVec.ofInt 32 (x.toInt * y.toNat / 2 ^ 32)
  else BitVec.ofInt 32 (x.toNat * y.toNat / 2 ^ 32)

namespace Multiplier

/-! ## The halves -/

variable {instruction a b : Word}

theorem toInt_sLow (x : Word) : (sLow x).toInt = (low16 x).toNat := toInt_zero_append _

theorem reading_high (s : Bool) (x : Word) :
    reading s x = (high s x).toInt * 2 ^ 16 + (low16 x).toNat := by
  have hmsb : x.msb = (x.extractLsb' 16 16).msb := (msb_high (m := 16) (n := 16) (by decide)).symm
  rw [high, hmsb, toInt_guard]
  exact reading_split (m := 16) (n := 16) (by decide)

theorem toInt_high_bounds (s : Bool) (x : Word) :
    -2 ^ 15 ≤ (high s x).toInt ∧ (high s x).toInt < 2 ^ 16 := by
  have hmsb : x.msb = (x.extractLsb' 16 16).msb := (msb_high (m := 16) (n := 16) (by decide)).symm
  have hlt := (x.extractLsb' 16 16).isLt
  have hlt' := BitVec.toInt_lt (x := x.extractLsb' 16 16)
  have hle := BitVec.le_toInt (x.extractLsb' 16 16)
  rw [high, hmsb, toInt_guard, reading]
  split_ifs <;> constructor <;> omega

/-! ## The sums -/

/-- The sum of the products but the highest. -/
def lowSum (p : Products) : ℤ := p.ll.toNat + p.lh.toInt * 2 ^ 16 + p.hl.toInt * 2 ^ 16

theorem low_eq (p : Products) : (sums p).low = BitVec.ofInt 52 (lowSum p) := by
  have hll : ((0 : BitVec 1) ++ p.ll).toInt = p.ll.toNat := toInt_zero_append _
  have hext : ∀ x : BitVec 34, (x.setWidth 50 <<< 16).signExtend 52 =
      BitVec.ofInt 52 (x.toInt * 2 ^ 16) := fun x =>
    congrArg (BitVec.ofInt 52) (toInt_setWidth_shiftLeft x 16)
  rw [sums, hext, hext, lowSum, BitVec.ofInt_add, BitVec.ofInt_add, ← hll]
  simp [BitVec.signExtend]

theorem toNat_ll : ((products instruction a b).ll).toNat = (low16 a).toNat * (low16 b).toNat := by
  have ha := (low16 a).isLt
  have hb := (low16 b).isLt
  have hlt : (low16 a).toNat * (low16 b).toNat < 2 ^ 16 * 2 ^ 16 := Nat.mul_lt_mul'' ha hb
  rw [products, BitVec.toNat_mul, BitVec.toNat_setWidth, BitVec.toNat_setWidth,
    Nat.mod_eq_of_lt (ha.trans (by decide)), Nat.mod_eq_of_lt (hb.trans (by decide))]
  exact Nat.mod_eq_of_lt hlt

theorem lowSum_products : lowSum (products instruction a b) =
    (low16 a).toNat * (low16 b).toNat +
      (low16 a).toNat * (high (bSigned instruction) b).toInt * 2 ^ 16 +
      (high (aSigned instruction) a).toInt * (low16 b).toNat * 2 ^ 16 := by
  have hlh : (products instruction a b).lh.toInt =
      (sLow a).toInt * (high (bSigned instruction) b).toInt := toInt_mul_signExtend (m := 16) _ _
  have hhl : (products instruction a b).hl.toInt =
      (high (aSigned instruction) a).toInt * (sLow b).toInt := toInt_mul_signExtend (m := 16) _ _
  rw [lowSum, toNat_ll, hlh, hhl, toInt_sLow, toInt_sLow]
  push_cast
  rfl

theorem abs_half_mul_lt (x : BitVec 16) (s : Bool) (y : Word) :
    |(x.toNat : ℤ) * (high s y).toInt| < 2 ^ 32 := by
  have hx := x.isLt
  obtain ⟨hlo, hhi⟩ := toInt_high_bounds s y
  have habs : |(high s y).toInt| ≤ 2 ^ 16 := abs_le.mpr ⟨by omega, hhi.le⟩
  rw [abs_mul, Nat.abs_cast]
  calc (x.toNat : ℤ) * |(high s y).toInt| ≤ x.toNat * 2 ^ 16 :=
        mul_le_mul_of_nonneg_left habs (Nat.cast_nonneg _)
    _ < 2 ^ 32 := by omega

/-- **No overflow of 52 bits.** -/
theorem toInt_low : (sums (products instruction a b)).low.toInt =
    lowSum (products instruction a b) := by
  have ha := abs_lt.mp (abs_half_mul_lt (low16 a) (bSigned instruction) b)
  have hb := abs_lt.mp (abs_half_mul_lt (low16 b) (aSigned instruction) a)
  have hll : (low16 a).toNat * (low16 b).toNat < 2 ^ 16 * 2 ^ 16 :=
    Nat.mul_lt_mul'' (low16 a).isLt (low16 b).isLt
  have hcast : ((low16 a).toNat : ℤ) * (low16 b).toNat < 2 ^ 16 * 2 ^ 16 := by
    exact_mod_cast hll
  have hnonneg : (0 : ℤ) ≤ (low16 a).toNat * (low16 b).toNat := by positivity
  rw [low_eq, BitVec.toInt_ofInt, lowSum_products, mul_comm (high _ a).toInt]
  exact Int.bmod_eq_of_le (by omega) (by omega)

/-- The operands as the instruction reads them. -/
def product (instruction a b : Word) : ℤ :=
  reading (aSigned instruction) a * reading (bSigned instruction) b

theorem result_eq : result (sums (products instruction a b)) =
    BitVec.ofInt 66 (product instruction a b) := by
  have hhh : (products instruction a b).hh.toInt =
      (high (aSigned instruction) a).toInt * (high (bSigned instruction) b).toInt :=
    toInt_mul_signExtend (m := 16) _ _
  have hlow : (sums (products instruction a b)).low.signExtend 66 =
      BitVec.ofInt 66 (lowSum (products instruction a b)) := by
    rw [BitVec.signExtend, toInt_low]
  have hhigh : (products instruction a b).hh.setWidth 66 <<< 32 =
      BitVec.ofInt 66 ((products instruction a b).hh.toInt * 2 ^ 32) := by
    rw [← toInt_setWidth_shiftLeft _ 32, BitVec.ofInt_toInt]
  have hresult : result (sums (products instruction a b)) =
      (sums (products instruction a b)).low.signExtend 66 +
        (products instruction a b).hh.setWidth 66 <<< 32 := rfl
  rw [hresult, hlow, hhigh, ← BitVec.ofInt_add, hhh, lowSum_products, product, reading_high _ a,
    reading_high _ b]
  congr 1
  ring

/-! ## The instructions -/

theorem data_eq : data instruction (sums (products instruction a b)) =
    if instruction.extractLsb' 12 2 = 0 then BitVec.ofInt 32 (product instruction a b)
    else BitVec.ofInt 32 (product instruction a b / 2 ^ 32) := by
  unfold data
  split_ifs
  · rw [low_eq, extractLsb'_ofInt _ (by decide), pow_zero, Int.ediv_one]
    have hsplit : product instruction a b = lowSum (products instruction a b) +
        (high (aSigned instruction) a).toInt * (high (bSigned instruction) b).toInt * 2 ^ 32 := by
      rw [lowSum_products, product, reading_high _ a, reading_high _ b]
      ring
    have hzero : BitVec.ofInt 32 (2 ^ 32) = 0 := by decide
    rw [hsplit, BitVec.ofInt_add, BitVec.ofInt_mul _ (2 ^ 32), hzero, mul_zero, add_zero]
  · rw [result_eq, extractLsb'_ofInt _ (by decide)]

theorem funct3_of_isMul (h : isMul instruction = true) : (funct3 instruction).toNat < 4 := by
  have h14 : instruction.getLsbD 14 = false := by
    obtain ⟨p, hp, hm⟩ := Pattern.any_iff.mp h
    obtain rfl := List.mem_singleton.mp hp
    have hbit := congrArg (BitVec.getLsbD · 14) hm
    simpa using hbit
  have hbit := Divider.getLsbD_funct3 instruction (j := 2) (by decide)
  rw [h14] at hbit
  generalize funct3 instruction = f at hbit
  revert f
  decide

theorem switch_eq (i : Word) : i.extractLsb' 12 2 = (funct3 i).extractLsb' 0 2 := by
  apply BitVec.eq_of_getLsbD_eq
  intro k hk
  rw [BitVec.getLsbD_extractLsb', BitVec.getLsbD_extractLsb', zero_add,
    Divider.getLsbD_funct3 i (by omega)]

theorem productResult_eq (hmul : isMul instruction = true) :
    productResult (funct3 instruction) a b =
      if instruction.extractLsb' 12 2 = 0 then BitVec.ofInt 32 (product instruction a b)
      else BitVec.ofInt 32 (product instruction a b / 2 ^ 32) := by
  have hf := funct3_of_isMul hmul
  have hcases : funct3 instruction = 0 ∨ funct3 instruction = 1 ∨ funct3 instruction = 2 ∨
      funct3 instruction = 3 := by
    generalize funct3 instruction = f at hf
    revert f
    decide
  rw [product, aSigned, bSigned, switch_eq]
  rcases hcases with h | h | h | h
  · rw [h]
    simp [reading, productResult, BitVec.ofInt_mul]
  · rw [h]
    simp [reading, productResult]
  · rw [h]
    simp [reading, productResult]
  · rw [h]
    simp [reading, productResult]

/-- **Multiplication in hardware.** The data for the register file is that of the M extension, for
all operands. -/
theorem multiplier_multiplies (hmul : isMul instruction = true) :
    data instruction (sums (products instruction a b)) =
      productResult (funct3 instruction) a b := by
  rw [data_eq, productResult_eq hmul]

/-- `mulh x1, x2, x3` of `-2 ^ 31` and 2. -/
theorem multiplier_multiplies_minInt :
    data 0x023110b3 (sums (products 0x023110b3 0x80000000 2)) = -1 :=
  multiplier_multiplies (by decide)

end Multiplier

end CfuPlayground.VexRiscv
