import Mathlib.Data.BitVec
import Mathlib.Tactic

/-!
# Signed and unsigned words

Hardware that works on both kinds of words reads its operand with a flag (`reading`): it puts a
guard bit in front (`toInt_guard`), splits it into a signed and an unsigned half
(`reading_split`), or takes the absolute value (`natAbs_reading`).
-/

namespace CfuPlayground.Lib

variable {m n w : ℕ} {s : Bool} {x : BitVec w}

theorem toNat_append_eq (x : BitVec m) (y : BitVec n) :
    (x ++ y).toNat = 2 ^ n * x.toNat + y.toNat := by
  rw [BitVec.toNat_append, ← Nat.shiftLeft_add_eq_or_of_lt y.isLt, Nat.shiftLeft_eq, mul_comm]

/-- The value of a word, with or without a sign. -/
def reading (s : Bool) (x : BitVec w) : ℤ := if s then x.toInt else x.toNat

theorem reading_eq : reading s x = x.toNat - if s && x.msb then (2 : ℤ) ^ w else 0 := by
  cases s with
  | false => simp [reading]
  | true =>
    rw [reading, if_pos rfl, Bool.true_and, BitVec.toInt_eq_msb_cond]
    split_ifs <;> push_cast <;> ring

/-- **A guard bit** repeats the sign if there is one. -/
theorem toInt_guard : (BitVec.ofBool (s && x.msb) ++ x).toInt = reading s x := by
  have hlt := x.isLt
  rw [reading_eq, BitVec.toInt_eq_toNat_cond, toNat_append_eq, BitVec.toNat_ofBool]
  cases s && x.msb
  · simp only [Bool.toNat_false, mul_zero, zero_add, Bool.false_eq_true, if_false, sub_zero]
    rw [if_pos]
    rw [Nat.add_comm 1 w, pow_succ]
    omega
  · simp only [Bool.toNat_true, mul_one, if_true]
    rw [if_neg]
    · push_cast
      rw [Nat.add_comm 1 w, pow_succ]
      ring
    · rw [Nat.add_comm 1 w, pow_succ]
      omega

theorem toInt_zero_append (x : BitVec w) : ((0 : BitVec 1) ++ x).toInt = x.toNat :=
  toInt_guard (s := false)

theorem msb_high {x : BitVec (m + n)} (hm : 0 < m) : (x.extractLsb' n m).msb = x.msb := by
  rw [BitVec.msb_eq_getLsbD_last, BitVec.msb_eq_getLsbD_last, BitVec.getLsbD_extractLsb']
  simp only [show m - 1 < m from by omega, decide_true, Bool.true_and]
  congr 1
  omega

theorem reading_split {x : BitVec (m + n)} (hm : 0 < m) : reading s x =
    reading s (x.extractLsb' n m) * 2 ^ n + (x.extractLsb' 0 n).toNat := by
  have hmsb := msb_high (x := x) hm
  have hx : x.toNat < 2 ^ m * 2 ^ n := by
    rw [← pow_add]
    exact x.isLt
  have hhigh : (x.extractLsb' n m).toNat = x.toNat / 2 ^ n := by
    rw [BitVec.extractLsb'_toNat, Nat.shiftRight_eq_div_pow,
      Nat.mod_eq_of_lt (Nat.div_lt_of_lt_mul (mul_comm (2 ^ m) (2 ^ n) ▸ hx))]
  have hlow : (x.extractLsb' 0 n).toNat = x.toNat % 2 ^ n := by
    rw [BitVec.extractLsb'_toNat, Nat.shiftRight_zero]
  have hsplit : (x.toNat : ℤ) = (x.toNat / 2 ^ n : ℕ) * 2 ^ n + (x.toNat % 2 ^ n : ℕ) := by
    exact_mod_cast (Nat.div_add_mod' x.toNat (2 ^ n)).symm
  rw [reading_eq, reading_eq, hmsb, hhigh, hlow]
  split_ifs
  · rw [pow_add]
    linear_combination hsplit
  · linear_combination hsplit

/-- **The absolute value.** -/
theorem natAbs_reading : (reading s x).natAbs = (if s && x.msb then -x else x).toNat := by
  have hlt := x.isLt
  rw [reading_eq]
  cases h : s && x.msb with
  | false => simp
  | true =>
    have hpos : 0 < x.toNat := by
      rw [Bool.and_eq_true, BitVec.msb_eq_decide, decide_eq_true_eq] at h
      exact (Nat.two_pow_pos _).trans_le h.2
    have hneg : (x.toNat : ℤ) - 2 ^ w = -((2 ^ w - x.toNat : ℕ) : ℤ) := by
      rw [Nat.cast_sub hlt.le]
      push_cast
      ring
    rw [if_pos rfl, if_pos rfl, hneg, Int.natAbs_neg, Int.natAbs_natCast, BitVec.toNat_neg,
      Nat.mod_eq_of_lt (by omega)]

/-- **A product of twice the width** does not overflow. -/
theorem toInt_mul_signExtend (x y : BitVec (m + 1)) :
    (x.signExtend (m + 1 + (m + 1)) * y.signExtend (m + 1 + (m + 1))).toInt =
      x.toInt * y.toInt := by
  have hx := BitVec.toInt_lt (x := x)
  have hx' := BitVec.le_toInt x
  have hy := BitVec.toInt_lt (x := y)
  have hy' := BitVec.le_toInt y
  rw [Nat.add_sub_cancel] at hx hx' hy hy'
  rw [BitVec.toInt_mul, BitVec.toInt_signExtend_of_le (by omega),
    BitVec.toInt_signExtend_of_le (by omega)]
  have hpow : (2 : ℤ) ^ (m + 1 + (m + 1)) = 4 * (2 ^ m * 2 ^ m) := by ring
  have habs : |x.toInt * y.toInt| ≤ 2 ^ m * 2 ^ m := by
    rw [abs_mul]
    exact mul_le_mul (abs_le.mpr ⟨hx', hx.le⟩) (abs_le.mpr ⟨hy', hy.le⟩) (abs_nonneg _)
      (by positivity)
  have hpos : (0 : ℤ) < 2 ^ m * 2 ^ m := by positivity
  obtain ⟨hlo, hhi⟩ := abs_le.mp habs
  refine Int.bmod_eq_of_le ?_ ?_ <;> push_cast <;> rw [hpow] <;> omega

theorem toInt_setWidth_shiftLeft (x : BitVec m) (n : ℕ) :
    (x.setWidth (m + n) <<< n).toInt = x.toInt * 2 ^ n := by
  have hx : x.toNat * 2 ^ n < 2 ^ (m + n) := by
    rw [pow_add]
    exact Nat.mul_lt_mul_of_pos_right x.isLt (Nat.two_pow_pos n)
  have hle : x.toNat < 2 ^ (m + n) :=
    x.isLt.trans_le (Nat.pow_le_pow_right (by decide) (Nat.le_add_right m n))
  have htoNat : (x.setWidth (m + n) <<< n).toNat = x.toNat * 2 ^ n := by
    rw [BitVec.toNat_shiftLeft, BitVec.toNat_setWidth, Nat.mod_eq_of_lt hle, Nat.shiftLeft_eq,
      Nat.mod_eq_of_lt hx]
  have hcond : 2 * (x.toNat * 2 ^ n) < 2 ^ (m + n) ↔ 2 * x.toNat < 2 ^ m := by
    rw [← mul_assoc, pow_add]
    exact Nat.mul_lt_mul_right (Nat.two_pow_pos n)
  rw [BitVec.toInt_eq_toNat_cond, BitVec.toInt_eq_toNat_cond, htoNat]
  simp only [hcond]
  split_ifs
  · push_cast
    ring
  · push_cast
    ring

theorem extractLsb'_ofInt (p : ℤ) (h : n + m ≤ w) :
    (BitVec.ofInt w p).extractLsb' n m = BitVec.ofInt m (p / 2 ^ n) := by
  obtain ⟨k, rfl⟩ := Nat.exists_eq_add_of_le h
  apply BitVec.eq_of_toNat_eq
  have hn : (0 : ℤ) < 2 ^ n := by positivity
  have hpow : ((2 ^ (n + m + k) : ℕ) : ℤ) = 2 ^ n * 2 ^ (m + k) := by
    push_cast
    ring
  have hquot : p % (2 ^ n * 2 ^ (m + k)) / 2 ^ n = p / 2 ^ n % 2 ^ (m + k) := by
    rw [Int.emod_def, Int.emod_def, mul_assoc, Int.sub_mul_ediv_left _ _ hn.ne',
      Int.ediv_ediv_of_nonneg hn.le]
  have hmod : p / 2 ^ n % 2 ^ (m + k) % 2 ^ m = p / 2 ^ n % 2 ^ m :=
    Int.emod_emod_of_dvd _ (pow_dvd_pow 2 (Nat.le_add_right m k))
  have hnonneg : 0 ≤ p % (2 ^ n * 2 ^ (m + k)) := Int.emod_nonneg _ (by positivity)
  rw [BitVec.extractLsb'_toNat, BitVec.toNat_ofInt, BitVec.toNat_ofInt,
    Nat.shiftRight_eq_div_pow, hpow]
  zify
  rw [Int.toNat_of_nonneg hnonneg, Int.toNat_of_nonneg (Int.emod_nonneg _ (by positivity)), hquot,
    hmod]

end CfuPlayground.Lib
