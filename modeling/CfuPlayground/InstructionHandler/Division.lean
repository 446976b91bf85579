import CfuPlayground.InstructionHandler.Model

/-!
# Division in the M extension

Closed forms of `divisionResult` for a divisor that is not 0, and the few values of it that tell
two dividends or two divisors apart.
-/

namespace CfuPlayground.InstructionHandler

variable {f : BitVec 3} {x y : Word}

theorem ofInt_overflow :
    BitVec.ofInt 32 ((BitVec.intMin 32).toInt.tdiv (-1 : Word).toInt) = BitVec.intMin 32 ∧
      BitVec.ofInt 32 ((BitVec.intMin 32).toInt.tmod (-1 : Word).toInt) = 0 := by
  decide

theorem divisionResult_div (hy : y ≠ 0) :
    divisionResult 4 x y = BitVec.ofInt 32 (x.toInt.tdiv y.toInt) := by
  show (if y = 0 then _ else if _ then _ else _) = _
  rw [if_neg hy]
  split_ifs with hover
  · rw [hover.1, hover.2, ofInt_overflow.1]
  · rfl

theorem divisionResult_divu (hy : y ≠ 0) :
    divisionResult 5 x y = BitVec.ofNat 32 (x.toNat / y.toNat) := if_neg hy

theorem divisionResult_rem (hy : y ≠ 0) :
    divisionResult 6 x y = BitVec.ofInt 32 (x.toInt.tmod y.toInt) := by
  show (if y = 0 then _ else if _ then _ else _) = _
  rw [if_neg hy]
  split_ifs with hover
  · rw [hover.1, hover.2, ofInt_overflow.2]
  · rfl

theorem divisionResult_remu (hy : y ≠ 0) :
    divisionResult 7 x y = BitVec.ofNat 32 (x.toNat % y.toNat) := if_neg hy

theorem quotient_cases (hf : 4 ≤ f.toNat) (hquot : f.toNat < 6) : f = 4 ∨ f = 5 := by
  revert f
  decide

theorem remainder_cases (hrem : 6 ≤ f.toNat) : f = 6 ∨ f = 7 := by
  revert f
  decide

/-! ## Values -/

/-- The divisors every remainder by which is 0. -/
def UnitDivisor (f : BitVec 3) (y : Word) : Prop := y = 1 ∨ f = 6 ∧ y = -1

instance : Decidable (UnitDivisor f y) := inferInstanceAs (Decidable (_ ∨ _))

theorem toInt_ne_zero (hy : y ≠ 0) : y.toInt ≠ 0 :=
  fun h => hy (BitVec.eq_of_toInt_eq (h.trans BitVec.toInt_zero.symm))

theorem toNat_pos_of_ne_zero (hy : y ≠ 0) : 0 < y.toNat :=
  Nat.pos_of_ne_zero fun h => hy (BitVec.eq_of_toNat_eq (h.trans BitVec.toNat_zero.symm))

theorem divisionResult_quotient_zero (hf : 4 ≤ f.toNat) (hquot : f.toNat < 6) :
    divisionResult f x 0 = BitVec.allOnes 32 := by
  rcases quotient_cases hf hquot with rfl | rfl <;> rfl

theorem divisionResult_zero_left (hf : 4 ≤ f.toNat) (hy : y ≠ 0) : divisionResult f 0 y = 0 := by
  have hcases : f.toNat < 6 ∨ 6 ≤ f.toNat := lt_or_ge _ _
  rcases hcases with hquot | hrem
  · rcases quotient_cases hf hquot with rfl | rfl
    · rw [divisionResult_div hy]
      simp
    · rw [divisionResult_divu hy]
      simp
  · rcases remainder_cases hrem with rfl | rfl
    · rw [divisionResult_rem hy]
      simp
    · rw [divisionResult_remu hy]
      simp

theorem divisionResult_quotient_self (hf : 4 ≤ f.toNat) (hquot : f.toNat < 6) (hy : y ≠ 0) :
    divisionResult f y y = 1 := by
  rcases quotient_cases hf hquot with rfl | rfl
  · rw [divisionResult_div hy, Int.tdiv_self (toInt_ne_zero hy)]
    rfl
  · rw [divisionResult_divu hy, Nat.div_self (toNat_pos_of_ne_zero hy)]
    rfl

theorem divisionResult_quotient_one (hf : 4 ≤ f.toNat) (hquot : f.toNat < 6) :
    divisionResult f x 1 = x := by
  have h1 : (1 : Word) ≠ 0 := by decide
  rcases quotient_cases hf hquot with rfl | rfl
  · rw [divisionResult_div h1, show (1 : Word).toInt = 1 from rfl, Int.tdiv_one, BitVec.ofInt_toInt]
  · rw [divisionResult_divu h1, show (1 : Word).toNat = 1 from rfl, Nat.div_one,
      BitVec.ofNat_toNat, BitVec.setWidth_eq]

theorem divisionResult_quotient_of_one (hf : 4 ≤ f.toNat) (hquot : f.toNat < 6) (hy : y ≠ 0)
    (h1 : y ≠ 1) : divisionResult f 1 y ≠ 1 := by
  rcases quotient_cases hf hquot with rfl | rfl
  · have h0 := toInt_ne_zero hy
    have hone : y.toInt ≠ 1 := fun h => h1 (BitVec.eq_of_toInt_eq h)
    rw [divisionResult_div hy, show (1 : Word).toInt = 1 from rfl]
    by_cases hneg : y.toInt = -1
    · rw [hneg]
      decide
    · have hdiv : (1 : ℤ).tdiv y.toInt = 0 := by
        rcases lt_or_ge 0 y.toInt with hpos | hle
        · exact Int.tdiv_eq_zero_of_lt (by decide) (by omega)
        · have hswap : (1 : ℤ).tdiv (-(-y.toInt)) = -(1 : ℤ).tdiv (-y.toInt) := Int.tdiv_neg ..
          rw [neg_neg] at hswap
          rw [hswap, Int.tdiv_eq_zero_of_lt (by decide) (by omega), neg_zero]
      rw [hdiv]
      decide
  · have hpos := toNat_pos_of_ne_zero hy
    have hone : y.toNat ≠ 1 := fun h => h1 (BitVec.eq_of_toNat_eq h)
    rw [divisionResult_divu hy, show (1 : Word).toNat = 1 from rfl, Nat.div_eq_of_lt (by omega)]
    decide

theorem divisionResult_remainder_unit (hrem : 6 ≤ f.toNat) (hunit : UnitDivisor f y) :
    divisionResult f x y = 0 := by
  rcases hunit with rfl | ⟨rfl, rfl⟩
  · rcases remainder_cases hrem with rfl | rfl
    · rw [divisionResult_rem (by decide), show (1 : Word).toInt = 1 from rfl, Int.tmod_one]
      rfl
    · rw [divisionResult_remu (by decide), show (1 : Word).toNat = 1 from rfl, Nat.mod_one]
      rfl
  · rw [divisionResult_rem (by decide), show (-1 : Word).toInt = -1 from rfl, Int.tmod_neg,
      Int.tmod_one]
    rfl

theorem divisionResult_remainder_self (hrem : 6 ≤ f.toNat) (hy : y ≠ 0) :
    divisionResult f y y = 0 := by
  rcases remainder_cases hrem with rfl | rfl
  · rw [divisionResult_rem hy, Int.tmod_self]
    rfl
  · rw [divisionResult_remu hy, Nat.mod_self]
    rfl

theorem divisionResult_remainder_of_one (hrem : 6 ≤ f.toNat) (hy : y ≠ 0)
    (hunit : ¬ UnitDivisor f y) : divisionResult f 1 y = 1 := by
  rw [UnitDivisor, not_or] at hunit
  rcases remainder_cases hrem with rfl | rfl
  · have h0 := toInt_ne_zero hy
    have hone : y.toInt ≠ 1 := fun h => hunit.1 (BitVec.eq_of_toInt_eq h)
    have hneg : y.toInt ≠ -1 := fun h => hunit.2 ⟨rfl, BitVec.eq_of_toInt_eq h⟩
    rw [divisionResult_rem hy, show (1 : Word).toInt = 1 from rfl]
    have hmod : (1 : ℤ).tmod y.toInt = 1 := by
      rcases lt_or_ge 0 y.toInt with hpos | hle
      · exact Int.tmod_eq_of_lt (by decide) (by omega)
      · rw [← neg_neg y.toInt, Int.tmod_neg]
        exact Int.tmod_eq_of_lt (by decide) (by omega)
    rw [hmod]
    rfl
  · have hpos := toNat_pos_of_ne_zero hy
    have hone : y.toNat ≠ 1 := fun h => hunit.1 (BitVec.eq_of_toNat_eq h)
    rw [divisionResult_remu hy, show (1 : Word).toNat = 1 from rfl, Nat.mod_eq_of_lt (by omega)]
    rfl

end CfuPlayground.InstructionHandler
