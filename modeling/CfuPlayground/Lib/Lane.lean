import Mathlib.Tactic

/-!
# Signed lanes of a machine word

Sums and products of sign-extended integers, computed at some width, are the images of the
integer results (`signExtend_eq_ofInt`, `ofInt_*` of the library); where an integer result fits
the width nothing is lost (`toInt_ofInt_of_bounds`, `toInt_setWidth_of_bounds`).
-/

namespace CfuPlayground.Lib

/-- Lane `k` of a word of bytes. -/
def lane {w : ℕ} (x : BitVec w) (k : ℕ) : BitVec 8 := x.extractLsb' (8 * k) 8

theorem lane_append (a b c d : BitVec 8) :
    lane (a ++ b ++ c ++ d) 0 = d ∧ lane (a ++ b ++ c ++ d) 1 = c ∧
      lane (a ++ b ++ c ++ d) 2 = b ∧ lane (a ++ b ++ c ++ d) 3 = a := by
  unfold lane
  refine ⟨?_, ?_, ?_, ?_⟩
  · exact BitVec.extractLsb'_append_eq_right
  · rw [BitVec.extractLsb'_append_eq_of_le (by norm_num)]
    exact BitVec.extractLsb'_append_eq_right
  · rw [BitVec.extractLsb'_append_eq_of_le (by norm_num),
      BitVec.extractLsb'_append_eq_of_le (by norm_num)]
    exact BitVec.extractLsb'_append_eq_right
  · rw [BitVec.extractLsb'_append_eq_of_le (by norm_num),
      BitVec.extractLsb'_append_eq_of_le (by norm_num)]
    exact BitVec.extractLsb'_append_eq_left

theorem append_lanes (v : BitVec 32) : lane v 3 ++ lane v 2 ++ lane v 1 ++ lane v 0 = v := by
  unfold lane
  rw [BitVec.extractLsb'_append_extractLsb'_eq_extractLsb' (by norm_num),
    BitVec.extractLsb'_append_extractLsb'_eq_extractLsb' (by norm_num),
    BitVec.extractLsb'_append_extractLsb'_eq_extractLsb' (by norm_num)]
  exact BitVec.extractLsb'_eq_self

theorem eq_of_lanes {v w : BitVec 32} (h : ∀ k < 4, lane v k = lane w k) : v = w := by
  rw [← append_lanes v, ← append_lanes w, h 3 (by decide), h 2 (by decide), h 1 (by decide),
    h 0 (by decide)]

theorem byte_bounds (x : BitVec 8) : -128 ≤ x.toInt ∧ x.toInt ≤ 127 := by
  have h1 := BitVec.le_toInt x
  have h2 := BitVec.toInt_lt (x := x)
  omega

theorem signExtend_eq_ofInt {v : ℕ} (w : ℕ) (x : BitVec v) :
    x.signExtend w = BitVec.ofInt w x.toInt := rfl

theorem toInt_ofInt_of_bounds {w : ℕ} {z : ℤ} (hlo : -2 ^ w ≤ z) (hhi : z < 2 ^ w) :
    (BitVec.ofInt (w + 1) z).toInt = z := by
  apply BitVec.toInt_ofInt_eq_self
  · exact Nat.succ_pos w
  · simpa using hlo
  · simpa using hhi

theorem setWidth_ofInt {v w : ℕ} (h : v ≤ w) (z : ℤ) :
    (BitVec.ofInt w z).setWidth v = BitVec.ofInt v z := by
  have hdvd : ((2 ^ v : ℕ) : ℤ) ∣ ((2 ^ w : ℕ) : ℤ) := by
    exact_mod_cast pow_dvd_pow 2 h
  have hw : 0 ≤ z % ((2 ^ w : ℕ) : ℤ) := Int.emod_nonneg _ (by positivity)
  apply BitVec.eq_of_toNat_eq
  rw [BitVec.toNat_setWidth, BitVec.toNat_ofInt, BitVec.toNat_ofInt, ← Int.emod_emod_of_dvd z hdvd,
    Int.toNat_emod hw (by positivity), Int.toNat_natCast]

theorem toInt_setWidth_of_bounds {v w : ℕ} (h : v + 1 ≤ w) {x : BitVec w} (hlo : -2 ^ v ≤ x.toInt)
    (hhi : x.toInt < 2 ^ v) : (x.setWidth (v + 1)).toInt = x.toInt := by
  have hx : x.setWidth (v + 1) = BitVec.ofInt (v + 1) x.toInt := by
    rw [← setWidth_ofInt h, BitVec.ofInt_toInt]
  rw [hx, toInt_ofInt_of_bounds hlo hhi]

theorem lane_mac {v : ℕ} (w : ℕ) (x y : BitVec 8) (o : BitVec v) :
    (x.signExtend w + o.signExtend w) * y.signExtend w =
      BitVec.ofInt w ((x.toInt + o.toInt) * y.toInt) := by
  simp only [signExtend_eq_ofInt, BitVec.ofInt_mul, BitVec.ofInt_add]

theorem mac_bounds {x y : BitVec 8} {o : ℤ} (hlo : -127 ≤ o) (hhi : o ≤ 128) :
    -2 ^ 15 ≤ (x.toInt + o) * y.toInt ∧ (x.toInt + o) * y.toInt < 2 ^ 15 := by
  obtain ⟨hx1, hx2⟩ := byte_bounds x
  obtain ⟨hy1, hy2⟩ := byte_bounds y
  constructor <;> nlinarith

end CfuPlayground.Lib
