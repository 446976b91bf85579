import Mathlib.Data.BitVec
import Mathlib.Tactic

/-!
# Mixing steps that lose nothing

The steps of a multiplicative hash, each injective on words of any width: a product with a unit,
an affine step, a rotation, a xor-shift. A fold whose step is injective in the state and in the
item tells two lists apart that differ in one item (`foldl_ne_of_item`).
-/

namespace CfuPlayground.Lib

open Function

variable {w : ℕ}

/-! ## Words -/

/-- Rotation to the left as C writes it, for `0 < r < w`. -/
def rotl (r : ℕ) (x : BitVec w) : BitVec w := (x <<< r) ||| (x >>> (w - r))

/-- Fold the high bits of a word onto its low ones. -/
def xorShift (s : ℕ) (x : BitVec w) : BitVec w := x ^^^ (x >>> s)

theorem mul_injective {c d : BitVec w} (h : c * d = 1) : Injective (· * c) :=
  (IsUnit.of_mul_eq_one d h).mul_left_injective

theorem xor_injective (c : BitVec w) : Injective (· ^^^ c) := by
  intro x y h
  exact BitVec.xor_left_inj c |>.mp h

theorem xor_right_injective (c : BitVec w) : Injective (c ^^^ ·) := by
  intro x y h
  exact BitVec.xor_right_inj c |>.mp h

theorem getLsbD_rotl {r i : ℕ} (hr : r ≤ w) (hi : i < w) (x : BitVec w) :
    (rotl r x).getLsbD i = x.getLsbD (if i < r then w - r + i else i - r) := by
  rw [rotl, BitVec.getLsbD_or, BitVec.getLsbD_shiftLeft, BitVec.getLsbD_ushiftRight]
  by_cases h : i < r
  · simp [h]
  · have hout : x.getLsbD (w - r + i) = false := BitVec.getLsbD_of_ge _ _ (by omega)
    simp [h, hi, hout]

theorem rotl_injective {r : ℕ} (hr : r ≤ w) : Injective (rotl (w := w) r) := by
  apply LeftInverse.injective (g := rotl (w - r))
  intro x
  apply BitVec.eq_of_getLsbD_eq
  intro i hi
  rw [getLsbD_rotl (Nat.sub_le w r) hi]
  by_cases h : i < w - r
  · rw [if_pos h, getLsbD_rotl hr (by omega), if_neg (by omega)]
    congr 1
    omega
  · rw [if_neg h, getLsbD_rotl hr (by omega), if_pos (by omega)]
    congr 1
    omega

/-- A word that equals its own shift is zero: shifting makes every other word smaller. -/
theorem eq_zero_of_shift {s : ℕ} (hs : 0 < s) {z : BitVec w} (h : z >>> s = z) : z = 0 := by
  by_contra hz
  have hpos : 0 < z.toNat := by
    apply Nat.pos_of_ne_zero
    intro h0
    exact hz (BitVec.eq_of_toNat_eq (by simpa using h0))
  have hval : z.toNat / 2 ^ s = z.toNat := by
    conv_rhs => rw [← h]
    rw [BitVec.toNat_ushiftRight, Nat.shiftRight_eq_div_pow]
  have hlt : z.toNat / 2 ^ s < z.toNat := Nat.div_lt_self hpos (Nat.one_lt_two_pow hs.ne')
  omega

theorem xorShift_injective {s : ℕ} (hs : 0 < s) : Injective (xorShift (w := w) s) := by
  intro x y h
  have hdiff : (x ^^^ y) >>> s = x ^^^ y := by
    unfold xorShift at h
    rw [BitVec.ushiftRight_xor_distrib]
    calc x >>> s ^^^ y >>> s
        = x ^^^ (x ^^^ x >>> s) ^^^ y >>> s := by
          rw [← BitVec.xor_assoc, BitVec.xor_self, BitVec.zero_xor]
      _ = x ^^^ (y ^^^ y >>> s) ^^^ y >>> s := by rw [h]
      _ = x ^^^ y := by
          rw [BitVec.xor_assoc, BitVec.xor_assoc, BitVec.xor_self, BitVec.xor_zero]
  exact BitVec.xor_eq_zero_iff.mp (eq_zero_of_shift hs hdiff)

/-! ## Folds -/

variable {α β : Type*} {step : β → α → β}

theorem foldl_injective (hstep : ∀ a, Injective fun b => step b a) (l : List α) :
    Injective fun b => l.foldl step b := by
  induction l with
  | nil => exact injective_id
  | cons a l ih => exact ih.comp (hstep a)

theorem foldl_ne_of_item (hstep : ∀ a, Injective fun b => step b a)
    (hitem : ∀ b, Injective (step b)) {l l' : List α} {j : ℕ} (hlen : l.length = l'.length)
    (hj : l[j]? ≠ l'[j]?) (hother : ∀ i, i ≠ j → l[i]? = l'[i]?) (b : β) :
    l.foldl step b ≠ l'.foldl step b := by
  induction l generalizing l' j b with
  | nil =>
    cases l' with
    | nil => exact absurd rfl hj
    | cons a' l' => cases hlen
  | cons a l ih =>
    cases l' with
    | nil => cases hlen
    | cons a' l' =>
      cases j with
      | zero =>
        have htail : l = l' := by
          apply List.ext_getElem?
          intro i
          simpa using hother (i + 1) (Nat.succ_ne_zero i)
        subst htail
        intro h
        have hhead : a = a' := hitem b (foldl_injective hstep l h)
        exact hj (by rw [hhead])
      | succ j =>
        have hhead : a = a' := by simpa using hother 0 (Nat.succ_ne_zero j).symm
        subst hhead
        apply ih (by simpa using hlen) (by simpa using hj)
        intro i hi
        simpa using hother (i + 1) (by omega)

end CfuPlayground.Lib
