import Mathlib.Tactic

/-!
# Restoring division

A remainder and a numerator of `w` bits. A step shifts the top bit of the numerator into the
remainder, subtracts the denominator if it fits, and shifts the bit of the quotient into the
numerator from below. After `w` steps the numerator is the quotient. Dividing by 0 needs no case of
its own: 0 always fits, so the quotient is all ones and the remainder is the dividend.
-/

namespace CfuPlayground.Lib

/-- The quotient with `k` bits. -/
def quotientBits (d k n : ℕ) : ℕ := if d = 0 then 2 ^ k - 1 else n / d

/-- The next bit of the quotient: whether `d` fits into the shifted remainder. -/
def divideBit (d r b : ℕ) : ℕ := if d ≤ 2 * r + b then 1 else 0

/-- The next remainder. -/
def divideRemainder (d r b : ℕ) : ℕ := if d ≤ 2 * r + b then 2 * r + b - d else 2 * r + b

/-- The dividend `n` after `k` steps. -/
structure Dividing (w n d k r q : ℕ) : Prop where
  remainder : r = n / 2 ^ (w - k) % d
  numerator : q = n % 2 ^ (w - k) * 2 ^ k + quotientBits d k (n / 2 ^ (w - k))

variable {w n d k r q b : ℕ}

/-! ## One bit -/

theorem quotientBits_lt (hn : n < 2 ^ k) : quotientBits d k n < 2 ^ k := by
  unfold quotientBits
  split_ifs
  · exact Nat.sub_lt (Nat.two_pow_pos k) Nat.one_pos
  · exact (Nat.div_le_self n d).trans_lt hn

theorem shift_split : 2 * n + b = 2 * (n % d) + b + d * (2 * (n / d)) := by
  have hn := Nat.mod_add_div n d
  linear_combination 2 * hn.symm

theorem divideBit_eq (hr : r < d) (hb : b < 2) :
    (2 * r + b) / d = divideBit d r b := by
  unfold divideBit
  split_ifs with hfit
  · exact Nat.div_eq_of_lt_le (by omega) (by omega)
  · exact Nat.div_eq_of_lt (by omega)

theorem divideRemainder_eq_mod (hr : r < d) (hb : b < 2) :
    (2 * r + b) % d = divideRemainder d r b := by
  unfold divideRemainder
  split_ifs with hfit
  · rw [Nat.mod_eq_sub_mod hfit, Nat.mod_eq_of_lt (by omega)]
  · exact Nat.mod_eq_of_lt (by omega)

/-- **One more bit of the quotient.** -/
theorem quotientBits_succ (hb : b < 2) : quotientBits d (k + 1) (2 * n + b) =
    2 * quotientBits d k n + divideBit d (n % d) b := by
  unfold quotientBits
  rcases Nat.eq_zero_or_pos d with rfl | hd
  · have hpos := Nat.two_pow_pos k
    simp only [divideBit, if_true, Nat.zero_le, pow_succ]
    omega
  · rw [if_neg hd.ne', if_neg hd.ne', shift_split (d := d), Nat.add_mul_div_left _ _ hd,
      divideBit_eq (Nat.mod_lt n hd) hb, add_comm]

/-- **One more bit of the remainder.** -/
theorem divideRemainder_eq (hb : b < 2) :
    divideRemainder d (n % d) b = (2 * n + b) % d := by
  rcases Nat.eq_zero_or_pos d with rfl | hd
  · simp [divideRemainder]
  · rw [shift_split (d := d) (n := n), Nat.add_mul_mod_self_left,
      divideRemainder_eq_mod (Nat.mod_lt n hd) hb]

/-! ## The registers -/

theorem dividing_start (hn : n < 2 ^ w) : Dividing w n d 0 0 n where
  remainder := by simp [Nat.div_eq_of_lt hn]
  numerator := by
    rw [Nat.sub_zero, Nat.mod_eq_of_lt hn, Nat.div_eq_of_lt hn]
    simp [quotientBits]

theorem two_pow_split (hk : k < w) : 2 ^ (w - k) = 2 * 2 ^ (w - (k + 1)) := by
  rw [← pow_succ']
  congr 1
  omega

theorem div_two_pow_succ (hk : k < w) : n / 2 ^ (w - (k + 1)) =
    2 * (n / 2 ^ (w - k)) + n / 2 ^ (w - (k + 1)) % 2 := by
  have hdiv : n / 2 ^ (w - k) = n / 2 ^ (w - (k + 1)) / 2 := by
    rw [two_pow_split hk, mul_comm, Nat.div_div_eq_div_mul]
  omega

theorem mod_two_pow_succ (hk : k < w) : n % 2 ^ (w - k) =
    n % 2 ^ (w - (k + 1)) + 2 ^ (w - (k + 1)) * (n / 2 ^ (w - (k + 1)) % 2) := by
  rw [two_pow_split hk, mul_comm 2, Nat.mod_mul]

theorem Dividing.quotient_lt (hn : n < 2 ^ w) (hk : k ≤ w) :
    quotientBits d k (n / 2 ^ (w - k)) < 2 ^ k := by
  refine quotientBits_lt ((Nat.div_lt_iff_lt_mul (Nat.two_pow_pos _)).mpr ?_)
  rwa [← pow_add, Nat.add_sub_cancel' hk]

theorem two_pow_pred (hk : k < w) : 2 ^ (w - 1) = 2 ^ (w - (k + 1)) * 2 ^ k := by
  rw [← pow_add]
  congr 1
  omega

theorem Dividing.numerator_eq (h : Dividing w n d k r q) (hk : k < w) :
    q = n / 2 ^ (w - (k + 1)) % 2 * 2 ^ (w - 1) +
      (n % 2 ^ (w - (k + 1)) * 2 ^ k + quotientBits d k (n / 2 ^ (w - k))) := by
  rw [h.numerator, mod_two_pow_succ hk, two_pow_pred hk]
  ring

theorem Dividing.rest_lt (hn : n < 2 ^ w) (hk : k < w) :
    n % 2 ^ (w - (k + 1)) * 2 ^ k + quotientBits d k (n / 2 ^ (w - k)) < 2 ^ (w - 1) := by
  have hquot := quotient_lt (d := d) hn hk.le
  have hrest : n % 2 ^ (w - (k + 1)) + 1 ≤ 2 ^ (w - (k + 1)) :=
    Nat.mod_lt n (Nat.two_pow_pos _)
  calc n % 2 ^ (w - (k + 1)) * 2 ^ k + quotientBits d k (n / 2 ^ (w - k))
      < n % 2 ^ (w - (k + 1)) * 2 ^ k + 2 ^ k := Nat.add_lt_add_left hquot _
    _ = (n % 2 ^ (w - (k + 1)) + 1) * 2 ^ k := by ring
    _ ≤ 2 ^ (w - (k + 1)) * 2 ^ k := Nat.mul_le_mul_right _ hrest
    _ = 2 ^ (w - 1) := (two_pow_pred hk).symm

theorem Dividing.top (h : Dividing w n d k r q) (hn : n < 2 ^ w) (hk : k < w) :
    q / 2 ^ (w - 1) = n / 2 ^ (w - (k + 1)) % 2 := by
  rw [h.numerator_eq hk, add_comm, Nat.add_mul_div_right _ _ (Nat.two_pow_pos _),
    Nat.div_eq_of_lt (rest_lt hn hk), zero_add]

/-- **Step lemma.** -/
theorem Dividing.step (h : Dividing w n d k r q) (hn : n < 2 ^ w) (hk : k < w) :
    Dividing w n d (k + 1) (divideRemainder d r (q / 2 ^ (w - 1)))
      (2 * q % 2 ^ w + divideBit d r (q / 2 ^ (w - 1))) := by
  have hb : n / 2 ^ (w - (k + 1)) % 2 < 2 := Nat.mod_lt _ (by decide)
  have hw : 2 ^ w = 2 * 2 ^ (w - 1) := two_pow_split (k := 0) (by omega)
  have hshift : 2 * q % 2 ^ w =
      2 * (n % 2 ^ (w - (k + 1)) * 2 ^ k + quotientBits d k (n / 2 ^ (w - k))) := by
    rw [hw, Nat.mul_mod_mul_left, h.numerator_eq hk, Nat.mul_add_mod_self_right,
      Nat.mod_eq_of_lt (rest_lt hn hk)]
  rw [h.top hn hk]
  constructor
  · rw [h.remainder, divideRemainder_eq hb, ← div_two_pow_succ hk]
  · have hbits := quotientBits_succ (d := d) (k := k) (n := n / 2 ^ (w - k)) hb
    rw [← div_two_pow_succ hk, ← h.remainder] at hbits
    rw [hbits, hshift]
    ring

theorem Dividing.shifted_lt (h : Dividing w n d k r q) (hn : n < 2 ^ w) (hk : k < w)
    (hb : b < 2) : 2 * r + b < d + 2 ^ w := by
  have hw : 2 ^ w = 2 * 2 ^ (w - 1) := two_pow_split (k := 0) (by omega)
  have hlt : n / 2 ^ (w - k) < 2 ^ k := by
    refine (Nat.div_lt_iff_lt_mul (Nat.two_pow_pos _)).mpr ?_
    rwa [← pow_add, Nat.add_sub_cancel' hk.le]
  have hle : 2 ^ k ≤ 2 ^ (w - 1) := Nat.pow_le_pow_right (by decide) (by omega)
  have hr := h.remainder
  rcases Nat.eq_zero_or_pos d with rfl | hd
  · rw [Nat.mod_zero] at hr
    omega
  · have hmod := Nat.mod_lt (n / 2 ^ (w - k)) hd
    have hmod_le := Nat.mod_le (n / 2 ^ (w - k)) d
    omega

/-- **Run lemma's end.** After `w` steps. -/
theorem Dividing.finish (h : Dividing w n d w r q) : r = n % d ∧ q = quotientBits d w n := by
  have hr := h.remainder
  have hq := h.numerator
  rw [Nat.sub_self, pow_zero, Nat.div_one] at hr hq
  rw [Nat.mod_one, zero_mul, zero_add] at hq
  exact ⟨hr, hq⟩

end CfuPlayground.Lib
