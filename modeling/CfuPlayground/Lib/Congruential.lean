import Mathlib.Data.BitVec
import Mathlib.Dynamics.PeriodicPts.Lemmas
import Mathlib.Tactic

/-!
# Linear congruential generators modulo a power of two

The step `x ↦ x * a + c` with `4 ∣ a - 1` and `c` odd. A run of `2 ^ k` steps moves every state by
`2 ^ k` times an odd number (`lcg_iterate_two_pow`): it keeps the bits below `k` and turns bit `k`
over. On words of `w` bits the period is `2 ^ w` (`minimalPeriod_lcg`). The periods of a stream
that changes after `2 ^ k` items and repeats after `2 ^ (k + 1)` are the multiples of the latter
(`repeats_iff`).
-/

namespace CfuPlayground.Lib

open Function

/-! ## The displacement -/

section Ring

variable {R : Type} [CommRing R] (a c : R)

/-- The step of the generator. -/
def lcg (x : R) : R := x * a + c

theorem lcg_iterate_add (n : ℕ) (x d : R) :
    (lcg a c)^[n] (x + d) = (lcg a c)^[n] x + d * a ^ n := by
  induction n with
  | zero => simp
  | succ n ih =>
    rw [iterate_succ_apply', iterate_succ_apply', ih, lcg, lcg, pow_succ]
    ring

variable {a c}

theorem four_dvd_pow_sub_one (ha : 4 ∣ a - 1) (n : ℕ) : 4 ∣ a ^ n - 1 := by
  have hdvd := sub_dvd_pow_sub_pow a 1 n
  rw [one_pow] at hdvd
  exact ha.trans hdvd

/-- **The displacement** after `2 ^ k` steps. -/
theorem lcg_iterate_two_pow (ha : 4 ∣ a - 1) (hc : Odd c) (k : ℕ) (x : R) :
    ∃ t, Odd t ∧ (lcg a c)^[2 ^ k] x = x + 2 ^ k * t := by
  induction k with
  | zero =>
    refine ⟨x * (a - 1) + c, ?_, ?_⟩
    · obtain ⟨u, hu⟩ := ha
      apply Even.add_odd _ hc
      rw [hu]
      exact ⟨2 * x * u, by ring⟩
    · rw [pow_zero, iterate_one, lcg]
      ring
  | succ k ih =>
    obtain ⟨t, ht, hrun⟩ := ih
    obtain ⟨u, hu⟩ := four_dvd_pow_sub_one ha (2 ^ k)
    refine ⟨t * (1 + 2 * u), ht.mul ⟨u, by ring⟩, ?_⟩
    have hpow : a ^ 2 ^ k = 1 + 4 * u := by rw [← hu]; ring
    have hdouble : 2 ^ (k + 1) = 2 ^ k + 2 ^ k := by ring
    -- the second half of the run starts at the end of the first
    rw [hdouble, iterate_add_apply, hrun, lcg_iterate_add, hrun, hpow, pow_succ]
    ring

end Ring

/-! ## Words -/

section Words

variable {w : ℕ} {a c : BitVec w}

theorem toNat_add_two_pow_mul (x t : BitVec w) (k : ℕ) :
    (x + 2 ^ k * t).toNat = (x.toNat + 2 ^ k * t.toNat) % 2 ^ w := by
  have hpow : (2 : BitVec w) ^ k = BitVec.ofNat w (2 ^ k) := by
    rw [← BitVec.natCast_eq_ofNat]
    push_cast
    rfl
  rw [hpow, BitVec.toNat_add, BitVec.toNat_mul, BitVec.toNat_ofNat]
  simp [Nat.add_mod, Nat.mul_mod]

theorem toNat_odd (hw : 0 < w) {t : BitVec w} (ht : Odd t) : t.toNat % 2 = 1 := by
  obtain ⟨s, rfl⟩ := ht
  have heven : 2 ∣ 2 ^ w := dvd_pow_self 2 hw.ne'
  have hone : (1 : BitVec w).toNat = 1 := by simp [Nat.mod_eq_of_lt (Nat.one_lt_two_pow hw.ne')]
  have hmul : (2 * s).toNat = 2 * s.toNat % 2 ^ w := by
    rw [two_mul, BitVec.toNat_add, two_mul]
  rw [BitVec.toNat_add, hmul, hone, Nat.mod_mod_of_dvd _ heven, Nat.add_mod,
    Nat.mod_mod_of_dvd _ heven, Nat.mul_mod_right]

theorem getLsbD_add_of_lt {i k : ℕ} (hi : i < k) (x t : BitVec w) :
    (x + 2 ^ k * t).getLsbD i = x.getLsbD i := by
  by_cases hw : i < w
  · have hmod : ∀ n : ℕ, (n % 2 ^ w).testBit i = n.testBit i := by
      intro n
      rw [Nat.testBit_mod_two_pow, decide_eq_true hw, Bool.true_and]
    have hlow : ∀ n : ℕ, n.testBit i = (n % 2 ^ k).testBit i := by
      intro n
      rw [Nat.testBit_mod_two_pow, decide_eq_true hi, Bool.true_and]
    rw [BitVec.getLsbD, BitVec.getLsbD, toNat_add_two_pow_mul, hmod, hlow,
      Nat.add_mul_mod_self_left, ← hlow]
  · rw [BitVec.getLsbD_of_ge _ _ (not_lt.mp hw), BitVec.getLsbD_of_ge _ _ (not_lt.mp hw)]

theorem getLsbD_add_self {k : ℕ} (hk : k < w) (x : BitVec w) {t : BitVec w} (ht : Odd t) :
    (x + 2 ^ k * t).getLsbD k = !x.getLsbD k := by
  have hodd := toNat_odd (Nat.zero_lt_of_lt hk) ht
  rw [BitVec.getLsbD, BitVec.getLsbD, toNat_add_two_pow_mul, Nat.testBit_mod_two_pow,
    decide_eq_true hk, Bool.true_and, Nat.testBit_eq_decide_div_mod_eq,
    Nat.testBit_eq_decide_div_mod_eq, Nat.add_mul_div_left _ _ (by positivity), ← decide_not,
    decide_eq_decide]
  omega

/-- **Full period.** -/
theorem minimalPeriod_lcg (ha : 4 ∣ a - 1) (hc : Odd c) (x : BitVec w) :
    minimalPeriod (lcg a c) x = 2 ^ w := by
  have hfull : IsPeriodicPt (lcg a c) (2 ^ w) x := by
    obtain ⟨t, -, hrun⟩ := lcg_iterate_two_pow ha hc w x
    apply hrun.trans
    apply BitVec.eq_of_getLsbD_eq
    intro i hi
    exact getLsbD_add_of_lt hi x t
  cases w with
  | zero => exact Nat.dvd_one.mp hfull.minimalPeriod_dvd
  | succ w =>
    have hprime : Fact (Nat.Prime 2) := ⟨Nat.prime_two⟩
    apply minimalPeriod_eq_prime_pow _ hfull
    intro hhalf
    obtain ⟨t, ht, hrun⟩ := lcg_iterate_two_pow ha hc w x
    have hbit := getLsbD_add_self (Nat.lt_succ_self w) x ht
    rw [← hrun, hhalf.eq] at hbit
    exact absurd hbit (by simp)

end Words

/-! ## Streams -/

section Streams

variable {β : Type}

/-- The stream without its first item. -/
def shift (s : ℕ → β) : ℕ → β := fun i => s (i + 1)

theorem shift_iterate (n : ℕ) (s : ℕ → β) : shift^[n] s = fun i => s (i + n) := by
  induction n with
  | zero => rfl
  | succ n ih =>
    rw [iterate_succ_apply', ih]
    funext i
    rw [shift, add_right_comm, add_assoc]

/-- A period from the index `n` on is one of the stream without its first `n` items. -/
theorem isPeriodicPt_shift_iff {n p : ℕ} {s : ℕ → β} :
    IsPeriodicPt shift p (fun i => s (n + i)) ↔ ∀ i, n ≤ i → s (i + p) = s i := by
  rw [IsPeriodicPt, IsFixedPt, shift_iterate, funext_iff]
  constructor
  · intro h i hi
    obtain ⟨j, rfl⟩ := Nat.exists_eq_add_of_le hi
    rw [add_assoc]
    exact h j
  · intro h j
    rw [← add_assoc]
    exact h (n + j) (Nat.le_add_right n j)

/-- **The periods of a stream**, from the index `n` on, that repeats after `2 ^ (k + 1)` items and
not after half of them. -/
theorem repeats_iff {s : ℕ → β} {k : ℕ} (hfull : ∀ i, s (i + 2 ^ (k + 1)) = s i)
    (hhalf : ∀ i, s (i + 2 ^ k) ≠ s i) (n p : ℕ) :
    (∀ i, n ≤ i → s (i + p) = s i) ↔ 2 ^ (k + 1) ∣ p := by
  have hprime : Fact (Nat.Prime 2) := ⟨Nat.prime_two⟩
  have hperiod : minimalPeriod shift (fun i => s (n + i)) = 2 ^ (k + 1) := by
    apply minimalPeriod_eq_prime_pow
    · exact fun h => hhalf n (isPeriodicPt_shift_iff.mp h n le_rfl)
    · exact isPeriodicPt_shift_iff.mpr fun i _ => hfull i
  rw [← hperiod, ← isPeriodicPt_iff_minimalPeriod_dvd, isPeriodicPt_shift_iff]

end Streams

end CfuPlayground.Lib
