import Mathlib.Data.Nat.Dist
import Mathlib.Tactic

/-!
# Nearest points on a lattice

A segment that rises by `dy` over `dx` columns, with `dy ≤ dx`, is followed by steps that go one
column to the right and at most one row up. Which of the two a step does is told by the sign of
`decision`, which each step updates by a constant. The rows are the nearest ones
(`rise_error`), and the last one is exact (`rise_last`). `rowAt` is the row of a segment that rises
or falls.
-/

namespace CfuPlayground.Lib

variable (dx dy : ℕ)

/-- The row after `k` columns. -/
def rise : ℕ → ℕ
  | 0 => 0
  | k + 1 => if 2 * dy * (k + 1) ≤ dx * (2 * rise k + 1) then rise k else rise k + 1

/-- Twice the height of the segment in the next column over the middle between the two rows, in
units of `1 / dx`. -/
def decision (k : ℕ) : ℤ := 2 * dy * (k + 1) - dx * (2 * rise dx dy k + 1)

theorem decision_zero : decision dx dy 0 = 2 * dy - dx := by
  rw [decision, rise]
  push_cast
  ring

theorem decision_nonpos_iff (k : ℕ) :
    decision dx dy k ≤ 0 ↔ 2 * dy * (k + 1) ≤ dx * (2 * rise dx dy k + 1) := by
  rw [decision]
  zify
  constructor
  · intro h
    linarith
  · intro h
    linarith

variable {dx dy}

theorem rise_succ_of_nonpos {k : ℕ} (h : decision dx dy k ≤ 0) :
    rise dx dy (k + 1) = rise dx dy k := by
  rw [rise, if_pos ((decision_nonpos_iff dx dy k).mp h)]

theorem rise_succ_of_pos {k : ℕ} (h : 0 < decision dx dy k) :
    rise dx dy (k + 1) = rise dx dy k + 1 := by
  rw [rise, if_neg fun hle => absurd ((decision_nonpos_iff dx dy k).mpr hle) (not_le.mpr h)]

theorem decision_succ_of_nonpos {k : ℕ} (h : decision dx dy k ≤ 0) :
    decision dx dy (k + 1) = decision dx dy k + 2 * dy := by
  rw [decision, rise_succ_of_nonpos h, decision]
  push_cast
  ring

theorem decision_succ_of_pos {k : ℕ} (h : 0 < decision dx dy k) :
    decision dx dy (k + 1) = decision dx dy k + 2 * (dy - dx) := by
  rw [decision, rise_succ_of_pos h, decision]
  push_cast
  ring

theorem rise_succ (k : ℕ) : rise dx dy (k + 1) = rise dx dy k ∨
    rise dx dy (k + 1) = rise dx dy k + 1 := by
  rcases le_or_gt (decision dx dy k) 0 with h | h
  · exact Or.inl (rise_succ_of_nonpos h)
  · exact Or.inr (rise_succ_of_pos h)

theorem decision_eq (k : ℕ) :
    decision dx dy k = 2 * (dy * k - dx * rise dx dy k) + 2 * dy - dx := by
  rw [decision]
  ring

/-- **The rows are the nearest ones**: no more than half a row away from the segment. -/
theorem rise_error (h : dy ≤ dx) (k : ℕ) :
    -(dx : ℤ) ≤ 2 * (dy * k - dx * rise dx dy k) ∧ 2 * (dy * k - dx * rise dx dy k) ≤ (dx : ℤ) := by
  induction k with
  | zero =>
    rw [rise]
    push_cast
    constructor
    · linarith [Int.natCast_nonneg dx]
    · linarith [Int.natCast_nonneg dx]
  | succ k ih =>
    obtain ⟨hlo, hhi⟩ := ih
    have hle : (dy : ℤ) ≤ dx := by exact_mod_cast h
    have hdy := Int.natCast_nonneg dy
    have hdec := @decision_eq dx dy k
    rcases le_or_gt (decision dx dy k) 0 with hd | hd
    · rw [rise_succ_of_nonpos hd]
      push_cast
      constructor
      · linarith
      · linarith
    · rw [rise_succ_of_pos hd]
      push_cast
      constructor
      · linarith
      · linarith

theorem rise_last (hdx : 0 < dx) (h : dy ≤ dx) : rise dx dy dx = dy := by
  obtain ⟨hlo, hhi⟩ := rise_error h dx
  have hpos : (0 : ℤ) < dx := by exact_mod_cast hdx
  have hfactor : 2 * ((dy : ℤ) * dx - dx * rise dx dy dx) = dx * (2 * (dy - rise dx dy dx)) := by
    ring
  rw [hfactor] at hlo hhi
  have hlo' : -1 ≤ 2 * ((dy : ℤ) - rise dx dy dx) := by nlinarith
  have hhi' : 2 * ((dy : ℤ) - rise dx dy dx) ≤ 1 := by nlinarith
  omega

theorem rise_le (hdx : 0 < dx) (h : dy ≤ dx) {k : ℕ} (hk : k ≤ dx) : rise dx dy k ≤ dy := by
  have hmono : Monotone (rise dx dy) := by
    apply monotone_nat_of_le_succ
    intro n
    rcases @rise_succ dx dy n with hn | hn
    · exact hn.ge
    · rw [hn]
      exact Nat.le_succ _
  exact (hmono hk).trans_eq (rise_last hdx h)

theorem decision_bounds (h : dy ≤ dx) (k : ℕ) :
    2 * (dy : ℤ) - 2 * dx ≤ decision dx dy k ∧ decision dx dy k ≤ 2 * dy := by
  obtain ⟨hlo, hhi⟩ := rise_error h k
  rw [decision_eq]
  constructor
  · linarith
  · linarith

/-! ## Segments that rise or fall -/

/-- The row in column `k` of a segment over `n` columns from row `a` to row `b`. -/
def rowAt (a b n k : ℕ) : ℕ := if b < a then a - rise n (a - b) k else a + rise n (b - a) k

variable {a b n k : ℕ}

theorem rowAt_zero : rowAt a b n 0 = a := by
  rw [rowAt, rise, rise]
  split_ifs
  · rfl
  · rfl

theorem rowAt_last (hn : 0 < n) (h : Nat.dist a b ≤ n) : rowAt a b n n = b := by
  rw [Nat.dist] at h
  rw [rowAt, rise_last hn (by omega), rise_last hn (by omega)]
  split_ifs
  · omega
  · omega

theorem rowAt_mem (hn : 0 < n) (h : Nat.dist a b ≤ n) (hk : k ≤ n) :
    min a b ≤ rowAt a b n k ∧ rowAt a b n k ≤ max a b := by
  rw [Nat.dist] at h
  have hfall := rise_le hn (by omega : a - b ≤ n) hk
  have hrise := rise_le hn (by omega : b - a ≤ n) hk
  rw [rowAt]
  split_ifs
  · omega
  · omega

theorem rowAt_succ (a b n k : ℕ) : Nat.dist (rowAt a b n k) (rowAt a b n (k + 1)) ≤ 1 := by
  have hfall := @rise_succ n (a - b) k
  have hrise := @rise_succ n (b - a) k
  rw [Nat.dist, rowAt, rowAt]
  split_ifs
  · omega
  · omega

theorem rowAt_error (hn : 0 < n) (h : Nat.dist a b ≤ n) (hk : k ≤ n) :
    |2 * n * ((rowAt a b n k : ℤ) - a) - 2 * (b - a) * k| ≤ n := by
  rw [Nat.dist] at h
  rw [abs_le, rowAt]
  split_ifs with hab
  · have hle := rise_le hn (by omega : a - b ≤ n) hk
    obtain ⟨hlo, hhi⟩ := rise_error (by omega : a - b ≤ n) k
    rw [Nat.cast_sub hab.le] at hlo hhi
    rw [Nat.cast_sub (by omega)]
    constructor
    · linarith
    · linarith
  · obtain ⟨hlo, hhi⟩ := rise_error (by omega : b - a ≤ n) k
    rw [Nat.cast_sub (by omega)] at hlo hhi
    push_cast
    constructor
    · linarith
    · linarith

theorem rowAt_near (hn : 0 < n) (h : Nat.dist a b ≤ n) (hk : k ≤ n) :
    |(rowAt a b n k : ℚ) - (a + (b - a) * k / n)| ≤ 1 / 2 := by
  have hpos : (0 : ℚ) < 2 * n := by
    have hcast : (0 : ℚ) < n := by exact_mod_cast hn
    linarith
  have herror : |2 * (n : ℚ) * (rowAt a b n k - a) - 2 * (b - a) * k| ≤ n := by
    exact_mod_cast rowAt_error hn h hk
  have heq : (rowAt a b n k : ℚ) - (a + (b - a) * k / n) =
      (2 * (n : ℚ) * (rowAt a b n k - a) - 2 * (b - a) * k) / (2 * n) := by
    have hne : (n : ℚ) ≠ 0 := by exact_mod_cast hn.ne'
    field_simp
    ring
  rw [heq, abs_div, abs_of_pos hpos, div_le_iff₀ hpos]
  linarith

end CfuPlayground.Lib
