import Mathlib.Tactic

/-!
# Reading a running counter in two halves

A counter of `B * B` states that counts up is read as the high half, the low half and the high
half again. If the two high halves agree, they belong to the low half (`halves_eq`); if they do
not, they will the next time, unless that is `B` ticks later (`high_eq_of_ne`).
-/

namespace CfuPlayground.Lib

variable {B c d e : ℕ}

/-- The high halves before and after, without the wrap of the counter in between. -/
theorem no_wrap (hB : 0 < B) (hc : c < B * B) (hd : d < B * B)
    (h : (c + d) % (B * B) / B = c / B) (hlt : d + B ≤ B * B) : c + d < B * B := by
  by_contra hn
  rw [not_lt] at hn
  have hmod : (c + d) % (B * B) = c + d - B * B := by
    rw [Nat.mod_eq_sub_mod hn, Nat.mod_eq_of_lt (by omega)]
  have hlow : c + d - B * B + B ≤ c := by omega
  rw [hmod] at h
  have hstep := Nat.div_le_div_right (c := B) hlow
  rw [Nat.add_div_right _ hB] at hstep
  omega

/-- **The halves belong together.** The counter stands at `c` for the first read, moves on by `d`
to the last, and by `e` to the one in between. -/
theorem halves_eq (hB : 0 < B) (hc : c < B * B) (he : e ≤ d) (hlt : d + B ≤ B * B)
    (h : (c + d) % (B * B) / B = c / B) :
    c / B * B + (c + e) % (B * B) % B = (c + e) % (B * B) := by
  have hwrap := no_wrap hB hc (by omega) h hlt
  rw [Nat.mod_eq_of_lt hwrap] at h
  rw [Nat.mod_eq_of_lt (by omega : c + e < B * B)]
  have hlo : c / B ≤ (c + e) / B := Nat.div_le_div_right (by omega)
  have hhi : (c + e) / B ≤ (c + d) / B := Nat.div_le_div_right (by omega)
  have hmid : (c + e) / B = c / B := by omega
  rw [← hmid, mul_comm]
  exact Nat.div_add_mod (c + e) B

/-- **The next time they agree.** The high half has changed by the time `d`, and stays up to the
time `e`, less than `B` ticks after the beginning. -/
theorem high_eq_of_ne (hB : 0 < B) (hc : c < B * B) (hde : d ≤ e) (he : e < B)
    (hne : (c + d) % (B * B) / B ≠ c / B) :
    (c + e) % (B * B) / B = (c + d) % (B * B) / B := by
  have hBB : B ≤ B * B := Nat.le_mul_of_pos_left B hB
  have hsplit : c = B * (c / B) + c % B := (Nat.div_add_mod c B).symm
  have hmod : c % B < B := Nat.mod_lt c hB
  have hq : c / B < B := Nat.div_lt_of_lt_mul hc
  -- the low half overflows between the reads
  have hover : ∀ f, f < B → B ≤ c % B + f → (c + f) % (B * B) / B = (c / B + 1) % B := by
    intro f hf hof
    have hval : c + f = B * (c / B + 1) + (c % B + f - B) := by
      rw [mul_add, mul_one]
      omega
    rw [Nat.mod_mul_right_div_self, hval, Nat.mul_add_div hB,
      Nat.div_eq_of_lt (by omega : c % B + f - B < B), add_zero]
  have hd : B ≤ c % B + d := by
    by_contra hn
    refine hne ?_
    have hval : c + d = B * (c / B) + (c % B + d) := by omega
    rw [Nat.mod_mul_right_div_self, hval, Nat.mul_add_div hB,
      Nat.div_eq_of_lt (by omega : c % B + d < B), add_zero, Nat.mod_eq_of_lt hq]
  rw [hover d (by omega) hd, hover e he (by omega)]

end CfuPlayground.Lib
