import Mathlib.Data.BitVec
import CfuPlayground.Lib.Bytes

/-!
# Copying and filling memory word by word

Both go upwards, one word after the other. A copy to a place behind its source reads words that it
has written before if the two overlap; `copyWords_iff` is the exact condition under which it
copies what was there.
-/

namespace CfuPlayground.Lib

/-- Copy `n` words from `src` to `dst`. -/
def copyWords (mem : ByteMemory) (src dst : BitVec 32) : ℕ → ByteMemory
  | 0 => mem
  | n + 1 =>
    storeWord (copyWords mem src dst n) (dst + BitVec.ofNat 32 (4 * n))
      (loadWord (copyWords mem src dst n) (src + BitVec.ofNat 32 (4 * n)))

/-- Store `v` in the `n` words from `dst` on. -/
def fillWords (mem : ByteMemory) (dst v : BitVec 32) : ℕ → ByteMemory
  | 0 => mem
  | n + 1 => storeWord (fillWords mem dst v n) (dst + BitVec.ofNat 32 (4 * n)) v

variable {mem : ByteMemory} {src dst v x : BitVec 32} {n k : ℕ}

theorem toNat_word (hk : k < 2 ^ 32) : (BitVec.ofNat 32 k).toNat = k := by
  rw [BitVec.toNat_ofNat, Nat.mod_eq_of_lt hk]

theorem toNat_sub_add (a x : BitVec 32) {b : ℕ} (hb : b < 2 ^ 32) :
    (x - (a + BitVec.ofNat 32 b)).toNat =
      if b ≤ (x - a).toNat then (x - a).toNat - b else 2 ^ 32 + (x - a).toNat - b := by
  have hx : x - (a + BitVec.ofNat 32 b) = x - a - BitVec.ofNat 32 b := by ring
  rw [hx, BitVec.toNat_sub, toNat_word hb]
  split_ifs <;> omega

theorem copyWords_apply (hx : 4 * n ≤ (x - dst).toNat) : copyWords mem src dst n x = mem x := by
  induction n with
  | zero => rfl
  | succ n ih =>
    have hfar : 4 ≤ (x - (dst + BitVec.ofNat 32 (4 * n))).toNat := by
      rw [toNat_sub_add _ _ (by omega)]
      split_ifs <;> omega
    rw [copyWords, storeWord_apply _ _ hfar, ih (by omega)]

theorem fillWords_apply (hx : 4 * n ≤ (x - dst).toNat) : fillWords mem dst v n x = mem x := by
  induction n with
  | zero => rfl
  | succ n ih =>
    have hfar : 4 ≤ (x - (dst + BitVec.ofNat 32 (4 * n))).toNat := by
      rw [toNat_sub_add _ _ (by omega)]
      split_ifs <;> omega
    rw [fillWords, storeWord_apply _ _ hfar, ih (by omega)]

theorem toNat_add_sub (hk : k < 2 ^ 32) : (dst + BitVec.ofNat 32 k - dst).toNat = k := by
  rw [BitVec.add_comm, BitVec.add_sub_cancel, toNat_word hk]

theorem copyWords_last (hlo : 4 * n ≤ k) (hhi : k < 4 * (n + 1)) :
    copyWords mem src dst (n + 1) (dst + BitVec.ofNat 32 k) =
      copyWords mem src dst n (src + BitVec.ofNat 32 k) := by
  have hsplit : ∀ a : BitVec 32, a + BitVec.ofNat 32 k =
      a + BitVec.ofNat 32 (4 * n) + BitVec.ofNat 32 (k - 4 * n) := by
    intro a
    rw [BitVec.add_assoc, ← BitVec.ofNat_add, Nat.add_sub_cancel' hlo]
  rw [copyWords, hsplit dst, storeWord_byte _ (by omega), lane_loadWord (by omega), ← hsplit]

theorem copyWords_stable (hn : 4 * n ≤ 2 ^ 32) (hk : k < 4 * n) :
    copyWords mem src dst n (dst + BitVec.ofNat 32 k) =
      copyWords mem src dst (k / 4) (src + BitVec.ofNat 32 k) := by
  induction n with
  | zero => omega
  | succ n ih =>
    by_cases hlast : 4 * n ≤ k
    · rw [copyWords_last hlast hk, show k / 4 = n by omega]
    · have hfar : 4 ≤ (dst + BitVec.ofNat 32 k - (dst + BitVec.ofNat 32 (4 * n))).toNat := by
        rw [toNat_sub_add _ _ (by omega), toNat_add_sub (by omega)]
        rw [if_neg (by omega)]
        omega
      rw [copyWords, storeWord_apply _ _ hfar, ih (by omega) (by omega)]

/-- If nothing is read behind a word written before, the copy is what was there. -/
theorem copyWords_copies (hn : 4 * n ≤ 2 ^ 32)
    (h : dst = src ∨ 4 * n ≤ (dst - src).toNat) (hk : k < 4 * n) :
    copyWords mem src dst n (dst + BitVec.ofNat 32 k) = mem (src + BitVec.ofNat 32 k) := by
  rw [copyWords_stable hn hk]
  refine copyWords_apply ?_
  rcases h with rfl | h
  · rw [toNat_add_sub (by omega)]
    omega
  · have hsub : src + BitVec.ofNat 32 k - dst = BitVec.ofNat 32 k - (dst - src) := by ring
    rw [hsub, BitVec.toNat_sub, toNat_word (by omega)]
    have hlt := (dst - src).isLt
    omega

/-- **When a copy upwards copies.** `n` words, at a distance of a number of words. -/
theorem copyWords_iff (hn : 4 * n ≤ 2 ^ 32) (h4 : (dst - src).toNat % 4 = 0) :
    (∀ mem : ByteMemory, ∀ k < 4 * n,
        copyWords mem src dst n (dst + BitVec.ofNat 32 k) = mem (src + BitVec.ofNat 32 k)) ↔
      dst = src ∨ 4 * n ≤ (dst - src).toNat := by
  refine ⟨fun h => ?_, fun h mem k hk => copyWords_copies hn h hk⟩
  by_contra hc
  rw [not_or, not_le] at hc
  obtain ⟨hne, hlt⟩ := hc
  have hadd : src + (dst - src) = dst := by ring
  have hdist : BitVec.ofNat 32 (dst - src).toNat = dst - src := by
    rw [BitVec.ofNat_toNat, BitVec.setWidth_eq]
  have hpos : 0 < (dst - src).toNat := by
    by_contra h0
    have hzero : dst - src = 0 := BitVec.eq_of_toNat_eq (by simpa using h0)
    exact hne (by rw [← hadd, hzero, add_zero])
  -- the first byte of the source comes back at the distance
  have hcopy := h (fun x => if x = src then 1 else 0) (dst - src).toNat hlt
  rw [copyWords_stable hn hlt, hdist, hadd, if_neg hne] at hcopy
  have hfirst : copyWords (fun x => if x = src then 1 else 0) src dst ((dst - src).toNat / 4)
      (dst + BitVec.ofNat 32 0) = if src + BitVec.ofNat 32 0 = src then 1 else 0 :=
    copyWords_copies (by omega) (.inr (by omega)) (by omega)
  rw [BitVec.add_zero, BitVec.add_zero, if_pos rfl] at hfirst
  rw [hfirst] at hcopy
  cases hcopy

theorem fillWords_fills (hn : 4 * n ≤ 2 ^ 32) (hk : k < 4 * n) :
    fillWords mem dst v n (dst + BitVec.ofNat 32 k) = lane v (k % 4) := by
  induction n with
  | zero => omega
  | succ n ih =>
    rw [fillWords]
    by_cases hlast : 4 * n ≤ k
    · have hsplit : dst + BitVec.ofNat 32 k =
          dst + BitVec.ofNat 32 (4 * n) + BitVec.ofNat 32 (k % 4) := by
        rw [BitVec.add_assoc, ← BitVec.ofNat_add, show 4 * n + k % 4 = k by omega]
      rw [hsplit, storeWord_byte _ (Nat.mod_lt _ (by decide))]
    · have hfar : 4 ≤ (dst + BitVec.ofNat 32 k - (dst + BitVec.ofNat 32 (4 * n))).toNat := by
        rw [toNat_sub_add _ _ (by omega), toNat_add_sub (by omega)]
        rw [if_neg (by omega)]
        omega
      rw [storeWord_apply _ _ hfar, ih (by omega) (by omega)]

end CfuPlayground.Lib
