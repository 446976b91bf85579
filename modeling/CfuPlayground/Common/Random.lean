import CfuPlayground.Lib.Congruential

/-!
# The pseudo random generator

`next_pseudo_random` of `playground_util` is a linear congruential generator on 64 bits whose
constants satisfy the conditions for the full period. `tflite_randomize_input` fills the input
with bits 28 to 35 of its states, a stream that repeats after `2 ^ 36` bytes and not before
(`full_period`).
-/

namespace CfuPlayground.Common

open Function Lib

/-! ## The source -/

def randA : BitVec 64 := 6364136223846793005#64

def randC : BitVec 64 := 1442695040888963407#64

/-- `next_pseudo_random`: the new state and the result. The arithmetic wraps. -/
def nextPseudoRandom (r : BitVec 64) : BitVec 64 × BitVec 32 :=
  let r := r * randA + randC
  (r, (r.sshiftRight 28).setWidth 32)

/-- The body of the loop of `tflite_randomize_input`. -/
def randomizeByte (st : BitVec 64 × List (BitVec 8)) (i : ℕ) : BitVec 64 × List (BitVec 8) :=
  let (r, value) := nextPseudoRandom st.1
  (r, st.2.set i (value.setWidth 8))

/-- `tflite_randomize_input`, on the bytes of the input tensor. -/
def tfliteRandomizeInput (seed : BitVec 64) (input : List (BitVec 8)) : List (BitVec 8) :=
  ((List.range input.length).foldl randomizeByte (seed, input)).2

/-! ## States -/

/-- The state after `n` calls. -/
def stateAfter (seed : BitVec 64) (n : ℕ) : BitVec 64 := (fun r => (nextPseudoRandom r).1)^[n] seed

theorem stateAfter_eq (seed : BitVec 64) (n : ℕ) :
    stateAfter seed n = (lcg randA randC)^[n] seed := rfl

theorem stateAfter_succ (seed : BitVec 64) (n : ℕ) :
    stateAfter seed (n + 1) = (nextPseudoRandom (stateAfter seed n)).1 :=
  iterate_succ_apply' _ n seed

theorem stateAfter_add (seed : BitVec 64) (m n : ℕ) :
    stateAfter seed (m + n) = (lcg randA randC)^[n] (stateAfter seed m) := by
  rw [stateAfter_eq, stateAfter_eq, add_comm, iterate_add_apply]

theorem four_dvd_randA_sub_one : 4 ∣ randA - 1 := ⟨1591034055961698251#64, by decide⟩

theorem odd_randC : Odd randC := ⟨721347520444481703#64, by decide⟩

theorem minimalPeriod_state (seed : BitVec 64) :
    minimalPeriod (fun r => (nextPseudoRandom r).1) seed = 2 ^ 64 :=
  minimalPeriod_lcg four_dvd_randA_sub_one odd_randC seed

/-! ## Bytes -/

/-- The byte that call `i` gives. -/
def byteStream (seed : BitVec 64) (i : ℕ) : BitVec 8 :=
  (nextPseudoRandom (stateAfter seed i)).2.setWidth 8

theorem getLsbD_byteStream (seed : BitVec 64) (i : ℕ) {j : ℕ} (hj : j < 8) :
    (byteStream seed i).getLsbD j = (stateAfter seed (i + 1)).getLsbD (28 + j) := by
  have hin : 28 + j < 64 := by omega
  have hword : ¬ 64 ≤ j := by omega
  rw [byteStream, stateAfter_succ, nextPseudoRandom]
  simp [BitVec.getLsbD_sshiftRight, hj, hin, hword]

theorem randomize_loop (seed : BitVec 64) (input : List (BitVec 8)) {n : ℕ}
    (hn : n ≤ input.length) :
    (List.range n).foldl randomizeByte (seed, input) =
      (stateAfter seed n, (List.range n).map (byteStream seed) ++ input.drop n) := by
  induction n with
  | zero => rfl
  | succ n ih =>
    have hdrop : input.drop n = input[n] :: input.drop (n + 1) := List.drop_eq_getElem_cons hn
    have hlen : ((List.range n).map (byteStream seed)).length = n := by simp
    rw [List.range_succ, List.foldl_append, ih (Nat.le_of_succ_le hn), List.foldl_cons,
      List.foldl_nil, List.map_append, List.map_singleton]
    apply Prod.ext
    · exact (stateAfter_succ seed n).symm
    · change (_ ++ input.drop n).set n (byteStream seed n) = _
      rw [List.set_append_right _ _ hlen.le, hlen, Nat.sub_self, hdrop, List.set_cons_zero,
        List.append_assoc]
      rfl

theorem tfliteRandomizeInput_eq (seed : BitVec 64) (input : List (BitVec 8)) :
    tfliteRandomizeInput seed input = (List.range input.length).map (byteStream seed) := by
  rw [tfliteRandomizeInput, randomize_loop seed input le_rfl, List.drop_length, List.append_nil]

theorem byteStream_add_full (seed : BitVec 64) (i : ℕ) :
    byteStream seed (i + 2 ^ 36) = byteStream seed i := by
  obtain ⟨t, -, hrun⟩ := lcg_iterate_two_pow four_dvd_randA_sub_one odd_randC 36
    (stateAfter seed (i + 1))
  apply BitVec.eq_of_getLsbD_eq
  intro j hj
  rw [getLsbD_byteStream _ _ hj, getLsbD_byteStream _ _ hj, add_right_comm, stateAfter_add, hrun,
    getLsbD_add_of_lt (by omega)]

theorem byteStream_add_half (seed : BitVec 64) (i : ℕ) :
    byteStream seed (i + 2 ^ 35) ≠ byteStream seed i := by
  obtain ⟨t, ht, hrun⟩ := lcg_iterate_two_pow four_dvd_randA_sub_one odd_randC 35
    (stateAfter seed (i + 1))
  intro h
  have hbit := congrArg (BitVec.getLsbD · 7) h
  simp only [getLsbD_byteStream _ _ (show 7 < 8 by decide)] at hbit
  rw [add_right_comm, stateAfter_add, hrun, getLsbD_add_self (by decide) _ ht] at hbit
  exact absurd hbit (by simp)

/-- **Full period**: the state returns to the seed after `2 ^ 64` calls and not before, and the
bytes of the input repeat, from any one of them on, after the multiples of `2 ^ 36` only. -/
theorem full_period (seed : BitVec 64) :
    (stateAfter seed (2 ^ 64) = seed ∧ ∀ n, 0 < n → n < 2 ^ 64 → stateAfter seed n ≠ seed) ∧
    ∃ stream : ℕ → BitVec 8,
      (∀ input, tfliteRandomizeInput seed input = (List.range input.length).map stream) ∧
      ∀ n p, (∀ i, n ≤ i → stream (i + p) = stream i) ↔ 2 ^ 36 ∣ p := by
  have hperiod := minimalPeriod_state seed
  refine ⟨⟨?_, fun n hpos hlt h => ?_⟩, byteStream seed, tfliteRandomizeInput_eq seed, ?_⟩
  · rw [← hperiod]
    exact iterate_minimalPeriod
  · rw [← hperiod] at hlt
    exact not_isPeriodicPt_of_pos_of_lt_minimalPeriod hpos.ne' hlt h
  · exact repeats_iff (byteStream_add_full seed) (byteStream_add_half seed)

end CfuPlayground.Common
