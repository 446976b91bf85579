import Mathlib.Data.Int.Bitwise
import Mathlib.Data.Nat.Log
import CfuPlayground.Lib.Digits

/-!
# Sums and packed words

`tree_sum`, `all_words` and `pack_vals` of `util.py`. A sum over a tree needs a recursion as deep
as the logarithm of the length, and has none for the empty list (`treeSum_eq`). A packed number is
the number whose digits to the base `2 ^ bits` are the masked values (`packVals_eq`), so splitting
and packing undo each other.
-/

namespace CfuPlayground.AmaranthCfu

open Lib

/-! ## The source -/

/-- `tree_sum`; none if the recursion is deeper than the fuel. -/
def treeSum {α : Type} [Add α] : ℕ → List α → Option α
  | 0, _ => none
  | fuel + 1, l =>
    if l.length = 1 then l[0]?
    else do
      let half := l.length / 2
      let left ← treeSum fuel (l.take half)
      let right ← treeSum fuel (l.drop half)
      some (left + right)

/-- A signal, or a constant of a given width. -/
structure Signal where
  width : ℕ
  value : BitVec width

/-- `Const(n, width)`. -/
def Signal.const (n : ℤ) (width : ℕ) : Signal := ⟨width, BitVec.ofInt width n⟩

/-- The value of an unsigned signal. -/
def Signal.toInt (signal : Signal) : ℤ := signal.value.toNat

/-- `signal[start:stop]`: both ends are cut to the length of the signal. -/
def Signal.slice (signal : Signal) (start stop : ℕ) : Signal :=
  let start := min start signal.width
  ⟨min stop signal.width - start, signal.value.extractLsb' start _⟩

/-- `range(0, len(signal), word_length)` is cut into slices. -/
def allWords (signal : Signal) (wordLength : ℕ) : List Signal :=
  (List.range' 0 ((signal.width + wordLength - 1) / wordLength) wordLength).map fun i =>
    signal.slice i (i + wordLength)

def packVals (values : List ℤ) (offset : ℤ) (bits : ℕ) : ℤ :=
  let mask := (1 : ℤ) <<< bits - 1
  values.zipIdx.foldl (fun result (v, i) => result + Int.land (v + offset) mask <<< (i * bits)) 0

def pack128 (a b c d : ℤ) : ℤ := packVals [a, b, c, d] 0 32

/-! ## Sums -/

section Sums

variable {α : Type}

theorem treeSum_succ [Add α] {fuel : ℕ} {l : List α} (h : l.length ≠ 1) :
    treeSum (fuel + 1) l = (treeSum fuel (l.take (l.length / 2))).bind fun left =>
      (treeSum fuel (l.drop (l.length / 2))).bind fun right => some (left + right) := by
  rw [treeSum, if_neg h]
  rfl

theorem treeSum_nil [Add α] (fuel : ℕ) : treeSum fuel ([] : List α) = none := by
  induction fuel with
  | zero => rfl
  | succ fuel ih =>
    rw [treeSum_succ (by simp), List.take_nil, ih]
    rfl

theorem clog_halves {n : ℕ} (hn : 2 ≤ n) : Nat.clog 2 n = Nat.clog 2 (n - n / 2) + 1 := by
  have hhalf : (n + 2 - 1) / 2 = n - n / 2 := by omega
  rw [Nat.clog_of_two_le (by decide) hn, hhalf]

variable [AddMonoid α]

/-- **The depth of the recursion** decides whether there is a result, and the result is the sum. -/
theorem treeSum_eq (fuel : ℕ) (l : List α) : treeSum fuel l =
    if l ≠ [] ∧ Nat.clog 2 l.length < fuel then some l.sum else none := by
  induction fuel generalizing l with
  | zero => simp [treeSum]
  | succ fuel ih =>
    rcases lt_trichotomy l.length 1 with hnil | hone | htwo
    · have hl : l = [] := List.length_eq_zero_iff.mp (Nat.lt_one_iff.mp hnil)
      rw [hl, treeSum_nil, if_neg (by simp)]
    · obtain ⟨x, rfl⟩ := List.length_eq_one_iff.mp hone
      simp [treeSum]
    · have hl : l ≠ [] := List.ne_nil_of_length_pos (by omega)
      have hleft : l.take (l.length / 2) ≠ [] := List.ne_nil_of_length_pos (by simp; omega)
      have hright : l.drop (l.length / 2) ≠ [] := List.ne_nil_of_length_pos (by simp; omega)
      have hdepth := clog_halves htwo
      have hsmaller : Nat.clog 2 (l.length / 2) ≤ Nat.clog 2 (l.length - l.length / 2) :=
        Nat.clog_mono_right 2 (by omega)
      have hlength : (l.take (l.length / 2)).length = l.length / 2 :=
        List.length_take_of_le (Nat.div_le_self _ 2)
      rw [treeSum_succ htwo.ne']
      by_cases hfuel : Nat.clog 2 l.length < fuel + 1
      · have htake : treeSum fuel (l.take (l.length / 2)) = some (l.take (l.length / 2)).sum := by
          rw [ih, hlength, if_pos ⟨hleft, by omega⟩]
        have hdrop : treeSum fuel (l.drop (l.length / 2)) = some (l.drop (l.length / 2)).sum := by
          rw [ih, List.length_drop, if_pos ⟨hright, by omega⟩]
        rw [htake, hdrop, if_pos ⟨hl, hfuel⟩, Option.bind_some, Option.bind_some,
          ← List.sum_append, List.take_append_drop]
      · have hdrop : treeSum fuel (l.drop (l.length / 2)) = none := by
          rw [ih, List.length_drop, if_neg fun h => hfuel (by omega)]
        rw [hdrop, if_neg fun h => hfuel h.2]
        exact Option.bind_fun_none _

theorem not_returns_nil (v : ℤ) :
    ¬ ∃ n, ∀ fuel > n, treeSum fuel ([] : List ℤ) = some v := by
  rintro ⟨n, hn⟩
  have hreturn := hn (n + 1) (Nat.lt_succ_self n)
  rw [treeSum_nil] at hreturn
  cases hreturn

/-- **When the sum is returned**: for every list but the empty one, whose recursion never ends. -/
theorem treeSum_returns_iff (l : List ℤ) :
    (∃ n, ∀ fuel > n, treeSum fuel l = some l.sum) ↔ l ≠ [] := by
  constructor
  · rintro h rfl
    exact not_returns_nil _ h
  · intro hl
    refine ⟨Nat.clog 2 l.length, fun fuel hfuel => ?_⟩
    rw [treeSum_eq, if_pos ⟨hl, hfuel⟩]

/-- The sum of no values is not returned. -/
theorem treeSum_returns_fails :
    ¬ ∃ n, ∀ fuel > n, treeSum fuel ([] : List ℤ) = some ([] : List ℤ).sum :=
  not_returns_nil _

end Sums

/-! ## Packing -/

variable {bits : ℕ}

theorem land_mask (z : ℤ) : Int.land z ((1 : ℤ) <<< bits - 1) = z % 2 ^ bits := by
  have hmask : (1 : ℤ) <<< bits - 1 = ((2 ^ bits - 1 : ℕ) : ℤ) := by
    rw [Int.shiftLeft_eq, one_mul, Nat.cast_sub Nat.one_le_two_pow]
    push_cast
    rfl
  rw [hmask]
  cases z with
  | ofNat m =>
    change ((m &&& (2 ^ bits - 1) : ℕ) : ℤ) = (m : ℤ) % 2 ^ bits
    rw [Nat.and_two_pow_sub_one_eq_mod]
    push_cast
    rfl
  | negSucc m =>
    have hlt : m % 2 ^ bits < 2 ^ bits := Nat.mod_lt m (by positivity)
    have hldiff : Nat.ldiff (2 ^ bits - 1) m = 2 ^ bits - (m % 2 ^ bits + 1) := by
      apply Nat.eq_of_testBit_eq
      intro i
      rw [Nat.testBit_ldiff, Nat.testBit_two_pow_sub_one, Nat.testBit_two_pow_sub_succ hlt,
        Nat.testBit_mod_two_pow]
      by_cases hi : i < bits
      · simp [hi]
      · simp [hi]
    change ((Nat.ldiff (2 ^ bits - 1) m : ℕ) : ℤ) = _
    rw [hldiff, Int.negSucc_emod m (by positivity), Nat.cast_sub (by omega)]
    push_cast
    ring

/-- The digit that `v` becomes. -/
def digit (offset : ℤ) (bits : ℕ) (v : ℤ) : ℕ := ((v + offset) % 2 ^ bits).toNat

theorem cast_digit (offset v : ℤ) : (digit offset bits v : ℤ) = (v + offset) % 2 ^ bits :=
  Int.toNat_of_nonneg (Int.emod_nonneg _ (by positivity))

theorem digit_lt (offset v : ℤ) : digit offset bits v < 2 ^ bits := by
  zify
  rw [cast_digit]
  exact Int.emod_lt_of_pos _ (by positivity)

/-- **Packing writes digits**: nothing is carried between the fields. -/
theorem packVals_eq (values : List ℤ) (offset : ℤ) :
    packVals values offset bits =
      (Nat.ofDigits (2 ^ bits) (values.map (digit offset bits)) : ℕ) := by
  induction values using List.reverseRecOn with
  | nil => rfl
  | append_singleton values v ih =>
    have hsnoc : packVals (values ++ [v]) offset bits = packVals values offset bits +
        Int.land (v + offset) ((1 : ℤ) <<< bits - 1) <<< (values.length * bits) := by
      rw [packVals, List.zipIdx_append, List.foldl_append, zero_add]
      rfl
    rw [hsnoc, ih, land_mask, Int.shiftLeft_eq, List.map_append, Nat.ofDigits_append,
      List.length_map, List.map_singleton, Nat.ofDigits_singleton, Nat.cast_add, Nat.cast_mul,
      cast_digit, mul_comm values.length, pow_mul, mul_comm (_ % _)]
    push_cast
    rfl

/-! ## Splitting -/

theorem toInt_slice {signal : Signal} {i n : ℕ} (hi : i + n ≤ signal.width) :
    (signal.slice i (i + n)).toInt = (signal.value.toNat / 2 ^ i % 2 ^ n : ℕ) := by
  have hwidth : min (i + n) signal.width - i = n := by omega
  rw [Signal.toInt, Signal.slice, min_eq_left (show i ≤ signal.width by omega),
    BitVec.extractLsb'_toNat, hwidth, Nat.shiftRight_eq_div_pow]

theorem allWords_eq (hbits : 1 ≤ bits) {signal : Signal} {n : ℕ} (hn : signal.width = n * bits) :
    (allWords signal bits).map Signal.toInt =
      (places (2 ^ bits) n signal.value.toNat).map Nat.cast := by
  have hcount : (signal.width + bits - 1) / bits = n := by
    rw [hn, Nat.add_sub_assoc hbits, mul_comm, Nat.mul_add_div hbits,
      Nat.div_eq_of_lt (by omega), Nat.add_zero]
  rw [allWords, hcount, List.map_map, places, List.map_map]
  apply List.ext_getElem
  · rw [List.length_map, List.length_map, List.length_range', List.length_range]
  intro i hi hi'
  have hin : i < n := by simpa using hi
  have hinside : bits * i + bits ≤ signal.width := by
    rw [hn, mul_comm n, ← Nat.mul_succ]
    exact Nat.mul_le_mul_left bits hin
  rw [List.getElem_map, List.getElem_map, List.getElem_range', List.getElem_range, zero_add,
    Function.comp_apply, toInt_slice hinside, Function.comp_apply, pow_mul]

theorem allWords_packVals (hbits : 1 ≤ bits) (values : List ℤ) (offset : ℤ) :
    (allWords (Signal.const (packVals values offset bits) (values.length * bits)) bits).map
      Signal.toInt = values.map fun v => (v + offset) % 2 ^ bits := by
  have hdigits : ∀ d ∈ values.map (digit offset bits), d < 2 ^ bits := by
    intro d hd
    obtain ⟨v, _, rfl⟩ := List.mem_map.mp hd
    exact digit_lt offset v
  have hfits := Nat.ofDigits_lt_base_pow_length (Nat.one_lt_two_pow (by omega)) hdigits
  have hvalue : (Signal.const (packVals values offset bits) (values.length * bits)).value.toNat =
      Nat.ofDigits (2 ^ bits) (values.map (digit offset bits)) := by
    rw [Signal.const, packVals_eq, BitVec.ofInt_natCast, BitVec.toNat_ofNat]
    apply Nat.mod_eq_of_lt
    rwa [List.length_map, ← pow_mul, mul_comm] at hfits
  have hplaces := places_ofDigits hdigits
  rw [List.length_map] at hplaces
  rw [allWords_eq hbits rfl, hvalue, hplaces, List.map_map]
  apply List.map_congr_left
  intro v _
  exact cast_digit offset v

theorem map_digit_places (n x : ℕ) :
    ((places (2 ^ bits) n x).map Nat.cast).map (digit 0 bits) = places (2 ^ bits) n x := by
  have hsmall : ∀ d ∈ places (2 ^ bits) n x, digit 0 bits (d : ℤ) = d := by
    intro d hd
    obtain ⟨i, _, rfl⟩ := List.mem_map.mp hd
    zify
    rw [cast_digit, add_zero]
    exact Int.emod_emod_of_dvd _ (dvd_refl _)
  rw [List.map_map]
  exact (List.map_congr_left hsmall).trans (List.map_id _)

theorem packVals_map_allWords (hbits : 1 ≤ bits) {signal : Signal} (h : bits ∣ signal.width) :
    packVals ((allWords signal bits).map Signal.toInt) 0 bits = signal.toInt := by
  obtain ⟨n, hn⟩ := h
  rw [mul_comm] at hn
  have hlt := signal.value.isLt
  rw [packVals_eq, allWords_eq hbits hn, map_digit_places, ofDigits_places, Nat.mod_eq_of_lt]
  · rfl
  · rwa [← pow_mul, mul_comm bits, ← hn]

/-- **Packing and splitting undo each other.** -/
theorem packVals_allWords (hbits : 1 ≤ bits) :
    (∀ (values : List ℤ) (offset : ℤ),
      (allWords (Signal.const (packVals values offset bits) (values.length * bits)) bits).map
        Signal.toInt = values.map fun v => (v + offset) % 2 ^ bits) ∧
      ∀ signal : Signal, bits ∣ signal.width →
        packVals ((allWords signal bits).map Signal.toInt) 0 bits = signal.toInt := by
  exact ⟨allWords_packVals hbits, fun _ h => packVals_map_allWords hbits h⟩

theorem packVals_allWords_bytes :
    (allWords (Signal.const (packVals [-1, 2, -128] 128 8) 24) 8).map Signal.toInt =
        [127, 130, 0] ∧
      packVals ((allWords (Signal.const 0xC0FFEE 24) 8).map Signal.toInt) 0 8 = 0xC0FFEE := by
  have h := packVals_allWords (show 1 ≤ 8 by decide)
  exact ⟨h.1 [-1, 2, -128] 128, h.2 (Signal.const 0xC0FFEE 24) (by decide)⟩

end CfuPlayground.AmaranthCfu
