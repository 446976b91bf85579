import Mathlib.Data.Nat.Digits.Defs
import Mathlib.Tactic

/-!
# `strtol`

The conversion of the C library with base `0` and a `long` of any width: space, a sign, then a
hexadecimal, octal or decimal number, cut to the range of `long`. A literal is read back as the
number it spells, up to `LONG_MAX` (`strtol_decimal`, `strtol_hex`).
-/

namespace CfuPlayground.Lib

/-! ## The conversion -/

/-- `isspace`, in the C locale. -/
def isSpace (c : Char) : Bool := c.toNat = 32 || (9 ≤ c.toNat && c.toNat ≤ 13)

/-- The value of a digit or a letter; 36 is no digit of any base. -/
def digitVal (c : Char) : ℕ :=
  if 48 ≤ c.toNat ∧ c.toNat ≤ 57 then c.toNat - 48
  else if 97 ≤ c.toNat ∧ c.toNat ≤ 122 then c.toNat - 87
  else if 65 ≤ c.toNat ∧ c.toNat ≤ 90 then c.toNat - 55
  else 36

/-- The number that the digits at the front of `s` spell. -/
def magnitude (base : ℕ) (s : List Char) : ℕ :=
  (s.takeWhile (digitVal · < base)).foldl (fun n c => base * n + digitVal c) 0

/-- A number whose base is told by its first characters. -/
def number : List Char → ℕ
  | '0' :: x :: d :: s =>
    if (x = 'x' ∨ x = 'X') ∧ digitVal d < 16 then magnitude 16 (d :: s)
    else magnitude 8 ('0' :: x :: d :: s)
  | s => magnitude (if s.head? = some '0' then 8 else 10) s

/-- Between `LONG_MIN` and `LONG_MAX`, for a `long` of `bits` bits. -/
def saturate (bits : ℕ) (z : ℤ) : ℤ := max (-2 ^ (bits - 1)) (min z (2 ^ (bits - 1) - 1))

/-- `strtol(s, NULL, 0)`. -/
def strtol (bits : ℕ) (s : List Char) : ℤ :=
  match s.dropWhile isSpace with
  | '-' :: s => saturate bits (-number s)
  | '+' :: s => saturate bits (number s)
  | s => saturate bits (number s)

/-! ## Literals -/

/-- The digits of `n`, the letters among them spelled by `letter`. -/
def spell (letter : Char → Char) (base n : ℕ) : List Char := (Nat.toDigits base n).map letter

/-- `letter` is a spelling of the digits of the base. -/
def Spelling (letter : Char → Char) (base : ℕ) : Prop :=
  ∀ d < base, digitVal (letter (Nat.digitChar d)) = d

instance (letter : Char → Char) (base : ℕ) : Decidable (Spelling letter base) :=
  inferInstanceAs (Decidable (∀ d < base, _))

theorem spelling_decimal : Spelling id 10 := by decide
theorem spelling_lower : Spelling id 16 := by decide
theorem spelling_upper : Spelling Char.toUpper 16 := by decide

variable {letter : Char → Char} {base : ℕ}

theorem spell_of_lt {d : ℕ} (hd : d < base) : spell letter base d = [letter (Nat.digitChar d)] := by
  rw [spell, Nat.toDigits_of_lt_base hd, List.map_singleton]

theorem spell_snoc (hbase : 1 < base) {m d : ℕ} (hm : 0 < m) (hd : d < base) :
    spell letter base (base * m + d) = spell letter base m ++ [letter (Nat.digitChar d)] := by
  rw [spell, ← Nat.toDigits_append_toDigits hbase hm hd, List.map_append,
    Nat.toDigits_of_lt_base hd, List.map_singleton, spell]

theorem digitVal_lt_of_mem_spell (hbase : 1 < base) (hletter : Spelling letter base) (n : ℕ) :
    ∀ c ∈ spell letter base n, digitVal c < base := by
  induction n using Nat.base_induction base hbase with
  | single d hd =>
    intro c hc
    rw [spell_of_lt hd, List.mem_singleton] at hc
    rw [hc, hletter d hd]
    exact hd
  | digit m d hd hm ih =>
    intro c hc
    rw [spell_snoc hbase hm hd, List.mem_append, List.mem_singleton] at hc
    rcases hc with hc | hc
    · exact ih c hc
    · rw [hc, hletter d hd]
      exact hd

theorem foldl_spell (hbase : 1 < base) (hletter : Spelling letter base) (n : ℕ) :
    (spell letter base n).foldl (fun n c => base * n + digitVal c) 0 = n := by
  induction n using Nat.base_induction base hbase with
  | single d hd =>
    rw [spell_of_lt hd, List.foldl_cons, List.foldl_nil, hletter d hd, mul_zero, zero_add]
  | digit m d hd hm ih =>
    rw [spell_snoc hbase hm hd, List.foldl_append, ih, List.foldl_cons, List.foldl_nil,
      hletter d hd]

theorem magnitude_spell (hbase : 1 < base) (hletter : Spelling letter base) (n : ℕ) :
    magnitude base (spell letter base n) = n := by
  have hall : (spell letter base n ++ []).takeWhile (digitVal · < base) =
      spell letter base n ++ [] :=
    List.takeWhile_append_of_pos fun c hc =>
      decide_eq_true (digitVal_lt_of_mem_spell hbase hletter n c hc)
  rw [List.append_nil] at hall
  rw [magnitude, hall, foldl_spell hbase hletter]

theorem head_spell_ne_zero (hbase : 1 < base) (hletter : Spelling letter base) {n : ℕ}
    (hn : 0 < n) : (spell letter base n).head? ≠ some '0' := by
  induction n using Nat.base_induction base hbase with
  | single d hd =>
    rw [spell_of_lt hd, List.head?_cons]
    intro h
    have hd0 := hletter d hd
    rw [Option.some.inj h] at hd0
    exact hn.ne hd0
  | digit m d hd hm ih =>
    have hne : spell letter base m ≠ [] := by
      rw [spell, ne_eq, List.map_eq_nil_iff]
      exact Nat.toDigits_ne_nil
    rw [spell_snoc hbase hm hd, List.head?_append_of_ne_nil _ hne]
    exact ih hm

theorem strtol_of_digit (bits : ℕ) {c : Char} (hc : digitVal c < 36) (s : List Char) :
    strtol bits (c :: s) = saturate bits (number (c :: s)) := by
  have hspace : ¬ isSpace c := by
    intro h
    simp only [isSpace, Bool.or_eq_true, Bool.and_eq_true, decide_eq_true_eq] at h
    unfold digitVal at hc
    split_ifs at hc <;> omega
  have hminus : c ≠ '-' := by
    rintro rfl
    exact absurd hc (by decide)
  have hplus : c ≠ '+' := by
    rintro rfl
    exact absurd hc (by decide)
  rw [strtol, List.dropWhile_cons_of_neg hspace]
  split
  · next h => exact absurd (List.head_eq_of_cons_eq h) hminus
  · next h => exact absurd (List.head_eq_of_cons_eq h) hplus
  · rfl

theorem number_of_head {s : List Char} (hs : s.head? ≠ some '0') : number s = magnitude 10 s := by
  unfold number
  split
  · exact absurd rfl hs
  · rw [if_neg hs]

/-- **A decimal literal** is read back, up to the greatest `long`. -/
theorem strtol_decimal (bits n : ℕ) : strtol bits (spell id 10 n) = saturate bits n := by
  have hdigits := digitVal_lt_of_mem_spell (by decide) spelling_decimal n
  have hnumber : number (spell id 10 n) = n := by
    rcases Nat.eq_zero_or_pos n with rfl | hn
    · decide
    · rw [number_of_head (head_spell_ne_zero (by decide) spelling_decimal hn),
        magnitude_spell (by decide) spelling_decimal]
  cases hspell : spell id 10 n with
  | nil => exact absurd hspell (by simp [spell])
  | cons c s =>
    rw [hspell] at hdigits hnumber
    have hc := hdigits c List.mem_cons_self
    rw [strtol_of_digit bits (by omega), hnumber]

/-- **A hexadecimal literal**, in small or in capital letters. -/
theorem strtol_hex (bits : ℕ) (hletter : Spelling letter 16) (n : ℕ) :
    strtol bits ('0' :: 'x' :: spell letter 16 n) = saturate bits n := by
  have hdigits := digitVal_lt_of_mem_spell (by decide) hletter n
  have hmagnitude := magnitude_spell (by decide) hletter n
  rw [strtol_of_digit bits (by decide)]
  cases hspell : spell letter 16 n with
  | nil => exact absurd hspell (by simp [spell])
  | cons d s =>
    rw [hspell] at hdigits hmagnitude
    rw [number, if_pos ⟨Or.inl rfl, hdigits d List.mem_cons_self⟩, hmagnitude]

end CfuPlayground.Lib
