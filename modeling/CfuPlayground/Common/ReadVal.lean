import Mathlib.Data.BitVec
import CfuPlayground.Lib.Strtol

/-!
# Operand entry

`read_val` of `base.c`: a line of at most 80 characters, converted by `strtol` to a signed `long`
of 32 bits. The conversion stops at `LONG_MAX`, so a literal is read back exactly if its value is
below `2 ^ 31` (`readVal_literal`).
-/

namespace CfuPlayground.Common

open Lib

/-! ## The source -/

/-- The characters still to be typed, and those printed so far. -/
structure Console where
  input : List Char
  output : List Char

/-- `readchar`; none while nothing is typed. -/
def Console.readchar (console : Console) : Option (Char × Console) :=
  match console.input with
  | [] => none
  | c :: input => some (c, { console with input })

def Console.putchar (console : Console) (c : Char) : Console :=
  { console with output := console.output ++ [c] }

/-- `printf("%s > ", prompt)`. -/
def Console.prompt (console : Console) (prompt : List Char) : Console :=
  { console with output := console.output ++ (prompt ++ [' ', '>', ' ']) }

/-- The characters that end a line. -/
def EndsLine (c : Char) : Prop := c = '\r' ∨ c = '\n'

instance (c : Char) : Decidable (EndsLine c) := inferInstanceAs (Decidable (_ ∨ _))

/-- The loop of `read_val`, with `room` characters left in `buf` and `c` the last one read. -/
def readLine : ℕ → Char → Console → Option (List Char × Console)
  | 0, _, console => some ([], console)
  | room + 1, c, console =>
    if EndsLine c then some ([], console)
    else do
      let (next, console) ← (console.putchar c).readchar
      let (buf, console) ← readLine room next console
      some (c :: buf, console)

def readVal (prompt : List Char) (console : Console) : Option (BitVec 32 × Console) := do
  let (c, console) ← (console.prompt prompt).readchar
  let (buf, console) ← readLine 80 c console
  some (BitVec.ofInt 32 (strtol 32 buf), console.putchar '\n')

/-! ## A line -/

variable {line rest output : List Char} {e : Char}

theorem readLine_line (he : EndsLine e) (hline : ∀ c ∈ line, ¬ EndsLine c) {room : ℕ}
    (hroom : line.length ≤ room) :
    (Console.readchar ⟨line ++ e :: rest, output⟩).bind (fun s => readLine room s.1 s.2) =
      some (line, ⟨rest, output ++ line⟩) := by
  induction line generalizing room output with
  | nil =>
    cases room with
    | zero => simp [Console.readchar, readLine]
    | succ room => simp [Console.readchar, readLine, he]
  | cons c line ih =>
    cases room with
    | zero => exact absurd hroom (Nat.not_succ_le_zero _)
    | succ room =>
      have hc := hline c List.mem_cons_self
      have hrest := @ih (output ++ [c])
        (fun c' hc' => hline c' (List.mem_cons_of_mem c hc')) room (Nat.le_of_succ_le_succ hroom)
      rw [List.cons_append, Console.readchar, Option.bind_some, readLine, if_neg hc]
      change (Console.readchar ⟨line ++ e :: rest, output ++ [c]⟩).bind
        (fun s => (readLine room s.1 s.2).bind fun r => some (c :: r.1, r.2)) = _
      rw [← Option.bind_assoc, hrest, Option.bind_some, List.append_assoc, List.singleton_append]

theorem readVal_line (he : EndsLine e) (hline : ∀ c ∈ line, ¬ EndsLine c)
    (hlen : line.length ≤ 80) (prompt : List Char) :
    readVal prompt ⟨line ++ e :: rest, output⟩ =
      some (BitVec.ofInt 32 (strtol 32 line),
        ⟨rest, output ++ (prompt ++ [' ', '>', ' ']) ++ line ++ ['\n']⟩) := by
  have hread : (Console.readchar ⟨line ++ e :: rest, output ++ (prompt ++ [' ', '>', ' '])⟩).bind
      (fun s => readLine 80 s.1 s.2) = some (line, ⟨rest, _⟩) := readLine_line he hline hlen
  change (Console.readchar ⟨line ++ e :: rest, output ++ (prompt ++ [' ', '>', ' '])⟩).bind
    (fun s => (readLine 80 s.1 s.2).bind fun r =>
      some (BitVec.ofInt 32 (strtol 32 r.1), r.2.putchar '\n')) = _
  rw [← Option.bind_assoc, hread, Option.bind_some]
  rfl

/-! ## A literal -/

/-- The ways to write `n`: in decimal, or in hexadecimal after `0x`, in small or in capital
letters. -/
inductive Literal (n : ℕ) : List Char → Prop
  | decimal : Literal n (spell id 10 n)
  | lower : Literal n ('0' :: 'x' :: spell id 16 n)
  | upper : Literal n ('0' :: 'x' :: spell Char.toUpper 16 n)

variable {n : ℕ}

theorem strtol_literal (h : Literal n line) : strtol 32 line = saturate 32 n := by
  cases h with
  | decimal => exact strtol_decimal 32 n
  | lower => exact strtol_hex 32 spelling_lower n
  | upper => exact strtol_hex 32 spelling_upper n

theorem not_endsLine_of_digit {c : Char} (hc : digitVal c < 36) : ¬ EndsLine c := by
  rintro (rfl | rfl)
  · exact absurd hc (by decide)
  · exact absurd hc (by decide)

theorem not_endsLine_spell {letter : Char → Char} {base : ℕ} (hbase : 1 < base)
    (hbase' : base ≤ 36) (hletter : Spelling letter base) :
    ∀ c ∈ spell letter base n, ¬ EndsLine c := fun c hc =>
  not_endsLine_of_digit ((digitVal_lt_of_mem_spell hbase hletter n c hc).trans_le hbase')

theorem not_endsLine_literal (h : Literal n line) : ∀ c ∈ line, ¬ EndsLine c := by
  cases h with
  | decimal => exact not_endsLine_spell (by decide) (by decide) spelling_decimal
  | lower =>
    rw [List.forall_mem_cons, List.forall_mem_cons]
    exact ⟨by decide, by decide, not_endsLine_spell (by decide) (by decide) spelling_lower⟩
  | upper =>
    rw [List.forall_mem_cons, List.forall_mem_cons]
    exact ⟨by decide, by decide, not_endsLine_spell (by decide) (by decide) spelling_upper⟩

theorem length_literal (hn : n < 2 ^ 32) (h : Literal n line) : line.length ≤ 10 := by
  have hspell : ∀ (letter : Char → Char) (base k : ℕ), 1 < base → 0 < k → n < base ^ k →
      (spell letter base n).length ≤ k := by
    intro letter base k hbase hk hlt
    rw [spell, List.length_map]
    exact (Nat.length_toDigits_le_iff hbase hk).mpr hlt
  cases h with
  | decimal => exact hspell id 10 10 (by decide) (by decide) (hn.trans (by decide))
  | lower =>
    exact Nat.add_le_add_right (hspell id 16 8 (by decide) (by decide) hn) 2
  | upper =>
    exact Nat.add_le_add_right (hspell Char.toUpper 16 8 (by decide) (by decide) hn) 2

theorem ofInt_saturate (v : BitVec 32) :
    BitVec.ofInt 32 (saturate 32 v.toNat) = v ↔ v.toNat < 2 ^ 31 := by
  constructor
  · intro h
    by_contra hv
    have hmax : saturate 32 v.toNat = 2 ^ 31 - 1 := by
      unfold saturate
      omega
    rw [hmax] at h
    have hval := congrArg BitVec.toNat h
    have hle : v.toNat = 2 ^ 31 - 1 := hval.symm.trans (by decide)
    omega
  · intro h
    have hid : saturate 32 v.toNat = v.toNat := by
      unfold saturate
      omega
    rw [hid, BitVec.ofInt_natCast, BitVec.ofNat_toNat, BitVec.setWidth_eq]

/-- **A literal is read back exactly if its value is below `2 ^ 31`.** -/
theorem readVal_literal (v : BitVec 32) (h : Literal v.toNat line) (he : EndsLine e)
    (prompt rest output : List Char) :
    (readVal prompt ⟨line ++ e :: rest, output⟩).map Prod.fst = some v ↔ v.toNat < 2 ^ 31 := by
  have hlen := length_literal v.isLt h
  rw [readVal_line he (not_endsLine_literal h) (by omega), Option.map_some, Option.some_inj,
    strtol_literal h, ofInt_saturate]

theorem readVal_literal_hex :
    (readVal "v".toList ⟨"0x7fffffff\r".toList, []⟩).map Prod.fst = some 0x7fffffff#32 :=
  (readVal_literal 0x7fffffff#32 Literal.lower (Or.inl rfl) "v".toList [] []).mpr (by decide)

/-- An operand with its top bit set is read as `LONG_MAX`. -/
theorem readVal_literal_fails :
    Literal (0x80000000#32).toNat "0x80000000".toList ∧
      (readVal [] ⟨"0x80000000\r".toList, []⟩).map Prod.fst ≠ some 0x80000000#32 := by
  exact ⟨Literal.lower, by decide +kernel⟩

end CfuPlayground.Common
