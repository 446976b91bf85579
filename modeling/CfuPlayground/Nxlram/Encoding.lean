import CfuPlayground.Lib.Loop
import CfuPlayground.Nxlram.Init

/-!
# The encoding of the initial contents

A block is preloaded through 128 parameters of 1280 hexadecimal digits. For words of 32 bits the
encoding is lossless. For words of 64 bits the low half is or-ed with `0xFFFFFF` where a mask of
32 bits belongs, so only words below `2 ^ 32` whose low 24 bits are all set survive
(`lossless_iff`).
-/

namespace CfuPlayground.Nxlram

open Lib

/-! ## Decoding -/

/-- The groups of 40 bits of a parameter, from the low end, without the 8 bits of padding. -/
def decodeParameter (p : Hex) : List ℕ :=
  (places (2 ^ 40) (p.length / 10) (Nat.ofDigits 16 p.reverse)).map (· % 2 ^ 32)

/-- Low and high halves joined to words of 64 bits. -/
def joinPairs : List ℕ → List ℕ
  | lo :: hi :: l => (lo + 2 ^ 32 * hi) :: joinPairs l
  | _ => []

/-- The contents that a list of parameters stands for. -/
def decode (width : ℕ) (ps : List Hex) : List ℕ :=
  ps.flatMap fun p => if width = 64 then joinPairs (decodeParameter p) else decodeParameter p

/-- The parameters have the form that the docstring gives, and stand for the contents. -/
def Lossless (contents : List ℕ) (width : ℕ) : Prop :=
  ∃ ps, initvalParameters contents width = some ps ∧ ps.length = 0x80 ∧
    (∀ p ∈ ps, p.length = 1280 ∧ ∀ d ∈ p, d < 16) ∧ decode width ps = contents

/-! ## One parameter -/

variable {groups contents : List ℕ}

theorem hex08_lt (n : ℕ) : ∀ d ∈ hex08 n, d < 16 := by
  intro d hd
  rw [hex08, List.mem_append, List.mem_reverse] at hd
  rcases hd with hd | hd
  · rw [List.eq_of_mem_replicate hd]
    decide
  · exact Nat.digits_lt_base (by decide) hd

theorem parameter_lt : ∀ d ∈ parameter groups, d < 16 := by
  intro d hd
  obtain ⟨g, _, hd⟩ := List.mem_flatMap.mp hd
  rw [List.mem_append] at hd
  rcases hd with hd | hd
  · simp only [List.mem_cons, List.not_mem_nil, or_false, or_self] at hd
    omega
  · exact hex08_lt g d hd

theorem length_hex08_eq_iff {n : ℕ} : (hex08 n).length = 8 ↔ n < 2 ^ 32 := by
  constructor
  · intro h
    rw [hex08, List.length_append, List.length_replicate, List.length_reverse] at h
    have hle := (Nat.digits_length_le_iff (k := 8) (by decide : 1 < 16) n).mp (by omega)
    exact hle.trans_le (by decide)
  · exact length_hex08

theorem le_length_hex08 (n : ℕ) : 8 ≤ (hex08 n).length := by
  rw [hex08, List.length_append, List.length_replicate, List.length_reverse]
  omega

theorem length_parameter :
    (parameter groups).length = (groups.map fun g => 2 + (hex08 g).length).sum := by
  rw [parameter, List.length_flatMap, List.map_reverse, List.sum_reverse]
  congr 1
  apply List.map_congr_left
  intro g _
  rw [List.length_append]
  rfl

theorem length_parameter_ge : 10 * groups.length ≤ (parameter groups).length := by
  rw [length_parameter]
  induction groups with
  | nil => exact le_rfl
  | cons g groups ih =>
    have hg := le_length_hex08 g
    rw [List.map_cons, List.sum_cons, List.length_cons]
    omega

theorem length_parameter_eq_iff :
    (parameter groups).length = 10 * groups.length ↔ ∀ g ∈ groups, g < 2 ^ 32 := by
  induction groups with
  | nil => simp [parameter]
  | cons g groups ih =>
    have hg := le_length_hex08 g
    have hge : 10 * groups.length ≤ (parameter groups).length := length_parameter_ge
    rw [length_parameter] at ih hge
    rw [List.forall_mem_cons, ← ih, ← length_hex08_eq_iff, length_parameter, List.map_cons,
      List.sum_cons, List.length_cons]
    omega

theorem decodeParameter_parameter (hgroups : ∀ g ∈ groups, g < 2 ^ 32) :
    decodeParameter (parameter groups) = groups := by
  have hdigits : ∀ g ∈ groups, g < 2 ^ 40 := fun g hg => (hgroups g hg).trans (by decide)
  rw [decodeParameter, length_parameter_eq_iff.mpr hgroups, Nat.mul_div_cancel_left _ (by decide),
    ofDigits_parameter hgroups, places_ofDigits hdigits]
  refine (List.map_congr_left fun g hg => ?_).trans (List.map_id _)
  exact Nat.mod_eq_of_lt (hgroups g hg)

/-! ## The block -/

theorem flatMap_blocks {α : Type} (f : ℕ → α) (n k : ℕ) :
    ((List.range n).flatMap fun i => (List.range k).map fun j => f (k * i + j)) =
      (List.range (k * n)).map f := by
  induction n with
  | zero => rfl
  | succ n ih =>
    rw [List.range_succ, List.flatMap_append, ih, List.flatMap_singleton, Nat.mul_succ,
      List.range_add, List.map_append, List.map_map]
    rfl

theorem map_getD_range (l : List ℕ) : (List.range l.length).map (fun i => l.getD i 0) = l := by
  apply List.ext_getElem
  · rw [List.length_map, List.length_range]
  · intro i hi hi'
    rw [List.getElem_map, List.getElem_range, List.getD_eq_getElem _ _ hi']

/-- The groups of parameter `i`, for words of 64 bits. -/
def pairs (contents : List ℕ) (i : ℕ) : List ℕ :=
  (List.range 64).flatMap fun j =>
    [contents.getD (64 * i + j) 0 ||| 0xFFFFFF, contents.getD (64 * i + j) 0 >>> 32]

theorem parameter_pairs (contents : List ℕ) (i : ℕ) :
    parameter (pairs contents i) = (List.range 64).reverse.flatMap fun j =>
      [0, 0] ++ hex08 (contents.getD (64 * i + j) 0 >>> 32) ++ [0, 0] ++
        hex08 (contents.getD (64 * i + j) 0 ||| 0xFFFFFF) := by
  rw [parameter, pairs, List.reverse_flatMap, List.flatMap_assoc]
  apply List.flatMap_congr
  intro j _
  rw [Function.comp_apply, List.reverse_cons, List.reverse_singleton, List.singleton_append,
    List.flatMap_cons, List.flatMap_singleton, List.append_assoc _ [0, 0]]

theorem initvalParameters_64 (hlen : contents.length = 524288 / 64) :
    initvalParameters contents 64 =
      some ((List.range 0x80).map fun i => parameter (pairs contents i)) := by
  have hwidth : ¬ (64 = 32) := by decide
  have hchunk : 4096 / 64 = 64 := by decide
  rw [initvalParameters, if_pos ⟨Or.inr rfl, hlen⟩]
  simp only [if_neg hwidth, hchunk, parameter_pairs]

theorem length_pairs (i : ℕ) : (pairs contents i).length = 128 := by
  simp [pairs, List.length_flatMap]

theorem pairs_lt_iff (i : ℕ) : (∀ g ∈ pairs contents i, g < 2 ^ 32) ↔
    ∀ j < 64, contents.getD (64 * i + j) 0 < 2 ^ 32 := by
  constructor
  · intro h j hj
    have hmem : contents.getD (64 * i + j) 0 ||| 0xFFFFFF ∈ pairs contents i :=
      List.mem_flatMap.mpr ⟨j, List.mem_range.mpr hj, List.mem_cons_self⟩
    exact Nat.left_le_or.trans_lt (h _ hmem)
  · intro h g hg
    obtain ⟨j, hj, hg⟩ := List.mem_flatMap.mp hg
    have hc := h j (List.mem_range.mp hj)
    simp only [List.mem_cons, List.not_mem_nil, or_false] at hg
    rcases hg with rfl | rfl
    · exact Nat.or_lt_two_pow hc (by decide)
    · exact (Nat.shiftRight_le _ 32).trans_lt hc

theorem joinPairs_flatMap (lo hi : ℕ → ℕ) (l : List ℕ) :
    joinPairs (l.flatMap fun j => [lo j, hi j]) = l.map fun j => lo j + 2 ^ 32 * hi j := by
  induction l with
  | nil => rfl
  | cons j l ih =>
    rw [List.map_cons, ← ih]
    rfl

theorem joinPairs_pairs {i : ℕ} (hword : ∀ j < 64, contents.getD (64 * i + j) 0 < 2 ^ 32) :
    joinPairs (pairs contents i) =
      (List.range 64).map fun j => contents.getD (64 * i + j) 0 ||| 0xFFFFFF := by
  rw [pairs, joinPairs_flatMap]
  apply List.map_congr_left
  intro j hj
  rw [Nat.shiftRight_eq_div_pow, Nat.div_eq_of_lt (hword j (List.mem_range.mp hj)), mul_zero,
    add_zero]

theorem or_mask_eq_iff (c : ℕ) : c ||| 0xFFFFFF = c ↔ c % 2 ^ 24 = 2 ^ 24 - 1 := by
  rw [← Nat.and_two_pow_sub_one_eq_mod]
  change c ||| (2 ^ 24 - 1) = c ↔ _
  generalize 2 ^ 24 - 1 = m
  constructor
  · intro h
    rw [← h]
    apply Nat.eq_of_testBit_eq
    intro i
    rw [Nat.testBit_and, Nat.testBit_or]
    exact Bool.and_eq_right_iff_imp.mpr fun hm => by rw [hm, Bool.or_true]
  · intro h
    rw [← h]
    apply Nat.eq_of_testBit_eq
    intro i
    rw [Nat.testBit_or, Nat.testBit_and]
    exact Bool.or_eq_left_iff_imp.mpr fun hcm => (Bool.and_eq_true_iff.mp hcm).1

/-! ## Which contents survive -/

theorem form_of_groups {n : ℕ} {groups : ℕ → List ℕ} (hlen : ∀ i, (groups i).length = 128)
    (hword : ∀ i < n, ∀ g ∈ groups i, g < 2 ^ 32) :
    ∀ p ∈ (List.range n).map fun i => parameter (groups i), p.length = 1280 ∧ ∀ d ∈ p, d < 16 := by
  intro p hp
  obtain ⟨i, hi, rfl⟩ := List.mem_map.mp hp
  refine ⟨?_, parameter_lt⟩
  rw [length_parameter_eq_iff.mpr (hword i (List.mem_range.mp hi)), hlen]

theorem decode_map {width n : ℕ} {groups : ℕ → List ℕ}
    (hword : ∀ i < n, ∀ g ∈ groups i, g < 2 ^ 32) :
    decode width ((List.range n).map fun i => parameter (groups i)) =
      (List.range n).flatMap fun i => if width = 64 then joinPairs (groups i) else groups i := by
  rw [decode, List.flatMap_map]
  apply List.flatMap_congr
  intro i hi
  rw [decodeParameter_parameter (hword i (List.mem_range.mp hi))]

theorem lossless_32 (hlen : contents.length = 524288 / 32)
    (hentry : ∀ c ∈ contents, c < 2 ^ 32) : Lossless contents 32 := by
  have hword : ∀ i < 0x80, ∀ g ∈ (List.range 128).map fun j => contents.getD (128 * i + j) 0,
      g < 2 ^ 32 := by
    intro i _ g hg
    obtain ⟨j, _, rfl⟩ := List.mem_map.mp hg
    exact getD_lt (by decide) hentry _
  refine ⟨_, initvalParameters_32 hlen, ?_, form_of_groups (fun i => ?_) hword, ?_⟩
  · rw [List.length_map, List.length_range]
  · rw [List.length_map, List.length_range]
  · rw [decode_map hword]
    simp only [if_neg (by decide : ¬ 32 = 64)]
    rw [flatMap_blocks fun i => contents.getD i 0]
    conv_rhs => rw [← map_getD_range contents, hlen]

/-- Words of 64 bits that are below `2 ^ 32` are decoded with their low 24 bits set. -/
theorem decode_64 (hlen : contents.length = 524288 / 64) (hword : ∀ c ∈ contents, c < 2 ^ 32) :
    decode 64 ((List.range 0x80).map fun i => parameter (pairs contents i)) =
      contents.map (· ||| 0xFFFFFF) := by
  have hget := getD_lt (by decide) hword
  rw [decode_map fun i _ => (pairs_lt_iff i).mpr fun j _ => hget _]
  simp only [if_true, joinPairs_pairs fun j _ => hget _]
  rw [flatMap_blocks fun i => contents.getD i 0 ||| 0xFFFFFF]
  conv_rhs => rw [← map_getD_range contents, hlen, List.map_map]
  rfl

theorem entries_lt (hlen : contents.length = 524288 / 64)
    (h : ∀ i < 0x80, ∀ g ∈ pairs contents i, g < 2 ^ 32) : ∀ c ∈ contents, c < 2 ^ 32 := by
  intro c hc
  obtain ⟨k, hk, rfl⟩ := List.mem_iff_getElem.mp hc
  have hlt : k < 8192 := hk.trans_eq hlen
  have hword := (pairs_lt_iff (k / 64)).mp (h (k / 64) (by omega)) (k % 64) (by omega)
  rwa [Nat.div_add_mod, List.getD_eq_getElem _ _ hk] at hword

theorem lossless_64 (hlen : contents.length = 524288 / 64) :
    Lossless contents 64 ↔ ∀ c ∈ contents, c < 2 ^ 32 ∧ c % 2 ^ 24 = 2 ^ 24 - 1 := by
  constructor
  · rintro ⟨ps, hps, -, hform, hdecode⟩
    rw [initvalParameters_64 hlen] at hps
    cases hps
    have hword : ∀ c ∈ contents, c < 2 ^ 32 := by
      apply entries_lt hlen
      intro i hi
      have hp := (hform _ (List.mem_map.mpr ⟨i, List.mem_range.mpr hi, rfl⟩)).1
      apply length_parameter_eq_iff.mp
      rw [hp, length_pairs]
    rw [decode_64 hlen hword] at hdecode
    intro c hc
    refine ⟨hword c hc, (or_mask_eq_iff c).mp ?_⟩
    exact List.map_inj_left.mp (hdecode.trans (List.map_id _).symm) c hc
  · intro h
    have hword : ∀ c ∈ contents, c < 2 ^ 32 := fun c hc => (h c hc).1
    refine ⟨_, initvalParameters_64 hlen, ?_, form_of_groups length_pairs fun i _ => ?_, ?_⟩
    · rw [List.length_map, List.length_range]
    · exact (pairs_lt_iff i).mpr fun j _ => getD_lt (by decide) hword _
    · rw [decode_64 hlen hword]
      exact (List.map_congr_left fun c hc => (or_mask_eq_iff c).mpr (h c hc).2).trans
        (List.map_id _)

/-- **When the encoding is lossless**: always for words of 32 bits, and for words of 64 bits when
each is below `2 ^ 32` and ends in 24 ones. -/
theorem lossless_iff {width : ℕ} (hwidth : width = 32 ∨ width = 64)
    (hlen : contents.length = 524288 / width) (hentry : ∀ c ∈ contents, c < 2 ^ width) :
    Lossless contents width ↔
      width = 32 ∨ ∀ c ∈ contents, c < 2 ^ 32 ∧ c % 2 ^ 24 = 2 ^ 24 - 1 := by
  rcases hwidth with rfl | rfl
  · exact ⟨fun _ => Or.inl rfl, fun _ => lossless_32 hlen hentry⟩
  · rw [lossless_64 hlen]
    exact ⟨Or.inr, fun h => h.resolve_left (by decide)⟩

theorem lossless_iff_ones : Lossless (List.replicate 8192 0xFFFFFF) 64 := by
  have hones : ∀ c ∈ List.replicate 8192 0xFFFFFF, c = 0xFFFFFF := fun c => List.eq_of_mem_replicate
  refine (lossless_iff (Or.inr rfl) List.length_replicate fun c hc => ?_).mpr
    (Or.inr fun c hc => ?_)
  · rw [hones c hc]
    decide
  · rw [hones c hc]
    decide

/-- A block of zeros of 64 bits is not preloaded with zeros. -/
theorem lossless_iff_fails : (List.replicate 8192 0).length = 524288 / 64 ∧
    (∀ c ∈ List.replicate 8192 0, c < 2 ^ 64) ∧ ¬ Lossless (List.replicate 8192 0) 64 := by
  have hzeros : ∀ c ∈ List.replicate 8192 0, c = 0 := fun c => List.eq_of_mem_replicate
  refine ⟨List.length_replicate, fun c hc => ?_, fun h => ?_⟩
  · rw [hzeros c hc]
    decide
  · have hzero := ((lossless_64 List.length_replicate).mp h 0
      (List.mem_replicate.mpr ⟨by decide, rfl⟩)).2
    exact absurd hzero (by decide)

end CfuPlayground.Nxlram
