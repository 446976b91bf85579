import Mathlib.Data.List.GetD
import CfuPlayground.Lib.Digits
import CfuPlayground.Nxlram.Reads

/-!
# Initial contents of `NXLRAM`

`add_init` cuts the padded contents into chunks and writes each as the `INITVAL` parameters of a
block. The chunks are 64K *words* long, where a block has 16K, so the assertion of
`initval_parameters` fails for every memory of more than one block. For the memory of one block
the parameters spell the words (`preload_eq`).
-/

namespace CfuPlayground.Nxlram

open Lib

/-! ## The source -/

/-- The digits of a hexadecimal number, most significant first. -/
abbrev Hex := List ℕ

/-- `'{:08X}'.format(n)`. -/
def hex08 (n : ℕ) : Hex :=
  let ds := (Nat.digits 16 n).reverse
  List.replicate (8 - ds.length) 0 ++ ds

/-- `initval_parameters`: the values `INITVAL_00` to `INITVAL_7F`, without the `0x`; none if an
assertion fails. -/
def initvalParameters (contents : List ℕ) (width : ℕ) : Option (List Hex) :=
  if (width = 32 ∨ width = 64) ∧ contents.length = 524288 / width then
    let chunkSize := 4096 / width
    some ((List.range 0x80).map fun i =>
      let offset := chunkSize * i
      let word (j : ℕ) := contents.getD (offset + j) 0
      if width = 32 then
        (List.range chunkSize).reverse.flatMap fun j => [0, 0] ++ hex08 (word j)
      else
        (List.range chunkSize).reverse.flatMap fun j =>
          [0, 0] ++ hex08 (word j >>> 32) ++ [0, 0] ++ hex08 (word j ||| 0xFFFFFF))
  else none

/-- `add_init`: the parameters of the blocks. -/
def addInit (c : Params) (data : List ℕ) : Option (List (List (List Hex))) :=
  let data := data ++ List.replicate (c.size / c.width * 8 - data.length) 0
  (List.range c.depthCascading).mapM fun d =>
    (List.range c.widthCascading).mapM fun w =>
      let offset := d * c.widthCascading * (64 * kB) + w * (64 * kB)
      let chunk := (data.drop offset).take (64 * kB)
      initvalParameters chunk c.width

/-- What the docstring of `initval_parameters` says of a block: parameter `i` holds 4096 bits of
data, in 32-bit words with 8 bits of padding above each, the first word at the low end. -/
def preload (parameters : List Hex) (r : Row) : Word :=
  let value := Nat.ofDigits 16 (parameters.getD (r.toNat / 128) []).reverse
  BitVec.ofNat 32 (value / 2 ^ (40 * (r.toNat % 128)))

/-! ## Digits -/

theorem ofDigits_flatMap {α : Type} {b k : ℕ} {g : α → List ℕ} {v : α → ℕ} {l : List α}
    (hlen : ∀ x ∈ l, (g x).length = k) (hval : ∀ x ∈ l, Nat.ofDigits b (g x) = v x) :
    Nat.ofDigits b (l.flatMap g) = Nat.ofDigits (b ^ k) (l.map v) := by
  induction l with
  | nil => rfl
  | cons x l ih =>
    rw [List.flatMap_cons, Nat.ofDigits_append, List.map_cons, Nat.ofDigits_cons,
      hlen x List.mem_cons_self, hval x List.mem_cons_self,
      ih (fun y hy => hlen y (List.mem_cons_of_mem _ hy))
        fun y hy => hval y (List.mem_cons_of_mem _ hy)]

theorem digits_length_le {n : ℕ} (hn : n < 2 ^ 32) : (Nat.digits 16 n).length ≤ 8 :=
  (Nat.digits_length_le_iff (by decide) n).mpr (by simpa using hn)

theorem length_hex08 {n : ℕ} (hn : n < 2 ^ 32) : (hex08 n).length = 8 := by
  have hle := digits_length_le hn
  rw [hex08, List.length_append, List.length_replicate, List.length_reverse]
  omega

theorem ofDigits_hex08 (n : ℕ) : Nat.ofDigits 16 (hex08 n).reverse = n := by
  rw [hex08, List.reverse_append, List.reverse_reverse, List.reverse_replicate,
    Nat.ofDigits_append_replicate_zero, Nat.ofDigits_digits]

/-- A parameter: its groups of 40 bits, the first at the low end. -/
def parameter (groups : List ℕ) : Hex := groups.reverse.flatMap fun g => [0, 0] ++ hex08 g

theorem ofDigits_parameter {groups : List ℕ} (hgroups : ∀ g ∈ groups, g < 2 ^ 32) :
    Nat.ofDigits 16 (parameter groups).reverse = Nat.ofDigits (2 ^ 40) groups := by
  have hvalue := ofDigits_flatMap (b := 16) (k := 10) (l := groups) (v := id)
    (g := List.reverse ∘ fun g => [0, 0] ++ hex08 g) (fun g hg => ?_) fun g _ => ?_
  · rw [parameter, List.reverse_flatMap, List.reverse_reverse, hvalue, List.map_id]
    norm_num
  · rw [Function.comp_apply, List.length_reverse, List.length_append, length_hex08 (hgroups g hg)]
    rfl
  · rw [Function.comp_apply, List.reverse_append, Nat.ofDigits_append, ofDigits_hex08]
    simp [Nat.ofDigits]

theorem length_of_initvalParameters {contents : List ℕ} {width : ℕ} {ps : List Hex}
    (h : initvalParameters contents width = some ps) : contents.length = 524288 / width := by
  by_contra hlen
  rw [initvalParameters, if_neg fun hassert => hlen hassert.2] at h
  cases h

theorem initvalParameters_32 {contents : List ℕ} (hlen : contents.length = 524288 / 32) :
    initvalParameters contents 32 = some ((List.range 0x80).map fun i =>
      parameter ((List.range 128).map fun j => contents.getD (128 * i + j) 0)) := by
  rw [initvalParameters, if_pos ⟨Or.inl rfl, hlen⟩]
  simp only [if_true, show 4096 / 32 = 128 by decide, parameter, ← List.map_reverse,
    List.flatMap_map]

theorem getD_lt {contents : List ℕ} {b : ℕ} (hb : 0 < b) (hword : ∀ n ∈ contents, n < b) (i : ℕ) :
    contents.getD i 0 < b := by
  rcases lt_or_ge i contents.length with hi | hi
  · rw [List.getD_eq_getElem _ _ hi]
    exact hword _ (List.getElem_mem hi)
  · rw [List.getD_eq_default _ _ hi]
    exact hb

/-- **One block.** The parameters of a block spell its words. -/
theorem preload_eq {contents : List ℕ} {ps : List Hex} (hps : initvalParameters contents 32 = some ps)
    (hword : ∀ n ∈ contents, n < 2 ^ 32) (r : Row) :
    preload ps r = BitVec.ofNat 32 (contents.getD r.toNat 0) := by
  have hr : r.toNat < 2 ^ 14 := r.isLt
  have hi : r.toNat / 128 < 0x80 := by omega
  have hj : r.toNat % 128 < 128 := Nat.mod_lt _ (by decide)
  have hgroups : ∀ g ∈ (List.range 128).map fun j => contents.getD (128 * (r.toNat / 128) + j) 0,
      g < 2 ^ 32 := by
    intro g hg
    obtain ⟨j, _, rfl⟩ := List.mem_map.mp hg
    exact getD_lt (by decide) hword _
  have hplace := place_ofDigits (fun g hg => (hgroups g hg).trans (by decide : 2 ^ 32 < 2 ^ 40))
    (i := r.toNat % 128) (by simpa using hj)
  rw [List.getElem_map, List.getElem_range, Nat.div_add_mod] at hplace
  rw [initvalParameters_32 (length_of_initvalParameters hps)] at hps
  rw [preload, ← Option.some.inj hps, List.getD_eq_getElem _ _ (by simpa using hi),
    List.getElem_map, List.getElem_range, ofDigits_parameter hgroups]
  apply BitVec.eq_of_toNat_eq
  rw [BitVec.toNat_ofNat, BitVec.toNat_ofNat, pow_mul, ← hplace,
    Nat.mod_mod_of_dvd _ (by decide)]

/-! ## All configurations -/

theorem length_padded {c : Params} {data : List ℕ} (hlen : data.length ≤ words c) :
    (data ++ List.replicate (c.size / c.width * 8 - data.length) 0).length = words c := by
  rw [List.length_append, List.length_replicate]
  unfold words at hlen ⊢
  omega

theorem initvalParameters_first {c : Params} (hc : c.Accepted) {data : List ℕ}
    {ps : List (List (List Hex))} (h : addInit c data = some ps) :
    ∃ p, initvalParameters
      ((data ++ List.replicate (c.size / c.width * 8 - data.length) 0).take (64 * kB)) c.width =
        some p := by
  obtain ⟨n, hn⟩ := Nat.exists_eq_succ_of_ne_zero (depthCascading_pos hc).ne'
  obtain ⟨k, hk⟩ := Nat.exists_eq_succ_of_ne_zero (widthCascading_pos c).ne'
  simp only [addInit, hn, hk, Nat.succ_eq_add_one, List.range_succ_eq_map, List.mapM_cons,
    Option.bind_eq_bind, Option.bind_eq_some_iff] at h
  obtain ⟨row, ⟨p, hp, -⟩, -⟩ := h
  exact ⟨p, by simpa using hp⟩

theorem oneBlock_of_addInit {c : Params} (hc : c.Accepted) {data : List ℕ}
    (hlen : data.length ≤ words c) {ps : List (List (List Hex))} (h : addInit c data = some ps) :
    c.width = 32 ∧ c.size = 64 * kB := by
  have hchunk : min (64 * kB) (words c) = 524288 / c.width := by
    obtain ⟨p, hp⟩ := initvalParameters_first hc h
    have hassert := length_of_initvalParameters hp
    rwa [List.length_take, length_padded hlen] at hassert
  unfold words at hchunk
  obtain ⟨⟨hw, hs⟩ | ⟨hw, hs⟩, -⟩ := hc
  · simp only [List.mem_cons, List.not_mem_nil, or_false] at hs
    rcases hs with hs | hs | hs | hs | hs
    · exact ⟨hw, hs⟩
    all_goals
      rw [hw, hs] at hchunk
      exact absurd hchunk (by decide)
  · simp only [List.mem_cons, List.not_mem_nil, or_false] at hs
    rcases hs with hs | hs
    all_goals
      rw [hw, hs] at hchunk
      exact absurd hchunk (by decide)

/-- `add_init` succeeds, and in every run that starts from what the parameters preload, and
before any write, a read of `a` is answered with item `a` of the list, or 0 behind its end. -/
def InitReadBack (c : Params) (data : List ℕ) : Prop :=
  ∃ ps, addInit c data = some ps ∧ ∀ writeOut blocks ins,
    (∀ d w, (blocks d w).mem = preload ((ps.getD d []).getD w [])) →
    (∀ t p, (ins t).aClkens p = true) → Master c writeOut blocks ins →
    (∀ t, (ins t).bus.we = false) → ∀ t, (states c writeOut blocks ins t).ack = true →
    ∀ w < c.widthCascading, datR c (ins t).bus (states c writeOut blocks ins t) w =
      BitVec.ofNat 32 (data.getD (ins t).bus.adr 0 >>> (32 * w))

theorem flats_of_no_write {c : Params} {writeOut : Word → Word → Word} {blocks : ℕ → ℕ → Block}
    {ins : ℕ → In} (h : ∀ t, (ins t).bus.we = false) (t : ℕ) :
    flats c writeOut blocks ins t = contents c ⟨blocks, false⟩ := by
  induction t with
  | zero => rfl
  | succ t ih => rw [flats, flatNext, h t, Bool.and_false, if_neg (by decide), ih]

section OneBlock

variable (dualPort : Bool)

/-- The memory of one block. -/
def oneBlock : Params := ⟨32, 64 * kB, dualPort⟩

variable {data : List ℕ}

theorem oneBlock_cascading : (oneBlock dualPort).depthCascading = 1 ∧
    (oneBlock dualPort).widthCascading = 1 ∧ (oneBlock dualPort).selBits = 0 ∧
    words (oneBlock dualPort) = 2 ^ 14 := by
  revert dualPort
  decide

theorem oneBlock_address {a : ℕ} (ha : a < 2 ^ 14) :
    bank (oneBlock dualPort) a = 0 ∧ (row (oneBlock dualPort) a).toNat = a := by
  obtain ⟨-, -, hsel, -⟩ := oneBlock_cascading dualPort
  constructor
  · rw [bank, hsel]
    rfl
  · have hstart : (oneBlock dualPort).adrBitsStart = 0 := by
      unfold Params.adrBitsStart
      split_ifs
      · exact hsel
      · rfl
    rw [row, hstart, pow_zero, Nat.div_one, BitVec.toNat_ofNat, Nat.mod_eq_of_lt ha]

theorem addInit_oneBlock (hlen : data.length ≤ 2 ^ 14) :
    ∃ p, addInit (oneBlock dualPort) data = some [[p]] ∧
      initvalParameters (data ++ List.replicate (2 ^ 14 - data.length) 0) 32 = some p := by
  obtain ⟨hdepth, hwidth, -, hwords⟩ := oneBlock_cascading dualPort
  have hpadded : (data ++ List.replicate (2 ^ 14 - data.length) 0).length = 2 ^ 14 := by
    rw [List.length_append, List.length_replicate]
    omega
  have hp := initvalParameters_32 (hpadded.trans (by decide))
  refine ⟨_, ?_, hp⟩
  rw [addInit, hdepth, hwidth, show (oneBlock dualPort).size / (oneBlock dualPort).width * 8 = 2 ^ 14
    from hwords]
  simp only [List.range_one, List.mapM_cons, List.mapM_nil, zero_mul, add_zero, List.drop_zero]
  rw [List.take_of_length_le (by rw [hpadded]; decide), show (oneBlock dualPort).width = 32 from rfl,
    hp]
  rfl

theorem getD_padded (data : List ℕ) (n i : ℕ) :
    (data ++ List.replicate n 0).getD i 0 = data.getD i 0 := by
  rcases lt_or_ge i data.length with hi | hi
  · rw [List.getD_append _ _ _ _ hi]
  · rw [List.getD_append_right _ _ _ _ hi, List.getD_eq_default _ _ hi,
      List.getD_eq_getElem?_getD, List.getElem?_getD_replicate_default_eq]

theorem preload_oneBlock (hword : ∀ n ∈ data, n < 2 ^ 32) {p : List Hex}
    (hp : initvalParameters (data ++ List.replicate (2 ^ 14 - data.length) 0) 32 = some p) (r : Row) :
    preload p r = BitVec.ofNat 32 (data.getD r.toNat 0) := by
  rw [preload_eq hp, getD_padded]
  intro n hn
  rcases List.mem_append.mp hn with hn | hn
  · exact hword n hn
  · rw [List.eq_of_mem_replicate hn]
    decide

theorem initReadBack_oneBlock (hlen : data.length ≤ 2 ^ 14) (hword : ∀ n ∈ data, n < 2 ^ 32) :
    InitReadBack (oneBlock dualPort) data := by
  have hc : (oneBlock dualPort).Accepted := by
    revert dualPort
    decide
  obtain ⟨-, hwidth, -, hwords⟩ := oneBlock_cascading dualPort
  obtain ⟨p, hadd, hp⟩ := addInit_oneBlock dualPort hlen
  refine ⟨_, hadd, fun writeOut blocks ins hblocks hclk hmaster hread t hack w hw => ?_⟩
  have hrun := answering_run hc hclk hmaster t
  have hadr := hmaster.inRange t (hrun.active hack)
  have hw0 : w = 0 := by omega
  obtain ⟨hbank, hrow⟩ := oneBlock_address dualPort (hwords ▸ hadr)
  rw [datR_eq (bank_lt hc hadr), hrun.read hack (hread t) w hw, flats_of_no_write hread,
    ← holds_contents _ _ hadr w hw, hblocks, hbank, hw0, mul_zero, Nat.shiftRight_zero]
  show preload p _ = _
  rw [preload_oneBlock hword hp, hrow]

end OneBlock

/-- **Initial contents.** For every accepted memory and every list that fits: `add_init` works
exactly for the memory of one block, 32 bits wide and 64 kB large. -/
theorem initial_contents_iff {c : Params} (hc : c.Accepted) {data : List ℕ}
    (hlen : data.length ≤ words c) (hword : ∀ n ∈ data, n < 2 ^ c.width) :
    InitReadBack c data ↔ c.width = 32 ∧ c.size = 64 * kB := by
  constructor
  · rintro ⟨ps, hps, -⟩
    exact oneBlock_of_addInit hc hlen hps
  · rintro ⟨hw, hs⟩
    have hone : c = oneBlock c.dualPort := by
      cases c
      simp_all [oneBlock]
    rw [hone] at hlen ⊢
    rw [hw] at hword
    exact initReadBack_oneBlock _ (by rwa [(oneBlock_cascading _).2.2.2] at hlen) hword

/-- The list of one word in one block. -/
theorem initial_contents_iff_oneWord : InitReadBack ⟨32, 64 * kB, false⟩ [7] :=
  (initial_contents_iff (by decide) (by decide) (by decide)).mpr ⟨rfl, rfl⟩

/-- One word in a memory of two blocks: the first chunk is twice as long as a block. -/
theorem initial_contents_fails : ¬ ∀ c : Params, c.Accepted → ∀ data : List ℕ,
    data.length ≤ words c → (∀ n ∈ data, n < 2 ^ c.width) → InitReadBack c data := by
  intro h
  obtain ⟨ps, hps, -⟩ := h ⟨32, 128 * kB, false⟩ (by decide) [1] (by decide) (by decide)
  have hone := (oneBlock_of_addInit (by decide) (by decide) hps).2
  exact absurd hone (by decide)

end CfuPlayground.Nxlram
