import CfuPlayground.FilterPreload.Kernel
import CfuPlayground.Lib.Digits

/-!
# A memory that marks one tap

For a filter point and a channel of an output, `markedMemory` makes the term of that tap 1 and
all other terms of the output 0, and `markedArguments` turn the accumulators 0 and 1, 2, … into
the bytes 0 and 1. So the bytes of the two kernels tell whether they add that tap.
-/

namespace CfuPlayground.FilterPreload

open Lib Tflite

variable {g : Geometry} {p : Position} {c : Config} {k : Counters} {y x ch : ℕ}

/-! ## The bytes of an accumulator -/

/-- Multiplier 1 - 2⁻³¹, no bias and the activation range from 0 to 1. -/
def markedArguments (inputData : Word) : Arguments where
  outputOffset := 0
  quantizedActivationMin := 0
  quantizedActivationMax := 1
  outputMultiplier := fun _ => 0x7fffffff
  outputShift := fun _ => 0
  inputData := inputData
  filterData := 0
  biasShape := ⟨[]⟩
  biasData := none

theorem highMul_marked {n : ℕ} (hn : n ≤ 2 ^ 30) :
    saturatingRoundingDoublingHighMul (BitVec.ofNat 32 n) 0x7fffffff = BitVec.ofNat 32 n := by
  have hx : (BitVec.ofNat 32 n).toInt = n := toInt_ofNat_of_lt (by omega)
  have hm : (0x7fffffff : Word).toInt = 2147483647 := by decide
  have hne : (0x7fffffff : Word) ≠ BitVec.intMin 32 := by decide
  have hround : ((n : ℤ) * 2147483647 + 2 ^ 30).tdiv (2 ^ 31) = (n : ℤ) := by
    rw [Int.tdiv_eq_ediv_of_nonneg (by positivity)]
    omega
  unfold saturatingRoundingDoublingHighMul
  simp only [hx, hm]
  rw [if_neg fun h => hne (h.1.symm.trans h.2), if_pos (by positivity), hround,
    BitVec.ofInt_natCast]

theorem roundingDivideByPOT_zero (x : Word) : roundingDivideByPOT x 0 = some x := by
  have hcarry : (if BitVec.slt x 0#32 = true then 1#32 else 0#32).slt 0#32 = false := by
    split_ifs <;> rfl
  simpa [roundingDivideByPOT, dcheck] using hcarry

/-- The marked arguments map 0 to 0 and every other accumulator up to `2 ^ 30` to 1. -/
theorem requantize_marked {n : ℕ} (hn : n ≤ 2 ^ 30) (inputData outChannel : Word) :
    requantize (g.params (markedArguments inputData)) (g.data (markedArguments inputData))
      outChannel (BitVec.ofNat 32 n) = some (if n = 0 then 0 else 1) := by
  have hx : (BitVec.ofNat 32 n).toInt = n := toInt_ofNat_of_lt (by omega)
  have hmul : multiplyByQuantizedMultiplier (BitVec.ofNat 32 n) 0x7fffffff 0 =
      some (BitVec.ofNat 32 n) := by
    have h0 : ¬ (0 : Word).toInt > 0 := by decide
    have hshift : BitVec.ofNat 32 n * (1 : Word) <<< (0 : Word).toNat = BitVec.ofNat 32 n :=
      mul_one _
    unfold multiplyByQuantizedMultiplier
    simp only [if_neg h0]
    rw [hshift, highMul_marked hn]
    exact roundingDivideByPOT_zero _
  have hlow : (BitVec.ofNat 32 n).slt 0 = false := by
    rw [BitVec.slt_eq_decide, hx]
    simp
  have hhigh : (1 : Word).slt (BitVec.ofNat 32 n) = decide (1 < n) := by
    have h1 : (1 : Word).toInt = 1 := by decide
    rw [BitVec.slt_eq_decide, hx, h1, decide_eq_decide, Nat.one_lt_cast]
  unfold requantize
  simp only [Geometry.params, Geometry.data, markedArguments, hmul, Option.bind_eq_bind,
    Option.bind_some, add_zero, hlow, hhigh, Bool.false_eq_true, if_false, decide_eq_true_eq]
  rcases Nat.lt_trichotomy n 1 with h0 | rfl | h1
  · obtain rfl : n = 0 := by omega
    rfl
  · rfl
  · rw [if_pos h1, if_neg (by omega)]
    rfl

/-! ## The marked bytes -/

/-- The place of a filter value in the filter of its output channel. -/
def flatIndex (g : Geometry) (y x ch : ℕ) : ℕ :=
  (y * g.filterWidth.toNat + x) * g.inputDepth.toNat + ch

/-- The offset of the filter of an output channel. -/
def channelBase (g : Geometry) (p : Position) : Word :=
  p.outChannel * g.filterHeight * g.filterWidth * g.inputDepth

/-- The address of the marked image value: after the filter, and aligned like its channel. -/
def imageMark (g : Geometry) (p : Position) (ch : ℕ) : Word :=
  channelBase g p + BitVec.ofNat 32 (flatIndex g g.filterHeight.toNat 0 (ch % 4))

/-- The address of the image that puts the value of a tap at `imageMark`. -/
def markedInput (g : Geometry) (p : Position) (y x ch : ℕ) : Word :=
  imageMark g p ch - g.imageAt p (BitVec.ofNat 32 y) (BitVec.ofNat 32 x) (BitVec.ofNat 32 ch)

/-- All bytes are 0 but the filter value and the image value of a tap. -/
def markedMemory (g : Geometry) (p : Position) (y x ch : ℕ) (filterVal imageVal : BitVec 8) :
    Memory :=
  ofBytes fun adr =>
    if adr = g.filterAt p (BitVec.ofNat 32 y) (BitVec.ofNat 32 x) (BitVec.ofNat 32 ch) then
      filterVal
    else if adr = imageMark g p ch then imageVal
    else 0

/-- The taps of a filter: rows, columns and channels. -/
def InFilter (g : Geometry) (y x ch : ℕ) : Prop :=
  y < g.filterHeight.toNat ∧ x < g.filterWidth.toNat ∧ ch < g.inputDepth.toNat

/-- The filter of one output channel fits the address space. -/
def FilterFits (g : Geometry) : Prop :=
  g.filterHeight.toNat * g.filterWidth.toNat * g.inputDepth.toNat < 2 ^ 32

instance (g : Geometry) : Decidable (FilterFits g) :=
  inferInstanceAs (Decidable (_ < 2 ^ 32))

theorem filterAt_eq (y x ch : ℕ) :
    g.filterAt p (BitVec.ofNat 32 y) (BitVec.ofNat 32 x) (BitVec.ofNat 32 ch) =
      channelBase g p + BitVec.ofNat 32 (flatIndex g y x ch) := by
  have hflat : BitVec.ofNat 32 (flatIndex g y x ch) =
      (BitVec.ofNat 32 y * g.filterWidth + BitVec.ofNat 32 x) * g.inputDepth +
        BitVec.ofNat 32 ch := by
    simp only [flatIndex, BitVec.ofNat_add, BitVec.ofNat_mul, BitVec.ofNat_toNat,
      BitVec.setWidth_eq]
  rw [hflat, Geometry.filterAt, channelBase]
  ring

theorem flatIndex_lt {y x ch : ℕ} (h : InFilter g y x ch) :
    flatIndex g y x ch < flatIndex g g.filterHeight.toNat 0 0 := by
  obtain ⟨hy, hx, hch⟩ := h
  have hrow := Nat.mul_le_mul_right g.filterWidth.toNat (Nat.succ_le_of_lt hy)
  rw [Nat.succ_mul] at hrow
  have hpoint : y * g.filterWidth.toNat + x + 1 ≤
      g.filterHeight.toNat * g.filterWidth.toNat + 0 := by omega
  have hflat := Nat.mul_le_mul_right g.inputDepth.toNat hpoint
  rw [Nat.succ_mul] at hflat
  unfold flatIndex
  omega

theorem flatIndex_injective {y x ch y' x' ch' : ℕ} (h : InFilter g y x ch)
    (h' : InFilter g y' x' ch') (heq : flatIndex g y x ch = flatIndex g y' x' ch') :
    y = y' ∧ x = x' ∧ ch = ch' := by
  obtain ⟨hpoint, hch⟩ := (mul_add_inj h.2.2 h'.2.2).mp heq
  obtain ⟨hy, hx⟩ := (mul_add_inj h.2.1 h'.2.1).mp hpoint
  exact ⟨hy, hx, hch⟩

theorem add_ofNat_inj {base : Word} {m n : ℕ} (hm : m < 2 ^ 32) (hn : n < 2 ^ 32) :
    base + BitVec.ofNat 32 m = base + BitVec.ofNat 32 n ↔ m = n := by
  constructor
  · intro h
    have hnat := congrArg BitVec.toNat (add_left_cancel h)
    rw [BitVec.toNat_ofNat, BitVec.toNat_ofNat] at hnat
    omega
  · rintro rfl
    rfl

theorem flatIndex_end (hv : g.Valid) (hfit : FilterFits g) (ch : ℕ) :
    flatIndex g g.filterHeight.toNat 0 (ch % 4) =
        flatIndex g g.filterHeight.toNat 0 0 + ch % 4 ∧
      flatIndex g g.filterHeight.toNat 0 (ch % 4) < 2 ^ 32 := by
  have haligned : g.filterHeight.toNat * g.filterWidth.toNat * g.inputDepth.toNat % 4 = 0 := by
    rw [Nat.mul_mod, hv.aligned, Nat.mul_zero]
  have hlt := Nat.mod_lt ch (by norm_num : 4 > 0)
  unfold FilterFits at hfit
  unfold flatIndex
  refine ⟨rfl, ?_⟩
  rw [Nat.add_zero]
  omega

theorem byteAt_marked (hv : g.Valid) (hfit : FilterFits g) (h : InFilter g y x ch)
    (filterVal imageVal : BitVec 8) :
    (∀ y' x' ch', InFilter g y' x' ch' → byteAt (markedMemory g p y x ch filterVal imageVal)
      (g.filterAt p (BitVec.ofNat 32 y') (BitVec.ofNat 32 x') (BitVec.ofNat 32 ch')) =
        if y' = y ∧ x' = x ∧ ch' = ch then filterVal else 0) ∧
      byteAt (markedMemory g p y x ch filterVal imageVal) (imageMark g p ch) = imageVal := by
  have hlt := flatIndex_lt h
  obtain ⟨hend, hend'⟩ := flatIndex_end hv hfit ch
  have hfilter : ∀ y' x' ch', InFilter g y' x' ch' →
      g.filterAt p (BitVec.ofNat 32 y') (BitVec.ofNat 32 x') (BitVec.ofNat 32 ch') ≠
        imageMark g p ch := by
    intro y' x' ch' h'
    have hlt' := flatIndex_lt h'
    rw [filterAt_eq, imageMark, Ne, add_ofNat_inj (by omega) hend']
    omega
  constructor
  · intro y' x' ch' h'
    have hlt' := flatIndex_lt h'
    rw [markedMemory, byteAt_ofBytes, if_neg (hfilter y' x' ch' h')]
    by_cases heq : y' = y ∧ x' = x ∧ ch' = ch
    · obtain ⟨rfl, rfl, rfl⟩ := heq
      rw [if_pos rfl, if_pos ⟨rfl, rfl, rfl⟩]
    · rw [if_neg heq, if_neg]
      rw [filterAt_eq, filterAt_eq, add_ofNat_inj (by omega) (by omega)]
      exact fun hflat => heq (flatIndex_injective h' h hflat)
  · rw [markedMemory, byteAt_ofBytes, if_neg (hfilter y x ch h).symm, if_pos rfl]

theorem exists_marked_values (hv : g.Valid) : ∃ filterVal imageVal : BitVec 8,
    filterVal.signExtend 32 * (imageVal.signExtend 32 + g.inputOffset) = 1 := by
  obtain ⟨hlo, hhi⟩ := hv.inputOffset
  have hvalues : ∀ filterVal imageVal : BitVec 8,
      (imageVal.toInt + g.inputOffset.toInt) * filterVal.toInt = 1 →
        filterVal.signExtend 32 * (imageVal.signExtend 32 + g.inputOffset) = 1 := by
    intro filterVal imageVal h
    have hmac := lane_mac 32 imageVal filterVal g.inputOffset
    rw [BitVec.signExtend_eq g.inputOffset, h] at hmac
    rw [mul_comm, hmac]
    rfl
  by_cases hlow : g.inputOffset.toInt = -127
  · refine ⟨-1, 126, hvalues _ _ ?_⟩
    rw [hlow]
    decide
  · refine ⟨1, BitVec.ofInt 8 (1 - g.inputOffset.toInt), hvalues _ _ ?_⟩
    have hone : (1 : BitVec 8).toInt = 1 := by decide
    rw [toInt_ofInt_of_bounds (w := 7) (by omega) (by omega), hone]
    omega

/-- **The marked tap** has term 1 and every other tap of the output has term 0. -/
theorem term_marked (hv : g.Valid) (hfit : FilterFits g) (h : InFilter g y x ch)
    {filterVal imageVal : BitVec 8}
    (hval : filterVal.signExtend 32 * (imageVal.signExtend 32 + g.inputOffset) = 1)
    {y' x' ch' : ℕ} (h' : InFilter g y' x' ch') :
    g.term (markedArguments (markedInput g p y x ch)) (markedMemory g p y x ch filterVal imageVal) p
      (BitVec.ofNat 32 y') (BitVec.ofNat 32 x') (BitVec.ofNat 32 ch') =
        if y' = y ∧ x' = x ∧ ch' = ch then 1 else 0 := by
  obtain ⟨hfilter, himage⟩ := byteAt_marked (p := p) hv hfit h filterVal imageVal
  unfold Geometry.term load
  show (byteAt _ (0 + _)).signExtend 32 * _ = _
  rw [zero_add, hfilter y' x' ch' h']
  split_ifs with heq
  · obtain ⟨rfl, rfl, rfl⟩ := heq
    have hadr : (markedArguments (markedInput g p y' x' ch')).inputData +
        g.imageAt p (BitVec.ofNat 32 y') (BitVec.ofNat 32 x') (BitVec.ofNat 32 ch') =
          imageMark g p ch' := sub_add_cancel _ _
    rw [hadr, himage, hval]
  · exact zero_mul _

theorem aligned_markedInput (hv : g.Valid) (p : Position) (y x ch : ℕ) :
    Aligned (markedInput g p y x ch) := by
  have hbase : Aligned (channelBase g p) := Aligned.mul_left _ hv.aligned
  have hmark : (imageMark g p ch).toNat % 4 = ch % 4 := by
    have hend : flatIndex g g.filterHeight.toNat 0 (ch % 4) % 4 = ch % 4 := by
      rw [flatIndex, Nat.add_mod, Nat.mul_mod, hv.aligned, Nat.mul_zero]
      omega
    unfold Aligned at hbase
    rw [imageMark, BitVec.toNat_add, BitVec.toNat_ofNat]
    omega
  have himage : (g.imageAt p (BitVec.ofNat 32 y) (BitVec.ofNat 32 x)
      (BitVec.ofNat 32 ch)).toNat % 4 = ch % 4 := by
    have hpoint : Aligned (((p.batch * g.inputHeight + g.inY p.outY (BitVec.ofNat 32 y)) *
        g.inputWidth + g.inX p.outX (BitVec.ofNat 32 x)) * g.inputDepth) :=
      Aligned.mul_left _ hv.aligned
    unfold Aligned at hpoint
    rw [Geometry.imageAt, BitVec.toNat_add, BitVec.toNat_ofNat]
    omega
  have hlt := (g.imageAt p (BitVec.ofNat 32 y) (BitVec.ofNat 32 x) (BitVec.ofNat 32 ch)).isLt
  unfold Aligned markedInput
  rw [BitVec.toNat_sub]
  omega

/-! ## The accumulators -/

/-- The counters at which the CFU adds a tap. -/
def tapOf (y x ch : ℕ) : Counters := tapAt ⟨0, BitVec.ofNat 32 x, BitVec.ofNat 32 y⟩ (ch / 4)

section Sums

variable {mem : Memory} {r : Arguments}

/-- A mark in the memory: the term of one tap is 1, the others are 0. -/
def Marks (g : Geometry) (r : Arguments) (mem : Memory) (p : Position) (y x ch : ℕ) : Prop :=
  ∀ y' x' ch', InFilter g y' x' ch' →
    g.term r mem p (BitVec.ofNat 32 y') (BitVec.ofNat 32 x') (BitVec.ofNat 32 ch') =
      if y' = y ∧ x' = x ∧ ch' = ch then 1 else 0

theorem acc_marked (h : InFilter g y x ch) (hm : Marks g r mem p y x ch) :
    g.acc r mem p =
      if g.inside p.outY p.outX (BitVec.ofNat 32 y) (BitVec.ofNat 32 x) then 1 else 0 := by
  have hpoint : ∀ y' < g.filterHeight.toNat, ∀ x' < g.filterWidth.toNat,
      g.pointSum r mem p (BitVec.ofNat 32 y') (BitVec.ofNat 32 x') =
        if y' = y ∧ x' = x then 1 else 0 := by
    intro y' hy' x' hx'
    unfold Geometry.pointSum
    by_cases heq : y' = y ∧ x' = x
    · rw [if_pos heq, Finset.sum_eq_single ch]
      · rw [hm _ _ _ ⟨hy', hx', h.2.2⟩, if_pos ⟨heq.1, heq.2, rfl⟩]
      · intro ch' hch' hne
        rw [hm _ _ _ ⟨hy', hx', Finset.mem_range.mp hch'⟩, if_neg fun h => hne h.2.2]
      · exact fun hnot => absurd (Finset.mem_range.mpr h.2.2) hnot
    · rw [if_neg heq]
      refine Finset.sum_eq_zero fun ch' hch' => ?_
      rw [hm _ _ _ ⟨hy', hx', Finset.mem_range.mp hch'⟩, if_neg fun h => heq ⟨h.1, h.2.1⟩]
  unfold Geometry.acc
  rw [Finset.sum_eq_single y, Finset.sum_eq_single x]
  · have hone := hpoint y h.1 x h.2.1
    rw [if_pos ⟨rfl, rfl⟩] at hone
    rw [hone]
  · intro x' hx' hne
    have hzero := hpoint y h.1 x' (Finset.mem_range.mp hx')
    rw [if_neg fun h => hne h.2] at hzero
    rw [hzero, ite_self]
  · exact fun hnot => absurd (Finset.mem_range.mpr h.2.1) hnot
  · intro y' hy' hne
    refine Finset.sum_eq_zero fun x' hx' => ?_
    have hzero := hpoint y' (Finset.mem_range.mp hy') x' (Finset.mem_range.mp hx')
    rw [if_neg fun h => hne h.1] at hzero
    rw [hzero, ite_self]
  · exact fun hnot => absurd (Finset.mem_range.mpr h.1) hnot

theorem wordSum_marked (hm : Marks g r mem p y x ch) {y' x' i : ℕ}
    (hy : y' < g.filterHeight.toNat) (hx : x' < g.filterWidth.toNat)
    (hi : 4 * i + 3 < g.inputDepth.toNat) :
    wordSum g r mem p (BitVec.ofNat 32 y') (BitVec.ofNat 32 x') i =
      if y' = y ∧ x' = x ∧ i = ch / 4 then 1 else 0 := by
  have hterm : ∀ l ∈ Finset.range 4, g.term r mem p (BitVec.ofNat 32 y') (BitVec.ofNat 32 x')
      (BitVec.ofNat 32 (4 * i) + BitVec.ofNat 32 l) =
        if y' = y ∧ x' = x ∧ 4 * i + l = ch then 1 else 0 := by
    intro l hl
    have hl' := Finset.mem_range.mp hl
    rw [← BitVec.ofNat_add, hm _ _ _ ⟨hy, hx, by omega⟩]
  rw [wordSum, Finset.sum_congr rfl hterm]
  by_cases heq : y' = y ∧ x' = x ∧ i = ch / 4
  · obtain ⟨rfl, rfl, rfl⟩ := heq
    rw [if_pos ⟨rfl, rfl, rfl⟩, Finset.sum_eq_single (ch % 4)]
    · exact if_pos ⟨rfl, rfl, by omega⟩
    · intro l _ hne
      exact if_neg fun h => hne (by omega)
    · exact fun hnot => absurd (Finset.mem_range.mpr (Nat.mod_lt _ (by norm_num))) hnot
  · rw [if_neg heq]
    refine Finset.sum_eq_zero fun l hl => if_neg fun h => heq ⟨h.1, h.2.1, ?_⟩
    have hl' := Finset.mem_range.mp hl
    omega

theorem length_visited (c : Config) (k : Counters) : (visited c k).length ≤ restIndex c + 1 := by
  unfold visited column
  split_ifs
  · rw [List.length_map, List.length_range]
    omega
  · rw [List.length_cons, List.length_map, List.length_range]

theorem sum_map_ite_one (q : Counters → Bool) (l : List Counters) :
    (l.map fun t => if q t then (1 : Word) else 0).sum = BitVec.ofNat 32 (l.countP q) := by
  induction l with
  | nil => rfl
  | cons t l ih =>
    rw [List.map_cons, List.sum_cons, ih, List.countP_cons]
    cases q t
    · exact zero_add _
    · rw [if_pos rfl, if_pos rfl, Nat.add_comm, BitVec.ofNat_add]
      rfl

theorem tapAt_eq_tapOf (h : InFilter g y x ch) {y' x' i : ℕ} (hy : y' < g.filterHeight.toNat)
    (hx : x' < g.filterWidth.toNat) (hi : 4 * i < g.inputDepth.toNat) :
    tapAt ⟨0, BitVec.ofNat 32 x', BitVec.ofNat 32 y'⟩ i = tapOf y x ch ↔
      y' = y ∧ x' = x ∧ i = ch / 4 := by
  have hdepth := g.inputDepth.isLt
  constructor
  · intro heq
    have hxeq := congrArg (fun k : Counters => k.curFilterX.toNat) heq
    have hyeq := congrArg (fun k : Counters => k.curFilterY.toNat) heq
    simp only [tapAt, tapOf, toNat_ofNat_of_lt hx, toNat_ofNat_of_lt h.2.1, toNat_ofNat_of_lt hy,
      toNat_ofNat_of_lt h.1] at hxeq hyeq
    have hch := h.2.2
    exact ⟨hyeq, hxeq, tapAt_injective (by omega) (by omega) heq⟩
  · rintro ⟨rfl, rfl, rfl⟩
    rfl

theorem sum_visited_marked (hv : g.Valid) (hi : Aligned r.inputData) (hf : Aligned r.filterData)
    (h : InFilter g y x ch) (hm : Marks g r mem p y x ch) {depth : Word}
    (hdepth : depth.toNat % 4 = 0) :
    ((visited (walkConfig g p.outY p.outX) ⟨depth, 0, 0⟩).map
      (tapSum mem (convConfig g r p))).sum =
        BitVec.ofNat 32 ((visited (walkConfig g p.outY p.outX) ⟨depth, 0, 0⟩).countP fun t =>
          addSelect (walkConfig g p.outY p.outX) t 0 && decide (t = tapOf y x ch)) := by
  rw [← sum_map_ite_one]
  congr 1
  apply List.map_congr_left
  intro t ht
  have hD : 4 * (restIndex (walkConfig g p.outY p.outX) + 1) = g.inputDepth.toNat :=
    restIndex_walkConfig hv _ _
  obtain ⟨hx, hy⟩ := point_of_mem_visited hv ht
  obtain ⟨x', hx', hxt⟩ := mem_indices.mp hx
  obtain ⟨y', hy', hyt⟩ := mem_indices.mp hy
  rw [toNat_toInt_of_pos hv.filterWidth] at hx'
  rw [toNat_toInt_of_pos hv.filterHeight] at hy'
  obtain ⟨i, hlt, rfl⟩ : ∃ i, 4 * i < 2 ^ 32 ∧
      tapAt ⟨0, BitVec.ofNat 32 x', BitVec.ofNat 32 y'⟩ i = t := by
    have hbound := t.curInputDepth.isLt
    refine ⟨t.curInputDepth.toNat / 4, by omega, ?_⟩
    rw [hxt, hyt]
    exact tapAt_div (aligned_of_mem_visited hdepth ht)
  rw [tapSum_tapAt hv hi hf]
  cases hsel : addSelect (walkConfig g p.outY p.outX)
      (tapAt ⟨0, BitVec.ofNat 32 x', BitVec.ofNat 32 y'⟩ i) 0 with
  | false => rfl
  | true =>
    have hdepth' : (BitVec.ofNat 32 (4 * i)).toNat < g.inputDepth.toNat := lt_of_select hsel
    rw [BitVec.toNat_ofNat, Nat.mod_eq_of_lt hlt] at hdepth'
    have hword := wordSum_marked (i := i) hm hy' hx' (by omega)
    simp only [if_true, Bool.true_and, decide_eq_true_eq,
      tapAt_eq_tapOf h hy' hx' (by omega : 4 * i < g.inputDepth.toNat), hword]

end Sums

/-- Where the walk selects the marked tap or not, the accumulator of the CFU is positive or 0. -/
theorem marks_markedMemory (hv : g.Valid) (hfit : FilterFits g) (h : InFilter g y x ch)
    {filterVal imageVal : BitVec 8}
    (hval : filterVal.signExtend 32 * (imageVal.signExtend 32 + g.inputOffset) = 1) :
    Marks g (markedArguments (markedInput g p y x ch))
      (markedMemory g p y x ch filterVal imageVal) p y x ch :=
  fun _ _ _ h' => term_marked hv hfit h hval h'

end CfuPlayground.FilterPreload
