import CfuPlayground.FilterPreload.Served

/-!
# What a tap contributes

The value that `CONV_ADD` adds, as an exact integer, beside the sum of the terms of the reference.
The four 16-bit products are exact. Their sum is the right one where the tap is `Regular`:
`add_select` has no row test, and the lanes are those of the word around the address, so a row
outside the image is added, and an address that is no multiple of four shifts the lanes.

* `toInt_sumProds`: the sum of the products, as an integer.
* `sumProds_of_regular`: a regular tap adds its terms.
* `tap_contribution`: so does every regular tap of a run of the kernel.
-/

namespace CfuPlayground.FilterPreload

open Lib Tflite

/-- The product of an image value, with the input offset, and a filter value. -/
def product (g : Geometry) (r : Arguments) (mem : Memory) (p : Position)
    (filterY filterX inChannel : Word) : ℤ :=
  ((byteAt mem (r.inputData + g.imageAt p filterY filterX inChannel)).toInt +
      g.inputOffset.toInt) *
    (byteAt mem (r.filterData + g.filterAt p filterY filterX inChannel)).toInt

/-- What a tap is to add: the products of its channels if its image point is inside the image. -/
def contribution (g : Geometry) (r : Arguments) (mem : Memory) (p : Position) (k : Counters) : ℤ :=
  if g.inside p.outY p.outX k.curFilterY k.curFilterX then
    ∑ l ∈ Finset.range 4, if k.curInputDepth.toNat + l < g.inputDepth.toNat then
      product g r mem p k.curFilterY k.curFilterX (k.curInputDepth + BitVec.ofNat 32 l)
    else 0
  else 0

/-- What the falling edge adds to the accumulator. -/
def added (m : Moves) (s : Soc State) : Word :=
  (s.mid cfu m).rspPayloadOutputs0 - s.cfu.rspPayloadOutputs0

/-- The image point of a tap is in a column of the image. -/
def InColumns (g : Geometry) (p : Position) (k : Counters) : Prop :=
  0 ≤ (g.inX p.outX k.curFilterX).toInt ∧ (g.inX p.outX k.curFilterX).toInt < g.inputWidth.toInt

/-- The image point of a tap is in a row of the image. -/
def InRows (g : Geometry) (p : Position) (k : Counters) : Prop :=
  0 ≤ (g.inY p.outY k.curFilterY).toInt ∧ (g.inY p.outY k.curFilterY).toInt < g.inputHeight.toInt

/-- The taps that are added right: no channel is left, or the image column is outside, or the
image row is inside and the two words hold the channels from the first lane on. -/
def Regular (g : Geometry) (r : Arguments) (p : Position) (k : Counters) : Prop :=
  g.inputDepth.toNat ≤ k.curInputDepth.toNat ∨ ¬ InColumns g p k ∨
    InRows g p k ∧ Aligned (curImageAdr (convConfig g r p) k) ∧
      Aligned (curFilterAdr (convConfig g r p) k)

variable {g : Geometry} {r : Arguments} {mem : Memory} {p : Position} {k : Counters} {c : Config}
  {matrixVals filterVals : Word} {m : Moves} {s : Soc State}

theorem added_eq (hs : s.cfu.curState = .execConvAdd) : added m s =
    sumProds s.cfu.config s.cfu.counters s.cfu.matrixVals s.cfu.filterVals := by
  unfold added
  rw [mid_eq]
  simp [update, hs]

/-! ## The products -/

theorem toInt_sumProds : (sumProds c k matrixVals filterVals).toInt =
    ∑ l ∈ Finset.range 4, (prod c k matrixVals filterVals l).toInt := by
  have hbounds : ∀ l, -2 ^ 15 ≤ (prod c k matrixVals filterVals l).toInt ∧
      (prod c k matrixVals filterVals l).toInt < 2 ^ 15 := fun l =>
    ⟨BitVec.le_toInt _, BitVec.toInt_lt⟩
  have h0 := hbounds 0
  have h1 := hbounds 1
  have h2 := hbounds 2
  have h3 := hbounds 3
  unfold sumProds
  simp only [signExtend_eq_ofInt, ← BitVec.ofInt_add, Finset.sum_range_succ, Finset.sum_range_zero,
    zero_add]
  exact toInt_ofInt_of_bounds (w := 31) (by omega) (by omega)

/-- **No product wraps.** -/
theorem toInt_prod (h : -127 ≤ g.inputOffset.toInt ∧ g.inputOffset.toInt ≤ 128) (l : ℕ) :
    (prod (convConfig g r p) k matrixVals filterVals l).toInt =
      if addSelect (convConfig g r p) k l then
        ((lane matrixVals l).toInt + g.inputOffset.toInt) * (lane filterVals l).toInt
      else 0 := by
  have hoffset : (convConfig g r p).InputOffset.toInt = g.inputOffset.toInt := toInt_inputOffset h
  split_ifs with hsel
  · rw [toInt_prod_of_select hsel (by omega) (by omega), hoffset]
  · unfold prod
    rw [if_neg hsel]
    rfl

/-! ## The lanes -/

theorem addSelect_iff (hwidth : 0 < g.inputWidth.toInt) (hk : k.curInputDepth.toNat % 4 = 0)
    {l : ℕ} (hl : l < 4) : addSelect (convConfig g r p) k l = true ↔
      InColumns g p k ∧ k.curFilterX < g.filterWidth ∧
        k.curInputDepth.toNat + l < g.inputDepth.toNat := by
  have hlt := k.curInputDepth.isLt
  have hsum : (k.curInputDepth + BitVec.ofNat 32 l).toNat = k.curInputDepth.toNat + l := by
    rw [BitVec.toNat_add, BitVec.toNat_ofNat]
    omega
  have hcolumn : g.inX p.outX 0 + k.curFilterX < g.inputWidth ↔ InColumns g p k := by
    rw [InColumns, inRange_iff hwidth, ← Geometry.inX_add, BitVec.lt_def]
  have hchannel : k.curInputDepth + BitVec.ofNat 32 l < g.inputDepth ↔
      k.curInputDepth.toNat + l < g.inputDepth.toNat := by
    rw [BitVec.lt_def, hsum]
  unfold addSelect
  rw [Bool.and_eq_true, Bool.and_eq_true, decide_eq_true_eq, decide_eq_true_eq, decide_eq_true_eq,
    and_assoc, ← hcolumn, ← hchannel]
  exact Iff.rfl

theorem lane_image (h : Aligned (curImageAdr (convConfig g r p) k)) {l : ℕ} (hl : l < 4) :
    lane (mem (wordAdr (curImageAdr (convConfig g r p) k))) l =
      byteAt mem (r.inputData + g.imageAt p k.curFilterY k.curFilterX
        (k.curInputDepth + BitVec.ofNat 32 l)) := by
  rw [← byteAt_add h hl, curImageAdr_eq, Geometry.imageAt, Geometry.imageAt, add_assoc, add_assoc]

theorem lane_filter (h : Aligned (curFilterAdr (convConfig g r p) k)) {l : ℕ} (hl : l < 4) :
    lane (mem (wordAdr (curFilterAdr (convConfig g r p) k))) l =
      byteAt mem (r.filterData + g.filterAt p k.curFilterY k.curFilterX
        (k.curInputDepth + BitVec.ofNat 32 l)) := by
  rw [← byteAt_add h hl, curFilterAdr_eq, Geometry.filterAt, Geometry.filterAt, add_assoc,
    add_assoc]

/-! ## The sum -/

theorem inside_of (hx : InColumns g p k) (hy : InRows g p k) :
    g.inside p.outY p.outX k.curFilterY k.curFilterX = true :=
  Geometry.inside_iff.mpr ⟨hx, hy⟩

theorem sum_of_masked (h : ∀ l < 4, addSelect (convConfig g r p) k l ≠ true)
    (hoffset : -127 ≤ g.inputOffset.toInt ∧ g.inputOffset.toInt ≤ 128) :
    ∑ l ∈ Finset.range 4, (prod (convConfig g r p) k matrixVals filterVals l).toInt = 0 :=
  Finset.sum_eq_zero fun l hl => by
    rw [toInt_prod hoffset, if_neg (h l (Finset.mem_range.mp hl))]

/-- **A regular tap** adds its contribution. -/
theorem sumProds_of_regular (hwidth : 0 < g.inputWidth.toInt)
    (hoffset : -127 ≤ g.inputOffset.toInt ∧ g.inputOffset.toInt ≤ 128)
    (hk : k.curInputDepth.toNat % 4 = 0) (hfilter : k.curFilterX < g.filterWidth)
    (h : Regular g r p k) :
    (sumProds (convConfig g r p) k (mem (wordAdr (curImageAdr (convConfig g r p) k)))
      (mem (wordAdr (curFilterAdr (convConfig g r p) k)))).toInt = contribution g r mem p k := by
  have hselect : ∀ l < 4, addSelect (convConfig g r p) k l = true ↔ _ := fun l hl =>
    addSelect_iff hwidth hk hl
  rw [toInt_sumProds]
  unfold contribution
  by_cases hx : InColumns g p k
  · by_cases hd : g.inputDepth.toNat ≤ k.curInputDepth.toNat
    · -- no channel is left on either side
      rw [sum_of_masked (fun l hl hsel => ?_) hoffset]
      · rw [Finset.sum_eq_zero fun l _ => if_neg (by omega), ite_self]
      · have := ((hselect l hl).mp hsel).2.2
        omega
    · obtain ⟨hy, himage, hfilterAdr⟩ := (h.resolve_left hd).resolve_left (not_not.mpr hx)
      rw [if_pos (inside_of hx hy)]
      refine Finset.sum_congr rfl fun l hl => ?_
      have hl4 := Finset.mem_range.mp hl
      rw [toInt_prod hoffset, lane_image himage hl4, lane_filter hfilterAdr hl4]
      refine if_congr ?_ rfl rfl
      rw [hselect l hl4]
      exact ⟨fun h => h.2.2, fun h => ⟨hx, hfilter, h⟩⟩
  · rw [sum_of_masked (fun l hl hsel => hx ((hselect l hl).mp hsel).1) hoffset, if_neg]
    exact fun hin => hx (Geometry.inside_iff.mp hin).1

/-- **Tap contribution.** In every run of the kernel on its CFU, whatever the memory, the pace and
the registers before it, each `CONV_ADD` adds a tap of an output of the call; the four products
are exact, and a regular tap adds its contribution. -/
theorem tap_contribution (T : Target) (g : Geometry) (r : Arguments) (mem : Memory)
    (pace : ℕ → Pace) (hwidth : 0 < g.inputWidth.toInt) (hfilter : g.filterWidth ≠ 0)
    (hoffset : -127 ≤ g.inputOffset.toInt ∧ g.inputOffset.toInt ≤ 128) {a : Regs} {s : Soc State}
    (hidle : Idle mem a s) (ho : s.offer = none) {n : ℕ} {h : Host State Output}
    (hrun : Host.run cfu mem pace ⟨convPerChannelFilterPreload T (g.params r) (g.data r), s⟩ n = h)
    (hadd : h.soc.cfu.curState = .execConvAdd) (m : Moves) :
    ∃ p ∈ positions g.dimensions, h.soc.cfu.config = convConfig g r p ∧
      (∀ l < 4, (prod h.soc.cfu.config h.soc.cfu.counters h.soc.cfu.matrixVals
          h.soc.cfu.filterVals l).toInt =
        if addSelect h.soc.cfu.config h.soc.cfu.counters l then
          ((lane h.soc.cfu.matrixVals l).toInt + g.inputOffset.toInt) *
            (lane h.soc.cfu.filterVals l).toInt
        else 0) ∧
      (Regular g r p h.soc.cfu.counters →
        (added m h.soc).toInt = contribution g r mem p h.soc.cfu.counters) := by
  obtain ⟨p, hp, htap⟩ := add_of_run hidle ho hrun hadd
  refine ⟨p, hp, htap.config, fun l _ => ?_, fun hreg => ?_⟩
  · rw [htap.config]
    exact toInt_prod hoffset l
  · rw [added_eq hadd, htap.matrixVals, htap.filterVals, htap.config]
    exact sumProds_of_regular hwidth hoffset htap.depth (htap.column hfilter) hreg

/-- The kernel on its CFU from reset, over a memory of ones, with everyone as fast as possible. -/
def onesRun (g : Geometry) (n : ℕ) : Host State Output :=
  Host.run cfu (fun _ => 0x01010101) (fun _ => Pace.eager)
    ⟨convPerChannelFilterPreload riscv (g.params rowAboveArguments) (g.data rowAboveArguments),
      Soc.start State.start⟩ n

/-- With one filter row and no padding the only tap of the pixel adds its four channels. -/
theorem tap_contribution_onePixel :
    let g := { rowAbove with filterHeight := 1, paddingHeight := 0 }
    (added (Pace.eager.moves none) (onesRun g 20).soc).toInt =
      contribution g rowAboveArguments (fun _ => 0x01010101) ⟨0, 0, 0, 0⟩ {} := by
  intro g
  obtain ⟨p, hp, -, -, hsum⟩ := tap_contribution riscv g rowAboveArguments (fun _ => 0x01010101)
    (fun _ => Pace.eager) (by decide) (by decide) (by decide) (idle_start _) rfl (n := 20) rfl
    (by decide +kernel) (Pace.eager.moves none)
  obtain rfl : p = ⟨0, 0, 0, 0⟩ := List.mem_singleton.mp hp
  have hcounters : (onesRun g 20).soc.cfu.counters = {} := by decide +kernel
  have hreg : Regular g rowAboveArguments ⟨0, 0, 0, 0⟩ {} :=
    .inr (.inr ⟨by unfold InRows; decide, by decide, by decide⟩)
  change Regular g rowAboveArguments _ (onesRun g 20).soc.cfu.counters →
    (added _ (onesRun g 20).soc).toInt =
      contribution _ _ _ _ (onesRun g 20).soc.cfu.counters at hsum
  rw [hcounters] at hsum
  exact hsum hreg

/-- **A row above the image is added**: the first tap of `rowAbove` adds 4. -/
theorem tap_contribution_fails :
    ¬ ∀ (T : Target) (g : Geometry) (r : Arguments) (mem : Memory) (pace : ℕ → Pace) (a : Regs)
      (s : Soc State) (n : ℕ) (m : Moves), 0 < g.inputWidth.toInt → 0 < g.inputHeight.toInt →
      0 < g.inputDepth.toInt → 0 < g.filterWidth.toInt → 0 < g.filterHeight.toInt →
      -127 ≤ g.inputOffset.toInt ∧ g.inputOffset.toInt ≤ 128 → Idle mem a s → s.offer = none →
      (Host.run cfu mem pace ⟨convPerChannelFilterPreload T (g.params r) (g.data r), s⟩
        n).soc.cfu.curState = .execConvAdd →
      ∃ p ∈ positions g.dimensions,
        (added m (Host.run cfu mem pace ⟨convPerChannelFilterPreload T (g.params r) (g.data r), s⟩
          n).soc).toInt =
        contribution g r mem p (Host.run cfu mem pace
          ⟨convPerChannelFilterPreload T (g.params r) (g.data r), s⟩ n).soc.cfu.counters := by
  intro h
  obtain ⟨p, hp, hsum⟩ := h riscv rowAbove rowAboveArguments (fun _ => 0x01010101)
    (fun _ => Pace.eager) _ (Soc.start State.start) 20 (Pace.eager.moves none) (by decide)
    (by decide) (by decide) (by decide) (by decide) (by decide) (idle_start _) rfl
    (by decide +kernel)
  obtain rfl : p = ⟨0, 0, 0, 0⟩ := List.mem_singleton.mp hp
  have hcounters : (onesRun rowAbove 20).soc.cfu.counters = {} := by decide +kernel
  have hadded : (added (Pace.eager.moves none) (onesRun rowAbove 20).soc).toInt = 4 := by
    decide +kernel
  have hzero : contribution rowAbove rowAboveArguments (fun _ => 0x01010101) ⟨0, 0, 0, 0⟩ {} = 0 :=
    if_neg (by decide)
  change (added _ (onesRun rowAbove 20).soc).toInt =
    contribution _ _ _ _ (onesRun rowAbove 20).soc.cfu.counters at hsum
  rw [hcounters, hzero, hadded] at hsum
  cases hsum

end CfuPlayground.FilterPreload
