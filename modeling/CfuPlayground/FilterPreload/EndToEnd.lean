import CfuPlayground.FilterPreload.Marked

/-!
# `proj/filter_preload` against the reference

`Correct` says that a call of the kernel on its CFU ends with the bytes of the reference, for all
tensors and requantizations of a geometry; `Covered` is a decidable condition on the geometry and
the depth counter before the call. `filter_preload_eq_reference_iff` shows that they agree.
-/

namespace CfuPlayground.FilterPreload

open Lib Tflite

variable {T : Target} {g : Geometry} {r : Arguments} {mem : Memory} {p : Position}
  {depth : Word} {output : Output}

/-- A CFU on which the kernel of `proj/filter_preload` finishes with the bytes of the reference. -/
def Correct (T : Target) (g : Geometry) (depth : Word) : Prop :=
  ∀ (mem : Memory) (r : Arguments) (output : Output), Aligned r.inputData →
    Aligned r.filterData → convPerChannelReference T mem (g.params r) (g.data r) = some output →
    ∀ (soc : Soc State) (a : Regs), Idle mem a soc → soc.offer = none →
      a.counters.curInputDepth = depth → ∀ pace : ℕ → Pace, FairPace pace →
        ∃ n, ∀ m, n ≤ m → (Host.run cfu mem pace
          ⟨convPerChannelFilterPreload T (g.params r) (g.data r), soc⟩ m).prog = .done output

/-- Every output position is covered, from the depth counter that the convolution finds. -/
def Covered (g : Geometry) (depth : Word) : Prop :=
  ∀ q ∈ (positions g.dimensions).zipIdx, Covers g (depthAt g depth q.2) q.1.outY q.1.outX

instance (g : Geometry) (depth : Word) : Decidable (Covered g depth) :=
  List.decidableBAll _ _

theorem exists_idle (mem : Memory) (hdepth : depth.toNat % 4 = 0) :
    ∃ (soc : Soc State) (a : Regs), Idle mem a soc ∧ soc.offer = none ∧
      a.counters.curInputDepth = depth :=
  ⟨Soc.start { State.start with counters := ⟨depth, 0, 0⟩ }, ⟨{}, ⟨depth, 0, 0⟩, 0⟩,
    ⟨⟨rfl, rfl, rfl, ⟨rfl, rfl, rfl⟩, rfl⟩, hdepth⟩, rfl, rfl⟩

theorem correct_iff (hv : g.Valid) (hdepth : depth.toNat % 4 = 0) :
    Correct T g depth ↔ ∀ (mem : Memory) (r : Arguments) (output : Output),
      Aligned r.inputData → Aligned r.filterData → g.Accepts r →
        (positions g.dimensions).mapIdx (fun _ p =>
          entry (g.params r) (g.data r) p (g.acc r mem p)) = output.map some →
        (positions g.dimensions).mapIdx (kernelEntry mem g r depth) = output.map some := by
  constructor
  · intro h mem r output hi hf hacc href
    obtain ⟨soc, a, hidle, hoffer, rfl⟩ := exists_idle mem hdepth
    obtain ⟨n, hn⟩ := h mem r output hi hf ((Geometry.reference_eq_some hv).mpr ⟨hacc, href⟩) soc a
      hidle hoffer rfl (fun _ => Pace.eager) fairPace_eager
    obtain ⟨a', he, -⟩ := Host.ready_of_done (serves mem) fairPace_eager
      (h := ⟨convPerChannelFilterPreload T (g.params r) (g.data r), soc⟩) ⟨hidle, .inl hoffer⟩
      (hn n le_rfl)
    exact ((eval_iff hv hdepth).mp ⟨a', he⟩).2
  · intro h mem r output hi hf href soc a hidle hoffer ha pace hpace
    subst ha
    obtain ⟨hacc, href'⟩ := (Geometry.reference_eq_some hv).mp href
    obtain ⟨a', he⟩ := (eval_iff (T := T) hv hdepth).mpr ⟨hacc, h mem r output hi hf hacc href'⟩
    obtain ⟨n, hn, -⟩ := Host.eval_of_serves (serves mem) hpace
      (h := ⟨convPerChannelFilterPreload T (g.params r) (g.data r), soc⟩) ⟨hidle, .inl hoffer⟩ he
    refine ⟨n, fun m hm => ?_⟩
    obtain ⟨k, rfl⟩ := Nat.exists_eq_add_of_le hm
    exact Host.done_stays hn k

/-- **Covered geometries are correct.** -/
theorem correct_of_covered (T : Target) (hv : g.Valid) (hdepth : depth.toNat % 4 = 0)
    (h : Covered g depth) : Correct T g depth := by
  rw [correct_iff hv hdepth]
  intro mem r output hi hf _ href
  rw [← href]
  refine List.mapIdx_eq_mapIdx_iff.mpr fun i hlt => ?_
  have hcovers := h ((positions g.dimensions)[i], i)
    (List.mem_zipIdx_iff_getElem?.mpr (List.getElem?_eq_getElem hlt))
  rw [kernelEntry, convAcc_of_covers hv hi hf (aligned_depthAt hv hdepth i) hcovers,
    Option.bind_some]

/-! ## The converse -/

theorem offset_of_mem (hp : p ∈ positions g.dimensions) : ∃ o,
    offset (g.data r).outputShape p.batch p.outY p.outX p.outChannel = some o := by
  obtain ⟨hb, hy, hx, hc⟩ := mem_positions.mp hp
  exact ⟨_, (offset_eq_some rfl).mpr
    ⟨inDim_of_mem hb, inDim_of_mem hy, inDim_of_mem hx, inDim_of_mem hc, rfl⟩⟩

theorem entry_marked {n : ℕ} (hn : n ≤ 2 ^ 30) (hp : p ∈ positions g.dimensions)
    (inputData : Word) : ∃ o, entry (g.params (markedArguments inputData))
      (g.data (markedArguments inputData)) p (BitVec.ofNat 32 n) =
        some (o, if n = 0 then 0 else 1) := by
  obtain ⟨o, ho⟩ := offset_of_mem (r := markedArguments inputData) hp
  refine ⟨o, ?_⟩
  rw [entry, requantize_marked hn, ho]
  rfl

theorem exists_entry (hp : p ∈ positions g.dimensions) (inputData acc : Word) :
    ∃ e, entry (g.params (markedArguments inputData)) (g.data (markedArguments inputData)) p acc =
      some e := by
  obtain ⟨o, ho⟩ := offset_of_mem (r := markedArguments inputData) hp
  have hmul : ∀ x : Word, ∃ y, multiplyByQuantizedMultiplier x 0x7fffffff 0 = some y := by
    intro x
    have h0 : ¬ (0 : Word).toInt > 0 := by decide
    unfold multiplyByQuantizedMultiplier
    simp only [if_neg h0]
    exact ⟨_, roundingDivideByPOT_zero _⟩
  obtain ⟨y, hy⟩ := hmul acc
  have hbyte : ∃ byte, requantize (g.params (markedArguments inputData))
      (g.data (markedArguments inputData)) p.outChannel acc = some byte := by
    unfold requantize
    simp only [Geometry.data, markedArguments, hy, Option.bind_eq_bind, Option.bind_some]
    exact ⟨_, rfl⟩
  obtain ⟨byte, hbyte⟩ := hbyte
  refine ⟨(o, byte), ?_⟩
  rw [entry, hbyte, ho]
  rfl

theorem exists_output {f : Position → Option (Word × BitVec 8)} {l : List Position}
    (h : ∀ p ∈ l, ∃ e, f p = some e) : ∃ output : Output, l.mapIdx (fun _ p => f p) =
      output.map some := by
  induction l with
  | nil => exact ⟨[], rfl⟩
  | cons p l ih =>
    obtain ⟨e, he⟩ := h p List.mem_cons_self
    obtain ⟨output, ho⟩ := ih fun q hq => h q (List.mem_cons_of_mem _ hq)
    refine ⟨e :: output, ?_⟩
    rw [List.mapIdx_cons, List.map_cons, ← ho, he]

theorem entry_marked_ite (hp : p ∈ positions g.dimensions) (inputData : Word) (q : Prop)
    [Decidable q] : ∃ o, entry (g.params (markedArguments inputData))
      (g.data (markedArguments inputData)) p (if q then 1 else 0) =
        some (o, if q then 1 else 0) := by
  split_ifs
  · exact entry_marked (n := 1) (by norm_num) hp inputData
  · exact entry_marked (n := 0) (by norm_num) hp inputData

theorem countP_visited_le (hv : g.Valid) (k : Counters) (f : Counters → Bool) :
    (visited (walkConfig g p.outY p.outX) k).countP f ≤ 2 ^ 30 := by
  have hrest : 4 * restIndex (walkConfig g p.outY p.outX) + 8 ≤ 2 ^ 32 :=
    restIndex_lt (fits_walkConfig hv)
  have hlength := length_visited (walkConfig g p.outY p.outX) k
  have hcount : (visited (walkConfig g p.outY p.outX) k).countP f ≤
      (visited (walkConfig g p.outY p.outX) k).length := List.countP_le_length
  omega

theorem countP_marked_pos {c : Config} {tap : Counters} {l : List Counters} :
    0 < l.countP (fun t => addSelect c t 0 && decide (t = tap)) ↔
      tap ∈ l ∧ addSelect c tap 0 = true := by
  rw [List.countP_pos_iff]
  simp only [Bool.and_eq_true, decide_eq_true_eq]
  constructor
  · rintro ⟨t, ht, hsel, rfl⟩
    exact ⟨ht, hsel⟩
  · rintro ⟨ht, hsel⟩
    exact ⟨_, ht, hsel, rfl⟩

theorem counts_of_correct (hv : g.Valid) (hdepth : depth.toNat % 4 = 0) (hfit : FilterFits g)
    (h : Correct T g depth) {i : ℕ} (hp : (positions g.dimensions)[i]? = some p) {y x ch : ℕ}
    (hin : InFilter g y x ch) :
    Finishes (walkConfig g p.outY p.outX) ⟨depthAt g depth i, 0, 0⟩ ∧
      (g.inside p.outY p.outX (BitVec.ofNat 32 y) (BitVec.ofNat 32 x) = true ↔
        tapOf y x ch ∈ visited (walkConfig g p.outY p.outX) ⟨depthAt g depth i, 0, 0⟩ ∧
          addSelect (walkConfig g p.outY p.outX) (tapOf y x ch) 0 = true) := by
  obtain ⟨filterVal, imageVal, hval⟩ := exists_marked_values hv
  set r := markedArguments (markedInput g p y x ch) with hr
  set mem := markedMemory g p y x ch filterVal imageVal with hmem
  have hmarks : Marks g r mem p y x ch := marks_markedMemory hv hfit hin hval
  have hpmem : p ∈ positions g.dimensions := List.mem_of_getElem? hp
  have hi : Aligned r.inputData := aligned_markedInput hv p y x ch
  have hf : Aligned r.filterData := rfl
  have hacc : g.Accepts r :=
    ⟨(by decide : (0 : Word).toInt ≤ (1 : Word).toInt), fun h => by cases h⟩
  obtain ⟨output, ho⟩ := exists_output (l := positions g.dimensions)
    (f := fun p => entry (g.params r) (g.data r) p (g.acc r mem p))
    fun p hp => exists_entry hp _ _
  have heq := ((correct_iff hv hdepth).mp h mem r output hi hf hacc ho).trans ho.symm
  obtain ⟨hlt, hpi⟩ := List.getElem?_eq_some_iff.mp hp
  have hentry := List.mapIdx_eq_mapIdx_iff.mp heq i hlt
  rw [hpi, kernelEntry, convAcc_eq (aligned_depthAt hv hdepth i),
    sum_visited_marked hv hi hf hin hmarks (aligned_depthAt hv hdepth i),
    acc_marked hin hmarks] at hentry
  set c := walkConfig g p.outY p.outX with hc
  set k : Counters := ⟨depthAt g depth i, 0, 0⟩ with hk
  set n := (visited c k).countP fun t => addSelect c t 0 && decide (t = tapOf y x ch) with hn
  obtain ⟨o, hkernel⟩ := entry_marked (countP_visited_le hv k _) hpmem (markedInput g p y x ch)
  obtain ⟨o', href⟩ := entry_marked_ite hpmem (markedInput g p y x ch)
    (g.inside p.outY p.outX (BitVec.ofNat 32 y) (BitVec.ofNat 32 x) = true)
  rw [href] at hentry
  have hfin : Finishes c k := by
    by_contra hnot
    rw [if_neg hnot] at hentry
    cases hentry
  rw [if_pos hfin, Option.bind_some, hkernel] at hentry
  have hbyte := congrArg Prod.snd (Option.some.inj hentry)
  refine ⟨hfin, ?_⟩
  rw [← countP_marked_pos]
  have hne : (0 : BitVec 8) ≠ 1 := by decide
  split_ifs at hbyte with h0 hins hins
  · exact absurd hbyte hne
  · exact ⟨fun h => absurd h hins, fun h => absurd h0 h.ne'⟩
  · exact ⟨fun _ => Nat.pos_of_ne_zero h0, fun _ => hins⟩
  · exact absurd hbyte.symm hne

/-- **Correct geometries are covered**, if the filter of a channel fits the address space. -/
theorem covered_of_correct (hv : g.Valid) (hdepth : depth.toNat % 4 = 0) (hfit : FilterFits g)
    (h : Correct T g depth) : Covered g depth := by
  rintro ⟨p, i⟩ hq
  have hp := List.mem_zipIdx_iff_getElem?.mp hq
  have hpos := toNat_toInt_of_pos hv.inputDepth
  have hdepthPos := hv.inputDepth
  have horigin : InFilter g 0 0 0 := by
    have h1 := toNat_toInt_of_pos hv.filterHeight
    have h2 := hv.filterHeight
    have h3 := toNat_toInt_of_pos hv.filterWidth
    have h4 := hv.filterWidth
    exact ⟨by omega, by omega, by omega⟩
  refine covers_of_exact hv (aligned_depthAt hv hdepth i)
    ⟨(counts_of_correct hv hdepth hfit h hp horigin).1, ?_⟩
  intro y hy x hx j hj
  obtain ⟨y', hy', rfl⟩ := mem_indices.mp hy
  obtain ⟨x', hx', rfl⟩ := mem_indices.mp hx
  rw [toNat_toInt_of_pos hv.filterHeight] at hy'
  rw [toNat_toInt_of_pos hv.filterWidth] at hx'
  have hD : 4 * (restIndex (walkConfig g p.outY p.outX) + 1) = g.inputDepth.toNat :=
    restIndex_walkConfig hv _ _
  have hj' : j ≤ restIndex (walkConfig g p.outY p.outX) := hj
  have htapIn : InFilter g y' x' (4 * j) := ⟨hy', hx', by omega⟩
  have hcount := (counts_of_correct hv hdepth hfit h hp htapIn).2
  have htap : tapOf y' x' (4 * j) = tapAt ⟨0, BitVec.ofNat 32 x', BitVec.ofNat 32 y'⟩ j := by
    rw [tapOf, Nat.mul_div_cancel_left _ (by norm_num)]
  rwa [htap] at hcount

/-- **When `proj/filter_preload` is correct.** For a geometry of positive sizes and any depth
counter before the call, the covered geometries are correct, and, where the filter of an output
channel fits the address space, no others are. -/
theorem filter_preload_eq_reference_iff (T : Target) (g : Geometry) (hv : g.Valid) (depth : Word)
    (hdepth : depth.toNat % 4 = 0) :
    (Covered g depth → Correct T g depth) ∧
      (FilterFits g → (Correct T g depth ↔ Covered g depth)) :=
  ⟨correct_of_covered T hv hdepth, fun hfit =>
    ⟨covered_of_correct hv hdepth hfit, correct_of_covered T hv hdepth⟩⟩

/-- One pixel, one filter point and one output channel, with input offset 128. -/
def onePoint (inputDepth : Word) : Geometry where
  batches := 1
  inputHeight := 1
  inputWidth := 1
  inputDepth := inputDepth
  outputHeight := 1
  outputWidth := 1
  outputDepth := 1
  filterHeight := 1
  filterWidth := 1
  paddingWidth := 0
  paddingHeight := 0
  strideWidth := 1
  strideHeight := 1
  inputOffset := 128

theorem onePoint_valid {inputDepth : Word} (hpos : 0 < inputDepth.toInt)
    (haligned : inputDepth.toNat % 4 = 0) : (onePoint inputDepth).Valid where
  batches := (by decide : 0 < (1 : Word).toInt)
  inputHeight := (by decide : 0 < (1 : Word).toInt)
  inputWidth := (by decide : 0 < (1 : Word).toInt)
  inputDepth := hpos
  outputHeight := (by decide : 0 < (1 : Word).toInt)
  outputWidth := (by decide : 0 < (1 : Word).toInt)
  outputDepth := (by decide : 0 < (1 : Word).toInt)
  filterHeight := (by decide : 0 < (1 : Word).toInt)
  filterWidth := (by decide : 0 < (1 : Word).toInt)
  aligned := haligned
  inputOffset := (by decide : -127 ≤ (128 : Word).toInt ∧ (128 : Word).toInt ≤ 128)

/-- A pointwise convolution of two images of 2 x 3 pixels, from 8 channels to 2. -/
def pointwise : Geometry where
  batches := 2
  inputHeight := 2
  inputWidth := 3
  inputDepth := 8
  outputHeight := 2
  outputWidth := 3
  outputDepth := 2
  filterHeight := 1
  filterWidth := 1
  paddingWidth := 0
  paddingHeight := 0
  strideWidth := 1
  strideHeight := 1
  inputOffset := 128

theorem pointwise_valid : pointwise.Valid := by
  constructor <;> decide

/-- The depth counter decides: all 24 bytes are right with 4 in it, not all from reset on. -/
theorem filter_preload_eq_reference_iff_pointwise :
    Correct riscv pointwise 4 ∧ ¬ Correct riscv pointwise 0 := by
  have h := filter_preload_eq_reference_iff riscv pointwise pointwise_valid
  refine ⟨(h 4 (by decide)).1 (by decide +kernel), fun hcorrect => ?_⟩
  have hcovered : ¬ Covered pointwise 0 := by decide +kernel
  exact hcovered (((h 0 (by decide)).2 (by decide)).mp hcorrect)

/-- **From reset, one pixel of 8 channels is wrong**: only the first four channels are added. -/
theorem filter_preload_eq_reference_fails :
    ¬ ∀ (T : Target) (g : Geometry), g.Valid → ∀ (mem : Memory) (r : Arguments)
      (output : Output), Aligned r.inputData → Aligned r.filterData →
      convPerChannelReference T mem (g.params r) (g.data r) = some output →
      ∀ pace : ℕ → Pace, FairPace pace → ∃ n, ∀ m, n ≤ m → (Host.run cfu mem pace
        ⟨convPerChannelFilterPreload T (g.params r) (g.data r), Soc.start State.start⟩ m).prog =
          .done output := by
  intro h
  -- image bytes -127 and filter bytes 1, so that every channel adds 1
  set r : Arguments := ⟨0, -128, 127, fun _ => 0x7fffffff, fun _ => 0, 0, 64, ⟨[1]⟩, none⟩ with hr
  have href : convPerChannelReference riscv pointwiseMemory ((onePoint 8).params r)
      ((onePoint 8).data r) = some [(0, 8)] := by decide +kernel
  obtain ⟨n, hn⟩ := h riscv (onePoint 8) (onePoint_valid (by decide) (by decide)) pointwiseMemory r
    [(0, 8)] (by decide) (by decide) href (fun _ => Pace.eager) fairPace_eager
  have hidle : Idle pointwiseMemory ⟨{}, {}, 0⟩ (Soc.start State.start) :=
    ⟨⟨rfl, rfl, rfl, ⟨rfl, rfl, rfl⟩, rfl⟩, rfl⟩
  obtain ⟨a', he, -⟩ := Host.ready_of_done (serves pointwiseMemory) fairPace_eager
    (h := ⟨convPerChannelFilterPreload riscv ((onePoint 8).params r) ((onePoint 8).data r),
      Soc.start State.start⟩) ⟨hidle, .inl rfl⟩ (hn n le_rfl)
  have hbytes : ((convPerChannelFilterPreload riscv ((onePoint 8).params r)
      ((onePoint 8).data r)).eval (respond pointwiseMemory) ⟨{}, {}, 0⟩).map Prod.fst =
        some [(0, 4)] := by decide +kernel
  rw [he, Option.map_some, Option.some.injEq] at hbytes
  have hne : ([(0, 8)] : Output) ≠ [(0, 4)] := by decide
  exact hne hbytes

end CfuPlayground.FilterPreload
