import CfuPlayground.Tflite.Facts

/-!
# The pointwise kernel of `proj/software_cnn` against the reference

The checks of `Offset` in the unrolled channel loop force a depth that is a multiple of four and
a single group (`depth_of_channelLoop`); then the loop is the reference's, four steps at a time
(`forIntBy4_unrolled`).
-/

namespace CfuPlayground.Tflite

open Lib

section Unrolled

variable {m : Type → Type} [Monad m] [LawfulMonad m] {β : Type}

theorem forIntBy4_unrolled (n : Word) (step : Word → β → m β) (b : β) :
    forIntBy4 n (fun i b => do
      let b ← step i b
      let b ← step (i + 1) b
      let b ← step (i + 2) b
      step (i + 3) b) b =
    forN ((n.toInt.toNat + 3) / 4 * 4) (fun i => step (BitVec.ofNat 32 i)) b := by
  unfold forIntBy4
  rw [forN_mul]
  congr 1
  funext j b
  have hadd : ∀ k, BitVec.ofNat 32 (j * 4 + k) = BitVec.ofNat 32 (j * 4) + BitVec.ofNat 32 k :=
    fun k => BitVec.ofNat_add _ _
  simp only [forN_succ, forN_zero, pure_bind, bind_assoc, hadd, BitVec.add_zero]
  rfl

end Unrolled

variable {T : Target} {mem : Memory} {params : ConvParams} {data : ConvData} {d : Dimensions}
  {batch inY inX outChannel filterY filterX : Word}

/-- The channel loop of `proj/software_cnn`, counted by one. -/
def channelLoop (mem : Memory) (data : ConvData)
    (batch inY inX outChannel filterY filterX : Word) (n : ℕ) (acc : Word) : Option Word :=
  forN n (fun i => softwareStep mem data batch inY inX outChannel filterY filterX
    (BitVec.ofNat 32 i)) acc

theorem softwareStep_eq_some {inChannel acc r : Word} :
    softwareStep mem data batch inY inX outChannel filterY filterX inChannel acc = some r ↔
      ∃ inputAt filterAt, offset data.inputShape batch inY inX inChannel = some inputAt ∧
        offset data.filterShape outChannel filterY filterX inChannel = some filterAt ∧
        acc + load mem data.filterData filterAt * (load mem data.inputData inputAt + 128) = r := by
  simp only [softwareStep, Option.bind_eq_bind, Option.bind_eq_some_iff, Option.pure_def,
    Option.some.injEq, exists_and_left]

theorem lt_depth_of_step (hc : Consistent T params data d) {i : ℕ} (hi : i < 2 ^ 32) (h0 : i ≠ 0)
    {acc r : Word} (h : softwareStep mem data batch inY inX outChannel filterY filterX
      (BitVec.ofNat 32 i) acc = some r) :
    i < d.inputDepth.toInt.toNat ∧ i < d.filterInputDepth.toInt.toNat := by
  obtain ⟨inputAt, filterAt, hin, hfi, -⟩ := softwareStep_eq_some.mp h
  obtain ⟨fh, fw, hf⟩ := hc.filter
  rw [offset_eq_some hc.input] at hin
  rw [offset_eq_some hf] at hfi
  exact ⟨lt_of_inDim hi h0 hin.2.2.2.1, lt_of_inDim hi h0 hfi.2.2.2.1⟩

/-- A positive depth whose remainder by a depth at least as large is zero is that depth. -/
theorem eq_of_rem_eq_zero {a b : Word} (ha : 0 < a.toInt) (hab : a.toInt ≤ b.toInt)
    (h : T.rem a b = 0) : b = a := by
  have hb : b ≠ 0 := by
    rintro rfl
    have h0 : (0 : Word).toInt = 0 := by decide
    omega
  have hrem : (a.srem b).toInt = 0 := by
    rw [Target.rem, if_neg hb] at h
    rw [h]
    decide
  rw [BitVec.toInt_srem] at hrem
  apply BitVec.eq_of_toInt_eq
  by_contra hne
  have hlt : a.toInt < b.toInt := lt_of_le_of_ne hab (Ne.symm hne)
  rw [Int.tmod_eq_of_lt ha.le hlt] at hrem
  omega

/-- **The checks force the shape.** If the loop passes all its checks on a positive depth, the
depth is a multiple of four and the filter has all the channels of the image. -/
theorem depth_of_channelLoop (hc : Consistent T params data d) (hpos : 0 < d.inputDepth.toInt)
    {acc r : Word} (h : channelLoop mem data batch inY inX outChannel filterY filterX
      ((d.inputDepth.toInt.toNat + 3) / 4 * 4) acc = some r) :
    (d.inputDepth.toInt.toNat + 3) / 4 * 4 = d.inputDepth.toInt.toNat ∧
      d.filterInputDepth = d.inputDepth := by
  have hlt := BitVec.toInt_lt (x := d.inputDepth)
  obtain ⟨b₁, b₂, -, hlast⟩ :=
    forN_round h (i := (d.inputDepth.toInt.toNat + 3) / 4 * 4 - 1) (by omega)
  obtain ⟨h1, h2⟩ := lt_depth_of_step hc (by omega) (by omega) hlast
  have hn : (d.inputDepth.toInt.toNat + 3) / 4 * 4 = d.inputDepth.toInt.toNat := by omega
  exact ⟨hn, eq_of_rem_eq_zero hpos (by omega) hc.rem⟩

/-! ## One output -/

theorem forInt_one {m : Type → Type} [Monad m] [LawfulMonad m] {β : Type} (f : Word → β → m β)
    (b : β) : forInt 1 f b = f 0 b := by
  show pure b >>= f (BitVec.ofNat 32 0) = f 0 b
  rw [pure_bind]
  rfl

/-- The accumulator of `proj/software_cnn`, with its channel loop counted by one. -/
theorem accSoftwareCnn_eq (batch outY outX outChannel : Word) :
    accSoftwareCnn mem params data d batch outY outX outChannel =
      if isPointInsideImage d (inXOrigin params outX) (inYOrigin params outY) then
        channelLoop mem data batch (inYOrigin params outY) (inXOrigin params outX) outChannel 0 0
          ((d.inputDepth.toInt.toNat + 3) / 4 * 4) 0
      else some 0 := by
  unfold accSoftwareCnn
  simp only [forInt_one, add_zero]
  split_ifs
  · exact forIntBy4_unrolled (m := Option) _ _ _
  · rfl

theorem accReference_eq (hoff : params.inputOffset = 128)
    (group batch outY outX outChannel : Word) (hgroup : group = 0 ∨
      isPointInsideImage d (inXOrigin params outX) (inYOrigin params outY) = false) :
    accReference mem params data d 1 1 group batch outY outX outChannel =
      if isPointInsideImage d (inXOrigin params outX) (inYOrigin params outY) then
        channelLoop mem data batch (inYOrigin params outY) (inXOrigin params outX) outChannel 0 0
          d.filterInputDepth.toInt.toNat 0
      else some 0 := by
  unfold accReference
  simp only [forInt_one, mul_zero, add_zero, hoff]
  rcases hgroup with rfl | hout
  · simp only [zero_mul, add_zero]
    rfl
  · rw [hout]
    rfl

theorem toInt_div {a b : Word} (hb : 0 < b.toInt) : (T.div a b).toInt = a.toInt.tdiv b.toInt := by
  have hb0 : b ≠ 0 := by
    rintro rfl
    exact absurd hb (by decide)
  have hb1 : b ≠ -1#32 := by
    rintro rfl
    exact absurd hb (by decide)
  rw [Target.div, if_neg hb0, BitVec.toInt_sdiv_of_ne_or_ne _ _ (.inr hb1)]

theorem div_self {a : Word} (h : 0 < a.toInt) : T.div a a = 1 := by
  apply BitVec.eq_of_toInt_eq
  rw [toInt_div h, Int.tdiv_self h.ne']
  decide

theorem div_one (a : Word) : T.div a 1 = a := by
  apply BitVec.eq_of_toInt_eq
  rw [toInt_div (by decide)]
  exact Int.tdiv_one _

theorem div_eq_zero_of_lt {a b : Word} (h0 : 0 ≤ a.toInt) (h : a.toInt < b.toInt) :
    T.div a b = 0 := by
  apply BitVec.eq_of_toInt_eq
  rw [toInt_div (h0.trans_lt h), Int.tdiv_eq_zero_of_lt h0 h]
  decide

/-- **One output.** -/
theorem accReference_of_accSoftwareCnn (hc : Consistent T params data d)
    (hpos : 0 < d.inputDepth.toInt) (hoff : params.inputOffset = 128) {i : ℕ}
    (hi : i < d.outputDepth.toInt.toNat) {batch outY outX acc : Word}
    (h : accSoftwareCnn mem params data d batch outY outX (BitVec.ofNat 32 i) = some acc) :
    accReference mem params data d 1 1
      (T.div (BitVec.ofNat 32 i) (T.div d.outputDepth (T.div d.inputDepth d.filterInputDepth)))
      batch outY outX (BitVec.ofNat 32 i) = some acc := by
  rw [accSoftwareCnn_eq] at h
  cases hin : isPointInsideImage d (inXOrigin params outX) (inYOrigin params outY)
  · rw [accReference_eq hoff _ _ _ _ _ (.inr hin), hin]
    rw [hin] at h
    exact h
  · rw [hin] at h
    obtain ⟨hn, hfid⟩ := depth_of_channelLoop hc hpos h
    have hlt := BitVec.toInt_lt (x := d.outputDepth)
    have hidx : (BitVec.ofNat 32 i).toInt = i := toInt_ofNat_of_lt (by omega)
    have hgroup : T.div (BitVec.ofNat 32 i)
        (T.div d.outputDepth (T.div d.inputDepth d.filterInputDepth)) = 0 := by
      rw [hfid, div_self hpos, div_one]
      exact div_eq_zero_of_lt (by omega) (by omega)
    rw [accReference_eq hoff _ _ _ _ _ (.inl hgroup), hin, hfid, ← hn]
    exact h

/-- **The pointwise kernel is the reference** on every call with a filter of one point, input
offset 128 and a positive depth that passes its checks. -/
theorem software_cnn_eq_reference (T : Target) (mem : Memory) (params : ConvParams)
    (data : ConvData) (output : Output) (hheight : data.filterShape.dims 1 = some 1)
    (hwidth : data.filterShape.dims 2 = some 1) (hoff : params.inputOffset = 128)
    (hdepth : ∀ depth, data.inputShape.dims 3 = some depth → 0 < depth.toInt)
    (h : convPerChannelSoftwareCnn T mem params data = some output) :
    convPerChannelReference T mem params data = some output := by
  obtain ⟨d, hd, hloops⟩ := Option.bind_eq_some_iff.mp h
  have hc := consistencyCheck_spec hd
  have hpos : 0 < d.inputDepth.toInt := hdepth _ (by rw [RuntimeShape.dims, hc.input]; rfl)
  unfold convPerChannelReference
  rw [hd, hheight, hwidth]
  obtain ⟨output', ho, rfl⟩ := forOutputs_sim (· = ·)
    (g := fun batch outY outX outChannel output => do
      let acc ← accReference mem params data d 1 1
        (T.div outChannel (T.div d.outputDepth (T.div d.inputDepth d.filterInputDepth)))
        batch outY outX outChannel
      writeOutput params data batch outY outX outChannel acc output)
    (fun batch outY outX i hi out _ out' hout hstep => by
      subst hout
      obtain ⟨acc, hacc, hwrite⟩ := Option.bind_eq_some_iff.mp hstep
      refine ⟨out', ?_, rfl⟩
      rw [accReference_of_accSoftwareCnn hc hpos hoff hi hacc]
      exact hwrite) rfl hloops
  exact ho

/-- Division on the RISC-V target of the repository. -/
def riscv : Target := ⟨fun _ => -1, fun a => a⟩

/-- A convolution of one pixel and one filter, with multiplier 1 - 2⁻³¹ and no bias. -/
def onePixel (inputDepth filterInputDepth : Word) : ConvData where
  outputMultiplier := fun _ => 0x7fffffff
  outputShift := fun _ => 0
  inputShape := ⟨[1, 1, 1, inputDepth]⟩
  inputData := 0
  filterShape := ⟨[1, 1, 1, filterInputDepth]⟩
  filterData := 64
  biasShape := ⟨[1]⟩
  biasData := none
  outputShape := ⟨[1, 1, 1, 1]⟩

/-- Strides 1, no padding, input offset 128 and the whole activation range. -/
def pointwiseParams : ConvParams := ⟨0, 0, 1, 1, 1, 1, 128, 0, -128, 127⟩

/-- Image bytes -127 and filter bytes 1. -/
def pointwiseMemory : Memory := fun adr => if adr < 16 then 0x81818181 else 0x01010101

theorem software_cnn_eq_reference_onePixel :
    convPerChannelReference riscv pointwiseMemory pointwiseParams (onePixel 8 8) =
      some [(0, 8)] :=
  software_cnn_eq_reference riscv pointwiseMemory pointwiseParams (onePixel 8 8) _ rfl rfl rfl
    (fun depth hdepth => by cases hdepth; decide) (by decide +kernel)

/-- Without channels in the image the reference still reads one for each filter channel. -/
theorem software_cnn_ne_reference_without_channels :
    convPerChannelSoftwareCnn riscv pointwiseMemory pointwiseParams (onePixel 0 1) =
        some [(0, 0)] ∧
      convPerChannelReference riscv pointwiseMemory pointwiseParams (onePixel 0 1) =
        some [(0, 1)] := by
  decide +kernel

/-- **The positive depth is needed.** -/
theorem software_cnn_eq_reference_fails :
    ¬ ∀ (T : Target) (mem : Memory) (params : ConvParams) (data : ConvData) (output : Output),
      data.filterShape.dims 1 = some 1 → data.filterShape.dims 2 = some 1 →
      params.inputOffset = 128 → convPerChannelSoftwareCnn T mem params data = some output →
      convPerChannelReference T mem params data = some output := by
  intro h
  have hr := h riscv pointwiseMemory pointwiseParams (onePixel 0 1) [(0, 0)] rfl rfl rfl
    software_cnn_ne_reference_without_channels.1
  rw [software_cnn_ne_reference_without_channels.2] at hr
  exact absurd hr (by decide)

end CfuPlayground.Tflite
