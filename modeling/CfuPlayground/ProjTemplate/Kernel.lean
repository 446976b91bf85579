import CfuPlayground.ProjTemplate.Accumulate
import CfuPlayground.Tflite.Pointwise

/-!
# The pointwise kernel on the CFU of `proj/proj_template`

A multiply command on aligned addresses does what four steps of the software loop do
(`macWord_eq_steps`), so the two kernels walk through the same accumulators, one in a register
of the CFU and one in a local (`eval_accProjTemplate`). `proj_template_eq_software_cnn` joins
this with `serves`: the program run on the hardware ends with the bytes of the software kernel.
-/

namespace CfuPlayground.ProjTemplate

open Lib Tflite

/-- The abstract CFU: every command is answered with the new accumulator. -/
def respond (mem : Memory) (acc : Word) (c : Command) : Option (Word × Word) :=
  some (respondWord mem acc c, respondWord mem acc c)

theorem respond_clear (mem : Memory) (acc : Word) :
    respond mem acc (cfuOp0 1 0 0) = some (0, 0) := rfl

theorem respond_multiply (mem : Memory) (acc adr1 adr2 : Word) :
    respond mem acc (cfuOp0 0 adr1 adr2) =
      some (acc + macWord mem (cfuOp0 0 adr1 adr2), acc + macWord mem (cfuOp0 0 adr1 adr2)) := by
  simp [respond, respondWord]

theorem step_eq_ofInt (x y : BitVec 8) :
    y.signExtend 32 * (x.signExtend 32 + 128) = BitVec.ofInt 32 ((x.toInt + 128) * y.toInt) := by
  rw [mul_comm]
  exact lane_mac 32 x y InputOffset

variable {T : Target} {mem : Memory} {params : ConvParams} {data : ConvData} {d : Dimensions}

/-- **Four steps are one multiply command** on aligned addresses. -/
theorem macWord_eq_steps {inputAdr filterAdr : Word} (hin : Aligned inputAdr)
    (hfi : Aligned filterAdr) (acc : Word) :
    acc + macWord mem (cfuOp0 0 inputAdr filterAdr) =
      acc + load mem filterAdr 0 * (load mem inputAdr 0 + 128) +
        load mem filterAdr 1 * (load mem inputAdr 1 + 128) +
        load mem filterAdr 2 * (load mem inputAdr 2 + 128) +
        load mem filterAdr 3 * (load mem inputAdr 3 + 128) := by
  have hstep : ∀ k, k < 4 → load mem filterAdr (BitVec.ofNat 32 k) *
      (load mem inputAdr (BitVec.ofNat 32 k) + 128) =
        BitVec.ofInt 32 (laneProduct (mem (wordAdr inputAdr)) (mem (wordAdr filterAdr)) k) := by
    intro k hk
    rw [load, load, byteAt_add hin hk, byteAt_add hfi hk]
    exact step_eq_ofInt _ _
  have h0 : load mem filterAdr 0 * (load mem inputAdr 0 + 128) = _ := hstep 0 (by norm_num)
  have h1 : load mem filterAdr 1 * (load mem inputAdr 1 + 128) = _ := hstep 1 (by norm_num)
  have h2 : load mem filterAdr 2 * (load mem inputAdr 2 + 128) = _ := hstep 2 (by norm_num)
  have h3 : load mem filterAdr 3 * (load mem inputAdr 3 + 128) = _ := hstep 3 (by norm_num)
  rw [macWord, sumProds_eq, h0, h1, h2, h3]
  simp only [cfuOp0_inputs0, cfuOp0_inputs1, Finset.sum_range_succ, Finset.sum_range_zero,
    BitVec.ofInt_add, zero_add, ← add_assoc]

/-- A block of the software channel loop: four steps. -/
def softwareBlock (mem : Memory) (data : ConvData)
    (batch inY inX outChannel filterY filterX inChannel acc : Word) : Option Word := do
  let step := softwareStep mem data batch inY inX outChannel filterY filterX
  let acc ← step inChannel acc
  let acc ← step (inChannel + 1) acc
  let acc ← step (inChannel + 2) acc
  step (inChannel + 3) acc

/-- A block of the channel loop on the CFU: one multiply command. -/
def cfuBlock (data : ConvData)
    (batch inY inX outChannel filterY filterX inChannel : Word) : Program Word := do
  let inputAt ← offset data.inputShape batch inY inX inChannel
  let filterAt ← offset data.filterShape outChannel filterY filterX inChannel
  callCfuOp0 0 (data.inputData + inputAt) (data.filterData + filterAt)

theorem load_of_eq_add {base at₀ at₁ k : Word} (h : at₁ = at₀ + k) :
    load mem base at₁ = load mem (base + at₀) k := by
  rw [load, load, h, add_assoc]

variable {batch inY inX outChannel filterY filterX : Word}

/-- A block of the software channel loop, on a depth of a multiple of four and aligned tensors,
is one multiply command at the addresses of its first channel. -/
theorem multiply_of_block (hc : Consistent T params data d) (hdepth : Aligned d.inputDepth)
    (hfid : d.filterInputDepth = d.inputDepth) (hinput : Aligned data.inputData)
    (hfilter : Aligned data.filterData) {j : ℕ} {acc r : Word}
    (h : softwareBlock mem data batch inY inX outChannel filterY filterX (BitVec.ofNat 32 (j * 4))
      acc = some r) :
    ∃ inputAt filterAt,
      offset data.inputShape batch inY inX (BitVec.ofNat 32 (j * 4)) = some inputAt ∧
      offset data.filterShape outChannel filterY filterX (BitVec.ofNat 32 (j * 4)) =
        some filterAt ∧
      r = acc + macWord mem (cfuOp0 0 (data.inputData + inputAt) (data.filterData + filterAt)) := by
  obtain ⟨fh, fw, hf⟩ := hc.filter
  simp only [softwareBlock, Option.bind_eq_bind, Option.bind_eq_some_iff, softwareStep_eq_some,
    offset_eq_some hc.input, offset_eq_some hf] at h
  obtain ⟨a₀, ⟨i₀, f₀, ⟨hi1, hi2, hi3, hi4, hi₀⟩, ⟨hf1, hf2, hf3, hf4, hf₀⟩, rfl⟩,
    a₁, ⟨i₁, f₁, ⟨-, -, -, -, hi₁⟩, ⟨-, -, -, -, hf₁⟩, rfl⟩,
    a₂, ⟨i₂, f₂, ⟨-, -, -, -, hi₂⟩, ⟨-, -, -, -, hf₂⟩, rfl⟩,
    ⟨i₃, f₃, ⟨-, -, -, -, hi₃⟩, ⟨-, -, -, -, hf₃⟩, rfl⟩⟩ := h
  refine ⟨i₀, f₀, ?_, ?_, ?_⟩
  · rw [offset_eq_some hc.input]
    exact ⟨hi1, hi2, hi3, hi4, hi₀⟩
  · rw [offset_eq_some hf]
    exact ⟨hf1, hf2, hf3, hf4, hf₀⟩
  · have hin : Aligned (data.inputData + i₀) := by
      rw [← hi₀]
      exact hinput.add ((Aligned.mul_left _ hdepth).add (aligned_ofNat_mul j))
    have hfi : Aligned (data.filterData + f₀) := by
      rw [← hf₀, hfid]
      exact hfilter.add ((Aligned.mul_left _ hdepth).add (aligned_ofNat_mul j))
    rw [macWord_eq_steps hin hfi, load_of_eq_add (add_zero i₀).symm,
      load_of_eq_add (add_zero f₀).symm,
      load_of_eq_add (show i₁ = i₀ + 1 by rw [← hi₀, ← hi₁, add_assoc]),
      load_of_eq_add (show f₁ = f₀ + 1 by rw [← hf₀, ← hf₁, add_assoc]),
      load_of_eq_add (show i₂ = i₀ + 2 by rw [← hi₀, ← hi₂, add_assoc]),
      load_of_eq_add (show f₂ = f₀ + 2 by rw [← hf₀, ← hf₂, add_assoc]),
      load_of_eq_add (show i₃ = i₀ + 3 by rw [← hi₀, ← hi₃, add_assoc]),
      load_of_eq_add (show f₃ = f₀ + 3 by rw [← hf₀, ← hf₃, add_assoc])]

theorem aligned_of_depth {depth : Word}
    (h : (depth.toInt.toNat + 3) / 4 * 4 = depth.toInt.toNat) (hpos : 0 < depth.toInt) :
    Aligned depth := by
  unfold Aligned
  rw [BitVec.toInt_eq_toNat_cond] at h hpos
  split_ifs at h hpos <;> omega

/-- **The channel loop.** Local and register go through the same accumulators. -/
theorem eval_blocks (hc : Consistent T params data d) (hinput : Aligned data.inputData)
    (hfilter : Aligned data.filterData)
    (hdepth : 0 < d.inputDepth.toInt → Aligned d.inputDepth ∧ d.filterInputDepth = d.inputDepth)
    {acc r : Word} (h : forIntBy4 d.inputDepth
      (softwareBlock mem data batch inY inX outChannel filterY filterX) acc = some r) :
    forIntBy4 d.inputDepth (fun inChannel (p : Word × Word) =>
      (cfuBlock data batch inY inX outChannel filterY filterX inChannel).eval (respond mem) p.2)
      (acc, acc) = some (r, r) := by
  by_cases hpos : 0 < d.inputDepth.toInt
  · obtain ⟨haligned, hfid⟩ := hdepth hpos
    obtain ⟨p, hp, hacc⟩ := forN_sim (fun _ b (p : Word × Word) => p = (b, b))
      (g := fun j (p : Word × Word) => (cfuBlock data batch inY inX outChannel filterY filterX
        (BitVec.ofNat 32 (j * 4))).eval (respond mem) p.2)
      (fun j _ b p b' hp hblock => by
        obtain ⟨inputAt, filterAt, hi, hf, rfl⟩ :=
          multiply_of_block hc haligned hfid hinput hfilter hblock
        refine ⟨_, ?_, rfl⟩
        subst hp
        simp only [cfuBlock, Client.eval_bind, eval_liftM, hi, hf, Option.map_some,
          Option.bind_some, eval_callCfuOp0, respond_multiply]) rfl h
    rw [hacc] at hp
    exact hp
  · have hzero : (d.inputDepth.toInt.toNat + 3) / 4 = 0 := by omega
    unfold forIntBy4 at h ⊢
    rw [hzero] at h ⊢
    cases h
    rfl

/-- **One output.** Where the software kernel gets through its checks, the program gets the
same accumulator, and leaves it in the CFU. -/
theorem eval_accProjTemplate (hc : Consistent T params data d) (hinput : Aligned data.inputData)
    (hfilter : Aligned data.filterData) {outY outX acc : Word}
    (h : accSoftwareCnn mem params data d batch outY outX outChannel = some acc) (hw : Word) :
    (accProjTemplate params data d batch outY outX outChannel).eval (respond mem) hw =
      some (acc, acc) := by
  unfold accProjTemplate
  rw [Client.eval_bind, eval_callCfuOp0, respond_clear]
  show Client.eval (respond mem) (forInt 1 _ (0 : Word)) 0 = _
  have hsoft := h
  unfold accSoftwareCnn at hsoft
  rw [accSoftwareCnn_eq] at h
  simp only [eval_forInt, forInt_one, add_zero] at hsoft ⊢
  by_cases hin : isPointInsideImage d (inXOrigin params outX) (inYOrigin params outY) = true
  · rw [if_pos hin] at h hsoft ⊢
    have hdepth : 0 < d.inputDepth.toInt →
        Aligned d.inputDepth ∧ d.filterInputDepth = d.inputDepth := by
      intro hpos
      obtain ⟨hn, hfid⟩ := depth_of_channelLoop hc hpos h
      exact ⟨aligned_of_depth hn hpos, hfid⟩
    exact (Client.eval_forN _ _ _ _).trans (eval_blocks hc hinput hfilter hdepth hsoft)
  · rw [if_neg hin] at h ⊢
    cases h
    rfl

/-- The program of `proj/proj_template` evaluates to the bytes of the software kernel. -/
theorem eval_convPerChannelProjTemplate (hinput : Aligned data.inputData)
    (hfilter : Aligned data.filterData) {output : Output}
    (h : convPerChannelSoftwareCnn T mem params data = some output) (hw : Word) :
    ∃ hw', (convPerChannelProjTemplate T params data).eval (respond mem) hw =
      some (output, hw') := by
  obtain ⟨d, hd, hloops⟩ := Option.bind_eq_some_iff.mp h
  have hc := consistencyCheck_spec hd
  unfold convPerChannelProjTemplate
  rw [Client.eval_bind, eval_liftM, hd]
  show ∃ hw', Client.eval (respond mem) (forOutputs d _ []) hw = some (output, hw')
  rw [eval_forOutputs]
  obtain ⟨⟨output', hw'⟩, ho, rfl⟩ := forOutputs_sim (fun out (p : Output × Word) => out = p.1)
    (g := fun batch outY outX outChannel (p : Output × Word) => (do
      let acc ← accProjTemplate params data d batch outY outX outChannel
      writeOutput params data batch outY outX outChannel acc p.1 :
      Program Output).eval (respond mem) p.2)
    (c := ([], hw))
    (fun batch outY outX i _ out p out' hout hstep => by
      subst hout
      obtain ⟨acc, hacc, hwrite⟩ := Option.bind_eq_some_iff.mp hstep
      refine ⟨(out', acc), ?_, rfl⟩
      rw [Client.eval_bind, eval_accProjTemplate hc hinput hfilter hacc, Option.bind_some,
        eval_liftM, hwrite]
      rfl) rfl hloops
  exact ⟨hw', ho⟩

/-- **Hardware and software agree.** Where the software kernel passes its checks on aligned
tensors, the program of `proj/proj_template`, run on its CFU from any idle state and in any fair
environment, finishes and writes the same bytes. -/
theorem proj_template_eq_software_cnn (T : Target) (mem : Memory) (params : ConvParams)
    (data : ConvData) (output : Output) (hinput : Aligned data.inputData)
    (hfilter : Aligned data.filterData)
    (h : convPerChannelSoftwareCnn T mem params data = some output) (pace : ℕ → Pace)
    (hf : FairPace pace) (soc : Soc State) (acc : Word) (hsoc : At mem (.ready acc) soc)
    (hoffer : soc.offer = none) :
    ∃ n, ∀ m, n ≤ m → (Host.run cfu mem pace ⟨convPerChannelProjTemplate T params data, soc⟩
      m).prog = .done output := by
  obtain ⟨acc', he⟩ := eval_convPerChannelProjTemplate hinput hfilter h acc
  obtain ⟨n, hn, -⟩ := Host.eval_of_serves (serves mem) hf
    (h := ⟨convPerChannelProjTemplate T params data, soc⟩) ⟨hsoc, .inl hoffer⟩ he
  refine ⟨n, fun m hm => ?_⟩
  obtain ⟨k, rfl⟩ := Nat.exists_eq_add_of_le hm
  exact Host.done_stays hn k

theorem proj_template_eq_software_cnn_onePixel :
    ∃ n, ∀ m, n ≤ m → (Host.run cfu pointwiseMemory (fun _ => Pace.eager)
      ⟨convPerChannelProjTemplate riscv pointwiseParams (onePixel 8 8), Soc.start State.start⟩
      m).prog = .done [(0, 8)] :=
  proj_template_eq_software_cnn riscv pointwiseMemory pointwiseParams (onePixel 8 8) [(0, 8)]
    rfl rfl (by decide +kernel) (fun _ => Pace.eager) fairPace_eager
    (Soc.start State.start) 0 ⟨rfl, rfl, rfl, ⟨rfl, rfl, rfl⟩, rfl⟩ rfl

end CfuPlayground.ProjTemplate
