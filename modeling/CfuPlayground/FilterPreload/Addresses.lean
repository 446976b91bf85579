import CfuPlayground.FilterPreload.Kernel
import CfuPlayground.Lib.Path

/-!
# The addresses of `proj/filter_preload`

The row of a tensor is split between a product that the kernel passes and one that the hardware
forms, in 32-bit arithmetic. `configAfter` is what the configuration registers hold after a list
of commands; only `SET` commands move them.

* `kernel_wp`: what the kernel has set when it issues the convolution of an output.
* `addresses_are_offsets`: the addresses of a convolution are those of `Offset`.
-/

namespace CfuPlayground.FilterPreload

open Lib Tflite

/-- The configuration after a command. -/
def setConfig (c : Command) (g : Config) : Config := (setRegs c ⟨g, {}, 0⟩).config

/-- The configuration after the commands `cs`. -/
def configAfter (c₀ : Config) (cs : List Command) : Config :=
  cs.foldl (fun g c => setConfig c g) c₀

/-- The number of convolutions among the commands `cs`. -/
def convolutions (cs : List Command) : ℕ := cs.countP fun c => c.funct7 = 0

/-- The last command is `SET_BASE_OFFSETS`, which moves the filter point to the origin. -/
def EndsAtOrigin (cs : List Command) : Prop := ∃ c ∈ cs.getLast?, c.funct7 = 8

section Commands

variable (x y : Word) (g c₀ : Config) (cs : List Command) (c : Command)

@[simp] theorem configAfter_append :
    configAfter c₀ (cs ++ [c]) = setConfig c (configAfter c₀ cs) := by
  rw [configAfter, List.foldl_append]
  rfl

@[simp] theorem setConfig_filterDims :
    setConfig (cfuOp0 2 x y) g = { g with filterWidth := x, filterHeight := y } := by
  rw [setConfig, setRegs_filterDims]

@[simp] theorem setConfig_imageDims :
    setConfig (cfuOp0 3 x y) g = { g with imageWidth := x, imageHeight := y } := by
  rw [setConfig, setRegs_imageDims]

@[simp] theorem setConfig_inputChannelShape : setConfig (cfuOp0 4 x y) g =
    { g with inputChannelDepth := x, InputOffset := y.setWidth 9 } := by
  rw [setConfig, setRegs_inputChannelShape]

@[simp] theorem setConfig_imageCoords :
    setConfig (cfuOp0 5 x y) g = { g with curImageX := x, curImageY := y } := by
  rw [setConfig, setRegs_imageCoords]

@[simp] theorem setConfig_imageFilterAdr :
    setConfig (cfuOp0 6 x y) g = { g with imageBase := x, filterBase := y } := by
  rw [setConfig, setRegs_imageFilterAdr]

@[simp] theorem setConfig_filterInputDepth : setConfig (cfuOp0 7 x y) g =
    { g with filterInputDepth := x, InputOffset := y.setWidth 9 } := by
  rw [setConfig, setRegs_filterInputDepth]

@[simp] theorem setConfig_baseOffsets : setConfig (cfuOp0 8 x y) g =
    { g with imageBaseOffset := x, filterBaseOffset := y } := by
  rw [setConfig, setRegs_baseOffsets]

theorem setConfig_conv {c : Command} (hc : c.funct7 = 0) : setConfig c g = g := by
  unfold setConfig setRegs
  rw [hc]
  rfl

theorem convolutions_append :
    convolutions (cs ++ [c]) = convolutions cs + if c.funct7 = 0 then 1 else 0 := by
  simp [convolutions, List.countP_append, List.countP_singleton]

@[simp] theorem endsAtOrigin_append : EndsAtOrigin (cs ++ [c]) ↔ c.funct7 = 8 := by
  simp [EndsAtOrigin]

end Commands

variable {g : Geometry} {r : Arguments} {T : Target} {p : Position} {c₀ : Config}
  {cs : List Command} {c : Command} {output : Output}

/-! ## The commands of the kernel -/

/-- A convolution that the kernel issues finds the configuration of its output. -/
def Configured (g : Geometry) (r : Arguments) (c₀ : Config) (cs : List Command) (c : Command) :
    Prop :=
  c.funct7 = 0 → EndsAtOrigin cs ∧ ∃ p, (positions g.dimensions)[convolutions cs]? = some p ∧
    configAfter c₀ cs = convConfig g r p

/-- After `n` outputs. -/
def Between (g : Geometry) (r : Arguments) (c₀ : Config) (n : ℕ) (cs : List Command) : Prop :=
  shared (configAfter c₀ cs) = callConfig g r ∧ convolutions cs = n

/-- After `n` outputs, at an image position. -/
def BetweenAt (g : Geometry) (r : Arguments) (c₀ : Config) (outY outX : Word) (n : ℕ)
    (cs : List Command) : Prop :=
  Between g r c₀ n cs ∧ (configAfter c₀ cs).curImageX = g.inX outX 0 ∧
    (configAfter c₀ cs).curImageY = g.inY outY 0

@[simp] theorem wp_callCfuOp0 {P : List Command → Command → Prop} {Q : Word → List Command → Prop}
    (funct7 : BitVec 7) (rs1 rs2 : Word) : (callCfuOp0 funct7 rs1 rs2).wp P Q cs ↔
      P cs (cfuOp0 funct7 rs1 rs2) ∧ ∀ x, Q x (cs ++ [cfuOp0 funct7 rs1 rs2]) := Iff.rfl

@[simp] theorem wp_liftM {α : Type} {P : List Command → Command → Prop}
    {Q : α → List Command → Prop} (o : Option α) :
    (liftM o : Program α).wp P Q cs ↔ ∀ a, o = some a → Q a cs := Client.wp_ofOption o

theorem wp_forInt {β : Type} {P : List Command → Command → Prop} {n : Word}
    {f : Word → β → Program β} (I : ℕ → List Command → Prop)
    (hstep : ∀ i < n.toInt.toNat, ∀ b cs, I i cs →
      (f (BitVec.ofNat 32 i) b).wp P (fun _ => I (i + 1)) cs) (h0 : I 0 cs) (b : β) :
    (forInt n f b).wp P (fun _ => I n.toInt.toNat) cs :=
  Client.wp_forN (fun i _ => I i) hstep h0

theorem configured_set {f : BitVec 7} (hf : f ≠ 0) (x y : Word) :
    Configured g r c₀ cs (cfuOp0 f x y) := by
  intro hc
  rw [cfuOp0_funct7] at hc
  exact absurd hc hf

theorem convolutions_set {f : BitVec 7} (hf : f ≠ 0) (x y : Word) :
    convolutions (cs ++ [cfuOp0 f x y]) = convolutions cs := by
  rw [convolutions_append, cfuOp0_funct7, if_neg hf, Nat.add_zero]

/-- **One output** of the kernel. -/
theorem output_wp {n : ℕ} (hp : (positions g.dimensions)[n]? = some p)
    (h : BetweenAt g r c₀ p.outY p.outX n cs) :
    (outputFilterPreload (g.params r) (g.data r) p.batch p.outY p.outX
      (p.batch * g.inputHeight) p.outChannel output).wp (Configured g r c₀)
      (fun _ => BetweenAt g r c₀ p.outY p.outX (n + 1)) cs := by
  obtain ⟨⟨hshared, hn⟩, hx, hy⟩ := h
  have hrows : (g.data r).filterShape.dims 1 = some g.filterHeight := rfl
  have hconfig := config_of_shared hshared hx hy
  unfold outputFilterPreload
  simp only [Client.wp_bind, wp_liftM, wp_callCfuOp0, hrows, Option.some.injEq, forall_eq']
  refine ⟨configured_set (by decide) _ _, fun _ => ⟨fun _ => ⟨?_, p, ?_, ?_⟩, fun acc _ _ => ?_⟩⟩
  · rw [endsAtOrigin_append, cfuOp0_funct7]
  · rw [convolutions_set (by decide), hn, hp]
  · rw [configAfter_append, setConfig_baseOffsets, hconfig]
  · refine ⟨⟨?_, ?_⟩, ?_, ?_⟩
    all_goals try rw [configAfter_append, configAfter_append, setConfig_baseOffsets,
      setConfig_conv _ (cfuOp0_funct7 0 0 0)]
    · exact hshared
    · rw [convolutions_append, cfuOp0_funct7, if_pos rfl, convolutions_set (by decide), hn]
    · exact hx
    · exact hy

/-- **One image position.** -/
theorem column_wp {n : ℕ} {batch outY outX : Word}
    (hp : ∀ i < g.outputDepth.toInt.toNat, (positions g.dimensions)[n + i]? =
      some ⟨batch, outY, outX, BitVec.ofNat 32 i⟩)
    (h : Between g r c₀ n cs) :
    (do
      let _ ← callCfuOp0 5 (inXOrigin (g.params r) outX) (inYOrigin (g.params r) outY)
      forInt g.outputDepth (outputFilterPreload (g.params r) (g.data r) batch outY outX
        (batch * g.inputHeight)) output : Program Output).wp (Configured g r c₀)
      (fun _ => Between g r c₀ (n + g.outputDepth.toInt.toNat)) cs := by
  obtain ⟨hshared, hn⟩ := h
  rw [Client.wp_bind, wp_callCfuOp0]
  refine ⟨configured_set (by decide) _ _, fun _ => ?_⟩
  have hstart : BetweenAt g r c₀ outY outX (n + 0) (cs ++ [cfuOp0 5 (inXOrigin (g.params r) outX)
      (inYOrigin (g.params r) outY)]) := by
    refine ⟨⟨?_, ?_⟩, ?_, ?_⟩
    all_goals try rw [configAfter_append, setConfig_imageCoords]
    · exact hshared
    · rw [convolutions_set (by decide), hn, Nat.add_zero]
    · exact (add_zero _).symm
    · exact (add_zero _).symm
  have hround : ∀ i < g.outputDepth.toInt.toNat, ∀ output cs,
      BetweenAt g r c₀ outY outX (n + i) cs →
        (outputFilterPreload (g.params r) (g.data r) batch outY outX (batch * g.inputHeight)
          (BitVec.ofNat 32 i) output).wp (Configured g r c₀)
          (fun _ => BetweenAt g r c₀ outY outX (n + i + 1)) cs := by
    intro i hi output cs hcs
    exact output_wp (p := ⟨batch, outY, outX, BitVec.ofNat 32 i⟩) (hp i hi) hcs
  have hloop := wp_forInt (fun i => BetweenAt g r c₀ outY outX (n + i)) hround hstart output
  exact Client.wp_mono hloop fun _ _ hcs => hcs.1

/-- **One batch.** -/
theorem batch_wp {b : ℕ} (hb : b < g.batches.toInt.toNat)
    (h : Between g r c₀ (g.dimensions.index b 0 0 0) cs) :
    (batchFilterPreload g r (BitVec.ofNat 32 b) output).wp (Configured g r c₀)
      (fun _ => Between g r c₀ (g.dimensions.index (b + 1) 0 0 0)) cs := by
  have hrows : (g.data r).inputShape.dims 1 = some g.inputHeight := rfl
  unfold batchFilterPreload
  rw [Client.wp_bind, wp_liftM]
  intro _ hdim
  obtain rfl := Option.some.inj (hrows.symm.trans hdim)
  rw [← Dimensions.index_batch]
  refine wp_forInt (fun y => Between g r c₀ (g.dimensions.index b y 0 0)) (fun y hy output cs hcs =>
    ?_) h output
  rw [← Dimensions.index_row]
  refine wp_forInt (fun x => Between g r c₀ (g.dimensions.index b y x 0)) (fun x hx output cs hcs =>
    ?_) hcs output
  rw [← Dimensions.index_column]
  exact column_wp (fun c hc => getElem?_positions hb hy hx hc) hcs

theorem between_start : Between g r c₀ (g.dimensions.index 0 0 0 0)
    ([] ++ [cfuOp0 2 g.filterWidth g.filterHeight] ++ [cfuOp0 3 g.inputWidth g.inputHeight] ++
      [cfuOp0 4 g.inputDepth g.inputOffset] ++ [cfuOp0 6 r.inputData r.filterData] ++
      [cfuOp0 7 g.inputDepth g.inputOffset]) := by
  constructor
  · simp only [configAfter_append, setConfig_filterDims, setConfig_imageDims,
      setConfig_inputChannelShape, setConfig_imageFilterAdr, setConfig_filterInputDepth]
    rfl
  · rw [convolutions_set (by decide), convolutions_set (by decide), convolutions_set (by decide),
      convolutions_set (by decide), convolutions_set (by decide)]
    simp [Dimensions.index, convolutions]

/-- **The kernel** has set the configuration of an output when it issues its convolution. -/
theorem kernel_wp (T : Target) (g : Geometry) (r : Arguments) (c₀ : Config) :
    (convPerChannelFilterPreload T (g.params r) (g.data r)).wp (Configured g r c₀)
      (fun _ _ => True) [] := by
  have hheight : (g.data r).filterShape.dims 1 = some g.filterHeight := rfl
  have hwidth : (g.data r).filterShape.dims 2 = some g.filterWidth := rfl
  unfold convPerChannelFilterPreload
  simp only [Client.wp_bind, wp_liftM, wp_callCfuOp0, hheight, hwidth, Option.some.injEq,
    forall_eq']
  intro d hd
  obtain ⟨-, rfl⟩ := Geometry.of_consistencyCheck hd
  refine ⟨configured_set (by decide) _ _, fun _ => ⟨configured_set (by decide) _ _, fun _ =>
    ⟨configured_set (by decide) _ _, fun _ => ⟨configured_set (by decide) _ _, fun _ =>
      ⟨configured_set (by decide) _ _, fun _ => ?_⟩⟩⟩⟩⟩
  have hloop := wp_forInt (f := batchFilterPreload g r)
    (fun b => Between g r c₀ (g.dimensions.index b 0 0 0))
    (fun b hb output cs hcs => batch_wp hb hcs) between_start []
  exact Client.wp_mono hloop fun _ _ _ => trivial

theorem config_of_issues (c₀ : Config) {next : Word → Program Output}
    (hcs : (convPerChannelFilterPreload T (g.params r) (g.data r)).Issues cs (.call c next))
    (hc : c.funct7 = 0) : EndsAtOrigin cs ∧
      ∃ p, (positions g.dimensions)[convolutions cs]? = some p ∧
        configAfter c₀ cs = convConfig g r p := by
  have hwp := Client.wp_issues (kernel_wp T g r c₀) hcs
  rw [List.nil_append] at hwp
  exact hwp.1 hc

/-! ## Addresses -/

/-- **The addresses of a convolution**, on every path of the kernel and from any configuration
before it, are those that `Offset` gives for the output, for every filter point whose image point
is inside the image. -/
theorem addresses_are_offsets (T : Target) (g : Geometry) (r : Arguments) (c₀ : Config)
    {cs : List Command} {c : Command} {next : Word → Program Output}
    (hcs : (convPerChannelFilterPreload T (g.params r) (g.data r)).Issues cs (.call c next))
    (hc : c.funct7 = 0) :
    ∃ p, (positions g.dimensions)[convolutions cs]? = some p ∧
      ∀ filterY ∈ indices g.filterHeight, ∀ filterX ∈ indices g.filterWidth,
      ∀ inChannel ∈ indices g.inputDepth, g.inside p.outY p.outX filterY filterX = true →
      ∃ imageAt filterAt,
        offset (g.data r).inputShape p.batch (g.inY p.outY filterY) (g.inX p.outX filterX)
          inChannel = some imageAt ∧
        offset (g.data r).filterShape p.outChannel filterY filterX inChannel = some filterAt ∧
        curImageAdr (configAfter c₀ cs) ⟨inChannel, filterX, filterY⟩ = r.inputData + imageAt ∧
        curFilterAdr (configAfter c₀ cs) ⟨inChannel, filterX, filterY⟩ =
          r.filterData + filterAt := by
  obtain ⟨-, p, hp, hconfig⟩ := config_of_issues c₀ hcs hc
  obtain ⟨hbatch, -, -, hchannel⟩ := mem_positions.mp (List.mem_of_getElem? hp)
  refine ⟨p, hp, fun y hy x hx ch hch hin => ?_⟩
  obtain ⟨hinX, hinY⟩ := Geometry.inside_iff.mp hin
  refine ⟨g.imageAt p y x ch, g.filterAt p y x ch, (offset_eq_some rfl).mpr ?_,
    (offset_eq_some rfl).mpr ?_, ?_, ?_⟩
  · exact ⟨inDim_of_mem hbatch, .inr hinY, .inr hinX, inDim_of_mem hch, rfl⟩
  · exact ⟨inDim_of_mem hchannel, inDim_of_mem hy, inDim_of_mem hx, inDim_of_mem hch, rfl⟩
  · rw [hconfig, curImageAdr_eq]
  · rw [hconfig, curFilterAdr_eq]

/-- One pixel of four channels under a filter of two rows, of which the first lies above it. -/
def rowAbove : Geometry where
  batches := 1
  inputHeight := 1
  inputWidth := 1
  inputDepth := 4
  outputHeight := 1
  outputWidth := 1
  outputDepth := 1
  filterHeight := 2
  filterWidth := 1
  paddingWidth := 0
  paddingHeight := 1
  strideWidth := 1
  strideHeight := 1
  inputOffset := 0

/-- Image at 16 and filter at 64. -/
def rowAboveArguments : Arguments where
  outputOffset := 0
  quantizedActivationMin := -128
  quantizedActivationMax := 127
  outputMultiplier := fun _ => 0x7fffffff
  outputShift := fun _ => 0
  inputData := 16
  filterData := 64
  biasShape := ⟨[1]⟩
  biasData := none

/-- The seven commands before the convolution of `rowAbove`, and the last channel of its second
filter row. -/
theorem addresses_are_offsets_rowAbove :
    let cs := ((convPerChannelFilterPreload riscv (rowAbove.params rowAboveArguments)
      (rowAbove.data rowAboveArguments)).follow [0, 0, 0, 0, 0, 0, 0]).1
    curImageAdr (configAfter {} cs) ⟨3, 0, 1⟩ = 16 + 3 ∧
      curFilterAdr (configAfter {} cs) ⟨3, 0, 1⟩ = 64 + 7 := by
  set p := convPerChannelFilterPreload riscv (rowAbove.params rowAboveArguments)
    (rowAbove.data rowAboveArguments) with hp
  have hpending : (p.follow [0, 0, 0, 0, 0, 0, 0]).2.pending = some (cfuOp0 0 0 0) := by
    decide +kernel
  obtain ⟨next, hnext⟩ := Client.exists_of_pending hpending
  have hpath := Client.issues_follow p [0, 0, 0, 0, 0, 0, 0]
  rw [hnext] at hpath
  obtain ⟨q, hq, haddr⟩ :=
    addresses_are_offsets riscv rowAbove rowAboveArguments {} hpath (by decide)
  have hcount : convolutions (p.follow [0, 0, 0, 0, 0, 0, 0]).1 = 0 := by decide +kernel
  rw [hcount] at hq
  obtain rfl : (⟨0, 0, 0, 0⟩ : Position) = q := Option.some.inj hq
  obtain ⟨imageAt, filterAt, himage, hfilter, h1, h2⟩ := haddr 1 (by decide) 0 (by decide) 3
    (by decide) (by decide)
  have himage' : some (3 : Word) = some imageAt := himage ▸ by decide
  have hfilter' : some (7 : Word) = some filterAt := hfilter ▸ by decide
  obtain rfl := Option.some.inj himage'
  obtain rfl := Option.some.inj hfilter'
  exact ⟨h1, h2⟩

end CfuPlayground.FilterPreload
