import CfuPlayground.FilterPreload.Covers

/-!
# The kernel of `proj/filter_preload` on its CFU

Between two outputs the CFU holds the call's configuration, up to the coordinates and base
offsets that the kernel sets for each output, and a depth counter (`Holds`). So a run of the
kernel goes through the outputs like the reference, with the accumulators of `convAcc`
(`eval_iff`).
-/

namespace CfuPlayground.FilterPreload

open Lib Tflite

variable {g : Geometry} {r : Arguments} {mem : Memory} {T : Target} {p : Position} {a : Regs}
  {output : Output}

/-- A configuration without what the kernel sets for each output. -/
def shared (c : Config) : Config :=
  { c with imageBaseOffset := 0, filterBaseOffset := 0, curImageX := 0, curImageY := 0 }

/-- The configuration that the kernel sets before its loops. -/
def callConfig (g : Geometry) (r : Arguments) : Config :=
  shared (convConfig g r ⟨0, 0, 0, 0⟩)

/-- The depth counter at the output with index `i`. -/
def depthAt (g : Geometry) (depth : Word) (i : ℕ) : Word :=
  if i = 0 then depth else g.inputDepth - 4

/-- The CFU between two outputs, after `output`. -/
def Holds (g : Geometry) (r : Arguments) (depth : Word) (output : Output) (q : Output × Regs) :
    Prop :=
  q.1 = output ∧ shared q.2.config = callConfig g r ∧
    q.2.counters.curInputDepth = depthAt g depth output.length

/-- The CFU between two outputs of one image position. -/
def HoldsAt (g : Geometry) (r : Arguments) (depth outY outX : Word) (output : Output)
    (q : Output × Regs) : Prop :=
  Holds g r depth output q ∧ q.2.config.curImageX = g.inX outX 0 ∧
    q.2.config.curImageY = g.inY outY 0

/-- The byte of the output with index `i`. -/
def kernelEntry (mem : Memory) (g : Geometry) (r : Arguments) (depth : Word) (i : ℕ)
    (p : Position) : Option (Word × BitVec 8) :=
  (convAcc mem g r p (depthAt g depth i)).bind (entry (g.params r) (g.data r) p)

theorem aligned_depthAt (hv : g.Valid) {depth : Word} (hdepth : depth.toNat % 4 = 0) (i : ℕ) :
    (depthAt g depth i).toNat % 4 = 0 := by
  have haligned := hv.aligned
  have h4 : (4 : Word).toNat = 4 := rfl
  unfold depthAt
  split_ifs
  · exact hdepth
  · rw [BitVec.toNat_sub]
    omega

theorem config_of_shared {c : Config} (h : shared c = callConfig g r)
    (hx : c.curImageX = g.inX p.outX 0) (hy : c.curImageY = g.inY p.outY 0) :
    { c with imageBaseOffset := p.batch * g.inputHeight
             filterBaseOffset := p.outChannel * g.filterHeight } = convConfig g r p := by
  rcases c with ⟨io, fb, fbo, fd, fw, fh, ib, ibo, icd, iw, ih, cx, cy⟩
  cases hx
  cases hy
  cases h
  rfl

/-! ## Commands -/

theorem respond_cfuOp0_set {f : BitVec 7} (h0 : f ≠ 0) (h8 : f.toNat ≤ 8) (x y : Word) (a : Regs) :
    respond mem a (cfuOp0 f x y) =
      some ((setRegs (cfuOp0 f x y) a).acc, setRegs (cfuOp0 f x y) a) :=
  respond_set (by rwa [cfuOp0_funct7]) (by rwa [Recognised, cfuOp0_funct7])

theorem respond_baseOffsets (x y : Word) (a : Regs) : respond mem a (cfuOp0 8 x y) =
    some (0, ⟨{ a.config with imageBaseOffset := x, filterBaseOffset := y },
      atOrigin a.counters, 0⟩) := by
  rw [respond_cfuOp0_set (by decide) (by decide), setRegs_baseOffsets]

theorem respond_conv (a : Regs) : respond mem a (cfuOp0 0 0 0) =
    (walk a.config (2 ^ 30) a.counters).map fun w =>
      ((convRegs mem a w).acc, convRegs mem a w) := by
  rw [respond, if_pos (cfuOp0_funct7 0 0 0)]

/-- **One output** of the kernel. -/
theorem eval_output (hv : g.Valid) {depth : Word} (hdepth : depth.toNat % 4 = 0)
    {q : Output × Regs} (h : HoldsAt g r depth p.outY p.outX output q) :
    Option.Rel (HoldsAt g r depth p.outY p.outX)
      ((kernelEntry mem g r depth output.length p).map fun e => output ++ [e])
      ((outputFilterPreload (g.params r) (g.data r) p.batch p.outY p.outX
        (p.batch * g.inputHeight) p.outChannel q.1).eval (respond mem) q.2) := by
  obtain ⟨⟨rfl, hshared, hcounter⟩, hx, hy⟩ := h
  have hconfig := config_of_shared hshared hx hy
  have hrows : (g.data r).filterShape.dims 1 = some g.filterHeight := rfl
  have horigin : atOrigin q.2.counters = ⟨depthAt g depth q.1.length, 0, 0⟩ := by
    rw [atOrigin, hcounter]
  unfold outputFilterPreload kernelEntry convAcc
  simp only [Client.eval_bind, eval_liftM, eval_callCfuOp0, hrows, Option.map_some,
    Option.bind_some, respond_baseOffsets, respond_conv, hconfig, horigin]
  cases hw : walk (convConfig g r p) (2 ^ 30) ⟨depthAt g depth q.1.length, 0, 0⟩ with
  | none => exact .none
  | some w =>
    simp only [Option.map_some, Option.bind_some, convRegs, zero_add, writeOutput_eq]
    cases entry (g.params r) (g.data r) p
        (w.1.map (tapSum mem (convConfig g r p))).sum with
    | none => exact .none
    | some e =>
      refine .some ⟨⟨rfl, rfl, ?_⟩, rfl, rfl⟩
      have hrest : depthAt g depth (q.1 ++ [e]).length = g.inputDepth - 4 := by
        rw [depthAt, if_neg]
        simp
      have hk : (⟨depthAt g depth q.1.length, 0, 0⟩ : Counters).curInputDepth.toNat % 4 = 0 :=
        aligned_depthAt hv hdepth _
      have hw' := depth_walk hk hw
      rw [hrest, ← ofNat_restIndex hv p.outY p.outX]
      exact hw'

/-- The byte of one output, appended to the bytes before. -/
def emit (mem : Memory) (g : Geometry) (r : Arguments) (depth : Word) (output : Output)
    (p : Position) : Option Output :=
  (kernelEntry mem g r depth output.length p).map fun e => output ++ [e]

/-- The body of the batch loop. -/
def batchFilterPreload (g : Geometry) (r : Arguments) (batch : Word) (output : Output) :
    Program Output := do
  let inputRows ← (g.data r).inputShape.dims 1
  let batchOffset := batch * inputRows
  forInt g.outputHeight (fun outY => forInt g.outputWidth fun outX output => do
    let _ ← callCfuOp0 5 (inXOrigin (g.params r) outX) (inYOrigin (g.params r) outY)
    forInt g.outputDepth
      (outputFilterPreload (g.params r) (g.data r) batch outY outX batchOffset) output) output

theorem holdsAt_imageCoords {depth : Word} {q : Output × Regs} (h : Holds g r depth output q)
    (outY outX : Word) : HoldsAt g r depth outY outX output
      (q.1, { q.2 with config := { q.2.config with
        curImageX := inXOrigin (g.params r) outX, curImageY := inYOrigin (g.params r) outY } }) := by
  obtain ⟨hout, hshared, hcounter⟩ := h
  exact ⟨⟨hout, hshared, hcounter⟩, (add_zero _).symm, (add_zero _).symm⟩

/-- **The loops** of the kernel go through the outputs one by one. -/
theorem eval_loops (mem : Memory) (hv : g.Valid) {depth : Word} (hdepth : depth.toNat % 4 = 0)
    {q : Output × Regs} (h : Holds g r depth output q) :
    Option.Rel (Holds g r depth) ((positions g.dimensions).foldlM (emit mem g r depth) output)
      (forInt g.batches (fun batch q => (batchFilterPreload g r batch q.1).eval (respond mem) q.2)
        q) := by
  have hfold := forOutputs_eq_foldlM (m := Option) g.dimensions
    (fun batch outY outX outChannel output =>
      emit mem g r depth output ⟨batch, outY, outX, outChannel⟩) output
  have hrows : (g.data r).inputShape.dims 1 = some g.inputHeight := rfl
  rw [← hfold]
  refine forInt_rel (Holds g r depth) (fun batch output q hq => ?_) h
  simp only [batchFilterPreload, Client.eval_bind, eval_liftM, hrows, Option.map_some,
    Option.bind_some, eval_forInt]
  refine forInt_rel (Holds g r depth) (fun outY output q hq => ?_) hq
  refine forInt_rel (Holds g r depth) (fun outX output q hq => ?_) hq
  rw [eval_callCfuOp0, respond_cfuOp0_set (by decide) (by decide), setRegs_imageCoords,
    Option.bind_some]
  exact rel_mono (forInt_rel (HoldsAt g r depth outY outX)
    (fun outChannel output q hq => eval_output (p := ⟨batch, outY, outX, outChannel⟩) hv hdepth hq)
    (holdsAt_imageCoords hq outY outX)) fun output q hq => hq.1

/-- The registers after the commands before the loops. -/
def configured (g : Geometry) (r : Arguments) (a : Regs) : Regs :=
  setRegs (cfuOp0 7 g.inputDepth g.inputOffset) (setRegs (cfuOp0 6 r.inputData r.filterData)
    (setRegs (cfuOp0 4 g.inputDepth g.inputOffset)
      (setRegs (cfuOp0 3 g.inputWidth g.inputHeight)
        (setRegs (cfuOp0 2 g.filterWidth g.filterHeight) a))))

theorem holds_configured (a : Regs) :
    Holds g r a.counters.curInputDepth [] ([], configured g r a) := by
  simp only [configured, setRegs_filterDims, setRegs_imageDims, setRegs_inputChannelShape,
    setRegs_imageFilterAdr, setRegs_filterInputDepth]
  exact ⟨rfl, rfl, rfl⟩

theorem eval_kernel (hv : g.Valid) (a : Regs) :
    (convPerChannelFilterPreload T (g.params r) (g.data r)).eval (respond mem) a =
      (consistencyCheck T (g.params r) (g.data r)).bind fun _ =>
        forInt g.batches (fun batch q =>
          (batchFilterPreload g r batch q.1).eval (respond mem) q.2) ([], configured g r a) := by
  have hheight : (g.data r).filterShape.dims 1 = some g.filterHeight := rfl
  have hwidth : (g.data r).filterShape.dims 2 = some g.filterWidth := rfl
  unfold convPerChannelFilterPreload
  rw [Client.eval_bind, eval_liftM]
  cases hcheck : consistencyCheck T (g.params r) (g.data r) with
  | none => rfl
  | some d =>
    obtain ⟨-, rfl⟩ := (Geometry.consistencyCheck_eq_some hv).mp hcheck
    simp only [Client.eval_bind, eval_liftM, hheight, hwidth, Option.map_some,
      Option.bind_some, eval_callCfuOp0]
    rw [respond_cfuOp0_set (by decide) (by decide), Option.bind_some,
      respond_cfuOp0_set (by decide) (by decide), Option.bind_some,
      respond_cfuOp0_set (by decide) (by decide), Option.bind_some,
      respond_cfuOp0_set (by decide) (by decide), Option.bind_some,
      respond_cfuOp0_set (by decide) (by decide), Option.bind_some]
    exact eval_forInt (batchFilterPreload g r) _ _

/-- **The kernel** writes the bytes of its entries, if it passes its checks. -/
theorem eval_iff (hv : g.Valid) (hdepth : a.counters.curInputDepth.toNat % 4 = 0) :
    (∃ a', (convPerChannelFilterPreload T (g.params r) (g.data r)).eval (respond mem) a =
      some (output, a')) ↔ g.Accepts r ∧
        (positions g.dimensions).mapIdx (kernelEntry mem g r a.counters.curInputDepth) =
          output.map some := by
  have hloops := eq_map_of_rel (eval_loops mem hv hdepth (holds_configured (r := r) a))
    fun _ _ h => h.1
  have hfold := foldlM_emit (kernelEntry mem g r a.counters.curInputDepth)
    (positions g.dimensions) output
  rw [eval_kernel hv]
  constructor
  · rintro ⟨a', h⟩
    obtain ⟨d, hd, h'⟩ := Option.bind_eq_some_iff.mp h
    refine ⟨((Geometry.consistencyCheck_eq_some hv).mp hd).1, hfold.mp ?_⟩
    rw [h'] at hloops
    exact hloops
  · rintro ⟨hacc, h⟩
    have hcheck := (Geometry.consistencyCheck_eq_some (T := T) hv).mpr ⟨hacc, rfl⟩
    have hmap := hloops.symm.trans (hfold.mpr h)
    obtain ⟨⟨_, a'⟩, ha', rfl⟩ := Option.map_eq_some_iff.mp hmap
    exact ⟨a', Option.bind_eq_some_iff.mpr ⟨_, hcheck, ha'⟩⟩

end CfuPlayground.FilterPreload
