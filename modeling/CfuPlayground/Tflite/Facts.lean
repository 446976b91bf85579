import CfuPlayground.Tflite.Kernels
import Mathlib.Data.BitVec

/-!
# Facts about shapes, loops and tensor accesses

* `consistencyCheck_spec`: what a kernel knows about the shapes after its checks.
* `offset_eq_some`: when `Offset` succeeds, and with what.
* `forInt_sim`, `forOutputs_sim`, `eval_forInt`, `eval_forOutputs`: loops of two kernels with
  the same bounds, and loops that call a CFU.
* `byteAt_add`: the four bytes at an aligned address are the lanes of one word.
-/

namespace CfuPlayground.Tflite

open Lib

/-! ## Shapes -/

theorem dims_of_dimensionsCount {shape : RuntimeShape} (h : shape.dimensionsCount = 4) :
    ∃ d0 d1 d2 d3, shape.dimsData = [d0, d1, d2, d3] := by
  rcases shape with ⟨dims⟩
  simp only [RuntimeShape.dimensionsCount] at h
  match dims, h with
  | [d0, d1, d2, d3], _ => exact ⟨d0, d1, d2, d3, rfl⟩

theorem matchingDim_eq_some {shape1 shape2 : RuntimeShape} {i1 i2 : ℕ} {d : Word}
    (h : matchingDim shape1 i1 shape2 i2 = some d) :
    shape1.dims i1 = some d ∧ shape2.dims i2 = some d := by
  unfold matchingDim at h
  simp only [Option.bind_eq_bind, Option.bind_eq_some_iff, dcheck_eq_some] at h
  obtain ⟨a, ha, b, hb, -, rfl, hd⟩ := h
  have hab : (if a.slt a then a else a) = a := ite_self a
  rw [hab] at hd
  cases hd
  exact ⟨ha, hb⟩

/-- What the checks at the head of a kernel establish. -/
structure Consistent (T : Target) (params : ConvParams) (data : ConvData) (d : Dimensions) :
    Prop where
  input : data.inputShape.dimsData = [d.batches, d.inputHeight, d.inputWidth, d.inputDepth]
  filter : ∃ filterHeight filterWidth, data.filterShape.dimsData =
    [d.outputDepth, filterHeight, filterWidth, d.filterInputDepth]
  output : data.outputShape.dimsData = [d.batches, d.outputHeight, d.outputWidth, d.outputDepth]
  rem : T.rem d.inputDepth d.filterInputDepth = 0
  activation : params.quantizedActivationMin.toInt ≤ params.quantizedActivationMax.toInt

theorem consistencyCheck_spec {T : Target} {params : ConvParams} {data : ConvData}
    {d : Dimensions} (h : consistencyCheck T params data = some d) :
    Consistent T params data d := by
  unfold consistencyCheck at h
  simp only [Option.bind_eq_bind, Option.bind_eq_some_iff, dcheck_eq_some] at h
  obtain ⟨-, hact, -, hi, -, hf, -, ho, batches, hb, depth, hdepth, odepth, hod, -, -, ih, hih, iw,
    hiw, fid, hfid, -, hrem, oh, hoh, ow, how, hd⟩ := h
  cases hd
  obtain ⟨hb1, hb2⟩ := matchingDim_eq_some hb
  obtain ⟨hod1, hod2⟩ := matchingDim_eq_some hod
  obtain ⟨i0, i1, i2, i3, hin⟩ := dims_of_dimensionsCount hi
  obtain ⟨f0, f1, f2, f3, hfi⟩ := dims_of_dimensionsCount hf
  obtain ⟨o0, o1, o2, o3, hout⟩ := dims_of_dimensionsCount ho
  simp [RuntimeShape.dims, hin, hfi, hout] at hb1 hb2 hod1 hod2 hdepth hih hiw hfid hoh how
  subst hb1 hb2 hod1 hod2 hdepth hih hiw hfid hoh how
  exact ⟨hin, ⟨f1, f2, hfi⟩, hout, hrem, hact⟩

theorem offset_eq_some {shape : RuntimeShape} {d0 d1 d2 d3 i0 i1 i2 i3 o : Word}
    (hs : shape.dimsData = [d0, d1, d2, d3]) :
    offset shape i0 i1 i2 i3 = some o ↔
      InDim d0 i0 ∧ InDim d1 i1 ∧ InDim d2 i2 ∧ InDim d3 i3 ∧
        ((i0 * d1 + i1) * d2 + i2) * d3 + i3 = o := by
  unfold offset
  rw [hs]
  simp only [Option.bind_eq_bind, Option.bind_eq_some_iff, dcheck_eq_some]
  constructor
  · rintro ⟨-, h0, -, h1, -, h2, -, h3, ho⟩
    exact ⟨h0, h1, h2, h3, Option.some.inj ho⟩
  · rintro ⟨h0, h1, h2, h3, rfl⟩
    exact ⟨(), h0, (), h1, (), h2, (), h3, rfl⟩

/-! ## Indices and addresses -/

theorem toInt_ofNat_of_lt {i : ℕ} (h : i < 2 ^ 31) : (BitVec.ofNat 32 i).toInt = i := by
  have hi : (BitVec.ofNat 32 i).toNat = i := by
    rw [BitVec.toNat_ofNat]
    omega
  rw [BitVec.toInt_eq_toNat_of_lt (by omega), hi]

/-- An index counted in a loop passes the check of `Offset` when it is in the dimension. -/
theorem inDim_ofNat {dim : Word} {i : ℕ} (h : i < dim.toInt.toNat) :
    InDim dim (BitVec.ofNat 32 i) := by
  have hlt := BitVec.toInt_lt (x := dim)
  refine .inr ?_
  rw [toInt_ofNat_of_lt (by omega)]
  omega

theorem lt_of_inDim {dim : Word} {i : ℕ} (hi : i < 2 ^ 32) (h0 : i ≠ 0)
    (h : InDim dim (BitVec.ofNat 32 i)) : i < dim.toInt.toNat := by
  rcases h with ⟨-, hz⟩ | ⟨hlo, hhi⟩
  · have hmod : i % 2 ^ 32 = 0 := by
      rw [← BitVec.toNat_ofNat, hz]
      rfl
    omega
  · have hnat : (BitVec.ofNat 32 i).toNat = i := by
      rw [BitVec.toNat_ofNat]
      omega
    rw [BitVec.toInt_eq_toNat_cond, hnat] at hlo hhi
    split_ifs at hlo hhi <;> omega

/-- A 4-byte aligned address or a multiple of four. -/
def Aligned (adr : Word) : Prop := adr.toNat % 4 = 0

instance (adr : Word) : Decidable (Aligned adr) :=
  inferInstanceAs (Decidable (adr.toNat % 4 = 0))

theorem Aligned.add {a b : Word} (ha : Aligned a) (hb : Aligned b) : Aligned (a + b) := by
  unfold Aligned at *
  rw [BitVec.toNat_add]
  omega

theorem Aligned.mul_left (a : Word) {b : Word} (hb : Aligned b) : Aligned (a * b) := by
  unfold Aligned at *
  rw [BitVec.toNat_mul, Nat.mod_mod_of_dvd _ (by norm_num), Nat.mul_mod, hb, Nat.mul_zero]

theorem aligned_ofNat_mul (j : ℕ) : Aligned (BitVec.ofNat 32 (j * 4)) := by
  unfold Aligned
  rw [BitVec.toNat_ofNat]
  omega

theorem byteAt_add {mem : Memory} {adr : Word} (h : adr.toNat % 4 = 0) {k : ℕ} (hk : k < 4) :
    byteAt mem (adr + BitVec.ofNat 32 k) = lane (mem (wordAdr adr)) k := by
  have hlt := adr.isLt
  have hsum : (adr + BitVec.ofNat 32 k).toNat = adr.toNat + k := by
    rw [BitVec.toNat_add, BitVec.toNat_ofNat]
    omega
  have hword : wordAdr (adr + BitVec.ofNat 32 k) = wordAdr adr := by
    apply BitVec.eq_of_toNat_eq
    simp only [wordAdr, BitVec.extractLsb'_toNat, hsum, Nat.shiftRight_eq_div_pow]
    omega
  have hlow : ((adr + BitVec.ofNat 32 k).extractLsb' 0 2).toNat = k := by
    simp only [BitVec.extractLsb'_toNat, hsum, Nat.shiftRight_eq_div_pow]
    omega
  rw [byteAt, hword, hlow]

/-- The memory with the given bytes. -/
def ofBytes (f : Word → BitVec 8) : Memory := fun adr =>
  f (adr ++ 3#2) ++ f (adr ++ 2#2) ++ f (adr ++ 1#2) ++ f (adr ++ 0#2)

theorem byteAt_ofBytes (f : Word → BitVec 8) (adr : Word) : byteAt (ofBytes f) adr = f adr := by
  have hlane : ∀ (w : WordAdr) (l : BitVec 2), lane (ofBytes f w) l.toNat = f (w ++ l) := by
    intro w l
    have hl : l = 0#2 ∨ l = 1#2 ∨ l = 2#2 ∨ l = 3#2 := by
      revert l
      decide
    obtain ⟨h0, h1, h2, h3⟩ := lane_append (f (w ++ 3#2)) (f (w ++ 2#2)) (f (w ++ 1#2)) (f (w ++ 0#2))
    rcases hl with rfl | rfl | rfl | rfl
    · exact h0
    · exact h1
    · exact h2
    · exact h3
  have hadr : wordAdr adr ++ adr.extractLsb' 0 2 = adr := BitVec.extractLsb'_append_extractLsb'
  rw [byteAt, hlane, hadr]

theorem load_add {mem : Memory} {data i : Word} (h : Aligned (data + i)) {k : ℕ} (hk : k < 4) :
    load mem data (i + BitVec.ofNat 32 k) =
      (lane (mem (wordAdr (data + i))) k).signExtend 32 := by
  rw [load, ← add_assoc, byteAt_add h hk]

/-! ## Loops -/

section Loops

variable {β γ A : Type} {n : Word}

theorem forInt_sim (R : β → γ → Prop) {f : Word → β → Option β} {g : Word → γ → Option γ}
    (hstep : ∀ i : ℕ, i < n.toInt.toNat → ∀ b c b', R b c → f (BitVec.ofNat 32 i) b = some b' →
      ∃ c', g (BitVec.ofNat 32 i) c = some c' ∧ R b' c')
    {b : β} {c : γ} {b' : β} (h0 : R b c) (h : forInt n f b = some b') :
    ∃ c', forInt n g c = some c' ∧ R b' c' :=
  forN_sim (fun _ => R) hstep h0 h

theorem forInt_rel (R : β → γ → Prop) {f : Word → β → Option β} {g : Word → γ → Option γ}
    (hstep : ∀ i b c, R b c → Option.Rel R (f i b) (g i c)) {b : β} {c : γ} (h0 : R b c) :
    Option.Rel R (forInt n f b) (forInt n g c) :=
  forN_rel (fun _ => R) (fun _ _ => hstep _) h0

theorem forOutputs_sim (R : β → γ → Prop) {d : Dimensions}
    {f : Word → Word → Word → Word → β → Option β} {g : Word → Word → Word → Word → γ → Option γ}
    (hstep : ∀ batch outY outX : Word, ∀ i : ℕ, i < d.outputDepth.toInt.toNat → ∀ b c b', R b c →
      f batch outY outX (BitVec.ofNat 32 i) b = some b' →
      ∃ c', g batch outY outX (BitVec.ofNat 32 i) c = some c' ∧ R b' c')
    {b : β} {c : γ} {b' : β} (h0 : R b c) (h : forOutputs d f b = some b') :
    ∃ c', forOutputs d g c = some c' ∧ R b' c' := by
  refine forInt_sim R (fun batch _ b c b' hR hb => ?_) h0 h
  refine forInt_sim R (fun outY _ b c b' hR hb => ?_) hR hb
  refine forInt_sim R (fun outX _ b c b' hR hb => ?_) hR hb
  exact forInt_sim R (fun i hi => hstep _ _ _ i hi) hR hb

variable {respond : A → Command → Option (Word × A)}

theorem eval_forInt (f : Word → β → Program β) (b : β) (a : A) :
    (forInt n f b).eval respond a =
      forInt n (fun i (p : β × A) => (f i p.1).eval respond p.2) (b, a) :=
  Client.eval_forN _ _ _ _

theorem eval_forOutputs (d : Dimensions) (f : Word → Word → Word → Word → β → Program β) (b : β)
    (a : A) : (forOutputs d f b).eval respond a =
      forOutputs d (fun batch outY outX outChannel (p : β × A) =>
        (f batch outY outX outChannel p.1).eval respond p.2) (b, a) := by
  unfold forOutputs
  rw [eval_forInt]
  congr 1
  funext batch p
  rw [eval_forInt]
  congr 1
  funext outY p
  rw [eval_forInt]
  congr 1
  funext outX p
  exact eval_forInt _ _ _

@[simp] theorem eval_callCfuOp0 (funct7 : BitVec 7) (rs1 rs2 : Word) (a : A) :
    (callCfuOp0 funct7 rs1 rs2).eval respond a = respond a (cfuOp0 funct7 rs1 rs2) :=
  Client.eval_request _ _

@[simp] theorem eval_liftM {α : Type} (o : Option α) (a : A) :
    (liftM o : Program α).eval respond a = o.map fun x => (x, a) :=
  Client.eval_ofOption _ _

end Loops

end CfuPlayground.Tflite
