import CfuPlayground.InstructionHandler.Division

/-!
# The handler and the M extension

`divInstructionHandler_eq` reads the handler as one assignment to the saved `rd`;
`divisionValue_eq` compares the assigned value with the M extension. They differ for a
remainder by 0, which goes to libgcc unchecked. The decoder of `instruction_handler` looks at
the opcode alone.
-/

namespace CfuPlayground.InstructionHandler

open Lib (ByteMemory loadWord storeWord loadWord_storeWord setWidth_ofInt)
open Lib.Assembly (Reg Machine sp trapCsrs)

/-! ## The saved registers -/

/-- The address of register `r` among the saved registers. -/
def savedAdr (regBase : Word) (r : Reg) : Word := regBase + 4 * (31 - r.setWidth 32)

/-- The saved register `r`. -/
def savedReg (regBase : Word) (m : Machine) (r : Reg) : Word := loadWord m.mem (savedAdr regBase r)

/-- `trap_entry` saves the register. -/
def Saved (r : Reg) : Prop := r ≠ 0 ∧ r ≠ sp

instance (r : Reg) : Decidable (Saved r) := inferInstanceAs (Decidable (_ ∧ _))

theorem saved_iff_mem (r : Reg) : Saved r ↔ r ∈ savedRegs := by
  revert r
  decide

theorem elementAdr_regOffset (regBase : Word) (r : Reg) :
    elementAdr regBase (regOffset (r.setWidth 8)) = savedAdr regBase r := by
  have hoff : ∀ r : Reg, (regOffset (r.setWidth 8)).signExtend 32 = 31 - r.setWidth 32 := by decide
  rw [elementAdr, savedAdr, hoff]

/-! ## The fields of the instruction -/

theorem shiftRight_and_mask (w : Word) (k n : ℕ) (hn : n ≤ 8) :
    ((w >>> k) &&& BitVec.ofNat 32 (2 ^ n - 1)).setWidth 8 = (w.extractLsb' k n).setWidth 8 := by
  have hpow : 2 ^ n ≤ 2 ^ 8 := Nat.pow_le_pow_right (by decide) hn
  apply BitVec.eq_of_toNat_eq
  simp only [BitVec.toNat_setWidth, BitVec.toNat_and, BitVec.toNat_ushiftRight,
    BitVec.extractLsb'_toNat, BitVec.toNat_ofNat]
  rw [Nat.mod_eq_of_lt (by omega : 2 ^ n - 1 < 2 ^ 32), Nat.and_two_pow_sub_one_eq_mod]

theorem rd_field (w : Word) : ((w >>> 7) &&& 0x1f).setWidth 8 = (rd w).setWidth 8 :=
  shiftRight_and_mask w 7 5 (by decide)

theorem rs1_field (w : Word) : ((w >>> 15) &&& 0x1f).setWidth 8 = (rs1 w).setWidth 8 :=
  shiftRight_and_mask w 15 5 (by decide)

theorem rs2_field (w : Word) : ((w >>> 20) &&& 0x1f).setWidth 8 = (rs2 w).setWidth 8 :=
  shiftRight_and_mask w 20 5 (by decide)

theorem funct3_field (w : Word) : ((w >>> 12) &&& 0x7).setWidth 8 = (funct3 w).setWidth 8 :=
  shiftRight_and_mask w 12 3 (by decide)

theorem opcode_field (w : Word) : (w &&& 0x7F).setWidth 8 = (opcode w).setWidth 8 := by
  have h := shiftRight_and_mask w 0 7 (by decide)
  rwa [BitVec.ushiftRight_zero] at h

/-! ## The assigned value -/

/-- The value `div_instruction_handler` assigns to the saved `rd`. -/
def divisionValue (lib : Libgcc) (f : BitVec 3) (x y : Word) : Word :=
  if f = 4 then if y ≠ 0 then (lib.divdi3 (x.signExtend 64) (y.signExtend 64)).setWidth 32 else -1
  else if f = 5 then if y ≠ 0 then (lib.udivdi3 (x.setWidth 64) (y.setWidth 64)).setWidth 32 else -1
  else if f = 6 then (lib.moddi3 (x.signExtend 64) (y.signExtend 64)).setWidth 32
  else (lib.umoddi3 (x.setWidth 64) (y.setWidth 64)).setWidth 32

variable {lib : Libgcc} {regBase : Word} {m : Machine} {w : Word} {x y : Word}

theorem divInstructionHandler_eq (hf : 4 ≤ (funct3 w).toNat) :
    divInstructionHandler lib regBase w m =
      m.setMem (storeWord m.mem (savedAdr regBase (rd w))
        (divisionValue lib (funct3 w) (savedReg regBase m (rs1 w))
          (savedReg regBase m (rs2 w)))) := by
  have hcases : ∀ f : BitVec 3, 4 ≤ f.toNat → f = 4 ∨ f = 5 ∨ f = 6 ∨ f = 7 := by decide
  simp only [divInstructionHandler, rd_field, rs1_field, rs2_field, funct3_field,
    elementAdr_regOffset]
  rcases hcases _ hf with h | h | h | h <;> rw [h] <;> rfl

theorem instructionHandler_eq (hop : opcode m.mtval = 0x33) :
    instructionHandler lib regBase m =
      (divInstructionHandler lib regBase m.mtval m).setMepc (m.mepc + 4) := by
  have hcode : (m.mtval &&& 0x7F).setWidth 8 = (0x33 : BitVec 8) := by
    rw [opcode_field, hop]
    rfl
  exact if_pos hcode

theorem instructionHandler_of_ne (hop : opcode m.mtval ≠ 0x33) :
    instructionHandler lib regBase m = m := by
  have hinj : ∀ c : BitVec 7, c.setWidth 8 = (0x33 : BitVec 8) → c = 0x33 := by decide
  have hcode : (m.mtval &&& 0x7F).setWidth 8 ≠ (0x33 : BitVec 8) := by
    rw [opcode_field]
    exact fun h => hop (hinj _ h)
  exact if_neg hcode

/-! ## The value and the M extension -/

theorem signExtend_ne_zero (hy : y ≠ 0) : y.signExtend 64 ≠ 0 := by
  intro h
  have h0 := congrArg BitVec.toInt h
  rw [BitVec.toInt_signExtend_of_le (by decide)] at h0
  exact hy (BitVec.eq_of_toInt_eq (h0.trans rfl))

theorem setWidth_ne_zero (hy : y ≠ 0) : y.setWidth 64 ≠ 0 := by
  intro h
  have h0 := congrArg BitVec.toNat h
  rw [BitVec.toNat_setWidth_of_le (by decide)] at h0
  exact hy (BitVec.eq_of_toNat_eq (h0.trans rfl))

theorem signExtend_ne_intMin : x.signExtend 64 ≠ BitVec.intMin 64 := by
  intro h
  have h0 := congrArg BitVec.toInt h
  rw [BitVec.toInt_signExtend_of_le (by decide)] at h0
  have hlo := BitVec.le_toInt x
  have hmin : (BitVec.intMin 64).toInt = -2 ^ 63 := by decide
  omega

theorem divdi3_narrow (hy : y ≠ 0) :
    (lib.divdi3 (x.signExtend 64) (y.signExtend 64)).setWidth 32 =
      BitVec.ofInt 32 (x.toInt.tdiv y.toInt) := by
  rw [lib.divdi3_eq _ _ (signExtend_ne_zero hy) fun h => signExtend_ne_intMin h.1,
    setWidth_ofInt (by decide), BitVec.toInt_signExtend_of_le (by decide),
    BitVec.toInt_signExtend_of_le (by decide)]

theorem moddi3_narrow (hy : y ≠ 0) :
    (lib.moddi3 (x.signExtend 64) (y.signExtend 64)).setWidth 32 =
      BitVec.ofInt 32 (x.toInt.tmod y.toInt) := by
  rw [lib.moddi3_eq _ _ (signExtend_ne_zero hy) fun h => signExtend_ne_intMin h.1,
    setWidth_ofInt (by decide), BitVec.toInt_signExtend_of_le (by decide),
    BitVec.toInt_signExtend_of_le (by decide)]

theorem setWidth_ofNat (n : ℕ) : (BitVec.ofNat 64 n).setWidth 32 = BitVec.ofNat 32 n := by
  apply BitVec.eq_of_toNat_eq
  rw [BitVec.toNat_setWidth, BitVec.toNat_ofNat, BitVec.toNat_ofNat]
  exact Nat.mod_mod_of_dvd n (by decide)

theorem udivdi3_narrow (hy : y ≠ 0) :
    (lib.udivdi3 (x.setWidth 64) (y.setWidth 64)).setWidth 32 =
      BitVec.ofNat 32 (x.toNat / y.toNat) := by
  rw [lib.udivdi3_eq _ _ (setWidth_ne_zero hy), setWidth_ofNat,
    BitVec.toNat_setWidth_of_le (by decide), BitVec.toNat_setWidth_of_le (by decide)]

theorem umoddi3_narrow (hy : y ≠ 0) :
    (lib.umoddi3 (x.setWidth 64) (y.setWidth 64)).setWidth 32 =
      BitVec.ofNat 32 (x.toNat % y.toNat) := by
  rw [lib.umoddi3_eq _ _ (setWidth_ne_zero hy), setWidth_ofNat,
    BitVec.toNat_setWidth_of_le (by decide), BitVec.toNat_setWidth_of_le (by decide)]

/-- **The value.** For a divisor that is not 0, and for the two quotients, the assigned value is
the one of the M extension. -/
theorem divisionValue_eq {f : BitVec 3} (hf : 4 ≤ f.toNat) (hy : y ≠ 0 ∨ f.toNat < 6) :
    divisionValue lib f x y = divisionResult f x y := by
  by_cases h0 : y = 0
  · subst h0
    rcases quotient_cases hf (hy.resolve_left (by simp)) with rfl | rfl <;> rfl
  · by_cases hquot : f.toNat < 6
    · rcases quotient_cases hf hquot with rfl | rfl
      · exact (if_pos h0).trans ((divdi3_narrow h0).trans (divisionResult_div h0).symm)
      · exact (if_pos h0).trans ((udivdi3_narrow h0).trans (divisionResult_divu h0).symm)
    · rcases remainder_cases (not_lt.mp hquot) with rfl | rfl
      · exact (moddi3_narrow h0).trans (divisionResult_rem h0).symm
      · exact (umoddi3_narrow h0).trans (divisionResult_remu h0).symm

theorem divisionValue_returning {f : BitVec 3} (hf : 6 ≤ f.toNat) (z : BitVec 64) :
    divisionValue (.returning z) f x 0 = z.setWidth 32 := by
  rcases remainder_cases hf with rfl | rfl <;> rfl

/-! ## The emulation -/

/-- The word is an emulated division whose operands `trap_entry` saves. -/
def InScope (w : Word) : Prop := IsDivision w ∧ rd w ≠ 0 ∧ Saved (rs1 w) ∧ Saved (rs2 w)

instance (w : Word) : Decidable (InScope w) := inferInstanceAs (Decidable (_ ∧ _))

/-- The handler writes the result of the M extension to the saved `rd`; for a word that is no
division with saved operands it changes neither a saved register nor `mepc`. -/
def Emulates (lib : Libgcc) (regBase : Word) (m : Machine) : Prop :=
  let m' := instructionHandler lib regBase m
  if InScope m.mtval then
    savedReg regBase m' (rd m.mtval) = divisionResult (funct3 m.mtval)
      (savedReg regBase m (rs1 m.mtval)) (savedReg regBase m (rs2 m.mtval))
  else
    (∀ r, Saved r → savedReg regBase m' r = savedReg regBase m r) ∧ m'.mepc = m.mepc

/-- The division is a quotient or its divisor is not 0; another word has another opcode. -/
def Emulated (regBase : Word) (m : Machine) : Prop :=
  if InScope m.mtval then (funct3 m.mtval).toNat < 6 ∨ savedReg regBase m (rs2 m.mtval) ≠ 0
  else opcode m.mtval ≠ 0x33

theorem savedReg_rd (h : IsDivision m.mtval) :
    savedReg regBase (instructionHandler lib regBase m) (rd m.mtval) =
      divisionValue lib (funct3 m.mtval) (savedReg regBase m (rs1 m.mtval))
        (savedReg regBase m (rs2 m.mtval)) := by
  rw [instructionHandler_eq h.1, divInstructionHandler_eq h.2.2]
  exact loadWord_storeWord _

/-- **Emulated division.** Whatever libgcc returns for a zero divisor, the handler emulates a
word exactly under `Emulated`. -/
theorem division_emulated_iff (regBase : Word) (m : Machine) :
    (∀ lib, Emulates lib regBase m) ↔ Emulated regBase m := by
  unfold Emulated
  by_cases hin : InScope m.mtval
  · have hread : ∀ lib, Emulates lib regBase m ↔
        divisionValue lib (funct3 m.mtval) (savedReg regBase m (rs1 m.mtval))
            (savedReg regBase m (rs2 m.mtval)) =
          divisionResult (funct3 m.mtval) (savedReg regBase m (rs1 m.mtval))
            (savedReg regBase m (rs2 m.mtval)) := by
      intro lib
      rw [Emulates, if_pos hin, savedReg_rd hin.1]
    rw [if_pos hin]
    refine ⟨fun h => ?_, fun h lib => (hread lib).mpr (divisionValue_eq hin.1.2.2 h.symm)⟩
    by_contra hnot
    rw [not_or, not_lt, not_not] at hnot
    obtain ⟨hrem, hzero⟩ := hnot
    -- a routine that returns 0 and one that returns 1 cannot both return the dividend
    have h0 := (hread (.returning 0)).mp (h _)
    have h1 := (hread (.returning 1)).mp (h _)
    rw [hzero, divisionValue_returning hrem] at h0 h1
    rw [← h1] at h0
    exact absurd h0 (by decide)
  · rw [if_neg hin]
    refine ⟨fun h hop => ?_, fun hop lib => ?_⟩
    · have hmepc := h (.returning 0)
      rw [Emulates, if_neg hin, instructionHandler_eq hop] at hmepc
      have hadd : m.mepc + 4 = m.mepc := hmepc.2
      bv_omega
    · rw [Emulates, if_neg hin, instructionHandler_of_ne hop]
      exact ⟨fun _ _ => rfl, rfl⟩

/-- `rem x5, x6, x7` with 9 in `x6` and 0 in `x7`: the remainder is 9, a routine that returns 0
for the divisor 0 makes it 0. -/
theorem division_emulated_fails : ¬ ∀ lib regBase m, Emulates lib regBase m := by
  intro h
  have hrem := h (.returning 0) 0 ⟨fun _ => 0,
    trapCsrs 0 causeIllegalInstruction 0x027362B3, storeWord (fun _ => 0) (savedAdr 0 6) 9⟩
  rw [Emulates, if_pos (by decide)] at hrem
  revert hrem
  decide +kernel

end CfuPlayground.InstructionHandler
