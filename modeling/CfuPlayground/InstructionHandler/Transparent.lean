import CfuPlayground.InstructionHandler.Trap

/-!
# Is the trap transparent?

What the interrupted program can see of a trapped division: the registers, the memory from `sp`
up, and `mepc`. `transparent_iff` reduces the question to the value the handler assigns, with
arbitrary words for what it takes for `x0` and `x2`; the rest is arithmetic of the M extension.
-/

namespace CfuPlayground.InstructionHandler

open Lib (ByteMemory loadWord storeWord loadWord_storeWord Apart loadWord_storeWord_of_apart
  storeWord_apply words_iff_bytes lane lane_loadWord)
open Lib.Assembly (Reg Machine sp slot slot_zero savedMem savedMem_apply trapCsrs)
open Lib.Assembly.Machine (reg_zero)

variable (lib : Libgcc) (isr : Machine → Machine) (clobber : Reg → Word) {m : Machine}

/-- The trap of `m` that returns as `m'` is transparent: `rd` holds the result of the M
extension, the other registers and the words at or above `sp` are unchanged, and `mepc` is the
next instruction. -/
structure Transparent (m m' : Machine) : Prop where
  result : m'.reg (rd m.mtval) = if rd m.mtval = 0 then 0
    else divisionResult (funct3 m.mtval) (m.reg (rs1 m.mtval)) (m.reg (rs2 m.mtval))
  frame : ∀ r, r ≠ rd m.mtval → m'.reg r = m.reg r
  memory : ∀ a : Word, (m.reg sp).toNat ≤ a.toNat → a.toNat + 4 ≤ 2 ^ 32 →
    loadWord m'.mem a = loadWord m.mem a
  mepc : m'.mepc = m.mepc + 4

/-! ## The registers -/

/-- What the handler reads as register `k`, given the word `a` at `sp` and the unwritten word
`b` of the frame. -/
def operand (m : Machine) (a b : Word) (k : Reg) : Word :=
  if k = 0 then a else if k = sp then b else m.reg k

/-- The value the handler assigns. -/
def valueAt (lib : Libgcc) (m : Machine) (a b : Word) : Word :=
  divisionValue lib (funct3 m.mtval) (operand m a b (rs1 m.mtval)) (operand m a b (rs2 m.mtval))

theorem loadWord_slot (k : Reg) : loadWord (savedMem m places) (slot (m.reg sp) k.toNat) =
    operand m (loadWord m.mem (m.reg sp)) (loadWord m.mem (slot (m.reg sp) sp.toNat)) k := by
  unfold operand
  by_cases h0 : k = 0
  · have hslot : slot (m.reg sp) (0 : Reg).toNat = m.reg sp := slot_zero
    rw [if_pos h0, h0, loadWord_of_not_saved (by decide), hslot]
  · rw [if_neg h0]
    by_cases hsp : k = sp
    · rw [if_pos hsp, hsp, loadWord_of_not_saved (by decide)]
    · rw [if_neg hsp, loadWord_saved ⟨h0, hsp⟩]

theorem assigned_eq : assigned lib m.mtval (m.reg sp) (savedMem m places) =
    valueAt lib m (loadWord m.mem (m.reg sp)) (loadWord m.mem (slot (m.reg sp) sp.toNat)) := by
  rw [assigned, loadWord_slot, loadWord_slot, valueAt]

/-- The registers after the trap: `rd`, if it is saved, holds the assigned value. -/
theorem reg_trapEntry (hw : IsDivision m.mtval) (hc : m.mcause = causeIllegalInstruction)
    (r : Reg) : (trapEntry lib isr clobber m).reg r =
      if r = rd m.mtval ∧ Saved r then
        valueAt lib m (loadWord m.mem (m.reg sp)) (loadWord m.mem (slot (m.reg sp) sp.toNat))
      else m.reg r := by
  obtain ⟨-, -, hsp, hregs⟩ := trapEntry_eq lib isr clobber hw hc
  by_cases hr : Saved r
  · rw [hregs r hr, handledMem]
    by_cases hrd : r = rd m.mtval
    · rw [if_pos ⟨hrd, hr⟩, ← hrd, loadWord_storeWord, assigned_eq lib]
    · rw [if_neg fun h => hrd h.1, loadWord_storeWord_of_apart _ (apart_slots _ hrd),
        loadWord_saved hr]
  · rw [if_neg fun h => hr h.2]
    by_cases h0 : r = 0
    · rw [h0, reg_zero, reg_zero]
    · have hrsp : r = sp := by
        by_contra hne
        exact hr ⟨h0, hne⟩
      rw [hrsp, hsp]

/-! ## The memory -/

theorem slot_below {s : Word} (hs : 124 ≤ s.toNat) {k : ℕ} (h0 : 0 < k) (hk : k ≤ 31) {a : Word}
    (ha : s.toNat ≤ a.toNat) : 4 * k ≤ (a - slot s k).toNat := by
  unfold slot
  bv_omega

theorem saved_apply (hs : 124 ≤ (m.reg sp).toNat) {a : Word} (ha : (m.reg sp).toNat ≤ a.toNat) :
    savedMem m places a = m.mem a :=
  savedMem_apply (n := 31) (by decide) (by decide) (slot_below hs (by decide) le_rfl ha)

theorem handledMem_apply (hs : 124 ≤ (m.reg sp).toNat) (hrd : rd m.mtval ≠ 0) {a : Word}
    (ha : (m.reg sp).toNat ≤ a.toNat) :
    handledMem lib m.mtval (m.reg sp) (savedMem m places) a = m.mem a := by
  have hpos : 0 < (rd m.mtval).toNat := by bv_omega
  have hbelow := slot_below hs hpos (by omega) ha
  rw [handledMem, storeWord_apply _ _ (by omega), saved_apply hs ha]

/-- The memory at or above `sp` changes only at `sp` itself, where the handler puts what it
assigns to `x0`. -/
theorem memory_iff (hs : 124 ≤ (m.reg sp).toNat) :
    (∀ a : Word, (m.reg sp).toNat ≤ a.toNat → a.toNat + 4 ≤ 2 ^ 32 →
        loadWord (handledMem lib m.mtval (m.reg sp) (savedMem m places)) a = loadWord m.mem a) ↔
      rd m.mtval ≠ 0 ∨ 2 ^ 32 < (m.reg sp).toNat + 4 ∨
        assigned lib m.mtval (m.reg sp) (savedMem m places) = loadWord m.mem (m.reg sp) := by
  by_cases hfit : (m.reg sp).toNat + 4 ≤ 2 ^ 32
  · by_cases hrd : rd m.mtval = 0
    · have hslot : slot (m.reg sp) (0 : Reg).toNat = m.reg sp := slot_zero
      rw [handledMem, hrd, hslot]
      constructor
      · intro h
        have hsp := h (m.reg sp) le_rfl hfit
        rw [loadWord_storeWord] at hsp
        exact .inr (.inr hsp)
      · intro h
        have hv := (h.resolve_left (by simp)).resolve_left (by omega)
        rw [words_iff_bytes hfit, hv]
        intro a ha
        by_cases hnear : (a - m.reg sp).toNat < 4
        · rw [storeWord, if_pos hnear, lane_loadWord hnear]
          congr 1
          rw [BitVec.ofNat_toNat, BitVec.setWidth_eq]
          ring
        · rw [storeWord_apply _ _ (by omega), saved_apply hs ha]
    · rw [words_iff_bytes hfit]
      exact ⟨fun _ => .inl hrd, fun _ a ha => handledMem_apply lib hs hrd ha⟩
  · exact ⟨fun _ => .inr (.inl (by omega)), fun _ a ha hafit => absurd hafit (by omega)⟩

/-! ## The trap in terms of the assigned value -/

/-- The assigned value is the right one: for a saved `rd` the result, for `x0` the word that is at
`sp` already; for `x2`, which is not restored, the result must be the `sp` there is. -/
def Fits (lib : Libgcc) (m : Machine) (a b : Word) : Prop :=
  if rd m.mtval = sp then
    divisionResult (funct3 m.mtval) (m.reg (rs1 m.mtval)) (m.reg (rs2 m.mtval)) = m.reg sp
  else if rd m.mtval = 0 then
    2 ^ 32 < (m.reg sp).toNat + 4 ∨ valueAt lib m a b = a
  else
    valueAt lib m a b =
      divisionResult (funct3 m.mtval) (m.reg (rs1 m.mtval)) (m.reg (rs2 m.mtval))

theorem transparent_iff_of_le (hw : IsDivision m.mtval) (hc : m.mcause = causeIllegalInstruction)
    (hs : 124 ≤ (m.reg sp).toNat) : Transparent m (trapEntry lib isr clobber m) ↔
      Fits lib m (loadWord m.mem (m.reg sp)) (loadWord m.mem (slot (m.reg sp) sp.toNat)) := by
  obtain ⟨hmem, hepc, -⟩ := trapEntry_eq lib isr clobber hw hc
  have hreg := reg_trapEntry lib isr clobber hw hc
  have hmemory := memory_iff lib hs
  rw [← hmem, assigned_eq] at hmemory
  have hframe : ∀ r, r ≠ rd m.mtval → (trapEntry lib isr clobber m).reg r = m.reg r := by
    intro r hr
    rw [hreg, if_neg fun h => hr h.1]
  have hsplit : Transparent m (trapEntry lib isr clobber m) ↔
      ((trapEntry lib isr clobber m).reg (rd m.mtval) = if rd m.mtval = 0 then 0
        else divisionResult (funct3 m.mtval) (m.reg (rs1 m.mtval)) (m.reg (rs2 m.mtval))) ∧
      (rd m.mtval ≠ 0 ∨ 2 ^ 32 < (m.reg sp).toNat + 4 ∨
        valueAt lib m (loadWord m.mem (m.reg sp)) (loadWord m.mem (slot (m.reg sp) sp.toNat)) =
          loadWord m.mem (m.reg sp)) :=
    ⟨fun h => ⟨h.result, hmemory.mp h.memory⟩, fun h => ⟨h.1, hframe, hmemory.mpr h.2, hepc⟩⟩
  rw [hsplit, hreg, Fits]
  by_cases hsp : rd m.mtval = sp
  · rw [hsp, if_neg (by decide), if_neg (by decide), if_pos rfl]
    exact ⟨fun h => h.1.symm, fun h => ⟨h.symm, .inl (by decide)⟩⟩
  · by_cases h0 : rd m.mtval = 0
    · rw [h0, if_neg (by decide), if_pos rfl, if_neg (by decide), if_pos rfl, reg_zero]
      exact ⟨fun h => h.2.resolve_left (by decide), fun h => ⟨rfl, .inr h⟩⟩
    · rw [if_pos ⟨rfl, h0, hsp⟩, if_neg h0, if_neg hsp, if_neg h0]
      exact ⟨fun h => h.1, fun h => ⟨h, .inl h0⟩⟩

/-! ## Every memory -/

/-- A memory with `a` at `s` and `b` in the unwritten word of the frame below. -/
def withWords (s a b : Word) : ByteMemory :=
  storeWord (storeWord (fun _ => 0) (slot s sp.toNat) b) s a

theorem loadWord_withWords (s a b : Word) :
    loadWord (withWords s a b) s = a ∧ loadWord (withWords s a b) (slot s sp.toNat) = b := by
  have hapart : Apart (slot s sp.toNat) s := by
    have h := apart_slots s (by decide : sp ≠ 0)
    rwa [show slot s (0 : Reg).toNat = s from slot_zero] at h
  exact ⟨loadWord_storeWord a, by
    rw [withWords, loadWord_storeWord_of_apart a hapart, loadWord_storeWord]⟩

/-- The trap is transparent for the registers of `m`, whatever is in the memory, whatever the C
code leaves in the registers and whatever libgcc returns for the divisor 0. -/
def AlwaysTransparent (m : Machine) : Prop :=
  ∀ lib isr clobber mem, Transparent { m with mem := mem }
    (trapEntry lib isr clobber { m with mem := mem })

/-- With less than a frame below `sp`, the first byte of the frame is above `sp`. -/
theorem le_sp_of_alwaysTransparent (hw : IsDivision m.mtval)
    (hc : m.mcause = causeIllegalInstruction) (h : AlwaysTransparent m) :
    124 ≤ (m.reg sp).toNat := by
  by_contra hlt
  -- `x31` comes back from there with a value that does not depend on the memory
  obtain ⟨v, hv⟩ : ∃ v, ∀ mem,
      (trapEntry (.returning 0) id (fun _ => 0) { m with mem := mem }).reg 31 = v := by
    by_cases hrd : (31 : Reg) = rd m.mtval
    · refine ⟨if rd m.mtval = 0 then 0 else divisionResult (funct3 m.mtval)
        (m.reg (rs1 m.mtval)) (m.reg (rs2 m.mtval)), fun mem => ?_⟩
      rw [hrd]
      exact (h _ _ _ mem).result
    · exact ⟨m.reg 31, fun mem => (h _ _ _ mem).frame 31 hrd⟩
  let mem : ByteMemory := fun _ => lane v 0 + 1
  have hwords := (h (.returning 0) id (fun _ => 0) mem).memory
  have hreg : ∀ r, Machine.reg { m with mem := mem } r = m.reg r := fun _ => rfl
  rw [hreg] at hwords
  obtain ⟨hmem, -, -, hregs⟩ := trapEntry_eq (m := { m with mem := mem }) (.returning 0) id
    (fun _ => 0) hw hc
  have hslot : (m.reg sp).toNat ≤ (slot (m.reg sp) (31 : Reg).toNat).toNat := by
    show _ ≤ (m.reg sp + -124#32).toNat
    bv_omega
  have hload := (hregs 31 (by decide)).symm.trans (hv mem)
  rw [← hmem, hreg] at hload
  have hlane := congrArg (lane · 0) hload
  rw [lane_loadWord (by decide), BitVec.add_zero] at hlane
  have hkept := (words_iff_bytes (by omega)).mp hwords _ hslot
  have hne : ∀ x : BitVec 8, x + 1 ≠ x := by decide
  exact hne _ (hkept.symm.trans hlane)

theorem alwaysTransparent_iff (hw : IsDivision m.mtval) (hc : m.mcause = causeIllegalInstruction) :
    AlwaysTransparent m ↔ 124 ≤ (m.reg sp).toNat ∧ ∀ lib a b, Fits lib m a b := by
  constructor
  · intro h
    have hs := le_sp_of_alwaysTransparent hw hc h
    refine ⟨hs, fun lib a b => ?_⟩
    obtain ⟨ha, hb⟩ := loadWord_withWords (m.reg sp) a b
    have hfits : Fits lib m (loadWord (withWords (m.reg sp) a b) (m.reg sp))
        (loadWord (withWords (m.reg sp) a b) (slot (m.reg sp) sp.toNat)) :=
      (transparent_iff_of_le lib id (fun _ => 0)
        (m := { m with mem := withWords (m.reg sp) a b }) hw hc hs).mp (h _ _ _ _)
    rwa [ha, hb] at hfits
  · rintro ⟨hs, hfits⟩ lib isr clobber mem
    exact (transparent_iff_of_le lib isr clobber (m := { m with mem := mem }) hw hc hs).mpr
      (hfits lib _ _)

/-! ## Which instructions are transparent -/

/-- The frame fits below `sp`, and the division touches neither `x0` nor `x2`; or it gets along:
with `x0` or `x2` as dividend of a remainder that is always 0; with `x2` as `rd` if the result is
the `sp` there is; with `x0` as `rd` if what is at `sp` is divided by 1, or if there is no word
at `sp`. -/
def Safe (m : Machine) : Prop :=
  124 ≤ (m.reg sp).toNat ∧
  if rd m.mtval = sp then
    divisionResult (funct3 m.mtval) (m.reg (rs1 m.mtval)) (m.reg (rs2 m.mtval)) = m.reg sp
  else if rd m.mtval = 0 then
    2 ^ 32 < (m.reg sp).toNat + 4 ∨ rs1 m.mtval = 0 ∧ Saved (rs2 m.mtval) ∧
      (funct3 m.mtval).toNat < 6 ∧ m.reg (rs2 m.mtval) = 1
  else
    Saved (rs2 m.mtval) ∧ (Saved (rs1 m.mtval) ∨
      6 ≤ (funct3 m.mtval).toNat ∧ UnitDivisor (funct3 m.mtval) (m.reg (rs2 m.mtval)))

theorem operand_saved {k : Reg} (hk : Saved k) (a b : Word) : operand m a b k = m.reg k := by
  rw [operand, if_neg hk.1, if_neg hk.2]

theorem operand_sp (a b : Word) : operand m a b sp = b := rfl

theorem operand_of_not_saved {k : Reg} (hk : ¬ Saved k) (z : Word) : operand m z z k = z := by
  unfold operand
  by_cases h0 : k = 0
  · exact if_pos h0
  · have hsp : k = sp := by
      by_contra hne
      exact hk ⟨h0, hne⟩
    rw [if_neg h0, if_pos hsp]

theorem rs2_eq_sp {k : Reg} (hy : m.reg k ≠ 0) (hk : ¬ Saved k) : k = sp := by
  by_contra hne
  exact hk ⟨fun h0 => hy (by rw [h0, reg_zero]), hne⟩

section Values

variable {f : BitVec 3} {y : Word}

theorem divisor_matters (hf : 4 ≤ f.toNat) (v : Word) (x : Word → Word)
    (hx : (∀ z, x z = z) ∨ ∀ z, x z = x 0) : ∃ lib z, divisionValue lib f (x z) z ≠ v := by
  by_contra hall
  simp only [not_exists, not_not] at hall
  by_cases hquot : f.toNat < 6
  · have hval : ∀ z, divisionResult f (x z) z = v := fun z =>
      (divisionValue_eq hf (.inr hquot)).symm.trans (hall (.returning 0) z)
    have hones := hval 0
    rw [divisionResult_quotient_zero hf hquot] at hones
    have hone := hval 1
    rw [divisionResult_quotient_one hf hquot, ← hones] at hone
    rcases hx with hx | hx
    · rw [hx] at hone
      exact absurd hone (by decide)
    · -- the dividend is all ones; divided by itself it is 1
      have hself := hval (BitVec.allOnes 32)
      rw [hx, ← hx 1, hone, divisionResult_quotient_self hf hquot (by decide), ← hones] at hself
      exact absurd hself (by decide)
  · have h0 := hall (.returning 0) 0
    have h1 := hall (.returning 1) 0
    rw [divisionValue_returning (not_lt.mp hquot)] at h0 h1
    exact absurd (h0.trans h1.symm) (by decide)

/-- No word is the value of every dividend, unless the value is a remainder by a unit. -/
theorem dividend_matters (hf : 4 ≤ f.toNat) (hy : y ≠ 0)
    (hunit : ¬ (6 ≤ f.toNat ∧ UnitDivisor f y)) (v : Word) : ∃ z, divisionResult f z y ≠ v := by
  by_contra hall
  simp only [not_exists, not_not] at hall
  have h0 := hall 0
  rw [divisionResult_zero_left hf hy] at h0
  by_cases hquot : f.toNat < 6
  · have h1 := hall y
    rw [divisionResult_quotient_self hf hquot hy, ← h0] at h1
    exact absurd h1 (by decide)
  · have hrem := not_lt.mp hquot
    have h1 := hall 1
    rw [divisionResult_remainder_of_one hrem hy fun h => hunit ⟨hrem, h⟩, ← h0] at h1
    exact absurd h1 (by decide)

end Values

theorem fits_saved_iff (hf : 4 ≤ (funct3 m.mtval).toNat) (hy : m.reg (rs2 m.mtval) ≠ 0) :
    (∀ lib a b, valueAt lib m a b =
        divisionResult (funct3 m.mtval) (m.reg (rs1 m.mtval)) (m.reg (rs2 m.mtval))) ↔
      Saved (rs2 m.mtval) ∧ (Saved (rs1 m.mtval) ∨
        6 ≤ (funct3 m.mtval).toNat ∧ UnitDivisor (funct3 m.mtval) (m.reg (rs2 m.mtval))) := by
  constructor
  · intro h
    have hs2 : Saved (rs2 m.mtval) := by
      by_contra hs2
      have hsp := rs2_eq_sp hy hs2
      obtain ⟨lib, z, hne⟩ := divisor_matters hf
        (divisionResult (funct3 m.mtval) (m.reg (rs1 m.mtval)) (m.reg (rs2 m.mtval)))
        (fun z => operand m 0 z (rs1 m.mtval)) (by
          by_cases h1 : rs1 m.mtval = sp
          · exact .inl fun z => by rw [h1, operand_sp]
          · exact .inr fun z => by simp only [operand, if_neg h1])
      apply hne
      rw [← h lib 0 z, valueAt, hsp, operand_sp]
    refine ⟨hs2, ?_⟩
    by_contra hnot
    rw [not_or] at hnot
    obtain ⟨z, hne⟩ := dividend_matters hf hy hnot.2
      (divisionResult (funct3 m.mtval) (m.reg (rs1 m.mtval)) (m.reg (rs2 m.mtval)))
    apply hne
    rw [← h (.returning 0) z z, valueAt, operand_of_not_saved hnot.1, operand_saved hs2,
      divisionValue_eq hf (.inl hy)]
  · rintro ⟨hs2, hs1 | ⟨hrem, hunit⟩⟩ lib a b
    · rw [valueAt, operand_saved hs1, operand_saved hs2, divisionValue_eq hf (.inl hy)]
    · rw [valueAt, operand_saved hs2, divisionValue_eq hf (.inl hy),
        divisionResult_remainder_unit hrem hunit, divisionResult_remainder_unit hrem hunit]

theorem fits_zero_iff (hf : 4 ≤ (funct3 m.mtval).toNat) (hy : m.reg (rs2 m.mtval) ≠ 0) :
    (∀ lib a b, valueAt lib m a b = a) ↔ rs1 m.mtval = 0 ∧ Saved (rs2 m.mtval) ∧
      (funct3 m.mtval).toNat < 6 ∧ m.reg (rs2 m.mtval) = 1 := by
  constructor
  · intro h
    have h2 : rs2 m.mtval ≠ 0 := fun h0 => hy (by rw [h0, reg_zero])
    have h1 : rs1 m.mtval = 0 := by
      by_contra h1
      -- the value does not depend on the word at `sp`
      have hval : valueAt (.returning 0) m 0 0 = valueAt (.returning 0) m 1 0 := by
        simp only [valueAt, operand, if_neg h1, if_neg h2]
      rw [h, h] at hval
      exact absurd hval (by decide)
    have hs2 : Saved (rs2 m.mtval) := by
      by_contra hs2
      have hsp := rs2_eq_sp hy hs2
      obtain ⟨lib, z, hne⟩ := divisor_matters hf 0 (fun _ => 0) (.inr fun _ => rfl)
      have hv := h lib 0 z
      rw [valueAt, hsp, operand_sp, h1] at hv
      exact hne hv
    have hval : ∀ z, divisionResult (funct3 m.mtval) z (m.reg (rs2 m.mtval)) = z := by
      intro z
      have hv := h (.returning 0) z 0
      rwa [valueAt, operand_saved hs2, h1, divisionValue_eq hf (.inl hy)] at hv
    have hquot : (funct3 m.mtval).toNat < 6 := by
      by_contra hrem
      have hself := hval (m.reg (rs2 m.mtval))
      rw [divisionResult_remainder_self (not_lt.mp hrem) hy] at hself
      exact hy hself.symm
    refine ⟨h1, hs2, hquot, ?_⟩
    by_contra hone
    exact divisionResult_quotient_of_one hf hquot hy hone (hval 1)
  · rintro ⟨h1, hs2, hquot, hone⟩ lib a b
    rw [valueAt, operand_saved hs2, h1, hone, divisionValue_eq hf (.inr hquot)]
    exact divisionResult_quotient_one hf hquot

/-- **Division traps.** For a division by a register that is not 0: the trap is transparent, for
every memory, every behaviour of libgcc on zero divisors and every use of the registers by the C
code, exactly under `Safe`. -/
theorem division_trap_transparent_iff (hw : IsDivision m.mtval)
    (hc : m.mcause = causeIllegalInstruction) (hy : m.reg (rs2 m.mtval) ≠ 0) :
    AlwaysTransparent m ↔ Safe m := by
  refine (alwaysTransparent_iff hw hc).trans (and_congr_right fun _ => ?_)
  simp only [Fits]
  by_cases hsp : rd m.mtval = sp
  · simp only [if_pos hsp]
    exact ⟨fun h => h (.returning 0) 0 0, fun h _ _ _ => h⟩
  · simp only [if_neg hsp]
    by_cases h0 : rd m.mtval = 0
    · simp only [if_pos h0, ← fits_zero_iff hw.2.2 hy]
      by_cases hwrap : 2 ^ 32 < (m.reg sp).toNat + 4
      · exact ⟨fun _ => .inl hwrap, fun _ _ _ _ => .inl hwrap⟩
      · simp only [hwrap, false_or]
    · simp only [if_neg h0]
      exact fits_saved_iff hw.2.2 hy

/-- A trap of the instruction `w`, with `sp` at `0x40010000` and `v` in the other registers. -/
def trapped (w v : Word) (mem : ByteMemory) : Machine :=
  ⟨fun r => if r = sp then 0x40010000 else v, trapCsrs 0x40000000 causeIllegalInstruction w, mem⟩

/-- `div x5, x6, x7` is transparent. -/
theorem division_trap_transparent_iff_div : AlwaysTransparent (trapped 0x027342B3 4 fun _ => 0) := by
  refine (division_trap_transparent_iff (by decide) rfl (by decide)).mpr ⟨by decide, ?_⟩
  rw [if_neg (by decide), if_neg (by decide)]
  exact ⟨by decide, .inl (by decide)⟩

/-- `div x5, x0, x6` with 1 in `x6` and 7 at `sp`: the quotient is 0, `x5` becomes 7. -/
theorem division_trap_transparent_fails : ¬ ∀ m lib isr clobber, IsDivision m.mtval →
    m.mcause = causeIllegalInstruction → m.reg (rs2 m.mtval) ≠ 0 →
    Transparent m (trapEntry lib isr clobber m) := by
  intro h
  let m := trapped 0x026042B3 1 (storeWord (fun _ => 0) 0x40010000 7)
  have hresult := (h m (.returning 0) id (fun _ => 0) (by decide) rfl (by decide)).result
  rw [reg_trapEntry _ _ _ (by decide) rfl] at hresult
  revert hresult
  decide +kernel

end CfuPlayground.InstructionHandler
