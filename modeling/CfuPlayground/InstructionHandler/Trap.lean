import Mathlib.Data.BitVec
import CfuPlayground.InstructionHandler.Emulation

/-!
# The trap around the handler

`trap_entry` as a whole (`trapEntry_eq`): it saves into a frame below `sp`, the handler assigns
one word of the frame, and every register but `sp` comes back from the frame. What the handler
takes for the saved `x0` is the word at the interrupted `sp`; what it takes for `x2` is a word of
the frame that is never written.
-/

namespace CfuPlayground.InstructionHandler

open Lib (ByteMemory loadWord storeWord)
open Lib.Assembly (Reg Machine sp slot slot_add apart_slot savedMem foldl_sw loadWord_savedMem
  loadWord_savedMem_of_ne loaded foldl_lw reg_loaded reg_loaded_of_not_mem)
open Lib.Assembly.Machine

variable {lib : Libgcc} {isr : Machine → Machine} {clobber : Reg → Word} {m : Machine}

/-! ## The frame -/

theorem neg_setWidth_mul (k : Reg) : -(k.setWidth 32) * 4 = -BitVec.ofNat 32 (4 * k.toNat) := by
  revert k
  decide

theorem four_mul_lt (k : Reg) : 4 * k.toNat < 2 ^ 32 := by
  have hk := k.isLt
  omega

theorem savedAdr_eq_slot (s : Word) (k : Reg) : savedAdr (s + -31 * 4) k = slot s k.toNat := by
  rw [slot, ← neg_setWidth_mul, savedAdr]
  ring

theorem restore_offset (s : Word) (k : Reg) :
    s + -31 * 4 + (31 - k.setWidth 32) * 4 = slot s k.toNat := by
  rw [slot, ← neg_setWidth_mul]
  ring

theorem apart_slots (s : Word) {j k : Reg} (h : j ≠ k) :
    Lib.Apart (slot s j.toNat) (slot s k.toNat) :=
  apart_slot (four_mul_lt j) (four_mul_lt k) fun he => h (BitVec.eq_of_toNat_eq he)

/-! ## Saving -/

/-- The register `xk` is saved `k` words below `sp`. -/
def places : List (Reg × ℕ) := savedRegs.map fun k => (k, k.toNat)

theorem save_eq : save m = m.setMem (savedMem m places) := by
  rw [← foldl_sw, places, List.foldl_map, save]
  simp only [neg_setWidth_mul]

theorem places_lt (p : Reg × ℕ) (hp : p ∈ places) : 4 * p.2 < 2 ^ 32 := by
  obtain ⟨k, -, rfl⟩ := List.mem_map.mp hp
  exact four_mul_lt k

theorem loadWord_saved {k : Reg} (hk : Saved k) :
    loadWord (savedMem m places) (slot (m.reg sp) k.toNat) = m.reg k := by
  have hp : (k, k.toNat) ∈ places := List.mem_map.mpr ⟨k, (saved_iff_mem k).mp hk, rfl⟩
  have hnodup : (places.map Prod.snd).Nodup := by decide +kernel
  exact loadWord_savedMem (p := (k, k.toNat)) hnodup places_lt hp

theorem loadWord_of_not_saved {k : Reg} (hk : ¬ Saved k) :
    loadWord (savedMem m places) (slot (m.reg sp) k.toNat) =
      loadWord m.mem (slot (m.reg sp) k.toNat) := by
  refine loadWord_savedMem_of_ne places_lt (four_mul_lt k) fun p hp => ?_
  obtain ⟨j, hj, rfl⟩ := List.mem_map.mp hp
  intro he
  rw [BitVec.eq_of_toNat_eq he] at hj
  exact hk ((saved_iff_mem k).mpr hj)

/-! ## Restoring -/

theorem restore_eq : restore m = loaded m savedRegs fun k => (31 - k.setWidth 32) * 4 :=
  foldl_lw (by decide)

theorem reg_restore {s : Word} (hs : m.reg sp = s + -31 * 4) {k : Reg} (hk : Saved k) :
    (restore m).reg k = loadWord m.mem (slot s k.toNat) := by
  rw [restore_eq, reg_loaded ((saved_iff_mem k).mp hk) hk.1, hs, restore_offset]

theorem restore_frame :
    (restore m).reg sp = m.reg sp ∧ (restore m).mem = m.mem ∧ (restore m).mepc = m.mepc := by
  rw [restore_eq]
  exact ⟨reg_loaded_of_not_mem (by decide), rfl, rfl⟩

/-! ## The call -/

theorem reg_sp_call (f : Word → Machine → Machine) :
    (call f clobber m).reg sp = m.reg sp := by
  rw [reg_of_ne (by decide), reg_of_ne (by decide)]
  exact Function.update_self sp (m.regs sp) clobber

variable (lib isr clobber)

/-- The machine `trap_handler` is called on, with the saved registers in `mem`. -/
def entered (m : Machine) (mem : ByteMemory) : Machine :=
  ((m.setMem mem).addi sp sp (-31 * 4)).addi a0 sp 0

theorem entered_regs (mem : ByteMemory) : (entered m mem).reg a0 = m.reg sp + -31 * 4 ∧
    (entered m mem).reg sp = m.reg sp + -31 * 4 := by
  have hsp : ((m.setMem mem).addi sp sp (-31 * 4)).reg sp = m.reg sp + -31 * 4 := by
    rw [addi, reg_setReg_self (by decide), reg_setMem]
  constructor
  · rw [entered, addi, reg_setReg_self (by decide), hsp, add_zero]
  · rw [entered, addi, reg_setReg_of_ne (by decide), hsp]

/-- The word the handler assigns, given the saved registers below `s`. -/
def assigned (lib : Libgcc) (instruction s : Word) (mem : ByteMemory) : Word :=
  divisionValue lib (funct3 instruction) (loadWord mem (slot s (rs1 instruction).toNat))
    (loadWord mem (slot s (rs2 instruction).toNat))

/-- The memory after the handler. -/
def handledMem (lib : Libgcc) (instruction s : Word) (mem : ByteMemory) : ByteMemory :=
  storeWord mem (slot s (rd instruction).toNat) (assigned lib instruction s mem)

theorem trapHandler_division (hw : IsDivision m.mtval) (hc : m.mcause = causeIllegalInstruction)
    (s : Word) : trapHandler lib isr (s + -31 * 4) m =
      (m.setMem (handledMem lib m.mtval s m.mem)).setMepc (m.mepc + 4) := by
  rw [trapHandler, if_pos hc, instructionHandler_eq hw.1, divInstructionHandler_eq hw.2.2, savedReg,
    savedReg, savedAdr_eq_slot, savedAdr_eq_slot, savedAdr_eq_slot]
  rfl

theorem call_entered (hw : IsDivision m.mtval) (hc : m.mcause = causeIllegalInstruction)
    (mem : ByteMemory) :
    (call (trapHandler lib isr) clobber (entered m mem)).mem =
        handledMem lib m.mtval (m.reg sp) mem ∧
      (call (trapHandler lib isr) clobber (entered m mem)).mepc = m.mepc + 4 ∧
      (call (trapHandler lib isr) clobber (entered m mem)).reg sp = m.reg sp + -31 * 4 := by
  obtain ⟨ha0, hsp⟩ := entered_regs (m := m) mem
  have hdivision : IsDivision (entered m mem).mtval := hw
  have hcause : (entered m mem).mcause = causeIllegalInstruction := hc
  have hhandled := trapHandler_division lib isr hdivision hcause (m.reg sp)
  rw [← ha0] at hhandled
  have hmem : (call (trapHandler lib isr) clobber (entered m mem)).mem =
      (trapHandler lib isr ((entered m mem).reg a0) (entered m mem)).mem := rfl
  have hmepc : (call (trapHandler lib isr) clobber (entered m mem)).mepc =
      (trapHandler lib isr ((entered m mem).reg a0) (entered m mem)).mepc := rfl
  rw [hmem, hmepc, reg_sp_call, hsp, hhandled]
  exact ⟨rfl, mepc_setMepc, rfl⟩

/-! ## The whole trap -/

theorem trapEntry_eq_entered : trapEntry lib isr clobber m =
    (restore (call (trapHandler lib isr) clobber (entered m (savedMem m places)))).addi sp sp
      (31 * 4) := by
  rw [trapEntry, save_eq]
  rfl

/-- **The trap.** What a trapped division leaves behind. -/
theorem trapEntry_eq (hw : IsDivision m.mtval) (hc : m.mcause = causeIllegalInstruction) :
    (trapEntry lib isr clobber m).mem =
        handledMem lib m.mtval (m.reg sp) (savedMem m places) ∧
      (trapEntry lib isr clobber m).mepc = m.mepc + 4 ∧
      (trapEntry lib isr clobber m).reg sp = m.reg sp ∧
      ∀ k, Saved k → (trapEntry lib isr clobber m).reg k =
        loadWord (handledMem lib m.mtval (m.reg sp) (savedMem m places))
          (slot (m.reg sp) k.toNat) := by
  rw [trapEntry_eq_entered]
  generalize savedMem m places = mem
  obtain ⟨hmem, hepc, hsp⟩ := call_entered lib isr clobber hw hc mem
  obtain ⟨hrsp, hrmem, hrepc⟩ :=
    restore_frame (m := call (trapHandler lib isr) clobber (entered m mem))
  rw [addi, setReg_mem, setReg_mepc, hrmem, hrepc, hmem, hepc]
  refine ⟨rfl, rfl, ?_, fun k hk => ?_⟩
  · rw [reg_setReg_self (by decide), hrsp, hsp]
    ring
  · rw [reg_setReg_of_ne hk.2, reg_restore hsp hk, hmem]

end CfuPlayground.InstructionHandler
