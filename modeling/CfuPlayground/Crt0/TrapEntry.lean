import CfuPlayground.Crt0.Model

/-!
# Interrupts

`trap_entry` saves the registers that a C function need not keep. **`trapEntry_transparent`**: for
every `isr` that follows the calling convention, the interrupted program finds all its registers
again, and its memory as `isr` leaves it, but for the words below its stack.
-/

namespace CfuPlayground.Crt0

open Lib Lib.Assembly

/-- **The trap** up to `mret`. `isr` works on `entered m trapRegs`, with the registers saved in
the 64 bytes below `sp`. -/
theorem trapEntry_transparent (env : Fn → Machine → Machine) (m : Machine)
    (hisr : Keeps trapRegs (env .isr)) (hs : aligned (m.reg sp)) :
    ∃ m', exec env trapEntry m = some m' ∧ (∀ r, m'.reg r = m.reg r) ∧
      m'.mem = (env .isr (entered m trapRegs)).mem ∧
      m'.csrs = (env .isr (entered m trapRegs)).csrs ∧
      ∀ x : BitVec 32, 64 ≤ (x - (m.reg sp - 64)).toNat →
        (entered m trapRegs).mem x = m.mem x := by
  obtain ⟨m', hexec, hregs, hmem, hcsrs⟩ :=
    exec_guarded (l := trapRegs) hisr (by decide) (by decide) (by decide) hs
  refine ⟨m', hexec, hregs, hmem, hcsrs, fun x hx => ?_⟩
  have hslot : slot (m.reg sp) 16 = m.reg sp - 64 := by
    rw [sub_eq_add_neg]
    rfl
  have hplaces : ∀ p ∈ places trapRegs, 1 ≤ p.2 ∧ p.2 ≤ 16 := fun p hp => mem_places hp
  rw [entered_mem]
  refine savedMem_apply (by decide) hplaces ?_
  rwa [hslot]

/-- An `isr` that clears every register that it need not keep. -/
def clobberIsr (m : Machine) : Machine :=
  { m with regs := fun r => if trapRegs.contains r then 0 else m.regs r }

theorem trapEntry_transparent_clobberIsr :
    ∃ m', exec (fun _ => clobberIsr) trapEntry ⟨fun _ => 0x100, fun _ => 0, fun _ => 7⟩ = some m' ∧
      m'.reg a0 = 0x100 := by
  have hisr : Keeps trapRegs clobberIsr :=
    { sp := fun _ => rfl
      regs := fun m r hr => by
        rcases eq_or_ne r 0 with rfl | h0
        · rfl
        · rw [Machine.reg_of_ne h0, Machine.reg_of_ne h0]
          exact if_neg (by simpa using hr)
      frame := fun _ _ _ => rfl }
  obtain ⟨m', hexec, hregs, -⟩ := trapEntry_transparent (fun _ => clobberIsr)
    ⟨fun _ => 0x100, fun _ => 0, fun _ => 7⟩ hisr (by decide)
  exact ⟨m', hexec, hregs a0⟩

end CfuPlayground.Crt0
