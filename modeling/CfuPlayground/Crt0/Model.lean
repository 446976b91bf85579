import CfuPlayground.Lib.Copy
import CfuPlayground.Lib.Frame

/-!
# Start-up and traps

`crt0-vexriscv.S` for a CPU with a divider, and `crt0.S` of `vexriscv_cfu_ram`, line by line. The
symbols of the linker script are parameters: `linker.ld` of `common` aligns them and puts the
sections one behind the other, and the script for `crt0.S` is not in the repository.
-/

namespace CfuPlayground.Crt0

open Lib Lib.Assembly

/-- The symbols of the linker script. `dataRom` is the address that the initial values of `.data`
are loaded at. -/
structure Symbols where
  dataRom : BitVec 32
  fdata : BitVec 32
  edata : BitVec 32
  fbss : BitVec 32
  ebss : BitVec 32
  fstack : BitVec 32
  trapEntry : BitVec 32
  aligned_dataRom : aligned dataRom
  aligned_fdata : aligned fdata
  aligned_edata : aligned edata
  aligned_fbss : aligned fbss
  aligned_ebss : aligned ebss
  data : fdata.toNat ≤ edata.toNat
  data_bss : edata.toNat ≤ fbss.toNat
  bss : fbss.toNat ≤ ebss.toNat

/-- `linker.ld` with 24 bytes of `.data` right behind `.rodata`, so that they are loaded at their
own place, and 32 of `.bss`. -/
def inPlace : Symbols where
  dataRom := 0x40001008
  fdata := 0x40001008
  edata := 0x40001020
  fbss := 0x40001020
  ebss := 0x40001040
  fstack := 0x4000fffc
  trapEntry := 0x40000020
  aligned_dataRom := by decide
  aligned_fdata := by decide
  aligned_edata := by decide
  aligned_fbss := by decide
  aligned_ebss := by decide
  data := by decide
  data_bss := by decide
  bss := by decide

/-- `linker.ld` with `.data` aligned to 16 bytes: it is loaded where `.rodata` ends, and begins 8
bytes behind. -/
def overlapping : Symbols :=
  { inPlace with
    fdata := 0x40001010
    aligned_fdata := by decide
    data := by decide }

/-- The functions called. -/
inductive Fn
  | isr
  | main
deriving DecidableEq

/-- The labels of `crt0-vexriscv.S`. -/
inductive Label
  | crtInit
  | l1
  | l2
  | l3
  | l4
  | infinitLoop
deriving DecidableEq

/-- The labels of `crt0.S`. -/
inductive BiosLabel
  | crtInit
  | dataInit
  | dataLoop
  | dataDone
  | bssInit
  | bssLoop
  | bssDone
  | infinitLoop
deriving DecidableEq

/-! ## Registers -/

abbrev zero : Reg := 0
abbrev t0 : Reg := 5
abbrev t1 : Reg := 6
abbrev t2 : Reg := 7
abbrev a0 : Reg := 10
abbrev a1 : Reg := 11
abbrev a2 : Reg := 12
abbrev a3 : Reg := 13
abbrev t3 : Reg := 28

abbrev mie : Csr := 0x304
abbrev mtvec : Csr := 0x305

/-- The registers that `trap_entry` saves, in this order. -/
def trapRegs : List Reg := [1, 5, 6, 7, 10, 11, 12, 13, 14, 15, 16, 17, 28, 29, 30, 31]

/-- `trap_entry` up to `mret`. -/
def trapEntry : List (Instr Fn) := guarded trapRegs .isr

/-! ## The texts -/

/-- `crt0-vexriscv.S` from `crt_init` on; `_start` jumps here. -/
def crt0Vexriscv (S : Symbols) : List (Line Label Fn) :=
  [.label .crtInit,
    .instr (.la sp (S.fstack + 4)),
    .instr (.la a0 S.trapEntry),
    .instr (.csrw mtvec a0),
    -- Move initialized data from ROM to RAM
    .instr (.la t0 S.dataRom),
    .instr (.la t1 S.fdata),
    .instr (.la t2 S.edata),
    .label .l1,
    .beq t1 t2 .l2,
    .instr (.lw t3 0 t0),
    .instr (.sw t3 0 t1),
    .instr (.addi t0 t0 4),
    .instr (.addi t1 t1 4),
    .j .l1,
    .label .l2,
    -- Zero BSS RAM
    .instr (.la a0 S.fbss),
    .instr (.la a1 S.ebss),
    .label .l3,
    .beq a0 a1 .l4,
    .instr (.sw zero 0 a0),
    .instr (.addi a0 a0 4),
    .j .l3,
    .label .l4,
    .instr (.la a0 0x880),
    .instr (.csrw mie a0),
    .instr (.call .main),
    .label .infinitLoop,
    .j .infinitLoop]

/-- `crt0.S` from `crt_init` on. -/
def crt0 (S : Symbols) : List (Line BiosLabel Fn) :=
  [.label .crtInit,
    .instr (.la sp S.fstack),
    .instr (.la a0 S.trapEntry),
    .instr (.csrw mtvec a0),
    .label .dataInit,
    .instr (.la a0 S.fdata),
    .instr (.la a1 S.edata),
    .instr (.la a2 S.dataRom),
    .label .dataLoop,
    .beq a0 a1 .dataDone,
    .instr (.lw a3 0 a2),
    .instr (.sw a3 0 a0),
    .instr (.addi a0 a0 4),
    .instr (.addi a2 a2 4),
    .j .dataLoop,
    .label .dataDone,
    .label .bssInit,
    .instr (.la a0 S.fbss),
    .instr (.la a1 S.ebss),
    .label .bssLoop,
    .beq a0 a1 .bssDone,
    .instr (.sw zero 0 a0),
    .instr (.addi a0 a0 4),
    .j .bssLoop,
    .label .bssDone,
    .instr (.la a0 0x880),
    .instr (.csrw mie a0),
    .instr (.call .main),
    .label .infinitLoop,
    .j .infinitLoop]

end CfuPlayground.Crt0
