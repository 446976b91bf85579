import CfuPlayground.Cfu.Port
import CfuPlayground.Lib.Pattern

/-!
# The decoder of `VexRiscv_SlimCfu.v`

The control bits that decide how an instruction moves through the pipeline, as masks on the
instruction word. The main facts are about a legal word with `CFU_ENABLE`: it is an instruction
of the custom-0 opcode (`opcode_of_cfuEnable`), so it is no load, store, division, branch, CSR or
environment instruction and has no side effect (`CfuWord`); and what can flush or halt the last
stage has a side effect (`hasSideEffect_of_memoryEnable`, `hasSideEffect_of_xret`).
-/

namespace CfuPlayground.VexRiscv

open Lib (Pattern)

/-- `decode_LEGAL_INSTRUCTION`. -/
def legalInstruction (i : Word) : Bool :=
  Pattern.any [⟨0x0000005f, 0x00000017⟩, ⟨0x0000007f, 0x0000006f⟩, ⟨0x0000007f, 0x0000000b⟩,
    ⟨0x0000106f, 0x00000003⟩, ⟨0x0000107f, 0x00001073⟩, ⟨0x0000207f, 0x00002073⟩,
    ⟨0x0000407f, 0x00004063⟩, ⟨0x0000207f, 0x00002013⟩, ⟨0x0000603f, 0x00000023⟩,
    ⟨0x0000207f, 0x00000003⟩, ⟨0x0000505f, 0x00000003⟩, ⟨0x0000707b, 0x00000063⟩,
    ⟨0x0000607f, 0x0000000f⟩, ⟨0xfc00007f, 0x00000033⟩, ⟨0x01f0707f, 0x0000500f⟩,
    ⟨0xbc00707f, 0x00005013⟩, ⟨0xfc00307f, 0x00001013⟩, ⟨0xbe00707f, 0x00005033⟩,
    ⟨0xbe00707f, 0x00000033⟩, ⟨0xdfffffff, 0x10200073⟩, ⟨0xffffffff, 0x10500073⟩,
    ⟨0xffffffff, 0x00000073⟩] i

/-- `CFU_ENABLE`, bit 32 of the decoded control word. -/
def cfuEnable (i : Word) : Bool := Pattern.any [⟨0x0000000c, 0x00000008⟩] i

/-- `IS_DIV`, bit 29. -/
def isDiv (i : Word) : Bool := Pattern.any [⟨0x02004064, 0x02004020⟩] i

/-- `EnvCtrlEnum`. -/
inductive EnvCtrl
  | none
  | xret
  | wfi
  | ecall
deriving DecidableEq

/-- `ENV_CTRL`, bits 27 and 26. -/
def envCtrl (i : Word) : EnvCtrl :=
  match Pattern.any [⟨0x00203050, 0x00000050⟩] i, Pattern.any [⟨0x00403050, 0x00000050⟩] i with
  | false, false => .none
  | false, true => .xret
  | true, false => .wfi
  | true, true => .ecall

/-- `IS_CSR`, bit 25. -/
def isCsr (i : Word) : Bool :=
  Pattern.any [⟨0x00001050, 0x00001050⟩, ⟨0x00002050, 0x00002050⟩] i

/-- `BRANCH_CTRL` other than `INC`, bits 24 and 23. -/
def isBranch (i : Word) : Bool :=
  Pattern.any [⟨0x00000048, 0x00000048⟩, ⟨0x0000001c, 0x00000004⟩] i ||
    Pattern.any [⟨0x00000058, 0x00000040⟩] i

/-- `HAS_SIDE_EFFECT`, bit 14. -/
def hasSideEffect (i : Word) : Bool :=
  Pattern.any [⟨0x00002040, 0x00002040⟩, ⟨0x00001040, 0x00001040⟩, ⟨0x00000050, 0x00000040⟩,
    ⟨0x00400040, 0x00000040⟩, ⟨0x00000018, 0x00000000⟩] i

/-- `MEMORY_ENABLE`, bit 4. -/
def memoryEnable (i : Word) : Bool := Pattern.any [⟨0x00000058, 0x00000000⟩] i

/-- `CfuPlugin_bus_cmd_payload_function_id`. -/
def functionId (i : Word) : BitVec 10 := i.extractLsb' 25 7 ++ i.extractLsb' 12 3

/-- The custom-0 opcode. -/
def custom0 : Pattern 32 := ⟨0x0000007f, 0x0000000b⟩

variable {i : Word}

theorem hasSideEffect_of_memoryEnable (h : memoryEnable i = true) : hasSideEffect i = true := by
  obtain ⟨p, hp, hm⟩ := Pattern.any_iff.mp h
  obtain rfl := List.mem_singleton.mp hp
  exact hm.any_of (by decide)

theorem hasSideEffect_of_xret (h : envCtrl i = .xret) : hasSideEffect i = true := by
  have hx : Pattern.any [⟨0x00403050, 0x00000050⟩] i = true := by
    unfold envCtrl at h
    split at h <;> simp_all
  obtain ⟨p, hp, hm⟩ := Pattern.any_iff.mp hx
  obtain rfl := List.mem_singleton.mp hp
  exact hm.any_of (by decide)

/-- **The only legal instructions for the CFU** are those of the custom-0 opcode. -/
theorem opcode_of_cfuEnable (hl : legalInstruction i = true) (hc : cfuEnable i = true) :
    custom0.Matches i := by
  obtain ⟨p, hp, hm⟩ := Pattern.any_iff.mp hc
  obtain rfl := List.mem_singleton.mp hp
  exact hm.only hl (by decide)

/-- A legal instruction for the CFU. -/
structure CfuWord (i : Word) : Prop where
  memoryEnable : memoryEnable i = false
  isDiv : isDiv i = false
  envCtrl : envCtrl i = .none
  isCsr : isCsr i = false
  isBranch : isBranch i = false
  hasSideEffect : hasSideEffect i = false

theorem cfuWord (hl : legalInstruction i = true) (hc : cfuEnable i = true) : CfuWord i := by
  have h := opcode_of_cfuEnable hl hc
  refine ⟨h.not_any (by decide), h.not_any (by decide), ?_, h.not_any (by decide), ?_,
    h.not_any (by decide)⟩
  · have hlo : Pattern.any [⟨0x00203050, 0x00000050⟩] i = false := h.not_any (by decide)
    have hhi : Pattern.any [⟨0x00403050, 0x00000050⟩] i = false := h.not_any (by decide)
    rw [envCtrl, hlo, hhi]
  · rw [isBranch, Bool.or_eq_false_iff]
    exact ⟨h.not_any (by decide), h.not_any (by decide)⟩

/-- Without the check of legality: no word is both for the CFU and for the data memory. -/
theorem memoryEnable_of_cfuEnable (h : cfuEnable i = true) : memoryEnable i = false := by
  obtain ⟨p, hp, hm⟩ := Pattern.any_iff.mp h
  obtain rfl := List.mem_singleton.mp hp
  exact hm.not_any (by decide)

end CfuPlayground.VexRiscv
