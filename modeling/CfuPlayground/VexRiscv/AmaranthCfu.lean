import CfuPlayground.VexRiscv.Late
import CfuPlayground.AmaranthCfu.Handshake

/-!
# The CPU with the Amaranth `Cfu` base class

The CFU is not ready from the cycle after it has taken a command until its response is taken.

* `channels`: the two channels of the CFU are those of the CPU.
* `outstanding`: while the bus works and no command waits in `execute`, the CFU is busy with the
  instruction in `memory`, and the CPU is ready for its response.
* **`amaranthCfu_faithful_iff`**: if every instruction of the CFU finishes, the bus works exactly
  if no instruction is late.
-/

namespace CfuPlayground.VexRiscv

open Lib

/-- The instructions made by `elab_instructions`, as they show themselves in a cycle. -/
abbrev InstructionDict := AmaranthCfu.Funct3 → Option AmaranthCfu.InstructionOut

/-- The CPU and the CFU. -/
structure AmaranthSystem where
  cpu : Cpu
  cfu : AmaranthCfu.State := {}

namespace AmaranthSystem

/-- The wires that the CFU reads. -/
def cfuIn (dict : InstructionDict) (x : AmaranthSystem) : AmaranthCfu.In where
  cmdValid := x.cpu.cmdValid
  cmdFunctionId := x.cpu.cmdPayload.functionId
  cmdIn0 := x.cpu.cmdPayload.inputs0
  cmdIn1 := x.cpu.cmdPayload.inputs1
  rspReady := x.cpu.rspReady
  instructionDict := dict

/-- The wires that the CPU reads; those of the CFU in `i` are not used. -/
def cpuIn (i : Inputs) (dict : InstructionDict) (x : AmaranthSystem) : Inputs :=
  { i with
    cmdReady := AmaranthCfu.cmdReady x.cfu
    rspValid := AmaranthCfu.rspValid (x.cfuIn dict) x.cfu
    rspPayload := AmaranthCfu.rspOut (x.cfuIn dict) x.cfu }

/-- **One cycle** of both. -/
def tick (e : Inputs × InstructionDict) (x : AmaranthSystem) : AmaranthSystem where
  cpu := x.cpu.step (x.cpuIn e.1 e.2)
  cfu := AmaranthCfu.next (x.cfuIn e.2) x.cfu

def run (env : ℕ → Inputs × InstructionDict) (s : Cpu) : ℕ → AmaranthSystem :=
  Lib.run tick env { cpu := s }

variable (env : ℕ → Inputs × InstructionDict) (s : Cpu)

/-- The wires of the CPU in the cycles of a run. -/
def wires (n : ℕ) : Inputs := (run env s n).cpuIn (env n).1 (env n).2

/-- The wires of the CFU. -/
def cfuWires (n : ℕ) : AmaranthCfu.In := (run env s n).cfuIn (env n).2

theorem run_cpu (n : ℕ) : (run env s n).cpu = Cpu.run (wires env s) s n := by
  induction n with
  | zero => rfl
  | succ n ih =>
    rw [Cpu.run_succ, ← ih]
    rfl

theorem run_cfu (n : ℕ) : (run env s n).cfu = AmaranthCfu.states (cfuWires env s) n := by
  induction n with
  | zero => rfl
  | succ n ih =>
    rw [AmaranthCfu.states_succ, ← ih]
    rfl

theorem cmdReady_wires (n : ℕ) :
    (wires env s n).cmdReady = AmaranthCfu.cmdReady (AmaranthCfu.states (cfuWires env s) n) :=
  congrArg AmaranthCfu.cmdReady (run_cfu env s n)

/-! ## The channels -/

variable {env s}

theorem accepts_eq (n : ℕ) : (AmaranthCfu.accepts (cfuWires env s) n).isSome =
    ((Cpu.run (wires env s) s n).command (wires env s n)).isSome := by
  have hvalid : (cfuWires env s n).cmdValid = (run env s n).cpu.cmdValid := rfl
  rw [AmaranthCfu.accepts, Cpu.command, Cpu.cmdFire, hvalid, cmdReady_wires, ← run_cpu]
  cases (run env s n).cpu.cmdValid && AmaranthCfu.cmdReady _ <;> rfl

theorem transfers_eq (n : ℕ) : AmaranthCfu.transfers (cfuWires env s) n =
    (Cpu.run (wires env s) s n).reply (wires env s n) := by
  rw [AmaranthCfu.transfers, ← run_cfu, ← run_cpu]
  rfl

/-- The channels of the CFU are those of the CPU. -/
theorem channels (n : ℕ) :
    (log (AmaranthCfu.accepts (cfuWires env s)) n).length =
        (Cpu.commands (wires env s) s n).length ∧
      log (AmaranthCfu.transfers (cfuWires env s)) n = Cpu.replies (wires env s) s n := by
  refine ⟨?_, log_congr transfers_eq n⟩
  induction n with
  | zero => rfl
  | succ n ih =>
    have hn : (AmaranthCfu.accepts (cfuWires env s) n).isSome = _ := accepts_eq n
    rw [Cpu.commands, log_succ, log_succ, List.length_append, List.length_append, ih, Cpu.commands]
    cases ha : AmaranthCfu.accepts (cfuWires env s) n <;>
      cases hc : (Cpu.run (wires env s) s n).command (wires env s n) <;>
      simp [ha, hc] at hn ⊢

theorem length_of_busy (n : ℕ) (hr : (wires env s n).cmdReady = false) :
    (Cpu.commands (wires env s) s n).length = (Cpu.replies (wires env s) s n).length + 1 := by
  obtain ⟨hacc, htr⟩ : _ ∧ log (AmaranthCfu.transfers (cfuWires env s)) n = _ := channels n
  obtain ⟨A, hA, hO⟩ := AmaranthCfu.inv_run (cfuWires env s) n
  rw [cmdReady_wires] at hr
  rw [← hacc, ← htr, ← hA.length_eq]
  unfold AmaranthCfu.Outstanding at hO
  cases hs : (AmaranthCfu.states (cfuWires env s) n).fsm with
  | waitCmd => simp [AmaranthCfu.cmdReady, hs] at hr
  | waitInstruction =>
    rw [hs] at hO
    obtain ⟨a, hlog, -⟩ := hO
    simp [hlog]
  | waitTransfer =>
    rw [hs] at hO
    obtain ⟨p, hlog, -⟩ := hO
    simp [hlog]

/-! ## The CFU gets ready -/

/-- While the bus works and `execute` waits for no response, a CFU that is not ready is busy with
the instruction in `memory`. -/
theorem rspReady_of_busy {n : ℕ} (hf : Cpu.Faithful (wires env s) s n)
    (hfired : (Cpu.run (wires env s) s n).fired = false) (hr : (wires env s n).cmdReady = false) :
    (Cpu.run (wires env s) s n).rspReady = true := by
  have hbusy := length_of_busy n hr
  have hcommands := congrArg List.length hf.commands
  have hinstructions := congrArg List.length hf.instructions
  have hreplies := congrArg List.length hf.replies
  simp only [List.length_append, List.length_map, Cpu.inExecute, Cpu.inMemory, Cpu.buffered, hfired,
    Bool.and_false, Bool.false_eq_true, if_false, List.length_nil] at hcommands hinstructions hreplies
  cases hv : (Cpu.run (wires env s) s n).rValid with
  | false => simp [Cpu.rspReady, hv]
  | true =>
    simp only [hv, if_true, List.length_singleton] at hreplies
    split_ifs at hinstructions <;> simp at hinstructions <;> omega

theorem ready_of_late (h : s.AtReset) (hdone : AmaranthCfu.Completes (cfuWires env s)) {n : ℕ}
    (hfirst : ∀ k < n, ¬ Cpu.Late (wires env s) s k) (hl : Cpu.Late (wires env s) s n) :
    ∃ m, n < m ∧ (wires env s m).cmdReady = true := by
  by_contra hnever
  have hbusy : ∀ m, n < m → (wires env s m).cmdReady = false := by
    intro m hm
    by_contra hr
    exact hnever ⟨m, hm, by simpa using hr⟩
  have hleft : ∀ m, n < m → Cpu.Leftover _ (Cpu.run (wires env s) s m) :=
    fun m hm => hl.leftover h hfirst hm fun k hk _ => hbusy k hk
  have hfaithful : ∀ m, Cpu.Faithful (wires env s) s m := by
    refine fun m => (Cpu.sound_run h fun k _ => ?_).2
    rintro ⟨hh, hw, hr⟩
    rcases Nat.lt_or_ge n k with hk | hk
    · simp [hbusy k hk] at hr
    · exact (Cpu.timely_run h fun j hj => hfirst j (by omega)).not_staleTaken ⟨hh, hw, hr⟩
  have hwait : (AmaranthCfu.states (cfuWires env s) (n + 1)).fsm ≠ .waitCmd := by
    intro hs
    have hr := hbusy (n + 1) (Nat.lt_succ_self n)
    simp [cmdReady_wires, AmaranthCfu.cmdReady, hs] at hr
  obtain ⟨d, hd, hv⟩ := AmaranthCfu.respond_of_pending hdone hwait
  -- the response is taken at once, and nothing is outstanding
  have hr := rspReady_of_busy (hfaithful d) (hleft d hd).fired (hbusy d hd)
  have hreply : ((Cpu.run (wires env s) s d).reply (wires env s d)).isSome = true := by
    have hv' : (wires env s d).rspValid = true := by
      rw [← run_cfu] at hv
      exact hv
    simp [Cpu.reply, hv', hr]
  have hcommand : (Cpu.run (wires env s) s d).command (wires env s d) = none := by
    simp [Cpu.command, Cpu.cmdFire, hbusy d hd]
  have hnow := length_of_busy d (hbusy d hd)
  have hnext := length_of_busy (d + 1) (hbusy (d + 1) (by omega))
  obtain ⟨r, hr'⟩ := Option.isSome_iff_exists.mp hreply
  rw [Cpu.commands, Cpu.replies, log_succ, log_succ, hcommand, hr', ← Cpu.commands,
    ← Cpu.replies] at hnext
  simp only [Option.toList_none, List.append_nil, Option.toList_some, List.length_append,
    List.length_singleton] at hnext
  omega

/-- **The bus works exactly if no instruction is late**, if every instruction of the CFU
finishes. -/
theorem amaranthCfu_faithful_iff (env : ℕ → Inputs × InstructionDict) {s : Cpu} (h : s.AtReset)
    (hdone : AmaranthCfu.Completes (cfuWires env s)) :
    (∀ n, Cpu.Faithful (wires env s) s n) ↔ ∀ n, ¬ Cpu.Late (wires env s) s n :=
  Cpu.faithful_iff_of_ready h fun _ hfirst hl => ready_of_late h hdone hfirst hl

/-- An instruction that takes until cycle 8, behind a division. -/
def slowCfu (n : ℕ) : Inputs × InstructionDict := (Cpu.divCfuAdd n, fun _ => some ⟨8 ≤ n, 9⟩)

theorem amaranthCfu_faithful_iff_slowCfu :
    ¬ ∀ n, Cpu.Faithful (wires slowCfu Cpu.zero) Cpu.zero n := by
  have hdone : AmaranthCfu.Completes (cfuWires slowCfu Cpu.zero) :=
    fun t _ _ => ⟨max t 8, le_max_left _ _, decide_eq_true (le_max_right _ _)⟩
  rw [amaranthCfu_faithful_iff slowCfu Cpu.atReset_zero hdone]
  exact fun hlate => hlate 6 (by decide)

end AmaranthSystem

end CfuPlayground.VexRiscv
