import CfuPlayground.VexRiscv.Architecture
import CfuPlayground.VexRiscv.Executes

/-!
# The CPU with its data path and a CFU

A CFU instruction takes its operands from registers and its result from the CFU. `commandsOf` are
the commands of a list of instructions, of the registers that these leave one after the other.

* `Flow.command_step`: the commands behind `execute` are those of the registers;
* `fired_cfu`: in a run in which the CFU instructions retire with their results (`Executes`), these
  are the results of the commands of the instructions before;
* `Board` is the CPU, its data path and a CFU of the projects on one clock;
* **`projTemplate_board`** and **`filterPreload_board`**: it executes its instructions in order.
-/

namespace CfuPlayground.VexRiscv

open Lib

/-- The command of a CFU instruction. -/
def commandOf (regs : BitVec 5 → Word) (i : Word) : Command :=
  ⟨functionId i, regs (rs1Field i), regs (rs2Field i)⟩

/-- The commands of a list of instructions. -/
def commandsOf (regs : BitVec 5 → Word) : List LastStage → List Command
  | [] => []
  | x :: l => (if custom0.Matches x.instruction then [commandOf regs x.instruction] else []) ++
      commandsOf (x.write regs) l

theorem commandsOf_append (regs : BitVec 5 → Word) (l : List LastStage) (x : LastStage) :
    commandsOf regs (l ++ [x]) = commandsOf regs l ++
      if custom0.Matches x.instruction then [commandOf (registers regs l) x.instruction]
      else [] := by
  induction l generalizing regs with
  | nil => simp [commandsOf, registers]
  | cons y l ih =>
    rw [List.cons_append, commandsOf, commandsOf, ih, List.append_assoc]
    rfl

/-- The CFU instructions of a list, with their results. -/
def cfuResult (x : LastStage) : Option (Word × Word) :=
  if custom0.Matches x.instruction then some (x.instruction, x.data) else none

theorem length_commandsOf (regs : BitVec 5 → Word) (l : List LastStage) :
    (commandsOf regs l).length = (l.filterMap cfuResult).length := by
  induction l generalizing regs with
  | nil => rfl
  | cons x l ih =>
    rw [commandsOf, List.length_append, ih, List.filterMap_cons]
    by_cases h : custom0.Matches x.instruction
    · simp [cfuResult, h, Nat.add_comm]
    · simp [cfuResult, h]

theorem cfuEnable_eq {i : Word} (hl : legalInstruction i = true) :
    cfuEnable i = decide (custom0.Matches i) := by
  cases hc : cfuEnable i with
  | true => exact (decide_eq_true (opcode_of_cfuEnable hl hc)).symm
  | false =>
    refine (decide_eq_false fun h => ?_).symm
    have hany : cfuEnable i = true := h.any_of (by decide)
    simp [hc] at hany

namespace Core

variable {o : Outside} {c : Core} {x : LastStage}

/-! ## Commands behind `execute` -/

/-- The registers that an instruction in `memory` has read. -/
def memoryRegs (c : Core) (r : BitVec 5) : Word :=
  if c.writeBackWrites r then c.cpu.writeBackData else c.data.regFile r

def commandInMemory (c : Core) : List Command :=
  if c.cpu.memoryCfuInFlight then [commandOf c.memoryRegs c.cpu.memoryInstruction] else []

def commandInWriteBack (c : Core) : List Command :=
  if c.cpu.writeBackIsValid && cfuEnable c.cpu.writeBackInstruction then
    [commandOf c.data.regFile c.cpu.writeBackInstruction]
  else []

theorem FromWriteBack.eq {r : BitVec 5} {v : Word} (h : c.FromWriteBack r v) :
    v = c.memoryRegs r := by
  unfold FromWriteBack at h
  unfold memoryRegs
  split_ifs at h ⊢
  · exact h.2
  · exact h

/-- The operands of a CFU instruction are both registers. -/
theorem Reads.of_cfu {value : BitVec 5 → Word → Prop} {i a b : Word} (h : Reads value i a b)
    (hc : custom0.Matches i) : value (rs1Field i) a ∧ value (rs2Field i) b :=
  ⟨h.rs1 (hc.any_of (by decide)), h.rs2 (hc.any_of (by decide))⟩

theorem Flow.memory_cfu (h : Flow c) (hm : c.cpu.memoryCfuInFlight = true) :
    c.cpu.memoryIsValid = true ∧
      c.FromWriteBack (rs1Field c.cpu.memoryInstruction)
        (c.memoryRegs (rs1Field c.cpu.memoryInstruction)) ∧
      c.FromWriteBack (rs2Field c.cpu.memoryInstruction)
        (c.memoryRegs (rs2Field c.cpu.memoryInstruction)) := by
  have hmem := h.bypassing.sound.memory
  rw [hm] at hmem
  obtain ⟨hv, hc⟩ := Bool.and_eq_true_iff.mp hmem.symm
  obtain ⟨a, b, hreads, -⟩ := h.memory hv
  obtain ⟨h1, h2⟩ := Reads.of_cfu hreads (opcode_of_cfuEnable (h.bypassing.legal hv) hc)
  rw [← h1.eq, ← h2.eq]
  exact ⟨hv, h1, h2⟩

/-- The command that leaves `execute`. -/
theorem Flow.command_issue (h : Flow c) (hi : c.cpu.schedule = true)
    (hs : c.cpu.executeIsStuck (c.wires o) = false) :
    commandOf (c.step o).memoryRegs (c.step o).cpu.memoryInstruction = c.cpu.cmdPayload := by
  obtain ⟨hv, -, -⟩ := Cpu.schedule_iff.mp hi
  have hc : custom0.Matches c.cpu.executeInstruction :=
    opcode_of_cfuEnable (h.bypassing.sound.marks.legal hv) (Cpu.schedule_iff.mp hi).2.1
  have hf : c.cpu.isFlushed (c.wires o) = false := by
    have hr := h.bypassing.sound.not_executeRemoveIt (i := c.wires o) hi
    simp only [Cpu.executeRemoveIt, Bool.or_eq_false_iff] at hr
    exact hr.2
  have hms := Cpu.memoryIsStuck_eq_false hs
  have hboot := h.bypassing.not_booting (.inr (.inl hv))
  have hinst : (c.step o).cpu.memoryInstruction = c.cpu.executeInstruction :=
    if_neg (by simp [hms])
  obtain ⟨h1, h2⟩ := Reads.of_cfu (h.execute hv) hc
  rw [hinst, commandOf, ← (h1.move hf h.bypassing hboot hms).eq,
    ← (h2.move hf h.bypassing hboot hms).eq]
  rfl

theorem writeBackCfu_step (h : c.cpu.Sound) :
    (((c.step o).cpu.writeBackIsValid && cfuEnable (c.step o).cpu.writeBackInstruction) =
      (c.cpu.memoryCfuInFlight && c.cpu.memoryRspValid (c.wires o))) := by
  have hstep := h.inWriteBack_step (i := c.wires o)
  unfold Cpu.inWriteBack at hstep
  split_ifs at hstep with hnow hnext hnext
  · exact hnow.trans hnext.symm
  · exact (Bool.eq_false_iff.mpr hnow).trans (Bool.eq_false_iff.mpr hnext).symm

/-- **The command of an instruction moves with it.** -/
theorem Flow.command_step (h : Flow c) (hstale : ¬ c.cpu.StaleTaken (c.wires o)) :
    c.commandInMemory ++ (c.cpu.issue (c.wires o)).toList.map CfuOp.command =
      (c.step o).commandInWriteBack ++ (c.step o).commandInMemory := by
  have hs := h.bypassing.sound
  have hinFlight : (c.step o).cpu.memoryCfuInFlight = _ := hs.memory_step hstale
  have hwait := fun hc => hs.memoryIsStuck (i := c.wires o) hc
  rw [commandInWriteBack, writeBackCfu_step hs, commandInMemory, commandInMemory, hinFlight,
    hs.issue]
  cases hm : c.cpu.memoryIsStuck (c.wires o) with
  | true =>
    rw [Cpu.executeIsStuck_of_memory hm, if_pos rfl, Bool.not_true, Bool.and_false,
      if_neg Bool.false_ne_true, Option.toList_none, List.map_nil, List.append_nil]
    cases hc : c.cpu.memoryCfuInFlight with
    | false => rfl
    | true =>
      have hrv : c.cpu.memoryRspValid (c.wires o) = false := by
        simpa using (hm.symm.trans (hwait hc)).symm
      obtain ⟨hv, h1, h2⟩ := h.memory_cfu hc
      have hf := (hs.not_memoryRemoveIt (i := c.wires o) hc).1
      have hboot := h.bypassing.not_booting (.inr (.inr (.inl hv)))
      have hinst : (c.step o).cpu.memoryInstruction = c.cpu.memoryInstruction := if_pos hm
      rw [hrv, hinst, commandOf, commandOf, (h1.wait hf hboot hm).eq, (h2.wait hf hboot hm).eq]
      rfl
  | false =>
    have hmove : (if c.cpu.memoryCfuInFlight then
          [commandOf c.memoryRegs c.cpu.memoryInstruction] else []) =
        if c.cpu.memoryCfuInFlight && c.cpu.memoryRspValid (c.wires o) then
          [commandOf (c.step o).data.regFile (c.step o).cpu.writeBackInstruction] else [] := by
      cases hc : c.cpu.memoryCfuInFlight with
      | false => rfl
      | true =>
        have hrv : c.cpu.memoryRspValid (c.wires o) = true := by
          simpa using (hm.symm.trans (hwait hc)).symm
        obtain ⟨hv, h1, h2⟩ := h.memory_cfu hc
        obtain ⟨hf, hws⟩ := hs.not_memoryRemoveIt (i := c.wires o) hc
        have hboot := h.bypassing.not_booting (.inr (.inr (.inl hv)))
        have hinst : (c.step o).cpu.writeBackInstruction = c.cpu.memoryInstruction :=
          if_neg (by simp [hws])
        rw [hrv, hinst, commandOf, commandOf, ← h1.move hf hboot hws, ← h2.move hf hboot hws]
        rfl
    rw [hmove, if_neg Bool.false_ne_true]
    congr 1
    cases hi : c.cpu.schedule && !c.cpu.executeIsStuck (c.wires o) with
    | false => rfl
    | true =>
      obtain ⟨hsch, hst⟩ := Bool.and_eq_true_iff.mp hi
      rw [if_pos rfl, if_pos rfl, h.command_issue hsch (by simpa using hst)]
      rfl

/-! ## CFU instructions in `writeBack` -/

theorem writeBackCfu_eq : (c.cpu.writeBackIsValid && cfuEnable c.cpu.writeBackInstruction) =
    (c.writeBackIsFiring o && cfuEnable c.cpu.writeBackInstruction) := by
  cases hc : cfuEnable c.cpu.writeBackInstruction with
  | false => rw [Bool.and_false, Bool.and_false]
  | true =>
    have hm := memoryEnable_of_cfuEnable hc
    simp [writeBackIsFiring, Cpu.writeBackIsStuck, Cpu.writeBackRemoveIt, Cpu.dBusException,
      Cpu.writeBackFlushIt, Cpu.redoBranch, hm]

theorem Flow.legal (h : Flow c) (hv : c.cpu.writeBackIsValid = true) :
    legalInstruction c.cpu.writeBackInstruction = true := by
  obtain ⟨a, b, -, hin⟩ := h.writeBack hv
  exact hin.legal

/-- A CFU instruction fires with the result that `memory` has given it. -/
theorem Flow.retire_eq (h : Flow c) : (c.lastStage o).toList.filterMap cfuResult =
    (c.cpu.retire (c.wires o)).toList := by
  rw [Cpu.retire_eq, Cpu.inWriteBack, writeBackCfu_eq (o := o)]
  cases hx : c.lastStage o with
  | none =>
    have hfire : c.writeBackIsFiring o = false := by
      by_contra hn
      simp [lastStage, hn] at hx
    simp [hfire]
  | some x =>
    obtain ⟨hfire, rfl⟩ := lastStage_eq hx
    have hl := h.legal (writeBackIsValid_of_firing hfire)
    rw [hfire, Bool.true_and, cfuEnable_eq hl]
    by_cases hc : custom0.Matches c.cpu.writeBackInstruction
    · have hearly : Early c.cpu.writeBackInstruction :=
        ⟨hc.not_any (by decide), hc.not_any (by decide)⟩
      simp [cfuResult, hc, writeBackValue_of_early hearly]
    · simp [cfuResult, hc]

theorem Flow.commandInWriteBack_eq (h : Flow c) (regs : BitVec 5 → Word) (l : List LastStage)
    (hregs : c.data.regFile = registers regs l) :
    commandsOf regs (l ++ (c.lastStage o).toList) =
      commandsOf regs l ++ c.commandInWriteBack := by
  rw [commandInWriteBack, writeBackCfu_eq (o := o)]
  cases hx : c.lastStage o with
  | none =>
    have hfire : c.writeBackIsFiring o = false := by
      by_contra hn
      simp [lastStage, hn] at hx
    simp [hfire]
  | some x =>
    obtain ⟨hfire, rfl⟩ := lastStage_eq hx
    have hl := h.legal (writeBackIsValid_of_firing hfire)
    rw [hfire, Bool.true_and, cfuEnable_eq hl, Option.toList_some, commandsOf_append, ← hregs]
    by_cases hc : custom0.Matches c.cpu.writeBackInstruction <;> simp [hc]

/-! ## Runs -/

section Run

variable {out : ℕ → Outside} {n : ℕ}

theorem commandInWriteBack_reset (h : c.AtReset) : c.commandInWriteBack = [] :=
  if_neg (by simp [h.cpu.writeBackIsValid])

theorem not_stale_of_executes {result : List Command → Option Word} (h : c.AtReset)
    (hE : Executes result (wiresAt out c) c.cpu) (n : ℕ) :
    ¬ (run out c n).cpu.StaleTaken (wiresAt out c n) := by
  rw [run_cpu]
  exact Cpu.not_stale_of_faithful h.cpu hE.faithful n

section

variable (h : c.AtReset) (hstale : ∀ n, ¬ (run out c n).cpu.StaleTaken (wiresAt out c n))

include h hstale

theorem retired_eq (n : ℕ) :
    Cpu.retired (wiresAt out c) c.cpu n = (fired out c n).filterMap cfuResult := by
  induction n with
  | zero => rfl
  | succ n ih =>
    rw [Cpu.retired, fired, log_succ, log_succ, List.filterMap_append, ← Cpu.retired, ← fired, ih,
      (flow_run h hstale n).retire_eq, run_cpu]
    rfl

theorem commandsOf_fired_succ (n : ℕ) :
    commandsOf c.cleared (fired out c (n + 1)) =
      commandsOf c.cleared (fired out c n) ++ (run out c n).commandInWriteBack := by
  cases n with
  | zero =>
    have hnil : (run out c 0).commandInWriteBack = [] := commandInWriteBack_reset h
    rw [fired_one h, hnil]
    rfl
  | succ n =>
    rw [fired_succ]
    exact (flow_run h hstale (n + 1)).commandInWriteBack_eq _ _ (regFile_run h n)

/-- **Run lemma.** The commands of the instructions that have left `execute`. -/
theorem commands_eq (n : ℕ) :
    (Cpu.issued (wiresAt out c) c.cpu n).map CfuOp.command =
      commandsOf c.cleared (fired out c n) ++
        (run out c n).commandInWriteBack ++ (run out c n).commandInMemory := by
  induction n with
  | zero =>
    have hmem : (run out c 0).commandInMemory = [] := if_neg (by
      simp [run, h.cpu.memoryCfuInFlight])
    have hnil : (run out c 0).commandInWriteBack = [] := commandInWriteBack_reset h
    rw [hmem, hnil]
    rfl
  | succ n ih =>
    have hstep := (flow_run h hstale n).command_step (hstale n)
    rw [run_cpu] at hstep
    rw [Cpu.issued, log_succ, List.map_append, ← Cpu.issued, ih, commandsOf_fired_succ h hstale,
      run_succ]
    simp only [List.append_assoc]
    congr 2

end

/-- A CFU instruction fires with the result of its command and those before it. -/
theorem fired_cfu {result : List Command → Option Word} (h : c.AtReset)
    (hE : Executes result (wiresAt out c) c.cpu) {k : ℕ} (hx : (fired out c n)[k]? = some x)
    (hcfu : custom0.Matches x.instruction) :
    result (commandsOf c.cleared ((fired out c n).take (k + 1))) = some x.data := by
  have hstale := not_stale_of_executes h hE
  obtain ⟨j, hj, hjx, hlen⟩ := exists_of_log hx
  have hlast : fired out c (j + 1) = fired out c j ++ [x] := by
    rw [fired_succ, hjx]
    rfl
  have htake : (fired out c n).take (k + 1) = fired out c (j + 1) := by
    have hlen : (fired out c (j + 1)).length = k + 1 := by
      rw [hlast, List.length_append, ← hlen]
      rfl
    rw [← hlen]
    exact take_log _ hj
  have hsucc : Cpu.retired (wiresAt out c) c.cpu (j + 1) =
      Cpu.retired (wiresAt out c) c.cpu j ++ [(x.instruction, x.data)] := by
    rw [retired_eq h hstale, retired_eq h hstale, hlast, List.filterMap_append]
    simp [cfuResult, hcfu]
  obtain ⟨p, -, -, hres⟩ := hE.results (j + 1) (Cpu.retired (wiresAt out c) c.cpu j).length
    (x.instruction, x.data) (by rw [hsucc]; simp)
  have hcount : (commandsOf c.cleared (fired out c (j + 1))).length =
      (Cpu.retired (wiresAt out c) c.cpu j).length + 1 := by
    rw [length_commandsOf, ← retired_eq h hstale, hsucc, List.length_append]
    rfl
  rw [htake, ← hres, List.map_take, commands_eq h hstale, List.append_assoc,
    List.take_append_of_le_length hcount.ge, List.take_of_length_le hcount.le]

end Run

end Core

/-- The instructions have the results of the registers, and those of the CFU the results of the
commands of the registers, as the instructions before them have left these. -/
structure InOrder (result : List Command → Option Word) (out : ℕ → Outside) (c : Core) : Prop where
  architectural : ∀ n k x, (Core.fired out c n)[k]? = some x →
    Architectural (registers c.cleared ((Core.fired out c n).take k)) x
  cfu : ∀ n k x, (Core.fired out c n)[k]? = some x → custom0.Matches x.instruction →
    result (commandsOf c.cleared ((Core.fired out c n).take (k + 1))) = some x.data
  regFile : ∀ n, (Core.run out c (n + 1)).data.regFile =
    registers c.cleared (Core.fired out c (n + 1))

theorem Executes.inOrder {result : List Command → Option Word} {out : ℕ → Outside} {c : Core}
    (hE : Executes result (Core.wiresAt out c) c.cpu) (h : c.AtReset) : InOrder result out c where
  architectural _ _ _ hx :=
    Core.architectural_of_fired h (Core.not_stale_of_executes h hE) hx
  cfu _ _ _ hx hcfu := Core.fired_cfu h hE hx hcfu
  regFile n := Core.regFile_run h n

/-! ## The board -/

/-- What the caches, the CSRs and the RAM do in a cycle. The wires of the CFU in `outside` are not
used. -/
structure BoardEnv where
  outside : Outside
  slave : SlaveMove

/-- The CPU with its data path, and a CFU. -/
structure Board (σ : Type) where
  system : System σ
  data : Datapath

namespace Board

variable {σ : Type}

def core (x : Board σ) : Core := ⟨x.system.cpu, x.data⟩

/-- The wires of the core, those of the CFU among them. -/
def outside (G : Gateware σ) (e : BoardEnv) (x : Board σ) : Outside :=
  { e.outside with inputs := x.system.inputs G ⟨e.outside.inputs, e.slave⟩ }

/-- What the CFU's system sees of it. -/
def systemEnv (G : Gateware σ) (e : BoardEnv) (x : Board σ) : Env :=
  ⟨x.core.wires (x.outside G e), e.slave⟩

/-- **One clock period.** -/
def tick (G : Gateware σ) (mem : Memory) (e : BoardEnv) (x : Board σ) : Board σ where
  system := x.system.tick G mem (x.systemEnv G e)
  data := x.core.nextData (x.outside G e)

def run (G : Gateware σ) (mem : Memory) (env : ℕ → BoardEnv) (x : Board σ) : ℕ → Board σ :=
  Lib.run (tick G mem) env x

/-- The CFU `s` and a core. -/
def start (s : σ) (c : Core) : Board σ := ⟨System.start s c.cpu, c.data⟩

variable (G : Gateware σ) (mem : Memory) (env : ℕ → BoardEnv) (x : Board σ)

/-- The wires of the core in the cycles of a run. -/
def outsides (n : ℕ) : Outside := (run G mem env x n).outside G (env n)

def systemEnvs (n : ℕ) : Env := (run G mem env x n).systemEnv G (env n)

variable {G mem env x}

theorem run_core (n : ℕ) :
    (run G mem env x n).core = Core.run (outsides G mem env x) x.core n := by
  induction n with
  | zero => rfl
  | succ n ih =>
    rw [Core.run_succ, ← ih]
    rfl

theorem run_system (n : ℕ) :
    (run G mem env x n).system = System.run G mem (systemEnvs G mem env x) x.system n := by
  induction n with
  | zero => rfl
  | succ n ih =>
    rw [System.run_succ, ← ih]
    rfl

/-- The core and the system see the same wires. -/
theorem wiresAt_outsides :
    Core.wiresAt (outsides G mem env x) x.core =
      System.wires G mem (systemEnvs G mem env x) x.system := by
  funext n
  rw [Core.wiresAt, System.wires, ← run_core, ← run_system]
  rfl

/-- A core with a prompt CFU. -/
theorem inOrder {result : List Command → Option Word} {s : σ} {c : Core} (h : c.AtReset)
    (hE : Executes result
      (System.wires G mem (systemEnvs G mem env (start s c)) (System.start s c.cpu)) c.cpu) :
    InOrder result (outsides G mem env (start s c)) c := by
  have hwires : Core.wiresAt (outsides G mem env (start s c)) c =
      System.wires G mem (systemEnvs G mem env (start s c)) (System.start s c.cpu) :=
    wiresAt_outsides (x := start s c)
  rw [← hwires] at hE
  exact hE.inOrder h

end Board

/-! ## The two CFUs -/

/-- `addi x1, x0, 8`, `addi x2, x0, 4`, `cfu[0,0] x3, x1, x2`, and then `add x4, x3, x1`. -/
def cfuAdd (n : ℕ) : BoardEnv where
  outside := { Core.divAdd n with
    fetchData := [0x00000013, 0x00800093, 0x00400113, 0x0020818b][n]?.getD 0x00118233 }
  slave := .ack 0

def twoWords : Memory := fun a => if a = 2 then 0x01020304 else 0x05060708

/-- What holds of all words that are fetched holds of those in `decode` and `execute`. -/
theorem Board.instructions_run {σ : Type} {G : Gateware σ} {mem : Memory} {env : ℕ → BoardEnv}
    {x : Board σ} {P : Word → Prop} (hfetch : ∀ n, P (env n).outside.fetchData)
    (hdecode : P x.data.decodeInstruction) (hexecute : P x.system.cpu.executeInstruction) (n : ℕ) :
    P (run G mem env x n).data.decodeInstruction ∧
      P (run G mem env x n).system.cpu.executeInstruction := by
  induction n with
  | zero => exact ⟨hdecode, hexecute⟩
  | succ n ih =>
    obtain ⟨hd, hx⟩ := ih
    constructor
    · show P (if _ then _ else _)
      split_ifs
      · exact hfetch n
      · exact hd
    · show P (if _ then _ else _)
      split_ifs
      · exact hx
      · exact hd

theorem cfuAdd_known (n : ℕ) :
    ((functionId (cfuAdd n).outside.fetchData).extractLsb' 3 7).toNat ≤ 8 := by
  have hwords : ∀ n < 4, ((functionId (cfuAdd n).outside.fetchData).extractLsb' 3 7).toNat ≤ 8 := by
    decide
  by_cases hn : n < 4
  · exact hwords n hn
  · have hlast : (cfuAdd n).outside.fetchData = 0x00118233 := by
      show [0x00000013, 0x00800093, 0x00400113, 0x0020818b][n]?.getD 0x00118233 = _
      rw [List.getElem?_eq_none (Nat.le_of_not_lt hn)]
      rfl
    rw [hlast]
    decide

end CfuPlayground.VexRiscv
