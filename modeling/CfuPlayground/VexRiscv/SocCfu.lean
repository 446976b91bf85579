import CfuPlayground.VexRiscv.Late

/-!
# The CPU with `soc/cfu/Cfu.v`

This CFU is combinational: `rsp_valid = cmd_valid` and `cmd_ready = rsp_ready`. The CPU lowers
`rsp_ready` while the response to a command waits in it, hence `cmd_ready` is low exactly while an
instruction waits with its command taken. So every instruction that leaves `execute` a cycle
after its command is late unless one for the CFU comes behind, and the CFU is ready again two
cycles later (`socCfu_ready`).

* **`socCfu_faithful_iff`**: the bus works exactly if no instruction is late.
-/

namespace CfuPlayground.VexRiscv

open Lib

/-! ## The CFU -/

/-- `cfu0`, the sum of the bytes of both inputs. -/
def byteSum (a b : Word) : Word :=
  (a.extractLsb' 0 8).setWidth 32 + (b.extractLsb' 0 8).setWidth 32 +
    (a.extractLsb' 8 8).setWidth 32 + (b.extractLsb' 8 8).setWidth 32 +
    (a.extractLsb' 16 8).setWidth 32 + (b.extractLsb' 16 8).setWidth 32 +
    (a.extractLsb' 24 8).setWidth 32 + (b.extractLsb' 24 8).setWidth 32

/-- `cfu1`. -/
def byteSwap (a : Word) : Word :=
  a.extractLsb' 0 8 ++ a.extractLsb' 8 8 ++ a.extractLsb' 16 8 ++ a.extractLsb' 24 8

/-- `cfu2`. -/
def bitReverse (a : Word) : Word := a.reverse

/-- `rsp_payload_outputs_0`; the port of `function_id` has three bits. -/
def socCfuOutput (c : Command) : Word :=
  if c.functionId[1] then bitReverse c.inputs0
  else if c.functionId[0] then byteSwap c.inputs0
  else byteSum c.inputs0 c.inputs1

/-- The wires of the CPU with this CFU; the wires of the CFU in `i` are not used. -/
def socCfuInputs (i : Inputs) (s : Cpu) : Inputs :=
  { i with
    cmdReady := s.rspReady
    rspValid := s.cmdValid
    rspPayload := socCfuOutput s.cmdPayload }

/-- The CPU with this CFU. -/
def socCfuRun (ins : ℕ → Inputs) (s : Cpu) : ℕ → Cpu :=
  Lib.run (fun i s => s.step (socCfuInputs i s)) ins s

def socCfuWires (ins : ℕ → Inputs) (s : Cpu) (n : ℕ) : Inputs :=
  socCfuInputs (ins n) (socCfuRun ins s n)

theorem socCfuRun_eq (ins : ℕ → Inputs) (s : Cpu) (n : ℕ) :
    socCfuRun ins s n = Cpu.run (socCfuWires ins s) s n := by
  induction n with
  | zero => rfl
  | succ n ih =>
    rw [Cpu.run_succ, ← ih]
    rfl

/-! ## The CFU gets ready -/

theorem socCfu_answersAtOnce {i : Inputs} {s : Cpu} : s.AnswersAtOnce (socCfuInputs i s) where
  full hr := by simp [Cpu.cmdFire, socCfuInputs, Cpu.rspReady, hr]
  answer hr := by simp [Cpu.cmdFire, socCfuInputs, Cpu.rspReady, hr]

variable {ins : ℕ → Inputs} {s : Cpu} {n : ℕ}

theorem socCfu_alone (h : s.AtReset) (hlate : ∀ k < n, ¬ Cpu.Late (socCfuWires ins s) s k) :
    (socCfuRun ins s n).Alone := by
  induction n with
  | zero => exact Cpu.alone_reset h
  | succ n ih =>
    have hbefore : ∀ k < n, ¬ Cpu.Late (socCfuWires ins s) s k :=
      fun k hk => hlate k (Nat.lt_succ_of_lt hk)
    have hn := Cpu.timely_run h hbefore
    rw [← socCfuRun_eq] at hn
    exact hn.sound.alone_step hn.not_staleTaken (ih hbefore) socCfu_answersAtOnce

/-- The instruction that was late takes its response from the CPU in the next cycle, so the CFU is
ready one cycle later. -/
theorem socCfu_ready (h : s.AtReset) (hl : Cpu.Late (socCfuWires ins s) s n)
    (hfirst : ∀ k < n, ¬ Cpu.Late (socCfuWires ins s) s k) :
    (socCfuWires ins s (n + 2)).cmdReady = true := by
  have hn := Cpu.timely_run h hfirst
  have hleft := hl.leftover h hfirst (Nat.lt_succ_self n) fun k hk hkn => by omega
  obtain ⟨hf, hst, -, -⟩ := hl
  rw [← socCfuRun_eq] at hn hleft hf hst
  have halone : (socCfuRun ins s (n + 1)).Alone :=
    hn.sound.alone_step hn.not_staleTaken (socCfu_alone h hfirst) socCfu_answersAtOnce
  have hmem : (socCfuRun ins s (n + 1)).memoryCfuInFlight = true := by
    have hstep : (socCfuRun ins s (n + 1)).memoryCfuInFlight = _ :=
      hn.sound.memory_step (i := socCfuInputs (ins n) (socCfuRun ins s n)) hn.not_staleTaken
    have hst' : (socCfuRun ins s n).executeIsStuck
      (socCfuInputs (ins n) (socCfuRun ins s n)) = false := hst
    rw [hstep, Cpu.memoryIsStuck_eq_false hst', hst', hn.sound.fired hf]
    rfl
  have hrsp : (socCfuRun ins s (n + 1)).memoryRspReady
      (socCfuInputs (ins (n + 1)) (socCfuRun ins s (n + 1))) = true :=
    (hleft.sound.memory_leaves halone hmem).2
  have hnext : (socCfuRun ins s (n + 2)).rValid = (socCfuRun ins s (n + 1)).nextRValid
    (socCfuInputs (ins (n + 1)) (socCfuRun ins s (n + 1))) := rfl
  have hready : (socCfuWires ins s (n + 2)).cmdReady = !(socCfuRun ins s (n + 2)).rValid := rfl
  rw [hready, hnext, Cpu.nextRValid, hrsp]
  rfl

/-- **The bus works exactly if no instruction is late.** -/
theorem socCfu_faithful_iff (h : s.AtReset) :
    (∀ n, Cpu.Faithful (socCfuWires ins s) s n) ↔ ∀ n, ¬ Cpu.Late (socCfuWires ins s) s n :=
  Cpu.faithful_iff_of_ready h fun n hfirst hl =>
    ⟨n + 2, Nat.lt_add_of_pos_right Nat.two_pos, socCfu_ready h hl hfirst⟩

/-- A CFU instruction behind a division. -/
theorem socCfu_faithful_iff_divCfuAdd :
    ¬ ∀ n, Cpu.Faithful (socCfuWires Cpu.divCfuAdd Cpu.zero) Cpu.zero n := by
  rw [socCfu_faithful_iff Cpu.atReset_zero]
  exact fun hlate => hlate 6 (by decide)

end CfuPlayground.VexRiscv
