import CfuPlayground.VexRiscv.Issue

/-!
# The two channels of the CFU bus

The commands that the CFU takes and the responses that the CPU takes are two logs. `Faithful`
compares them with the instructions that leave `execute` and that retire: every command is that of
a CFU instruction, none is lost, repeated or issued for an instruction that is flushed, and each
instruction retires with its own response.

* `Sound.faithful_succ`: a cycle without a stale command keeps this;
* **`cfuBus_faithful_iff`**: it holds throughout a run exactly if no stale command is ever taken.
-/

namespace CfuPlayground.VexRiscv.Cpu

open Lib

/-! ## What is on its way -/

section Stages

variable (s : Cpu)

/-- The command taken for the instruction still in `execute`. -/
def inExecute : List Command := if s.scheduleWish && s.fired then [s.cmdPayload] else []

def inMemory : List Word := if s.memoryCfuInFlight then [s.memoryInstruction] else []

def inWriteBack : List (Word × Word) :=
  if s.writeBackIsValid && cfuEnable s.writeBackInstruction then
    [(s.writeBackInstruction, s.writeBackData)]
  else []

/-- The response taken for an instruction that has not left `memory`. -/
def buffered : List Word := if s.rValid then [s.rData] else []

end Stages

section Logs

variable (ins : ℕ → Inputs) (s : Cpu) (n : ℕ)

/-- The commands taken in the first `n` cycles; and so on. -/
def commands : List Command := log (fun k => (run ins s k).command (ins k)) n

def replies : List Word := log (fun k => (run ins s k).reply (ins k)) n

def issued : List CfuOp := log (fun k => (run ins s k).issue (ins k)) n

def retired : List (Word × Word) := log (fun k => (run ins s k).retire (ins k)) n

/-- The channels and the instructions, `n` cycles after `s`. -/
structure Faithful : Prop where
  /-- The commands are those of the instructions that have left `execute`, in order. -/
  commands : commands ins s n = (issued ins s n).map CfuOp.command ++ (run ins s n).inExecute
  /-- What has left `execute` retires, in order. -/
  instructions : (issued ins s n).map CfuOp.instruction =
    (retired ins s n).map Prod.fst ++ (run ins s n).inWriteBack.map Prod.fst ++
      (run ins s n).inMemory
  /-- The responses are the results, in order. -/
  replies : replies ins s n =
    (retired ins s n).map Prod.snd ++ (run ins s n).inWriteBack.map Prod.snd ++
      (run ins s n).buffered

end Logs

variable {i : Inputs} {s : Cpu}

/-! ## One cycle -/

theorem Sound.issue (h : Sound s) : s.issue i =
    if s.schedule && !s.executeIsStuck i then
      some ⟨s.executeInstruction, s.executeRs1, s.executeRs2⟩
    else none := by
  rw [Cpu.issue, h.wish_moving]

theorem retire_eq : (s.retire i).toList = s.inWriteBack := by
  unfold retire inWriteBack
  cases hc : cfuEnable s.writeBackInstruction with
  | false => simp
  | true =>
    have hm := memoryEnable_of_cfuEnable hc
    cases hv : s.writeBackIsValid <;>
      simp [writeBackIsStuck, writeBackRemoveIt, dBusException, writeBackFlushIt, redoBranch, hm,
        hv]

theorem inExecute_of_stuck (hs : s.executeIsStuck i = true)
    (hwish : (s.step i).scheduleWish = s.scheduleWish) : (s.step i).inExecute =
      if s.scheduleWish && s.nextFired i then [s.cmdPayload] else [] := by
  have hpayload : (s.step i).cmdPayload = s.cmdPayload := by simp [step, cmdPayload, hs]
  rw [inExecute, hwish, hpayload]
  rfl

/-- **The command channel.** -/
theorem Sound.command_step (h : Sound s) (hstale : ¬ s.StaleTaken i) :
    s.inExecute ++ (s.command i).toList =
      (s.issue i).toList.map CfuOp.command ++ (s.step i).inExecute := by
  have hfired := h.fired
  have hfire := h.schedule_of_fire (i := i) hstale
  rw [h.issue]
  cases hs : s.executeIsStuck i with
  | false =>
    have hgone : (s.step i).inExecute = [] := by simp [inExecute, nextFired_of_moving hs]
    rw [hgone]
    cases hsch : s.schedule with
    | false =>
      have hnf : s.fired = false := by
        by_contra hf
        simp [hfired (by simpa using hf)] at hsch
      have hnc : s.cmdFire i = false := by
        by_contra hf
        simp [hfire (by simpa using hf)] at hsch
      simp [inExecute, command, hnf, hnc]
    | true =>
      have hwish : s.scheduleWish = true := (Bool.and_eq_true_iff.mp hsch).1
      cases hf : s.fired with
      | true => simp [inExecute, command, cmdFire, cmdValid, hf, hwish, CfuOp.command, cmdPayload]
      | false =>
        have hr : i.cmdReady = true := by
          by_contra hr
          rw [executeIsStuck_of_waiting (by simp [cmdValid, hsch, hf]) (by simpa using hr)] at hs
          cases hs
        simp [inExecute, command, cmdFire, cmdValid, hf, hsch, hr, CfuOp.command, cmdPayload]
  | true =>
    cases hsch : s.schedule with
    | false =>
      have hnf : s.fired = false := by
        by_contra hf
        simp [hfired (by simpa using hf)] at hsch
      have hnc : s.cmdFire i = false := by
        by_contra hf
        simp [hfire (by simpa using hf)] at hsch
      have hnext : (s.step i).fired = false := by simp [Cpu.step, nextFired, hnf, hnc]
      simp [inExecute, command, hnf, hnc, hnext]
    | true =>
      have hwish : s.scheduleWish = true := (Bool.and_eq_true_iff.mp hsch).1
      have hwish' : (s.step i).scheduleWish = true :=
        (Bool.and_eq_true_iff.mp (h.schedule_step hsch hs)).1
      rw [inExecute_of_stuck hs (hwish'.trans hwish.symm)]
      cases hf : s.fired with
      | true =>
        simp [inExecute, command, cmdFire, cmdValid, nextFired, hf, hwish, hs]
      | false =>
        cases hr : i.cmdReady <;>
          simp [inExecute, command, cmdFire, cmdValid, nextFired, hf, hwish, hs, hr, hsch]

theorem Sound.inWriteBack_step (h : Sound s) : (s.step i).inWriteBack =
    if s.memoryCfuInFlight && s.memoryRspValid i then
      [(s.memoryInstruction, s.memoryRspPayload i)]
    else [] := by
  cases hc : s.memoryCfuInFlight with
  | true =>
    obtain ⟨hr, hw⟩ := h.not_memoryRemoveIt (i := i) hc
    have hmem := h.memory
    rw [hc] at hmem
    obtain ⟨hv, he⟩ := Bool.and_eq_true_iff.mp hmem.symm
    have hstuck := h.memoryIsStuck (i := i) hc
    cases hrv : s.memoryRspValid i <;>
      simp [inWriteBack, Cpu.step, nextIsValid, memoryIsMoving, hr, hw, hv, he, hstuck, hc, hrv]
  | false =>
    rw [Bool.false_and, if_neg (by simp), inWriteBack, if_neg]
    intro hn
    obtain ⟨hv, he⟩ := Bool.and_eq_true_iff.mp hn
    rcases writeBackIsValid_step.mp hv with ⟨hmove, hx⟩ | ⟨-, hs, -, -⟩
    · have hms := (memoryIsMoving_iff.mp hmove).1
      have hinst : (s.step i).writeBackInstruction = s.memoryInstruction := by
        simp [Cpu.step, writeBackIsStuck_eq_false hms]
      have hmem := h.memory
      rw [hinst] at he
      simp [hc, hx, he] at hmem
    · have hinst : (s.step i).writeBackInstruction = s.writeBackInstruction := by simp [Cpu.step, hs]
      rw [hinst] at he
      simp [writeBackIsStuck, memoryEnable_of_cfuEnable he] at hs

theorem Sound.inMemory_step (h : Sound s) (hstale : ¬ s.StaleTaken i) :
    s.inMemory ++ (s.issue i).toList.map CfuOp.instruction =
      (s.step i).inWriteBack.map Prod.fst ++ (s.step i).inMemory := by
  rw [h.inWriteBack_step, inMemory, inMemory, h.memory_step hstale, h.issue]
  cases hm : s.memoryIsStuck i with
  | true =>
    have hstuck := executeIsStuck_of_memory hm
    cases hc : s.memoryCfuInFlight with
    | true =>
      have hwait := h.memoryIsStuck (i := i) hc
      rw [hm] at hwait
      have hrv : s.memoryRspValid i = false := by simpa using hwait.symm
      simp [hstuck, hrv, Cpu.step, hm]
    | false => simp [hstuck]
  | false =>
    have hinst : (s.step i).memoryInstruction = s.executeInstruction := by simp [Cpu.step, hm]
    rw [hinst]
    cases hc : s.memoryCfuInFlight with
    | true =>
      have hwait := h.memoryIsStuck (i := i) hc
      rw [hm] at hwait
      have hrv : s.memoryRspValid i = true := by simpa using hwait.symm
      cases (s.schedule && !s.executeIsStuck i) <;> simp [hrv]
    | false => cases (s.schedule && !s.executeIsStuck i) <;> simp

/-- **The response channel.** -/
theorem Sound.reply_step (h : Sound s) :
    s.buffered ++ (s.reply i).toList =
      (s.step i).inWriteBack.map Prod.snd ++ (s.step i).buffered := by
  rw [h.inWriteBack_step]
  have hnext : (s.step i).buffered =
      if s.nextRValid i then [if s.rspReady then i.rspPayload else s.rData] else [] := rfl
  rw [hnext]
  cases hc : s.memoryCfuInFlight with
  | true =>
    have hw := (h.not_memoryRemoveIt (i := i) hc).2
    cases hr : s.rValid <;> cases hv : i.rspValid <;>
      simp [buffered, reply, nextRValid, memoryRspReady, memoryRspValid, memoryRspPayload,
        rspReady, hc, hw, hr, hv]
  | false =>
    cases hr : s.rValid <;> cases hv : i.rspValid <;>
      simp [buffered, reply, nextRValid, memoryRspReady, rspReady, hc, hr, hv]

/-! ## From `execute` to `writeBack` -/

theorem Sound.memory_of_issue (h : Sound s) (hstale : ¬ s.StaleTaken i) {o : CfuOp}
    (ho : s.issue i = some o) : (s.step i).memoryCfuInFlight = true ∧
      (s.step i).memoryInstruction = o.instruction := by
  rw [h.issue] at ho
  split_ifs at ho with hs
  cases ho
  have hst : s.executeIsStuck i = false := by simpa using (Bool.and_eq_true_iff.mp hs).2
  have hms := memoryIsStuck_eq_false hst
  constructor
  · rw [h.memory_step hstale, hms]
    exact hs
  · simp [Cpu.step, hms]

theorem Sound.retire_of_memory (h : Sound s) {j : Inputs} (hm : s.memoryCfuInFlight = true)
    (hv : s.memoryRspValid i = true) :
    (s.step i).retire j = some (s.memoryInstruction, s.memoryRspPayload i) := by
  have hret := retire_eq (s := s.step i) (i := j)
  rw [h.inWriteBack_step, hm, hv, Bool.and_self, if_pos rfl] at hret
  cases hr : (s.step i).retire j with
  | none => simp [hr] at hret
  | some w =>
    rw [hr] at hret
    rw [List.singleton_injective hret]

/-! ## Runs -/

section Run

variable {ins : ℕ → Inputs} {n : ℕ}

theorem run_succ (n : ℕ) : run ins s (n + 1) = (run ins s n).step (ins n) := rfl

/-- **Step lemma.** -/
theorem Sound.faithful_succ (h : Sound (run ins s n)) (hstale : ¬ (run ins s n).StaleTaken (ins n))
    (hf : Faithful ins s n) : Faithful ins s (n + 1) where
  commands := by
    have hc := hf.commands
    rw [commands] at hc
    rw [commands, issued, log_succ, log_succ, hc, run_succ, List.map_append, List.append_assoc,
      List.append_assoc, h.command_step hstale, issued]
  instructions := by
    have hi := hf.instructions
    rw [issued, retired] at hi
    rw [issued, retired, log_succ, log_succ, retire_eq, run_succ, List.map_append, hi,
      List.append_assoc, h.inMemory_step hstale, List.map_append, ← List.append_assoc]
  replies := by
    have hr := hf.replies
    rw [replies, retired] at hr
    rw [replies, retired, log_succ, log_succ, retire_eq, run_succ, hr, List.append_assoc,
      h.reply_step, List.map_append, ← List.append_assoc]

theorem faithful_zero (h : s.AtReset) : Faithful ins s 0 where
  commands := by simp [commands, issued, log, inExecute, run, h.fired]
  instructions := by
    simp [issued, retired, log, inWriteBack, inMemory, run, h.memoryCfuInFlight,
      h.writeBackIsValid]
  replies := by simp [replies, retired, log, inWriteBack, buffered, run, h.rValid,
    h.writeBackIsValid]

/-- **Run lemma.** -/
theorem sound_run (h : s.AtReset)
    (hstale : ∀ k < n, ¬ (run ins s k).StaleTaken (ins k)) :
    Sound (run ins s n) ∧ Faithful ins s n := by
  induction n with
  | zero => exact ⟨sound_reset h, faithful_zero h⟩
  | succ n ih =>
    obtain ⟨hs, hf⟩ := ih fun k hk => hstale k (Nat.lt_succ_of_lt hk)
    have hn := hstale n (Nat.lt_succ_self n)
    exact ⟨hs.step hn, hs.faithful_succ hn hf⟩

theorem Sound.not_faithful_succ (h : Sound (run ins s n)) (hf : Faithful ins s n)
    (hstale : (run ins s n).StaleTaken (ins n)) : ¬ Faithful ins s (n + 1) := by
  intro hf'
  obtain ⟨hh, hw, hr⟩ := hstale
  have hfired : (run ins s n).fired = false := by
    by_contra hx
    have hsch := h.fired (by simpa using hx)
    simp [schedule, hw] at hsch
  have hcmd : (run ins s n).command (ins n) = some (run ins s n).cmdPayload := by
    simp [command, cmdFire, cmdValid, hh, hfired, hr]
  have hissue : (run ins s n).issue (ins n) = none := by simp [Cpu.issue, hw]
  have hexec : (run ins s (n + 1)).inExecute = [] := by
    rw [run_succ]
    cases hs : (run ins s n).executeIsStuck (ins n) with
    | false =>
      have hgone := nextFired_of_moving hs
      simp [inExecute, hgone]
    | true =>
      have hwish : ((run ins s n).step (ins n)).scheduleWish = false := by
        by_contra hx
        have hinst : ((run ins s n).step (ins n)).executeInstruction =
            (run ins s n).executeInstruction := by simp [Cpu.step, hs]
        simp only [scheduleWish, hinst, Bool.not_eq_false, Bool.and_eq_true] at hx
        rcases executeIsValid_step.mp hx.1 with ⟨hmove, -⟩ | ⟨-, -, -, hv⟩
        · simp [decodeIsMoving, decodeIsStuck_of_execute hs] at hmove
        · simp [scheduleWish, hv, hx.2] at hw
      simp [inExecute, hwish]
  have hbefore := hf.commands
  have hafter := hf'.commands
  rw [hexec] at hafter
  simp only [commands, issued, log_succ, hcmd, hissue] at hbefore hafter
  rw [hbefore, inExecute, hfired] at hafter
  simp at hafter

theorem faithful_of_not_stale (h : s.AtReset) (hstale : ∀ n, ¬ (run ins s n).StaleTaken (ins n))
    (n : ℕ) : Faithful ins s n :=
  (sound_run h fun k _ => hstale k).2

theorem not_stale_of_faithful (h : s.AtReset) (hf : ∀ n, Faithful ins s n) (n : ℕ) :
    ¬ (run ins s n).StaleTaken (ins n) := by
  induction n using Nat.strong_induction_on with
  | _ n ih =>
    intro hstale
    exact (sound_run h ih).1.not_faithful_succ (hf n) hstale (hf (n + 1))

/-- **Commands and responses of the CFU bus.** In a run from reset the commands that the CFU
takes are those of the CFU instructions, and each of these retires with its own response, exactly
if the CFU takes no command while `hold` is stale. -/
theorem cfuBus_faithful_iff (h : s.AtReset) : (∀ n, Faithful ins s n) ↔
    ∀ n, ¬ (run ins s n).StaleTaken (ins n) :=
  ⟨not_stale_of_faithful h, faithful_of_not_stale h⟩

/-- `add_cfu` instructions all the way, for a CFU that is always ready and always answers. -/
def readyCfu (_ : ℕ) : Inputs :=
  { Inputs.idle with instruction := 0x0031008b, cmdReady := true, rspValid := true }

/-- A CFU that is always ready clears `hold` in every cycle; four instructions have retired after
nine cycles. -/
theorem cfuBus_faithful_iff_ready :
    (∀ n, Faithful readyCfu Cpu.zero n) ∧ (retired readyCfu Cpu.zero 9).length = 4 := by
  refine ⟨(cfuBus_faithful_iff atReset_zero).mpr fun n => ?_, by decide +kernel⟩
  rintro ⟨hh, -⟩
  cases n with
  | zero => cases hh
  | succ n => cases hh

end Run

end CfuPlayground.VexRiscv.Cpu
