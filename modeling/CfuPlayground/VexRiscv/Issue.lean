import CfuPlayground.VexRiscv.Flush
import CfuPlayground.Lib.Run

/-!
# CFU instructions in the pipeline

A CFU instruction leaves `execute` with its command taken (`issue`), waits in `memory` for the
response and fires in `writeBack` with it (`retire`).

* `Sound` is the invariant: a command on its way belongs to a CFU instruction with no side effect
  ahead of it, so no flush, division or data access comes between.
* `StaleTaken`: the CFU takes a command while `hold` is left over from an instruction that has
  gone. `hold` is set again while the instruction waits with its command taken, and only
  `cmd_ready` clears it.
* `Sound.step`: every cycle without a stale command keeps the invariant;
* `Sound.alone_step`: with a CFU that answers at once, at most one command is on its way.
-/

namespace CfuPlayground.VexRiscv

open Lib

/-- An instruction for the CFU with its operands. -/
structure CfuOp where
  instruction : Word
  rs1 : Word
  rs2 : Word
deriving DecidableEq

def CfuOp.command (o : CfuOp) : Command := ⟨functionId o.instruction, o.rs1, o.rs2⟩

namespace Cpu

def run (ins : ℕ → Inputs) (s : Cpu) : ℕ → Cpu := Lib.run step ins s

/-! ## What happens in a cycle -/

section Events

variable (i : Inputs) (s : Cpu)

/-- The command that the CFU takes. -/
def command : Option Command := if s.cmdFire i then some s.cmdPayload else none

/-- The response that the CPU takes. -/
def reply : Option Word := if i.rspValid && s.rspReady then some i.rspPayload else none

/-- The CFU instruction that leaves `execute`. -/
def issue : Option CfuOp :=
  if s.scheduleWish && s.executeIsMoving i then
    some ⟨s.executeInstruction, s.executeRs1, s.executeRs2⟩
  else none

/-- The CFU instruction that fires in `writeBack`, with its result. -/
def retire : Option (Word × Word) :=
  if s.writeBackIsValid && cfuEnable s.writeBackInstruction && !s.writeBackIsStuck i &&
      !s.writeBackRemoveIt i then
    some (s.writeBackInstruction, s.writeBackData)
  else none

/-- `hold` without a CFU instruction in `execute`, and a CFU that takes the command. -/
def StaleTaken : Prop := s.hold = true ∧ s.scheduleWish = false ∧ i.cmdReady = true

end Events

/-! ## The invariant -/

structure Sound (s : Cpu) : Prop where
  marks : Marks s
  fired : s.fired = true → s.schedule = true
  hold : s.hold = true → s.scheduleWish = true → s.schedule = true
  memory : s.memoryCfuInFlight = (s.memoryIsValid && cfuEnable s.memoryInstruction)
  /-- The instruction that waits in `memory`. -/
  word : s.memoryCfuInFlight = true → CfuWord s.memoryInstruction
  ahead : s.memoryCfuInFlight = true →
    (s.writeBackIsValid && hasSideEffect s.writeBackInstruction) = false

theorem sound_reset {s : Cpu} (h : s.AtReset) : Sound s where
  marks := marks_reset h
  fired hf := by simp [h.fired] at hf
  hold hh := by simp [h.hold] at hh
  memory := by simp [h.memoryCfuInFlight, h.memoryIsValid]
  word hm := by simp [h.memoryCfuInFlight] at hm
  ahead hm := by simp [h.memoryCfuInFlight] at hm

variable {i : Inputs} {s : Cpu}

theorem schedule_iff : s.schedule = true ↔ s.executeIsValid = true ∧
    cfuEnable s.executeInstruction = true ∧ s.hazard = false := by
  simp [schedule, scheduleWish, and_assoc]

theorem hazard_eq_false_iff : s.hazard = false ↔
    (s.writeBackIsValid && hasSideEffect s.writeBackInstruction) = false ∧
      (s.memoryIsValid && hasSideEffect s.memoryInstruction) = false := by
  rw [hazard, Bool.or_eq_false_iff]

theorem Sound.cfuWord (h : Sound s) (hs : s.schedule = true) : CfuWord s.executeInstruction := by
  obtain ⟨hv, hc, -⟩ := schedule_iff.mp hs
  exact VexRiscv.cfuWord (h.marks.legal hv) hc

/-- **A scheduled instruction is not removed.** -/
theorem Sound.not_executeRemoveIt (h : Sound s) (hs : s.schedule = true) :
    s.executeRemoveIt i = false := by
  obtain ⟨hv, -, hz⟩ := schedule_iff.mp hs
  have hflush := h.marks.not_isFlushed (i := i) (.inl hv) (hazard_eq_false_iff.mp hz).1
  have hword := h.cfuWord hs
  simp [executeRemoveIt, executeException, selfException, branchJump, hflush, hword.isCsr,
    hword.envCtrl, hword.isBranch]

/-- The instruction that waits in `memory` is not removed, and `writeBack` is not stuck. -/
theorem Sound.not_memoryRemoveIt (h : Sound s) (hm : s.memoryCfuInFlight = true) :
    s.memoryRemoveIt i = false ∧ s.writeBackIsStuck i = false := by
  have hv : s.memoryIsValid = true := by
    rw [h.memory, Bool.and_eq_true] at hm
    exact hm.1
  exact ⟨h.marks.not_isFlushed (.inr hv) (h.ahead hm), not_writeBackIsStuck (h.ahead hm)⟩

theorem Sound.memoryIsStuck (h : Sound s) (hm : s.memoryCfuInFlight = true) :
    s.memoryIsStuck i = !s.memoryRspValid i := by
  simp [Cpu.memoryIsStuck, memoryHaltItself, (h.word hm).isDiv, (h.not_memoryRemoveIt hm).2, hm]

theorem schedule_of_wish (hw : s.scheduleWish = true) (hs : s.executeIsStuck i = false) :
    s.schedule = true := by
  by_contra hn
  have hz : s.hazard = true := by simpa [schedule, hw] using hn
  simp [executeIsStuck, executeHaltItself, hw, hz] at hs

theorem executeIsStuck_of_waiting (hv : s.cmdValid = true) (hr : i.cmdReady = false) :
    s.executeIsStuck i = true := by
  simp [executeIsStuck, executeHaltItself, hv, hr]

/-- **A command that is taken is that of the scheduled instruction**, unless it is stale. -/
theorem Sound.schedule_of_fire (h : Sound s) (hstale : ¬ s.StaleTaken i)
    (hf : s.cmdFire i = true) : s.schedule = true := by
  simp only [cmdFire, cmdValid, Bool.and_eq_true, Bool.or_eq_true] at hf
  obtain ⟨⟨hs | hh, -⟩, hr⟩ := hf
  · exact hs
  · cases hw : s.scheduleWish with
    | true => exact h.hold hh hw
    | false => exact absurd ⟨hh, hw, hr⟩ hstale

theorem Sound.schedule_of_inFlight (h : Sound s) (hstale : ¬ s.StaleTaken i)
    (hc : s.executeCfuInFlight = true) (hs : s.executeIsStuck i = false) :
    s.schedule = true := by
  simp only [executeCfuInFlight, Bool.or_eq_true] at hc
  rcases hc with (hc | hc) | hc
  · exact hc
  · by_contra hn
    have hw : s.scheduleWish = false := by
      by_contra hw
      exact hn (schedule_of_wish (by simpa using hw) hs)
    have hf : s.fired = false := by
      by_contra hf
      exact hn (h.fired (by simpa using hf))
    have hr : i.cmdReady = false := by
      by_contra hr
      exact hstale ⟨hc, hw, by simpa using hr⟩
    rw [executeIsStuck_of_waiting (by simp [cmdValid, hc, hf]) hr] at hs
    cases hs
  · exact h.fired hc

theorem Sound.wish_moving (h : Sound s) :
    (s.scheduleWish && s.executeIsMoving i) = (s.schedule && !s.executeIsStuck i) := by
  cases hs : s.executeIsStuck i with
  | true => simp [executeIsMoving, hs]
  | false =>
    cases hw : s.scheduleWish with
    | false => simp [schedule, hw]
    | true =>
      have hsch := schedule_of_wish hw hs
      simp [executeIsMoving, hs, hsch, h.not_executeRemoveIt (i := i) hsch]

theorem Sound.inFlight_moving (h : Sound s) (hstale : ¬ s.StaleTaken i) :
    (s.executeCfuInFlight && !s.executeIsStuck i) = (s.schedule && !s.executeIsStuck i) := by
  cases hs : s.executeIsStuck i with
  | true => simp
  | false =>
    cases hc : s.executeCfuInFlight with
    | true => simp [h.schedule_of_inFlight hstale hc hs]
    | false =>
      simp only [executeCfuInFlight, Bool.or_eq_false_iff] at hc
      simp [hc.1.1]

/-! ## One cycle -/

theorem ahead_of_stuck (hs : s.executeIsStuck i = true) :
    ((s.step i).memoryIsValid = true → s.memoryIsStuck i = true ∧ s.memoryIsValid = true) := by
  intro hv
  rcases memoryIsValid_step.mp hv with ⟨hmove, -⟩ | ⟨-, hm, -, hx⟩
  · simp [executeIsMoving, hs] at hmove
  · exact ⟨hm, hx⟩

theorem writeBack_sideEffect_step
    (hm : (s.memoryIsValid && hasSideEffect s.memoryInstruction) = false)
    (hw : (s.writeBackIsValid && hasSideEffect s.writeBackInstruction) = false) :
    ((s.step i).writeBackIsValid && hasSideEffect (s.step i).writeBackInstruction) = false := by
  by_contra hn
  simp only [Bool.not_eq_false, Bool.and_eq_true] at hn
  obtain ⟨hv, he⟩ := hn
  have hs : s.writeBackIsStuck i = false := not_writeBackIsStuck hw
  have hinst : (s.step i).writeBackInstruction = s.memoryInstruction := by simp [step, hs]
  rw [hinst] at he
  rcases writeBackIsValid_step.mp hv with ⟨-, hx⟩ | ⟨-, hx, -⟩
  · simp [he, hx] at hm
  · simp [hs] at hx

theorem Sound.schedule_step (h : Sound s) (hs : s.schedule = true)
    (hstuck : s.executeIsStuck i = true) : (s.step i).schedule = true := by
  obtain ⟨hv, hc, hz⟩ := schedule_iff.mp hs
  obtain ⟨hw, hm⟩ := hazard_eq_false_iff.mp hz
  have hdec := decodeIsStuck_of_execute hstuck
  have hinst : (s.step i).executeInstruction = s.executeInstruction := by simp [step, hstuck]
  refine schedule_iff.mpr ⟨?_, by rw [hinst]; exact hc, hazard_eq_false_iff.mpr
    ⟨writeBack_sideEffect_step hm hw, ?_⟩⟩
  · exact executeIsValid_step.mpr (.inr
      ⟨by simp [decodeIsMoving, hdec], hstuck, h.not_executeRemoveIt hs, hv⟩)
  · by_contra hn
    simp only [Bool.not_eq_false, Bool.and_eq_true] at hn
    obtain ⟨hms, hmv⟩ := ahead_of_stuck hstuck hn.1
    have hminst : (s.step i).memoryInstruction = s.memoryInstruction := by simp [step, hms]
    rw [hminst] at hn
    simp [hmv, hn.2] at hm

/-- `hold` after a cycle: of an instruction that stands, or left by one that goes. -/
theorem Sound.hold_step (h : Sound s) (hh : (s.step i).hold = true) :
    s.schedule = true ∨ s.scheduleWish = false ∧ s.executeIsStuck i = true := by
  have hnext : s.nextHold i = true := hh
  unfold nextHold at hnext
  split_ifs at hnext with hr hs
  · exact .inl hs
  · cases hw : s.scheduleWish with
    | true => exact .inl (h.hold hnext hw)
    | false =>
      have hf : s.fired = false := by
        by_contra hf
        exact hs (h.fired (by simpa using hf))
      refine .inr ⟨rfl, executeIsStuck_of_waiting ?_ (by simpa using hr)⟩
      simp [cmdValid, hnext, hf]

theorem nextFired_of_moving (hs : s.executeIsStuck i = false) : (s.step i).fired = false := by
  simp [step, nextFired, hs]

theorem Sound.fired_step (h : Sound s) (hstale : ¬ s.StaleTaken i)
    (hf : (s.step i).fired = true) : (s.step i).schedule = true := by
  cases hs : s.executeIsStuck i with
  | false =>
    rw [nextFired_of_moving hs] at hf
    cases hf
  | true =>
    have hnext : s.nextFired i = true := hf
    simp only [nextFired, hs, Bool.not_true, Bool.false_eq_true, if_false] at hnext
    split_ifs at hnext with hfire
    · exact h.schedule_step (h.schedule_of_fire hstale hfire) hs
    · exact h.schedule_step (h.fired hnext) hs

theorem memory_of_issue (hv : s.executeIsMoving i = true) :
    (s.step i).memoryIsValid = s.executeIsValid ∧
      (s.step i).memoryInstruction = s.executeInstruction := by
  obtain ⟨hs, -⟩ := executeIsMoving_iff.mp hv
  simp [step, nextIsValid, hv, memoryIsStuck_eq_false hs]

/-- A stale `hold` keeps what comes next from being seen as scheduled too early. -/
theorem Sound.hold_schedule_step (h : Sound s) (hh : (s.step i).hold = true)
    (hw : (s.step i).scheduleWish = true) : (s.step i).schedule = true := by
  cases hs : s.executeIsStuck i with
  | true =>
    rcases h.hold_step hh with hsch | ⟨hwish, -⟩
    · exact h.schedule_step hsch hs
    · have hinst : (s.step i).executeInstruction = s.executeInstruction := by simp [step, hs]
      simp only [scheduleWish, hinst, Bool.and_eq_true] at hw
      have hdec := decodeIsStuck_of_execute hs
      rcases executeIsValid_step.mp hw.1 with ⟨hmove, -⟩ | ⟨-, -, -, hx⟩
      · simp [decodeIsMoving, hdec] at hmove
      · simp [scheduleWish, hx, hw.2] at hwish
  | false =>
    rcases h.hold_step hh with hsch | ⟨-, hstuck⟩
    · obtain ⟨-, -, hz⟩ := schedule_iff.mp hsch
      obtain ⟨hwb, hm⟩ := hazard_eq_false_iff.mp hz
      have hmove : s.executeIsMoving i = true :=
        executeIsMoving_iff.mpr ⟨hs, h.not_executeRemoveIt hsch⟩
      have hinst := (memory_of_issue hmove).2
      rw [schedule, hw, Bool.true_and, Bool.not_eq_true']
      refine hazard_eq_false_iff.mpr ⟨writeBack_sideEffect_step hm hwb, ?_⟩
      rw [hinst, (h.cfuWord hsch).hasSideEffect, Bool.and_false]
    · simp [hs] at hstuck

theorem Sound.memory_step (h : Sound s) (hstale : ¬ s.StaleTaken i) :
    (s.step i).memoryCfuInFlight =
      if s.memoryIsStuck i then s.memoryCfuInFlight else s.schedule && !s.executeIsStuck i := by
  show s.nextCfuInFlight i = _
  unfold nextCfuInFlight
  rw [h.inFlight_moving hstale]

theorem Sound.memory_valid_step (h : Sound s) (hstale : ¬ s.StaleTaken i) :
    (s.step i).memoryCfuInFlight =
      ((s.step i).memoryIsValid && cfuEnable (s.step i).memoryInstruction) := by
  rw [h.memory_step hstale]
  cases hm : s.memoryIsStuck i with
  | true =>
    have hstuck := executeIsStuck_of_memory hm
    have hinst : (s.step i).memoryInstruction = s.memoryInstruction := by simp [step, hm]
    rw [if_pos rfl, hinst]
    cases hc : s.memoryCfuInFlight with
    | true =>
      have hmem := hc
      rw [h.memory, Bool.and_eq_true] at hmem
      have hvalid : (s.step i).memoryIsValid = true := memoryIsValid_step.mpr (.inr
        ⟨by simp [executeIsMoving, hstuck], hm, (h.not_memoryRemoveIt hc).1, hmem.1⟩)
      simp [hvalid, hmem.2]
    | false =>
      by_contra hn
      have hn := Bool.and_eq_true_iff.mp (by simpa using hn)
      have hmem := h.memory
      simp [hc, (ahead_of_stuck hstuck hn.1).2, hn.2] at hmem
  | false =>
    rw [if_neg (by simp), ← h.wish_moving]
    cases hmove : s.executeIsMoving i with
    | true =>
      obtain ⟨hv, hinst⟩ := memory_of_issue hmove
      rw [hv, hinst, Bool.and_true, scheduleWish]
    | false =>
      have hvalid : (s.step i).memoryIsValid = false := by simp [step, nextIsValid, hmove, hm]
      simp [hvalid]

/-- **Step lemma.** -/
theorem Sound.step (h : Sound s) (hstale : ¬ s.StaleTaken i) : Sound (s.step i) where
  marks := h.marks.step i
  fired := h.fired_step hstale
  hold := h.hold_schedule_step
  memory := h.memory_valid_step hstale
  word hm := by
    rw [h.memory_step hstale] at hm
    split_ifs at hm with hs
    · simpa [Cpu.step, hs] using h.word hm
    · simpa [Cpu.step, hs] using h.cfuWord (Bool.and_eq_true_iff.mp hm).1
  ahead hm := by
    rw [h.memory_step hstale] at hm
    split_ifs at hm with hs
    · refine writeBack_sideEffect_step ?_ (h.ahead hm)
      rw [(h.word hm).hasSideEffect, Bool.and_false]
    · obtain ⟨-, -, hz⟩ := schedule_iff.mp (Bool.and_eq_true_iff.mp hm).1
      obtain ⟨hwb, hmem⟩ := hazard_eq_false_iff.mp hz
      exact writeBack_sideEffect_step hmem hwb

/-! ## A CFU that answers at once -/

/-- At most one command is between the two channels, and its response waits in the CPU. -/
structure Alone (s : Cpu) : Prop where
  waiting : s.rValid = (s.memoryCfuInFlight || s.fired)
  one : s.memoryCfuInFlight = true → s.fired = false

theorem alone_reset (h : s.AtReset) : Alone s where
  waiting := by simp [h.rValid, h.memoryCfuInFlight, h.fired]
  one _ := h.fired

/-- In this cycle the CFU answers what it takes, and takes nothing while a response waits. -/
structure AnswersAtOnce (i : Inputs) (s : Cpu) : Prop where
  full : s.rValid = true → s.cmdFire i = false
  answer : s.rValid = false → i.rspValid = s.cmdFire i

theorem Sound.memory_leaves (h : Sound s) (ha : Alone s) (hm : s.memoryCfuInFlight = true) :
    s.memoryIsStuck i = false ∧ s.memoryRspReady i = true := by
  have hw := (h.not_memoryRemoveIt (i := i) hm).2
  have hs := h.memoryIsStuck (i := i) hm
  constructor
  · simp [hs, memoryRspValid, ha.waiting, hm]
  · simp [memoryRspReady, hm, hw]

/-- The caches or a division keep an instruction in `execute`. -/
def heldUp (i : Inputs) (s : Cpu) : Bool :=
  i.dBusExecuteHalt || i.refilling || s.memoryIsValid && isDiv s.memoryInstruction && i.divBusy

theorem Sound.executeIsStuck_of_fired (h : Sound s) (ha : Alone s) (hf : s.fired = true) :
    s.executeIsStuck i = s.heldUp i := by
  have hsch := h.fired hf
  obtain ⟨hv, -, hz⟩ := schedule_iff.mp hsch
  have hword := h.cfuWord hsch
  have hw := not_writeBackIsStuck (i := i) (hazard_eq_false_iff.mp hz).1
  have hm : s.memoryCfuInFlight = false := by
    by_contra hm
    simp [ha.one (by simpa using hm)] at hf
  simp [executeIsStuck, executeHaltItself, executeHaltByOther, Cpu.memoryIsStuck, memoryHaltItself,
    cmdValid, heldUp, hv, hz, hw, hm, hf, hword.isCsr, hword.envCtrl]

theorem not_leaving (hf : s.fired = false) (hc : s.cmdFire i = false) :
    (s.schedule && !s.executeIsStuck i) = false := by
  cases hs : s.schedule with
  | false => rfl
  | true =>
    have hv : s.cmdValid = true := by simp [cmdValid, hs, hf]
    rw [cmdFire, hv, Bool.true_and] at hc
    simp [executeIsStuck_of_waiting hv hc]

theorem Sound.alone_step (h : Sound s) (hstale : ¬ s.StaleTaken i) (ha : Alone s)
    (hi : AnswersAtOnce i s) : Alone (s.step i) := by
  obtain ⟨hwait, hone⟩ := ha
  have hmem := h.memory_step hstale
  have hfired : (s.step i).fired =
      if !s.executeIsStuck i then false else if s.cmdFire i then true else s.fired := rfl
  have hr : (s.step i).rValid =
      if s.memoryRspReady i then false else if i.rspValid then true else s.rValid := rfl
  suffices hgoal : (s.step i).rValid = ((s.step i).memoryCfuInFlight || (s.step i).fired) ∧
      ((s.step i).memoryCfuInFlight = true → (s.step i).fired = false) from ⟨hgoal.1, hgoal.2⟩
  rw [hmem, hfired, hr]
  cases hc : s.memoryCfuInFlight with
  | true =>
    -- the response is there, so the CFU takes nothing and the instruction leaves
    have hf := hone hc
    have hrv : s.rValid = true := by rw [hwait, hc, Bool.true_or]
    have hnc := hi.full hrv
    obtain ⟨hms, hready⟩ := h.memory_leaves (i := i) ⟨hwait, hone⟩ hc
    simp [hready, hms, not_leaving hf hnc, hnc, hf]
  | false =>
    have hready : s.memoryRspReady i = false := by simp [memoryRspReady, hc]
    rw [hc, Bool.false_or] at hwait
    cases hf : s.fired with
    | true =>
      have hs := h.fired hf
      have hnc := hi.full (hwait.trans hf)
      cases hst : s.executeIsStuck i with
      | true => simp [hready, hwait, hf]
      | false => simp [hready, hwait, hf, hs, memoryIsStuck_eq_false hst]
    | false =>
      rw [hi.answer (hwait.trans hf)]
      cases hfire : s.cmdFire i with
      | true =>
        have hs := h.schedule_of_fire hstale hfire
        cases hst : s.executeIsStuck i with
        | true => simp [hready]
        | false => simp [hready, hs, memoryIsStuck_eq_false hst]
      | false => simp [hready, hwait, hf, not_leaving hf hfire]

end Cpu

end CfuPlayground.VexRiscv
