import CfuPlayground.VexRiscv.Datapath

/-!
# Operands across the pipeline

What an instruction reads is what the instructions before it have written, wherever these are.
`FromMemory` and `FromWriteBack` say where the value of a register is while its reader is in
`execute` or `memory`: in the register between the stages, if the writer is still ahead, and in the
register file once it has fired.

* `Bypassing` is the invariant of the core that the operands rest on;
* `capture`: without a hazard, the bypasses and the register file give such a value;
* `FromMemory.move`, `FromMemory.wait`, `FromWriteBack.move` and `FromWriteBack.wait`: it stays one
  while the stages move or wait.
-/

namespace CfuPlayground.VexRiscv.Core

variable {o : Outside} {c : Core} {r : BitVec 5} {v : Word}

/-! ## Where a value is -/

/-- The value of `r` for an instruction in `memory`. -/
def FromWriteBack (c : Core) (r : BitVec 5) (v : Word) : Prop :=
  if c.writeBackWrites r then Early c.cpu.writeBackInstruction ∧ v = c.cpu.writeBackData
  else v = c.data.regFile r

/-- The value of `r` for an instruction in `execute`. -/
def FromMemory (c : Core) (r : BitVec 5) (v : Word) : Prop :=
  if c.memoryWrites r then Plain c.cpu.memoryInstruction ∧ v = c.data.memoryWriteData
  else c.FromWriteBack r v

/-- The value of `r` that was read from the register file, unless it is in the buffer. -/
def FromPort (c : Core) (r : BitVec 5) (v : Word) : Prop :=
  c.data.bufferValid = true ∧ c.data.bufferAddress = r ∨ v = c.data.regFile r

/-- What the operands rest on. -/
structure Bypassing (c : Core) : Prop where
  sound : c.cpu.Sound
  legal : c.cpu.memoryIsValid = true → legalInstruction c.cpu.memoryInstruction = true
  buffer : c.data.bufferValid = true → c.data.regFile c.data.bufferAddress = c.data.bufferData
  port : c.cpu.m2sPipeValid = true → c.data.decodeRsp = .hit →
    c.FromPort (rs1Field c.data.decodeInstruction) c.data.rs1Data ∧
      c.FromPort (rs2Field c.data.decodeInstruction) c.data.rs2Data
  /-- Nothing is in the stages in the first cycle. -/
  booting : c.data.booting = true → c.cpu.fetchValid = false ∧ c.cpu.m2sPipeValid = false ∧
    c.cpu.executeIsValid = false ∧ c.cpu.memoryIsValid = false ∧ c.cpu.writeBackIsValid = false

/-- The core after reset. -/
structure AtReset (c : Core) : Prop where
  cpu : c.cpu.AtReset
  data : c.data.AtReset

theorem bypassing_reset (h : c.AtReset) : Bypassing c where
  sound := Cpu.sound_reset h.cpu
  legal hv := by simp [h.cpu.memoryIsValid] at hv
  buffer hb := by simp [h.data.bufferValid] at hb
  port hv := by simp [h.cpu.m2sPipeValid] at hv
  booting _ := ⟨h.cpu.fetchValid, h.cpu.m2sPipeValid, h.cpu.executeIsValid, h.cpu.memoryIsValid,
    h.cpu.writeBackIsValid⟩

/-! ## The register file -/

theorem writes_iff {isValid : Bool} {instruction : Word} : writes isValid instruction r = true ↔
    isValid = true ∧ regfileWriteValid instruction = true ∧ rdField instruction = r := by
  simp [writes, and_assoc]

theorem writeBackIsFiring_eq (hs : c.cpu.writeBackIsStuck (c.wires o) = false)
    (hr : c.cpu.writeBackRemoveIt (c.wires o) = false) :
    c.writeBackIsFiring o = c.cpu.writeBackIsValid := by
  simp [writeBackIsFiring, hs, hr]

theorem regFile_step (hboot : c.data.booting = false) (r : BitVec 5) :
    (c.step o).data.regFile r =
      if c.writeBackWritesValid o ∧ rdField c.cpu.writeBackInstruction = r then c.writeBackValue o
      else c.data.regFile r := by
  have hnext : (c.step o).data.regFile =
      if c.data.booting then Function.update c.data.regFile 0 0
      else if c.writeBackWritesValid o then
        Function.update c.data.regFile (rdField c.cpu.writeBackInstruction) (c.writeBackValue o)
      else c.data.regFile := rfl
  rw [hnext, hboot, if_neg Bool.false_ne_true]
  split_ifs with hw hrd hrd
  · rw [← hrd.2, Function.update_self]
  · rw [Function.update_of_ne]
    exact fun h => hrd ⟨hw, h.symm⟩
  · exact absurd hrd.1 hw
  · rfl

theorem regFile_fire (hboot : c.data.booting = false)
    (hs : c.cpu.writeBackIsStuck (c.wires o) = false)
    (hr : c.cpu.writeBackRemoveIt (c.wires o) = false) (r : BitVec 5) :
    (c.step o).data.regFile r =
      if c.writeBackWrites r then c.writeBackValue o else c.data.regFile r := by
  rw [regFile_step hboot, writeBackWritesValid, writeBackIsFiring_eq hs hr]
  refine if_congr ?_ rfl rfl
  rw [writeBackWrites, writes_iff, Bool.and_eq_true]
  tauto

theorem regFile_stuck (hboot : c.data.booting = false)
    (hs : c.cpu.writeBackIsStuck (c.wires o) = true) (r : BitVec 5) :
    (c.step o).data.regFile r = c.data.regFile r := by
  rw [regFile_step hboot, if_neg]
  rintro ⟨hw, -⟩
  simp [writeBackWritesValid, writeBackIsFiring, hs] at hw

theorem writeBackValue_of_early (h : Early c.cpu.writeBackInstruction) :
    c.writeBackValue o = c.cpu.writeBackData := by
  simp [writeBackValue, h.memoryEnable, h.isMul]

theorem memoryValue_of_plain (h : Bypassing c) (hp : Plain c.cpu.memoryInstruction) :
    c.memoryValue o = c.data.memoryWriteData := by
  have hcfu : c.cpu.memoryCfuInFlight = false := by
    rw [h.sound.memory, hp.cfuEnable, Bool.and_false]
  simp [memoryValue, memoryData, hcfu, hp.isDiv, hp.shiftCtrl, shiftData]

theorem writeBackRemoveIt_of_flushed (h : c.cpu.isFlushed (c.wires o) = false) :
    c.cpu.writeBackRemoveIt (c.wires o) = false := by
  simp only [Cpu.isFlushed, Cpu.writeBackFlushNext, Bool.or_eq_false_iff] at h
  simp [Cpu.writeBackRemoveIt, h.1.1.1.2, h.2]

/-! ## Moving and waiting -/

section Stages

variable (hf : c.cpu.isFlushed (c.wires o) = false)

include hf

theorem writeBackWrites_of_moving (hs : c.cpu.memoryIsStuck (c.wires o) = false) :
    (c.step o).writeBackWrites r = c.memoryWrites r := by
  have hw := Cpu.writeBackIsStuck_eq_false hs
  simp [writeBackWrites, memoryWrites, step, Cpu.step, Cpu.nextIsValid, Cpu.memoryIsMoving,
    Cpu.memoryRemoveIt, hs, hf, hw]

theorem writeBackWrites_of_waiting (hs : c.cpu.memoryIsStuck (c.wires o) = true) :
    (c.step o).writeBackWrites r =
      (c.cpu.writeBackIsStuck (c.wires o) && c.writeBackWrites r) := by
  have hr := writeBackRemoveIt_of_flushed hf
  cases hw : c.cpu.writeBackIsStuck (c.wires o) <;>
    simp [writeBackWrites, writes, step, Cpu.step, Cpu.nextIsValid, Cpu.memoryIsMoving, hs, hw, hr]

theorem memoryWrites_of_waiting (hs : c.cpu.executeIsStuck (c.wires o) = true) :
    (c.step o).memoryWrites r = (c.cpu.memoryIsStuck (c.wires o) && c.memoryWrites r) := by
  cases hm : c.cpu.memoryIsStuck (c.wires o) <;>
    simp [memoryWrites, writes, step, Cpu.step, Cpu.nextIsValid, Cpu.executeIsMoving,
      Cpu.memoryRemoveIt, hs, hm, hf]

/-- A value that `memory` has read is in the register file when `memory` leaves. -/
theorem FromWriteBack.move (h : c.FromWriteBack r v) (hboot : c.data.booting = false)
    (hs : c.cpu.writeBackIsStuck (c.wires o) = false) : v = (c.step o).data.regFile r := by
  rw [regFile_fire hboot hs (writeBackRemoveIt_of_flushed hf)]
  unfold FromWriteBack at h
  split_ifs with hw
  · rw [if_pos hw] at h
    rw [writeBackValue_of_early h.1]
    exact h.2
  · rw [if_neg hw] at h
    exact h

theorem FromWriteBack.wait (h : c.FromWriteBack r v) (hboot : c.data.booting = false)
    (hs : c.cpu.memoryIsStuck (c.wires o) = true) : (c.step o).FromWriteBack r v := by
  rw [FromWriteBack, writeBackWrites_of_waiting hf hs]
  cases hw : c.cpu.writeBackIsStuck (c.wires o) with
  | false =>
    rw [Bool.false_and, if_neg Bool.false_ne_true]
    exact h.move hf hboot hw
  | true =>
    have hinst : (c.step o).cpu.writeBackInstruction = c.cpu.writeBackInstruction := if_pos hw
    have hdata : (c.step o).cpu.writeBackData = c.cpu.writeBackData := if_pos hw
    rw [Bool.true_and, hinst, hdata, regFile_stuck hboot hw]
    exact h

theorem FromMemory.move (h : c.FromMemory r v) (hc : Bypassing c) (hboot : c.data.booting = false)
    (hs : c.cpu.memoryIsStuck (c.wires o) = false) : (c.step o).FromWriteBack r v := by
  have hw := Cpu.writeBackIsStuck_eq_false hs
  have hinst : (c.step o).cpu.writeBackInstruction = c.cpu.memoryInstruction :=
    if_neg (by simp [hw])
  have hdata : (c.step o).cpu.writeBackData = c.memoryValue o := if_neg (by simp [hw])
  rw [FromWriteBack, writeBackWrites_of_moving hf hs, hinst, hdata]
  unfold FromMemory at h
  split_ifs with hm
  · rw [if_pos hm] at h
    rw [memoryValue_of_plain hc h.1]
    exact ⟨h.1.early, h.2⟩
  · rw [if_neg hm] at h
    exact h.move hf hboot hw

theorem FromMemory.wait (h : c.FromMemory r v) (hc : Bypassing c) (hboot : c.data.booting = false)
    (hs : c.cpu.executeIsStuck (c.wires o) = true) : (c.step o).FromMemory r v := by
  rw [FromMemory, memoryWrites_of_waiting hf hs]
  cases hm : c.cpu.memoryIsStuck (c.wires o) with
  | false =>
    rw [Bool.false_and, if_neg Bool.false_ne_true]
    exact h.move hf hc hboot hm
  | true =>
    have hinst : (c.step o).cpu.memoryInstruction = c.cpu.memoryInstruction := if_pos hm
    have hdata : (c.step o).data.memoryWriteData = c.data.memoryWriteData := if_pos hm
    rw [Bool.true_and, hinst, hdata]
    unfold FromMemory at h
    split_ifs with hw
    · rw [if_pos hw] at h
      exact h
    · rw [if_neg hw] at h
      exact h.wait hf hboot hm

end Stages

/-! ## Reading -/

theorem FromPort.eq (h : c.FromPort r v) (hc : Bypassing c) :
    (if c.data.bufferValid && c.data.bufferAddress = r then c.data.bufferData else v) =
      c.data.regFile r := by
  split_ifs with hb
  · simp only [Bool.and_eq_true, decide_eq_true_eq] at hb
    rw [← hb.2, hc.buffer hb.1]
  · rcases h with h | h
    · simp [h.1, h.2] at hb
    · exact h

/-- **Reading.** What an instruction without a hazard takes with it to `execute`. -/
theorem capture (hc : Bypassing c) (hboot : c.data.booting = false)
    (hmove : c.cpu.decodeIsMoving (c.wires o) = true) (hhazard : c.hazard r = false)
    (hport : c.FromPort r v) : (c.step o).FromMemory r (c.decodeRs o r v) := by
  obtain ⟨hds, hdr⟩ := Cpu.decodeIsMoving_iff.mp hmove
  have hes := Cpu.executeIsStuck_eq_false hds
  have hms := Cpu.memoryIsStuck_eq_false hes
  have hws := Cpu.writeBackIsStuck_eq_false hms
  simp only [Cpu.decodeRemoveIt, Cpu.decodeIsFlushed, Cpu.executeFlushNext,
    Bool.or_eq_false_iff] at hdr
  obtain ⟨-, hf, -, hex⟩ := hdr
  have her : c.cpu.executeRemoveIt (c.wires o) = false := by simp [Cpu.executeRemoveIt, hex, hf]
  have hmem : (c.step o).memoryWrites r = c.executeWrites r := by
    simp [memoryWrites, executeWrites, step, Cpu.step, Cpu.nextIsValid, Cpu.executeIsMoving, hes,
      hms, her]
  have hinst : (c.step o).cpu.memoryInstruction = c.cpu.executeInstruction :=
    if_neg (by simp [hms])
  have hdata : (c.step o).data.memoryWriteData = c.executeValue o := if_neg (by simp [hms])
  simp only [hazard, Bool.or_eq_false_iff, Bool.and_eq_false_iff] at hhazard
  rw [FromMemory, hmem, hinst, hdata, decodeRs]
  cases he : c.executeWrites r with
  | true =>
    have hb : bypassableExecute c.cpu.executeInstruction = true := by simpa [he] using hhazard.1
    obtain ⟨hv, hwr, -⟩ := writes_iff.mp he
    rw [hb, Bool.and_self, if_pos rfl, if_pos rfl]
    exact ⟨plain_of_bypassableExecute (hc.sound.marks.legal hv) hwr hb, rfl⟩
  | false =>
    rw [Bool.false_and, if_neg Bool.false_ne_true, if_neg Bool.false_ne_true, FromWriteBack,
      writeBackWrites_of_moving hf hms]
    cases hm : c.memoryWrites r with
    | true =>
      have hb : bypassableMemory c.cpu.memoryInstruction = true := by simpa [hm] using hhazard.2
      obtain ⟨hv, hwr, -⟩ := writes_iff.mp hm
      have hinst' : (c.step o).cpu.writeBackInstruction = c.cpu.memoryInstruction :=
        if_neg (by simp [hws])
      have hdata' : (c.step o).cpu.writeBackData = c.memoryValue o := if_neg (by simp [hws])
      rw [hb, Bool.and_self, if_pos rfl, if_pos rfl, hinst', hdata']
      exact ⟨early_of_bypassableMemory (hc.legal hv) hwr hb, rfl⟩
    | false =>
      rw [Bool.false_and, if_neg Bool.false_ne_true, if_neg Bool.false_ne_true, hport.eq hc,
        regFile_fire hboot hws (writeBackRemoveIt_of_flushed hf)]

/-! ## One cycle -/

theorem writeBackWritesValid_of_booting (hc : Bypassing c) (hboot : c.data.booting = true) :
    c.writeBackWritesValid o = false := by
  obtain ⟨-, -, -, -, hv⟩ := hc.booting hboot
  simp [writeBackWritesValid, writeBackIsFiring, hv]

theorem fromPort_step (hboot : c.data.booting = false) (r : BitVec 5) :
    (c.step o).FromPort r (c.data.regFile r) := by
  by_cases hw : c.writeBackWritesValid o ∧ rdField c.cpu.writeBackInstruction = r
  · exact .inl hw
  · right
    rw [regFile_step hboot, if_neg hw]

/-- The word in `decode` after a cycle, if the cache had it, is the one that was anticipated. -/
theorem anticipated_eq (hr : (c.step o).data.decodeRsp = .hit) :
    (c.step o).data.decodeInstruction = c.anticipated o := by
  have hnext : (c.step o).data.decodeInstruction =
      if c.cpu.stages2InputReady (c.wires o) then o.fetchData else c.data.decodeInstruction := rfl
  have hrsp : (c.step o).data.decodeRsp =
      if c.cpu.stages2InputReady (c.wires o) then o.fetchRsp else c.data.decodeRsp := rfl
  rw [hrsp] at hr
  rw [hnext, anticipated]
  cases hready : c.cpu.stages2InputReady (c.wires o) with
  | true =>
    have hstuck : c.cpu.decodeIsStuck (c.wires o) = false := by
      simp only [Cpu.stages2InputReady, Bool.and_eq_true, Bool.not_eq_true'] at hready
      exact hready.1
    simp [hstuck]
  | false =>
    rw [hready] at hr
    have hhit : (c.wires o).iBusRsp = .hit := by
      have hrsp : c.data.decodeRsp = .hit := hr
      show c.data.decodeRsp.iBusRsp o.readyForError = .hit
      rw [hrsp]
      rfl
    have hstuck : c.cpu.decodeIsStuck (c.wires o) = true := by
      simpa [Cpu.stages2InputReady, hhit] using hready
    simp [hstuck]

theorem Bypassing.port_step (hc : Bypassing c) (hv : (c.step o).cpu.m2sPipeValid = true)
    (hr : (c.step o).data.decodeRsp = .hit) :
    (c.step o).FromPort (rs1Field (c.step o).data.decodeInstruction) (c.step o).data.rs1Data ∧
      (c.step o).FromPort (rs2Field (c.step o).data.decodeInstruction)
        (c.step o).data.rs2Data := by
  have hboot : c.data.booting = false := by
    by_contra hn
    obtain ⟨hfetch, hpipe, -⟩ := hc.booting (by simpa using hn)
    have hvalid : (c.step o).cpu.m2sPipeValid =
        ((if c.cpu.stages2InputReady (c.wires o) then c.cpu.fetchValid else c.cpu.m2sPipeValid) &&
          !c.cpu.iBusRspFlush (c.wires o)) := rfl
    rw [hvalid, hfetch, hpipe, ite_self] at hv
    cases hv
  rw [anticipated_eq hr]
  exact ⟨fromPort_step hboot _, fromPort_step hboot _⟩

/-- **Step lemma.** -/
theorem Bypassing.step (hc : Bypassing c) (hstale : ¬ c.cpu.StaleTaken (c.wires o)) :
    Bypassing (c.step o) where
  sound := hc.sound.step hstale
  legal hv := by
    rcases Cpu.memoryIsValid_step.mp hv with ⟨hmove, hx⟩ | ⟨-, hs, -, hx⟩
    · have hinst : (c.step o).cpu.memoryInstruction = c.cpu.executeInstruction :=
        if_neg (by simp [Cpu.memoryIsStuck_eq_false (Cpu.executeIsMoving_iff.mp hmove).1])
      rw [hinst]
      exact hc.sound.marks.legal hx
    · have hinst : (c.step o).cpu.memoryInstruction = c.cpu.memoryInstruction := if_pos hs
      rw [hinst]
      exact hc.legal hx
  buffer hb := by
    have hvalid : c.writeBackWritesValid o = true := hb
    have hboot : c.data.booting = false := by
      by_contra hn
      simp [writeBackWritesValid_of_booting hc (by simpa using hn)] at hvalid
    rw [regFile_step hboot, if_pos ⟨hvalid, rfl⟩]
    rfl
  port := hc.port_step
  booting hb := by cases hb

end CfuPlayground.VexRiscv.Core
