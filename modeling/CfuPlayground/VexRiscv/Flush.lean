import CfuPlayground.VexRiscv.Model

/-!
# What is flushed

An exception travels as a mark beside the stages, until `hadException` flushes the pipeline; an
interrupt waits until the liberator has seen the stages empty. `Marks` says what both leave
behind them: nothing is fetched behind a mark, and the stages behind it are empty. Hence
(`not_isFlushed`) a flush reaches `execute` or `memory` only from an instruction with a side
effect in `writeBack`.
-/

namespace CfuPlayground.VexRiscv.Cpu

variable {i : Inputs} {s : Cpu}

/-! ## Stuck stages -/

theorem executeIsStuck_of_memory (h : s.memoryIsStuck i = true) : s.executeIsStuck i = true := by
  simp [executeIsStuck, h]

theorem memoryIsStuck_of_writeBack (h : s.writeBackIsStuck i = true) :
    s.memoryIsStuck i = true := by
  simp [memoryIsStuck, h]

theorem decodeIsStuck_of_execute (h : s.executeIsStuck i = true) : s.decodeIsStuck i = true := by
  simp [decodeIsStuck, h]

theorem memoryIsStuck_eq_false (h : s.executeIsStuck i = false) : s.memoryIsStuck i = false := by
  by_contra hm
  rw [executeIsStuck_of_memory (by simpa using hm)] at h
  cases h

theorem writeBackIsStuck_eq_false (h : s.memoryIsStuck i = false) :
    s.writeBackIsStuck i = false := by
  by_contra hw
  rw [memoryIsStuck_of_writeBack (by simpa using hw)] at h
  cases h

theorem executeIsStuck_eq_false (h : s.decodeIsStuck i = false) : s.executeIsStuck i = false := by
  by_contra he
  rw [decodeIsStuck_of_execute (by simpa using he)] at h
  cases h

theorem nextIsValid_iff {isStuck removeIt isValid moving previous : Bool} :
    nextIsValid isStuck removeIt isValid moving previous = true ↔
      moving = true ∧ previous = true ∨
        moving = false ∧ isStuck = true ∧ removeIt = false ∧ isValid = true := by
  cases moving <;> cases isStuck <;> cases removeIt <;> simp [nextIsValid]

theorem executeIsValid_step : (s.step i).executeIsValid = true ↔
    s.decodeIsMoving i = true ∧ s.decodeIsValid i = true ∨
      s.decodeIsMoving i = false ∧ s.executeIsStuck i = true ∧ s.executeRemoveIt i = false ∧
        s.executeIsValid = true := nextIsValid_iff

theorem memoryIsValid_step : (s.step i).memoryIsValid = true ↔
    s.executeIsMoving i = true ∧ s.executeIsValid = true ∨
      s.executeIsMoving i = false ∧ s.memoryIsStuck i = true ∧ s.memoryRemoveIt i = false ∧
        s.memoryIsValid = true := nextIsValid_iff

theorem writeBackIsValid_step : (s.step i).writeBackIsValid = true ↔
    s.memoryIsMoving i = true ∧ s.memoryIsValid = true ∨
      s.memoryIsMoving i = false ∧ s.writeBackIsStuck i = true ∧
        s.writeBackRemoveIt i = false ∧ s.writeBackIsValid = true := nextIsValid_iff

theorem decodeIsMoving_iff : s.decodeIsMoving i = true ↔
    s.decodeIsStuck i = false ∧ s.decodeRemoveIt i = false := by
  simp [decodeIsMoving]

theorem executeIsMoving_iff : s.executeIsMoving i = true ↔
    s.executeIsStuck i = false ∧ s.executeRemoveIt i = false := by
  simp [executeIsMoving]

theorem memoryIsMoving_iff : s.memoryIsMoving i = true ↔
    s.memoryIsStuck i = false ∧ s.memoryRemoveIt i = false := by
  simp [memoryIsMoving]

/-! ## The marks -/

/-- What an exception or an interrupt on its way leaves behind it. -/
structure Marks (s : Cpu) : Prop where
  fetch : s.exceptionDecode = true ∨ s.exceptionExecute = true ∨ s.exceptionMemory = true ∨
    s.exceptionWriteBack = true ∨ s.hadException = true →
      s.fetchValid = false ∧ s.m2sPipeValid = false
  execute : s.exceptionExecute = true ∨ s.exceptionMemory = true ∨ s.exceptionWriteBack = true ∨
    s.hadException = true ∨ s.pcValids0 = true → s.executeIsValid = false
  memory : s.exceptionMemory = true ∨ s.exceptionWriteBack = true ∨ s.hadException = true ∨
    s.pcValids1 = true → s.memoryIsValid = false
  pcValids1 : s.pcValids1 = true → s.pcValids0 = true
  pcValids2 : s.pcValids2 = true → s.pcValids1 = true
  /-- An illegal instruction does not leave `decode`. -/
  legal : s.executeIsValid = true → legalInstruction s.executeInstruction = true

theorem marks_reset (h : s.AtReset) : Marks s where
  fetch _ := ⟨h.fetchValid, h.m2sPipeValid⟩
  execute _ := h.executeIsValid
  memory _ := h.memoryIsValid
  pcValids1 hp := by simp [h.pcValids1] at hp
  pcValids2 hp := by simp [h.pcValids2] at hp
  legal hv := by simp [h.executeIsValid] at hv

/-- The instruction in `decode` goes no further. -/
def DecodeGone (i : Inputs) (s : Cpu) : Prop :=
  s.decodeIsValid i = false ∨ s.decodeRemoveIt i = true

def ExecuteGone (i : Inputs) (s : Cpu) : Prop :=
  s.executeIsValid = false ∨ s.executeRemoveIt i = true

def MemoryGone (i : Inputs) (s : Cpu) : Prop :=
  s.memoryIsValid = false ∨ s.memoryRemoveIt i = true

theorem decodeIsValid_eq_false (h : s.m2sPipeValid = false) : s.decodeIsValid i = false := by
  simp [decodeIsValid, h]

theorem decodeRemoveIt_of_flushed (h : s.isFlushed i = true) : s.decodeRemoveIt i = true := by
  simp [decodeRemoveIt, decodeIsFlushed, h]

theorem decodeRemoveIt_of_execute (h : s.executeException i = true) :
    s.decodeRemoveIt i = true := by
  simp [decodeRemoveIt, decodeIsFlushed, executeFlushNext, h]

theorem isFlushed_of_dBusException (h : s.dBusException i = true) : s.isFlushed i = true := by
  simp [isFlushed, writeBackFlushNext, h]

theorem executeRemoveIt_of_flushed (h : s.isFlushed i = true) : s.executeRemoveIt i = true := by
  simp [executeRemoveIt, h]

theorem Marks.valids_decode (h : Marks s) (hv : s.exceptionValidsDecode i = true) :
    DecodeGone i s := by
  simp only [exceptionValidsDecode, Bool.and_eq_true, Bool.or_eq_true] at hv
  rcases hv.1 with hd | hd
  · exact .inl (decodeIsValid_eq_false (h.fetch (.inl hd)).2)
  · exact .inr (by simp [decodeRemoveIt, hd])

theorem Marks.valids_execute (h : Marks s) (hv : s.exceptionValidsExecute i = true) :
    DecodeGone i s ∧ ExecuteGone i s := by
  simp only [exceptionValidsExecute, Bool.and_eq_true, Bool.or_eq_true] at hv
  rcases hv.1 with he | he
  · exact ⟨.inl (decodeIsValid_eq_false (h.fetch (.inr (.inl he))).2), .inl (h.execute (.inl he))⟩
  · exact ⟨.inr (decodeRemoveIt_of_execute he), .inr (by simp [executeRemoveIt, he])⟩

theorem Marks.valids_memory (h : Marks s) (hv : s.exceptionValidsMemory i = true) :
    DecodeGone i s ∧ ExecuteGone i s ∧ MemoryGone i s := by
  simp only [exceptionValidsMemory, Bool.and_eq_true] at hv
  have hm := hv.1
  exact ⟨.inl (decodeIsValid_eq_false (h.fetch (.inr (.inr (.inl hm)))).2),
    .inl (h.execute (.inr (.inl hm))), .inl (h.memory (.inl hm))⟩

theorem Marks.valids_writeBack (h : Marks s) (hv : s.exceptionValidsWriteBack i = true) :
    DecodeGone i s ∧ ExecuteGone i s ∧ MemoryGone i s := by
  simp only [exceptionValidsWriteBack, Bool.and_eq_true, Bool.or_eq_true] at hv
  rcases hv.1 with hw | hw
  · exact ⟨.inl (decodeIsValid_eq_false (h.fetch (.inr (.inr (.inr (.inl hw))))).2),
      .inl (h.execute (.inr (.inr (.inl hw)))), .inl (h.memory (.inr (.inl hw)))⟩
  · have hf := isFlushed_of_dBusException hw
    exact ⟨.inr (decodeRemoveIt_of_flushed hf), .inr (executeRemoveIt_of_flushed hf), .inr hf⟩

theorem DecodeGone.not_moving (h : DecodeGone i s) :
    ¬ (s.decodeIsMoving i = true ∧ s.decodeIsValid i = true) := by
  rintro ⟨hm, hv⟩
  rcases h with h | h
  · simp [h] at hv
  · simp [decodeIsMoving, h] at hm

/-! ## One cycle -/

theorem exception_step (h : (s.step i).exceptionDecode = true ∨
    (s.step i).exceptionExecute = true ∨ (s.step i).exceptionMemory = true ∨
    (s.step i).exceptionWriteBack = true ∨ (s.step i).hadException = true) :
    s.exceptionValidsDecode i = true ∨ s.exceptionValidsExecute i = true ∨
      s.exceptionValidsMemory i = true ∨ s.exceptionValidsWriteBack i = true := by
  simp only [step, Bool.and_eq_true] at h
  rcases h with h | h | h | h | h
  · exact .inl h.1
  · split_ifs at h with hs
    · exact .inr (.inl h)
    · exact .inl (Bool.and_eq_true_iff.mp h).1
  · split_ifs at h with hs
    · exact .inr (.inr (.inl h))
    · exact .inr (.inl (Bool.and_eq_true_iff.mp h).1)
  · exact .inr (.inr (.inl h.1.2))
  · exact .inr (.inr (.inr h))

theorem iBusRspFlush_of_remove (h : s.decodeRemoveIt i = true) : s.iBusRspFlush i = true := by
  simp [iBusRspFlush, h]

theorem Marks.fetch_step (h : Marks s) (hv : s.exceptionValidsDecode i = true ∨
    s.exceptionValidsExecute i = true ∨ s.exceptionValidsMemory i = true ∨
    s.exceptionValidsWriteBack i = true) :
    (s.step i).fetchValid = false ∧ (s.step i).m2sPipeValid = false := by
  have hhalt : s.fetcherHalt i = true := by
    rcases hv with hv | hv | hv | hv <;> simp [fetcherHalt, hv]
  have hempty : s.iBusRspFlush i = true ∨ s.fetchValid = false ∧ s.m2sPipeValid = false := by
    rcases hv with hv | hv | hv | hv
    · simp only [exceptionValidsDecode, Bool.and_eq_true, Bool.or_eq_true] at hv
      rcases hv.1 with hd | hd
      · exact .inr (h.fetch (.inl hd))
      · exact .inl (iBusRspFlush_of_remove (by simp [decodeRemoveIt, hd]))
    · simp only [exceptionValidsExecute, Bool.and_eq_true, Bool.or_eq_true] at hv
      rcases hv.1 with he | he
      · exact .inr (h.fetch (.inr (.inl he)))
      · exact .inl (iBusRspFlush_of_remove (decodeRemoveIt_of_execute he))
    · simp only [exceptionValidsMemory, Bool.and_eq_true] at hv
      exact .inr (h.fetch (.inr (.inr (.inl hv.1))))
    · simp only [exceptionValidsWriteBack, Bool.and_eq_true, Bool.or_eq_true] at hv
      rcases hv.1 with hw | hw
      · exact .inr (h.fetch (.inr (.inr (.inr (.inl hw)))))
      · exact .inl (iBusRspFlush_of_remove
          (decodeRemoveIt_of_flushed (isFlushed_of_dBusException hw)))
  rcases hempty with hf | ⟨h1, h2⟩
  · simp [step, hhalt, hf]
  · simp [step, hhalt, h1, h2]

theorem Marks.execute_step (h : Marks s) (hv : (s.step i).exceptionExecute = true ∨
    (s.step i).exceptionMemory = true ∨ (s.step i).exceptionWriteBack = true ∨
    (s.step i).hadException = true) : (s.step i).executeIsValid = false := by
  by_contra hvalid
  have hvalid := executeIsValid_step.mp (by simpa using hvalid)
  have hgone : DecodeGone i s ∧ ExecuteGone i s ∨ DecodeGone i s ∧ s.executeIsStuck i = false := by
    simp only [step, Bool.and_eq_true, Bool.not_eq_true'] at hv
    rcases hv with hv | hv | hv | hv
    · split_ifs at hv with hs
      · exact .inl (h.valids_execute hv)
      · exact .inr ⟨h.valids_decode (Bool.and_eq_true_iff.mp hv).1, by simpa using hs⟩
    · split_ifs at hv with hs
      · exact .inl ⟨(h.valids_memory hv).1, (h.valids_memory hv).2.1⟩
      · exact .inl (h.valids_execute (Bool.and_eq_true_iff.mp hv).1)
    · exact .inl ⟨(h.valids_memory hv.1.2).1, (h.valids_memory hv.1.2).2.1⟩
    · exact .inl ⟨(h.valids_writeBack hv).1, (h.valids_writeBack hv).2.1⟩
  rcases hvalid with hmove | ⟨-, hs, hr, hx⟩
  · rcases hgone with ⟨hd, -⟩ | ⟨hd, -⟩
    · exact hd.not_moving hmove
    · exact hd.not_moving hmove
  · rcases hgone with ⟨-, he | he⟩ | ⟨-, he⟩
    · simp [hx] at he
    · simp [hr] at he
    · simp [hs] at he

theorem Marks.memory_step (h : Marks s) (hv : (s.step i).exceptionMemory = true ∨
    (s.step i).exceptionWriteBack = true ∨ (s.step i).hadException = true) :
    (s.step i).memoryIsValid = false := by
  by_contra hvalid
  have hvalid := memoryIsValid_step.mp (by simpa using hvalid)
  have hgone : ExecuteGone i s ∧ (MemoryGone i s ∨ s.memoryIsStuck i = false) := by
    simp only [step, Bool.and_eq_true, Bool.not_eq_true'] at hv
    rcases hv with hv | hv | hv
    · split_ifs at hv with hs
      · exact ⟨(h.valids_memory hv).2.1, .inl (h.valids_memory hv).2.2⟩
      · exact ⟨(h.valids_execute (Bool.and_eq_true_iff.mp hv).1).2, .inr (by simpa using hs)⟩
    · exact ⟨(h.valids_memory hv.1.2).2.1, .inl (h.valids_memory hv.1.2).2.2⟩
    · exact ⟨(h.valids_writeBack hv).2.1, .inl (h.valids_writeBack hv).2.2⟩
  rcases hvalid with ⟨hmove, hx⟩ | ⟨-, hs, hr, hx⟩
  · obtain ⟨-, hr⟩ := executeIsMoving_iff.mp hmove
    rcases hgone.1 with he | he
    · simp [hx] at he
    · simp [hr] at he
  · rcases hgone.2 with (he | he) | he
    · simp [hx] at he
    · simp [hr] at he
    · simp [hs] at he

theorem decodeIsStuck_of_active (h : s.pipelineLiberatorActive i = true) :
    s.decodeIsStuck i = true := by
  simp [decodeIsStuck, decodeHaltByOther, h]

theorem nextPcValid_iff {loads previous pcValid : Bool} :
    s.nextPcValid i loads previous pcValid = true ↔
      s.pipelineLiberatorActive i = true ∧ s.decodeRemoveIt i = false ∧
        (if loads then previous else pcValid) = true := by
  simp [nextPcValid, and_assoc]

theorem Marks.pcValids0_step (h : Marks s) (hp : (s.step i).pcValids0 = true) :
    (s.step i).executeIsValid = false := by
  by_contra hvalid
  obtain ⟨hact, -, hp⟩ := nextPcValid_iff.mp hp
  have hd := decodeIsStuck_of_active hact
  rcases executeIsValid_step.mp (by simpa using hvalid) with ⟨hmove, -⟩ | ⟨-, hs, -, hx⟩
  · simp [decodeIsMoving, hd] at hmove
  · rw [hs] at hp
    simp [h.execute (.inr (.inr (.inr (.inr hp))))] at hx

theorem Marks.pcValids1_step (h : Marks s) (hp : (s.step i).pcValids1 = true) :
    (s.step i).memoryIsValid = false := by
  by_contra hvalid
  obtain ⟨-, -, hp⟩ := nextPcValid_iff.mp hp
  rcases memoryIsValid_step.mp (by simpa using hvalid) with ⟨hmove, hx⟩ | ⟨-, hs, -, hx⟩
  · obtain ⟨hs, -⟩ := executeIsMoving_iff.mp hmove
    rw [memoryIsStuck_eq_false hs] at hp
    simp [h.execute (.inr (.inr (.inr (.inr hp))))] at hx
  · rw [hs] at hp
    simp [h.memory (.inr (.inr (.inr hp)))] at hx

/-- **Step lemma.** -/
theorem Marks.step (h : Marks s) (i : Inputs) : Marks (s.step i) where
  fetch hv := h.fetch_step (exception_step hv)
  execute hv := by
    rcases hv with hv | hv | hv | hv | hv
    · exact h.execute_step (.inl hv)
    · exact h.execute_step (.inr (.inl hv))
    · exact h.execute_step (.inr (.inr (.inl hv)))
    · exact h.execute_step (.inr (.inr (.inr hv)))
    · exact h.pcValids0_step hv
  memory hv := by
    rcases hv with hv | hv | hv | hv
    · exact h.memory_step (.inl hv)
    · exact h.memory_step (.inr (.inl hv))
    · exact h.memory_step (.inr (.inr hv))
    · exact h.pcValids1_step hv
  pcValids1 hp := by
    obtain ⟨hact, hr, hp⟩ := nextPcValid_iff.mp hp
    refine nextPcValid_iff.mpr ⟨hact, hr, ?_⟩
    have hpc : s.pcValids0 = true := by
      split_ifs at hp
      · exact hp
      · exact h.pcValids1 hp
    simp [hpc]
  pcValids2 hp := by
    obtain ⟨hact, hr, hp⟩ := nextPcValid_iff.mp hp
    refine nextPcValid_iff.mpr ⟨hact, hr, ?_⟩
    have hpc : s.pcValids1 = true := by
      split_ifs at hp
      · exact hp
      · exact h.pcValids2 hp
    simp [hpc, h.pcValids1 hpc]
  legal hv := by
    rcases executeIsValid_step.mp hv with ⟨hmove, hd⟩ | ⟨-, hs, -, hx⟩
    · obtain ⟨hs, hr⟩ := decodeIsMoving_iff.mp hmove
      have hlegal : legalInstruction i.instruction = true := by
        simp only [decodeRemoveIt, decodeException, hd, Bool.or_eq_false_iff] at hr
        simpa using hr.1.1
      simpa [Cpu.step, executeIsStuck_eq_false hs] using hlegal
    · simpa [Cpu.step, hs] using h.legal hx

/-! ## Flushes -/

/-- **No flush** reaches a stage that holds an instruction, unless an instruction with a side
effect is in `writeBack`. -/
theorem Marks.not_isFlushed (h : Marks s) (hv : s.executeIsValid = true ∨ s.memoryIsValid = true)
    (hw : (s.writeBackIsValid && hasSideEffect s.writeBackInstruction) = false) :
    s.isFlushed i = false := by
  have hmem : (s.writeBackIsValid && memoryEnable s.writeBackInstruction) = false := by
    cases hm : memoryEnable s.writeBackInstruction with
    | false => simp
    | true => simpa [hasSideEffect_of_memoryEnable hm] using hw
  have hxret : s.writeBackXret = false := by
    by_contra hx
    simp only [writeBackXret, Bool.not_eq_false, Bool.and_eq_true, decide_eq_true_eq] at hx
    simp [hx.1, hasSideEffect_of_xret hx.2] at hw
  have htrap : s.trap i = false := by
    have hbusy : s.hadException = false ∧ s.pcValids2 = false := by
      rcases hv with hv | hv
      · constructor
        · by_contra hh
          simp [h.execute (.inr (.inr (.inr (.inl (by simpa using hh)))))] at hv
        · by_contra hp
          have hpc := h.pcValids1 (h.pcValids2 (by simpa using hp))
          simp [h.execute (.inr (.inr (.inr (.inr hpc))))] at hv
      · constructor
        · by_contra hh
          simp [h.memory (.inr (.inr (.inl (by simpa using hh))))] at hv
        · by_contra hp
          simp [h.memory (.inr (.inr (.inr (h.pcValids2 (by simpa using hp)))))] at hv
    simp [trap, interruptJump, pipelineLiberatorDone, hbusy.1, hbusy.2]
  simp [isFlushed, writeBackFlushNext, writeBackFlushIt, redoBranch, dBusException, hmem, hxret,
    htrap]

theorem not_writeBackIsStuck
    (hw : (s.writeBackIsValid && hasSideEffect s.writeBackInstruction) = false) :
    s.writeBackIsStuck i = false := by
  cases hm : memoryEnable s.writeBackInstruction with
  | false => simp [writeBackIsStuck, hm]
  | true =>
    rw [hasSideEffect_of_memoryEnable hm, Bool.and_true] at hw
    simp [writeBackIsStuck, hw]

end CfuPlayground.VexRiscv.Cpu
