import CfuPlayground.VexRiscv.Operands

/-!
# Results across the pipeline

What the registers between the stages hold of an instruction and its operands: `InMemory` in front
of the second half of the shifter, the divider and the adders of the multiplier, and `InWriteBack`
behind them. `Flow` says that every stage holds the results of operands that are the values of the
registers for the instruction there.

* `Flow.step`: every cycle without a stale command keeps it.
-/

namespace CfuPlayground.VexRiscv

open InstructionHandler (divisionResult funct3)

/-- `a` and `b` are the operands of `i`, as far as it reads registers. -/
structure Reads (value : BitVec 5 → Word → Prop) (i a b : Word) : Prop where
  rs1 : rs1Use i = true → value (rs1Field i) a
  rs2 : rs2Use i = true → value (rs2Field i) b

theorem Reads.mono {value value' : BitVec 5 → Word → Prop} {i a b : Word} (h : Reads value i a b)
    (hvalue : ∀ r v, value r v → value' r v) : Reads value' i a b :=
  ⟨fun hu => hvalue _ _ (h.rs1 hu), fun hu => hvalue _ _ (h.rs2 hu)⟩

namespace Core

/-- What `execute` has left of `i` with the operands `a` and `b`. -/
structure InMemory (i a b : Word) (d : Datapath) : Prop where
  integer : isCsr i = false →
    d.memoryWriteData = aluData i ((src1Ctrl i).value i a) ((src2Ctrl i).value i b d.memoryPc)
  right : d.memoryShiftRight =
    shiftRight i ((src1Ctrl i).value i a) ((src2Ctrl i).value i b d.memoryPc)
  products : d.memoryProducts = Multiplier.products i a b
  /-- The divider is at work, or has finished. -/
  division : isDiv i = true →
    (∃ k ≤ 32, Divider.Working i a b k d.divider) ∨ Divider.Finished i a b d.divider

/-- What `memory` has left of it. -/
structure InWriteBack (i a b : Word) (d : Datapath) (data : Word) : Prop where
  legal : legalInstruction i = true
  integer : isCsr i = false → isDiv i = false → cfuEnable i = false →
    data = integerData i a b d.writeBackPc
  division : isDiv i = true → data = divisionResult (funct3 i) a b
  sums : d.writeBackSums = Multiplier.sums (Multiplier.products i a b)

structure Flow (c : Core) : Prop where
  bypassing : Bypassing c
  execute : c.cpu.executeIsValid = true →
    Reads c.FromMemory c.cpu.executeInstruction c.cpu.executeRs1 c.cpu.executeRs2
  memory : c.cpu.memoryIsValid = true → ∃ a b, Reads c.FromWriteBack c.cpu.memoryInstruction a b ∧
    InMemory c.cpu.memoryInstruction a b c.data
  writeBack : c.cpu.writeBackIsValid = true → ∃ a b,
    Reads (fun r v => v = c.data.regFile r) c.cpu.writeBackInstruction a b ∧
      InWriteBack c.cpu.writeBackInstruction a b c.data c.cpu.writeBackData

variable {o : Outside} {c : Core} {a b : Word}

theorem flow_reset (h : c.AtReset) : Flow c where
  bypassing := bypassing_reset h
  execute hv := by simp [h.cpu.executeIsValid] at hv
  memory hv := by simp [h.cpu.memoryIsValid] at hv
  writeBack hv := by simp [h.cpu.writeBackIsValid] at hv

theorem Bypassing.not_booting (hc : Bypassing c) (hv : c.cpu.m2sPipeValid = true ∨
    c.cpu.executeIsValid = true ∨ c.cpu.memoryIsValid = true ∨ c.cpu.writeBackIsValid = true) :
    c.data.booting = false := by
  by_contra hn
  obtain ⟨-, hp, hx, hm, hw⟩ := hc.booting (by simpa using hn)
  simp [hp, hx, hm, hw] at hv

/-! ## From `decode` to `execute` -/

theorem srcHazard_of_moving (hmove : c.cpu.decodeIsMoving (c.wires o) = true)
    (hv : c.cpu.decodeIsValid (c.wires o) = true) : c.srcHazard = false := by
  obtain ⟨hs, -⟩ := Cpu.decodeIsMoving_iff.mp hmove
  have hwire : (c.wires o).srcHazard = c.srcHazard := rfl
  by_contra hn
  simp [Cpu.decodeIsStuck, Cpu.decodeHaltByOther, hv, hwire, hn] at hs

theorem hit_of_decodeIsValid (hv : c.cpu.decodeIsValid (c.wires o) = true) :
    c.cpu.m2sPipeValid = true ∧ c.data.decodeRsp = .hit := by
  simp only [Cpu.decodeIsValid, Bool.and_eq_true, decide_eq_true_eq] at hv
  obtain ⟨hp, hrsp⟩ := hv
  have hrsp : c.data.decodeRsp.iBusRsp o.readyForError = .hit := hrsp
  refine ⟨hp, ?_⟩
  cases hd : c.data.decodeRsp with
  | hit => rfl
  | cacheMiss => simp [hd, FetchRsp.iBusRsp] at hrsp
  | error => simp [hd, FetchRsp.iBusRsp] at hrsp

theorem Flow.execute_step (h : Flow c) (hv : (c.step o).cpu.executeIsValid = true) :
    Reads (c.step o).FromMemory (c.step o).cpu.executeInstruction (c.step o).cpu.executeRs1
      (c.step o).cpu.executeRs2 := by
  rcases Cpu.executeIsValid_step.mp hv with ⟨hmove, hd⟩ | ⟨-, hs, hr, hx⟩
  · obtain ⟨hp, hhit⟩ := hit_of_decodeIsValid hd
    have hboot := h.bypassing.not_booting (.inl hp)
    have hstuck : c.cpu.executeIsStuck (c.wires o) = false :=
      Cpu.executeIsStuck_eq_false (Cpu.decodeIsMoving_iff.mp hmove).1
    have hinst : (c.step o).cpu.executeInstruction = c.data.decodeInstruction :=
      if_neg (by simp [hstuck])
    have hrs1 : (c.step o).cpu.executeRs1 =
        c.decodeRs o (rs1Field c.data.decodeInstruction) c.data.rs1Data :=
      if_neg (by simp [hstuck])
    have hrs2 : (c.step o).cpu.executeRs2 =
        c.decodeRs o (rs2Field c.data.decodeInstruction) c.data.rs2Data :=
      if_neg (by simp [hstuck])
    have hhazard := srcHazard_of_moving hmove hd
    simp only [srcHazard, Bool.or_eq_false_iff] at hhazard
    obtain ⟨hport1, hport2⟩ := h.bypassing.port hp hhit
    rw [hinst, hrs1, hrs2]
    constructor
    · intro hu
      exact capture h.bypassing hboot hmove (by simpa [hu] using hhazard.1) hport1
    · intro hu
      exact capture h.bypassing hboot hmove (by simpa [hu] using hhazard.2) hport2
  · have hf : c.cpu.isFlushed (c.wires o) = false := by
      simp only [Cpu.executeRemoveIt, Bool.or_eq_false_iff] at hr
      exact hr.2
    have hboot := h.bypassing.not_booting (.inr (.inl hx))
    have hinst : (c.step o).cpu.executeInstruction = c.cpu.executeInstruction := if_pos hs
    have hrs1 : (c.step o).cpu.executeRs1 = c.cpu.executeRs1 := if_pos hs
    have hrs2 : (c.step o).cpu.executeRs2 = c.cpu.executeRs2 := if_pos hs
    rw [hinst, hrs1, hrs2]
    exact (h.execute hx).mono fun r v hr => hr.wait hf h.bypassing hboot hs

/-! ## From `execute` to `memory` -/

theorem inMemory_of_moving (hs : c.cpu.memoryIsStuck (c.wires o) = false) :
    InMemory c.cpu.executeInstruction c.cpu.executeRs1 c.cpu.executeRs2 (c.step o).data := by
  have hpc : (c.step o).data.memoryPc = c.data.executePc := if_neg (by simp [hs])
  have hdata : (c.step o).data.memoryWriteData = c.executeValue o := if_neg (by simp [hs])
  have hright : (c.step o).data.memoryShiftRight =
      shiftRight c.cpu.executeInstruction c.executeSrc1 c.executeSrc2 := if_neg (by simp [hs])
  have hproducts : (c.step o).data.memoryProducts =
      Multiplier.products c.cpu.executeInstruction c.cpu.executeRs1 c.cpu.executeRs2 :=
    if_neg (by simp [hs])
  have hdivider : (c.step o).data.divider =
      c.data.divider.load c.cpu.executeInstruction c.cpu.executeRs1 c.cpu.executeRs2 :=
    if_pos (by simp [hs])
  constructor
  · intro hcsr
    rw [hdata, hpc, executeValue, hcsr, Bool.and_false, if_neg Bool.false_ne_true]
    rfl
  · rw [hright, hpc]
    rfl
  · exact hproducts
  · intro hdiv
    rw [hdivider]
    exact .inl ⟨0, by decide, Divider.working_load hdiv⟩

/-- The divider goes on while its instruction waits. -/
theorem division_work {i : Word} {d : Divider} (hdiv : isDiv i = true)
    (h : (∃ k ≤ 32, Divider.Working i a b k d) ∨ Divider.Finished i a b d) :
    (∃ k ≤ 32, Divider.Working i a b k (d.work i)) ∨ Divider.Finished i a b (d.work i) := by
  rcases h with ⟨k, hk, hw⟩ | hf
  · rcases Nat.lt_or_ge k 32 with hlt | hge
    · exact .inl ⟨k + 1, hlt, hw.work hlt⟩
    · obtain rfl : k = 32 := by omega
      exact .inr (hw.finish hdiv)
  · right
    rw [hf.work]
    exact hf

theorem InMemory.wait (h : InMemory c.cpu.memoryInstruction a b c.data)
    (hv : c.cpu.memoryIsValid = true) (hs : c.cpu.memoryIsStuck (c.wires o) = true) :
    InMemory c.cpu.memoryInstruction a b (c.step o).data := by
  have hpc : (c.step o).data.memoryPc = c.data.memoryPc := if_pos hs
  have hdata : (c.step o).data.memoryWriteData = c.data.memoryWriteData := if_pos hs
  have hright : (c.step o).data.memoryShiftRight = c.data.memoryShiftRight := if_pos hs
  have hproducts : (c.step o).data.memoryProducts = c.data.memoryProducts := if_pos hs
  constructor
  · rw [hpc, hdata]
    exact h.integer
  · rw [hpc, hright]
    exact h.right
  · rw [hproducts]
    exact h.products
  · intro hdiv
    have hdivider : (c.step o).data.divider = c.data.divider.work c.cpu.memoryInstruction := by
      show c.data.divider.step (c.wires o) c.cpu = _
      simp [Divider.step, hs, hv, hdiv]
    rw [hdivider]
    exact division_work hdiv (h.division hdiv)

theorem Flow.memory_step (h : Flow c) (hv : (c.step o).cpu.memoryIsValid = true) :
    ∃ a b, Reads (c.step o).FromWriteBack (c.step o).cpu.memoryInstruction a b ∧
      InMemory (c.step o).cpu.memoryInstruction a b (c.step o).data := by
  rcases Cpu.memoryIsValid_step.mp hv with ⟨hmove, hx⟩ | ⟨-, hs, hr, hx⟩
  · obtain ⟨hes, her⟩ := Cpu.executeIsMoving_iff.mp hmove
    have hf : c.cpu.isFlushed (c.wires o) = false := by
      simp only [Cpu.executeRemoveIt, Bool.or_eq_false_iff] at her
      exact her.2
    have hms := Cpu.memoryIsStuck_eq_false hes
    have hboot := h.bypassing.not_booting (.inr (.inl hx))
    have hinst : (c.step o).cpu.memoryInstruction = c.cpu.executeInstruction :=
      if_neg (by simp [hms])
    rw [hinst]
    exact ⟨_, _, (h.execute hx).mono fun r v hr => hr.move hf h.bypassing hboot hms,
      inMemory_of_moving hms⟩
  · have hboot := h.bypassing.not_booting (.inr (.inr (.inl hx)))
    have hinst : (c.step o).cpu.memoryInstruction = c.cpu.memoryInstruction := if_pos hs
    obtain ⟨a, b, hreads, hin⟩ := h.memory hx
    rw [hinst]
    exact ⟨a, b, hreads.mono fun r v hv => hv.wait hr hboot hs, hin.wait hx hs⟩

/-! ## From `memory` to `writeBack` -/

theorem InMemory.memoryData (h : InMemory c.cpu.memoryInstruction a b c.data)
    (hv : c.cpu.memoryIsValid = true) (hcsr : isCsr c.cpu.memoryInstruction = false)
    (hdiv : isDiv c.cpu.memoryInstruction = false) :
    c.memoryData = integerData c.cpu.memoryInstruction a b c.data.memoryPc := by
  rw [Core.memoryData, hv, hdiv, Bool.and_false, if_neg Bool.false_ne_true, if_pos rfl,
    h.integer hcsr, h.right]
  rfl

/-- The divider has finished when `memory` leaves. -/
theorem InMemory.quotient (h : InMemory c.cpu.memoryInstruction a b c.data)
    (hv : c.cpu.memoryIsValid = true) (hdiv : isDiv c.cpu.memoryInstruction = true)
    (hs : c.cpu.memoryIsStuck (c.wires o) = false) :
    c.memoryData = divisionResult (funct3 c.cpu.memoryInstruction) a b := by
  have hwire : (c.wires o).divBusy = !c.data.divider.done := rfl
  have hdone : c.data.divider.done = true := by
    by_contra hn
    simp [Cpu.memoryIsStuck, Cpu.memoryHaltItself, hv, hdiv, hwire, hn] at hs
  rw [Core.memoryData, hv, hdiv, Bool.and_self, if_pos rfl]
  rcases h.division hdiv with ⟨k, -, hw⟩ | hf
  · simp [hw.done] at hdone
  · exact hf.result

theorem InMemory.move (h : InMemory c.cpu.memoryInstruction a b c.data) (hc : Bypassing c)
    (hv : c.cpu.memoryIsValid = true) (hs : c.cpu.memoryIsStuck (c.wires o) = false) :
    InWriteBack c.cpu.memoryInstruction a b (c.step o).data (c.memoryValue o) := by
  have hws := Cpu.writeBackIsStuck_eq_false hs
  have hpc : (c.step o).data.writeBackPc = c.data.memoryPc := if_neg (by simp [hws])
  have hsums : (c.step o).data.writeBackSums = Multiplier.sums c.data.memoryProducts :=
    if_neg (by simp [hws])
  have hinFlight := hc.sound.memory
  rw [hv, Bool.true_and] at hinFlight
  constructor
  · exact hc.legal hv
  · intro hcsr hdiv hcfu
    rw [memoryValue, hinFlight, hcfu, if_neg Bool.false_ne_true, hpc]
    exact h.memoryData hv hcsr hdiv
  · intro hdiv
    have hcfu : c.cpu.memoryCfuInFlight = false := by
      by_contra hn
      simp [(hc.sound.word (by simpa using hn)).isDiv] at hdiv
    rw [memoryValue, hcfu, if_neg Bool.false_ne_true]
    exact h.quotient hv hdiv hs
  · rw [hsums, h.products]

theorem Flow.writeBack_step (h : Flow c) (hv : (c.step o).cpu.writeBackIsValid = true) :
    ∃ a b, Reads (fun r v => v = (c.step o).data.regFile r) (c.step o).cpu.writeBackInstruction
      a b ∧ InWriteBack (c.step o).cpu.writeBackInstruction a b (c.step o).data
        (c.step o).cpu.writeBackData := by
  rcases Cpu.writeBackIsValid_step.mp hv with ⟨hmove, hx⟩ | ⟨-, hs, -, hx⟩
  · obtain ⟨hms, hf⟩ := Cpu.memoryIsMoving_iff.mp hmove
    have hws := Cpu.writeBackIsStuck_eq_false hms
    have hboot := h.bypassing.not_booting (.inr (.inr (.inl hx)))
    have hinst : (c.step o).cpu.writeBackInstruction = c.cpu.memoryInstruction :=
      if_neg (by simp [hws])
    have hdata : (c.step o).cpu.writeBackData = c.memoryValue o := if_neg (by simp [hws])
    obtain ⟨a, b, hreads, hin⟩ := h.memory hx
    rw [hinst, hdata]
    exact ⟨a, b, hreads.mono fun r v hr => hr.move hf hboot hws, hin.move h.bypassing hx hms⟩
  · have hboot := h.bypassing.not_booting (.inr (.inr (.inr hx)))
    have hinst : (c.step o).cpu.writeBackInstruction = c.cpu.writeBackInstruction := if_pos hs
    have hdata : (c.step o).cpu.writeBackData = c.cpu.writeBackData := if_pos hs
    have hpc : (c.step o).data.writeBackPc = c.data.writeBackPc := if_pos hs
    have hsums : (c.step o).data.writeBackSums = c.data.writeBackSums := if_pos hs
    obtain ⟨a, b, hreads, hin⟩ := h.writeBack hx
    rw [hinst, hdata]
    refine ⟨a, b, hreads.mono fun r v hr => hr.trans (regFile_stuck hboot hs r).symm, ?_⟩
    constructor
    · exact hin.legal
    · rw [hpc]
      exact hin.integer
    · exact hin.division
    · rw [hsums]
      exact hin.sums

/-- **Step lemma.** -/
theorem Flow.step (h : Flow c) (hstale : ¬ c.cpu.StaleTaken (c.wires o)) : Flow (c.step o) where
  bypassing := h.bypassing.step hstale
  execute := h.execute_step
  memory := h.memory_step
  writeBack := h.writeBack_step

end Core

end CfuPlayground.VexRiscv
