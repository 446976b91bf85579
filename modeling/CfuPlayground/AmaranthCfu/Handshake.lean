import CfuPlayground.AmaranthCfu.Model

/-!
# The handshake of the Amaranth `Cfu`

* `accepts`, `transfers`: the two channels, cycle by cycle; an accepted command is recorded
  with its cycle.
* `Answers ins p r`: `r` is the output of the instruction of `p` at its first done cycle.
* `Inv`, `inv_succ`, `inv_run`: one command at most is outstanding, and every response taken so
  far answers its command.
* `Completes`: the start/done contract; under it every response comes (`respond_of_pending`).
-/

namespace CfuPlayground.AmaranthCfu

open Lib

variable (ins : ℕ → In)

/-- The registers before cycle `t`, from reset. -/
def states : ℕ → State := run next ins {}

theorem states_succ (t : ℕ) : states ins (t + 1) = next (ins t) (states ins t) := rfl

/-- The command accepted in cycle `t`: the cycle and the instruction number. -/
def accepts (t : ℕ) : Option (ℕ × Funct3) :=
  if (ins t).cmdValid && cmdReady (states ins t) then some (t, (ins t).funct3) else none

/-- The response taken in cycle `t`. -/
def transfers (t : ℕ) : Option Word :=
  if rspValid (ins t) (states ins t) && (ins t).rspReady then
    some (rspOut (ins t) (states ins t))
  else none

/-- Instruction `f` shows `done` in cycle `d`, for the first time from cycle `a` on. -/
def FirstDone (a : ℕ) (f : Funct3) (d : ℕ) : Prop :=
  a ≤ d ∧ ((ins d).instructions f).done = true ∧
    ∀ k, a ≤ k → k < d → ((ins k).instructions f).done = false

/-- `r` is what the instruction accepted as `p` shows at its first done cycle. -/
def Answers (p : ℕ × Funct3) (r : Word) : Prop :=
  ∃ d, FirstDone ins p.1 p.2 d ∧ r = ((ins d).instructions p.2).output

/-- The start/done contract: a started instruction is done in that cycle or a later one. -/
def Completes : Prop :=
  ∀ t f, instructionStarts (ins t) (states ins t) f = true →
    ∃ d, t ≤ d ∧ ((ins d).instructions f).done = true

/-- What the registers say about the commands accepted before cycle `t`. `A` are the answered
ones. -/
def Outstanding (t : ℕ) (s : State) (A : List (ℕ × Funct3)) : Prop :=
  match s.fsm with
  | .waitCmd => log (accepts ins) t = A
  | .waitInstruction => ∃ a, log (accepts ins) t = A ++ [(a, s.storedFunctionId)] ∧
      instructionStarts (ins a) (states ins a) s.storedFunctionId = true ∧ a < t ∧
      ∀ k, a ≤ k → k < t → ((ins k).instructions s.storedFunctionId).done = false
  | .waitTransfer => ∃ p, log (accepts ins) t = A ++ [p] ∧ Answers ins p s.storedOutput

/-- The invariant of the handshake. -/
def Inv (t : ℕ) : Prop :=
  ∃ A, List.Forall₂ (Answers ins) A (log (transfers ins) t) ∧ Outstanding ins t (states ins t) A

variable {ins}

theorem inv_zero : Inv ins 0 := ⟨[], List.Forall₂.nil, rfl⟩

theorem starts_iff (i : In) (s : State) (f : Funct3) :
    instructionStarts i s f = true ↔
      i.cmdValid = true ∧ cmdReady s = true ∧ f = i.funct3 := by
  rcases s with ⟨fsm, _, _⟩
  cases fsm <;> simp [instructionStarts, cmdReady, currentFunctionId]

theorem next_of_checking {i : In} {s : State} (hc : checking i s = true) :
    next i s = { checkInstructionDone i s with storedFunctionId := currentFunctionId i s } := by
  rcases s with ⟨fsm, f, r⟩
  cases fsm with
  | waitCmd =>
    have hv : i.cmdValid = true := hc
    simp [next, hv, currentFunctionId]
  | waitInstruction =>
    simp only [next, currentFunctionId, checkInstructionDone]
    split_ifs <;> rfl
  | waitTransfer => cases hc

theorem rsp_of_checking {i : In} {s : State} (hc : checking i s = true) :
    rspValid i s = (current i s).done ∧
      ((current i s).done = true → rspOut i s = (current i s).output) := by
  rcases s with ⟨fsm, f, r⟩
  cases fsm with
  | waitTransfer => cases hc
  | waitCmd | waitInstruction => constructor <;> simp +contextual [rspValid, rspOut, hc]

theorem answers_of_none {t : ℕ} {A : List (ℕ × Funct3)}
    (hA : List.Forall₂ (Answers ins) A (log (transfers ins) t)) (htr : transfers ins t = none) :
    List.Forall₂ (Answers ins) A (log (transfers ins) (t + 1)) := by
  simpa [log_succ, htr] using hA

theorem answers_of_some {t : ℕ} {A : List (ℕ × Funct3)} {p : ℕ × Funct3} {r : Word}
    (hA : List.Forall₂ (Answers ins) A (log (transfers ins) t)) (hans : Answers ins p r)
    (htr : transfers ins t = some r) :
    List.Forall₂ (Answers ins) (A ++ [p]) (log (transfers ins) (t + 1)) := by
  rw [log_succ, htr]
  exact List.rel_append hA (List.Forall₂.cons hans List.Forall₂.nil)

/-- **A cycle in which an instruction runs** keeps the invariant: the instruction is the one of
the command `p`, accepted in this cycle or before and not done before this cycle. -/
theorem inv_of_checking {t : ℕ} {A : List (ℕ × Funct3)} {p : ℕ × Funct3}
    (hA : List.Forall₂ (Answers ins) A (log (transfers ins) t))
    (hc : checking (ins t) (states ins t) = true)
    (hp : currentFunctionId (ins t) (states ins t) = p.2)
    (hlog : log (accepts ins) (t + 1) = A ++ [p])
    (hstart : instructionStarts (ins p.1) (states ins p.1) p.2 = true) (hle : p.1 ≤ t)
    (hnot : ∀ k, p.1 ≤ k → k < t → ((ins k).instructions p.2).done = false) :
    Inv ins (t + 1) := by
  obtain ⟨hv, ho⟩ := rsp_of_checking hc
  have hnext : states ins (t + 1) =
      { checkInstructionDone (ins t) (states ins t) with storedFunctionId := p.2 } := by
    rw [states_succ, next_of_checking hc, hp]
  have hcur : current (ins t) (states ins t) = (ins t).instructions p.2 := by
    rw [current, hp]
  rw [hcur] at hv ho
  by_cases hd : ((ins t).instructions p.2).done = true
  · have hans : Answers ins p ((ins t).instructions p.2).output := ⟨t, ⟨hle, hd, hnot⟩, rfl⟩
    cases hr : (ins t).rspReady
    · have htr : transfers ins t = none := by simp [transfers, hr]
      refine ⟨A, answers_of_none hA htr, ?_⟩
      rw [hnext]
      simp only [Outstanding, checkInstructionDone, hcur, hd, hr, if_true, Bool.false_eq_true,
        if_false]
      exact ⟨p, hlog, hans⟩
    · have htr : transfers ins t = some ((ins t).instructions p.2).output := by
        simp [transfers, hr, hv, hd, ho hd]
      refine ⟨A ++ [p], answers_of_some hA hans htr, ?_⟩
      rw [hnext]
      simp only [Outstanding, checkInstructionDone, hcur, hd, hr, if_true]
      exact hlog
  · have htr : transfers ins t = none := by simp [transfers, hv, hd]
    refine ⟨A, answers_of_none hA htr, ?_⟩
    rw [hnext]
    simp only [Outstanding, checkInstructionDone, hcur, hd, if_false, Bool.false_eq_true]
    refine ⟨p.1, hlog, hstart, by omega, fun k h1 h2 => ?_⟩
    rcases Nat.lt_succ_iff_lt_or_eq.mp h2 with h | rfl
    · exact hnot k h1 h
    · simpa using hd

/-- **Step lemma.** Every cycle keeps the invariant. -/
theorem inv_succ {t : ℕ} (h : Inv ins t) : Inv ins (t + 1) := by
  obtain ⟨A, hA, hO⟩ := h
  rcases hs : states ins t with ⟨fsm, f, r⟩
  rw [hs] at hO
  cases fsm with
  | waitCmd =>
    replace hO : log (accepts ins) t = A := hO
    cases hv : (ins t).cmdValid
    · have hacc : accepts ins t = none := by simp [accepts, hv]
      have htr : transfers ins t = none := by simp [transfers, rspValid, checking, hs, hv]
      have hnext : states ins (t + 1) = ⟨.waitCmd, f, r⟩ := by
        rw [states_succ, hs]; simp [next, hv]
      refine ⟨A, answers_of_none hA htr, ?_⟩
      rw [hnext]
      simp [Outstanding, log_succ, hacc, hO]
    · have hacc : accepts ins t = some (t, (ins t).funct3) := by
        simp [accepts, hv, hs, cmdReady]
      refine inv_of_checking (p := (t, (ins t).funct3)) hA (by simp [hs, checking, hv])
        (by simp [hs, currentFunctionId]) (by simp [log_succ, hacc, hO]) ?_ le_rfl
        fun k h1 h2 => by omega
      exact (starts_iff _ _ _).mpr ⟨hv, by simp [hs, cmdReady], rfl⟩
  | waitInstruction =>
    obtain ⟨a, hlog, hstart, hlt, hnot⟩ := hO
    have hacc : accepts ins t = none := by simp [accepts, hs, cmdReady]
    exact inv_of_checking (p := (a, f)) hA (by simp [hs, checking])
      (by simp [hs, currentFunctionId]) (by simp [log_succ, hacc, hlog]) hstart hlt.le hnot
  | waitTransfer =>
    obtain ⟨p, hlog, hans⟩ := hO
    have hacc : accepts ins t = none := by simp [accepts, hs, cmdReady]
    cases hr : (ins t).rspReady
    · have htr : transfers ins t = none := by simp [transfers, hr]
      have hnext : states ins (t + 1) = ⟨.waitTransfer, f, r⟩ := by
        rw [states_succ, hs]; simp [next, hr]
      refine ⟨A, answers_of_none hA htr, ?_⟩
      rw [hnext]
      exact ⟨p, by simpa [log_succ, hacc] using hlog, hans⟩
    · have htr : transfers ins t = some r := by simp [transfers, rspValid, rspOut, hs, hr]
      have hnext : states ins (t + 1) = ⟨.waitCmd, f, r⟩ := by
        rw [states_succ, hs]; simp [next, hr]
      refine ⟨A ++ [p], answers_of_some hA hans htr, ?_⟩
      rw [hnext]
      simpa [Outstanding, log_succ, hacc] using hlog

/-- **Run lemma.** -/
theorem inv_run (ins : ℕ → In) : ∀ t, Inv ins t
  | 0 => inv_zero
  | t + 1 => inv_succ (inv_run ins t)

/-! ## Consequences for the channels -/

/-- The responses taken answer the commands accepted first, one command at most is
outstanding, and none is when a command can be accepted. -/
theorem inv_lengths (ins : ℕ → In) (t : ℕ) :
    List.Forall₂ (Answers ins) ((log (accepts ins) t).take (log (transfers ins) t).length)
        (log (transfers ins) t) ∧
      (log (transfers ins) t).length ≤ (log (accepts ins) t).length ∧
      (log (accepts ins) t).length ≤ (log (transfers ins) t).length + 1 ∧
      (cmdReady (states ins t) = true →
        (log (accepts ins) t).length = (log (transfers ins) t).length) := by
  obtain ⟨A, hA, hO⟩ := inv_run ins t
  have hB : ∃ B, log (accepts ins) t = A ++ B ∧ B.length ≤ 1 ∧
      (cmdReady (states ins t) = true → B = []) := by
    rcases hs : states ins t with ⟨fsm, f, r⟩
    rw [hs] at hO
    cases fsm with
    | waitCmd => exact ⟨[], by rw [List.append_nil]; exact hO, by simp, fun _ => rfl⟩
    | waitInstruction =>
      obtain ⟨a, hlog, -⟩ := hO
      exact ⟨_, hlog, by simp, by simp [cmdReady]⟩
    | waitTransfer =>
      obtain ⟨p, hlog, -⟩ := hO
      exact ⟨_, hlog, by simp, by simp [cmdReady]⟩
  obtain ⟨B, hlog, h1, h0⟩ := hB
  have hlen := hA.length_eq
  refine ⟨?_, ?_, ?_, fun hready => ?_⟩
  · rw [hlog, ← hlen, List.take_left]
    exact hA
  · rw [hlog, List.length_append]
    omega
  · rw [hlog, List.length_append]
    omega
  · rw [hlog, h0 hready, List.append_nil, hlen]

/-- **A response waits.** Until it is taken, `rsp_valid` and `rsp_out` do not move. -/
theorem rsp_stable {t : ℕ} (hv : rspValid (ins t) (states ins t) = true)
    (hr : (ins t).rspReady = false) :
    states ins (t + 1) = ⟨.waitTransfer, (states ins (t + 1)).storedFunctionId,
      rspOut (ins t) (states ins t)⟩ := by
  by_cases hc : checking (ins t) (states ins t) = true
  · obtain ⟨hd, ho⟩ := rsp_of_checking hc
    rw [hv] at hd
    rw [states_succ, next_of_checking hc, ho hd.symm]
    simp [checkInstructionDone, ← hd, hr]
  · rcases hs : states ins t with ⟨fsm, f, r⟩
    rw [hs] at hv hc
    cases fsm with
    | waitCmd => simp [rspValid, hc] at hv
    | waitInstruction => exact absurd rfl hc
    | waitTransfer =>
      rw [states_succ, hs]
      simp [next, hr, rspOut]

theorem transfers_of_rspValid {t m : ℕ} (hv : rspValid (ins t) (states ins t) = true)
    (hm : t ≤ m) (hr : (ins m).rspReady = true)
    (hnot : ∀ k, t ≤ k → k < m → ¬ (ins k).rspReady = true) :
    transfers ins m = some (rspOut (ins t) (states ins t)) := by
  have hkeep := keep_until (n := t) (m := m) (q := fun k => (ins k).rspReady = true)
    (P := fun k => rspValid (ins k) (states ins k) = true ∧
      rspOut (ins k) (states ins k) = rspOut (ins t) (states ins t))
    ⟨hv, rfl⟩ (fun k _ _ hk hq => ?_) hm hnot
  · simp [transfers, hkeep.1, hkeep.2, hr]
  · rw [rsp_stable hk.1 (by simpa using hq)]
    refine ⟨by simp [rspValid], ?_⟩
    rw [← hk.2]
    rfl

theorem waiting_until {t d : ℕ} {f : Funct3} (hd : t ≤ d)
    (hs : (states ins t).fsm = .waitInstruction ∧ (states ins t).storedFunctionId = f)
    (hnot : ∀ k, t ≤ k → k < d → ¬ ((ins k).instructions f).done = true) :
    (states ins d).fsm = .waitInstruction ∧ (states ins d).storedFunctionId = f := by
  refine keep_until (P := fun k => (states ins k).fsm = .waitInstruction ∧
    (states ins k).storedFunctionId = f) hs (fun k _ _ hk hq => ?_) hd hnot
  rw [states_succ]
  simp [next, hk.1, hk.2, checkInstructionDone, current, currentFunctionId, hq]

theorem rsp_of_done {d : ℕ} {f : Funct3}
    (hs : (states ins d).fsm = .waitInstruction ∧ (states ins d).storedFunctionId = f)
    (hd : ((ins d).instructions f).done = true) :
    rspValid (ins d) (states ins d) = true ∧
      rspOut (ins d) (states ins d) = ((ins d).instructions f).output := by
  simp [rspValid, rspOut, checking, current, currentFunctionId, hs.1, hs.2, hd]

/-- Between two cycles the logs only grow; a transfer in between makes the second longer. -/
theorem length_transfers_lt {t m : ℕ} {r : Word} (hm : t ≤ m) (h : transfers ins m = some r) :
    (log (transfers ins) t).length + 1 ≤ (log (transfers ins) (m + 1)).length := by
  have := (log_mono (transfers ins) hm).length_le
  rw [log_succ, h]
  simpa using this

theorem respond_of_pending (hdone : Completes ins) {t : ℕ}
    (h : (states ins t).fsm ≠ .waitCmd) :
    ∃ d, t ≤ d ∧ rspValid (ins d) (states ins d) = true := by
  obtain ⟨A, -, hO⟩ := inv_run ins t
  rcases hs : states ins t with ⟨fsm, f, r⟩
  rw [hs] at hO h
  cases fsm with
  | waitCmd => exact absurd rfl h
  | waitInstruction =>
    obtain ⟨a, -, hstart, hlt, hnot⟩ := hO
    obtain ⟨e, hae, he⟩ := hdone a f hstart
    have hte : t ≤ e := by
      by_contra hlt'
      have := hnot e hae (by omega)
      simp [he] at this
    obtain ⟨d, htd, hd, hfirst⟩ := exists_first
      (q := fun k => ((ins k).instructions f).done = true) ⟨e, hte, he⟩
    exact ⟨d, htd, (rsp_of_done (waiting_until htd (by simp [hs]) hfirst) hd).1⟩
  | waitTransfer => exact ⟨t, le_rfl, by simp [rspValid, hs]⟩

/-- **The response appears at the first done cycle** of the accepted command, not before. -/
theorem respond_at_firstDone (hdone : Completes ins) {t : ℕ} {p : ℕ × Funct3}
    (h : accepts ins t = some p) :
    ∃ d, FirstDone ins p.1 p.2 d ∧ rspValid (ins d) (states ins d) = true ∧
      rspOut (ins d) (states ins d) = ((ins d).instructions p.2).output ∧
      ∀ k, t ≤ k → k < d → rspValid (ins k) (states ins k) = false := by
  unfold accepts at h
  split_ifs at h with hacc
  cases h
  obtain ⟨hv, hready⟩ := Bool.and_eq_true_iff.mp hacc
  have hfsm : (states ins t).fsm = .waitCmd := by simpa [cmdReady] using hready
  have hc : checking (ins t) (states ins t) = true := by simp [checking, hfsm, hv]
  have hcur : current (ins t) (states ins t) = (ins t).instructions (ins t).funct3 := by
    simp [current, currentFunctionId, hfsm]
  obtain ⟨hval, hout⟩ := rsp_of_checking hc
  rw [hcur] at hval hout
  obtain ⟨d, htd, hd, hfirst⟩ := exists_first
    (hdone t (ins t).funct3 ((starts_iff _ _ _).mpr ⟨hv, hready, rfl⟩))
  have hF : FirstDone ins t (ins t).funct3 d :=
    ⟨htd, hd, fun k h1 h2 => by simpa using hfirst k h1 h2⟩
  rcases Nat.eq_or_lt_of_le htd with rfl | hlt
  · exact ⟨t, hF, by rw [hval, hd], hout hd, fun k h1 h2 => by omega⟩
  · have hnd := hfirst t le_rfl hlt
    have hnext : (states ins (t + 1)).fsm = .waitInstruction ∧
        (states ins (t + 1)).storedFunctionId = (ins t).funct3 := by
      rw [states_succ, next_of_checking hc]
      simp [checkInstructionDone, hcur, hnd, currentFunctionId, hfsm]
    have hwait : ∀ k, t + 1 ≤ k → k ≤ d → _ := fun k h1 h2 =>
      waiting_until h1 hnext fun j hj1 hj2 => hfirst j (by omega) (by omega)
    obtain ⟨hvd, hod⟩ := rsp_of_done (hwait d hlt le_rfl) hd
    refine ⟨d, hF, hvd, hod, fun k h1 h2 => ?_⟩
    rcases Nat.eq_or_lt_of_le h1 with rfl | hk
    · rw [hval]; simpa using hnd
    · obtain ⟨hf1, hf2⟩ := hwait k hk h2.le
      have := hfirst k h1 h2
      simp [rspValid, checking, current, currentFunctionId, hf1, hf2, this]

theorem transfers_of_accepts (hdone : Completes ins)
    (hready : Infinitely fun t => (ins t).rspReady = true) (t : ℕ) :
    ∃ m, t ≤ m ∧ (log (accepts ins) t).length ≤ (log (transfers ins) m).length := by
  obtain ⟨-, -, hle, heq⟩ := inv_lengths ins t
  by_cases hs : (states ins t).fsm = .waitCmd
  · exact ⟨t, le_rfl, (heq (by simp [cmdReady, hs])).le⟩
  · obtain ⟨d, htd, hv⟩ := respond_of_pending hdone hs
    obtain ⟨m, hdm, hr, hfirst⟩ := exists_first (hready d)
    have := length_transfers_lt (htd.trans hdm) (transfers_of_rspValid hv hdm hr hfirst)
    exact ⟨m + 1, by omega, by omega⟩

/-- **The handshake of the Amaranth `Cfu`**, in every run from reset whose instructions keep
the start/done contract: `start` is pulsed exactly at the accepting cycle and only to the
numbered instruction; responses answer accepted commands one to one, in order, each with the
output shown at the first done cycle; a waiting response does not change; no command is
accepted while one is outstanding. -/
theorem cfu_handshake (ins : ℕ → In) (hdone : Completes ins) :
    (∀ t f, instructionStarts (ins t) (states ins t) f = true ↔
      (ins t).cmdValid = true ∧ cmdReady (states ins t) = true ∧ f = (ins t).funct3) ∧
    (∀ t, List.Forall₂ (Answers ins)
      ((log (accepts ins) t).take (log (transfers ins) t).length) (log (transfers ins) t)) ∧
    (∀ t, (log (transfers ins) t).length ≤ (log (accepts ins) t).length ∧
      (log (accepts ins) t).length ≤ (log (transfers ins) t).length + 1) ∧
    (∀ t p, accepts ins t = some p →
      (log (accepts ins) t).length = (log (transfers ins) t).length) ∧
    (∀ t p, accepts ins t = some p → ∃ d, FirstDone ins p.1 p.2 d ∧
      rspValid (ins d) (states ins d) = true ∧
      rspOut (ins d) (states ins d) = ((ins d).instructions p.2).output ∧
      ∀ k, t ≤ k → k < d → rspValid (ins k) (states ins k) = false) ∧
    (∀ t, rspValid (ins t) (states ins t) = true → (ins t).rspReady = false →
      rspValid (ins (t + 1)) (states ins (t + 1)) = true ∧
      rspOut (ins (t + 1)) (states ins (t + 1)) = rspOut (ins t) (states ins t)) ∧
    ((Infinitely fun t => (ins t).rspReady = true) → ∀ t, ∃ m, t ≤ m ∧
      (log (accepts ins) t).length ≤ (log (transfers ins) m).length) := by
  refine ⟨fun t f => starts_iff _ _ _, fun t => (inv_lengths ins t).1,
    fun t => ⟨(inv_lengths ins t).2.1, (inv_lengths ins t).2.2.1⟩, fun t p h => ?_,
    fun t p h => respond_at_firstDone hdone h, fun t hv hr => ?_,
    fun hready => transfers_of_accepts hdone hready⟩
  · refine (inv_lengths ins t).2.2.2 ?_
    unfold accepts at h
    split_ifs at h with hacc
    exact (Bool.and_eq_true_iff.mp hacc).2
  · rw [rsp_stable hv hr]
    exact ⟨by simp [rspValid], by simp [rspOut]⟩

/-- Instruction 3 is done in every fifth cycle, the others are fallbacks; the CPU always offers
a command and is ready in every second cycle. -/
def slowIns (t : ℕ) : In where
  cmdValid := true
  cmdFunctionId := BitVec.ofNat 10 (t + 3)
  cmdIn0 := BitVec.ofNat 32 t
  cmdIn1 := 0
  rspReady := t % 2 = 0
  instructionDict := fun f => if f = 3 then some ⟨t % 5 = 3, BitVec.ofNat 32 (100 + t)⟩ else none

theorem completes_slowIns : Completes slowIns := fun t f _ => by
  by_cases hf : f = 3
  · exact ⟨5 * t + 3, by omega, by simp [In.instructions, slowIns, hf]⟩
  · have hdict : (slowIns t).instructionDict f = none := if_neg hf
    refine ⟨t, le_rfl, ?_⟩
    rw [In.instructions, hdict]
    rfl

theorem cfu_handshake_slowIns :
    log (transfers slowIns) 8 = [103, 5] ∧
      List.Forall₂ (Answers slowIns)
        ((log (accepts slowIns) 8).take (log (transfers slowIns) 8).length)
        (log (transfers slowIns) 8) :=
  ⟨by decide, (cfu_handshake slowIns completes_slowIns).2.1 8⟩

end CfuPlayground.AmaranthCfu
