import CfuPlayground.ClockControl.Model
import CfuPlayground.AmaranthCfu.Handshake

/-!
# Clock control never splits a handshake

* `Joint`, `joint_tick`, `joint_run`: with the CFU clock off, the `Cfu` waits for a command.
* `cfu_states`: so a gated `Cfu` goes through the states of one that is always clocked, and the
  handshake of the `Cfu` holds of the composition.
* `clock_control`: both sides of every transfer have their clocks, so they record the same
  commands and the same responses.
-/

namespace CfuPlayground.ClockControl

open Lib AmaranthCfu

variable {κ τ ε : Type} {C : Cpu κ ε} {T : Instructions τ}

/-- The joint invariant of the two FSMs. -/
def Joint (s : System κ τ) : Prop := s.ctrl = .cpuEnabled → s.cfu.fsm = .waitCmd

theorem idle_of_not_cfuCen {s : System κ τ} (hJ : Joint s)
    (h : cfuCen (s.bus C T) s.ctrl = false) :
    s.cfu.fsm = .waitCmd ∧ (s.wires C T).cmdValid = false := by
  cases hc : s.ctrl with
  | cpuEnabled =>
    rw [hc] at h
    exact ⟨hJ hc, h⟩
  | cfuEnabled =>
    rw [hc] at h
    exact absurd h (by simp [cfuCen])

theorem cens_of_rspValid {s : System κ τ} (hJ : Joint s)
    (h : rspValid (s.wires C T) s.cfu = true) :
    cpuCen (s.bus C T) s.ctrl = true ∧ cfuCen (s.bus C T) s.ctrl = true := by
  constructor
  · cases s.ctrl with
    | cpuEnabled => rfl
    | cfuEnabled => simp [cpuCen, System.bus, h]
  · by_contra hn
    obtain ⟨hf, hv⟩ := idle_of_not_cfuCen hJ (by simpa using hn)
    simp [rspValid, checking, hf, hv] at h

theorem cens_of_cmdValid {s : System κ τ} (h : (s.wires C T).cmdValid = true) :
    cpuCen (s.bus C T) s.ctrl = true ∧ cfuCen (s.bus C T) s.ctrl = true := by
  cases s.ctrl <;> simp [cpuCen, cfuCen, System.bus, h]

theorem executing_of_not_cpuCen {s : System κ τ} (h : cpuCen (s.bus C T) s.ctrl = false) :
    cfuCen (s.bus C T) s.ctrl = true ∧ s.cfu.fsm = .waitInstruction ∧
      rspValid (s.wires C T) s.cfu = false := by
  cases hc : s.ctrl with
  | cpuEnabled => rw [hc] at h; cases h
  | cfuEnabled =>
    rw [hc] at h
    cases hv : rspValid (s.wires C T) s.cfu
    · refine ⟨rfl, ?_, rfl⟩
      cases hm : s.cfu.fsm with
      | waitCmd => simp [cpuCen, System.bus, cmdReady, hm] at h
      | waitInstruction => rfl
      | waitTransfer => simp [rspValid, hm] at hv
    · simp [cpuCen, System.bus, hv] at h

/-- **Step lemma.** The controller stops the CFU clock only when the `Cfu` stays idle. -/
theorem joint_tick (e : ε) (s : System κ τ) (hJ : Joint s) : Joint (s.tick C T e) := by
  intro hnext
  cases hc : s.ctrl with
  | cpuEnabled =>
    have hv : (s.bus C T).cmdValid = false := by
      cases hb : (s.bus C T).cmdValid
      · rfl
      · simp [System.tick, hc, nextFsm, hb] at hnext
    have hcen : cfuCen (s.bus C T) s.ctrl = false := by simp [hc, cfuCen, hv]
    simpa [System.tick, hcen] using hJ hc
  | cfuEnabled =>
    have hb : (s.bus C T).rspValid = false ∧ (s.bus C T).cmdValid = false ∧
        (s.bus C T).cmdReady = true := by
      by_contra hb
      simp only [System.tick, hc, nextFsm] at hnext
      split_ifs at hnext with h
      simp [and_assoc] at h
      exact hb h
    obtain ⟨-, hv, hr⟩ := hb
    have hf : s.cfu.fsm = .waitCmd := by simpa [System.bus, cmdReady] using hr
    have hv' : (s.wires C T).cmdValid = false := hv
    simp only [System.tick, hc, cfuCen, if_true]
    simp [next, hf, hv']

/-! ## Runs -/

variable (C T) (ext : ℕ → ε) (c : κ) (i : τ)

/-- The composition before cycle `t`. -/
def systems : ℕ → System κ τ := run (System.tick C T) ext (System.start c i)

/-- The wires into the `Cfu` in cycle `t`. -/
def ins (t : ℕ) : AmaranthCfu.In := (systems C T ext c i t).wires C T

/-- `cfu_cen` in cycle `t`. -/
def cfuCens (t : ℕ) : Bool :=
  cfuCen ((systems C T ext c i t).bus C T) (systems C T ext c i t).ctrl

/-- `cpu_cen` in cycle `t`. -/
def cpuCens (t : ℕ) : Bool :=
  cpuCen ((systems C T ext c i t).bus C T) (systems C T ext c i t).ctrl

/-- An event that a side with clock enable `cen` takes part in. -/
def seenBy {α : Type} (cen : ℕ → Bool) (event : ℕ → Option α) (t : ℕ) : Option α :=
  if cen t then event t else none

/-- The start/done contract of the instructions, in the composition: an instruction started at
an edge of its clock is done in that cycle or a later one. -/
def Contract : Prop :=
  ∀ t f, ((systems C T ext c i t).instructionIns C f).start = true →
    cfuCens C T ext c i t = true →
    ∃ d, t ≤ d ∧ ((ins C T ext c i d).instructions f).done = true

variable {C T ext c i}

/-- **Run lemma.** -/
theorem joint_run (t : ℕ) : Joint (systems C T ext c i t) :=
  run_invariant (fun _ => rfl) joint_tick t

/-- **The gated `Cfu` is the ungated one**: an edge it does not get would not move it. -/
theorem cfu_states (t : ℕ) : (systems C T ext c i t).cfu = states (ins C T ext c i) t := by
  induction t with
  | zero => rfl
  | succ t ih =>
    rw [states_succ, ← ih]
    have hstep : (systems C T ext c i (t + 1)).cfu =
        if cfuCens C T ext c i t then next (ins C T ext c i t) (systems C T ext c i t).cfu
        else (systems C T ext c i t).cfu := rfl
    rw [hstep]
    split_ifs with hcen
    · rfl
    · obtain ⟨hf, hv⟩ := idle_of_not_cfuCen (C := C) (T := T) (joint_run (C := C) (T := T) t)
        (by simpa [cfuCens] using hcen)
      have hv' : (ins C T ext c i t).cmdValid = false := hv
      simp [next, hf, hv']

theorem completes_of_contract (h : Contract C T ext c i) : Completes (ins C T ext c i) := by
  intro t f hs
  have hs' := (starts_iff _ _ _).mp hs
  refine h t f ?_ (cens_of_cmdValid hs'.1).2
  rw [← cfu_states] at hs
  exact hs

theorem cens_of_accepts {t : ℕ} {p : ℕ × Funct3} (h : accepts (ins C T ext c i) t = some p) :
    cpuCens C T ext c i t = true ∧ cfuCens C T ext c i t = true := by
  unfold accepts at h
  split_ifs at h with ha
  exact cens_of_cmdValid (Bool.and_eq_true_iff.mp ha).1

theorem cens_of_transfers {t : ℕ} {r : Word} (h : transfers (ins C T ext c i) t = some r) :
    cpuCens C T ext c i t = true ∧ cfuCens C T ext c i t = true := by
  unfold transfers at h
  split_ifs at h with ha
  rw [← cfu_states] at ha
  exact cens_of_rspValid (joint_run t) (Bool.and_eq_true_iff.mp ha).1

theorem log_seenBy {α : Type} {cen : ℕ → Bool} {event : ℕ → Option α}
    (h : ∀ t a, event t = some a → cen t = true) (t : ℕ) :
    log (seenBy cen event) t = log event t := by
  refine log_congr (fun n => ?_) t
  unfold seenBy
  cases he : event n with
  | none => simp
  | some a => rw [if_pos (h n a he)]

/-- With the CPU clock off, one accepted command is outstanding, and it is executing. -/
theorem outstanding_of_not_cpuCens {t : ℕ} (h : cpuCens C T ext c i t = false) :
    cfuCens C T ext c i t = true ∧ (systems C T ext c i t).cfu.fsm = .waitInstruction ∧
      (log (accepts (ins C T ext c i)) t).length =
        (log (transfers (ins C T ext c i)) t).length + 1 := by
  obtain ⟨hcen, hf, -⟩ := executing_of_not_cpuCen h
  refine ⟨hcen, hf, ?_⟩
  obtain ⟨A, hA, hO⟩ := inv_run (ins C T ext c i) t
  have hf' : (states (ins C T ext c i) t).fsm = .waitInstruction := by rw [← cfu_states, hf]
  simp only [Outstanding, hf'] at hO
  obtain ⟨a, hlog, -⟩ := hO
  rw [hlog, ← hA.length_eq, List.length_append]
  rfl

/-- **Clock control never splits a handshake.** For every CPU, every table of instructions that
keep the start/done contract and every run from reset: both clocks run at every transfer on
either channel; the CPU clock stops only while an accepted command executes, with the CFU clock
on; the CFU clock stops only with the `Cfu` in `WAIT_CMD` and no command offered; so each side
sees the same commands and the same responses, and the responses answer the commands one to
one, in order. -/
theorem clock_control (C : Cpu κ ε) (T : Instructions τ) (ext : ℕ → ε) (c : κ) (i : τ)
    (hcontract : Contract C T ext c i) :
    (∀ t, ((systems C T ext c i t).bus C T).cmdValid = true →
      ((systems C T ext c i t).bus C T).cmdReady = true →
      cpuCens C T ext c i t = true ∧ cfuCens C T ext c i t = true) ∧
    (∀ t, ((systems C T ext c i t).bus C T).rspValid = true →
      ((systems C T ext c i t).bus C T).rspReady = true →
      cpuCens C T ext c i t = true ∧ cfuCens C T ext c i t = true) ∧
    (∀ t, cpuCens C T ext c i t = false →
      cfuCens C T ext c i t = true ∧ (systems C T ext c i t).cfu.fsm = .waitInstruction ∧
      (log (accepts (ins C T ext c i)) t).length =
        (log (transfers (ins C T ext c i)) t).length + 1) ∧
    (∀ t, cfuCens C T ext c i t = false →
      (systems C T ext c i t).cfu.fsm = .waitCmd ∧
      ((systems C T ext c i t).bus C T).cmdValid = false) ∧
    (∀ t, log (seenBy (cpuCens C T ext c i) (accepts (ins C T ext c i))) t =
        log (seenBy (cfuCens C T ext c i) (accepts (ins C T ext c i))) t ∧
      log (seenBy (cpuCens C T ext c i) (transfers (ins C T ext c i))) t =
        log (seenBy (cfuCens C T ext c i) (transfers (ins C T ext c i))) t) ∧
    (∀ t, List.Forall₂ (Answers (ins C T ext c i))
        ((log (accepts (ins C T ext c i)) t).take (log (transfers (ins C T ext c i)) t).length)
        (log (transfers (ins C T ext c i)) t) ∧
      (log (transfers (ins C T ext c i)) t).length ≤ (log (accepts (ins C T ext c i)) t).length ∧
      (log (accepts (ins C T ext c i)) t).length ≤
        (log (transfers (ins C T ext c i)) t).length + 1) ∧
    ((Infinitely fun t => (ins C T ext c i t).rspReady = true) → ∀ t, ∃ m, t ≤ m ∧
      (log (accepts (ins C T ext c i)) t).length ≤
        (log (transfers (ins C T ext c i)) m).length) := by
  refine ⟨fun t hv _ => cens_of_cmdValid hv, fun t hv _ => cens_of_rspValid (joint_run t) hv,
    fun t h => outstanding_of_not_cpuCens h,
    fun t h => idle_of_not_cfuCen (joint_run t) h, fun t => ⟨?_, ?_⟩, fun t => ?_,
    fun hready => transfers_of_accepts (completes_of_contract hcontract) hready⟩
  · rw [log_seenBy fun n a h => (cens_of_accepts h).1, log_seenBy fun n a h => (cens_of_accepts h).2]
  · rw [log_seenBy fun n a h => (cens_of_transfers h).1,
      log_seenBy fun n a h => (cens_of_transfers h).2]
  · obtain ⟨h1, h2, h3, -⟩ := inv_lengths (ins C T ext c i) t
    exact ⟨h1, h2, h3⟩

/-- A CPU that issues instruction 3 once. -/
def onceCpu : Cpu Bool Unit where
  out issued := ⟨!issued, 3, 40, 2, true⟩
  next cmdReady _ _ _ issued := issued || cmdReady

/-- Instruction 3 is done at the third edge of its clock. -/
def thirdEdge : Instructions ℕ where
  out _ k f := if f = 3 then some ⟨k = 2, 42⟩ else none
  next _ k := k + 1

theorem onceCpu_tick {s : System Bool ℕ} (h : s.cpu = true) :
    (s.tick onceCpu thirdEdge ()).cpu = true := by
  simp only [System.tick, h]
  split_ifs <;> rfl

theorem contract_onceCpu : Contract onceCpu thirdEdge (fun _ => ()) false 0 := by
  have hissued : ∀ t, (systems onceCpu thirdEdge (fun _ => ()) false 0 (t + 1)).cpu = true := by
    intro t
    induction t with
    | zero => rfl
    | succ t ih => exact onceCpu_tick ih
  intro t f hs _
  cases t with
  | zero =>
    have hf : f = 3 := by
      revert f
      decide
    subst hf
    exact ⟨2, by omega, by decide⟩
  | succ t =>
    have hv : (onceCpu.out (systems onceCpu thirdEdge (fun _ => ()) false 0 (t + 1)).cpu).cmdValid
        = false := by rw [hissued t]; rfl
    simp [System.instructionIns, instructionIn, instructionStarts, hv] at hs

theorem clock_control_onceCpu :
    cpuCens onceCpu thirdEdge (fun _ => ()) false 0 1 = false ∧
      (systems onceCpu thirdEdge (fun _ => ()) false 0 1).cfu.fsm = .waitInstruction :=
  have h : cpuCens onceCpu thirdEdge (fun _ => ()) false 0 1 = false := by decide
  ⟨h, ((clock_control onceCpu thirdEdge (fun _ => ()) false 0 contract_onceCpu).2.2.1 1 h).2.1⟩

end CfuPlayground.ClockControl
