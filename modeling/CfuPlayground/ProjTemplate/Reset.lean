import CfuPlayground.ProjTemplate.Model

/-!
# Reset in the middle of a fetch

A run is any order of clock edges and rising edges of `reset`, with any wires at each. `cyc` and
`stb` are written only at falling edges with a command and without `reset`. So the bus stays
requested if `reset`, or a client that withdraws its command, takes the FSM past the falling edge
of `EXEC_1_ADD` (`Uncut`, `quiet_step`).
-/

namespace CfuPlayground.ProjTemplate

open Lib (run run_succ)

/-- An edge, with the wires at it. -/
inductive Edge
  | posedge (i : In)
  | negedge (i : In)
  | reset (i : In)

/-- What an edge does to the registers. -/
def step : Edge → State → State
  | .posedge i, s => posedgeClk i s
  | .negedge i, s => negedgeClk i s
  | .reset i, s => cfu.posedgeReset i s

/-- A clock edge with `reset` low and no command. -/
def Edge.idle : Edge → Bool
  | .posedge i => !i.reset && !i.cmdValid
  | .negedge i => !i.reset && !i.cmdValid
  | .reset _ => false

def Edge.isPosedge : Edge → Bool
  | .posedge _ => true
  | _ => false

def Edge.isNegedge : Edge → Bool
  | .negedge _ => true
  | _ => false

variable (edges : ℕ → Edge)

/-- The registers after `t` edges from start. -/
def states (t : ℕ) : State := run step edges State.start t

/-- From edge `n` up to `t`, for a full clock cycle at least, the FSM is in `INIT`, `reset` is low
and no command is offered. -/
def IdleCycle (n t : ℕ) : Prop :=
  (∀ k, n ≤ k → k ≤ t → (states edges k).curState = .init) ∧
    (∀ k, n ≤ k → k < t → (edges k).idle = true) ∧
    (∃ k, n ≤ k ∧ k < t ∧ (edges k).isPosedge = true) ∧
    ∃ k, n ≤ k ∧ k < t ∧ (edges k).isNegedge = true

/-- After a full idle cycle the bus is not requested. -/
def Releases : Prop :=
  ∀ n t, IdleCycle edges n t →
    (states edges t).cfuRamCyc = false ∧ (states edges t).cfuRamStb = false

/-- The edge does not cut a fetch: with the bus requested there is no `reset`, and at the falling
edge of `EXEC_1_ADD` the command is still offered. -/
def Uncut (s : State) : Edge → Prop
  | .posedge _ => True
  | .negedge i =>
    (i.reset = true → s.cfuRamCyc = false ∧ s.cfuRamStb = false) ∧
      (s.curState = .exec1Add → i.reset = false → i.cmdValid = true)
  | .reset _ => s.cfuRamCyc = false ∧ s.cfuRamStb = false

/-- The bus is requested only by a fetch. -/
def Quiet (s : State) : Prop :=
  s.curState = .init ∨ s.curState = .exec0 → s.cfuRamCyc = false ∧ s.cfuRamStb = false

theorem nextState_of_fetch (i : In) {p : PipelineState}
    (hp : p = .exec1FetchVal ∨ p = .exec1FetchFilter) :
    ¬ (nextState i p = .init ∨ nextState i p = .exec0) := by
  rcases hp with rfl | rfl
  all_goals
    rw [nextState]
    split_ifs <;> simp

theorem step_negedge {i : In} {s : State} (hr : i.reset = false) :
    step (.negedge i) s = if i.cmdValid then
      { update i s with curState := nextState i s.curState }
      else { s with curState := nextState i s.curState } := by
  simp only [step, negedgeClk, hr, if_neg Bool.false_ne_true]

theorem curState_negedge {i : In} {s : State} (hr : i.reset = false) :
    (step (.negedge i) s).curState = nextState i s.curState := by
  rw [step_negedge hr]
  split_ifs <;> rfl

theorem quiet_negedge {i : In} {s : State} (hr : i.reset = false)
    (hadd : s.curState = .exec1Add → i.cmdValid = true) (h : Quiet s) :
    Quiet (step (.negedge i) s) := by
  intro hnext
  rw [curState_negedge hr] at hnext
  rw [step_negedge hr]
  cases hs : s.curState with
  | init =>
    obtain ⟨hcyc, hstb⟩ := h (.inl hs)
    cases i.cmdValid with
    | true => simp [update, hs]
    | false => simp [hcyc, hstb]
  | exec0 =>
    obtain ⟨hcyc, hstb⟩ := h (.inr hs)
    cases i.cmdValid with
    | true => simp [update, hs, hcyc, hstb]
    | false => simp [hcyc, hstb]
  | exec1FetchVal =>
    rw [hs] at hnext
    exact absurd hnext (nextState_of_fetch i (.inl rfl))
  | exec1FetchFilter =>
    rw [hs] at hnext
    exact absurd hnext (nextState_of_fetch i (.inr rfl))
  | exec1Add =>
    rw [hadd hs]
    simp [update, hs]

/-- **Step.** -/
theorem quiet_step {s : State} {e : Edge} (he : Uncut s e) (h : Quiet s) : Quiet (step e s) := by
  cases e with
  | posedge i => exact h
  | reset i => exact fun _ => he
  | negedge i =>
    cases hr : i.reset with
    | true =>
      have hstep : step (.negedge i) s = { s with rspPayloadOutputs0 := 0, curState := .init } :=
        if_pos hr
      rw [hstep]
      exact fun _ => he.1 hr
    | false => exact quiet_negedge hr (fun hs => he.2 hs hr) h

variable {edges}

/-- **Run.** -/
theorem quiet_run (hedges : ∀ t, Uncut (states edges t) (edges t)) (t : ℕ) :
    Quiet (states edges t) := by
  induction t with
  | zero => exact fun _ => ⟨rfl, rfl⟩
  | succ t ih => exact quiet_step (hedges t) ih

/-- **The bus is released.** In every run, with `reset` at any time, whose edges cut no fetch, the
bus is not requested after a full idle cycle. -/
theorem bus_released (edges : ℕ → Edge) (hedges : ∀ t, Uncut (states edges t) (edges t)) :
    Releases edges := by
  intro n t hidle
  exact quiet_run hedges t (.inl (hidle.1 t (by
    obtain ⟨k, hn, hk, -⟩ := hidle.2.2.1
    omega) le_rfl))

/-! ## Resets of a first fetch -/

/-- The wires of a fetch command, of a quiet client, and of a reset. -/
def fetching : In := ⟨true, cfuOp0 0 0x100 0x200, true, false, 0, false, false⟩
def quiet : In := ⟨false, cfuOp0 0 0 0, true, false, 0, false, false⟩
def resetting : In := ⟨true, cfuOp0 0 0x100 0x200, true, true, 0, false, false⟩

/-- A command is fetched for `n` periods; then `reset` rises for a period, and the client is
quiet. -/
def resetAfter (n : ℕ) (t : ℕ) : Edge :=
  if t < 2 * n then if t % 2 = 0 then .negedge fetching else .posedge fetching
  else if t = 2 * n then .reset resetting
  else
    let i := if t < 2 * n + 3 then resetting else quiet
    if t % 2 = 1 then .negedge i else .posedge i

theorem resetAfter_late (t : ℕ) : resetAfter 1 (t + 3) = .negedge resetting ∨
    resetAfter 1 (t + 3) = .posedge resetting ∨ resetAfter 1 (t + 3) = .negedge quiet ∨
    resetAfter 1 (t + 3) = .posedge quiet := by
  unfold resetAfter
  rw [if_neg (by omega), if_neg (by omega)]
  split_ifs <;> simp

theorem states_resetAfter (t : ℕ) : states (resetAfter 1) (t + 3) = State.start := by
  induction t with
  | zero => decide
  | succ t ih =>
    have hstep : states (resetAfter 1) (t + 1 + 3) =
        step (resetAfter 1 (t + 3)) (states (resetAfter 1) (t + 3)) := rfl
    rw [hstep, ih]
    rcases resetAfter_late t with h | h | h | h <;> rw [h] <;> rfl

/-- A reset before the bus is requested. -/
theorem bus_released_early : Releases (resetAfter 1) := by
  refine bus_released _ fun t => ?_
  rcases lt_or_ge t 3 with ht | ht
  · interval_cases t
    · exact ⟨by decide, by decide⟩
    · trivial
    · exact ⟨by decide, by decide⟩
  · obtain ⟨n, rfl⟩ := Nat.exists_eq_add_of_le' ht
    rw [states_resetAfter]
    rcases resetAfter_late n with h | h | h | h
    · rw [h]
      exact ⟨fun _ => ⟨rfl, rfl⟩, by decide⟩
    · rw [h]
      trivial
    · rw [h]
      exact ⟨by decide, by decide⟩
    · rw [h]
      trivial

/-- A reset in the middle of a fetch: the bus stays requested. -/
theorem bus_released_fails : ¬ Releases (resetAfter 2) := by
  intro h
  have hreq := h 7 9 ⟨?_, ?_, ⟨8, by decide⟩, ⟨7, by decide⟩⟩
  · revert hreq
    decide
  · intro k h1 h2
    interval_cases k <;> decide
  · intro k h1 h2
    interval_cases k <;> decide

end CfuPlayground.ProjTemplate
