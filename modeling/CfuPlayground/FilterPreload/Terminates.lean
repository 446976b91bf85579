import CfuPlayground.FilterPreload.Walk
import CfuPlayground.Lib.Run

/-!
# Termination of a convolution

The four states of the loop, one falling edge at a time, with any client and any slave:

* `reaches_calc`: a slave that acknowledges takes the FSM from a fetch to `CALC_COORDS`, with
  the counters advanced once.
* `Caught`: the states of a convolution whose walk does not end; no edge but a reset leaves them.
* `convolution_terminates_iff`: a convolution reaches `DONE` exactly if `Finishes` holds of the
  configuration and the counters it starts with.
-/

namespace CfuPlayground.FilterPreload

open Lib

/-- Both fetch states. -/
def Fetching (s : State) : Prop :=
  s.curState = .execConvFetchVal ∨ s.curState = .execConvFetchFilter

section Period

variable {i : In} {s : State}

theorem period_eq (h : i.reset = false) : cfu.period i s =
    posedgeClk i { update i s with curState := nextState i s } := by
  simp [Gateware.period, cfu, negedgeClk, h]

theorem curState_period (h : i.reset = false) : (cfu.period i s).curState = nextState i s := by
  rw [period_eq h]
  rfl

theorem config_period (h : i.reset = false) :
    (cfu.period i s).config = (update i s).config := by
  rw [period_eq h]
  rfl

theorem counters_period (h : i.reset = false) :
    (cfu.period i s).counters = (update i s).counters := by
  rw [period_eq h]
  rfl

theorem curInputDepth_update (h : s.curState ≠ .execConvAdd) :
    (update i s).counters.curInputDepth = s.counters.curInputDepth := by
  unfold update
  split
  case h_11 hs => exact absurd hs h
  all_goals rfl

theorem depth_update (hs : s.counters.curInputDepth.toNat % 4 = 0) :
    (update i s).counters.curInputDepth.toNat % 4 = 0 := by
  by_cases hadd : s.curState = .execConvAdd
  swap
  · rw [curInputDepth_update hadd]
    exact hs
  simp only [update, hadd]
  exact advance_depth_mod_four hs

end Period

/-! ## Runs -/

variable (ins : ℕ → In)

/-- The registers before the falling edge of period `n`, from reset. -/
def states : ℕ → State := run cfu.period ins State.start

/-- A convolution command is taken at the falling edge of period `n`. -/
def Taken (n : ℕ) : Prop :=
  (states ins n).curState = .init ∧ (ins n).cmdValid = true ∧ (ins n).cmdPayload.funct7 = 0

/-- From period `n` on there is no reset, and every request is acknowledged without error after
finitely many periods. -/
structure Serviced (n : ℕ) : Prop where
  noReset : ∀ m, n ≤ m → (ins m).reset = false
  acks : ∀ m, n ≤ m → Fetching (states ins m) →
    ∃ m', m ≤ m' ∧ (ins m').cfuRamAck = true ∧ (ins m').cfuRamErr = false

variable {ins} {n m : ℕ}

theorem depth_states (n : ℕ) : (states ins n).counters.curInputDepth.toNat % 4 = 0 := by
  refine run_invariant (P := fun s : State => s.counters.curInputDepth.toNat % 4 = 0) rfl
    (fun i s hs => ?_) n
  cases hr : i.reset
  · rw [counters_period hr]
    exact depth_update hs
  · simp [Gateware.period, cfu, negedgeClk, posedgeClk, hr]

theorem Serviced.mono (h : Serviced ins n) (hm : n ≤ m) : Serviced ins m :=
  ⟨fun k hk => h.noReset k (hm.trans hk), fun k hk => h.acks k (hm.trans hk)⟩

/-- The state, configuration and counters before period `m`. -/
def IsAt (ins : ℕ → In) (m : ℕ) (p : PipelineState) (g : Config) (k : Counters) : Prop :=
  (states ins m).curState = p ∧ (states ins m).config = g ∧ (states ins m).counters = k

variable {g : Config} {k : Counters}

theorem states_step (hr : (ins m).reset = false) :
    (states ins (m + 1)).curState = nextState (ins m) (states ins m) ∧
      (states ins (m + 1)).config = (update (ins m) (states ins m)).config ∧
      (states ins (m + 1)).counters = (update (ins m) (states ins m)).counters :=
  ⟨curState_period hr, config_period hr, counters_period hr⟩

theorem fetch_left {p q : PipelineState} (hp : p = .execConvFetchVal ∧ q = .execConvFetchFilter ∨
    p = .execConvFetchFilter ∧ q = .execConvAdd) (hs : Serviced ins m) (h : IsAt ins m p g k) :
    ∃ m', m < m' ∧ IsAt ins m' q g k := by
  have hstep : ∀ j, m ≤ j → IsAt ins j p g k →
      IsAt ins (j + 1) (if (ins j).cfuRamErr then p else if (ins j).cfuRamAck then q else p)
        g k := by
    intro j hj hat
    obtain ⟨h1, h2, h3⟩ := states_step (hs.noReset j hj)
    obtain ⟨hst, hg, hk⟩ := hat
    rcases hp with ⟨rfl, rfl⟩ | ⟨rfl, rfl⟩
    · exact ⟨h1.trans (by simp only [nextState, hst]), h2.trans (by simp only [update, hst, hg]),
        h3.trans (by simp only [update, hst, hk])⟩
    · exact ⟨h1.trans (by simp only [nextState, hst]), h2.trans (by simp only [update, hst, hg]),
        h3.trans (by simp only [update, hst, hk])⟩
  have hfetch : Fetching (states ins m) := by
    rcases hp with ⟨rfl, -⟩ | ⟨rfl, -⟩
    · exact .inl h.1
    · exact .inr h.1
  obtain ⟨j, hj, hat, hack, herr⟩ := wait_until (P := fun j => IsAt ins j p g k)
    (q := fun j => (ins j).cfuRamAck = true ∧ (ins j).cfuRamErr = false) h
    (fun j hj hat hno => by
      have hnext := hstep j hj hat
      split_ifs at hnext with h1 h2
      · exact hnext
      · exact absurd ⟨h2, by simpa using h1⟩ hno
      · exact hnext) (hs.acks m le_rfl hfetch)
  have hnext := hstep j hj hat
  rw [herr, hack] at hnext
  exact ⟨j + 1, by omega, hnext⟩

/-- **One round of the loop.** -/
theorem reaches_calc (hs : Serviced ins m) (h : IsAt ins m .execConvFetchVal g k) :
    ∃ m', m < m' ∧ IsAt ins m' .execConvCalcCoords g (advance g k) := by
  obtain ⟨m₁, hm₁, h₁⟩ := fetch_left (.inl ⟨rfl, rfl⟩) hs h
  obtain ⟨m₂, hm₂, h₂⟩ := fetch_left (.inr ⟨rfl, rfl⟩) (hs.mono hm₁.le) h₁
  obtain ⟨h3, h4, h5⟩ := states_step (hs.noReset m₂ (by omega))
  obtain ⟨hst, hg, hk⟩ := h₂
  refine ⟨m₂ + 1, by omega, h3.trans ?_, h4.trans ?_, h5.trans ?_⟩
  · simp only [nextState, hst]
  · simp only [update, hst, hg]
  · simp only [update, hst, hg, hk]

theorem calc_succ (hr : (ins m).reset = false) (h : IsAt ins m .execConvCalcCoords g k) :
    IsAt ins (m + 1) (calcCoords g k) g k := by
  obtain ⟨h1, h2, h3⟩ := states_step hr
  obtain ⟨hst, hg, hk⟩ := h
  exact ⟨h1.trans (by simp only [nextState, hst, hg, hk]),
    h2.trans (by simp only [update, hst, hg]), h3.trans (by simp only [update, hst, hk])⟩

theorem reaches_done {w : List Counters × Counters} {f : ℕ} (hw : walk g f k = some w)
    (hs : Serviced ins m) (h : IsAt ins m .execConvFetchVal g k) :
    ∃ m', m < m' ∧ IsAt ins m' .execConvDone g w.2 := by
  induction f generalizing k w m with
  | zero => cases hw
  | succ f ih =>
    obtain ⟨m₁, hm₁, h₁⟩ := reaches_calc hs h
    have h₂ := calc_succ (hs.noReset m₁ hm₁.le) h₁
    rw [walk] at hw
    split at hw
    · rename_i hdone
      cases hw
      rw [hdone] at h₂
      exact ⟨m₁ + 1, by omega, h₂⟩
    · rename_i hfetch
      obtain ⟨w', hw', rfl⟩ := Option.map_eq_some_iff.mp hw
      rw [hfetch] at h₂
      obtain ⟨m₂, hm₂, h₃⟩ := ih hw' (hs.mono (by omega : m ≤ m₁ + 1)) h₂
      exact ⟨m₂, by omega, h₃⟩
    · cases hw

/-! ## Walks that do not end -/

/-- The states of a convolution that will not reach `DONE`. -/
def Caught (s : State) : Prop :=
  match s.curState with
  | .execConvFetchVal | .execConvFetchFilter | .execConvAdd => ∀ f, walk s.config f s.counters = none
  | .execConvCalcCoords => calcCoords s.config s.counters = .execConvCalcCoords ∨
      calcCoords s.config s.counters = .execConvFetchVal ∧ ∀ f, walk s.config f s.counters = none
  | _ => False

theorem calcCoords_cases (g : Config) (k : Counters) : calcCoords g k = .execConvDone ∨
    calcCoords g k = .execConvCalcCoords ∨ calcCoords g k = .execConvFetchVal := by
  unfold calcCoords
  split_ifs <;> simp

/-- **Step lemma.** A caught FSM stays caught. -/
theorem caught_period {i : In} {s : State} (hr : i.reset = false) (h : Caught s) :
    Caught (cfu.period i s) := by
  have hst := curState_period (s := s) hr
  have hg := config_period (s := s) hr
  have hk := counters_period (s := s) hr
  unfold Caught at h
  split at h
  case h_1 hs | h_2 hs =>
    simp only [nextState, update, hs] at hst hg hk
    unfold Caught
    split_ifs at hst <;> rw [hst, hg, hk] <;> exact h
  case h_3 hs =>
    simp only [nextState, update, hs] at hst hg hk
    unfold Caught
    rw [hst, hg, hk]
    rcases calcCoords_cases s.config (advance s.config s.counters) with hc | hc | hc
    · have h1 := h 1
      simp [walk, hc] at h1
    · exact .inl hc
    · refine .inr ⟨hc, fun f => ?_⟩
      have hf := h (f + 1)
      rwa [walk_of_fetch hc, Option.map_eq_none_iff] at hf
  case h_4 hs =>
    simp only [nextState, update, hs] at hst hg hk
    unfold Caught
    rcases h with h | ⟨h, hwalk⟩
    · rw [hst, hg, hk, h]
      exact .inl rfl
    · rw [hst, hg, hk, h]
      exact hwalk
  case h_5 => exact h.elim

theorem not_done_of_caught {s : State} (h : Caught s) : s.curState ≠ .execConvDone := by
  intro hs
  simp [Caught, hs] at h

theorem isAt_of_taken (htaken : Taken ins n) (hr : (ins n).reset = false) :
    IsAt ins (n + 1) .execConvFetchVal (states ins n).config (states ins n).counters := by
  obtain ⟨hst, hv, hc⟩ := htaken
  obtain ⟨h1, h2, h3⟩ := states_step hr
  refine ⟨h1.trans ?_, h2.trans ?_, h3.trans ?_⟩
  · simp only [nextState, hst, hv, hc, if_true, decode]
  · simp only [update, hst]
  · simp only [update, hst]

/-- A convolution without `Finishes` never leaves its loop, whatever the slave does. -/
theorem caught_of_taken (htaken : Taken ins n) (hreset : ∀ m, n ≤ m → (ins m).reset = false)
    (hnot : ¬ Finishes (states ins n).config (states ins n).counters) (hm : n < m) :
    Caught (states ins m) := by
  induction m, hm using Nat.le_induction with
  | base =>
    obtain ⟨h1, h2, h3⟩ := isAt_of_taken htaken (hreset n le_rfl)
    simp only [Nat.succ_eq_add_one, Caught, h1, h2, h3]
    exact walk_eq_none (depth_states n) hnot
  | succ m hm ih => exact caught_period (hreset m (by omega)) ih

theorem done_of_taken (htaken : Taken ins n) (hs : Serviced ins n)
    (hfin : Finishes (states ins n).config (states ins n).counters) :
    ∃ m, n < m ∧ (states ins m).curState = .execConvDone := by
  have hwalk := (walk_isSome_iff (depth_states n) 0).mpr hfin
  obtain ⟨w, hw⟩ := Option.isSome_iff_exists.mp hwalk
  obtain ⟨m, hm, hat⟩ := reaches_done hw (hs.mono (Nat.le_succ n))
    (isAt_of_taken htaken (hs.noReset n le_rfl))
  exact ⟨m, by omega, hat.1⟩

/-- **Termination of a convolution**, for every run from reset, every configuration and every
slave that acknowledges in the end: a convolution command reaches `DONE` exactly if it is taken
in a state with `Finishes`. -/
theorem convolution_terminates_iff (ins : ℕ → In) (n : ℕ) (htaken : Taken ins n)
    (hs : Serviced ins n) :
    (∃ m, n < m ∧ (states ins m).curState = .execConvDone) ↔
      Finishes (states ins n).config (states ins n).counters := by
  constructor
  · rintro ⟨m, hm, hdone⟩
    by_contra hnot
    exact not_done_of_caught (caught_of_taken htaken hs.noReset hnot hm) hdone
  · exact done_of_taken htaken hs

/-! ## A filter of three columns -/

/-- The wires of a command in its two periods, with a slave that acknowledges at once. -/
def fastIn (c : Command) : In := ⟨true, c, true, false, 0, true, false⟩

/-- Filter and image of `w` columns and one row, then a convolution. -/
def wideIns (w : Word) (n : ℕ) : In :=
  if n < 2 then fastIn (cfuOp0 2 w 1)
  else if n < 4 then fastIn (cfuOp0 3 w 1)
  else fastIn (cfuOp0 0 0 0)

theorem serviced_wideIns (w : Word) (n : ℕ) : Serviced (wideIns w) n := by
  have hfast : ∀ m, ∃ c, wideIns w m = fastIn c := by
    intro m
    unfold wideIns
    split_ifs
    · exact ⟨_, rfl⟩
    · exact ⟨_, rfl⟩
    · exact ⟨_, rfl⟩
  constructor
  · intro m _
    obtain ⟨c, hc⟩ := hfast m
    rw [hc]
    rfl
  · intro m _ _
    obtain ⟨c, hc⟩ := hfast m
    exact ⟨m, le_rfl, by rw [hc]; rfl, by rw [hc]; rfl⟩

theorem convolution_terminates_iff_wideIns :
    ∃ m, 4 < m ∧ (states (wideIns 2) m).curState = .execConvDone :=
  (convolution_terminates_iff (wideIns 2) 4 ⟨by decide, by decide, by decide⟩
    (serviced_wideIns 2 4)).mpr (by decide)

/-- **A convolution that hangs**: three columns, one row, depth 1. The FSM runs from reset into a
`CALC_COORDS` state that is its own successor, and `DONE` is never reached. -/
theorem convolution_hangs :
    (¬ ∀ (ins : ℕ → In) (n : ℕ), Taken ins n → Serviced ins n →
      1 ≤ (states ins n).config.filterWidth → 1 ≤ (states ins n).config.filterHeight →
      1 ≤ (states ins n).config.imageWidth → 1 ≤ (states ins n).config.imageHeight →
      1 ≤ (states ins n).config.inputChannelDepth →
      ∃ m, n < m ∧ (states ins m).curState = .execConvDone) ∧
    (states (wideIns 3) 8).curState = .execConvCalcCoords ∧
      ∀ i, nextState i (states (wideIns 3) 8) = .execConvCalcCoords := by
  refine ⟨fun h => ?_, by decide, fun i => ?_⟩
  · have htaken : Taken (wideIns 3) 4 := ⟨by decide, by decide, by decide⟩
    obtain ⟨m, hm, hdone⟩ := h (wideIns 3) 4 htaken (serviced_wideIns 3 4) (by decide) (by decide)
      (by decide) (by decide) (by decide)
    exact not_done_of_caught
      (caught_of_taken htaken (serviced_wideIns 3 4).noReset (by decide) hm) hdone
  · have hstate : (states (wideIns 3) 8).curState = .execConvCalcCoords := by decide
    simp only [nextState, hstate]
    decide

end CfuPlayground.FilterPreload
