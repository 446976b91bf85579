import CfuPlayground.FilterPreload.Respond

/-!
# Which commands `proj/filter_preload` answers

`cmd_ready` is high in `INIT`, and the default branch of `next_state` stays there: a command with
an unrecognised function id is accepted in the very period that drops it, and `rsp_valid` never
rises for it. `every_command_answered_iff` says that these are the only commands without a
response, over all runs of a blocking client in which convolutions finish.
-/

namespace CfuPlayground.FilterPreload

open Lib

/-- Every accepted command has exactly one response in the end. -/
def Matched (soc : ℕ → Soc State) : Prop :=
  (∀ n, (soc n).responses.length ≤ (soc n).accepted.length) ∧
    ∀ n, ∃ m, n ≤ m ∧ (soc n).accepted.length ≤ (soc m).responses.length

/-- Every convolution of a run finds a configuration on which it finishes. -/
def Finishing (soc : ℕ → Soc State) : Prop :=
  ∀ n c, (soc n).cfu.curState = .init → (soc n).offer = some c → c.funct7 = 0 →
    Finishes (soc n).cfu.config (soc n).cfu.counters

variable {mem : Memory} {moves : ℕ → Moves} {s : Soc State} {c : Command}

theorem at_run (mem : Memory) (moves : ℕ → Moves) (n : ℕ) :
    ∃ p, At mem p (Soc.run cfu mem true moves (Soc.start State.start) n) := by
  refine run_invariant (P := fun s => ∃ p, At mem p s) ?_ (fun m s hs => ?_) n
  · exact ⟨.ready ⟨{}, {}, 0⟩, rfl, rfl, rfl, ⟨rfl, rfl, rfl⟩, rfl⟩
  · obtain ⟨p, hp⟩ := hs
    exact ⟨p.next mem m s, at_tick hp⟩

theorem responses_le_accepted {p : Phase} (h : At mem p s) :
    s.responses.length ≤ s.accepted.length := by
  cases p <;> simp only [At, Soc.Offered] at h <;> omega

/-- While a recognised command is on the wires the FSM may have left `INIT`; an unrecognised one
finds it there. -/
theorem ready_of_unrecognised {p : Phase} (h : At mem p s) (ho : s.offer = some c)
    (hc : ¬ Recognised c) : ∃ a, At mem (.ready a) s := by
  have hzero : ∀ c : Command, c.funct7 = 0 → Recognised c := by
    intro c h0
    simp [Recognised, h0]
  have hsame : ∀ c', s.Offered c' → c' = c := by
    intro c' ho'
    exact Option.some.inj (ho'.1.symm.trans ho)
  cases p with
  | ready a => exact ⟨a, h⟩
  | set a c' =>
    obtain ⟨-, -, -, -, ho', -, hrec⟩ := h
    exact absurd (hsame c' ho' ▸ hrec) hc
  | fetchVal a c' | fetchFilter a c' | add a c' | coords a c' =>
    obtain ⟨-, -, -, h0, ho', -⟩ := h
    exact absurd (hzero c (hsame c' ho' ▸ h0)) hc
  | done a c' =>
    obtain ⟨-, -, -, h0, -, ho'⟩ := h
    exact absurd (hzero c (hsame c' ho' ▸ h0)) hc
  | responding a =>
    obtain ⟨-, -, -, -, hnone, -⟩ := h
    cases hnone.symm.trans ho
  | stuck =>
    obtain ⟨-, -, hnone, -⟩ := h
    cases hnone.symm.trans ho

/-- **An unrecognised command is accepted and dropped**, and blocks the client for ever. -/
theorem not_matched_of_unrecognised {n : ℕ}
    (ho : (Soc.run cfu mem true moves (Soc.start State.start) n).offer = some c)
    (hc : ¬ Recognised c) : ¬ Matched (Soc.run cfu mem true moves (Soc.start State.start)) := by
  rintro ⟨-, hmatch⟩
  set soc := Soc.run cfu mem true moves (Soc.start State.start) with hsoc
  obtain ⟨p, hp⟩ := at_run mem moves n
  obtain ⟨a, ha⟩ := ready_of_unrecognised hp ho hc
  have hstuck : At mem .stuck (soc (n + 1)) := by
    have hat := (tick_ready_some (m := moves n) ha ho).1
    have h0 : c.funct7 ≠ 0 := by
      intro h0
      simp [Recognised, h0] at hc
    rwa [dispatch, if_neg h0, if_neg hc] at hat
  have hlater : ∀ k, At mem .stuck (soc (n + 1 + k)) ∧
      (soc (n + 1 + k)).accepted = (soc (n + 1)).accepted := by
    intro k
    induction k with
    | zero => exact ⟨hstuck, rfl⟩
    | succ k ih =>
      obtain ⟨hat, hacc, -⟩ := tick_stuck (m := moves (n + 1 + k)) ih.1
      refine ⟨hat, ?_⟩
      show (soc (n + 1 + k)).accepted ++
        ((soc (n + 1 + k)).accepts cfu (moves (n + 1 + k))).toList = _
      rw [hacc, ih.2]
      exact List.append_nil _
  obtain ⟨m, hm, hle⟩ := hmatch (n + 1)
  obtain ⟨k, rfl⟩ := Nat.exists_eq_add_of_le hm
  obtain ⟨⟨-, -, -, hlen⟩, hacc⟩ := hlater k
  rw [hacc] at hlen
  omega

/-- **The answered commands.** In every run of a blocking client from reset, with any memory, a
fair environment and convolutions that finish, each accepted command gets exactly one response
if and only if the client offers recognised commands only. -/
theorem every_command_answered_iff (mem : Memory) (moves : ℕ → Moves) (hf : Fair moves)
    (hfin : Finishing (Soc.run cfu mem true moves (Soc.start State.start))) :
    Matched (Soc.run cfu mem true moves (Soc.start State.start)) ↔
      ∀ n c, (Soc.run cfu mem true moves (Soc.start State.start) n).offer = some c →
        Recognised c := by
  constructor
  · intro hmatch n c ho
    by_contra hc
    exact not_matched_of_unrecognised ho hc hmatch
  · intro hrec
    refine ⟨fun n => ?_, fun n => ?_⟩
    · obtain ⟨p, hp⟩ := at_run mem moves n
      exact responses_le_accepted hp
    · have hready := (serves mem).infinitely_ready hf (s := Soc.start State.start)
        ⟨⟨{}, {}, 0⟩, ⟨rfl, rfl, rfl, ⟨rfl, rfl, rfl⟩, rfl⟩, rfl⟩ fun n a c ha ho => by
          obtain ⟨⟨hst, -, hregs, -⟩, hk⟩ := ha
          unfold respond
          split_ifs with h0 hc
          · have hwalk := hfin n c hst ho h0
            rw [Option.isSome_map, ← Nat.add_zero (2 ^ 30), walk_isSome_iff hk, ← hregs]
            exact hwalk
          · rfl
          · exact absurd (hrec n c ho) hc
      obtain ⟨m, hm, a, ⟨-, -, -, -, hlen⟩, -⟩ := hready n
      exact ⟨m, hm, hlen ▸ Soc.accepted_mono hm⟩

/-- A client that issues one command over and over, always ready, with the fastest slave. -/
def steadyMoves (c : Command) (_ : ℕ) : Moves := ⟨some c, c, true, .ack 0⟩

theorem fair_steadyMoves (c : Command) : Fair (steadyMoves c) :=
  ⟨fun n => ⟨n, le_rfl, rfl⟩, fun n => ⟨n, le_rfl, rfl⟩⟩

theorem offer_steadyMoves {c c' : Command} {n : ℕ}
    (h : (Soc.run cfu mem true (steadyMoves c) (Soc.start State.start) n).offer = some c') :
    c' = c := by
  induction n with
  | zero => cases h
  | succ n ih =>
    rcases Soc.offer_of_tick h with hold | hnew
    · exact ih hold
    · exact (Option.some.inj hnew).symm

theorem finishing_steadyMoves (hc : c.funct7 ≠ 0) :
    Finishing (Soc.run cfu mem true (steadyMoves c) (Soc.start State.start)) := by
  intro n c' _ ho h0
  rw [offer_steadyMoves ho] at h0
  exact absurd h0 hc

theorem every_command_answered_iff_clear :
    Matched (Soc.run cfu (fun _ => 0) true (steadyMoves (cfuOp0 1 0 0)) (Soc.start State.start)) :=
  (every_command_answered_iff (fun _ => 0) (steadyMoves (cfuOp0 1 0 0)) (fair_steadyMoves _)
    (finishing_steadyMoves (by decide))).mpr fun n c ho => by
      rw [offer_steadyMoves ho]
      decide

/-- **A command without a response.** -/
theorem every_command_answered_fails :
    ¬ ∀ (mem : Memory) (moves : ℕ → Moves), (∀ n, (moves n).rspReady = true) →
      (Infinitely fun n => (moves n).slave.isAck = true) →
      Finishing (Soc.run cfu mem true moves (Soc.start State.start)) →
      Matched (Soc.run cfu mem true moves (Soc.start State.start)) := by
  intro h
  have hrun := h (fun _ => 0) (steadyMoves (cfuOp0 9 0 0)) (fun _ => rfl)
    (fair_steadyMoves _).acks (finishing_steadyMoves (by decide))
  exact not_matched_of_unrecognised (n := 1) (c := cfuOp0 9 0 0) rfl (by decide) hrun

end CfuPlayground.FilterPreload
