import CfuPlayground.ProjTemplate.Accumulate
import CfuPlayground.Cfu.Integrity

/-!
# Back-pressure on `proj/proj_template`

`cmd_ready` looks at the state only, so a command may run while the response to the one before it
waits. `Overlapped` is what registers and wires are then, for any client; `pipelined` shows that
the responses stay intact as long as no rising edge finds a completing state and `rsp_valid` both
up.
-/

namespace CfuPlayground.ProjTemplate

open Lib

/-- The states that `rsp_valid` looks at. -/
def completing (s : State) : Bool := s.curState = .exec0 || s.curState = .exec1Add

/-- A rising edge that finds a completing state finds `rsp_valid` low. -/
def Apart (m : Moves) (s : Soc State) : Prop :=
  completing (s.mid cfu m) = true → (s.mid cfu m).rspValid = false

/-- Registers and wires under any client. -/
def Overlapped (mem : Memory) (s : Soc State) : Prop :=
  match s.cfu.curState with
  | .init => s.cfu.rspPayloadOutputs0 = expected mem s.accepted ∧ s.Quiet cfu
  | .exec0 => ∃ c, s.offer = some c ∧ c.funct7 ≠ 0 ∧ s.Quiet cfu
  | .exec1FetchVal => ∃ c, s.offer = some c ∧ c.funct7 = 0 ∧
      s.cfu.rspPayloadOutputs0 = expected mem s.accepted ∧
      s.reply.Delivers mem (wordAdr c.inputs0)
  | .exec1FetchFilter => ∃ c, s.offer = some c ∧ c.funct7 = 0 ∧
      s.cfu.rspPayloadOutputs0 = expected mem s.accepted ∧
      s.reply.Delivers mem (wordAdr c.inputs1) ∧ s.cfu.matrixVals = mem (wordAdr c.inputs0)
  | .exec1Add => ∃ c, s.offer = some c ∧ c.funct7 = 0 ∧
      s.cfu.rspPayloadOutputs0 = expected mem s.accepted ∧
      s.cfu.matrixVals = mem (wordAdr c.inputs0) ∧ s.cfu.filterVals = mem (wordAdr c.inputs1)

variable {mem : Memory} {m : Moves} {s : Soc State} {blocking : Bool}

theorem overlapped_mid (h : Overlapped mem s) :
    s.accepts cfu m = (if completing s.cfu then s.offer else none) ∧
      (completing s.cfu = true → s.offer.isSome = true ∧ (s.mid cfu m).curState = .init) ∧
      (s.mid cfu m).rspPayloadOutputs0 = expected mem (s.accepted ++ (s.accepts cfu m).toList) := by
  rcases s with ⟨⟨cs, rv, pay, mv, fv, adr, cyc, stb⟩, offer, acc, rsp, ⟨ack, err, dat⟩, seen⟩
  cases cs with
  | init =>
    obtain ⟨hpay, -⟩ := h
    simp only at hpay
    subst hpay
    cases offer with
    | none => simp [completing, Soc.accepts, Soc.mid, Soc.wires, cfu, negedgeClk, nextState]
    | some c =>
      by_cases hc : c.funct7 = 0#7
      all_goals simp [completing, Soc.accepts, Soc.mid, Soc.wires, cfu, negedgeClk, nextState,
        update, State.out, hc]
  | exec0 =>
    obtain ⟨c, ho, hc, -⟩ := h
    simp only at ho
    subst ho
    have hexpected : expected mem (acc ++ [c]) = 0 := by
      rw [expected_append, respondWord, if_pos hc]
    simp [completing, Soc.accepts, Soc.mid, Soc.wires, cfu, negedgeClk, nextState, update,
      State.out, hexpected]
  | exec1FetchVal | exec1FetchFilter =>
    obtain ⟨c, ho, -, hpay, -⟩ := h
    simp only at ho hpay
    subst ho hpay
    cases ack <;> cases err
    all_goals simp [completing, Soc.accepts, Soc.mid, Soc.wires, cfu, negedgeClk, nextState,
      update, State.out]
  | exec1Add =>
    obtain ⟨c, ho, hc, hpay, hmv, hfv⟩ := h
    simp only at ho hpay hmv hfv
    subst ho hpay hmv hfv
    have hexpected : expected mem (acc ++ [c]) = expected mem acc + macWord mem c := by
      rw [expected_append, respondWord, if_neg (not_not.mpr hc)]
    simp [completing, Soc.accepts, Soc.mid, Soc.wires, cfu, negedgeClk, nextState, update,
      State.out, hexpected, macWord]

theorem overlapped_tick_init (h : Overlapped mem s) (hs : s.cfu.curState = .init) :
    Overlapped mem (s.tick cfu mem blocking m) := by
  rcases s with ⟨⟨cs, rv, pay, mv, fv, adr, cyc, stb⟩, offer, acc, rsp, ⟨ack, err, dat⟩, seen⟩
  obtain rfl : cs = .init := hs
  obtain ⟨hpay, hcyc, hstb, hseen⟩ := h
  simp only [cfu, State.out] at hpay hcyc hstb hseen
  subst hpay hcyc hstb hseen
  cases offer with
  | none =>
    simp [Overlapped, Soc.tick, Soc.accepts, Soc.mid, Soc.wires, cfu, negedgeClk, posedgeClk,
      nextState, State.out, Soc.Quiet]
  | some c =>
    by_cases hc : c.funct7 = 0#7
    · simp [Overlapped, Soc.tick, Soc.accepts, Soc.mid, Soc.wires, cfu, negedgeClk, posedgeClk,
        nextState, update, State.out, nextOffer, hc]
      exact delivers_next (.inr (.inr rfl))
    · simp [Overlapped, Soc.tick, Soc.accepts, Soc.mid, Soc.wires, cfu, negedgeClk, posedgeClk,
        nextState, update, State.out, Soc.Quiet, nextOffer, hc]

theorem overlapped_tick_fetchVal (h : Overlapped mem s) (hs : s.cfu.curState = .exec1FetchVal) :
    Overlapped mem (s.tick cfu mem blocking m) := by
  have hpayload := (overlapped_mid (m := m) h).2.2
  rcases s with ⟨⟨cs, rv, pay, mv, fv, adr, cyc, stb⟩, offer, acc, rsp, ⟨ack, err, dat⟩, seen⟩
  obtain rfl : cs = .exec1FetchVal := hs
  obtain ⟨c, ho, hc, hpay, hd⟩ := h
  simp only [Reply.Delivers] at ho hpay hd
  subst ho hpay
  cases ack with
  | true =>
    obtain ⟨rfl, rfl⟩ := hd rfl
    exact ⟨c, rfl, hc, hpayload, delivers_next (.inl rfl), rfl⟩
  | false =>
    cases err
    all_goals exact ⟨c, rfl, hc, hpayload, delivers_next (.inr (.inl rfl))⟩

theorem overlapped_tick_fetchFilter (h : Overlapped mem s)
    (hs : s.cfu.curState = .exec1FetchFilter) :
    Overlapped mem (s.tick cfu mem blocking m) := by
  have hpayload := (overlapped_mid (m := m) h).2.2
  rcases s with ⟨⟨cs, rv, pay, mv, fv, adr, cyc, stb⟩, offer, acc, rsp, ⟨ack, err, dat⟩, seen⟩
  obtain rfl : cs = .exec1FetchFilter := hs
  obtain ⟨c, ho, hc, hpay, hd, hmv⟩ := h
  simp only [Reply.Delivers] at ho hpay hd hmv
  subst ho hpay hmv
  cases ack with
  | true =>
    obtain ⟨rfl, rfl⟩ := hd rfl
    exact ⟨c, rfl, hc, hpayload, rfl, rfl⟩
  | false =>
    cases err
    all_goals exact ⟨c, rfl, hc, hpayload, delivers_next (.inr (.inl rfl)), rfl⟩

/-- **Step lemma.** -/
theorem overlapped_tick (h : Overlapped mem s) : Overlapped mem (s.tick cfu mem blocking m) := by
  obtain ⟨-, -, hpayload⟩ := overlapped_mid (m := m) h
  cases hs : s.cfu.curState with
  | init => exact overlapped_tick_init h hs
  | exec1FetchVal => exact overlapped_tick_fetchVal h hs
  | exec1FetchFilter => exact overlapped_tick_fetchFilter h hs
  | exec0 =>
    rcases s with ⟨⟨cs, rv, pay, mv, fv, adr, cyc, stb⟩, offer, acc, rsp, reply, seen⟩
    obtain rfl : cs = .exec0 := hs
    obtain ⟨c, ho, -, hcyc, hstb, hseen⟩ := h
    simp only [cfu, State.out] at ho hcyc hstb hseen
    subst ho hcyc hstb hseen
    exact ⟨hpayload, rfl, rfl, rfl⟩
  | exec1Add =>
    rcases s with ⟨⟨cs, rv, pay, mv, fv, adr, cyc, stb⟩, offer, acc, rsp, reply, seen⟩
    obtain rfl : cs = .exec1Add := hs
    obtain ⟨c, ho, -⟩ := h
    simp only at ho
    subst ho
    exact ⟨hpayload, rfl, rfl, rfl⟩

theorem rspValid_mid : (s.mid cfu m).rspValid = s.cfu.rspValid := by
  show (negedgeClk (s.wires m) s.cfu).rspValid = s.cfu.rspValid
  cases hs : s.cfu.curState <;> simp [negedgeClk, update, hs] <;> split_ifs <;> rfl

/-- **The handshake** of this CFU in the periods that keep completing states apart. -/
theorem pipelined (mem : Memory) :
    Pipelined cfu mem (fun cs => some (expected mem cs)) completing (Overlapped mem) Apart where
  valid_mid m s := rspValid_mid
  valid_tick m s := by
    show (if (s.mid cfu m).rspValid then !m.rspReady else completing (s.mid cfu m)) =
      if s.cfu.rspValid then !m.rspReady else completing (s.mid cfu m)
    rw [rspValid_mid]
  busy_tick m s := rfl
  apart m s hgood hb := rspValid_mid.symm.trans (hgood hb)
  step m s hJ _ := overlapped_tick hJ
  accepts m s hJ := (overlapped_mid hJ).1
  offers s hJ hb := ((overlapped_mid (m := ⟨none, cfuOp0 0 0 0, false, .wait 0⟩) hJ).2.1 hb).1
  leaves m s hJ hb := by
    have hst := ((overlapped_mid (m := m) hJ).2.1 hb).2
    simp [completing, hst]
  payload m s hJ _ _ := congrArg some (overlapped_mid hJ).2.2.symm

theorem integrity (mem : Memory) (moves : ℕ → Moves)
    (hapart : ∀ n, Apart (moves n) (Soc.run cfu mem false moves (Soc.start State.start) n)) :
    Integrity cfu (fun cs => some (expected mem cs)) moves
      (Soc.run cfu mem false moves (Soc.start State.start)) :=
  (pipelined mem).integrity ⟨rfl, rfl, rfl, rfl⟩ (balanced_start rfl rfl) hapart

end CfuPlayground.ProjTemplate
