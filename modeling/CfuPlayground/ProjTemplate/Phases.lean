import CfuPlayground.ProjTemplate.Model
import CfuPlayground.Cfu.Answer

/-!
# The phases of a blocking client of `proj/proj_template`

`Phase` is the CFU at the level of its transactions: `ready` between two commands, the states of
the FSM while a command is on the wires, and `responding` while an accepted command waits for
`rsp_ready`. `At mem p s` says what the registers and wires are in phase `p`; `at_tick` is the
step lemma: one clock period moves the phase by `Phase.next` and does to the two channels what
`Phase.accepts` and `Phase.transfers` say.
-/

namespace CfuPlayground.ProjTemplate

/-- The four lanes of the two words a multiply command names, summed by the hardware. -/
def macWord (mem : Memory) (c : Command) : Word :=
  sumProds (mem (wordAdr c.inputs0)) (mem (wordAdr c.inputs1))

/-- The accumulator after a command, which is also the response. -/
def respondWord (mem : Memory) (acc : Word) (c : Command) : Word :=
  if c.funct7 ≠ 0 then 0 else acc + macWord mem c

inductive Phase
  | ready (acc : Word)
  | clear (c : Command)
  | fetchVal (acc : Word) (c : Command)
  | fetchFilter (acc : Word) (c : Command)
  | add (acc : Word) (c : Command)
  | responding (r : Word)

/-- What a phase says about registers and wires. -/
def At (mem : Memory) : Phase → Soc State → Prop
  | .ready acc, s =>
    s.cfu.curState = .init ∧ s.cfu.rspValid = false ∧ s.cfu.rspPayloadOutputs0 = acc ∧
      s.Quiet cfu ∧ s.accepted.length = s.responses.length
  | .clear c, s =>
    s.cfu.curState = .exec0 ∧ s.cfu.rspValid = true ∧ c.funct7 ≠ 0 ∧ s.Quiet cfu ∧ s.Offered c
  | .fetchVal acc c, s =>
    s.cfu.curState = .exec1FetchVal ∧ s.cfu.rspValid = false ∧ s.cfu.rspPayloadOutputs0 = acc ∧
      c.funct7 = 0 ∧ s.Offered c ∧ s.reply.Delivers mem (wordAdr c.inputs0)
  | .fetchFilter acc c, s =>
    s.cfu.curState = .exec1FetchFilter ∧ s.cfu.rspValid = false ∧
      s.cfu.rspPayloadOutputs0 = acc ∧ c.funct7 = 0 ∧ s.Offered c ∧
      s.reply.Delivers mem (wordAdr c.inputs1) ∧ s.cfu.matrixVals = mem (wordAdr c.inputs0)
  | .add acc c, s =>
    s.cfu.curState = .exec1Add ∧ s.cfu.rspValid = true ∧ s.cfu.rspPayloadOutputs0 = acc ∧
      c.funct7 = 0 ∧ s.Offered c ∧ s.cfu.matrixVals = mem (wordAdr c.inputs0) ∧
      s.cfu.filterVals = mem (wordAdr c.inputs1)
  | .responding r, s =>
    s.cfu.curState = .init ∧ s.cfu.rspValid = true ∧ s.cfu.rspPayloadOutputs0 = r ∧ s.Quiet cfu ∧
      s.offer = none ∧ s.accepted.length = s.responses.length + 1

/-- The phase after a period that starts with the wires of `s`. -/
def Phase.next (mem : Memory) (m : Moves) (s : Soc State) : Phase → Phase
  | .ready acc =>
    match s.offer with
    | none => .ready acc
    | some c => if c.funct7 ≠ 0 then .clear c else .fetchVal acc c
  | .clear _ => if m.rspReady then .ready 0 else .responding 0
  | .fetchVal acc c => if s.reply.ack then .fetchFilter acc c else .fetchVal acc c
  | .fetchFilter acc c => if s.reply.ack then .add acc c else .fetchFilter acc c
  | .add acc c =>
    if m.rspReady then .ready (acc + macWord mem c) else .responding (acc + macWord mem c)
  | .responding r => if m.rspReady then .ready r else .responding r

/-- The command accepted in a period. -/
def Phase.accepts : Phase → Option Command
  | .clear c | .add _ c => some c
  | _ => none

/-- The response on the wires at the end of a period. -/
def Phase.response (mem : Memory) : Phase → Option Word
  | .clear _ => some 0
  | .add acc c => some (acc + macWord mem c)
  | .responding r => some r
  | _ => none

/-- The response transferred in a period. -/
def Phase.transfers (mem : Memory) (m : Moves) (p : Phase) : Option Word :=
  if m.rspReady then p.response mem else none

variable {mem : Memory} {m : Moves} {s : Soc State}

theorem tick_ready_none {a : Word} (h : At mem (.ready a) s) (ho : s.offer = none) :
    At mem (.ready a) (s.tick cfu mem true m) ∧ s.accepts cfu m = none ∧
      s.transfers cfu m = none := by
  rcases s with ⟨⟨cs, rv, pay, mv, fv, adr, cyc, stb⟩, offer, acc, rsp, ⟨ack, err, dat⟩, seen⟩
  obtain ⟨hcs, hrv, hpay, ⟨hcyc, hstb, hseen⟩, hlen⟩ := h
  simp only [cfu, State.out] at hcs hrv hpay hcyc hstb hseen hlen ho
  subst hcs hrv hpay hcyc hstb hseen ho
  simp [Soc.tick, Soc.accepts, Soc.transfers, Soc.mid, Soc.wires, cfu, negedgeClk, posedgeClk,
    nextState, State.out, At, Soc.Quiet, hlen]

theorem tick_ready_some {a : Word} {c : Command} (h : At mem (.ready a) s)
    (ho : s.offer = some c) :
    At mem (if c.funct7 ≠ 0 then .clear c else .fetchVal a c) (s.tick cfu mem true m) ∧
      s.accepts cfu m = none ∧ s.transfers cfu m = none := by
  rcases s with ⟨⟨cs, rv, pay, mv, fv, adr, cyc, stb⟩, offer, acc, rsp, ⟨ack, err, dat⟩, seen⟩
  obtain ⟨hcs, hrv, hpay, ⟨hcyc, hstb, hseen⟩, hlen⟩ := h
  simp only [cfu, State.out] at hcs hrv hpay hcyc hstb hseen hlen ho
  subst hcs hrv hpay hcyc hstb hseen ho
  by_cases hc : c.funct7 = 0#7
  · simp [Soc.tick, Soc.accepts, Soc.transfers, Soc.mid, Soc.wires, cfu, negedgeClk, posedgeClk,
      nextState, update, State.out, At, Soc.Offered, nextOffer, hlen, hc]
    exact delivers_next (.inr (.inr rfl))
  · simp [Soc.tick, Soc.accepts, Soc.transfers, Soc.mid, Soc.wires, cfu, negedgeClk, posedgeClk,
      nextState, update, State.out, At, Soc.Offered, Soc.Quiet, nextOffer, hlen, hc]

theorem tick_clear {c : Command} (h : At mem (.clear c) s) :
    At mem (if m.rspReady then .ready 0 else .responding 0) (s.tick cfu mem true m) ∧
      s.accepts cfu m = some c ∧ s.transfers cfu m = if m.rspReady then some 0 else none := by
  rcases s with ⟨⟨cs, rv, pay, mv, fv, adr, cyc, stb⟩, offer, acc, rsp, ⟨ack, err, dat⟩, seen⟩
  obtain ⟨hcs, hrv, hc, ⟨hcyc, hstb, hseen⟩, ho, hlen⟩ := h
  simp only [cfu, State.out] at hcs hrv hcyc hstb hseen hlen ho
  subst hcs hrv hcyc hstb hseen ho
  cases hr : m.rspReady
  all_goals simp [Soc.tick, Soc.accepts, Soc.transfers, Soc.mid, Soc.wires, cfu, negedgeClk,
    posedgeClk, nextState, update, State.out, At, Soc.Quiet, nextOffer, hlen, hr]

theorem tick_fetchVal {a : Word} {c : Command} (h : At mem (.fetchVal a c) s) :
    At mem (if s.reply.ack then .fetchFilter a c else .fetchVal a c) (s.tick cfu mem true m) ∧
      s.accepts cfu m = none ∧ s.transfers cfu m = none := by
  rcases s with ⟨⟨cs, rv, pay, mv, fv, adr, cyc, stb⟩, offer, acc, rsp, ⟨ack, err, dat⟩, seen⟩
  obtain ⟨hcs, hrv, hpay, hc, ⟨ho, hlen⟩, hd⟩ := h
  simp only [Reply.Delivers] at hcs hrv hpay hlen ho hd
  subst hcs hrv hpay ho
  cases ack with
  | true =>
    obtain ⟨rfl, rfl⟩ := hd rfl
    simp [Soc.tick, Soc.accepts, Soc.transfers, Soc.mid, Soc.wires, cfu, negedgeClk,
      posedgeClk, nextState, update, State.out, At, Soc.Offered, nextOffer, hlen, hc]
    exact delivers_next (.inl rfl)
  | false =>
    simp [Soc.tick, Soc.accepts, Soc.transfers, Soc.mid, Soc.wires, cfu, negedgeClk,
      posedgeClk, nextState, update, State.out, At, Soc.Offered, nextOffer, hlen, hc]
    exact delivers_next (.inr (.inl rfl))

theorem tick_fetchFilter {a : Word} {c : Command} (h : At mem (.fetchFilter a c) s) :
    At mem (if s.reply.ack then .add a c else .fetchFilter a c) (s.tick cfu mem true m) ∧
      s.accepts cfu m = none ∧ s.transfers cfu m = none := by
  rcases s with ⟨⟨cs, rv, pay, mv, fv, adr, cyc, stb⟩, offer, acc, rsp, ⟨ack, err, dat⟩, seen⟩
  obtain ⟨hcs, hrv, hpay, hc, ⟨ho, hlen⟩, hd, hmv⟩ := h
  simp only [Reply.Delivers] at hcs hrv hpay hlen ho hd hmv
  subst hcs hrv hpay ho hmv
  cases ack with
  | true =>
    obtain ⟨rfl, rfl⟩ := hd rfl
    simp [Soc.tick, Soc.accepts, Soc.transfers, Soc.mid, Soc.wires, cfu, negedgeClk,
      posedgeClk, nextState, update, State.out, At, Soc.Offered, nextOffer, hlen, hc]
  | false =>
    simp [Soc.tick, Soc.accepts, Soc.transfers, Soc.mid, Soc.wires, cfu, negedgeClk,
      posedgeClk, nextState, update, State.out, At, Soc.Offered, nextOffer, hlen, hc]
    exact delivers_next (.inr (.inl rfl))

theorem tick_add {a : Word} {c : Command} (h : At mem (.add a c) s) :
    At mem (if m.rspReady then .ready (a + macWord mem c) else .responding (a + macWord mem c))
        (s.tick cfu mem true m) ∧
      s.accepts cfu m = some c ∧
      s.transfers cfu m = if m.rspReady then some (a + macWord mem c) else none := by
  rcases s with ⟨⟨cs, rv, pay, mv, fv, adr, cyc, stb⟩, offer, acc, rsp, ⟨ack, err, dat⟩, seen⟩
  obtain ⟨hcs, hrv, hpay, hc, ⟨ho, hlen⟩, hmv, hfv⟩ := h
  simp only at hcs hrv hpay hlen ho hmv hfv
  subst hcs hrv hpay ho hmv hfv
  cases hr : m.rspReady
  all_goals simp [Soc.tick, Soc.accepts, Soc.transfers, Soc.mid, Soc.wires, cfu, negedgeClk,
    posedgeClk, nextState, update, State.out, At, Soc.Quiet, nextOffer, hlen, hr, macWord]

theorem tick_responding {r : Word} (h : At mem (.responding r) s) :
    At mem (if m.rspReady then .ready r else .responding r) (s.tick cfu mem true m) ∧
      s.accepts cfu m = none ∧ s.transfers cfu m = if m.rspReady then some r else none := by
  rcases s with ⟨⟨cs, rv, pay, mv, fv, adr, cyc, stb⟩, offer, acc, rsp, ⟨ack, err, dat⟩, seen⟩
  obtain ⟨hcs, hrv, hpay, ⟨hcyc, hstb, hseen⟩, ho, hlen⟩ := h
  simp only [cfu, State.out] at hcs hrv hpay hcyc hstb hseen hlen ho
  subst hcs hrv hpay hcyc hstb hseen ho
  cases hr : m.rspReady
  all_goals simp [Soc.tick, Soc.accepts, Soc.transfers, Soc.mid, Soc.wires, cfu, negedgeClk,
    posedgeClk, nextState, State.out, At, Soc.Quiet, nextOffer, hlen, hr]

/-- **Step lemma.** One clock period of the CFU under a blocking client. -/
theorem at_tick {p : Phase} (h : At mem p s) :
    At mem (p.next mem m s) (s.tick cfu mem true m) ∧ s.accepts cfu m = p.accepts ∧
      s.transfers cfu m = p.transfers mem m := by
  cases p with
  | ready a =>
    cases ho : s.offer with
    | none => simpa [Phase.next, Phase.accepts, Phase.transfers, Phase.response, ho] using
        tick_ready_none h ho
    | some c => simpa [Phase.next, Phase.accepts, Phase.transfers, Phase.response, ho] using
        tick_ready_some h ho
  | clear c => exact tick_clear h
  | fetchVal a c =>
    simpa [Phase.next, Phase.accepts, Phase.transfers, Phase.response] using tick_fetchVal h
  | fetchFilter a c =>
    simpa [Phase.next, Phase.accepts, Phase.transfers, Phase.response] using tick_fetchFilter h
  | add a c => exact tick_add h
  | responding r => exact tick_responding h

end CfuPlayground.ProjTemplate
