import CfuPlayground.FilterPreload.Terminates
import CfuPlayground.Cfu.Host

/-!
# The phases of a blocking client of `proj/filter_preload`

`Regs` are the registers that survive from command to command. `Phase` and `At mem p s` are as
for `proj/proj_template`: what registers and wires are between two commands, in each state of the
FSM while a command is on the wires, and while an accepted command waits for `rsp_ready`;
`stuck` is what an unrecognised command leads to. One `tick_` lemma for each phase says what a
clock period does.
-/

namespace CfuPlayground.FilterPreload

/-- The registers that survive from command to command. -/
structure Regs where
  config : Config
  counters : Counters
  acc : Word
deriving DecidableEq

def State.regs (s : State) : Regs := ⟨s.config, s.counters, s.rspPayloadOutputs0⟩

/-- The commands `next_state` has a branch for. -/
def Recognised (c : Command) : Prop := c.funct7.toNat ≤ 8

instance (c : Command) : Decidable (Recognised c) :=
  inferInstanceAs (Decidable (c.funct7.toNat ≤ 8))

/-- The wires of a command. -/
def commandIn (c : Command) : In := ⟨true, c, false, false, 0, false, false⟩

/-- The registers after a `SET` command. -/
def setRegs (c : Command) (a : Regs) : Regs :=
  (update (commandIn c) { State.start with
    curState := decode c.funct7, config := a.config, counters := a.counters,
    rspPayloadOutputs0 := a.acc }).regs

/-- What `CONV_ADD` adds at the counters `k`. -/
def tapSum (mem : Memory) (g : Config) (k : Counters) : Word :=
  sumProds g k (mem (wordAdr (curImageAdr g k))) (mem (wordAdr (curFilterAdr g k)))

/-- The registers after one `CONV_ADD`. -/
def addRegs (mem : Memory) (a : Regs) : Regs where
  config := a.config
  counters := advance a.config a.counters
  acc := a.acc + tapSum mem a.config a.counters

inductive Phase
  | ready (a : Regs)
  | set (a : Regs) (c : Command)
  | fetchVal (a : Regs) (c : Command)
  | fetchFilter (a : Regs) (c : Command)
  | add (a : Regs) (c : Command)
  | coords (a : Regs) (c : Command)
  | done (a : Regs) (c : Command)
  | responding (a : Regs)
  | stuck

/-- What a phase says about registers and wires. -/
def At (mem : Memory) : Phase → Soc State → Prop
  | .ready a, s =>
    s.cfu.curState = .init ∧ s.cfu.rspValid = false ∧ s.cfu.regs = a ∧ s.Quiet cfu ∧
      s.accepted.length = s.responses.length
  | .set a c, s =>
    s.cfu.curState = decode c.funct7 ∧ s.cfu.rspValid = true ∧ s.cfu.regs = a ∧ s.Quiet cfu ∧
      s.Offered c ∧ c.funct7 ≠ 0 ∧ Recognised c
  | .fetchVal a c, s =>
    s.cfu.curState = .execConvFetchVal ∧ s.cfu.rspValid = false ∧ s.cfu.regs = a ∧
      c.funct7 = 0 ∧ s.Offered c ∧
      s.reply.Delivers mem (wordAdr (curImageAdr a.config a.counters))
  | .fetchFilter a c, s =>
    s.cfu.curState = .execConvFetchFilter ∧ s.cfu.rspValid = false ∧ s.cfu.regs = a ∧
      c.funct7 = 0 ∧ s.Offered c ∧
      s.reply.Delivers mem (wordAdr (curFilterAdr a.config a.counters)) ∧
      s.cfu.matrixVals = mem (wordAdr (curImageAdr a.config a.counters))
  | .add a c, s =>
    s.cfu.curState = .execConvAdd ∧ s.cfu.rspValid = false ∧ s.cfu.regs = a ∧ c.funct7 = 0 ∧
      s.Offered c ∧ s.cfu.matrixVals = mem (wordAdr (curImageAdr a.config a.counters)) ∧
      s.cfu.filterVals = mem (wordAdr (curFilterAdr a.config a.counters))
  | .coords a c, s =>
    s.cfu.curState = .execConvCalcCoords ∧ s.cfu.rspValid = false ∧ s.cfu.regs = a ∧
      c.funct7 = 0 ∧ s.Offered c ∧ s.Quiet cfu
  | .done a c, s =>
    s.cfu.curState = .execConvDone ∧ s.cfu.rspValid = true ∧ s.cfu.regs = a ∧ c.funct7 = 0 ∧
      s.Quiet cfu ∧ s.Offered c
  | .responding a, s =>
    s.cfu.curState = .init ∧ s.cfu.rspValid = true ∧ s.cfu.regs = a ∧ s.Quiet cfu ∧
      s.offer = none ∧ s.accepted.length = s.responses.length + 1
  | .stuck, s =>
    s.cfu.curState = .init ∧ s.cfu.rspValid = false ∧ s.offer = none ∧
      s.accepted.length = s.responses.length + 1

variable {mem : Memory} {m : Moves} {s : Soc State} {a : Regs} {c : Command}

/-! ## The `SET` states -/

theorem decode_unrecognised (h : ¬ Recognised c) : decode c.funct7 = .init := by
  unfold Recognised at h
  have hne : ∀ v : BitVec 7, v.toNat ≤ 8 → c.funct7 ≠ v := by
    rintro v hv rfl
    exact h hv
  simp [decode, hne]

theorem decode_ne_init (h : Recognised c) : decode c.funct7 ≠ .init := by
  unfold Recognised at h
  have hcases : ∀ v : BitVec 7, v.toNat ≤ 8 → decode v ≠ .init := by decide
  exact hcases _ h

theorem decode_ne_mid (v : BitVec 7) :
    decode v ≠ .execConvFetchFilter ∧ decode v ≠ .execConvAdd := by
  revert v
  decide

theorem decode_set (h0 : c.funct7 ≠ 0) (h : Recognised c) : 100 < (decode c.funct7).val := by
  unfold Recognised at h
  have hcases : ∀ v : BitVec 7, v ≠ 0 → v.toNat ≤ 8 → 100 < (decode v).val := by decide
  exact hcases _ h0 h

theorem update_set {i : In} {r : State} (hr : 100 < r.curState.val)
    (hc : r.curState = decode i.cmdPayload.funct7) :
    (update i r).regs = setRegs i.cmdPayload r.regs ∧ (update i r).rspValid = r.rspValid ∧
      (update i r).cfuRamCyc = r.cfuRamCyc ∧ (update i r).cfuRamStb = r.cfuRamStb ∧
      nextState i r = .init := by
  unfold setRegs
  rw [← hc]
  rcases r with ⟨p, rv, pay, g, k, mv, fv, adr, cyc, stb⟩
  cases p <;> first
    | (simp [PipelineState.val] at hr; done)
    | exact ⟨rfl, rfl, rfl, rfl, rfl⟩

/-! ## One clock period -/

theorem mid_eq : s.mid cfu m =
    { update (s.wires m) s.cfu with curState := nextState (s.wires m) s.cfu } := by
  show negedgeClk (s.wires m) s.cfu = _
  simp [negedgeClk, Soc.wires]

theorem mid_set (ho : s.offer = some c) (hcs : s.cfu.curState = decode c.funct7)
    (h0 : c.funct7 ≠ 0) (hrec : Recognised c) :
    (s.mid cfu m).regs = setRegs c s.cfu.regs ∧ (s.mid cfu m).rspValid = s.cfu.rspValid ∧
      (s.mid cfu m).cfuRamCyc = s.cfu.cfuRamCyc ∧ (s.mid cfu m).cfuRamStb = s.cfu.cfuRamStb ∧
      (s.mid cfu m).curState = .init := by
  have hpayload : (s.wires m).cmdPayload = c := by
    rw [Soc.wires, ho]
    rfl
  have hupd := update_set (i := s.wires m) (r := s.cfu)
    (by rw [hcs]; exact decode_set h0 hrec) (by rw [hcs, hpayload])
  rw [hpayload] at hupd
  rw [mid_eq]
  exact hupd

/-- A period that completes the command on the wires: it is accepted, and its response comes up. -/
theorem tick_of_completing {a' : Regs} (ho : s.Offered c)
    (hst : (s.mid cfu m).curState = .init) (hrv : (s.mid cfu m).rspValid = true)
    (hregs : (s.mid cfu m).regs = a') (hcyc : (s.mid cfu m).cfuRamCyc = false)
    (hstb : (s.mid cfu m).cfuRamStb = false) :
    At mem (if m.rspReady then .ready a' else .responding a') (s.tick cfu mem true m) ∧
      s.accepts cfu m = some c ∧
      s.transfers cfu m = if m.rspReady then some a'.acc else none := by
  obtain ⟨hoffer, hlen⟩ := ho
  simp only [Soc.tick, Soc.accepts, Soc.transfers]
  have hready : (s.wires m).rspReady = m.rspReady := rfl
  have hreset : (s.wires m).reset = false := rfl
  generalize s.mid cfu m = u at *
  rcases u with ⟨p, rv, pay, g, k, mv, fv, adr, cyc, stb⟩
  simp only at hst hrv hcyc hstb
  subst hst hrv hregs hcyc hstb
  cases hr : m.rspReady
  all_goals simp [At, Soc.Quiet, cfu, State.out, State.regs, posedgeClk, nextOffer, hoffer, hlen,
    hready, hreset, hr]

theorem tick_set (h : At mem (.set a c) s) :
    At mem (if m.rspReady then .ready (setRegs c a) else .responding (setRegs c a))
        (s.tick cfu mem true m) ∧
      s.accepts cfu m = some c ∧
      s.transfers cfu m = if m.rspReady then some (setRegs c a).acc else none := by
  obtain ⟨hcs, hrv, hregs, ⟨hcyc, hstb, -⟩, ho, h0, hrec⟩ := h
  obtain ⟨h1, h2, h3, h4, h5⟩ := mid_set (m := m) ho.1 hcs h0 hrec
  rw [hregs] at h1
  exact tick_of_completing ho h5 (h2.trans hrv) h1 (h3.trans hcyc) (h4.trans hstb)

theorem tick_done (h : At mem (.done a c) s) :
    At mem (if m.rspReady then .ready a else .responding a) (s.tick cfu mem true m) ∧
      s.accepts cfu m = some c ∧ s.transfers cfu m = if m.rspReady then some a.acc else none := by
  obtain ⟨hcs, hrv, hregs, -, -, ho⟩ := h
  have hmid := mid_eq (m := m) (s := s)
  simp only [update, nextState, hcs] at hmid
  exact tick_of_completing ho (by rw [hmid]) (by rw [hmid]; exact hrv)
    (by rw [hmid]; exact hregs) (by rw [hmid]) (by rw [hmid])

theorem tick_ready_none (h : At mem (.ready a) s) (ho : s.offer = none) :
    At mem (.ready a) (s.tick cfu mem true m) ∧ s.accepts cfu m = none ∧
      s.transfers cfu m = none := by
  rcases s with ⟨⟨cs, rv, pay, g, k, mv, fv, adr, cyc, stb⟩, offer, acc, rsp, ⟨ack, err, dat⟩,
    seen⟩
  obtain ⟨hcs, hrv, hregs, ⟨hcyc, hstb, hseen⟩, hlen⟩ := h
  simp only [cfu, State.out] at hcs hrv hregs hcyc hstb hseen hlen ho
  subst hcs hrv hregs hcyc hstb hseen ho
  simp [Soc.tick, Soc.accepts, Soc.transfers, Soc.mid, Soc.wires, cfu, negedgeClk, posedgeClk,
    nextState, update, State.out, State.regs, At, Soc.Quiet, PipelineState.val, hlen]

/-- The phase a command leads to. -/
def dispatch (a : Regs) (c : Command) : Phase :=
  if c.funct7 = 0 then .fetchVal a c else if Recognised c then .set a c else .stuck

theorem tick_ready_some (h : At mem (.ready a) s) (ho : s.offer = some c) :
    At mem (dispatch a c) (s.tick cfu mem true m) ∧
      s.accepts cfu m = (if Recognised c then none else some c) ∧ s.transfers cfu m = none := by
  rcases s with ⟨⟨cs, rv, pay, g, k, mv, fv, adr, cyc, stb⟩, offer, acc, rsp, ⟨ack, err, dat⟩,
    seen⟩
  obtain ⟨hcs, hrv, hregs, ⟨hcyc, hstb, hseen⟩, hlen⟩ := h
  simp only [cfu, State.out] at hcs hrv hregs hcyc hstb hseen hlen ho
  subst hcs hrv hregs hcyc hstb hseen ho
  unfold dispatch
  by_cases h0 : c.funct7 = 0#7
  · have hrec : Recognised c := by simp [Recognised, h0]
    have hdec : decode 0#7 = .execConvFetchVal := rfl
    simp [Soc.tick, Soc.accepts, Soc.transfers, Soc.mid, Soc.wires, cfu, negedgeClk, posedgeClk,
      nextState, update, State.out, State.regs, At, Soc.Offered, PipelineState.val, nextOffer, hlen,
      h0, hrec, hdec]
    exact delivers_next (.inr (.inr rfl))
  · by_cases hrec : Recognised c
    · have hval := decode_set h0 hrec
      have hinit := decode_ne_init hrec
      have hval' : 100 ≤ (decode c.funct7).val := hval.le
      simp [Soc.tick, Soc.accepts, Soc.transfers, Soc.mid, Soc.wires, cfu, negedgeClk, posedgeClk,
        nextState, update, State.out, State.regs, At, Soc.Offered, Soc.Quiet, nextOffer, hlen,
        h0, hrec, hinit, hval', PipelineState.val.eq_6]
    · have hdec := decode_unrecognised hrec
      simp [Soc.tick, Soc.accepts, Soc.transfers, Soc.mid, Soc.wires, cfu, negedgeClk, posedgeClk,
        nextState, update, State.out, At, PipelineState.val, nextOffer, hlen, h0, hrec, hdec]

theorem tick_fetchVal (h : At mem (.fetchVal a c) s) :
    At mem (if s.reply.ack then .fetchFilter a c else .fetchVal a c) (s.tick cfu mem true m) ∧
      s.accepts cfu m = none ∧ s.transfers cfu m = none := by
  rcases s with ⟨⟨cs, rv, pay, g, k, mv, fv, adr, cyc, stb⟩, offer, acc, rsp, ⟨ack, err, dat⟩,
    seen⟩
  obtain ⟨hcs, hrv, hregs, hc, ⟨ho, hlen⟩, hd⟩ := h
  simp only [Reply.Delivers, State.regs] at hcs hrv hregs hlen ho hd
  subst hcs hrv hregs ho
  cases ack with
  | true =>
    obtain ⟨rfl, rfl⟩ := hd rfl
    simp [Soc.tick, Soc.accepts, Soc.transfers, Soc.mid, Soc.wires, cfu, negedgeClk, posedgeClk,
      nextState, update, State.out, State.regs, At, Soc.Offered, PipelineState.val, nextOffer,
      hlen, hc]
    exact delivers_next (.inl rfl)
  | false =>
    simp [Soc.tick, Soc.accepts, Soc.transfers, Soc.mid, Soc.wires, cfu, negedgeClk, posedgeClk,
      nextState, update, State.out, State.regs, At, Soc.Offered, PipelineState.val, nextOffer,
      hlen, hc]
    exact delivers_next (.inr (.inl rfl))

theorem tick_fetchFilter (h : At mem (.fetchFilter a c) s) :
    At mem (if s.reply.ack then .add a c else .fetchFilter a c) (s.tick cfu mem true m) ∧
      s.accepts cfu m = none ∧ s.transfers cfu m = none := by
  rcases s with ⟨⟨cs, rv, pay, g, k, mv, fv, adr, cyc, stb⟩, offer, acc, rsp, ⟨ack, err, dat⟩,
    seen⟩
  obtain ⟨hcs, hrv, hregs, hc, ⟨ho, hlen⟩, hd, hmv⟩ := h
  simp only [Reply.Delivers, State.regs] at hcs hrv hregs hlen ho hd hmv
  subst hcs hrv hregs ho hmv
  cases ack with
  | true =>
    obtain ⟨rfl, rfl⟩ := hd rfl
    simp [Soc.tick, Soc.accepts, Soc.transfers, Soc.mid, Soc.wires, cfu, negedgeClk, posedgeClk,
      nextState, update, State.out, State.regs, At, Soc.Offered, PipelineState.val, nextOffer,
      hlen, hc]
  | false =>
    simp [Soc.tick, Soc.accepts, Soc.transfers, Soc.mid, Soc.wires, cfu, negedgeClk, posedgeClk,
      nextState, update, State.out, State.regs, At, Soc.Offered, PipelineState.val, nextOffer,
      hlen, hc]
    exact delivers_next (.inr (.inl rfl))

theorem tick_add (h : At mem (.add a c) s) :
    At mem (.coords (addRegs mem a) c) (s.tick cfu mem true m) ∧ s.accepts cfu m = none ∧
      s.transfers cfu m = none := by
  rcases s with ⟨⟨cs, rv, pay, g, k, mv, fv, adr, cyc, stb⟩, offer, acc, rsp, ⟨ack, err, dat⟩,
    seen⟩
  obtain ⟨hcs, hrv, hregs, hc, ⟨ho, hlen⟩, hmv, hfv⟩ := h
  simp only [State.regs] at hcs hrv hregs hlen ho hmv hfv
  subst hcs hrv hregs ho hmv hfv
  simp [Soc.tick, Soc.accepts, Soc.transfers, Soc.mid, Soc.wires, cfu, negedgeClk, posedgeClk,
    nextState, update, State.out, State.regs, addRegs, tapSum, At, Soc.Offered, Soc.Quiet,
    PipelineState.val, nextOffer, hlen, hc]

/-- The phase after `CALC_COORDS`. -/
def afterCoords (a : Regs) (c : Command) : Phase :=
  match calcCoords a.config a.counters with
  | .execConvDone => .done a c
  | .execConvFetchVal => .fetchVal a c
  | _ => .coords a c

theorem tick_coords (h : At mem (.coords a c) s) :
    At mem (afterCoords a c) (s.tick cfu mem true m) ∧ s.accepts cfu m = none ∧
      s.transfers cfu m = none := by
  rcases s with ⟨⟨cs, rv, pay, g, k, mv, fv, adr, cyc, stb⟩, offer, acc, rsp, ⟨ack, err, dat⟩,
    seen⟩
  obtain ⟨hcs, hrv, hregs, hc, ⟨ho, hlen⟩, ⟨hcyc, hstb, hseen⟩⟩ := h
  simp only [cfu, State.out] at hcs hrv hregs hcyc hstb hseen hlen ho
  subst hcs hrv hregs hcyc hstb hseen ho
  unfold afterCoords
  rcases calcCoords_cases g k with hk | hk | hk
  · simp [Soc.tick, Soc.accepts, Soc.transfers, Soc.mid, Soc.wires, cfu, negedgeClk, posedgeClk,
      nextState, update, State.out, State.regs, At, Soc.Offered, Soc.Quiet, PipelineState.val,
      nextOffer, hlen, hc, hk]
  · simp [Soc.tick, Soc.accepts, Soc.transfers, Soc.mid, Soc.wires, cfu, negedgeClk, posedgeClk,
      nextState, update, State.out, State.regs, At, Soc.Offered, Soc.Quiet, PipelineState.val,
      nextOffer, hlen, hc, hk]
  · simp [Soc.tick, Soc.accepts, Soc.transfers, Soc.mid, Soc.wires, cfu, negedgeClk, posedgeClk,
      nextState, update, State.out, State.regs, At, Soc.Offered, PipelineState.val, nextOffer,
      hlen, hc, hk]
    exact delivers_next (.inr (.inr rfl))

theorem tick_responding (h : At mem (.responding a) s) :
    At mem (if m.rspReady then .ready a else .responding a) (s.tick cfu mem true m) ∧
      s.accepts cfu m = none ∧ s.transfers cfu m = if m.rspReady then some a.acc else none := by
  rcases s with ⟨⟨cs, rv, pay, g, k, mv, fv, adr, cyc, stb⟩, offer, acc, rsp, ⟨ack, err, dat⟩,
    seen⟩
  obtain ⟨hcs, hrv, hregs, ⟨hcyc, hstb, hseen⟩, ho, hlen⟩ := h
  simp only [cfu, State.out] at hcs hrv hregs hcyc hstb hseen hlen ho
  subst hcs hrv hregs hcyc hstb hseen ho
  cases hr : m.rspReady
  all_goals simp [Soc.tick, Soc.accepts, Soc.transfers, Soc.mid, Soc.wires, cfu, negedgeClk,
    posedgeClk, nextState, update, State.out, State.regs, At, Soc.Quiet, nextOffer, hlen, hr]

theorem tick_stuck (h : At mem .stuck s) :
    At mem .stuck (s.tick cfu mem true m) ∧ s.accepts cfu m = none ∧
      s.transfers cfu m = none := by
  rcases s with ⟨⟨cs, rv, pay, g, k, mv, fv, adr, cyc, stb⟩, offer, acc, rsp, ⟨ack, err, dat⟩,
    seen⟩
  obtain ⟨hcs, hrv, ho, hlen⟩ := h
  simp only at hcs hrv hlen ho
  subst hcs hrv ho
  simp [Soc.tick, Soc.accepts, Soc.transfers, Soc.mid, Soc.wires, cfu, negedgeClk, posedgeClk,
    nextState, update, State.out, At, PipelineState.val, nextOffer, hlen]

/-- The phase after a period that starts with the wires of `s`. -/
def Phase.next (mem : Memory) (m : Moves) (s : Soc State) : Phase → Phase
  | .ready a =>
    match s.offer with
    | none => .ready a
    | some c => dispatch a c
  | .set a c => if m.rspReady then .ready (setRegs c a) else .responding (setRegs c a)
  | .fetchVal a c => if s.reply.ack then .fetchFilter a c else .fetchVal a c
  | .fetchFilter a c => if s.reply.ack then .add a c else .fetchFilter a c
  | .add a c => .coords (addRegs mem a) c
  | .coords a c => afterCoords a c
  | .done a _ | .responding a => if m.rspReady then .ready a else .responding a
  | .stuck => .stuck

/-- **Step lemma.** One clock period of the CFU under a blocking client. -/
theorem at_tick {p : Phase} (h : At mem p s) :
    At mem (p.next mem m s) (s.tick cfu mem true m) := by
  cases p with
  | ready a =>
    cases ho : s.offer with
    | none => simpa only [Phase.next, ho] using (tick_ready_none h ho).1
    | some c => simpa only [Phase.next, ho] using (tick_ready_some h ho).1
  | set a c => exact (tick_set h).1
  | fetchVal a c => exact (tick_fetchVal h).1
  | fetchFilter a c => exact (tick_fetchFilter h).1
  | add a c => exact (tick_add h).1
  | coords a c => exact (tick_coords h).1
  | done a c => exact (tick_done h).1
  | responding a => exact (tick_responding h).1
  | stuck => exact (tick_stuck h).1

end CfuPlayground.FilterPreload
