import CfuPlayground.FilterPreload.Respond
import CfuPlayground.Cfu.Integrity

/-!
# Back-pressure on `proj/filter_preload`

As for `proj/proj_template`. A convolution moves the accumulator before it completes, so here a
waiting response must also be gone when `CONV_ADD` is left.
-/

namespace CfuPlayground.FilterPreload

open Lib

/-- The states that `rsp_valid` looks at. -/
def completing (s : State) : Bool := s.curState.val ≥ PipelineState.execConvDone.val

/-- A rising edge that finds a completing state finds `rsp_valid` low, and one that finds
`CONV_ADD` finds it low or takes the response. -/
structure Apart (m : Moves) (s : Soc State) : Prop where
  completing : completing (s.mid cfu m) = true → (s.mid cfu m).rspValid = false
  add : (s.mid cfu m).curState = .execConvAdd → (s.mid cfu m).rspValid = true → m.rspReady = true

/-- The client issues no command that the CFU does not recognise. -/
def Recognising (m : Moves) : Prop := ∀ c, m.next = some c → Recognised c

/-- Ending the walk from the registers `a` ends the one from `a₀`. -/
def Continues (mem : Memory) (a₀ a : Regs) : Prop :=
  ∀ n w, walk a.config n a.counters = some w →
    ∃ n' w', walk a₀.config n' a₀.counters = some w' ∧ convRegs mem a₀ w' = convRegs mem a w

/-- Registers and wires under any client, with `a₀` the registers after the accepted commands. -/
def Wires (mem : Memory) (a₀ : Regs) (s : Soc State) : Prop :=
  match s.cfu.curState with
  | .init => s.cfu.regs = a₀ ∧ s.Quiet cfu
  | .execConvFetchVal => ∃ c a, s.offer = some c ∧ c.funct7 = 0 ∧ s.cfu.regs = a ∧
      Continues mem a₀ a ∧ (s.cfu.rspValid = true → a.acc = a₀.acc) ∧
      s.reply.Delivers mem (wordAdr (curImageAdr a.config a.counters))
  | .execConvFetchFilter => ∃ c a, s.offer = some c ∧ c.funct7 = 0 ∧ s.cfu.regs = a ∧
      Continues mem a₀ a ∧ (s.cfu.rspValid = true → a.acc = a₀.acc) ∧
      s.reply.Delivers mem (wordAdr (curFilterAdr a.config a.counters)) ∧
      s.cfu.matrixVals = mem (wordAdr (curImageAdr a.config a.counters))
  | .execConvAdd => ∃ c a, s.offer = some c ∧ c.funct7 = 0 ∧ s.cfu.regs = a ∧
      Continues mem a₀ a ∧ s.cfu.rspValid = false ∧
      s.cfu.matrixVals = mem (wordAdr (curImageAdr a.config a.counters)) ∧
      s.cfu.filterVals = mem (wordAdr (curFilterAdr a.config a.counters))
  | .execConvCalcCoords => ∃ c a, s.offer = some c ∧ c.funct7 = 0 ∧
      s.cfu.regs = addRegs mem a ∧ Continues mem a₀ a ∧ s.cfu.rspValid = false ∧ s.Quiet cfu
  | .execConvDone => ∃ c w, s.offer = some c ∧ c.funct7 = 0 ∧
      walk a₀.config (2 ^ 30) a₀.counters = some w ∧ s.cfu.regs = convRegs mem a₀ w ∧ s.Quiet cfu
  | p => ∃ c, s.offer = some c ∧ p = decode c.funct7 ∧ c.funct7 ≠ 0 ∧ s.cfu.regs = a₀ ∧ s.Quiet cfu

/-- `Wires` for the accepted commands, and only recognised ones offered. -/
def Overlapped (mem : Memory) (s : Soc State) : Prop :=
  (∀ c, s.offer = some c → Recognised c) ∧
    ∃ a₀, after mem s.accepted ⟨{}, {}, 0⟩ = some a₀ ∧ Wires mem a₀ s

variable {mem : Memory} {m : Moves} {s : Soc State} {a₀ a : Regs}

theorem continues_refl : Continues mem a₀ a₀ := fun n w hw => ⟨n, w, hw, rfl⟩

theorem Continues.fetch (h : Continues mem a₀ a)
    (hcalc : calcCoords a.config (advance a.config a.counters) = .execConvFetchVal) :
    Continues mem a₀ (addRegs mem a) := by
  intro n w hw
  obtain ⟨n', w', hw', heq⟩ := h (n + 1) (a.counters :: w.1, w.2) (by
    rw [walk_of_fetch hcalc]
    exact Option.map_eq_some_iff.mpr ⟨w, hw, rfl⟩)
  exact ⟨n', w', hw', heq.trans (convRegs_cons w)⟩

theorem Continues.done (h : Continues mem a₀ a)
    (hk : a₀.counters.curInputDepth.toNat % 4 = 0)
    (hcalc : calcCoords a.config (advance a.config a.counters) = .execConvDone) :
    ∃ w, walk a₀.config (2 ^ 30) a₀.counters = some w ∧ addRegs mem a = convRegs mem a₀ w := by
  obtain ⟨n', w', hw', heq⟩ := h 1 _ (walk_of_done hcalc)
  exact ⟨w', walk_of_some hk hw', convRegs_last.symm.trans heq.symm⟩

theorem rspValid_mid : (s.mid cfu m).rspValid = s.cfu.rspValid := by
  show (negedgeClk (s.wires m) s.cfu).rspValid = s.cfu.rspValid
  cases hs : s.cfu.curState <;> simp [negedgeClk, update, hs] <;> split_ifs <;> rfl

/-! ## The falling edge -/

theorem wires_set (h : Wires mem a₀ s) (hset : 100 < s.cfu.curState.val) :
    ∃ c, s.offer = some c ∧ s.cfu.curState = decode c.funct7 ∧ c.funct7 ≠ 0 ∧
      s.cfu.regs = a₀ ∧ s.Quiet cfu := by
  unfold Wires at h
  cases hs : s.cfu.curState <;> rw [hs] at h hset <;> first
    | exact h
    | exact absurd hset (by decide)

theorem wires_of_set (hset : 100 < s.cfu.curState.val) (h : ∃ c, s.offer = some c ∧
    s.cfu.curState = decode c.funct7 ∧ c.funct7 ≠ 0 ∧ s.cfu.regs = a₀ ∧ s.Quiet cfu) :
    Wires mem a₀ s := by
  unfold Wires
  cases hs : s.cfu.curState <;> rw [hs] at h hset <;> first
    | exact h
    | exact absurd hset (by decide)

/-- The result due to the last of the commands `cs`. -/
def result (mem : Memory) (cs : List Command) : Option Word :=
  (after mem cs ⟨{}, {}, 0⟩).map Regs.acc

theorem mid_completing (hafter : after mem s.accepted ⟨{}, {}, 0⟩ = some a₀)
    (hw : Wires mem a₀ s) (hrec : ∀ c, s.offer = some c → Recognised c)
    (hc : completing s.cfu = true) :
    ∃ c, s.offer = some c ∧ (s.mid cfu m).curState = .init ∧
      after mem (s.accepted ++ [c]) ⟨{}, {}, 0⟩ = some (s.mid cfu m).regs ∧
      (s.mid cfu m).cfuRamCyc = false ∧ (s.mid cfu m).cfuRamStb = false := by
  have hval : 100 ≤ s.cfu.curState.val := of_decide_eq_true hc
  rcases hval.eq_or_lt with hdone | hset
  · have hst : s.cfu.curState = .execConvDone := by
      cases hs : s.cfu.curState <;> rw [hs] at hdone <;> first
        | rfl
        | exact absurd hdone (by decide)
    unfold Wires at hw
    rw [hst] at hw
    obtain ⟨c, w, ho, h0, hwalk, hregs, -⟩ := hw
    have hmid := mid_eq (m := m) (s := s)
    simp only [update, nextState, hst] at hmid
    have hmregs : (s.mid cfu m).regs = s.cfu.regs := by rw [hmid]; rfl
    refine ⟨c, ho, by rw [hmid], ?_, by rw [hmid], by rw [hmid]⟩
    rw [after_append hafter, hmregs, hregs, respond, if_pos h0, hwalk]
    rfl
  · obtain ⟨c, ho, hcs, h0, hregs, hcyc, hstb, -⟩ := wires_set hw hset
    obtain ⟨h1, -, h3, h4, h5⟩ := mid_set (m := m) ho hcs h0 (hrec c ho)
    refine ⟨c, ho, h5, ?_, h3.trans hcyc, h4.trans hstb⟩
    rw [after_append hafter, h1, hregs, respond_set h0 (hrec c ho)]
    rfl

theorem mid_running (hw : Wires mem a₀ s) (hrec : ∀ c, s.offer = some c → Recognised c)
    (hc : completing s.cfu = false) :
    s.accepts cfu m = none ∧
      (s.cfu.rspValid = true → (s.mid cfu m).rspPayloadOutputs0 = a₀.acc) := by
  rcases s with ⟨⟨cs, rv, pay, g, k, mv, fv, adr, cyc, stb⟩, offer, acc, rsp, ⟨ack, err, dat⟩,
    seen⟩
  cases cs with
  | init =>
    obtain ⟨rfl, -⟩ := hw
    cases offer with
    | none => simp [Soc.accepts, Soc.mid, Soc.wires, cfu, negedgeClk, update, State.regs]
    | some c =>
      have hinit := decode_ne_init (hrec c rfl)
      simp [Soc.accepts, Soc.mid, Soc.wires, cfu, negedgeClk, nextState, update, State.out,
        State.regs, hinit]
  | execConvFetchVal | execConvFetchFilter =>
    obtain ⟨c, a, ho, -, rfl, -, hpay, -⟩ := hw
    cases ack <;> cases err
    all_goals exact ⟨by simp [Soc.accepts, Soc.mid, Soc.wires, cfu, negedgeClk, nextState, update,
      State.out], hpay⟩
  | execConvAdd =>
    obtain ⟨c, a, ho, -, -, -, hrv, -⟩ := hw
    simp only at hrv
    subst hrv
    simp [Soc.accepts, Soc.mid, Soc.wires, cfu, negedgeClk, nextState, update, State.out]
  | execConvCalcCoords =>
    obtain ⟨c, a, ho, -, -, -, hrv, -⟩ := hw
    simp only at hrv
    subst hrv
    rcases calcCoords_cases g k with hk | hk | hk
    all_goals simp [Soc.accepts, Soc.mid, Soc.wires, cfu, negedgeClk, nextState, update,
      State.out, hk]
  | _ => cases hc

theorem overlapped_mid (h : Overlapped mem s) :
    s.accepts cfu m = (if completing s.cfu then s.offer else none) ∧
      (completing s.cfu = true → s.offer.isSome = true ∧ (s.mid cfu m).curState = .init) ∧
      (s.cfu.rspValid = true → result mem (s.accepted ++ (s.accepts cfu m).toList) =
        some (s.mid cfu m).rspPayloadOutputs0) := by
  obtain ⟨hrec, a₀, hafter, hw⟩ := h
  cases hc : completing s.cfu with
  | true =>
    obtain ⟨c, ho, hinit, hmid, -⟩ := mid_completing (m := m) hafter hw hrec hc
    have hacc : s.accepts cfu m = some c := by
      show (if decide ((s.mid cfu m).curState = .init) then s.offer else none) = some c
      rw [hinit, ho]
      rfl
    refine ⟨hacc.trans ho.symm, fun _ => ⟨by rw [ho]; rfl, hinit⟩, fun _ => ?_⟩
    rw [hacc, result, Option.toList_some, hmid]
    rfl
  | false =>
    obtain ⟨hacc, hpay⟩ := mid_running (m := m) hw hrec hc
    refine ⟨hacc, fun h => (by cases h), fun hv => ?_⟩
    rw [hacc, Option.toList_none, List.append_nil, result, hafter, hpay hv]
    rfl

/-! ## One clock period -/

theorem rspValid_tick {blocking : Bool} : (s.tick cfu mem blocking m).cfu.rspValid =
    if s.cfu.rspValid then !m.rspReady else completing (s.mid cfu m) := by
  show (if (s.mid cfu m).rspValid then !m.rspReady else completing (s.mid cfu m)) = _
  rw [rspValid_mid]

theorem offer_of_running {blocking : Bool} (c : Command) (ho : s.offer = some c)
    (hst : (s.tick cfu mem blocking m).cfu.curState ≠ .init) :
    (s.tick cfu mem blocking m).offer = some c := by
  have hst' : (s.mid cfu m).curState ≠ .init := hst
  show nextOffer blocking m (if decide ((s.mid cfu m).curState = .init) then none else s.offer)
    _ _ = some c
  simp [hst', ho, nextOffer]

theorem rspValid_of_tick {blocking : Bool} (hc : completing (s.mid cfu m) = false)
    (h : (s.tick cfu mem blocking m).cfu.rspValid = true) :
    s.cfu.rspValid = true ∧ m.rspReady = false := by
  rw [rspValid_tick, hc] at h
  cases hv : s.cfu.rspValid <;> cases hr : m.rspReady <;> simp [hv, hr] at h ⊢

theorem curState_tick {blocking : Bool} :
    (s.tick cfu mem blocking m).cfu.curState = nextState (s.wires m) s.cfu := rfl

theorem wires_tick_init {blocking : Bool} (hw : Wires mem a₀ s)
    (hrec : ∀ c, s.offer = some c → Recognised c) (hs : s.cfu.curState = .init) :
    Wires mem a₀ (s.tick cfu mem blocking m) := by
  have hkept := @offer_of_running mem m s blocking
  have hnext := @curState_tick mem m s blocking
  rcases s with ⟨⟨cs, rv, pay, g, k, mv, fv, adr, cyc, stb⟩, offer, acc, rsp, ⟨ack, err, dat⟩,
    seen⟩
  obtain rfl : cs = .init := hs
  obtain ⟨rfl, hcyc, hstb, hseen⟩ := hw
  simp only [cfu, State.out] at hcyc hstb hseen
  subst hcyc hstb hseen
  cases offer with
  | none => exact ⟨rfl, rfl, rfl, rfl⟩
  | some c =>
    have hoffer := hkept c rfl (decode_ne_init (hrec c rfl))
    by_cases h0 : c.funct7 = 0
    · have hst := hnext.trans (congrArg decode h0 : decode c.funct7 = .execConvFetchVal)
      unfold Wires
      rw [hst]
      exact ⟨c, ⟨g, k, pay⟩, hoffer, h0, rfl, continues_refl, fun _ => rfl,
        delivers_next (.inr (.inr rfl))⟩
    · exact wires_of_set (decode_set h0 (hrec c rfl)) ⟨c, hoffer, rfl, h0, rfl, rfl, rfl, rfl⟩

theorem wires_tick_fetchVal {blocking : Bool} (hw : Wires mem a₀ s)
    (hs : s.cfu.curState = .execConvFetchVal) :
    Wires mem a₀ (s.tick cfu mem blocking m) := by
  have hvalid := @rspValid_of_tick mem m s blocking
  rcases s with ⟨⟨cs, rv, pay, g, k, mv, fv, adr, cyc, stb⟩, offer, acc, rsp, ⟨ack, err, dat⟩,
    seen⟩
  obtain rfl : cs = .execConvFetchVal := hs
  obtain ⟨c, a, ho, h0, rfl, hcont, hpay, hd⟩ := hw
  simp only [Reply.Delivers] at ho hd
  subst ho
  cases ack with
  | true =>
    obtain ⟨rfl, rfl⟩ := hd rfl
    exact ⟨c, ⟨g, k, pay⟩, rfl, h0, rfl, hcont, fun h => hpay (hvalid rfl h).1,
      delivers_next (.inl rfl), rfl⟩
  | false =>
    cases err
    all_goals exact ⟨c, ⟨g, k, pay⟩, rfl, h0, rfl, hcont, fun h => hpay (hvalid rfl h).1,
      delivers_next (.inr (.inl rfl))⟩

theorem wires_tick_fetchFilter {blocking : Bool} (hw : Wires mem a₀ s) (hapart : Apart m s)
    (hs : s.cfu.curState = .execConvFetchFilter) :
    Wires mem a₀ (s.tick cfu mem blocking m) := by
  have hadd := hapart.add
  have hvalid := @rspValid_of_tick mem m s blocking
  rcases s with ⟨⟨cs, rv, pay, g, k, mv, fv, adr, cyc, stb⟩, offer, acc, rsp, ⟨ack, err, dat⟩,
    seen⟩
  obtain rfl : cs = .execConvFetchFilter := hs
  obtain ⟨c, a, ho, h0, rfl, hcont, hpay, hd, hmv⟩ := hw
  simp only [Reply.Delivers] at ho hd
  subst ho
  cases ack with
  | true =>
    obtain ⟨rfl, rfl⟩ := hd rfl
    refine ⟨c, ⟨g, k, pay⟩, rfl, h0, rfl, hcont, ?_, hmv, rfl⟩
    -- a response still waiting is taken at this rising edge
    by_contra hv
    obtain ⟨hrv, hr⟩ := hvalid rfl (by simpa using hv)
    rw [hadd rfl (rspValid_mid.trans hrv)] at hr
    cases hr
  | false =>
    cases err
    all_goals exact ⟨c, ⟨g, k, pay⟩, rfl, h0, rfl, hcont, fun h => hpay (hvalid rfl h).1,
      delivers_next (.inr (.inl rfl)), hmv⟩

theorem wires_tick_calcCoords {blocking : Bool} (hk : a₀.counters.curInputDepth.toNat % 4 = 0)
    (hw : Wires mem a₀ s) (hs : s.cfu.curState = .execConvCalcCoords) :
    Wires mem a₀ (s.tick cfu mem blocking m) := by
  have hoffer := @offer_of_running mem m s blocking
  have hnext := @curState_tick mem m s blocking
  have hlow : s.cfu.rspValid = false → (s.tick cfu mem blocking m).cfu.curState.val < 100 →
      (s.tick cfu mem blocking m).cfu.rspValid = false := by
    intro hrv hval
    rw [rspValid_tick, hrv]
    exact decide_eq_false (Nat.not_le.mpr hval)
  rcases s with ⟨⟨cs, rv, pay, g, k, mv, fv, adr, cyc, stb⟩, offer, acc, rsp, ⟨ack, err, dat⟩,
    seen⟩
  obtain rfl : cs = .execConvCalcCoords := hs
  obtain ⟨c, a, ho, h0, hregs, hcont, hrv, hcyc, hstb, hseen⟩ := hw
  simp only [cfu, State.out, State.regs, addRegs, Regs.mk.injEq] at ho hrv hcyc hstb hseen hregs
  obtain ⟨rfl, rfl, rfl⟩ := hregs
  subst ho hrv hcyc hstb hseen
  unfold Wires
  rcases calcCoords_cases a.config (advance a.config a.counters) with hp | hp | hp
  · obtain ⟨w, hwalk, hregs⟩ := hcont.done hk hp
    rw [hnext.trans hp]
    exact ⟨c, w, hoffer c rfl (by rw [hnext.trans hp]; decide), h0, hwalk, hregs, rfl, rfl, rfl⟩
  · have hrv := hlow rfl (by rw [hnext.trans hp]; decide)
    rw [hnext.trans hp]
    exact ⟨c, a, hoffer c rfl (by rw [hnext.trans hp]; decide), h0, rfl, hcont, hrv, rfl, rfl,
      rfl⟩
  · have hrv := hlow rfl (by rw [hnext.trans hp]; decide)
    rw [hnext.trans hp]
    exact ⟨c, addRegs mem a, hoffer c rfl (by rw [hnext.trans hp]; decide), h0, rfl,
      hcont.fetch hp, fun h => by (rw [hrv] at h; cases h), delivers_next (.inr (.inr rfl))⟩

theorem wires_tick {blocking : Bool} (hk : a₀.counters.curInputDepth.toNat % 4 = 0)
    (hw : Wires mem a₀ s) (hrec : ∀ c, s.offer = some c → Recognised c) (hapart : Apart m s)
    (hc : completing s.cfu = false) : Wires mem a₀ (s.tick cfu mem blocking m) := by
  cases hs : s.cfu.curState with
  | init => exact wires_tick_init hw hrec hs
  | execConvFetchVal => exact wires_tick_fetchVal hw hs
  | execConvFetchFilter => exact wires_tick_fetchFilter hw hapart hs
  | execConvAdd =>
    rcases s with ⟨⟨cs, rv, pay, g, k, mv, fv, adr, cyc, stb⟩, offer, acc, rsp, reply, seen⟩
    obtain rfl : cs = .execConvAdd := hs
    obtain ⟨c, a, ho, h0, rfl, hcont, hrv, hmv, hfv⟩ := hw
    simp only [State.regs] at ho hrv hmv hfv
    subst ho hrv hmv hfv
    exact ⟨c, ⟨g, k, pay⟩, rfl, h0, rfl, hcont, rfl, rfl, rfl, rfl⟩
  | execConvCalcCoords => exact wires_tick_calcCoords hk hw hs
  | _ => simp [completing, hs, PipelineState.val] at hc

/-- **Step lemma.** -/
theorem overlapped_tick {blocking : Bool} (h : Overlapped mem s) (hm : Recognising m)
    (hapart : Apart m s) : Overlapped mem (s.tick cfu mem blocking m) := by
  have hoffered : ∀ c, (s.tick cfu mem blocking m).offer = some c → Recognised c := by
    intro c hc
    rcases Soc.offer_of_tick hc with hold | hnew
    · exact h.1 c hold
    · exact hm c hnew
  obtain ⟨hacc, -, -⟩ := overlapped_mid (m := m) h
  have haccepted : (s.tick cfu mem blocking m).accepted =
      s.accepted ++ (s.accepts cfu m).toList := rfl
  obtain ⟨hrec, a₀, hafter, hw⟩ := h
  refine ⟨hoffered, ?_⟩
  rw [haccepted, hacc]
  cases hc : completing s.cfu with
  | true =>
    obtain ⟨c, ho, hinit, hmid, hcyc, hstb⟩ := mid_completing (m := m) hafter hw hrec hc
    rw [if_pos rfl, ho]
    refine ⟨(s.mid cfu m).regs, hmid, ?_⟩
    have hst : (s.tick cfu mem blocking m).cfu.curState = .init := hinit
    have hseen : (s.tick cfu mem blocking m).seen =
        ((s.mid cfu m).cfuRamCyc && (s.mid cfu m).cfuRamStb) := rfl
    unfold Wires
    rw [hst]
    exact ⟨rfl, hcyc, hstb, by rw [hseen, hcyc]; rfl⟩
  | false =>
    rw [if_neg (by simp), Option.toList_none, List.append_nil]
    exact ⟨a₀, hafter, wires_tick (depth_after rfl hafter) hw hrec hapart hc⟩

/-- **The handshake** of this CFU in the periods that keep completing states apart. -/
theorem pipelined (mem : Memory) :
    Pipelined cfu mem (result mem) completing (Overlapped mem)
      fun m s => Recognising m ∧ Apart m s where
  valid_mid m s := rspValid_mid
  valid_tick m s := by
    have htick : (s.tick cfu mem false m).cfu.rspValid =
        if s.cfu.rspValid then !m.rspReady else completing (s.mid cfu m) := rspValid_tick
    exact htick
  busy_tick m s := rfl
  apart m s hgood hb := rspValid_mid.symm.trans (hgood.2.completing hb)
  step m s hJ hgood := overlapped_tick hJ hgood.1 hgood.2
  accepts m s hJ := (overlapped_mid hJ).1
  offers s hJ hb := ((overlapped_mid (m := ⟨none, cfuOp0 0 0 0, false, .wait 0⟩) hJ).2.1 hb).1
  leaves m s hJ hb := by
    have hst := ((overlapped_mid (m := m) hJ).2.1 hb).2
    simp [completing, hst, PipelineState.val]
  payload m s hJ hv _ := (overlapped_mid hJ).2.2 hv

theorem integrity (mem : Memory) (moves : ℕ → Moves) (hrec : ∀ n, Recognising (moves n))
    (hapart : ∀ n, Apart (moves n) (Soc.run cfu mem false moves (Soc.start State.start) n)) :
    Integrity cfu (result mem) moves (Soc.run cfu mem false moves (Soc.start State.start)) :=
  (pipelined mem).integrity ⟨fun c h => (by cases h), ⟨{}, {}, 0⟩, rfl, rfl, rfl, rfl, rfl⟩
    (balanced_start rfl rfl) fun n => ⟨hrec n, hapart n⟩

end CfuPlayground.FilterPreload
