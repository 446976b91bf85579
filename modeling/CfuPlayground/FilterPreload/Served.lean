import CfuPlayground.FilterPreload.Addresses
import CfuPlayground.Cfu.Paths

/-!
# A convolution in progress

While the CFU serves a command, its configuration is that of the commands answered before. With
the paths of the kernel this gives what the registers are in the middle of its convolutions.

* `tracks`: the CFU tracks the commands, phase by phase.
* `add_of_run`: the registers whenever the kernel on its CFU has come to `CONV_ADD`.
-/

namespace CfuPlayground.FilterPreload

open Lib Tflite

/-- After `SET_BASE_OFFSETS` the filter column stays below the width of the filter. -/
def InWidth (cs : List Command) (a : Regs) : Prop :=
  EndsAtOrigin cs → a.config.filterWidth ≠ 0 → a.counters.curFilterX < a.config.filterWidth

/-- The registers while a command is served that comes after the commands `cs`. -/
def Holding (c₀ : Config) (cs : List Command) (a : Regs) : Prop :=
  a.config = configAfter c₀ cs ∧ InWidth cs a

/-- The registers in a phase that serves the command `c`. -/
def Serving (c₀ : Config) (cs : List Command) (c : Command) (s : Soc State) : Phase → Prop
  | .ready a => Holding c₀ cs a ∧ s.offer = some c
  | .set a c' | .fetchVal a c' | .fetchFilter a c' | .add a c' | .coords a c' | .done a c' =>
    Holding c₀ cs a ∧ c' = c
  | .responding a => Holding c₀ (cs ++ [c]) a
  | .stuck => True

variable {mem : Memory} {m : Moves} {s : Soc State} {a : Regs} {c : Command} {c₀ : Config}
  {cs : List Command} {p : Phase}

/-! ## Registers -/

theorem config_update {i : In} {u v : State} (hs : u.curState = v.curState)
    (hc : u.config = v.config) : (update i u).config = (update i v).config := by
  unfold update
  rw [hs]
  split
  all_goals simp only [hc]

theorem config_setRegs (c : Command) (a : Regs) : (setRegs c a).config = setConfig c a.config :=
  config_update rfl rfl

theorem pos_of_ne_zero {x : Word} (hx : x ≠ 0) : 0 < x :=
  BitVec.lt_def.mpr (Nat.pos_of_ne_zero fun h => hx (BitVec.eq_of_toNat_eq h))

theorem holding_set (h : Holding c₀ cs a) : Holding c₀ (cs ++ [c]) (setRegs c a) := by
  refine ⟨?_, fun h8 hwidth => ?_⟩
  · rw [config_setRegs, h.1, configAfter_append]
  · have hx : (setRegs c a).counters.curFilterX = 0 := by
      unfold setRegs
      rw [(endsAtOrigin_append cs c).mp h8]
      rfl
    rw [hx]
    exact pos_of_ne_zero hwidth

theorem holding_done (h : Holding c₀ cs a) (h0 : c.funct7 = 0) : Holding c₀ (cs ++ [c]) a := by
  refine ⟨?_, fun h8 => ?_⟩
  · rw [configAfter_append, setConfig_conv _ h0, h.1]
  · rw [endsAtOrigin_append, h0] at h8
    cases h8

theorem holding_add (h : Holding c₀ cs a) : Holding c₀ cs (addRegs mem a) := by
  refine ⟨h.1, fun h8 hwidth => ?_⟩
  have hpos : 0 < a.config.filterWidth := pos_of_ne_zero hwidth
  have hx := h.2 h8 hwidth
  show (advance a.config a.counters).curFilterX < a.config.filterWidth
  unfold advance columnEnd
  split_ifs with hd hc
  · exact hpos
  · exact hpos
  · simp only [Bool.or_eq_true, decide_eq_true_eq, not_or, ge_iff_le, BitVec.not_le] at hc
    exact hc.1
  · exact hx

/-! ## Phases -/

theorem completes {a' : Regs} {r : Word}
    (h : At mem (if m.rspReady then .ready a' else .responding a') (s.tick cfu mem true m) ∧
      s.accepts cfu m = some c ∧ s.transfers cfu m = if m.rspReady then some a'.acc else none)
    (ho : s.offer = some c) (htr : s.transfers cfu m = some r) :
    At mem (.ready a') (s.tick cfu mem true m) ∧ (s.tick cfu mem true m).offer = m.next := by
  obtain ⟨hat, hacc, hresp⟩ := h
  rw [htr] at hresp
  have hr : m.rspReady = true := by
    by_contra hr
    rw [if_neg hr] at hresp
    cases hresp
  rw [if_pos hr] at hat
  exact ⟨hat, Soc.offer_tick (.inr (hacc.trans ho.symm)) hat.2.2.2.2⟩

theorem waits {a' : Regs} (h : s.transfers cfu m = if m.rspReady then some a'.acc else none)
    (htr : s.transfers cfu m = none) : m.rspReady = false := by
  rw [htr] at h
  by_contra hr
  rw [if_pos (by simpa using hr)] at h
  cases h

/-- **Step lemma**, without a response. -/
theorem serving_next (h : At mem p s) (hs : Serving c₀ cs c s p)
    (htr : s.transfers cfu m = none) :
    Serving c₀ cs c (s.tick cfu mem true m) (p.next mem m s) := by
  cases p with
  | ready a =>
    obtain ⟨hold, ho⟩ := hs
    simp only [Phase.next, ho, dispatch]
    split_ifs
    · exact ⟨hold, rfl⟩
    · exact ⟨hold, rfl⟩
    · trivial
  | set a c' =>
    obtain ⟨hold, rfl⟩ := hs
    simp only [Phase.next, waits (tick_set h).2.2 htr]
    exact holding_set hold
  | fetchVal a c' =>
    simp only [Phase.next]
    split_ifs
    · exact hs
    · exact hs
  | fetchFilter a c' =>
    simp only [Phase.next]
    split_ifs
    · exact hs
    · exact hs
  | add a c' => exact ⟨holding_add hs.1, hs.2⟩
  | coords a c' =>
    simp only [Phase.next, afterCoords]
    split
    · exact hs
    · exact hs
    · exact hs
  | done a c' =>
    obtain ⟨hold, rfl⟩ := hs
    simp only [Phase.next, waits (tick_done h).2.2 htr]
    exact holding_done hold h.2.2.2.1
  | responding a =>
    simp only [Phase.next, waits (tick_responding h).2.2 htr]
    exact hs
  | stuck => trivial

/-- **Step lemma**, with a response. -/
theorem serving_finish (h : At mem p s) (hs : Serving c₀ cs c s p) {r : Word}
    (htr : s.transfers cfu m = some r) :
    (∃ a, At mem (.ready a) (s.tick cfu mem true m) ∧ Holding c₀ (cs ++ [c]) a) ∧
      (s.tick cfu mem true m).offer = m.next := by
  cases p with
  | set a c' =>
    obtain ⟨hold, rfl⟩ := hs
    obtain ⟨hat, ho⟩ := completes (tick_set h) h.2.2.2.2.1.1 htr
    exact ⟨⟨_, hat, holding_set hold⟩, ho⟩
  | done a c' =>
    obtain ⟨hold, rfl⟩ := hs
    obtain ⟨hat, ho⟩ := completes (tick_done h) h.2.2.2.2.2.1 htr
    exact ⟨⟨_, hat, holding_done hold h.2.2.2.1⟩, ho⟩
  | responding a =>
    obtain ⟨hat, -, hresp⟩ := tick_responding (m := m) h
    rw [htr] at hresp
    have hr : m.rspReady = true := by
      by_contra hr
      rw [if_neg hr] at hresp
      cases hresp
    rw [if_pos hr] at hat
    exact ⟨⟨a, hat, hs⟩, Soc.offer_tick (.inl h.2.2.2.2.1) hat.2.2.2.2⟩
  | ready a => rw [(tick_ready_some h hs.2).2.2] at htr; cases htr
  | fetchVal a c' => rw [(tick_fetchVal h).2.2] at htr; cases htr
  | fetchFilter a c' => rw [(tick_fetchFilter h).2.2] at htr; cases htr
  | add a c' => rw [(tick_add h).2.2] at htr; cases htr
  | coords a c' => rw [(tick_coords h).2.2] at htr; cases htr
  | stuck => rw [(tick_stuck h).2.2] at htr; cases htr

/-- Between two commands, after the commands `cs`. -/
def Resting (mem : Memory) (c₀ : Config) (cs : List Command) (s : Soc State) : Prop :=
  ∃ a, At mem (.ready a) s ∧ Holding c₀ cs a

/-- In a phase of the command `c`, after the commands `cs`. -/
def InService (mem : Memory) (c₀ : Config) (cs : List Command) (c : Command) (s : Soc State) :
    Prop :=
  ∃ p, At mem p s ∧ Serving c₀ cs c s p

/-- **The CFU tracks its commands.** -/
theorem tracks (mem : Memory) (c₀ : Config) :
    Tracks cfu mem (Resting mem c₀) (InService mem c₀) where
  stay := by
    rintro cs s ⟨a, h, hold⟩ ho m
    obtain ⟨hat, -, htr⟩ := tick_ready_none (m := m) h ho
    exact ⟨htr, ⟨a, hat, hold⟩, Soc.offer_tick (.inl ho) hat.2.2.2.2⟩
  start := by
    rintro cs s c ⟨a, h, hold⟩ ho
    exact ⟨.ready a, h, hold, ho⟩
  keep := by
    rintro cs c s ⟨p, h, hs⟩ m htr
    exact ⟨p.next mem m s, at_tick h, serving_next h hs htr⟩
  finish := by
    rintro cs c s ⟨p, h, hs⟩ m r htr
    exact serving_finish h hs htr

/-! ## The convolutions of the kernel -/

theorem phase_of_add (h : At mem p s) (hadd : s.cfu.curState = .execConvAdd) :
    ∃ a c, p = .add a c := by
  have hval : s.cfu.curState.val = 3 := by
    rw [hadd]
    rfl
  cases p with
  | add a c => exact ⟨a, c, rfl⟩
  | set a c =>
    have hset := decode_set h.2.2.2.2.2.1 h.2.2.2.2.2.2
    rw [← h.1, hval] at hset
    omega
  | _ => rw [h.1] at hval; cases hval

theorem depth_tick (hk : s.cfu.counters.curInputDepth.toNat % 4 = 0) (blocking : Bool) :
    (s.tick cfu mem blocking m).cfu.counters.curInputDepth.toNat % 4 = 0 := by
  show (s.mid cfu m).counters.curInputDepth.toNat % 4 = 0
  rw [mid_eq]
  exact depth_update hk

/-- What the registers hold when the CFU adds a tap of the output `p`. -/
structure AtTap (mem : Memory) (g : Geometry) (r : Arguments) (p : Position) (s : State) :
    Prop where
  config : s.config = convConfig g r p
  column : g.filterWidth ≠ 0 → s.counters.curFilterX < g.filterWidth
  depth : s.counters.curInputDepth.toNat % 4 = 0
  matrixVals : s.matrixVals = mem (wordAdr (curImageAdr s.config s.counters))
  filterVals : s.filterVals = mem (wordAdr (curFilterAdr s.config s.counters))

/-- **Every `CONV_ADD`** that the kernel comes to adds a tap of one of its outputs. -/
theorem add_of_run {T : Target} {g : Geometry} {r : Arguments} {pace : ℕ → Pace}
    (hidle : Idle mem a s) (ho : s.offer = none) {n : ℕ} {h : Host State Output}
    (hrun : Host.run cfu mem pace ⟨convPerChannelFilterPreload T (g.params r) (g.data r), s⟩ n = h)
    (hadd : h.soc.cfu.curState = .execConvAdd) :
    ∃ p ∈ positions g.dimensions, AtTap mem g r p h.soc.cfu := by
  have hstart : Holding a.config [] a := by
    refine ⟨rfl, fun h8 => ?_⟩
    obtain ⟨c, hc, -⟩ := h8
    cases hc
  have hdepth : h.soc.cfu.counters.curInputDepth.toNat % 4 = 0 := by
    rw [← hrun, Host.run_soc]
    refine run_invariant (P := fun s : Soc State => s.cfu.counters.curInputDepth.toNat % 4 = 0)
      ?_ (fun _ _ hk => depth_tick hk true) n
    show s.cfu.regs.counters.curInputDepth.toNat % 4 = 0
    rw [hidle.1.2.2.1]
    exact hidle.2
  obtain ⟨cs, hpath, hsoc⟩ : ∃ cs, h.Along (Resting mem a.config) (InService mem a.config)
      (convPerChannelFilterPreload T (g.params r) (g.data r)) cs := by
    rw [← hrun]
    exact Host.along_run (h := ⟨_, s⟩) (tracks mem a.config) ⟨a, hidle.1, hstart⟩ ho n
  rcases hsoc with ⟨⟨b, hb, -⟩, -⟩ | ⟨c, next, hprog, p, hp, hserving⟩
  · rw [hb.1] at hadd
    cases hadd
  · obtain ⟨b, c', rfl⟩ := phase_of_add hp hadd
    obtain ⟨-, -, hregs, h0, -, hmv, hfv⟩ := hp
    obtain ⟨⟨hconfig, hwidth⟩, rfl⟩ := hserving
    rw [hprog] at hpath
    obtain ⟨horigin, q, hq, hq'⟩ := config_of_issues a.config hpath h0
    have hcb : b.config = convConfig g r q := hconfig.trans hq'
    subst hregs
    refine ⟨q, List.mem_of_getElem? hq, hcb, fun hne => ?_, hdepth, hmv, hfv⟩
    have hfw : h.soc.cfu.config.filterWidth = g.filterWidth := by
      rw [show h.soc.cfu.config = convConfig g r q from hcb]
      rfl
    rw [← hfw] at hne ⊢
    exact hwidth horigin hne

end CfuPlayground.FilterPreload
