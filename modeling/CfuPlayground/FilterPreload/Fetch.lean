import CfuPlayground.FilterPreload.Respond

/-!
# The fetches of `proj/filter_preload`

The master moves its bus registers at falling edges, so `cyc` and `stb` stay up, with the address
of the word just fetched, at the rising edge after an acknowledge. `Bus` is what bus, slave and
the two word registers are in each state of the FSM; it holds for any client, blocking or not.

* `bus_tick`, `bus_run`: a period keeps `Bus`, so does a run.
* `adr_held`: between two rising edges the address moves at an acknowledge only.
* `request_held`: a slave that takes its time finds the request up when it acknowledges.
* `fetch_integrity`: the fetches of a run from the idle state.
-/

namespace CfuPlayground.FilterPreload

open Lib

/-- The word of the image tensor for the current counters. -/
def imageWord (mem : Memory) (s : State) : Word := mem (wordAdr (curImageAdr s.config s.counters))

/-- The word of the filter tensor for the current counters. -/
def filterWord (mem : Memory) (s : State) : Word := mem (wordAdr (curFilterAdr s.config s.counters))

/-- Bus and fetched words, by the state of the FSM. -/
def Bus (mem : Memory) (s : Soc State) : Prop :=
  match s.cfu.curState with
  | .execConvFetchVal => s.reply.Delivers mem (wordAdr (curImageAdr s.cfu.config s.cfu.counters))
  | .execConvFetchFilter =>
    s.reply.Delivers mem (wordAdr (curFilterAdr s.cfu.config s.cfu.counters)) ∧
      s.cfu.matrixVals = imageWord mem s.cfu
  | .execConvAdd => s.cfu.matrixVals = imageWord mem s.cfu ∧ s.cfu.filterVals = filterWord mem s.cfu
  | _ => s.Quiet cfu

variable {mem : Memory} {blocking : Bool} {m m' : Moves} {s : Soc State}

theorem bus_eq_quiet (hf : ¬ Fetching s.cfu) (ha : s.cfu.curState ≠ .execConvAdd) :
    Bus mem s = s.Quiet cfu := by
  unfold Bus
  split
  · next hs => exact absurd (.inl hs) hf
  · next hs => exact absurd (.inr hs) hf
  · next hs => exact absurd hs ha
  · rfl

/-! ## The falling edge -/

/-- Outside the fetches the falling edge does not raise the bus; `CONV_ADD` drops it. -/
theorem update_down {i : In} {r : State} (hf : ¬ Fetching r)
    (hdown : r.curState ≠ .execConvAdd → r.cfuRamCyc = false ∧ r.cfuRamStb = false) :
    (update i r).cfuRamCyc = false ∧ (update i r).cfuRamStb = false := by
  unfold update
  split
  case h_9 hs => exact absurd (.inl hs) hf
  case h_10 hs => exact absurd (.inr hs) hf
  case h_11 => exact ⟨rfl, rfl⟩
  case h_12 => exact ⟨rfl, rfl⟩
  -- the `SET` states leave the bus registers alone
  all_goals
    next hs =>
      refine hdown ?_
      rw [hs]
      exact PipelineState.noConfusion

theorem bus_down (h : Bus mem s) (hf : ¬ Fetching s.cfu) :
    (s.mid cfu m).cfuRamCyc = false ∧ (s.mid cfu m).cfuRamStb = false := by
  rw [mid_eq]
  refine update_down hf fun ha => ?_
  rw [bus_eq_quiet hf ha] at h
  exact ⟨h.1, h.2.1⟩

theorem curState_mid (hf : ¬ Fetching s.cfu) :
    (s.mid cfu m).curState ≠ .execConvFetchFilter ∧ (s.mid cfu m).curState ≠ .execConvAdd := by
  rw [mid_eq]
  show nextState _ _ ≠ _ ∧ nextState _ _ ≠ _
  unfold nextState
  split
  case h_1 =>
    split_ifs
    · exact decode_ne_mid _
    · simp
  case h_2 hs => exact absurd (.inl hs) hf
  case h_3 hs => exact absurd (.inr hs) hf
  case h_4 => simp
  case h_5 =>
    unfold calcCoords
    split_ifs <;> simp
  case h_6 => simp

/-- The address of the word that a fetch state fetches. -/
def fetchAdr (s : State) : WordAdr :=
  if s.curState = .execConvFetchVal then wordAdr (curImageAdr s.config s.counters)
  else wordAdr (curFilterAdr s.config s.counters)

/-- A fetch drives its address, and leaves the registers that this is computed from. -/
theorem mid_fetching (hf : Fetching s.cfu) : (s.mid cfu m).cfuRamAdr = fetchAdr s.cfu ∧
    (s.mid cfu m).config = s.cfu.config ∧ (s.mid cfu m).counters = s.cfu.counters := by
  rw [mid_eq]
  unfold update fetchAdr
  rcases hf with hs | hs
  · rw [hs]
    exact ⟨rfl, rfl, rfl⟩
  · rw [hs]
    exact ⟨rfl, rfl, rfl⟩

theorem mid_waiting (hf : Fetching s.cfu) (hack : s.reply.ack = false) :
    (s.mid cfu m).curState = s.cfu.curState := by
  have hwire : (s.wires m).cfuRamAck = false := hack
  rw [mid_eq]
  show nextState _ _ = _
  unfold nextState
  rcases hf with hs | hs
  · rw [hs, hwire]
    exact ite_self _
  · rw [hs, hwire]
    exact ite_self _

/-- **The address is held** from one rising edge with `stb` to the next, if the first does not
find `ack` high. -/
theorem adr_held (h : Bus mem s) (hstb : (s.mid cfu m).cfuRamStb = true)
    (hack : s.reply.ack = false) :
    ((s.tick cfu mem blocking m).mid cfu m').cfuRamAdr = (s.mid cfu m).cfuRamAdr := by
  by_cases hf : Fetching s.cfu
  · obtain ⟨hadr, hconfig, hcounters⟩ := mid_fetching (m := m) hf
    have hstate := mid_waiting (m := m) hf hack
    have hf' : Fetching (s.tick cfu mem blocking m).cfu := by
      show (s.mid cfu m).curState = _ ∨ (s.mid cfu m).curState = _
      rw [hstate]
      exact hf
    rw [hadr, (mid_fetching hf').1]
    show (if (s.mid cfu m).curState = _ then _ else _) = _
    rw [hstate]
    show (if _ then wordAdr (curImageAdr (s.mid cfu m).config (s.mid cfu m).counters)
      else wordAdr (curFilterAdr (s.mid cfu m).config (s.mid cfu m).counters)) = _
    rw [hconfig, hcounters]
    rfl
  · rw [(bus_down h hf).2] at hstb
    cases hstb

/-! ## One clock period -/

theorem delivers_of_bus (h : Bus mem s) (hf : ¬ Fetching s.cfu)
    (ha : s.cfu.curState ≠ .execConvAdd) (adr : WordAdr) :
    (s.tick cfu mem blocking m).reply.Delivers mem adr := by
  refine delivers_next (.inr (.inr ?_))
  have hcyc : (cfu.out (s.mid cfu m)).cfuRamCyc = false := (bus_down h hf).1
  have hseen : s.seen = _ := (bus_eq_quiet hf ha ▸ h).2.2
  rw [hcyc, hseen]
  rfl

theorem bus_tick_of_not_fetching (h : Bus mem s) (hf : ¬ Fetching s.cfu) :
    Bus mem (s.tick cfu mem blocking m) := by
  obtain ⟨hcyc, hstb⟩ := bus_down (m := m) h hf
  have hquiet : (s.tick cfu mem blocking m).Quiet cfu := by
    refine ⟨hcyc, hstb, ?_⟩
    show ((s.mid cfu m).cfuRamCyc && (s.mid cfu m).cfuRamStb) = false
    rw [hcyc]
    rfl
  obtain ⟨hfilter, hadd⟩ := curState_mid (m := m) hf
  by_cases hf' : Fetching (s.tick cfu mem blocking m).cfu
  · have hval : (s.tick cfu mem blocking m).cfu.curState = .execConvFetchVal :=
      hf'.resolve_right hfilter
    have ha : s.cfu.curState ≠ .execConvAdd := by
      intro ha
      have hcoords : (s.tick cfu mem blocking m).cfu.curState = .execConvCalcCoords := by
        show (s.mid cfu m).curState = _
        rw [mid_eq]
        simp [nextState, ha]
      rw [hcoords] at hval
      cases hval
    unfold Bus
    rw [hval]
    exact delivers_of_bus h hf ha _
  · rw [bus_eq_quiet hf' hadd]
    exact hquiet

theorem bus_tick_of_fetchVal (h : Bus mem s) (hs : s.cfu.curState = .execConvFetchVal) :
    Bus mem (s.tick cfu mem blocking m) := by
  have hd : s.reply.Delivers mem (wordAdr (curImageAdr s.cfu.config s.cfu.counters)) := by
    unfold Bus at h
    rwa [hs] at h
  rcases s with ⟨⟨cs, rv, pay, g, k, mv, fv, adr, cyc, stb⟩, offer, acc, rsp, ⟨ack, err, dat⟩,
    seen⟩
  cases hs
  cases ack with
  | true =>
    obtain ⟨rfl, hdat⟩ := hd rfl
    exact ⟨delivers_next (.inl rfl), hdat⟩
  | false =>
    cases err
    all_goals exact delivers_next (.inr (.inl rfl))

theorem bus_tick_of_fetchFilter (h : Bus mem s) (hs : s.cfu.curState = .execConvFetchFilter) :
    Bus mem (s.tick cfu mem blocking m) := by
  have hd : s.reply.Delivers mem (wordAdr (curFilterAdr s.cfu.config s.cfu.counters)) ∧
      s.cfu.matrixVals = imageWord mem s.cfu := by
    unfold Bus at h
    rwa [hs] at h
  rcases s with ⟨⟨cs, rv, pay, g, k, mv, fv, adr, cyc, stb⟩, offer, acc, rsp, ⟨ack, err, dat⟩,
    seen⟩
  cases hs
  obtain ⟨hd, hmv⟩ := hd
  cases ack with
  | true =>
    obtain ⟨rfl, hdat⟩ := hd rfl
    exact ⟨hmv, hdat⟩
  | false =>
    cases err
    all_goals exact ⟨delivers_next (.inr (.inl rfl)), hmv⟩

/-- **Step lemma.** -/
theorem bus_tick (h : Bus mem s) : Bus mem (s.tick cfu mem blocking m) := by
  by_cases hf : Fetching s.cfu
  · rcases hf with hs | hs
    · exact bus_tick_of_fetchVal h hs
    · exact bus_tick_of_fetchFilter h hs
  · exact bus_tick_of_not_fetching h hf

/-! ## Runs -/

variable {moves : ℕ → Moves}

/-- **Run lemma.** -/
theorem bus_run (h : Bus mem s) (n : ℕ) : Bus mem (Soc.run cfu mem blocking moves s n) :=
  run_invariant h (fun _ _ hs => bus_tick hs) n

theorem bus_of_init (h : Bus mem s) (hs : (s.mid cfu m).curState = .init) :
    (s.mid cfu m).cfuRamCyc = false ∧ (s.mid cfu m).cfuRamStb = false := by
  have hf : ¬ Fetching s.cfu := by
    rintro (hf | hf)
    all_goals
      rw [mid_eq] at hs
      simp only [nextState, hf] at hs
      split_ifs at hs
  exact bus_down h hf

theorem request_held (h : Bus mem s) (hstb : (s.mid cfu (moves 0)).cfuRamStb = true) {n : ℕ}
    (hack : ∀ j < n, (Soc.run cfu mem blocking moves s j).reply.ack = false) :
    Fetching (Soc.run cfu mem blocking moves s n).cfu := by
  induction n with
  | zero =>
    by_contra hf
    have hdown := (bus_down (m := moves 0) h hf).2
    rw [hstb] at hdown
    cases hdown
  | succ n ih =>
    have hf := ih fun j hj => hack j (Nat.lt_succ_of_lt hj)
    have hstate := mid_waiting (m := moves n) hf (hack n (Nat.lt_succ_self n))
    show ((Soc.run cfu mem blocking moves s n).mid cfu (moves n)).curState = _ ∨
      ((Soc.run cfu mem blocking moves s n).mid cfu (moves n)).curState = _
    rw [hstate]
    exact hf

/-- The registers at the rising edge that ends period `n` of a run. -/
def atPosedge (mem : Memory) (blocking : Bool) (moves : ℕ → Moves) (s : Soc State) (n : ℕ) :
    State :=
  (Soc.run cfu mem blocking moves s n).mid cfu (moves n)

/-- **Fetch integrity.** From the idle state, with any client and slave: the address moves at an
acknowledge only, `INIT` finds the bus down, and `CONV_ADD` finds the words of its counters. -/
theorem fetch_integrity (mem : Memory) (blocking : Bool) (moves : ℕ → Moves) {s : Soc State}
    (hinit : s.cfu.curState = .init) (hquiet : s.Quiet cfu) (n : ℕ) :
    ((atPosedge mem blocking moves s n).cfuRamStb = true →
      (atPosedge mem blocking moves s (n + 1)).cfuRamStb = true →
      (Soc.run cfu mem blocking moves s n).reply.ack = false →
      (atPosedge mem blocking moves s (n + 1)).cfuRamAdr =
        (atPosedge mem blocking moves s n).cfuRamAdr) ∧
    ((atPosedge mem blocking moves s n).curState = .init →
      (atPosedge mem blocking moves s n).cfuRamCyc = false ∧
        (atPosedge mem blocking moves s n).cfuRamStb = false) ∧
    ((Soc.run cfu mem blocking moves s n).cfu.curState = .execConvAdd →
      (Soc.run cfu mem blocking moves s n).cfu.matrixVals =
        imageWord mem (Soc.run cfu mem blocking moves s n).cfu ∧
      (Soc.run cfu mem blocking moves s n).cfu.filterVals =
        filterWord mem (Soc.run cfu mem blocking moves s n).cfu) := by
  have hstart : Bus mem s := by
    unfold Bus
    rw [hinit]
    exact hquiet
  have hbus : Bus mem (Soc.run cfu mem blocking moves s n) := bus_run hstart n
  refine ⟨fun hstb _ hack => adr_held hbus hstb hack, bus_of_init hbus, fun hadd => ?_⟩
  unfold Bus at hbus
  rwa [hadd] at hbus

/-- A slave with an `err` and a wait period before each acknowledge. -/
def slowMoves (n : ℕ) : Moves where
  next := if n = 0 then some (cfuOp0 6 0x40 0x80) else some (cfuOp0 0 0 0)
  idle := cfuOp0 0 0 0
  rspReady := true
  slave := if n % 4 = 0 then .ack 5 else if n % 4 = 1 then .err 6 else .wait 7

/-- Words that differ from one address to the next. -/
def slowWords : Memory := fun a => a.setWidth 32 * 0x01020304

/-- The address waits for the filter word in periods 7 and 8; period 10 adds. -/
theorem fetch_integrity_slow :
    (atPosedge slowWords true slowMoves (Soc.start State.start) 8).cfuRamAdr =
        (atPosedge slowWords true slowMoves (Soc.start State.start) 7).cfuRamAdr ∧
      let soc := Soc.run cfu slowWords true slowMoves (Soc.start State.start) 10
      soc.cfu.curState = .execConvAdd ∧ soc.cfu.matrixVals = imageWord slowWords soc.cfu ∧
        soc.cfu.filterVals = filterWord slowWords soc.cfu ∧
        imageWord slowWords soc.cfu = 0x10203040 ∧ filterWord slowWords soc.cfu = 0x20406080 := by
  have hintegrity := fun n => fetch_integrity slowWords true slowMoves (s := Soc.start State.start)
    rfl ⟨rfl, rfl, rfl⟩ n
  obtain ⟨hmatrix, hfilter⟩ := (hintegrity 10).2.2 (by decide +kernel)
  exact ⟨(hintegrity 7).1 (by decide +kernel) (by decide +kernel) (by decide +kernel),
    by decide +kernel, hmatrix, hfilter, by decide +kernel, by decide +kernel⟩

end CfuPlayground.FilterPreload
