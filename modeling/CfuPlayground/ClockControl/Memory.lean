import CfuPlayground.ClockControl.Model
import CfuPlayground.Nxlram.Reads

/-!
# The LRAM under dynamic clock control

The wiring of `HpsSoC` with `dynamic_clock_control`: the acknowledge of `NXLRAM` is clocked by
`osc`, port A of its blocks and the CPU take the edges with `cpu_cen`. The CFU appears through its
handshake wires, in any pattern.

While the CPU clock is off, the acknowledge of a request goes on toggling, but the memory is not
accessed. A request that has not been on the wires at an edge of the CPU clock is `fresh`
(`ack_of_fresh`); once it has, memory and outputs belong to it (`Kept`).
-/

namespace CfuPlayground.ClockControl

open Lib Nxlram

/-- What the CPU reads from the bus. -/
structure BusIn where
  ack : Bool
  datR : ℕ → Word

/-- A CPU with a bus master, whose wires stay until it samples the acknowledge. -/
structure BusCpu (c : Params) (κ ε : Type) extends Cpu κ (BusIn × ε) where
  bus : κ → Wires
  holds : ∀ cmdReady rspValid rspOut x k, (bus k).active = true → x.1.ack = false →
    bus (next cmdReady rspValid rspOut x k) = bus k
  inRange : ∀ k, (bus k).active = true → (bus k).adr < words c

/-- The handshake wires the CFU drives. -/
structure CfuOut where
  cmdReady : Bool
  rspValid : Bool
  rspOut : Word

/-- What a cycle gets from outside: the wires of the CFU, with its ports into the memory, and
whatever else the CPU reads. -/
structure Outside (ε : Type) where
  cfu : CfuOut
  bClkens : ℕ → Bool
  bAddrs : ℕ → Row
  ext : ε

/-- The registers. -/
structure Hps (κ : Type) where
  ctrl : FsmState
  cpu : κ
  lram : Nxlram.State

variable {c : Params} {κ ε : Type} (C : BusCpu c κ ε) (writeOut : Word → Word → Word)

/-- The handshake signals in a cycle. -/
def Hps.cfuBus (o : Outside ε) (s : Hps κ) : CfuBus :=
  ⟨(C.out s.cpu).cmdValid, o.cfu.cmdReady, o.cfu.rspValid, (C.out s.cpu).rspReady⟩

/-- `cpu_cen` in a cycle. -/
def Hps.cpuCen (o : Outside ε) (s : Hps κ) : Bool := ClockControl.cpuCen (s.cfuBus C o) s.ctrl

/-- The wires into the memory: `a_clkens` are `cpu_cen`. -/
def Hps.lramIn (o : Outside ε) (s : Hps κ) : Nxlram.In :=
  ⟨C.bus s.cpu, fun _ => s.cpuCen C o, o.bClkens, o.bAddrs⟩

/-- What the CPU reads. -/
def Hps.busIn (s : Hps κ) : BusIn := ⟨s.lram.ack, datR c (C.bus s.cpu) s.lram⟩

/-- **One edge** of `osc`. -/
def Hps.tick (o : Outside ε) (s : Hps κ) : Hps κ where
  ctrl := nextFsm (s.cfuBus C o) s.ctrl
  cpu := if s.cpuCen C o then
      C.next o.cfu.cmdReady o.cfu.rspValid o.cfu.rspOut (s.busIn C, o.ext) s.cpu
    else s.cpu
  lram := Nxlram.next c writeOut (s.lramIn C o) s.lram

/-! ## Runs -/

/-- A run from reset: the CPU and its registers, the contents of the memory, and what comes from
outside. -/
structure HpsRun (c : Params) (κ ε : Type) where
  cpu : BusCpu c κ ε
  start : κ
  writeOut : Word → Word → Word
  blocks : ℕ → ℕ → Block
  outside : ℕ → Outside ε

namespace HpsRun

variable (r : HpsRun c κ ε)

/-- The registers after `t` edges. -/
def states (t : ℕ) : Hps κ :=
  run (Hps.tick r.cpu r.writeOut) r.outside ⟨.cpuEnabled, r.start, ⟨r.blocks, false⟩⟩ t

/-- `cpu_cen` in cycle `t`. -/
def cen (t : ℕ) : Bool := (r.states t).cpuCen r.cpu (r.outside t)

/-- The wires of the master in cycle `t`. -/
def bus (t : ℕ) : Wires := r.cpu.bus (r.states t).cpu

/-- The acknowledge in cycle `t`. -/
def ack (t : ℕ) : Bool := (r.states t).lram.ack

/-- The CPU sees its transaction completed in cycle `t`. -/
def completes (t : ℕ) : Bool := r.cen t && (r.bus t).active && r.ack t

/-- The flat array with the writes the CPU has seen completed. -/
def flat : ℕ → Flat
  | 0 => contents c ⟨r.blocks, false⟩
  | t + 1 => if r.completes t && (r.bus t).we then (flat t).write c (r.bus t) else flat t

/-- A request in cycle `t` has not been on the wires at an edge of the CPU clock. -/
def fresh : ℕ → Bool
  | 0 => true
  | t + 1 => if r.cen t then !(r.bus t).active || r.ack t else fresh t

/-- The number of cycles directly before `t` in which the CPU clock is off. -/
def frozen : ℕ → ℕ
  | 0 => 0
  | t + 1 => if r.cen t then 0 else frozen t + 1

/-- Every read request finds the CPU clock off for an even number of cycles before its first
edge. -/
def EvenFreeze : Prop :=
  ∀ t, r.cen t = true → (r.bus t).active = true → (r.bus t).we = false → r.fresh t = true →
    Even (r.frozen t)

/-- Every read the CPU sees completed returns the word of the flat array. -/
def ReadsCorrect : Prop :=
  ∀ t, r.completes t = true → (r.bus t).we = false → ∀ w < c.widthCascading,
    datR c (r.bus t) (r.states t).lram w = (r.flat t).word (wordIndex c (r.bus t).adr w)

variable {r} {t : ℕ}

theorem ack_succ : r.ack (t + 1) = ((r.bus t).active && !r.ack t) := rfl

theorem lram_succ : (r.states (t + 1)).lram =
    Nxlram.next c r.writeOut ((r.states t).lramIn r.cpu (r.outside t)) (r.states t).lram := rfl

theorem bus_succ_of_frozen (h : r.cen t = false) : r.bus (t + 1) = r.bus t := by
  have hcpu : (r.states (t + 1)).cpu = if r.cen t then _ else (r.states t).cpu := rfl
  rw [bus, hcpu, h, if_neg (by decide), bus]

theorem bus_succ_of_pending (hactive : (r.bus t).active = true) (hack : r.ack t = false) :
    r.bus (t + 1) = r.bus t := by
  have hcpu : (r.states (t + 1)).cpu =
      if r.cen t then r.cpu.next (r.outside t).cfu.cmdReady (r.outside t).cfu.rspValid
        (r.outside t).cfu.rspOut ((r.states t).busIn r.cpu, (r.outside t).ext) (r.states t).cpu
      else (r.states t).cpu := rfl
  cases hcen : r.cen t with
  | false => exact bus_succ_of_frozen hcen
  | true =>
    rw [bus, hcpu, hcen, if_pos rfl]
    exact r.cpu.holds _ _ _ _ _ hactive hack

/-- **The acknowledge of a fresh request** toggles with the cycles in which the CPU clock is
off. -/
theorem ack_of_fresh (t : ℕ) (h : r.fresh t = true) :
    r.ack t = ((r.bus t).active && decide (Odd (r.frozen t))) := by
  induction t with
  | zero => simp [ack, states, frozen]
  | succ t ih =>
    rw [ack_succ]
    cases hcen : r.cen t with
    | false =>
      rw [fresh, hcen, if_neg (by decide)] at h
      rw [bus_succ_of_frozen hcen, frozen, hcen, if_neg (by decide), ih h]
      cases (r.bus t).active <;> simp only [Nat.odd_add_one, decide_not, Bool.true_and, Bool.false_and]
    | true =>
      rw [fresh, hcen, if_pos rfl] at h
      rw [frozen, hcen, if_pos rfl]
      cases ha : (r.bus t).active <;> simp_all

/-! ## The memory -/

variable (r) in
/-- For a fresh request, or none, the memory holds the flat array; for another, a write of it is
in the memory, and a read of it has the word on the outputs. -/
structure Kept (t : ℕ) : Prop where
  fresh : r.fresh t = true → Holds c (r.states t).lram (r.flat t)
  active : r.fresh t = false → (r.bus t).active = true
  write : r.fresh t = false → (r.bus t).we = true →
    Holds c (r.states t).lram ((r.flat t).write c (r.bus t))
  read : r.fresh t = false → (r.bus t).we = false → Holds c (r.states t).lram (r.flat t) ∧
    ∀ w < c.widthCascading, ((r.states t).lram.blocks (bank c (r.bus t).adr) w).dout =
      (r.flat t).word (wordIndex c (r.bus t).adr w)

theorem holds_succ {f : Flat} (hc : c.Accepted) (h : Holds c (r.states t).lram f) :
    Holds c (r.states (t + 1)).lram
      (if r.cen t && (r.bus t).active && (r.bus t).we then f.write c (r.bus t) else f) :=
  holds_next hc (fun _ => rfl) (fun hactive => r.cpu.inRange _ hactive) h

theorem Kept.holds_of_read (h : r.Kept t) (hread : (r.bus t).we = false) :
    Holds c (r.states t).lram (r.flat t) := by
  cases hf : r.fresh t with
  | true => exact h.fresh hf
  | false => exact (h.read hf hread).1

theorem Kept.holds_of_write (hc : c.Accepted) (h : r.Kept t) (hcen : r.cen t = true)
    (hactive : (r.bus t).active = true) (hwe : (r.bus t).we = true) :
    Holds c (r.states (t + 1)).lram ((r.flat t).write c (r.bus t)) := by
  cases hf : r.fresh t with
  | true =>
    have hnext := holds_succ hc (h.fresh hf)
    rwa [hcen, hactive, hwe, if_pos (by decide)] at hnext
  | false =>
    have hnext := holds_succ hc (h.write hf hwe)
    rw [hcen, hactive, hwe, if_pos (by decide)] at hnext
    intro a ha w hw
    rw [hnext a ha w hw, word_write_idem _ _ hw]

theorem kept_of_frozen (hc : c.Accepted) (h : r.Kept t) (hcen : r.cen t = false) :
    r.Kept (t + 1) := by
  have hbus := bus_succ_of_frozen hcen
  have hfresh : r.fresh (t + 1) = r.fresh t := by rw [fresh, hcen, if_neg (by decide)]
  have hflat : r.flat (t + 1) = r.flat t := by
    rw [flat, completes, hcen, Bool.false_and, Bool.false_and, Bool.false_and, if_neg (by decide)]
  have hmem : ∀ f, Holds c (r.states t).lram f → Holds c (r.states (t + 1)).lram f := by
    intro f hf
    have hnext := holds_succ hc hf
    rwa [hcen, Bool.false_and, Bool.false_and, if_neg (by decide)] at hnext
  constructor
  · intro hf
    rw [hfresh] at hf
    exact hflat ▸ hmem _ (h.fresh hf)
  · intro hf
    rw [hfresh] at hf
    exact hbus ▸ h.active hf
  · intro hf hwe
    rw [hfresh] at hf
    rw [hbus] at hwe ⊢
    exact hflat ▸ hmem _ (h.write hf hwe)
  · intro hf hwe
    rw [hfresh] at hf
    rw [hbus] at hwe ⊢
    obtain ⟨hholds, hdout⟩ := h.read hf hwe
    rw [hflat, lram_succ]
    refine ⟨hmem _ hholds, fun w hw => ?_⟩
    rw [dout_next_of_frozen (fun _ => hcen), hdout w hw]

theorem fresh_succ (hcen : r.cen t = true) :
    r.fresh (t + 1) = (!(r.bus t).active || r.ack t) := by
  rw [fresh, hcen, if_pos rfl]

theorem flat_succ (hcen : r.cen t = true) :
    r.flat (t + 1) = if (r.bus t).active && r.ack t && (r.bus t).we then
      (r.flat t).write c (r.bus t) else r.flat t := by
  rw [flat, completes, hcen, Bool.true_and]

theorem Kept.holds_succ_of_read (hc : c.Accepted) (h : r.Kept t) (hwe : (r.bus t).we = false) :
    Holds c (r.states (t + 1)).lram (r.flat t) := by
  have hnext := holds_succ hc (h.holds_of_read hwe)
  rwa [hwe, Bool.and_false, if_neg (by decide)] at hnext

theorem kept_of_idle (hc : c.Accepted) (h : r.Kept t) (hcen : r.cen t = true)
    (hactive : (r.bus t).active = false) : r.Kept (t + 1) := by
  have hflat := flat_succ hcen
  have hnew : r.fresh (t + 1) ≠ false := by simp [fresh_succ hcen, hactive]
  have hf : r.fresh t = true := by
    by_contra hf
    rw [h.active (by simpa using hf)] at hactive
    cases hactive
  have hnext := holds_succ hc (h.fresh hf)
  rw [hactive, Bool.and_false, Bool.false_and, if_neg (by decide)] at hnext
  rw [hactive, Bool.false_and, Bool.false_and, if_neg (by decide)] at hflat
  exact ⟨fun _ => hflat ▸ hnext, fun hf' => absurd hf' hnew, fun hf' => absurd hf' hnew,
    fun hf' => absurd hf' hnew⟩

theorem kept_of_ack (hc : c.Accepted) (h : r.Kept t) (hcen : r.cen t = true)
    (hactive : (r.bus t).active = true) (hack : r.ack t = true) : r.Kept (t + 1) := by
  have hnew : r.fresh (t + 1) ≠ false := by simp [fresh_succ hcen, hack]
  refine ⟨fun _ => ?_, fun hf' => absurd hf' hnew, fun hf' => absurd hf' hnew,
    fun hf' => absurd hf' hnew⟩
  rw [flat_succ hcen, hactive, hack]
  cases hwe : (r.bus t).we with
  | true => exact h.holds_of_write hc hcen hactive hwe
  | false => exact h.holds_succ_of_read hc hwe

theorem kept_of_pending (hc : c.Accepted) (h : r.Kept t) (hcen : r.cen t = true)
    (hactive : (r.bus t).active = true) (hack : r.ack t = false) : r.Kept (t + 1) := by
  have hflat := flat_succ hcen
  rw [hack, Bool.and_false, Bool.false_and, if_neg (by decide)] at hflat
  have hbus := bus_succ_of_pending hactive hack
  have hold : r.fresh (t + 1) ≠ true := by simp [fresh_succ hcen, hactive, hack]
  refine ⟨fun hf' => absurd hf' hold, fun _ => hbus ▸ hactive, fun _ hwe => ?_, fun _ hwe => ?_⟩
  · rw [hbus] at hwe ⊢
    exact hflat ▸ h.holds_of_write hc hcen hactive hwe
  · rw [hbus] at hwe ⊢
    rw [hflat]
    refine ⟨h.holds_succ_of_read hc hwe, fun w hw => ?_⟩
    exact dout_next hc (fun _ => hcen) (r.cpu.inRange _ hactive) hwe (h.holds_of_read hwe) hw

/-- **Step.** -/
theorem kept_succ (hc : c.Accepted) (h : r.Kept t) : r.Kept (t + 1) := by
  cases hcen : r.cen t with
  | false => exact kept_of_frozen hc h hcen
  | true =>
    cases hactive : (r.bus t).active with
    | false => exact kept_of_idle hc h hcen hactive
    | true =>
      cases hack : r.ack t with
      | true => exact kept_of_ack hc h hcen hactive hack
      | false => exact kept_of_pending hc h hcen hactive hack

/-- **Run.** -/
theorem kept_run (r : HpsRun c κ ε) (hc : c.Accepted) (t : ℕ) : r.Kept t := by
  induction t with
  | zero => exact ⟨fun _ => holds_contents _, nofun, nofun, nofun⟩
  | succ t ih => exact kept_succ hc ih

/-- **Reads under dynamic clock control.** In every run, with any CFU, CPU and memory, in which
the freezes before the first edge of a read request are even, every read the CPU sees completed
returns the word last written. -/
theorem reads_under_clock_control (r : HpsRun c κ ε) (hc : c.Accepted) (heven : r.EvenFreeze) :
    r.ReadsCorrect := by
  intro t hdone hread w hw
  simp only [completes, Bool.and_eq_true] at hdone
  obtain ⟨⟨hcen, hactive⟩, hack⟩ := hdone
  have hfresh : r.fresh t = false := by
    by_contra hf
    rw [Bool.not_eq_false] at hf
    have hodd := ack_of_fresh t hf
    rw [hack, hactive, Bool.true_and, eq_comm, decide_eq_true_eq] at hodd
    exact Nat.not_even_iff_odd.mpr hodd (heven t hcen hactive hread hf)
  have hkept := (kept_run r hc t).read hfresh hread
  have hadr : (r.bus t).adr < words c := r.cpu.inRange _ hactive
  rw [datR_eq (bank_lt hc hadr), hkept.2 w hw]

end HpsRun

/-! ## A CFU command and a read -/

/-- A CPU that issues a CFU command and, in the next cycle, a read of address 5. -/
def commandThenRead : BusCpu ⟨32, 64 * kB, false⟩ ℕ Unit where
  out n := ⟨n = 0, 3, 40, 2, true⟩
  next cmdReady _ _ x n :=
    if n = 0 then if cmdReady then 1 else 0
    else if n = 1 then if x.1.ack then 2 else 1
    else 2
  bus n := ⟨n = 1, n = 1, false, if n = 1 then 5 else 0, fun _ => 0, fun _ => 0⟩
  holds _ _ _ x n hactive hack := by
    have hn : n = 1 := by simpa [Wires.active] using hactive
    simp [hn, hack]
  inRange n hactive := by
    have hn : n = 1 := by simpa [Wires.active] using hactive
    rw [hn]
    decide

/-- The command is taken in cycle 0 and answered in cycle `latency`. The word at address 5
is 7. -/
def commandRun (latency : ℕ) : HpsRun ⟨32, 64 * kB, false⟩ ℕ Unit where
  cpu := commandThenRead
  start := 0
  writeOut _ _ := 0
  blocks _ _ := ⟨fun row => if row = 5 then 7 else 0, 0, 0⟩
  outside t := ⟨⟨t = 0 || latency < t, t = latency, 42⟩, fun _ => true, fun _ => 0, ()⟩

theorem commandRun_done (t : ℕ) : ((commandRun 3).states (t + 5)).cpu = 2 := by
  induction t with
  | zero => decide +kernel
  | succ t ih =>
    have hcpu : ((commandRun 3).states (t + 1 + 5)).cpu =
        if (commandRun 3).cen (t + 5) then commandThenRead.next _ _ _ _
          ((commandRun 3).states (t + 5)).cpu
        else ((commandRun 3).states (t + 5)).cpu := rfl
    rw [hcpu, ih]
    exact ite_self 2

/-- An answer after two cycles without CPU clock: the read is correct. -/
theorem reads_under_clock_control_even : (commandRun 3).ReadsCorrect := by
  refine HpsRun.reads_under_clock_control _ (by decide) fun t hcen hactive _ hfresh => ?_
  rcases lt_or_ge t 5 with ht | ht
  · interval_cases t
    · exact absurd hactive (by decide +kernel)
    · exact absurd hcen (by decide +kernel)
    · exact absurd hcen (by decide +kernel)
    · decide +kernel
    · exact absurd hfresh (by decide +kernel)
  · obtain ⟨n, rfl⟩ := Nat.exists_eq_add_of_le' ht
    rw [HpsRun.bus, commandRun_done] at hactive
    cases hactive

/-- An answer after one cycle without CPU clock: the read of 7 returns 0. -/
theorem reads_under_clock_control_fails : ¬ (commandRun 2).ReadsCorrect := by
  intro h
  have hread := h 2 (by decide +kernel) (by decide +kernel) 0 (by decide)
  revert hread
  decide +kernel

end CfuPlayground.ClockControl
