import CfuPlayground.VexRiscv.Faithful

/-!
# Instructions that leave too late

`hold` is set in every cycle in which a CFU instruction stands in `execute` and the CFU is not
ready, its command taken or not. An instruction that leaves in such a cycle with its command taken
leaves `hold` behind.

* `Late`: this happens, and no CFU instruction comes behind.
* `Timely` is the invariant without late instructions: `hold` is never left over.
* `Leftover` is the state behind the first late instruction, until the CFU is ready.
* **`late_takes_command`**: then the CFU takes a command with the fields of what came behind.
* **`faithful_iff_never_late`**: with a CFU that gets ready again and again, the bus works exactly
  if no instruction is late.
-/

namespace CfuPlayground.VexRiscv.Cpu

open Lib

/-- A CFU instruction leaves `execute` in a cycle in which the CFU is not ready, its command taken
before, and no CFU instruction comes behind it. -/
def Late (ins : ℕ → Inputs) (s : Cpu) (n : ℕ) : Prop :=
  (run ins s n).fired = true ∧ (run ins s n).executeIsStuck (ins n) = false ∧
    (ins n).cmdReady = false ∧ (run ins s (n + 1)).scheduleWish = false

instance (ins : ℕ → Inputs) (s : Cpu) (n : ℕ) : Decidable (Late ins s n) :=
  inferInstanceAs (Decidable (_ ∧ _ ∧ _ ∧ _))

variable {i : Inputs} {s : Cpu}

/-! ## Before a late instruction -/

/-- `hold` is not left over. -/
structure Timely (s : Cpu) : Prop where
  sound : s.Sound
  hold : s.hold = true → s.scheduleWish = true

theorem timely_reset (h : s.AtReset) : Timely s where
  sound := sound_reset h
  hold hh := by simp [h.hold] at hh

theorem Timely.not_staleTaken (h : Timely s) : ¬ s.StaleTaken i := by
  rintro ⟨hh, hw, -⟩
  simp [h.hold hh] at hw

theorem cmdReady_of_hold (hh : (s.step i).hold = true) : i.cmdReady = false := by
  by_contra hr
  have hnext : s.nextHold i = true := hh
  rw [nextHold, if_pos (by simpa using hr)] at hnext
  cases hnext

theorem Timely.fired_of_hold (h : Timely s) (hh : (s.step i).hold = true)
    (hst : s.executeIsStuck i = false) : s.fired = true := by
  rcases h.sound.hold_step hh with hs | ⟨-, hstuck⟩
  · by_contra hf
    have hv : s.cmdValid = true := by simpa [cmdValid, hs] using hf
    rw [executeIsStuck_of_waiting hv (cmdReady_of_hold hh)] at hst
    cases hst
  · simp [hst] at hstuck

/-- **Step lemma.** -/
theorem Timely.step (h : Timely s) (hlate : ¬ (s.fired = true ∧ s.executeIsStuck i = false ∧
    i.cmdReady = false ∧ (s.step i).scheduleWish = false)) : Timely (s.step i) where
  sound := h.sound.step h.not_staleTaken
  hold hh := by
    cases hst : s.executeIsStuck i with
    | true =>
      rcases h.sound.hold_step hh with hs | ⟨hw, -⟩
      · exact (Bool.and_eq_true_iff.mp (h.sound.schedule_step hs hst)).1
      · have hnext : s.nextHold i = true := hh
        unfold nextHold at hnext
        split_ifs at hnext with hr hs
        · simp [schedule, hw] at hs
        · simp [h.hold hnext] at hw
    | false =>
      by_contra hw
      exact hlate ⟨h.fired_of_hold hh hst, hst, cmdReady_of_hold hh, by simpa using hw⟩

/-! ## After a late instruction -/

/-- `hold` is left over, and the command it offers has the payload `c`. -/
structure Leftover (c : Command) (s : Cpu) : Prop where
  sound : s.Sound
  hold : s.hold = true
  fired : s.fired = false
  wish : s.scheduleWish = false
  payload : s.cmdPayload = c

theorem Leftover.cmdValid {c : Command} (h : Leftover c s) : s.cmdValid = true := by
  simp [Cpu.cmdValid, h.hold, h.fired]

theorem Leftover.executeIsStuck {c : Command} (h : Leftover c s) (hr : i.cmdReady = false) :
    s.executeIsStuck i = true := executeIsStuck_of_waiting h.cmdValid hr

theorem Timely.leftover (h : Timely s) (hf : s.fired = true) (hst : s.executeIsStuck i = false)
    (hr : i.cmdReady = false) (hw : (s.step i).scheduleWish = false) :
    Leftover (s.step i).cmdPayload (s.step i) where
  sound := h.sound.step h.not_staleTaken
  hold := by simp [Cpu.step, nextHold, hr, h.sound.fired hf]
  fired := nextFired_of_moving hst
  wish := hw
  payload := rfl

/-- **Step lemma.** While the CFU is not ready, everything stays. -/
theorem Leftover.step {c : Command} (h : Leftover c s) (hr : i.cmdReady = false) :
    Leftover c (s.step i) where
  sound := by
    refine h.sound.step ?_
    rintro ⟨-, -, hready⟩
    simp [hr] at hready
  hold := by simp [Cpu.step, nextHold, hr, h.hold]
  fired := by simp [Cpu.step, nextFired, cmdFire, hr, h.fired]
  wish := by
    by_contra hx
    have hst := h.executeIsStuck hr
    have hinst : (s.step i).executeInstruction = s.executeInstruction := by simp [Cpu.step, hst]
    simp only [scheduleWish, hinst, Bool.not_eq_false, Bool.and_eq_true] at hx
    have hwish := h.wish
    rcases executeIsValid_step.mp hx.1 with ⟨hmove, -⟩ | ⟨-, -, -, hvalid⟩
    · simp [decodeIsMoving, decodeIsStuck_of_execute hst] at hmove
    · simp [scheduleWish, hvalid, hx.2] at hwish
  payload := by
    rw [← h.payload]
    simp [Cpu.step, cmdPayload, h.executeIsStuck hr]

theorem Leftover.staleTaken {c : Command} (h : Leftover c s) (hr : i.cmdReady = true) :
    s.StaleTaken i := ⟨h.hold, h.wish, hr⟩

theorem Leftover.command {c : Command} (h : Leftover c s) (hr : i.cmdReady = true) :
    s.command i = some c := by
  rw [Cpu.command, cmdFire, h.cmdValid, hr, h.payload]
  rfl

theorem Leftover.inFlight {c : Command} (h : Leftover c s) (hmove : s.executeIsMoving i = true) :
    (s.step i).memoryCfuInFlight = true := by
  obtain ⟨hst, -⟩ := executeIsMoving_iff.mp hmove
  simp [Cpu.step, nextCfuInFlight, memoryIsStuck_eq_false hst, hst, executeCfuInFlight, h.hold]

/-! ## Runs -/

section Run

variable {ins : ℕ → Inputs} {n m : ℕ}

theorem timely_run (h : s.AtReset) (hlate : ∀ k < n, ¬ Late ins s k) : Timely (run ins s n) := by
  induction n with
  | zero => exact timely_reset h
  | succ n ih =>
    exact (ih fun k hk => hlate k (Nat.lt_succ_of_lt hk)).step (hlate n (Nat.lt_succ_self n))

theorem Late.leftover (h : s.AtReset) (hl : Late ins s n) (hfirst : ∀ k < n, ¬ Late ins s k)
    (hm : n < m) (hwait : ∀ k, n < k → k < m → (ins k).cmdReady = false) :
    Leftover (run ins s (n + 1)).cmdPayload (run ins s m) := by
  induction m, hm using Nat.le_induction with
  | base =>
    obtain ⟨hf, hst, hr, hw⟩ := hl
    exact (timely_run h hfirst).leftover hf hst hr hw
  | succ m hm ih =>
    exact (ih fun k hk hkm => hwait k hk (Nat.lt_succ_of_lt hkm)).step
      (hwait m hm (Nat.lt_succ_self m))

/-- A late instruction makes the CFU take a stale command as soon as it is ready. -/
theorem Late.staleTaken (h : s.AtReset) (hl : Late ins s n) (hfirst : ∀ k < n, ¬ Late ins s k)
    (hready : ∃ m, n < m ∧ (ins m).cmdReady = true) :
    ∃ m, (run ins s m).StaleTaken (ins m) := by
  obtain ⟨m, hm, hr, hwait⟩ := exists_first (q := fun m => (ins m).cmdReady = true) (n := n + 1)
    hready
  refine ⟨m, (hl.leftover h hfirst hm fun k hk hkm => ?_).staleTaken hr⟩
  simpa using hwait k hk hkm

theorem faithful_iff_of_ready (h : s.AtReset)
    (hready : ∀ n, (∀ k < n, ¬ Late ins s k) → Late ins s n → ∃ m, n < m ∧ (ins m).cmdReady = true) :
    (∀ n, Faithful ins s n) ↔ ∀ n, ¬ Late ins s n := by
  constructor
  · intro hf n
    induction n using Nat.strong_induction_on with
    | _ n ih =>
      intro hl
      obtain ⟨m, hstale⟩ := hl.staleTaken h ih (hready n ih hl)
      exact not_stale_of_faithful h hf m hstale
  · intro hlate
    exact faithful_of_not_stale h fun n => (timely_run h fun k _ => hlate k).not_staleTaken

/-- `div x4, x2, x3`, `cfu[0,0] x1, x2, x3` and `add x1, x2, x3`, with a division that takes two
cycles more. The CFU takes the command in cycle 4 and is not ready in the next three. -/
def divCfuAdd (n : ℕ) : Inputs :=
  let i := { Inputs.idle with cmdReady := n < 5 || 8 ≤ n, rspValid := n = 4 || n = 8 }
  if n = 2 then { i with instruction := 0x02314233 }
  else if n = 3 then { i with instruction := 0x0031008b, rs1 := 1, rs2 := 2 }
  else if n < 8 then { i with instruction := 0x003100b3, rs1 := 3, rs2 := 4, divBusy := n < 6 }
  else i

/-- **The command of no instruction.** Behind the first late instruction the CFU takes, as soon as
it is ready, a command with the fields of what came behind; if that goes on to `memory`, it gets
the response for its result. -/
theorem late_takes_command (h : s.AtReset) (hl : Late ins s n) (hfirst : ∀ k < n, ¬ Late ins s k)
    (hm : n < m) (hwait : ∀ k, n < k → k < m → (ins k).cmdReady = false)
    (hr : (ins m).cmdReady = true) :
    (run ins s m).command (ins m) = some (run ins s (n + 1)).cmdPayload ∧
      ((run ins s m).executeIsMoving (ins m) = true →
        (run ins s (m + 1)).memoryCfuInFlight = true) := by
  have hleft := hl.leftover h hfirst hm hwait
  exact ⟨hleft.command hr, hleft.inFlight⟩

/-- The CFU takes a command with the operands of the addition. -/
theorem late_takes_command_divCfuAdd :
    (run divCfuAdd Cpu.zero 8).command (divCfuAdd 8) = some ⟨0, 3, 4⟩ :=
  (late_takes_command (n := 6) atReset_zero (by decide) (by decide) (by decide)
    (fun k _ _ => by interval_cases k; rfl) rfl).1

/-- **The bus works exactly if no instruction is late**, for a CFU that gets ready again and
again. -/
theorem faithful_iff_never_late (h : s.AtReset)
    (hready : Infinitely fun n => (ins n).cmdReady = true) :
    (∀ n, Faithful ins s n) ↔ ∀ n, ¬ Late ins s n :=
  faithful_iff_of_ready h fun n _ _ => hready (n + 1)

theorem faithful_iff_never_late_divCfuAdd : ¬ ∀ n, Faithful divCfuAdd Cpu.zero n := by
  have hready : Infinitely fun n => (divCfuAdd n).cmdReady = true := by
    intro n
    refine ⟨n + 8, by omega, ?_⟩
    simp [divCfuAdd, show ¬ n + 8 < 8 by omega]
  rw [faithful_iff_never_late atReset_zero hready]
  exact fun hlate => hlate 6 (by decide)

end Run

end CfuPlayground.VexRiscv.Cpu
