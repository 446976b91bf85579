import CfuPlayground.VexRiscv.Faithful
import CfuPlayground.Cfu.Integrity
import CfuPlayground.Cfu.Host

/-!
# The CPU and a CFU

`add_cfu` of `core.py` wires the CFU bus of the CPU to the CFU, and the CFU to the RAM. `System`
is both on one clock; the environment of the CFU is that of `Soc`, with the CPU as its client.

* `offer_stays`: the CPU follows the valid/ready protocol.
* `Prompt`: a CFU that answers in the period in which it takes a command, and is ready while
  nothing is offered.
* `Coupled` is the invariant of the CPU with a prompt CFU: at most one command is between the two
  channels, its response waits in the CPU, and no `hold` is left over.
* `Coupled.tick`: every period keeps it, if the CFU recognises the commands it gets.
-/

namespace CfuPlayground.VexRiscv

open Lib

/-- The command on the bus. -/
def Cpu.offer (s : Cpu) : Option Command := if s.cmdValid then some s.cmdPayload else none

/-- **The valid/ready protocol.** A command that is not taken stays, with its payload. -/
theorem Cpu.offer_stays {i : Inputs} {s : Cpu} {c : Command} (ho : s.offer = some c)
    (hr : i.cmdReady = false) : (s.step i).offer = some c := by
  unfold offer at ho
  split_ifs at ho with hv
  have hstuck := executeIsStuck_of_waiting hv hr
  have hpayload : (s.step i).cmdPayload = s.cmdPayload := by simp [step, cmdPayload, hstuck]
  simp only [cmdValid, Bool.and_eq_true, Bool.or_eq_true, Bool.not_eq_true'] at hv
  obtain ⟨hsh, hf⟩ := hv
  have hhold : (s.step i).hold = true := by
    rcases hsh with hs | hh
    · simp [step, nextHold, hr, hs]
    · simp [step, nextHold, hr, hh]
  have hfired : (s.step i).fired = false := by simp [step, nextFired, cmdFire, hr, hf]
  rw [offer, if_pos (by simp [cmdValid, hhold, hfired]), hpayload]
  exact ho

theorem Cpu.cmdValid_of_offer {s : Cpu} {c : Command} (ho : s.offer = some c) :
    s.cmdValid = true := by
  unfold offer at ho
  split_ifs at ho with hv
  exact hv

theorem Cpu.command_of_offer {i : Inputs} {s : Cpu} {c : Command} (ho : s.offer = some c)
    (hr : i.cmdReady = true) : s.command i = some c := by
  rw [command, cmdFire, hr, Bool.and_true, ← ho]
  rfl

variable {σ : Type}

/-- What the rest of the CPU and the RAM do in a cycle. The wires of the CFU in `inputs` are not
used. -/
structure Env where
  inputs : Inputs
  slave : SlaveMove

structure System (σ : Type) where
  soc : Soc σ
  cpu : Cpu

namespace System

/-- The CPU as the client of the CFU, with the command it offers next. -/
def moves (e : Env) (x : System σ) (next : Option Command) : Moves where
  next := next
  idle := x.cpu.cmdPayload
  rspReady := x.cpu.rspReady
  slave := e.slave

/-- The wires of the CPU, those of the CFU among them. -/
def inputs (G : Gateware σ) (e : Env) (x : System σ) : Inputs :=
  { e.inputs with
    cmdReady := (G.out (x.soc.mid G (x.moves e none))).cmdReady
    rspValid := (G.out (x.soc.mid G (x.moves e none))).rspValid
    rspPayload := (G.out (x.soc.mid G (x.moves e none))).rspPayloadOutputs0 }

/-- **One clock period** of the CPU and the CFU. -/
def tick (G : Gateware σ) (mem : Memory) (e : Env) (x : System σ) : System σ where
  soc := x.soc.tick G mem false (x.moves e (x.cpu.step (x.inputs G e)).offer)
  cpu := x.cpu.step (x.inputs G e)

def run (G : Gateware σ) (mem : Memory) (env : ℕ → Env) (x : System σ) : ℕ → System σ :=
  Lib.run (tick G mem) env x

/-- The CFU `c` and a CPU after reset. -/
def start (c : σ) (cpu : Cpu) : System σ := ⟨Soc.start c, cpu⟩

variable {G : Gateware σ} {mem : Memory} {env : ℕ → Env} {x : System σ} {e : Env}

theorem run_succ (n : ℕ) : run G mem env x (n + 1) = (run G mem env x n).tick G mem (env n) := rfl

/-- The wires of the CPU in the cycles of a run. -/
def wires (G : Gateware σ) (mem : Memory) (env : ℕ → Env) (x : System σ) (n : ℕ) : Inputs :=
  (run G mem env x n).inputs G (env n)

theorem run_cpu (n : ℕ) :
    (run G mem env x n).cpu = Cpu.run (wires G mem env x) x.cpu n := by
  induction n with
  | zero => rfl
  | succ n ih =>
    rw [Cpu.run_succ, ← ih]
    rfl

/-- The moves of the CFU's environment in a run. -/
def socMoves (G : Gateware σ) (mem : Memory) (env : ℕ → Env) (x : System σ) (n : ℕ) : Moves :=
  (run G mem env x n).moves (env n) (run G mem env x (n + 1)).cpu.offer

theorem run_soc (n : ℕ) :
    (run G mem env x n).soc = Soc.run G mem false (socMoves G mem env x) x.soc n := by
  induction n with
  | zero => rfl
  | succ n ih =>
    show (run G mem env x n).soc.tick G mem false (socMoves G mem env x n) =
      Soc.tick G mem false (socMoves G mem env x n) (Soc.run G mem false _ x.soc n)
    rw [ih]

/-! ## The wires between the two -/

/-- The CFU sees the command that the CPU offers. -/
def Wired (x : System σ) : Prop := x.soc.offer = x.cpu.offer

theorem wired_tick (hw : x.Wired) : (x.tick G mem e).Wired := by
  have hnext : (x.tick G mem e).soc.offer =
      if (if (x.inputs G e).cmdReady then none else x.soc.offer).isSome then
        if (x.inputs G e).cmdReady then none else x.soc.offer
      else (x.cpu.step (x.inputs G e)).offer := rfl
  have hcpu : (x.tick G mem e).cpu = x.cpu.step (x.inputs G e) := rfl
  rw [Wired, hnext, hcpu]
  cases hr : (x.inputs G e).cmdReady with
  | true => rfl
  | false =>
    cases ho : x.soc.offer with
    | none => rfl
    | some c => exact (Cpu.offer_stays (hw.symm.trans ho) hr).symm

theorem Wired.accepts (hw : x.Wired) (next : Option Command) :
    x.soc.accepts G (x.moves e next) = x.cpu.command (x.inputs G e) := by
  have hacc : x.soc.accepts G (x.moves e next) =
      if (x.inputs G e).cmdReady then x.soc.offer else none := rfl
  rw [hacc, hw, Cpu.command, Cpu.cmdFire, Cpu.offer]
  cases (x.inputs G e).cmdReady <;> cases x.cpu.cmdValid <;> rfl

theorem transfers (next : Option Command) :
    x.soc.transfers G (x.moves e next) = x.cpu.reply (x.inputs G e) := rfl

theorem Wired.offer_isSome (hw : x.Wired) : x.soc.offer.isSome = x.cpu.cmdValid := by
  rw [hw, Cpu.offer]
  cases x.cpu.cmdValid <;> rfl

theorem wired_start {c : σ} {cpu : Cpu} (h : cpu.AtReset) : (start c cpu).Wired := by
  show none = cpu.offer
  simp [Cpu.offer, Cpu.cmdValid, Cpu.schedule, Cpu.scheduleWish, h.executeIsValid, h.hold]

theorem wired_run {c : σ} {cpu : Cpu} (h : cpu.AtReset) (n : ℕ) :
    (run G mem env (start c cpu) n).Wired :=
  run_invariant (wired_start h) (fun _ _ => wired_tick) n

/-- The channels of the CFU are those of the CPU. -/
theorem channels {c : σ} {cpu : Cpu} (h : cpu.AtReset) (n : ℕ) :
    (run G mem env (start c cpu) n).soc.accepted =
        Cpu.commands (wires G mem env (start c cpu)) cpu n ∧
      (run G mem env (start c cpu) n).soc.responses =
        Cpu.replies (wires G mem env (start c cpu)) cpu n := by
  induction n with
  | zero => exact ⟨rfl, rfl⟩
  | succ n ih =>
    obtain ⟨hacc, hrsp⟩ := ih
    have hw : (run G mem env (start c cpu) n).Wired := wired_run h n
    have hcpu : (run G mem env (start c cpu) n).cpu =
      Cpu.run (wires G mem env (start c cpu)) cpu n := run_cpu n
    constructor
    · have hnext : (run G mem env (start c cpu) n).soc.accepts G
          (socMoves G mem env (start c cpu) n) = _ := hw.accepts _
      rw [hcpu] at hnext
      rw [Cpu.commands, log_succ, ← Cpu.commands, ← hacc]
      exact congrArg (_ ++ Option.toList ·) hnext
    · have hnext : (run G mem env (start c cpu) n).soc.transfers G
          (socMoves G mem env (start c cpu) n) = _ := transfers _
      rw [hcpu] at hnext
      rw [Cpu.replies, log_succ, ← Cpu.replies, ← hrsp]
      exact congrArg (_ ++ Option.toList ·) hnext

/-! ## A prompt CFU -/

/-- A CFU that takes a command with its response on the wires. `Known` are the commands that it
recognises. -/
structure Prompt (G : Gateware σ) (mem : Memory) (result : List Command → Option Word)
    (busy : σ → Bool) (J : Soc σ → Prop) (Good : Moves → Soc σ → Prop) (Known : Command → Prop) :
    Prop where
  pipelined : Pipelined G mem result busy J Good
  /-- A period is good if a response on the wires is new and is taken. -/
  good : ∀ (m : Moves) (s : Soc σ), J s → (∀ c, m.next = some c → Known c) →
    ((G.out s.cfu).rspValid = true → busy s.cfu = true ∧ m.rspReady = true) → Good m s
  idle : ∀ (m : Moves) (s : Soc σ), J s → s.offer = none →
    (G.out (s.mid G m)).cmdReady = true ∧ busy (s.mid G m) = false

variable {result : List Command → Option Word} {busy : σ → Bool} {J : Soc σ → Prop}
  {Good : Moves → Soc σ → Prop} {Known : Command → Prop}

/-- The CPU and a prompt CFU. -/
structure Coupled (G : Gateware σ) (busy : σ → Bool) (J : Soc σ → Prop) (x : System σ) : Prop where
  wired : x.Wired
  inv : J x.soc
  sound : x.cpu.Sound
  /-- No `hold` is left over. -/
  hold : x.cpu.hold = true → x.cpu.scheduleWish = true
  /-- A response is on the wires for one period. -/
  brief : (G.out x.soc.cfu).rspValid = busy x.soc.cfu
  free : x.cpu.rValid = true → busy x.soc.cfu = false
  alone : x.cpu.Alone

theorem coupled_start {c : σ} {cpu : Cpu} (h : cpu.AtReset) (hJ : J (Soc.start c))
    (hv : (G.out c).rspValid = false) (hb : busy c = false) : Coupled G busy J (start c cpu) where
  wired := wired_start h
  inv := hJ
  sound := Cpu.sound_reset h
  hold hh := by
    have h0 : cpu.hold = true := hh
    simp [h.hold] at h0
  brief := hv.trans hb.symm
  free _ := hb
  alone := Cpu.alone_reset h

theorem Coupled.not_staleTaken (h : Coupled G busy J x) :
    ¬ x.cpu.StaleTaken (x.inputs G e) := by
  rintro ⟨hh, hw, -⟩
  simp [h.hold hh] at hw

theorem Coupled.rspValid (hP : Prompt G mem result busy J Good Known) (h : Coupled G busy J x) :
    (x.inputs G e).rspValid = busy x.soc.cfu := by
  have hmid : (x.inputs G e).rspValid = (G.out x.soc.cfu).rspValid := hP.pipelined.valid_mid _ _
  rw [hmid, h.brief]

theorem Coupled.cmdFire (hP : Prompt G mem result busy J Good Known) (h : Coupled G busy J x) :
    x.cpu.cmdFire (x.inputs G e) = busy x.soc.cfu := by
  have hacc := hP.pipelined.accepts (x.moves e none) x.soc h.inv
  rw [h.wired.accepts] at hacc
  have hsome := h.wired.offer_isSome
  cases hb : busy x.soc.cfu with
  | true =>
    obtain ⟨c, hc⟩ := Option.isSome_iff_exists.mp (hP.pipelined.offers x.soc h.inv hb)
    rw [hb, if_pos rfl, hc, Cpu.command] at hacc
    by_contra hn
    rw [if_neg (by simpa using hn)] at hacc
    cases hacc
  | false =>
    rw [hb, if_neg (by simp), Cpu.command] at hacc
    by_contra hn
    rw [if_pos (by simpa using hn)] at hacc
    cases hacc

theorem Coupled.cmdReady (hP : Prompt G mem result busy J Good Known) (h : Coupled G busy J x)
    (hv : x.cpu.cmdValid = false) : (x.inputs G e).cmdReady = true := by
  have hnone : x.soc.offer = none := by
    rw [← Option.isNone_iff_eq_none, ← Option.not_isSome, h.wired.offer_isSome, hv]
    rfl
  exact (hP.idle (x.moves e none) x.soc h.inv hnone).1

theorem Coupled.good (hP : Prompt G mem result busy J Good Known) (h : Coupled G busy J x)
    {next : Option Command} (hk : ∀ c, next = some c → Known c) :
    Good (x.moves e next) x.soc := by
  refine hP.good _ _ h.inv hk fun hv => ?_
  rw [h.brief] at hv
  refine ⟨hv, ?_⟩
  show (!x.cpu.rValid) = true
  rw [Bool.not_eq_true']
  by_contra hr
  simp [h.free (by simpa using hr)] at hv

theorem Coupled.answersAtOnce (hP : Prompt G mem result busy J Good Known)
    (h : Coupled G busy J x) : x.cpu.AnswersAtOnce (x.inputs G e) where
  full hr := (h.cmdFire hP).trans (h.free hr)
  answer _ := (h.rspValid hP).trans (h.cmdFire hP).symm

/-- Behind a command that waits, `memory` has no instruction for the CFU after a period. -/
theorem Coupled.memory_of_waiting (h : Coupled G busy J x) (hv : x.cpu.cmdValid = true)
    (hr : (x.inputs G e).cmdReady = false) :
    (x.tick G mem e).cpu.memoryCfuInFlight = false := by
  have hstep : (x.tick G mem e).cpu.memoryCfuInFlight =
      if x.cpu.memoryIsStuck (x.inputs G e) then x.cpu.memoryCfuInFlight
      else x.cpu.schedule && !x.cpu.executeIsStuck (x.inputs G e) :=
    h.sound.memory_step h.not_staleTaken
  rw [hstep, Cpu.executeIsStuck_of_waiting hv hr]
  cases hm : x.cpu.memoryCfuInFlight with
  | true => simp [(h.sound.memory_leaves (i := x.inputs G e) h.alone hm).1]
  | false => simp

theorem Coupled.hold_tick (hP : Prompt G mem result busy J Good Known) (h : Coupled G busy J x)
    (hh : (x.tick G mem e).cpu.hold = true) : (x.tick G mem e).cpu.scheduleWish = true := by
  have hr : (x.inputs G e).cmdReady = false := by
    by_contra hr
    have hnext : (x.tick G mem e).cpu.hold = x.cpu.nextHold (x.inputs G e) := rfl
    rw [hnext, Cpu.nextHold, if_pos (by simpa using hr)] at hh
    cases hh
  have hv : x.cpu.cmdValid = true := by
    by_contra hv
    simp [h.cmdReady hP (e := e) (by simpa using hv)] at hr
  have hs : x.cpu.schedule = true := by
    rcases h.sound.hold_step hh with hs | ⟨hw, -⟩
    · exact hs
    · simp only [Cpu.cmdValid, Cpu.schedule, hw, Bool.false_and, Bool.false_or,
        Bool.and_eq_true] at hv
      simp [h.hold hv.1] at hw
  have hnext := h.sound.schedule_step hs (Cpu.executeIsStuck_of_waiting hv hr)
  exact (Bool.and_eq_true_iff.mp hnext).1

/-- **Step lemma.** -/
theorem Coupled.tick (hP : Prompt G mem result busy J Good Known) (h : Coupled G busy J x)
    (hk : ∀ c, (x.tick G mem e).cpu.offer = some c → Known c) :
    Coupled G busy J (x.tick G mem e) := by
  have hgood : Good (x.moves e (x.tick G mem e).cpu.offer) x.soc := h.good hP hk
  have hready : (x.moves e (x.tick G mem e).cpu.offer).rspReady = !x.cpu.rValid := rfl
  have hvalid : (G.out (x.tick G mem e).soc.cfu).rspValid =
      if (G.out x.soc.cfu).rspValid then !(x.moves e (x.tick G mem e).cpu.offer).rspReady
      else busy (x.soc.mid G (x.moves e (x.tick G mem e).cpu.offer)) :=
    hP.pipelined.valid_tick _ _
  have hbusy : busy (x.tick G mem e).soc.cfu =
      busy (x.soc.mid G (x.moves e (x.tick G mem e).cpu.offer)) := hP.pipelined.busy_tick _ _
  have hleaves := hP.pipelined.leaves (x.moves e (x.tick G mem e).cpu.offer) x.soc h.inv
  refine ⟨wired_tick h.wired, hP.pipelined.step _ _ h.inv hgood,
    h.sound.step h.not_staleTaken, h.hold_tick hP, ?_, ?_,
    h.sound.alone_step h.not_staleTaken h.alone (h.answersAtOnce hP)⟩
  · rw [hvalid, hbusy, h.brief, hready]
    cases hb : busy x.soc.cfu with
    | true =>
      have hr : x.cpu.rValid = false := by
        by_contra hr
        simp [h.free (by simpa using hr)] at hb
      simp [hr, hleaves hb]
    | false => simp
  · intro hr
    -- a response that stays in the CPU is that of an instruction that has been taken
    rw [hbusy]
    cases hb : busy x.soc.cfu with
    | true => exact hleaves hb
    | false =>
      have hnext : x.cpu.nextRValid (x.inputs G e) = true := hr
      simp only [Cpu.nextRValid, h.rspValid hP, hb, Bool.false_eq_true, if_false] at hnext
      split_ifs at hnext with hrdy
      have hf : x.cpu.fired = true := by
        by_contra hf
        have hm : x.cpu.memoryCfuInFlight = true := by
          have hw := h.alone.waiting
          rw [hnext] at hw
          simpa [hf] using hw.symm
        simp [Cpu.memoryRspReady, hm, (h.sound.not_memoryRemoveIt hm).2] at hrdy
      have hnone : x.soc.offer = none := by
        rw [← Option.isNone_iff_eq_none, ← Option.not_isSome, h.wired.offer_isSome]
        simp [Cpu.cmdValid, hf]
      exact (hP.idle _ x.soc h.inv hnone).2

end System

end CfuPlayground.VexRiscv
