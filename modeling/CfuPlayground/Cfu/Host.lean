import CfuPlayground.Cfu.Answer
import CfuPlayground.Lib.Client

/-!
# A program calling a CFU

`cfu_op0` is a blocking call: the CPU offers the command until it is accepted, waits for the
response and goes on. `Host` composes a program with a CFU in its environment; the CPU takes any
time between two calls.

* `Serves`: between calls the CFU is `Ready` with an abstract state, and it answers a command as
  the function `respond` on abstract states says.
* `Serves.infinitely_ready`: a CFU that answers every command is ready again and again.
* `Host.eval_of_serves`, `Host.done_iff`: a program run on such a CFU has the result of its
  evaluation against `respond`, and no result if that has none.
-/

namespace CfuPlayground

open Lib

/-- A program that uses a CFU. -/
abbrev Program (α : Type) := Client Command Word α

variable {σ α A : Type}

/-- `cfu_op0(funct7, rs1, rs2)`. -/
def callCfuOp0 (funct7 : BitVec 7) (rs1 rs2 : Word) : Program Word :=
  Client.request (cfuOp0 funct7 rs1 rs2)

/-- The free choices of CPU and slave in one period; with `issue` the CPU issues the command its
program has come to. -/
structure Pace where
  issue : Bool
  idle : Command
  rspReady : Bool
  slave : SlaveMove

def Pace.moves (v : Pace) (next : Option Command) : Moves where
  next := if v.issue then next else none
  idle := v.idle
  rspReady := v.rspReady
  slave := v.slave

/-- A program and the CFU it uses. -/
structure Host (σ α : Type) where
  prog : Program α
  soc : Soc σ

/-- The program after a period. -/
def Host.nextProg (G : Gateware σ) (v : Pace) (h : Host σ α) : Program α :=
  h.prog.resume (h.soc.transfers G (v.moves none))

/-- The moves of the environment of the CFU in a period. -/
def Host.moves (G : Gateware σ) (v : Pace) (h : Host σ α) : Moves :=
  v.moves (h.nextProg G v).pending

def Host.tick (G : Gateware σ) (mem : Memory) (v : Pace) (h : Host σ α) : Host σ α where
  prog := h.nextProg G v
  soc := h.soc.tick G mem true (h.moves G v)

def Host.run (G : Gateware σ) (mem : Memory) (pace : ℕ → Pace) (h : Host σ α) : ℕ → Host σ α :=
  Lib.run (Host.tick G mem) pace h

variable {G : Gateware σ} {mem : Memory}

theorem Soc.transfers_moves (v : Pace) (c : Option Command) (s : Soc σ) :
    s.transfers G (v.moves c) = s.transfers G (v.moves none) := rfl

/-- The responses of a CFU to a blocking client, by the abstract states between commands. -/
structure Serves (G : Gateware σ) (mem : Memory) (Ready : A → Soc σ → Prop)
    (respond : A → Command → Option (Word × A)) : Prop where
  /-- Without a command the CFU stays ready, and the client may issue one. -/
  stay : ∀ {a s}, Ready a s → s.offer = none → ∀ m,
    s.transfers G m = none ∧ Ready a (s.tick G mem true m) ∧
      (s.tick G mem true m).offer = m.next
  /-- A command with a response is answered, and not before the response. -/
  answer : ∀ {a s c r a'}, Ready a s → s.offer = some c → respond a c = some (r, a') →
    ∀ moves, Fair moves → s.Answers G mem moves r (Ready a')
  /-- A command without a response is never answered. -/
  hang : ∀ {a s c}, Ready a s → s.offer = some c → respond a c = none →
    ∀ moves k, (Soc.run G mem true moves s k).transfers G (moves k) = none

/-- A CPU that goes on issuing and a fair environment. -/
structure FairPace (pace : ℕ → Pace) : Prop where
  issues : Infinitely fun n => (pace n).issue = true
  ready : Infinitely fun n => (pace n).rspReady = true
  acks : Infinitely fun n => (pace n).slave.isAck = true

theorem FairPace.shift {pace : ℕ → Pace} (h : FairPace pace) (k : ℕ) :
    FairPace fun n => pace (k + n) :=
  ⟨h.issues.shift k, h.ready.shift k, h.acks.shift k⟩

/-- Everyone is as fast as possible. -/
def Pace.eager : Pace := ⟨true, cfuOp0 0 0 0, true, .ack 0⟩

theorem fairPace_eager : FairPace fun _ => Pace.eager :=
  ⟨fun n => ⟨n, le_rfl, rfl⟩, fun n => ⟨n, le_rfl, rfl⟩, fun n => ⟨n, le_rfl, rfl⟩⟩

/-! ## Runs of a host -/

section Run

variable {pace : ℕ → Pace} {h : Host σ α}

theorem Host.run_add (k n : ℕ) :
    Host.run G mem pace h (k + n) =
      Host.run G mem (fun j => pace (k + j)) (Host.run G mem pace h k) n :=
  Lib.run_add k n

theorem Host.run_soc (n : ℕ) :
    (Host.run G mem pace h n).soc = Soc.run G mem true
      (fun j => (Host.run G mem pace h j).moves G (pace j)) h.soc n := by
  induction n with
  | zero => rfl
  | succ n ih =>
    show (Host.tick G mem (pace n) (Host.run G mem pace h n)).soc =
      Soc.tick G mem true _ (Soc.run G mem true _ h.soc n)
    rw [← ih]
    rfl

theorem Host.fair_moves (hf : FairPace pace) :
    Fair fun j => (Host.run G mem pace h j).moves G (pace j) :=
  ⟨hf.ready, hf.acks⟩

theorem Host.prog_of_quiet {n : ℕ}
    (hq : ∀ j < n, (Host.run G mem pace h j).soc.transfers G ((pace j).moves none) = none) :
    (Host.run G mem pace h n).prog = h.prog := by
  induction n with
  | zero => rfl
  | succ n ih =>
    show (Host.nextProg G (pace n) (Host.run G mem pace h n)) = h.prog
    rw [Host.nextProg, hq n (Nat.lt_succ_self n), Client.resume_none]
    exact ih fun j hj => hq j (Nat.lt_succ_of_lt hj)

theorem Host.prog_stays {p : Program α} (hp : p.pending = none) {n : ℕ}
    (hn : (Host.run G mem pace h n).prog = p) (k : ℕ) :
    (Host.run G mem pace h (n + k)).prog = p := by
  induction k with
  | zero => exact hn
  | succ k ih =>
    show Host.nextProg G _ (Host.run G mem pace h (n + k)) = _
    rw [Host.nextProg, ih]
    cases p with
    | done | abort => rfl
    | call => cases hp

theorem Host.done_stays {x : α} {n : ℕ} (hd : (Host.run G mem pace h n).prog = .done x) (k : ℕ) :
    (Host.run G mem pace h (n + k)).prog = .done x := Host.prog_stays rfl hd k

end Run

/-! ## Programs on a serving CFU -/

section Serves

variable {Ready : A → Soc σ → Prop} {respond : A → Command → Option (Word × A)}

/-- **Progress.** If every command that finds the CFU ready has a response, the CFU is ready
again and again. -/
theorem Serves.infinitely_ready (hS : Serves G mem Ready respond) {moves : ℕ → Moves}
    (hf : Fair moves) {s : Soc σ} (h0 : ∃ a, Ready a s)
    (hresp : ∀ n a c, Ready a (Soc.run G mem true moves s n) →
      (Soc.run G mem true moves s n).offer = some c → (respond a c).isSome = true) :
    Infinitely fun n => ∃ a, Ready a (Soc.run G mem true moves s n) := by
  intro n
  induction n with
  | zero => exact ⟨0, le_rfl, h0⟩
  | succ n ih =>
    obtain ⟨m, hm, a, ha⟩ := ih
    rcases Nat.lt_or_ge n m with hlt | hge
    · exact ⟨m, hlt, a, ha⟩
    obtain rfl := le_antisymm hge hm
    cases ho : (Soc.run G mem true moves s m).offer with
    | none => exact ⟨m + 1, le_rfl, a, (hS.stay ha ho (moves m)).2.1⟩
    | some c =>
      obtain ⟨⟨r, a'⟩, hr⟩ := Option.isSome_iff_exists.mp (hresp m a c ha ho)
      obtain ⟨k, -, -, hready, -⟩ := hS.answer ha ho hr (fun j => moves (m + j)) (hf.shift m)
      rw [← Soc.run_add'] at hready
      exact ⟨m + (k + 1), by omega, a', hready⟩

/-- The CFU is ready, and a command it may already see is the program's. -/
def Host.Settled (Ready : A → Soc σ → Prop) (a : A) (h : Host σ α) : Prop :=
  Ready a h.soc ∧ (h.soc.offer = none ∨ h.soc.offer = h.prog.pending)

/-- A CFU that is idle, whatever the environment does, leaves the program where it is. -/
theorem Host.tick_of_idle {Q : Soc σ → Prop} {h : Host σ α}
    (hidle : ∀ m, h.soc.transfers G m = none ∧ Q (h.soc.tick G mem true m) ∧
      (h.soc.tick G mem true m).offer = m.next) (v : Pace) :
    (h.tick G mem v).prog = h.prog ∧ Q (h.tick G mem v).soc ∧
      (h.tick G mem v).soc.offer = if v.issue then h.prog.pending else none := by
  obtain ⟨htr, hr, hoff⟩ := hidle (h.moves G v)
  have hprog : h.nextProg G v = h.prog := by
    rw [Host.nextProg, ← Soc.transfers_moves v (h.nextProg G v).pending, ← Host.moves, htr,
      Client.resume_none]
  refine ⟨hprog, hr, ?_⟩
  rw [← hprog]
  exact hoff

theorem Host.exists_offer (hS : Serves G mem Ready respond) {pace : ℕ → Pace}
    (hf : FairPace pace) {h : Host σ α} {a : A} (hs : h.Settled Ready a) :
    ∃ n, (∀ j ≤ n, (Host.run G mem pace h j).prog = h.prog) ∧
      Ready a (Host.run G mem pace h n).soc ∧
      (Host.run G mem pace h n).soc.offer = h.prog.pending := by
  rcases hs with ⟨hready, hnone | hsome⟩
  · obtain ⟨m, -, hissue, hfirst⟩ := exists_first (hf.issues 0)
    have hkeep : ∀ j ≤ m, (Host.run G mem pace h j).prog = h.prog ∧
        Ready a (Host.run G mem pace h j).soc ∧ (Host.run G mem pace h j).soc.offer = none := by
      intro j hj
      refine keep_until (n := 0) (q := fun k => (pace k).issue = true)
        (P := fun k => (Host.run G mem pace h k).prog = h.prog ∧
          Ready a (Host.run G mem pace h k).soc ∧ (Host.run G mem pace h k).soc.offer = none)
        ⟨rfl, hready, hnone⟩ ?_ (Nat.zero_le j) fun k _ hk => hfirst k (Nat.zero_le k) (by omega)
      intro k _ _ hk hni
      obtain ⟨hprog, hr, ho⟩ := Host.tick_of_idle (hS.stay hk.2.1 hk.2.2) (pace k)
      exact ⟨hprog.trans hk.1, hr, ho.trans (if_neg hni)⟩
    obtain ⟨hprog, hr, ho⟩ := hkeep m le_rfl
    obtain ⟨hprog', hr', ho'⟩ := Host.tick_of_idle (hS.stay hr ho) (pace m)
    refine ⟨m + 1, ?_, hr', ?_⟩
    · intro j hj
      rcases Nat.le_succ_iff.mp hj with hle | rfl
      · exact (hkeep j hle).1
      · exact hprog'.trans hprog
    · exact ho'.trans (by rw [if_pos hissue, hprog])
  · refine ⟨0, ?_, hready, hsome⟩
    intro j hj
    obtain rfl := Nat.le_zero.mp hj
    rfl

/-- **One call.** The CPU offers the command, gets the response and goes on. -/
theorem Host.call (hS : Serves G mem Ready respond) {pace : ℕ → Pace} (hf : FairPace pace)
    {h : Host σ α} {a a' : A} {c : Command} {next : Word → Program α} {r : Word}
    (hp : h.prog = .call c next) (hs : h.Settled Ready a) (hr : respond a c = some (r, a')) :
    ∃ n, (Host.run G mem pace h n).prog = next r ∧ (Host.run G mem pace h n).Settled Ready a' ∧
      ∀ j < n, (Host.run G mem pace h j).prog = h.prog := by
  obtain ⟨n, hbefore, hready, hoffer⟩ := Host.exists_offer hS hf hs
  set h₁ := Host.run G mem pace h n with hh₁
  set pace₁ : ℕ → Pace := fun j => pace (n + j) with hpace₁
  have hprog₁ : h₁.prog = .call c next := (hbefore n le_rfl).trans hp
  have hoffer₁ : h₁.soc.offer = some c := by rw [hoffer, hp]; rfl
  obtain ⟨k, hquiet, htr, hready', hoffer'⟩ := hS.answer hready hoffer₁ hr
    (fun j => (Host.run G mem pace₁ h₁ j).moves G (pace₁ j)) (Host.fair_moves (hf.shift n))
  have hwait : ∀ j ≤ k, (Host.run G mem pace₁ h₁ j).prog = h₁.prog := by
    intro j hj
    refine Host.prog_of_quiet fun i hi => ?_
    rw [Host.run_soc]
    exact hquiet i (by omega)
  have hnext : (Host.run G mem pace₁ h₁ (k + 1)).prog = next r := by
    show Host.nextProg G (pace₁ k) (Host.run G mem pace₁ h₁ k) = next r
    rw [← Host.run_soc] at htr
    have htr' : (Host.run G mem pace₁ h₁ k).soc.transfers G ((pace₁ k).moves none) = some r := htr
    rw [Host.nextProg, htr', hwait k le_rfl, hprog₁]
    rfl
  refine ⟨n + (k + 1), ?_, ?_, ?_⟩
  · rw [Host.run_add]
    exact hnext
  · rw [Host.run_add]
    refine ⟨by rw [Host.run_soc]; exact hready', ?_⟩
    rw [Host.run_soc, hoffer']
    have hmove : ((Host.run G mem pace₁ h₁ k).moves G (pace₁ k)).next =
        if (pace₁ k).issue then (Host.run G mem pace₁ h₁ (k + 1)).prog.pending else none := rfl
    rw [hmove]
    split_ifs
    · exact .inr rfl
    · exact .inl rfl
  · intro j hj
    rcases Nat.lt_or_ge j n with hlt | hge
    · exact hbefore j hlt.le
    · obtain ⟨i, rfl⟩ := Nat.exists_eq_add_of_le hge
      rw [Host.run_add, hwait i (by omega), hprog₁, hp]

/-- **A program on a serving CFU** ends with the result of its evaluation. -/
theorem Host.eval_of_serves (hS : Serves G mem Ready respond) {pace : ℕ → Pace}
    (hf : FairPace pace) {h : Host σ α} {a a' : A} {x : α} (hs : h.Settled Ready a)
    (he : h.prog.eval respond a = some (x, a')) :
    ∃ n, (Host.run G mem pace h n).prog = .done x ∧
      Ready a' (Host.run G mem pace h n).soc ∧ (Host.run G mem pace h n).soc.offer = none ∧
      ∀ j < n, ∀ y, (Host.run G mem pace h j).prog ≠ .done y := by
  obtain ⟨p, hp⟩ : ∃ p, h.prog = p := ⟨_, rfl⟩
  rw [hp] at he
  induction p generalizing h a pace with
  | done y =>
    cases he
    refine ⟨0, hp, hs.1, ?_, fun j hj => absurd hj (Nat.not_lt_zero j)⟩
    have hoffer := hs.2
    rw [hp] at hoffer
    exact hoffer.elim id id
  | abort => cases he
  | call c next ih =>
    obtain ⟨⟨r, a₁⟩, hr, he'⟩ := Option.bind_eq_some_iff.mp he
    obtain ⟨n, hprog, hs', hbefore⟩ := Host.call hS hf hp hs hr
    obtain ⟨m, hdone, hready, hoffer, hnot⟩ := ih r (hf.shift n) hs' he' hprog
    simp only [← Host.run_add] at hdone hready hoffer hnot
    refine ⟨n + m, hdone, hready, hoffer, fun j hj y hy => ?_⟩
    rcases Nat.lt_or_ge j n with hlt | hge
    · rw [hbefore j hlt, hp] at hy
      cases hy
    · obtain ⟨i, rfl⟩ := Nat.exists_eq_add_of_le hge
      exact hnot i (by omega) y hy

/-- **A call without an answer.** The CPU waits for ever. -/
theorem Host.hangs (hS : Serves G mem Ready respond) {pace : ℕ → Pace} (hf : FairPace pace)
    {h : Host σ α} {a : A} {c : Command} {next : Word → Program α} (hp : h.prog = .call c next)
    (hs : h.Settled Ready a) (hr : respond a c = none) (n : ℕ) :
    (Host.run G mem pace h n).prog = h.prog := by
  obtain ⟨m, hbefore, hready, hoffer⟩ := Host.exists_offer hS hf hs
  rcases Nat.lt_or_ge n m with hlt | hge
  · exact hbefore n hlt.le
  · obtain ⟨i, rfl⟩ := Nat.exists_eq_add_of_le hge
    rw [Host.run_add, Host.prog_of_quiet, hbefore m le_rfl]
    intro l _
    rw [Host.run_soc]
    exact hS.hang hready (by rw [hoffer, hp]; rfl) hr
      (fun i => (Host.run G mem _ _ i).moves G _) l

/-- **A program without an evaluation** never ends. -/
theorem Host.not_done_of_serves (hS : Serves G mem Ready respond) {pace : ℕ → Pace}
    (hf : FairPace pace) {h : Host σ α} {a : A} (hs : h.Settled Ready a)
    (he : h.prog.eval respond a = none) (n : ℕ) (x : α) :
    (Host.run G mem pace h n).prog ≠ .done x := by
  obtain ⟨p, hp⟩ : ∃ p, h.prog = p := ⟨_, rfl⟩
  rw [hp] at he
  induction p generalizing h a pace n with
  | done y => cases he
  | abort =>
    have hstart : (Host.run G mem pace h 0).prog = .abort := hp
    have habort := Host.prog_stays rfl hstart n
    rw [Nat.zero_add] at habort
    simp [habort]
  | call c next ih =>
    cases hr : respond a c with
    | none => simp [Host.hangs hS hf hp hs hr n, hp]
    | some ra =>
      obtain ⟨m, hprog, hs', hbefore⟩ := Host.call hS hf hp hs hr
      have he' : (next ra.1).eval respond ra.2 = none := by
        rw [Client.eval, hr] at he
        exact he
      rcases Nat.lt_or_ge n m with hlt | hge
      · simp [hbefore n hlt, hp]
      · obtain ⟨i, rfl⟩ := Nat.exists_eq_add_of_le hge
        rw [Host.run_add]
        exact ih ra.1 (hf.shift m) hs' i he' hprog

/-- A program that has ended left the CFU ready, with the state of its evaluation. -/
theorem Host.ready_of_done (hS : Serves G mem Ready respond) {pace : ℕ → Pace}
    (hf : FairPace pace) {h : Host σ α} {a : A} (hs : h.Settled Ready a) {n : ℕ} {x : α}
    (hn : (Host.run G mem pace h n).prog = .done x) :
    ∃ a', h.prog.eval respond a = some (x, a') ∧ Ready a' (Host.run G mem pace h n).soc ∧
      (Host.run G mem pace h n).soc.offer = none := by
  cases he : h.prog.eval respond a with
  | none => exact absurd hn (Host.not_done_of_serves hS hf hs he n x)
  | some y =>
    obtain ⟨m, hm, hready, hoffer, hnot⟩ := Host.eval_of_serves hS hf hs he
    have hle : m ≤ n := by
      by_contra hlt
      exact hnot n (by omega) x hn
    have hkeep : ∀ k, (Host.run G mem pace h (m + k)).prog = .done y.1 ∧
        Ready y.2 (Host.run G mem pace h (m + k)).soc ∧
        (Host.run G mem pace h (m + k)).soc.offer = none := by
      intro k
      induction k with
      | zero => exact ⟨hm, hready, hoffer⟩
      | succ k ih =>
        obtain ⟨hp, hr, ho⟩ := ih
        obtain ⟨hp', hr', ho'⟩ := Host.tick_of_idle (hS.stay hr ho) (pace (m + k))
        refine ⟨hp'.trans hp, hr', ho'.trans ?_⟩
        rw [hp]
        exact ite_self none
    obtain ⟨k, rfl⟩ := Nat.exists_eq_add_of_le hle
    obtain ⟨hp, hr, ho⟩ := hkeep k
    rw [hp] at hn
    cases hn
    exact ⟨y.2, rfl, hr, ho⟩

/-- **Refinement.** The program ends with `x` exactly if its evaluation does. -/
theorem Host.done_iff (hS : Serves G mem Ready respond) {pace : ℕ → Pace} (hf : FairPace pace)
    {h : Host σ α} {a : A} (hs : h.Settled Ready a) (x : α) :
    (∃ n, (Host.run G mem pace h n).prog = .done x) ↔
      ∃ a', h.prog.eval respond a = some (x, a') := by
  constructor
  · rintro ⟨n, hn⟩
    obtain ⟨a', he, -⟩ := Host.ready_of_done hS hf hs hn
    exact ⟨a', he⟩
  · rintro ⟨a', he⟩
    obtain ⟨n, hn, -⟩ := Host.eval_of_serves hS hf hs he
    exact ⟨n, hn⟩

end Serves

end CfuPlayground
