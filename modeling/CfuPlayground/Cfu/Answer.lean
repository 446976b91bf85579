import CfuPlayground.Cfu.Soc

/-!
# Waiting for a response

* `Soc.Quiet`, `Soc.Offered`, `Reply.Delivers`: the wires between and during transactions.
* `Fair`: the client is ready again and again and the slave acknowledges again and again.
* `Soc.Answers`: the next response, and what holds after it; `of_later` moves the claim over
  clock periods without a response.
* `Soc.exists_ack`, `Soc.exists_ready`: a CFU that keeps its request up is acknowledged, and one
  that keeps a response up finds the client ready.
-/

namespace CfuPlayground

open Lib

variable {σ : Type} {G : Gateware σ} {mem : Memory} {moves : ℕ → Moves} {s : Soc σ}

/-- A slave move that acknowledges. -/
def SlaveMove.isAck : SlaveMove → Bool
  | ack _ => true
  | _ => false

structure Fair (moves : ℕ → Moves) : Prop where
  ready : Infinitely fun n => (moves n).rspReady = true
  acks : Infinitely fun n => (moves n).slave.isAck = true

theorem Fair.shift (h : Fair moves) (k : ℕ) : Fair fun n => moves (k + n) :=
  ⟨h.ready.shift k, h.acks.shift k⟩

/-- The bus is down, and was down at the last rising edge. -/
def Soc.Quiet (G : Gateware σ) (s : Soc σ) : Prop :=
  (G.out s.cfu).cfuRamCyc = false ∧ (G.out s.cfu).cfuRamStb = false ∧ s.seen = false

/-- A command on the wires, and every command accepted before it answered. -/
def Soc.Offered (c : Command) (s : Soc σ) : Prop :=
  s.offer = some c ∧ s.accepted.length = s.responses.length

/-- An acknowledged word is the one stored at `adr`. -/
def Reply.Delivers (mem : Memory) (adr : WordAdr) (r : Reply) : Prop :=
  r.ack = true → r.err = false ∧ r.dat = mem adr

theorem delivers_next {o : Out} {seen : Bool} {r : Reply} {v : SlaveMove} {adr : WordAdr}
    (h : r.ack = true ∨ o.cfuRamAdr = adr ∨
      (o.cfuRamCyc && o.cfuRamStb || seen) = false) :
    (r.next mem o seen v).Delivers mem adr := by
  intro hack
  cases v with
  | wait dat => simp [Reply.next] at hack
  | err dat => simp [Reply.next] at hack
  | ack dat =>
    simp only [Reply.next] at hack ⊢
    split_ifs at hack ⊢ with hc
    rcases h with h | rfl | h
    · simp [h] at hc
    · exact ⟨rfl, rfl⟩
    · simp [h] at hc

/-- No response is transferred in the first `n` periods. -/
def Soc.QuietFor (G : Gateware σ) (mem : Memory) (moves : ℕ → Moves) (s : Soc σ) (n : ℕ) : Prop :=
  ∀ j < n, (Soc.run G mem true moves s j).transfers G (moves j) = none

/-- The next response is `r`; with it `P` holds, and the client may issue its next command. -/
def Soc.Answers (G : Gateware σ) (mem : Memory) (moves : ℕ → Moves) (s : Soc σ) (r : Word)
    (P : Soc σ → Prop) : Prop :=
  ∃ k, s.QuietFor G mem moves k ∧
    (Soc.run G mem true moves s k).transfers G (moves k) = some r ∧
    P (Soc.run G mem true moves s (k + 1)) ∧
    (Soc.run G mem true moves s (k + 1)).offer = (moves k).next

theorem Soc.run_add' (blocking : Bool) (k n : ℕ) :
    Soc.run G mem blocking moves s (k + n) =
      Soc.run G mem blocking (fun j => moves (k + j)) (Soc.run G mem blocking moves s k) n :=
  Lib.run_add k n

theorem Soc.responses_mono {blocking : Bool} {k n : ℕ} (h : k ≤ n) :
    (Soc.run G mem blocking moves s k).responses.length ≤
      (Soc.run G mem blocking moves s n).responses.length := by
  induction n, h using Nat.le_induction with
  | base => exact le_rfl
  | succ n _ ih =>
    refine ih.trans ?_
    show _ ≤ ((Soc.run G mem blocking moves s n).responses ++ _).length
    rw [List.length_append]
    exact Nat.le_add_right _ _

theorem Soc.accepted_mono {blocking : Bool} {k n : ℕ} (h : k ≤ n) :
    (Soc.run G mem blocking moves s k).accepted.length ≤
      (Soc.run G mem blocking moves s n).accepted.length := by
  induction n, h using Nat.le_induction with
  | base => exact le_rfl
  | succ n _ ih =>
    refine ih.trans ?_
    show _ ≤ ((Soc.run G mem blocking moves s n).accepted ++ _).length
    rw [List.length_append]
    exact Nat.le_add_right _ _

theorem Soc.Answers.of_later {n : ℕ} {r : Word} {P : Soc σ → Prop}
    (hq : s.QuietFor G mem moves n)
    (h : (Soc.run G mem true moves s n).Answers G mem (fun j => moves (n + j)) r P) :
    s.Answers G mem moves r P := by
  obtain ⟨k, hquiet, htr, hP, hoffer⟩ := h
  refine ⟨n + k, ?_, ?_, ?_, ?_⟩
  · intro j hj
    rcases Nat.lt_or_ge j n with hlt | hge
    · exact hq j hlt
    · obtain ⟨i, rfl⟩ := Nat.exists_eq_add_of_le hge
      rw [Soc.run_add']
      exact hquiet i (by omega)
  · rw [Soc.run_add']
    exact htr
  · rw [Nat.add_assoc, Soc.run_add']
    exact hP
  · rw [Nat.add_assoc, Soc.run_add']
    exact hoffer

theorem Soc.Answers.length_lt {n : ℕ} {r : Word} {P : Soc σ → Prop}
    (h : (Soc.run G mem true moves s n).Answers G mem (fun j => moves (n + j)) r P) :
    ∃ m, n ≤ m ∧ (Soc.run G mem true moves s n).responses.length + 1 ≤
      (Soc.run G mem true moves s m).responses.length := by
  obtain ⟨k, -, htr, -⟩ := h
  rw [← Soc.run_add'] at htr
  have hlast : (Soc.run G mem true moves s (n + k + 1)).responses =
      (Soc.run G mem true moves s (n + k)).responses ++ [r] := by
    show (Soc.run G mem true moves s (n + k)).responses ++
      ((Soc.run G mem true moves s (n + k)).transfers G (moves (n + k))).toList = _
    rw [htr]
    rfl
  refine ⟨n + k + 1, by omega, ?_⟩
  rw [hlast, List.length_append]
  exact Nat.add_le_add_right (Soc.responses_mono (Nat.le_add_right n k)) 1

theorem Soc.quietFor_one (h : s.transfers G (moves 0) = none) : s.QuietFor G mem moves 1 := by
  intro j hj
  obtain rfl := Nat.lt_one_iff.mp hj
  exact h

theorem Soc.Answers.mono {r : Word} {P Q : Soc σ → Prop} (h : s.Answers G mem moves r P)
    (hPQ : ∀ s, P s → Q s) : s.Answers G mem moves r Q := by
  obtain ⟨k, hq, htr, hP, ho⟩ := h
  exact ⟨k, hq, htr, hPQ _ hP, ho⟩

theorem Soc.Answers.now {r : Word} {P : Soc σ → Prop} (h : s.transfers G (moves 0) = some r)
    (hP : P (s.tick G mem true (moves 0)))
    (ho : (s.tick G mem true (moves 0)).offer = (moves 0).next) : s.Answers G mem moves r P :=
  ⟨0, fun j hj => absurd hj (Nat.not_lt_zero j), h, hP, ho⟩

theorem Soc.Answers.next {r : Word} {P : Soc σ → Prop} (h : s.transfers G (moves 0) = none)
    (hn : (s.tick G mem true (moves 0)).Answers G mem (fun j => moves (1 + j)) r P) :
    s.Answers G mem moves r P :=
  Soc.Answers.of_later (n := 1) (Soc.quietFor_one h) hn

/-- With nothing offered any more and nothing outstanding, the client offers what it likes. -/
theorem Soc.offer_tick {m : Moves} (hk : s.offer = none ∨ s.accepts G m = s.offer)
    (hlen : (s.tick G mem true m).accepted.length = (s.tick G mem true m).responses.length) :
    (s.tick G mem true m).offer = m.next := by
  have hkept : (if (G.out (s.mid G m)).cmdReady then none else s.offer) = none := by
    split_ifs with hr
    · rfl
    · rcases hk with h | h
      · exact h
      · rw [← h, Soc.accepts, if_neg hr]
  show nextOffer true m (if (G.out (s.mid G m)).cmdReady then none else s.offer)
    (s.tick G mem true m).accepted (s.tick G mem true m).responses = m.next
  rw [hkept]
  simp [nextOffer, hlen]

theorem Soc.offer_of_tick {blocking : Bool} {m : Moves} {c : Command}
    (h : (s.tick G mem blocking m).offer = some c) : s.offer = some c ∨ m.next = some c := by
  have hcases : ∀ kept acc rsp, nextOffer blocking m kept acc rsp = some c →
      kept = some c ∨ m.next = some c := by
    intro kept acc rsp hk
    unfold nextOffer at hk
    split_ifs at hk
    · exact .inl hk
    · exact .inr hk
  rcases hcases _ _ _ h with hk | hn
  · split_ifs at hk
    exact .inl hk
  · exact .inr hn

/-- What every quiet period keeps, while `q` does not happen, holds at the first `q`. -/
theorem Soc.quiet_until {P : Soc σ → Prop} {q : ℕ → Prop} (hP : P s)
    (hkeep : ∀ k, P (Soc.run G mem true moves s k) → ¬ q k →
      (Soc.run G mem true moves s k).transfers G (moves k) = none ∧
        P (Soc.run G mem true moves s (k + 1))) (hq : ∃ m, q m) :
    ∃ m, s.QuietFor G mem moves m ∧ P (Soc.run G mem true moves s m) ∧ q m := by
  obtain ⟨m, -, hqm, hfirst⟩ := exists_first (n := 0) ((hq).imp fun m h => ⟨Nat.zero_le m, h⟩)
  have hP' : ∀ k ≤ m, P (Soc.run G mem true moves s k) := by
    intro k hk
    refine keep_until (n := 0) (q := q) (P := fun k => P (Soc.run G mem true moves s k)) hP ?_
      (Nat.zero_le k) fun j _ hj => hfirst j (Nat.zero_le j) (by omega)
    exact fun j _ _ hj hqj => (hkeep j hj hqj).2
  refine ⟨m, ?_, hP' m le_rfl, hqm⟩
  exact fun j hj => (hkeep j (hP' j hj.le) (hfirst j (Nat.zero_le j) hj)).1

theorem Soc.ack_tick {m : Moves} (hm : m.slave.isAck = true)
    (hcyc : (G.out (s.mid G m)).cfuRamCyc = true) (hstb : (G.out (s.mid G m)).cfuRamStb = true)
    (hack : s.reply.ack = false) : (s.tick G mem true m).reply.ack = true := by
  cases hmove : m.slave with
  | wait d => rw [hmove] at hm; cases hm
  | err d => rw [hmove] at hm; cases hm
  | ack d => simp [Soc.tick, Reply.next, hmove, hcyc, hstb, hack]

/-- **A request that stays up is acknowledged.** -/
theorem Soc.exists_ack {P : Soc σ → Prop} (hf : Fair moves) (hP : P s)
    (hkeep : ∀ s m, P s → s.reply.ack = false →
      s.transfers G m = none ∧ P (s.tick G mem true m) ∧
        (G.out (s.mid G m)).cfuRamCyc = true ∧ (G.out (s.mid G m)).cfuRamStb = true) :
    ∃ n, s.QuietFor G mem moves n ∧ P (Soc.run G mem true moves s n) ∧
      (Soc.run G mem true moves s n).reply.ack = true := by
  refine Soc.quiet_until hP (fun k hk hack => ?_) ?_
  · obtain ⟨htr, hP', -⟩ := hkeep _ (moves k) hk (by simpa using hack)
    exact ⟨htr, hP'⟩
  · by_contra hnever
    have hnone : ∀ k, (Soc.run G mem true moves s k).reply.ack = false := by
      simpa using hnever
    have hall : ∀ k, P (Soc.run G mem true moves s k) := by
      intro k
      induction k with
      | zero => exact hP
      | succ k ih => exact (hkeep _ (moves k) ih (hnone k)).2.1
    obtain ⟨m, -, hm⟩ := hf.acks 0
    obtain ⟨-, -, hcyc, hstb⟩ := hkeep _ (moves m) (hall m) (hnone m)
    have hnext : (Soc.run G mem true moves s (m + 1)).reply.ack = true :=
      Soc.ack_tick hm hcyc hstb (hnone m)
    simp [hnone (m + 1)] at hnext

/-- **A response that stays up is taken.** -/
theorem Soc.exists_ready {P : Soc σ → Prop} (hf : Fair moves) (hP : P s)
    (hkeep : ∀ s m, P s → m.rspReady = false →
      s.transfers G m = none ∧ P (s.tick G mem true m)) :
    ∃ n, s.QuietFor G mem moves n ∧ P (Soc.run G mem true moves s n) ∧
      (moves n).rspReady = true := by
  obtain ⟨m, -, hm⟩ := hf.ready 0
  exact Soc.quiet_until hP (fun k hk hr => hkeep _ _ hk (by simpa using hr)) ⟨m, hm⟩

end CfuPlayground
