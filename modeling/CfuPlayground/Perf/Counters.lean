import CfuPlayground.Perf.Model
import CfuPlayground.Lib.Halves
import CfuPlayground.Lib.Stopwatch

/-!
# What the counters measure

* `counter_reads_stopwatch`: each counter is a stopwatch of its own, whatever is done with the
  others.
* **`counter_measures`**: the cycles between the calls that enable and disable it, one start for
  each pair.
* **`perfGetMcycle64_valid`**: the value is that of `mcycle` in a cycle of the call, also if the
  low half overflows in between, and the loop runs twice at most.
-/

namespace CfuPlayground.Perf

open Lib

variable {calls : ℕ → Option PerfCall} {s : State} {i : CounterNum} {n : ℕ}

theorem run_succ (n : ℕ) : run calls s (n + 1) = (run calls s n).step (calls n) := rfl

/-! ## Stopwatches -/

/-- What a call does to the stopwatch of a counter. -/
def press (i : CounterNum) (t : ℕ) (w : Stopwatch) : PerfCall → Stopwatch
  | .setCounter j count => if j = i then w.set t count.toNat else w
  | .setCounterEnable j en => if j = i then (if isSet en then w.start t else w.stop t) else w
  | _ => w

/-- The stopwatch of a counter. -/
def watch (calls : ℕ → Option PerfCall) (s : State) (i : CounterNum) : ℕ → Stopwatch
  | 0 => ⟨(s.csrs.cycleCounter i).toNat, if isSet (s.csrs.enable i) then some 0 else none⟩
  | n + 1 => ((calls n).map (press i (n + 1) (watch calls s i n))).getD (watch calls s i n)

/-- The registers of a counter and its stopwatch. -/
structure Agrees (i : CounterNum) (s : Csrs) (w : Stopwatch) (t : ℕ) : Prop where
  counter : s.cycleCounter i = BitVec.ofNat 32 (w.reading t)
  enable : isSet (s.enable i) = w.since.isSome
  past : w.Past t

theorem Agrees.count {c : Csrs} {w : Stopwatch} {t : ℕ} (h : Agrees i c w t) :
    (if isSet (c.enable i) then c.cycleCounter i + 1 else c.cycleCounter i) =
      BitVec.ofNat 32 (w.reading (t + 1)) := by
  rw [Stopwatch.reading_succ h.past, h.enable, h.counter]
  split_ifs
  · exact (BitVec.ofNat_add _ 1).symm
  · rfl

/-- **Step lemma.** -/
theorem Agrees.step {c : Csrs} {w : Stopwatch} {t : ℕ} (h : Agrees i c w t)
    (call : Option PerfCall) : Agrees i (c.step (call.bind PerfCall.csrw))
      ((call.map (press i (t + 1) w)).getD w) (t + 1) := by
  have hcount := h.count
  have hpast := h.past.succ
  have hquiet : ∀ w', w' = none ∨ (∃ v, w' = some (mcycleCsr, v)) →
      Agrees i (c.step w') w (t + 1) := by
    rintro w' (rfl | ⟨v, rfl⟩)
    · exact ⟨hcount, h.enable, hpast⟩
    · refine ⟨?_, ?_, hpast⟩
      · rw [← hcount]
        simp [Csrs.step, written, (mcycleCsr_ne i).1]
      · rw [← h.enable]
        simp [Csrs.step, written, (mcycleCsr_ne i).2]
  cases call with
  | none => exact hquiet none (.inl rfl)
  | some call =>
    cases call with
    | zeroStartCounts => exact hquiet none (.inl rfl)
    | setMcycle cyc => exact hquiet _ (.inr ⟨cyc, rfl⟩)
    | setCounter j v =>
      by_cases hj : j = i
      · subst hj
        refine ⟨?_, ?_, ?_⟩
        · simp [Csrs.step, written, PerfCall.csrw, press, Stopwatch.reading_set]
        · simp [Csrs.step, written, PerfCall.csrw, press, counterCsr_ne_enableCsr, h.enable,
            Stopwatch.set]
        · simpa [press] using Stopwatch.past_set v.toNat
      · refine ⟨?_, ?_, by simpa [press, hj] using hpast⟩
        · simpa [Csrs.step, written, PerfCall.csrw, press, hj, counterCsr_inj] using hcount
        · simp [Csrs.step, written, PerfCall.csrw, press, hj, counterCsr_ne_enableCsr, h.enable]
    | setCounterEnable j en =>
      by_cases hj : j = i
      · subst hj
        refine ⟨?_, ?_, ?_⟩
        · have hreading : (press j (t + 1) w (.setCounterEnable j en)).reading (t + 1) =
              w.reading (t + 1) := by
            simp only [press, if_true]
            split_ifs
            · exact Stopwatch.reading_start
            · exact Stopwatch.reading_stop
          rw [Option.map_some, Option.getD_some, hreading, ← hcount]
          simp [Csrs.step, written, PerfCall.csrw, Ne.symm (counterCsr_ne_enableCsr j j)]
        · cases hen : isSet en <;>
            simp [Csrs.step, written, PerfCall.csrw, press, hen, Stopwatch.start, Stopwatch.stop]
        · cases hen : isSet en
          · simpa [press, hen] using Stopwatch.past_stop
          · simpa [press, hen] using hpast.start
      · refine ⟨?_, ?_, by simpa [press, hj] using hpast⟩
        · simpa [Csrs.step, written, PerfCall.csrw, press, hj,
            Ne.symm (counterCsr_ne_enableCsr i j)] using hcount
        · simp [Csrs.step, written, PerfCall.csrw, press, hj, enableCsr_inj, h.enable]

/-- **Run lemma.** -/
theorem agrees_run (calls : ℕ → Option PerfCall) (s : State) (i : CounterNum) (n : ℕ) :
    Agrees i (run calls s n).csrs (watch calls s i n) n := by
  induction n with
  | zero =>
    refine ⟨?_, ?_, ?_⟩
    · cases he : isSet (s.csrs.enable i) <;> simp [watch, Stopwatch.reading, he, run]
    · cases he : isSet (s.csrs.enable i) <;> simp [watch, he, run]
    · intro a ha
      cases he : isSet (s.csrs.enable i) <;> simp [watch, he] at ha
      exact ha.ge
  | succ n ih => exact ih.step (calls n)

theorem counter_reads_stopwatch (calls : ℕ → Option PerfCall) (s : State) (i : CounterNum)
    (n : ℕ) : (run calls s n).perfGetCounter i =
      some (BitVec.ofNat 32 ((watch calls s i n).reading n)) := by
  rw [State.perfGetCounter, read_counterCsr, (agrees_run calls s i n).counter]

/-! ## Intervals -/

/-- The call is about another counter, or about none. -/
def PerfCall.Elsewhere (i : CounterNum) : PerfCall → Prop
  | .zeroStartCounts => False
  | .setMcycle _ => True
  | .setCounter j _ => j ≠ i
  | .setCounterEnable j _ => j ≠ i

/-- From `t` on the counter is left alone until `n`. -/
def Quiet (calls : ℕ → Option PerfCall) (i : CounterNum) (t n : ℕ) : Prop :=
  ∀ k, t ≤ k → k < n → ∀ c, calls k = some c → c.Elsewhere i

/-- From `t` on, until `n`, the counter is enabled and disabled in the cycles of `l` only. -/
def Brackets (calls : ℕ → Option PerfCall) (i : CounterNum) : ℕ → List (ℕ × ℕ) → ℕ → Prop
  | t, [], n => t ≤ n ∧ Quiet calls i t n
  | t, (a, b) :: l, n =>
    t ≤ a ∧ Quiet calls i t a ∧ calls a = some (perfEnableCounter i) ∧
      a < b ∧ Quiet calls i (a + 1) b ∧ calls b = some (perfDisableCounter i) ∧
        Brackets calls i (b + 1) l n

/-- The cycles in between. -/
def measured (l : List (ℕ × ℕ)) : ℕ := (l.map fun p => p.2 - p.1).sum

variable {t : ℕ}

theorem press_of_elsewhere {w : Stopwatch} {c : PerfCall} (h : c.Elsewhere i) :
    press i t w c = w := by
  cases c with
  | zeroStartCounts => exact h.elim
  | setMcycle cyc => rfl
  | setCounter j v => exact if_neg h
  | setCounterEnable j en => exact if_neg h

theorem startCounts_of_elsewhere {counts : CounterNum → Word} {c : PerfCall}
    (h : c.Elsewhere i) : c.startCounts counts i = counts i := by
  cases c with
  | zeroStartCounts => exact h.elim
  | setMcycle cyc => rfl
  | setCounter j v => rfl
  | setCounterEnable j en =>
    simp only [PerfCall.startCounts]
    split_ifs
    · exact Function.update_of_ne (Ne.symm h) _ _
    · rfl

theorem quiet_run (h : Quiet calls i t n) (hle : t ≤ n) :
    watch calls s i n = watch calls s i t ∧
      (run calls s n).startCounts i = (run calls s t).startCounts i := by
  induction n, hle using Nat.le_induction with
  | base => exact ⟨rfl, rfl⟩
  | succ n hle ih =>
    obtain ⟨hw, hs⟩ := ih fun k hk hlt => h k hk (Nat.lt_succ_of_lt hlt)
    have hn := h n hle (Nat.lt_succ_self n)
    have hcounts : (run calls s (n + 1)).startCounts =
      ((calls n).map (PerfCall.startCounts (run calls s n).startCounts)).getD
        (run calls s n).startCounts := rfl
    rw [watch, hcounts]
    cases hc : calls n with
    | none => exact ⟨hw, hs⟩
    | some c => exact ⟨(press_of_elsewhere (hn c hc)).trans hw,
        (startCounts_of_elsewhere (hn c hc)).trans hs⟩

theorem bracket_run {a b : ℕ} (hoff : (watch calls s i a).since = none) (hab : a < b)
    (ha : calls a = some (perfEnableCounter i)) (hq : Quiet calls i (a + 1) b)
    (hb : calls b = some (perfDisableCounter i)) :
    watch calls s i (b + 1) = ⟨(watch calls s i a).total + (b - a), none⟩ ∧
      (run calls s (b + 1)).startCounts i = (run calls s a).startCounts i + 1 := by
  have hon : watch calls s i (a + 1) = ⟨(watch calls s i a).total, some (a + 1)⟩ := by
    rw [watch, ha]
    simp [press, perfEnableCounter, isSet, Stopwatch.start, hoff]
  obtain ⟨hw, hs⟩ := quiet_run (s := s) hq hab
  constructor
  · rw [watch, hb, hw, hon]
    simp only [Option.map_some, Option.getD_some, press, perfDisableCounter, if_true]
    rw [if_neg (by decide)]
    simp only [Stopwatch.stop, Stopwatch.reading]
    congr 1
    omega
  · have hbcounts : (run calls s (b + 1)).startCounts i = (run calls s b).startCounts i := by
      rw [run_succ, hb]
      rfl
    have hacounts : (run calls s (a + 1)).startCounts i = (run calls s a).startCounts i + 1 := by
      rw [run_succ, ha]
      exact Function.update_self i _ _
    rw [hbcounts, hs, hacounts]

theorem brackets_run {l : List (ℕ × ℕ)} (h : Brackets calls i t l n)
    (hoff : (watch calls s i t).since = none) :
    watch calls s i n = ⟨(watch calls s i t).total + measured l, none⟩ ∧
      (run calls s n).startCounts i =
        (run calls s t).startCounts i + BitVec.ofNat 32 l.length := by
  induction l generalizing t with
  | nil =>
    obtain ⟨hle, hq⟩ := h
    obtain ⟨hw, hs⟩ := quiet_run (s := s) hq hle
    refine ⟨?_, by rw [hs]; simp⟩
    rw [hw, measured, List.map_nil, List.sum_nil, add_zero, ← hoff]
  | cons p l ih =>
    obtain ⟨a, b⟩ := p
    obtain ⟨hta, hq, ha, hab, hqb, hb, hrest⟩ := h
    obtain ⟨hw, hs⟩ := quiet_run (s := s) hq hta
    obtain ⟨hw', hs'⟩ := bracket_run (by rw [hw]; exact hoff) hab ha hqb hb
    obtain ⟨hw'', hs''⟩ := ih hrest (by rw [hw'])
    constructor
    · rw [hw'', hw', hw]
      simp [measured, add_assoc]
    · rw [hs'', hs', hs, List.length_cons, BitVec.ofNat_add, add_assoc,
        add_comm (BitVec.ofNat 32 l.length)]
      rfl

/-- **What is measured.** From a cycle `t` in which the counter is disabled: the cycles between
the calls that enable and disable it, and a start for each pair. The other counters may be used
in any way. -/
theorem counter_measures {l : List (ℕ × ℕ)} (h : Brackets calls i t l n)
    (hoff : isSet ((run calls s t).csrs.enable i) = false) :
    (run calls s n).perfGetCounter i =
        some ((run calls s t).csrs.cycleCounter i + BitVec.ofNat 32 (measured l)) ∧
      (run calls s n).startCounts i =
        (run calls s t).startCounts i + BitVec.ofNat 32 l.length := by
  have ht := agrees_run calls s i t
  have hsince : (watch calls s i t).since = none := by
    rw [ht.enable] at hoff
    exact Option.not_isSome_iff_eq_none.mp (by simp [hoff])
  obtain ⟨hw, hs⟩ := brackets_run h hsince
  refine ⟨?_, hs⟩
  have htotal : (watch calls s i t).reading t = (watch calls s i t).total := by
    simp [Stopwatch.reading, hsince]
  rw [counter_reads_stopwatch, hw, ht.counter, htotal, ← BitVec.ofNat_add]
  rfl

/-- Two counters, one enabled while the other is. -/
def overlapping (n : ℕ) : Option PerfCall :=
  if n = 2 then some (perfEnableCounter 0)
  else if n = 3 then some (perfEnableCounter 1)
  else if n = 5 then some (perfDisableCounter 0)
  else if n = 9 then some (perfDisableCounter 1)
  else none

/-- All registers 0. -/
def State.zero : State := ⟨⟨0, fun _ => 0, fun _ => 0⟩, fun _ => 0⟩

theorem counter_measures_overlapping :
    (run overlapping State.zero 12).perfGetCounter 1 = some 6 ∧
      (run overlapping State.zero 12).startCounts 1 = 1 := by
  have hquiet : ∀ {a b : ℕ}, (∀ k < b, a ≤ k → ∀ c ∈ overlapping k, ∃ en,
      c = .setCounterEnable 0 en) → Quiet overlapping 1 a b := by
    intro a b h k hak hkb c hc
    obtain ⟨en, rfl⟩ := h k hkb hak c hc
    exact (by decide : (0 : CounterNum) ≠ 1)
  have hbrackets : Brackets overlapping 1 0 [(3, 9)] 12 := by
    refine ⟨by decide, hquiet ?_, rfl, by decide, hquiet ?_, rfl, by decide, hquiet ?_⟩ <;>
    · intro k hk hak c hc
      interval_cases k <;> simp [overlapping] at hc
      all_goals exact ⟨_, hc.symm⟩
  exact counter_measures hbrackets rfl

/-! ## `mcycle` -/

theorem mcycle_step {call : Option PerfCall} (h : ∀ cyc, call ≠ some (.setMcycle cyc)) :
    (s.step call).csrs.mcycle = s.csrs.mcycle + 1 := by
  have hwritten : ∀ csr, csr = mcycleCsr ∨ csr = mcyclehCsr →
      written (call.bind PerfCall.csrw) csr = none := by
    rintro csr hcsr
    cases call with
    | none => rfl
    | some call =>
      cases call with
      | zeroStartCounts => rfl
      | setMcycle cyc => exact absurd rfl (h cyc)
      | setCounter j v =>
        rcases hcsr with rfl | rfl
        · simp [written, PerfCall.csrw, (mcycleCsr_ne j).1.symm]
        · simp [written, PerfCall.csrw, (mcyclehCsr_ne j).1.symm]
      | setCounterEnable j en =>
        rcases hcsr with rfl | rfl
        · simp [written, PerfCall.csrw, (mcycleCsr_ne j).2.symm]
        · simp [written, PerfCall.csrw, (mcyclehCsr_ne j).2.symm]
  simp only [State.step, Csrs.step, hwritten _ (.inl rfl), hwritten _ (.inr rfl), Option.getD_none]
  generalize s.csrs.mcycle + 1 = x
  apply BitVec.eq_of_getElem_eq
  intro k hk
  simp only [BitVec.getElem_append, BitVec.getElem_extractLsb']
  split_ifs with hlow
  · simp [hk]
  · rw [BitVec.getLsbD_eq_getElem (by omega)]
    congr 1
    omega

theorem mcycle_add {d : ℕ}
    (h : ∀ k, t ≤ k → k < t + d → ∀ cyc, calls k ≠ some (.setMcycle cyc)) :
    (run calls s (t + d)).csrs.mcycle.toNat =
      ((run calls s t).csrs.mcycle.toNat + d) % (2 ^ 32 * 2 ^ 32) := by
  induction d with
  | zero =>
    have hlt := (run calls s t).csrs.mcycle.isLt
    rw [add_zero, add_zero, Nat.mod_eq_of_lt (by omega)]
  | succ d ih =>
    have hstep := mcycle_step (s := run calls s (t + d)) (h (t + d) (by omega) (by omega))
    rw [← add_assoc, run_succ, hstep, BitVec.toNat_add, ih fun k hk hlt => h k hk (by omega)]
    have hone : (1 : BitVec 64).toNat = 1 := rfl
    rw [hone]
    omega

theorem toNat_halves (x : BitVec 64) : (x.extractLsb' 32 32).toNat = x.toNat / 2 ^ 32 ∧
    (x.extractLsb' 0 32).toNat = x.toNat % 2 ^ 32 := by
  have hlt := x.isLt
  constructor
  · rw [BitVec.extractLsb'_toNat, Nat.shiftRight_eq_div_pow]
    omega
  · rw [BitVec.extractLsb'_toNat, Nat.shiftRight_zero]

theorem round_valid {a b c : ℕ} (hab : a ≤ b) (hbc : b ≤ c) (hc : c < a + 2 ^ 32)
    (hset : ∀ k, a ≤ k → k < c → ∀ cyc, calls k ≠ some (.setMcycle cyc))
    (h : (run calls s a).csrs.mcycle.extractLsb' 32 32 =
      (run calls s c).csrs.mcycle.extractLsb' 32 32) :
    (run calls s a).csrs.mcycle.extractLsb' 32 32 ++ (run calls s b).csrs.mcycle.extractLsb' 0 32 =
      (run calls s b).csrs.mcycle := by
  obtain ⟨e, rfl⟩ := Nat.exists_eq_add_of_le hab
  obtain ⟨d, rfl⟩ := Nat.exists_eq_add_of_le (hab.trans hbc)
  have hb : (run calls s (a + e)).csrs.mcycle.toNat = _ :=
    mcycle_add fun k hk hlt => hset k hk (by omega)
  have hd : (run calls s (a + d)).csrs.mcycle.toNat = _ := mcycle_add hset
  have hlt := (run calls s a).csrs.mcycle.isLt
  have hhigh := congrArg BitVec.toNat h
  rw [(toNat_halves _).1, (toNat_halves _).1, hd] at hhigh
  have heq := halves_eq (B := 2 ^ 32) (c := (run calls s a).csrs.mcycle.toNat) (d := d) (e := e)
    (by decide) (by omega) (by omega) (by omega) hhigh.symm
  apply BitVec.eq_of_toNat_eq
  rw [BitVec.toNat_append, (toNat_halves _).1, (toNat_halves _).2, hb,
    ← Nat.shiftLeft_add_eq_or_of_lt (Nat.mod_lt _ (by decide)), Nat.shiftLeft_eq]
  exact heq

theorem round_agrees {a c a' c' : ℕ} (hac : a ≤ c) (hca : c ≤ a') (hac' : a' ≤ c')
    (hc : c' < a + 2 ^ 32) (hset : ∀ k, a ≤ k → k < c' → ∀ cyc, calls k ≠ some (.setMcycle cyc))
    (h : (run calls s a).csrs.mcycle.extractLsb' 32 32 ≠
      (run calls s c).csrs.mcycle.extractLsb' 32 32) :
    (run calls s a').csrs.mcycle.extractLsb' 32 32 =
      (run calls s c').csrs.mcycle.extractLsb' 32 32 := by
  have hlt := (run calls s a).csrs.mcycle.isLt
  have hread : ∀ k, a ≤ k → k ≤ c' → (run calls s k).csrs.mcycle.toNat =
      ((run calls s a).csrs.mcycle.toNat + (k - a)) % (2 ^ 32 * 2 ^ 32) := by
    intro k hk hkc
    obtain ⟨d, rfl⟩ := Nat.exists_eq_add_of_le hk
    rw [mcycle_add fun j hj hlt => hset j hj (by omega), Nat.add_sub_cancel_left]
  have hne : ((run calls s a).csrs.mcycle.toNat + (c - a)) % (2 ^ 32 * 2 ^ 32) / 2 ^ 32 ≠
      (run calls s a).csrs.mcycle.toNat / 2 ^ 32 := by
    rw [← hread c hac (by omega), ← (toNat_halves _).1, ← (toNat_halves _).1]
    exact fun heq => h (BitVec.eq_of_toNat_eq heq.symm)
  have hstay : ∀ k, c ≤ k → k ≤ c' →
      ((run calls s a).csrs.mcycle.toNat + (k - a)) % (2 ^ 32 * 2 ^ 32) / 2 ^ 32 =
        ((run calls s a).csrs.mcycle.toNat + (c - a)) % (2 ^ 32 * 2 ^ 32) / 2 ^ 32 :=
    fun k hk hkc => high_eq_of_ne (by decide) (by omega) (by omega) (by omega) hne
  apply BitVec.eq_of_toNat_eq
  rw [(toNat_halves _).1, (toNat_halves _).1, hread a' (by omega) hac', hread c' (by omega) le_rfl,
    hstay a' hca hac', hstay c' (by omega) le_rfl]

theorem perfGetMcycle64_succ (st : ℕ → State) (rounds : ℕ) (t : ℕ → ℕ) :
    perfGetMcycle64 st (rounds + 1) t =
      if (st (t 0)).csrs.mcycle.extractLsb' 32 32 ≠ (st (t 2)).csrs.mcycle.extractLsb' 32 32 then
        perfGetMcycle64 st rounds fun k => t (k + 3)
      else
        some ((st (t 0)).csrs.mcycle.extractLsb' 32 32 ++
          (st (t 1)).csrs.mcycle.extractLsb' 0 32) := by
  simp only [perfGetMcycle64, read_mcycleCsr, read_mcyclehCsr, Option.bind_eq_bind,
    Option.bind_some]
  rfl

/-- **A valid value.** The six reads of two rounds, spread over less than `2 ^ 32` cycles in any
way, with no `perf_set_mcycle` among them: the loop ends with the second round at the latest, and
the value is that of `mcycle` in the cycle of the read in the middle. -/
theorem perfGetMcycle64_valid (calls : ℕ → Option PerfCall) (s : State) {t : ℕ → ℕ} (rounds : ℕ)
    (ht : Monotone t) (hlt : t 5 < t 0 + 2 ^ 32)
    (hset : ∀ k, t 0 ≤ k → k < t 5 → ∀ cyc, calls k ≠ some (.setMcycle cyc)) :
    perfGetMcycle64 (run calls s) (rounds + 2) t = some (run calls s (t 1)).csrs.mcycle ∨
      perfGetMcycle64 (run calls s) (rounds + 2) t = some (run calls s (t 4)).csrs.mcycle := by
  have hle : ∀ {a b : ℕ}, a ≤ b → t a ≤ t b := fun h => ht h
  have h01 : t 0 ≤ t 1 := hle (by decide)
  have h12 : t 1 ≤ t 2 := hle (by decide)
  have h23 : t 2 ≤ t 3 := hle (by decide)
  have h34 : t 3 ≤ t 4 := hle (by decide)
  have h45 : t 4 ≤ t 5 := hle (by decide)
  rw [perfGetMcycle64_succ]
  split_ifs with hhigh
  · right
    have hagree := round_agrees (h01.trans h12) h23 (h34.trans h45) hlt hset hhigh
    rw [perfGetMcycle64_succ, if_neg (by simpa using hagree),
      round_valid h34 h45 (by omega) (fun k hk hk' => hset k (by omega) hk') hagree]
  · left
    rw [round_valid h01 h12 (by omega) (fun k hk hk' => hset k hk (by omega)) (by simpa using hhigh)]

/-- `mcycle` as it is about to overflow into `mcycleh`. -/
def State.nearOverflow : State := ⟨⟨0x1FFFFFFFE, fun _ => 0, fun _ => 0⟩, fun _ => 0⟩

/-- The low half overflows between the first two reads, and the second round is right. -/
theorem perfGetMcycle64_valid_nearOverflow :
    perfGetMcycle64 (run (fun _ => none) State.nearOverflow) 2 (fun k => k * 2) =
        some 0x200000000 ∨
      perfGetMcycle64 (run (fun _ => none) State.nearOverflow) 2 (fun k => k * 2) =
        some 0x200000006 :=
  perfGetMcycle64_valid (fun _ => none) State.nearOverflow 0 (t := fun k => k * 2)
    (fun _ _ h => Nat.mul_le_mul_right 2 h) (by decide) fun _ _ _ _ h => by cases h

end CfuPlayground.Perf
