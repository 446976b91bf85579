import CfuPlayground.ProjTemplate.Phases
import CfuPlayground.Cfu.Host
import CfuPlayground.Lib.Lane

/-!
# The accumulator of `proj/proj_template`

* `expected`: what a response should be, over the integers: the lane products of the multiply
  commands since the last clear.
* `Inv`, `inv_tick`, `inv_run`: every response of a blocking client is the expected one.
* `serves`: the CFU answers every command, with the accumulator as its state between commands.
-/

namespace CfuPlayground.ProjTemplate

open Lib

/-! ## The lanes over the integers -/

/-- The integer product of lane `k`. -/
def laneProduct (matrixVals filterVals : Word) (k : ℕ) : ℤ :=
  ((lane matrixVals k).toInt + 128) * (lane filterVals k).toInt

/-- The four lane products of a multiply command. -/
def mac (mem : Memory) (c : Command) : ℤ :=
  ∑ k ∈ Finset.range 4,
    laneProduct (mem (wordAdr c.inputs0)) (mem (wordAdr c.inputs1)) k

/-- The response to the last of the commands `cs`: the products since the last clear. -/
def expected (mem : Memory) (cs : List Command) : Word :=
  BitVec.ofInt 32 ((cs.reverse.takeWhile fun c => c.funct7 = 0).map (mac mem)).sum

theorem prod_eq (matrixVals filterVals : Word) (k : ℕ) :
    prod matrixVals filterVals k = BitVec.ofInt 16 (laneProduct matrixVals filterVals k) :=
  lane_mac 16 (lane matrixVals k) (lane filterVals k) InputOffset

theorem toInt_prod (matrixVals filterVals : Word) (k : ℕ) :
    (prod matrixVals filterVals k).toInt = laneProduct matrixVals filterVals k := by
  obtain ⟨hlo, hhi⟩ := mac_bounds (x := lane matrixVals k) (y := lane filterVals k) (o := 128)
    (by norm_num) le_rfl
  rw [prod_eq]
  exact toInt_ofInt_of_bounds hlo hhi

theorem sumProds_eq (matrixVals filterVals : Word) :
    sumProds matrixVals filterVals =
      BitVec.ofInt 32 (∑ k ∈ Finset.range 4, laneProduct matrixVals filterVals k) := by
  simp only [sumProds, signExtend_eq_ofInt, toInt_prod, Finset.sum_range_succ,
    Finset.sum_range_zero, BitVec.ofInt_add, zero_add]

theorem expected_nil (mem : Memory) : expected mem [] = 0 := rfl

theorem expected_append (mem : Memory) (cs : List Command) (c : Command) :
    expected mem (cs ++ [c]) = respondWord mem (expected mem cs) c := by
  unfold expected respondWord
  rw [List.reverse_append, List.reverse_singleton, List.singleton_append]
  by_cases hc : c.funct7 = 0
  · rw [List.takeWhile_cons_of_pos (by simpa using hc), if_neg (by simpa using hc), List.map_cons,
      List.sum_cons, BitVec.ofInt_add, BitVec.add_comm, macWord, sumProds_eq]
    rfl
  · rw [List.takeWhile_cons_of_neg (by simpa using hc), if_pos hc]
    rfl

/-! ## Runs of a blocking client -/

/-- The accumulator in a phase that still needs it. -/
def Phase.value : Phase → Option Word
  | .ready acc | .fetchVal acc _ | .fetchFilter acc _ | .add acc _ | .responding acc => some acc
  | .clear _ => none

/-- The invariant: registers and wires are those of a phase, the accumulator and the responses
are the expected ones. -/
def Inv (mem : Memory) (s : Soc State) : Prop :=
  ∃ p, At mem p s ∧ (∀ v, p.value = some v → v = expected mem s.accepted) ∧
    ∀ i r, s.responses[i]? = some r → r = expected mem (s.accepted.take (i + 1))

variable {mem : Memory} {m : Moves} {s : Soc State}

theorem length_of_at {p : Phase} (h : At mem p s) :
    s.responses.length ≤ s.accepted.length ∧ s.accepted.length ≤ s.responses.length + 1 ∧
      (∀ c, p.accepts = some c → s.accepted.length = s.responses.length) ∧
      ((p.accepts = none ∧ p.response mem ≠ none) →
        s.accepted.length = s.responses.length + 1) := by
  cases p <;> simp only [At, Soc.Offered] at h <;> simp [Phase.accepts, Phase.response] <;> omega

/-- The value of the next phase is the accumulator after the command accepted meanwhile. -/
theorem value_next {p : Phase} (h : At mem p s) {acc v : Word}
    (hacc : ∀ v, p.value = some v → v = acc) (hv : (p.next mem m s).value = some v) :
    v = (p.accepts.map (respondWord mem acc)).getD acc := by
  cases p with
  | ready a =>
    cases ho : s.offer with
    | none =>
      simp only [Phase.next, ho, Phase.value, Option.some.injEq] at hv
      exact hv ▸ hacc a rfl
    | some c =>
      simp only [Phase.next, ho] at hv
      split_ifs at hv with hc
      · cases hv
      · cases hv
        exact hacc _ rfl
  | clear c =>
    have hc : c.funct7 ≠ 0 := h.2.2.1
    simp only [Phase.next] at hv
    split_ifs at hv <;> cases hv <;> simp only [Phase.accepts, Option.map_some, Option.getD_some,
      respondWord, if_pos hc]
  | fetchVal a c =>
    simp only [Phase.next] at hv
    split_ifs at hv <;> cases hv <;> exact hacc _ rfl
  | fetchFilter a c =>
    simp only [Phase.next] at hv
    split_ifs at hv <;> cases hv <;> exact hacc _ rfl
  | add a c =>
    have hc : ¬ c.funct7 ≠ 0 := not_not.mpr h.2.2.2.1
    have ha : a = acc := hacc a rfl
    simp only [Phase.next] at hv
    split_ifs at hv <;> cases hv <;> simp only [Phase.accepts, Option.map_some, Option.getD_some,
      respondWord, if_neg hc, ha]
  | responding r =>
    simp only [Phase.next] at hv
    split_ifs at hv <;> cases hv <;> exact hacc _ rfl

/-- What is on the response wires is the accumulator after every command accepted by then. -/
theorem response_eq {p : Phase} (h : At mem p s) {acc r : Word}
    (hacc : ∀ v, p.value = some v → v = acc) (hr : p.response mem = some r) :
    r = (p.accepts.map (respondWord mem acc)).getD acc := by
  cases p with
  | ready a | fetchVal a c | fetchFilter a c => cases hr
  | clear c =>
    have hc : c.funct7 ≠ 0 := h.2.2.1
    cases hr
    simp only [Phase.accepts, Option.map_some, Option.getD_some, respondWord, if_pos hc]
  | add a c =>
    have hc : ¬ c.funct7 ≠ 0 := not_not.mpr h.2.2.2.1
    cases hr
    simp only [Phase.accepts, Option.map_some, Option.getD_some, respondWord, if_neg hc,
      hacc a rfl]
  | responding a =>
    cases hr
    exact hacc _ rfl

theorem expected_accepts (cs : List Command) (o : Option Command) :
    (o.map (respondWord mem (expected mem cs))).getD (expected mem cs) =
      expected mem (cs ++ o.toList) := by
  cases o with
  | none => simp
  | some c => exact (expected_append mem cs c).symm

/-- **Step lemma.** -/
theorem inv_tick (h : Inv mem s) : Inv mem (s.tick cfu mem true m) := by
  obtain ⟨p, hat, hval, hrsp⟩ := h
  obtain ⟨hnext, hacc, htr⟩ := at_tick (m := m) hat
  obtain ⟨hle, hle', heq, hpend⟩ := length_of_at hat
  have haccepted : (s.tick cfu mem true m).accepted = s.accepted ++ p.accepts.toList := by
    rw [← hacc]
    rfl
  have hresponses : (s.tick cfu mem true m).responses =
      s.responses ++ (p.transfers mem m).toList := by
    rw [← htr]
    rfl
  refine ⟨p.next mem m s, hnext, ?_, ?_⟩
  · intro v hv
    rw [haccepted, ← expected_accepts]
    exact value_next hat hval hv
  · rw [haccepted, hresponses]
    refine replies_append (P := fun cs r => r = expected mem cs) hle hrsp fun r hr => ?_
    have hresp : p.response mem = some r := by
      unfold Phase.transfers at hr
      split_ifs at hr
      exact hr
    refine ⟨?_, (response_eq hat hval hresp).trans (expected_accepts _ _)⟩
    rw [List.length_append]
    cases ha : p.accepts with
    | none => simpa using (hpend ⟨ha, by simp [hresp]⟩).le
    | some c => simp [heq c ha]

/-- **Run lemma.** -/
theorem inv_run (mem : Memory) (moves : ℕ → Moves) (n : ℕ) :
    Inv mem (Soc.run cfu mem true moves (Soc.start State.start) n) := by
  refine run_invariant ?_ (fun m s hs => inv_tick hs) n
  exact ⟨.ready 0, ⟨rfl, rfl, rfl, ⟨rfl, rfl, rfl⟩, rfl⟩,
    fun v hv => (Option.some.inj hv).symm.trans (expected_nil mem).symm, by simp [Soc.start]⟩

/-! ## Every command is answered -/

variable {moves : ℕ → Moves}

theorem request_up {c : Command}
    (h : s.cfu.curState = .exec1FetchVal ∨ s.cfu.curState = .exec1FetchFilter)
    (ho : s.offer = some c) :
    (cfu.out (s.mid cfu m)).cfuRamCyc = true ∧ (cfu.out (s.mid cfu m)).cfuRamStb = true := by
  rcases h with h | h <;>
    simp [Soc.mid, Soc.wires, cfu, negedgeClk, update, State.out, h, ho]

theorem answers_responding (hf : Fair moves) {r : Word} (h : At mem (.responding r) s) :
    s.Answers cfu mem moves r (At mem (.ready r)) := by
  obtain ⟨n, hq, hn, hr⟩ := Soc.exists_ready hf h fun s m hs hr => by
    obtain ⟨hat, -, htr⟩ := tick_responding (m := m) hs
    rw [hr] at hat htr
    exact ⟨htr, hat⟩
  obtain ⟨hat, -, htr⟩ := tick_responding (m := moves n) hn
  rw [if_pos hr] at hat htr
  have hnone : (Soc.run cfu mem true moves s n).offer = none := hn.2.2.2.2.1
  exact .of_later hq (.now htr hat (Soc.offer_tick (.inl hnone) hat.2.2.2.2))

theorem answers_of_completing (hf : Fair moves) {r : Word} {c : Command}
    (hoffer : s.offer = some c) (hacc : s.accepts cfu (moves 0) = some c)
    (htr : s.transfers cfu (moves 0) = if (moves 0).rspReady then some r else none)
    (hat : At mem (if (moves 0).rspReady then .ready r else .responding r)
      (s.tick cfu mem true (moves 0))) :
    s.Answers cfu mem moves r (At mem (.ready r)) := by
  by_cases hr : (moves 0).rspReady = true
  · rw [if_pos hr] at htr hat
    exact .now htr hat (Soc.offer_tick (.inr (hacc.trans hoffer.symm)) hat.2.2.2.2)
  · rw [if_neg hr] at htr hat
    exact .next htr (answers_responding (hf.shift 1) hat)

theorem answers_add (hf : Fair moves) {a : Word} {c : Command} (h : At mem (.add a c) s) :
    s.Answers cfu mem moves (a + macWord mem c) (At mem (.ready (a + macWord mem c))) := by
  obtain ⟨hat, hacc, htr⟩ := tick_add (m := moves 0) h
  exact answers_of_completing hf h.2.2.2.2.1.1 hacc htr hat

theorem answers_fetchFilter (hf : Fair moves) {a : Word} {c : Command}
    (h : At mem (.fetchFilter a c) s) :
    s.Answers cfu mem moves (a + macWord mem c) (At mem (.ready (a + macWord mem c))) := by
  obtain ⟨n, hq, hn, hack⟩ := Soc.exists_ack hf h fun s m hs hack => by
    obtain ⟨hat, -, htr⟩ := tick_fetchFilter (m := m) hs
    rw [hack] at hat
    have hreq := request_up (m := m) (.inr hs.1) hs.2.2.2.2.1.1
    exact ⟨htr, hat, hreq⟩
  obtain ⟨hat, -, htr⟩ := tick_fetchFilter (m := moves n) hn
  rw [if_pos hack] at hat
  exact .of_later hq (.next htr (answers_add ((hf.shift n).shift 1) hat))

theorem answers_fetchVal (hf : Fair moves) {a : Word} {c : Command}
    (h : At mem (.fetchVal a c) s) :
    s.Answers cfu mem moves (a + macWord mem c) (At mem (.ready (a + macWord mem c))) := by
  obtain ⟨n, hq, hn, hack⟩ := Soc.exists_ack hf h fun s m hs hack => by
    obtain ⟨hat, -, htr⟩ := tick_fetchVal (m := m) hs
    rw [hack] at hat
    have hreq := request_up (m := m) (.inl hs.1) hs.2.2.2.2.1.1
    exact ⟨htr, hat, hreq⟩
  obtain ⟨hat, -, htr⟩ := tick_fetchVal (m := moves n) hn
  rw [if_pos hack] at hat
  exact .of_later hq (.next htr (answers_fetchFilter ((hf.shift n).shift 1) hat))

/-- **The CFU serves its commands**, with the accumulator as its state. -/
theorem serves (mem : Memory) : Serves cfu mem (fun acc => At mem (.ready acc))
    fun acc c => some (respondWord mem acc c, respondWord mem acc c) where
  stay := by
    intro a s h ho m
    obtain ⟨hat, -, htr⟩ := tick_ready_none (m := m) h ho
    exact ⟨htr, hat, Soc.offer_tick (.inl ho) hat.2.2.2.2⟩
  answer := by
    intro a s c r a' h ho hr moves hf
    cases hr
    obtain ⟨hat, -, htr⟩ := tick_ready_some (m := moves 0) h ho
    refine .next htr ?_
    unfold respondWord
    split_ifs at hat ⊢ with hc
    · obtain ⟨hat', hacc, htr'⟩ := tick_clear (m := moves 1) hat
      exact answers_of_completing (hf.shift 1) hat.2.2.2.2.1 hacc htr' hat'
    · exact answers_fetchVal (hf.shift 1) hat
  hang := by
    intro a s c _ _ hr
    cases hr

/-- In every phase, the command on the wires or not yet answered will be answered. -/
theorem exists_answer (hf : Fair moves) {p : Phase} (h : At mem p s) :
    (s.offer = none ∧ s.accepted.length = s.responses.length) ∨
      s.accepted.length + s.offer.toList.length = s.responses.length + 1 ∧
        ∃ r P, s.Answers cfu mem moves r P := by
  cases p with
  | ready a =>
    cases ho : s.offer with
    | none => exact .inl ⟨rfl, h.2.2.2.2⟩
    | some c => exact .inr ⟨by simp [h.2.2.2.2], _, _, (serves mem).answer h ho rfl moves hf⟩
  | clear c =>
    obtain ⟨hat, hacc, htr⟩ := tick_clear (m := moves 0) h
    obtain ⟨ho, hlen⟩ := h.2.2.2.2
    exact .inr ⟨by simp [ho, hlen], _, _, answers_of_completing hf ho hacc htr hat⟩
  | fetchVal a c =>
    obtain ⟨ho, hlen⟩ := h.2.2.2.2.1
    exact .inr ⟨by simp [ho, hlen], _, _, answers_fetchVal hf h⟩
  | fetchFilter a c =>
    obtain ⟨ho, hlen⟩ := h.2.2.2.2.1
    exact .inr ⟨by simp [ho, hlen], _, _, answers_fetchFilter hf h⟩
  | add a c =>
    obtain ⟨ho, hlen⟩ := h.2.2.2.2.1
    exact .inr ⟨by simp [ho, hlen], _, _, answers_add hf h⟩
  | responding r =>
    obtain ⟨ho, hlen⟩ := h.2.2.2.2
    exact .inr ⟨by simp [ho, hlen], _, _, answers_responding hf h⟩

/-- **The accumulator.** In every run of a blocking client from reset, with any memory, any
delays of client and slave and any idle wires: the responses are those `expected` of the
commands accepted, in order, and at most one is outstanding; no lane product is cut by its
16-bit wire; and with a fair environment every command issued is answered. -/
theorem accumulator_correct (mem : Memory) (moves : ℕ → Moves) :
    let soc := Soc.run cfu mem true moves (Soc.start State.start)
    (∀ n, (soc n).responses =
      (List.range (soc n).responses.length).map fun i =>
        expected mem ((soc n).accepted.take (i + 1))) ∧
    (∀ n, (soc n).responses.length ≤ (soc n).accepted.length ∧
      (soc n).accepted.length ≤ (soc n).responses.length + 1) ∧
    (∀ matrixVals filterVals k,
      (prod matrixVals filterVals k).toInt = laneProduct matrixVals filterVals k) ∧
    (Fair moves → ∀ n, ∃ m, n ≤ m ∧
      (soc n).accepted.length + (soc n).offer.toList.length ≤ (soc m).responses.length) := by
  intro soc
  refine ⟨fun n => ?_, fun n => ?_, toInt_prod, fun hf n => ?_⟩
  · obtain ⟨p, -, -, hrsp⟩ := inv_run mem moves n
    apply List.ext_getElem?
    intro i
    rcases Nat.lt_or_ge i (soc n).responses.length with hlt | hge
    · have hi := List.getElem?_eq_getElem hlt
      rw [hi, List.getElem?_map, List.getElem?_range hlt]
      exact congrArg some (hrsp i _ hi)
    · rw [List.getElem?_eq_none hge, List.getElem?_eq_none (by simpa using hge)]
  · obtain ⟨p, hat, -⟩ := inv_run mem moves n
    obtain ⟨hle, hle', -⟩ := length_of_at hat
    exact ⟨hle, hle'⟩
  · obtain ⟨p, hat, -⟩ := inv_run mem moves n
    rcases exists_answer (hf.shift n) hat with ⟨ho, hlen⟩ | ⟨hlen, r, P, hans⟩
    · exact ⟨n, le_rfl, by simp [soc, ho, hlen]⟩
    · obtain ⟨m, hm, hlt⟩ := hans.length_lt
      exact ⟨m, hm, hlen.le.trans hlt⟩

end CfuPlayground.ProjTemplate
