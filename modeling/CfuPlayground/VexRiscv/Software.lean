import CfuPlayground.VexRiscv.Executes
import CfuPlayground.Lib.Path
import CfuPlayground.Cfu.Host

/-!
# A program on the CPU

The inline assembly of `cfu.h` puts the calls of a program into CFU instructions, and their
results into registers. `Runs` says that the commands the CPU offers are the calls of a program
whose earlier calls returned what has retired; how the CPU computes the operands is not looked
at.

* `Runs.came`: along the results, the program comes to its calls and keeps its value.
* `Runs.computes`: it ends with its evaluation against the CFU, if what is offered leaves
  `execute`.
* **`System.computes`**: with a prompt CFU it does, if the RAM acknowledges and the pipeline is let
  go again and again.
-/

namespace CfuPlayground.VexRiscv

open Lib

/-- The results in the order in which they come to the registers. -/
def Cpu.results (ins : ℕ → Inputs) (s : Cpu) (n : ℕ) : List Word :=
  (Cpu.retired ins s n).map Prod.snd

/-- The CPU runs `p`: what it offers to the CFU is what `p` calls. -/
structure Runs {α : Type} (p : Program α) (ins : ℕ → Inputs) (s : Cpu) : Prop where
  /-- The command offered behind `k` CFU instructions is the next call after `k` results. -/
  call : ∀ n m d, (Cpu.run ins s n).offer = some d →
    (Cpu.issued ins s n).length ≤ (Cpu.results ins s m).length →
    (p.follow ((Cpu.results ins s m).take (Cpu.issued ins s n).length)).2.pending = some d
  /-- As long as the program has come to a call, the CPU comes to offer it. -/
  goes_on : ∀ n, (p.follow (Cpu.results ins s n)).2.pending.isSome = true →
    ∃ m, (Cpu.results ins s n).length ≤ (Cpu.issued ins s m).length ∧
      (Cpu.run ins s m).offer.isSome = true

section Runs

variable {α A : Type} {result : List Command → Option Word} {ins : ℕ → Inputs} {s : Cpu}
  {p : Program α}

theorem Cpu.results_mono {m n : ℕ} (h : m ≤ n) : results ins s m <+: results ins s n :=
  (log_mono _ h).map _

theorem Cpu.issued_mono {m n : ℕ} (h : m ≤ n) : issued ins s m <+: issued ins s n :=
  log_mono _ h

/-! ## Offered and issued -/

/-- A command that has been taken was offered before, and no instruction has left since. -/
theorem Cpu.offer_of_fired (hs : ∀ n, (run ins s n).Sound) (h0 : s.fired = false) {n : ℕ}
    (hf : (run ins s n).fired = true) : ∃ m,
      (run ins s m).offer = some (run ins s n).cmdPayload ∧ issued ins s m = issued ins s n := by
  induction n with
  | zero => exact absurd (h0.symm.trans hf) (by decide)
  | succ n ih =>
    have hnext : (run ins s n).nextFired (ins n) = true := hf
    have hstuck : (run ins s n).executeIsStuck (ins n) = true := by
      by_contra hst
      simp [nextFired, hst] at hnext
    have hissued : issued ins s (n + 1) = issued ins s n := by
      rw [issued, log_succ, (hs n).issue, hstuck]
      simp [issued]
    have hpayload : (run ins s (n + 1)).cmdPayload = (run ins s n).cmdPayload := by
      rw [run_succ]
      simp [step, cmdPayload, hstuck]
    rw [hpayload, hissued]
    by_cases hfire : (run ins s n).cmdFire (ins n) = true
    · refine ⟨n, ?_, rfl⟩
      rw [offer, if_pos (Bool.and_eq_true_iff.mp hfire).1]
    · refine ih ?_
      simpa [nextFired, hstuck, hfire] using hnext

theorem Cpu.offer_of_issue (hs : ∀ n, (run ins s n).Sound) (h0 : s.fired = false) {n : ℕ}
    {o : CfuOp} (ho : (run ins s n).issue (ins n) = some o) :
    ∃ m, (run ins s m).offer = some o.command ∧ issued ins s m = issued ins s n := by
  rw [(hs n).issue] at ho
  split_ifs at ho with hsch
  cases ho
  cases hf : (run ins s n).fired with
  | true => exact offer_of_fired hs h0 hf
  | false =>
    refine ⟨n, ?_, rfl⟩
    rw [offer, if_pos (by simp [cmdValid, (Bool.and_eq_true_iff.mp hsch).1, hf])]
    rfl

theorem Cpu.offer_of_issued (hs : ∀ n, (run ins s n).Sound) (h0 : s.fired = false) {n k : ℕ}
    {o : CfuOp} (ho : (issued ins s n)[k]? = some o) :
    ∃ m, (run ins s m).offer = some o.command ∧ (issued ins s m).length = k := by
  obtain ⟨j, -, hj, hk⟩ := exists_of_log ho
  obtain ⟨m, hm, heq⟩ := offer_of_issue hs h0 hj
  exact ⟨m, hm, by rw [heq]; exact hk⟩

/-! ## The program along the results -/

theorem Executes.length_issued_le (h : Executes result ins s) (n : ℕ) :
    (Cpu.issued ins s n).length ≤ (Cpu.results ins s (n + 2)).length := by
  induction n with
  | zero => exact Nat.zero_le _
  | succ n ih =>
    have hlat := h.latency n
    rw [Cpu.results, List.length_map] at ih ⊢
    rw [Cpu.issued, log_succ, Cpu.retired, log_succ, List.length_append, List.length_append]
    rw [Cpu.issued, Cpu.retired] at ih
    cases hi : (Cpu.run ins s n).issue (ins n) with
    | none => exact Nat.add_le_add ih (Nat.zero_le _)
    | some o =>
      obtain ⟨r, hr⟩ := hlat o hi
      rw [hr]
      exact Nat.add_le_add ih le_rfl

theorem Executes.length_results_le (h : Executes result ins s) (n : ℕ) :
    (Cpu.results ins s n).length ≤ (Cpu.issued ins s n).length := by
  have hlen := congrArg List.length (h.faithful n).instructions
  simp only [List.length_append, List.length_map] at hlen
  rw [Cpu.results, List.length_map]
  omega

/-- At `n` the program has come to `q` and the CFU to `a`, by the first `k` CFU instructions. -/
structure CameTo (state : List Command → Option A) (p : Program α) (ins : ℕ → Inputs) (s : Cpu)
    (n k : ℕ) (q : Program α) (a : A) : Prop where
  le : k ≤ (Cpu.results ins s n).length
  follow : (p.follow ((Cpu.results ins s n).take k)).2 = q
  state : state (((Cpu.issued ins s n).take k).map CfuOp.command) = some a

theorem take_of_isPrefix {β : Type} {l l' : List β} {k : ℕ} (h : l <+: l') (hk : k ≤ l.length) :
    l'.take k = l.take k := by
  obtain ⟨t, rfl⟩ := h
  exact List.take_append_of_le_length hk

/-- What a program on the CPU rests on: the CFU instructions are executed and offered before, and
`respond` is what the CFU computes. -/
structure Hosted (result : List Command → Option Word) (state : List Command → Option A)
    (respond : A → Command → Option (Word × A)) (ins : ℕ → Inputs) (s : Cpu) : Prop where
  executes : Executes result ins s
  sound : ∀ n, (Cpu.run ins s n).Sound
  fired : s.fired = false
  respond : ∀ cs a c r a', state cs = some a → respond a c = some (r, a') →
    result (cs ++ [c]) = some r ∧ state (cs ++ [c]) = some a'

variable {state : List Command → Option A} {respond : A → Command → Option (Word × A)}
  {n k : ℕ} {q : Program α} {a a' : A} {x : α}

/-- **Step lemma.** The next result takes the program over its call. -/
theorem CameTo.succ (hR : Runs p ins s) (hH : Hosted result state respond ins s)
    (h : CameTo state p ins s n k q a) (he : q.eval respond a = some (x, a'))
    (hlt : k < (Cpu.results ins s n).length) :
    ∃ c next r a₁, q = .call c next ∧ CameTo state p ins s n (k + 1) (next r) a₁ ∧
      (next r).eval respond a₁ = some (x, a') := by
  obtain ⟨w, hget⟩ : ∃ w, (Cpu.retired ins s n)[k]? = some w := by
    rw [Cpu.results, List.length_map] at hlt
    exact ⟨_, List.getElem?_eq_getElem hlt⟩
  obtain ⟨o, ho, -, hres⟩ := hH.executes.results n k w hget
  -- the instruction is that of the call
  obtain ⟨m, hm, hlen⟩ := Cpu.offer_of_issued hH.sound hH.fired ho
  have hcall := hR.call m n _ hm (hlen.trans_le h.le)
  rw [hlen, h.follow] at hcall
  obtain ⟨next, r, a₁, rfl, hr, he⟩ := Client.exists_call hcall he
  obtain ⟨hword, hstate⟩ := hH.respond _ _ _ _ _ h.state hr
  have hcmds : ((Cpu.issued ins s n).take (k + 1)).map CfuOp.command =
      ((Cpu.issued ins s n).take k).map CfuOp.command ++ [o.command] := by
    rw [List.take_add_one, ho, Option.toList_some, List.map_append]
    rfl
  rw [hcmds, hword] at hres
  refine ⟨o.command, next, r, a₁, rfl, ⟨hlt, ?_, by rwa [hcmds]⟩, he⟩
  have hresult : (Cpu.results ins s n)[k]? = some r := by
    rw [Cpu.results, List.getElem?_map, hget, Option.map_some, ← hres]
  rw [List.take_add_one, hresult, Option.toList_some, Client.follow_append, h.follow]
  simp [Client.follow]

/-- **Run lemma.** After every result the program has come to a rest with the same value. -/
theorem Runs.came (hR : Runs p ins s) (hH : Hosted result state respond ins s)
    (h0 : state [] = some a) (he : p.eval respond a = some (x, a'))
    (hk : k ≤ (Cpu.results ins s n).length) :
    ∃ q a₁, CameTo state p ins s n k q a₁ ∧ q.eval respond a₁ = some (x, a') := by
  induction k with
  | zero => exact ⟨p, a, ⟨Nat.zero_le _, by simp, h0⟩, he⟩
  | succ k ih =>
    obtain ⟨q, a₁, hq, heq⟩ := ih (by omega)
    obtain ⟨c, next, r, a₂, -, hnext, henext⟩ := hq.succ hR hH heq (by omega)
    exact ⟨next r, a₂, hnext, henext⟩

theorem Runs.responds (hR : Runs p ins s) (hH : Hosted result state respond ins s)
    (h0 : state [] = some a) (he : p.eval respond a = some (x, a')) {d : Command} {a₁ : A}
    (ho : (Cpu.run ins s n).offer = some d)
    (ha : state ((Cpu.issued ins s n).map CfuOp.command) = some a₁) :
    (respond a₁ d).isSome = true := by
  have hlen := hH.executes.length_issued_le n
  obtain ⟨q, a₂, hq, heq⟩ := hR.came hH h0 he hlen
  have hcall := hR.call n (n + 2) d ho hlen
  rw [hq.follow] at hcall
  obtain ⟨next, r, a₃, -, hr, -⟩ := Client.exists_call hcall heq
  have hstate := hq.state
  rw [take_of_isPrefix (Cpu.issued_mono (by omega : n ≤ n + 2)) le_rfl,
    List.take_length, ha] at hstate
  cases hstate
  rw [hr]
  rfl

theorem CameTo.later (hE : Executes result ins s) {m : ℕ} (h : CameTo state p ins s n k q a)
    (hnm : n ≤ m) : CameTo state p ins s m k q a where
  le := h.le.trans (Cpu.results_mono hnm).length_le
  follow := by
    rw [take_of_isPrefix (Cpu.results_mono hnm) h.le]
    exact h.follow
  state := by
    rw [take_of_isPrefix (Cpu.issued_mono hnm) (h.le.trans (hE.length_results_le n))]
    exact h.state

/-- A program that has come to a call gets a result for it, if what is offered leaves `execute`. -/
theorem CameTo.exists_result (hR : Runs p ins s) (hE : Executes result ins s)
    (hleaves : ∀ n, (Cpu.run ins s n).offer.isSome = true →
      ∃ m, n ≤ m ∧ ((Cpu.run ins s m).issue (ins m)).isSome = true)
    (h : CameTo state p ins s n k q a) (hq : q.pending.isSome = true) :
    ∃ m, CameTo state p ins s m k q a ∧ k < (Cpu.results ins s m).length := by
  rcases Nat.lt_or_ge k (Cpu.results ins s n).length with hlt | hge
  · exact ⟨n, h, hlt⟩
  have hall : (p.follow (Cpu.results ins s n)).2 = q := by
    have hf := h.follow
    rwa [List.take_of_length_le hge] at hf
  rw [← hall] at hq
  obtain ⟨j, hj, hoffer⟩ := hR.goes_on n hq
  obtain ⟨m, hjm, hissue⟩ := hleaves j hoffer
  have hlonger : (Cpu.issued ins s (m + 1)).length = (Cpu.issued ins s m).length + 1 := by
    obtain ⟨o, ho⟩ := Option.isSome_iff_exists.mp hissue
    rw [Cpu.issued, log_succ, ho, List.length_append]
    rfl
  have hmono : (Cpu.issued ins s j).length ≤ (Cpu.issued ins s m).length :=
    (Cpu.issued_mono hjm).length_le
  have hle := h.le
  have hlen : (Cpu.issued ins s (m + 1)).length ≤ (Cpu.results ins s (m + 3)).length :=
    hE.length_issued_le (m + 1)
  have hmore : (Cpu.results ins s (m + 3)).length ≤
      (Cpu.results ins s (max n (m + 3))).length :=
    (Cpu.results_mono (le_max_right _ _)).length_le
  exact ⟨max n (m + 3), h.later hE (le_max_left _ _), by omega⟩

/-- **A program on the CPU** ends with its evaluation. -/
theorem Runs.computes (hR : Runs p ins s) (hH : Hosted result state respond ins s)
    (hleaves : ∀ n, (Cpu.run ins s n).offer.isSome = true →
      ∃ m, n ≤ m ∧ ((Cpu.run ins s m).issue (ins m)).isSome = true)
    (h0 : state [] = some a) (he : p.eval respond a = some (x, a')) :
    ∃ n, ∀ m, n ≤ m → (p.follow (Cpu.results ins s m)).2 = .done x := by
  have hends : ∀ (q : Program α) (n k : ℕ) (a : A), CameTo state p ins s n k q a →
      q.eval respond a = some (x, a') →
      ∃ m k, k ≤ (Cpu.results ins s m).length ∧
        (p.follow ((Cpu.results ins s m).take k)).2 = .done x := by
    intro q
    induction q with
    | done y =>
      intro n k a h he
      cases he
      exact ⟨n, k, h.le, h.follow⟩
    | abort =>
      intro n k a h he
      cases he
    | call c next ih =>
      intro n k a h he
      obtain ⟨m, hm, hlt⟩ := h.exists_result hR hH.executes hleaves rfl
      obtain ⟨c', next', r, a₁, hq, hnext, henext⟩ := hm.succ hR hH he hlt
      cases hq
      exact ih r m (k + 1) a₁ hnext henext
  obtain ⟨n, k, hk, hdone⟩ := hends p 0 0 a ⟨Nat.zero_le _, by simp, h0⟩ he
  refine ⟨n, fun m hm => ?_⟩
  rw [← List.take_append_drop k (Cpu.results ins s m), Client.follow_append,
    take_of_isPrefix (Cpu.results_mono hm) hk, hdone, Client.follow_done]

theorem Cpu.executeInstruction_run {P : Word → Prop} {N : ℕ}
    (h0 : P (Cpu.run ins s N).executeInstruction) (h : ∀ n, N ≤ n → P (ins n).instruction) {n : ℕ}
    (hn : N ≤ n) : P (Cpu.run ins s n).executeInstruction := by
  induction n, hn using Nat.le_induction with
  | base => exact h0
  | succ n hn ih =>
    show P (if (Cpu.run ins s n).executeIsStuck (ins n) then
      (Cpu.run ins s n).executeInstruction else (ins n).instruction)
    split_ifs
    · exact ih
    · exact h n hn

theorem System.wires_instruction {σ : Type} {G : Gateware σ} {mem : Memory} {env : ℕ → Env}
    {x : System σ} (n : ℕ) :
    (System.wires G mem env x n).instruction = (env n).inputs.instruction := rfl

theorem Runs.of_quiet (hE : Executes result ins s) (hs : ∀ n, (Cpu.run ins s n).Sound)
    (h0 : s.fired = false) {N : ℕ} (hquiet : ∀ n, N ≤ n → (Cpu.run ins s n).offer = none)
    (hlen : (Cpu.issued ins s N).length = (Cpu.results ins s N).length)
    (hcall : ∀ n < N, ∀ d, (Cpu.run ins s n).offer = some d →
      (p.follow ((Cpu.results ins s N).take (Cpu.issued ins s n).length)).2.pending = some d)
    (hend : (p.follow (Cpu.results ins s N)).2.pending = none) : Runs p ins s := by
  have hissued : ∀ n, (Cpu.issued ins s n).length ≤ (Cpu.issued ins s N).length := by
    intro n
    by_contra hgt
    -- the first instruction beyond those would have been offered by then
    obtain ⟨m, hm, hk⟩ := Cpu.offer_of_issued hs h0
      (List.getElem?_eq_getElem (lt_of_not_ge hgt))
    rcases Nat.lt_or_ge m N with hmN | hmN
    · have hp := hcall m hmN _ hm
      rw [hk, List.take_of_length_le hlen.ge, hend] at hp
      cases hp
    · rw [hquiet m hmN] at hm
      cases hm
  have hresults : ∀ n, Cpu.results ins s n <+: Cpu.results ins s N := by
    intro n
    have hle := (hE.length_results_le n).trans (hissued n)
    rw [hlen] at hle
    exact List.prefix_of_prefix_length_le (Cpu.results_mono (le_max_left n N))
      (Cpu.results_mono (le_max_right n N)) hle
  constructor
  · intro n m d hd hk
    rw [← take_of_isPrefix (hresults m) hk]
    rcases Nat.lt_or_ge n N with hn | hn
    · exact hcall n hn d hd
    · rw [hquiet n hn] at hd
      cases hd
  · intro n hp
    have hlt : (Cpu.results ins s n).length < (Cpu.issued ins s N).length := by
      by_contra hge
      have heq : Cpu.results ins s n = Cpu.results ins s N :=
        (hresults n).eq_of_length_le (by omega)
      rw [heq, hend] at hp
      cases hp
    obtain ⟨m, hm, hk⟩ := Cpu.offer_of_issued hs h0 (List.getElem?_eq_getElem hlt)
    exact ⟨m, hk.ge, by rw [hm]; rfl⟩

end Runs

section Prompt

variable {σ A α : Type} {G : Gateware σ} {mem : Memory} {env : ℕ → Env}
  {result : List Command → Option Word} {busy : σ → Bool} {J : Soc σ → Prop}
  {Good : Moves → Soc σ → Prop} {Known : Command → Prop} {c : σ} {cpu : Cpu}
  {Ready : A → Soc σ → Prop} {respond : A → Command → Option (Word × A)}
  {state : List Command → Option A} {p : Program α} {x : α} {a a' : A}

theorem System.sound_run (hP : Prompt G mem result busy J Good Known) (hreset : cpu.AtReset)
    (hJ : J (Soc.start c)) (hv : (G.out c).rspValid = false) (hb : busy c = false)
    (hk : ∀ n d, (run G mem env (start c cpu) n).cpu.offer = some d → Known d) (n : ℕ) :
    (Cpu.run (wires G mem env (start c cpu)) cpu n).Sound := by
  have hsound := (coupled_run hP hreset hJ hv hb hk n).sound
  rwa [run_cpu] at hsound

theorem System.offer_eq_none (hP : Prompt G mem result busy J Good Known) (hreset : cpu.AtReset)
    (hJ : J (Soc.start c)) (hv : (G.out c).rspValid = false) (hb : busy c = false)
    (hk : ∀ n d, (run G mem env (start c cpu) n).cpu.offer = some d → Known d) {n : ℕ}
    (h : cfuEnable (Cpu.run (wires G mem env (start c cpu)) cpu n).executeInstruction = false) :
    (Cpu.run (wires G mem env (start c cpu)) cpu n).offer = none := by
  have hhold : (Cpu.run (wires G mem env (start c cpu)) cpu n).hold = true →
      (Cpu.run (wires G mem env (start c cpu)) cpu n).scheduleWish = true := by
    have h := (coupled_run (n := n) hP hreset hJ hv hb hk).hold
    rwa [run_cpu] at h
  have hwish : (Cpu.run (wires G mem env (start c cpu)) cpu n).scheduleWish = false := by
    rw [Cpu.scheduleWish, h, Bool.and_false]
  have hno : (Cpu.run (wires G mem env (start c cpu)) cpu n).hold = false := by
    by_contra hh
    exact Bool.false_ne_true (hwish.symm.trans (hhold (by simpa using hh)))
  simp [Cpu.offer, Cpu.cmdValid, Cpu.schedule, hwish, hno]

variable (state) in
/-- **The rule for a program on a prompt CFU.** If the RAM acknowledges, and the caches and the
divider let go, again and again, a program that the CPU runs ends with its evaluation. -/
theorem System.computes (hP : Prompt G mem result busy J Good Known) (hreset : cpu.AtReset)
    (hJ : J (Soc.start c)) (hv : (G.out c).rspValid = false) (hb : busy c = false)
    (hk : ∀ n d, (run G mem env (start c cpu) n).cpu.offer = some d → Known d)
    (hS : Serves G mem Ready respond) (hready : Ready a (Soc.start c))
    (hstate : ∀ s a, J s → Ready a s → state s.accepted = some a)
    (hrespond : ∀ cs a d r a', state cs = some a → respond a d = some (r, a') →
      result (cs ++ [d]) = some r ∧ state (cs ++ [d]) = some a')
    (hR : Runs p (wires G mem env (start c cpu)) cpu)
    (hacks : Infinitely fun n => (env n).slave.isAck = true)
    (hfree : Infinitely fun n => (run G mem env (start c cpu) n).cpu.heldUp
      (wires G mem env (start c cpu) n) = false)
    (he : p.eval respond a = some (x, a')) :
    ∃ n, ∀ m, n ≤ m →
      (p.follow (Cpu.results (wires G mem env (start c cpu)) cpu m)).2 = .done x := by
  have hH : Hosted result state respond (wires G mem env (start c cpu)) cpu :=
    ⟨executes hP hreset hJ hv hb hk, sound_run hP hreset hJ hv hb hk, hreset.fired, hrespond⟩
  have h0 : state [] = some a := hstate _ _ hJ hready
  have hresp : ∀ m a d, Ready a (run G mem env (start c cpu) m).soc →
      (run G mem env (start c cpu) m).cpu.offer = some d → (respond a d).isSome = true := by
    intro m a₁ d ha ho
    have hacc := hstate _ _ (coupled_run hP hreset hJ hv hb hk m).inv ha
    rw [(channels hreset m).1, (hH.executes.faithful m).commands] at hacc
    have hd : (Cpu.run (wires G mem env (start c cpu)) cpu m).offer = some d := by
      rwa [run_cpu] at ho
    have hnone : (Cpu.run (wires G mem env (start c cpu)) cpu m).inExecute = [] := by
      have hvalid := Cpu.cmdValid_of_offer hd
      simp only [Cpu.cmdValid, Bool.and_eq_true, Bool.not_eq_true'] at hvalid
      simp [Cpu.inExecute, hvalid.2]
    rw [hnone, List.append_nil] at hacc
    exact hR.responds hH h0 he hd hacc
  refine hR.computes hH (fun n hn => ?_) h0 he
  obtain ⟨d, hd⟩ := Option.isSome_iff_exists.mp hn
  have ho : (run G mem env (start c cpu) n).cpu.offer = some d := by
    rw [run_cpu]
    exact hd
  obtain ⟨m, hm, hissue⟩ :=
    leaves hP hreset hJ hv hb hk hS ⟨a, hready⟩ hresp hacks hfree ho
  rw [run_cpu] at hissue
  exact ⟨m, hm, hissue⟩

end Prompt

end CfuPlayground.VexRiscv
