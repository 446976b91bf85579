import CfuPlayground.VexRiscv.System
import CfuPlayground.ProjTemplate.Overlap
import CfuPlayground.FilterPreload.Overlap

/-!
# The CPU with the two CFUs

`System.executes` is the rule for a prompt CFU: what retires is what the CFU computes from the
commands before it. Both CFUs of the projects are prompt (`ProjTemplate.prompt`,
`FilterPreload.prompt`), whatever the caches, the divider, interrupts and exceptions do to the
pipeline. `System.taken` and `System.leaves` are progress: a command on the bus is taken and its
instruction leaves `execute`, if the RAM acknowledges again and again, the CFU has an answer to
every command, and the caches and the divider let go again and again.
-/

namespace CfuPlayground.VexRiscv

open Lib

/-- The CFU instructions of a run retire with the results due to them. -/
structure Executes (result : List Command → Option Word) (ins : ℕ → Inputs) (s : Cpu) : Prop where
  faithful : ∀ n, Cpu.Faithful ins s n
  /-- The `k`-th instruction to retire is the `k`-th that has left `execute`, with the result due
  to the commands of the instructions up to it. -/
  results : ∀ n k w, (Cpu.retired ins s n)[k]? = some w →
    ∃ o, (Cpu.issued ins s n)[k]? = some o ∧ o.instruction = w.1 ∧
      result (((Cpu.issued ins s n).take (k + 1)).map CfuOp.command) = some w.2
  /-- It retires two cycles after it has left `execute`. -/
  latency : ∀ n o, (Cpu.run ins s n).issue (ins n) = some o →
    ∃ r, (Cpu.run ins s (n + 2)).retire (ins (n + 2)) = some (o.instruction, r)

theorem Cpu.issued_of_retired {ins : ℕ → Inputs} {s : Cpu} {n k : ℕ} {w : Word × Word}
    (h : Faithful ins s n) (hk : (retired ins s n)[k]? = some w) :
    (∃ o, (issued ins s n)[k]? = some o ∧ o.instruction = w.1) ∧
      (replies ins s n)[k]? = some w.2 ∧
      (commands ins s n).take (k + 1) = ((issued ins s n).take (k + 1)).map CfuOp.command := by
  have hlt := (List.getElem?_eq_some_iff.mp hk).1
  have hinst : ((issued ins s n).map CfuOp.instruction)[k]? = some w.1 := by
    rw [h.instructions, List.append_assoc, List.getElem?_append_left (by simpa using hlt),
      List.getElem?_map, hk]
    rfl
  rw [List.getElem?_map] at hinst
  obtain ⟨o, ho, hw⟩ := Option.map_eq_some_iff.mp hinst
  refine ⟨⟨o, ho, hw⟩, ?_, ?_⟩
  · rw [h.replies, List.append_assoc, List.getElem?_append_left (by simpa using hlt),
      List.getElem?_map, hk]
    rfl
  · have hlen := (List.getElem?_eq_some_iff.mp ho).1
    rw [h.commands, List.take_append_of_le_length (by simpa using hlen), List.map_take]

namespace System

variable {σ : Type} {G : Gateware σ} {mem : Memory} {env : ℕ → Env}
  {result : List Command → Option Word} {busy : σ → Bool} {J : Soc σ → Prop}
  {Good : Moves → Soc σ → Prop} {Known : Command → Prop} {c : σ} {cpu : Cpu}

section Run

variable (hP : Prompt G mem result busy J Good Known) (hreset : cpu.AtReset)
  (hJ : J (Soc.start c)) (hv : (G.out c).rspValid = false) (hb : busy c = false)
  (hk : ∀ n d, (run G mem env (start c cpu) n).cpu.offer = some d → Known d)

include hP hreset hJ hv hb hk

theorem coupled_run (n : ℕ) : Coupled G busy J (run G mem env (start c cpu) n) :=
  run_invariant_of (coupled_start hreset hJ hv hb) (fun n h => h.tick hP (hk (n + 1))) n

theorem good_run (n : ℕ) :
    Good (socMoves G mem env (start c cpu) n) (run G mem env (start c cpu) n).soc :=
  (coupled_run hP hreset hJ hv hb hk n).good hP (hk (n + 1))

theorem balanced_run (n : ℕ) : Balanced G result busy (run G mem env (start c cpu) n).soc := by
  rw [run_soc]
  refine (hP.pipelined.balanced_run hJ (balanced_start hb hv) (fun n => ?_) n).2
  have hgood := good_run hP hreset hJ hv hb hk n
  rw [run_soc] at hgood
  exact hgood

theorem faithful (n : ℕ) : Cpu.Faithful (wires G mem env (start c cpu)) cpu n := by
  refine Cpu.faithful_of_not_stale hreset (fun n => ?_) n
  have hstale := (coupled_run hP hreset hJ hv hb hk n).not_staleTaken (e := env n)
  rw [run_cpu] at hstale
  exact hstale

/-- What leaves `execute` is in `memory` after the cycle, and in `writeBack` after the next. -/
theorem retire_of_issue {n : ℕ} {o : CfuOp}
    (ho : (run G mem env (start c cpu) n).cpu.issue (wires G mem env (start c cpu) n) = some o) :
    ∃ r, (run G mem env (start c cpu) (n + 2)).cpu.retire
      (wires G mem env (start c cpu) (n + 2)) = some (o.instruction, r) := by
  have hn := coupled_run hP hreset hJ hv hb hk n
  have hn1 := coupled_run hP hreset hJ hv hb hk (n + 1)
  obtain ⟨hmem, hinst⟩ := hn.sound.memory_of_issue hn.not_staleTaken ho
  have hmem1 : (run G mem env (start c cpu) (n + 1)).cpu.memoryCfuInFlight = true := hmem
  have hrv : (run G mem env (start c cpu) (n + 1)).cpu.memoryRspValid
      (wires G mem env (start c cpu) (n + 1)) = true := by
    simp [Cpu.memoryRspValid, hn1.alone.waiting, hmem1]
  rw [← hinst]
  exact ⟨_, hn1.sound.retire_of_memory hmem1 hrv⟩

/-- **The rule for a prompt CFU.** -/
theorem executes : Executes result (wires G mem env (start c cpu)) cpu where
  faithful := faithful hP hreset hJ hv hb hk
  results n k w hw := by
    obtain ⟨⟨o, ho, hinst⟩, hrep, htake⟩ :=
      Cpu.issued_of_retired (faithful hP hreset hJ hv hb hk n) hw
    obtain ⟨hacc, hrsp⟩ := channels (G := G) (c := c) hreset n
    have hord := (balanced_run hP hreset hJ hv hb hk n).ordered k w.2 (by rw [hrsp]; exact hrep)
    rw [hacc, htake] at hord
    exact ⟨o, ho, hinst, hord⟩
  latency n o ho := by
    have hret := retire_of_issue hP hreset hJ hv hb hk (n := n) (o := o)
      (by rw [run_cpu]; exact ho)
    rw [run_cpu] at hret
    exact hret

end Run

/-! ## Progress -/

section Progress

variable {A : Type} {Ready : A → Soc σ → Prop} {respond : A → Command → Option (Word × A)}

theorem tick_blocking {s : Soc σ} {m : Moves}
    (h : (s.tick G mem false m).accepted.length = (s.tick G mem false m).responses.length) :
    s.tick G mem true m = s.tick G mem false m := by
  have hnext : ∀ kept : Option Command,
      nextOffer true m kept (s.tick G mem false m).accepted (s.tick G mem false m).responses =
        nextOffer false m kept (s.tick G mem false m).accepted
          (s.tick G mem false m).responses := by
    intro kept
    simp [nextOffer, h]
  exact congrArg (fun o => { s.tick G mem false m with offer := o }) (hnext _)

variable (hP : Prompt G mem result busy J Good Known) (hreset : cpu.AtReset)
  (hJ : J (Soc.start c)) (hv : (G.out c).rspValid = false) (hb : busy c = false)
  (hk : ∀ n d, (run G mem env (start c cpu) n).cpu.offer = some d → Known d)

include hP hreset hJ hv hb hk

theorem run_soc_blocking (n : ℕ) : (run G mem env (start c cpu) n).soc =
    Soc.run G mem true (socMoves G mem env (start c cpu)) (Soc.start c) n := by
  induction n with
  | zero => rfl
  | succ n ih =>
    have hlen : (run G mem env (start c cpu) (n + 1)).soc.accepted.length =
        (run G mem env (start c cpu) (n + 1)).soc.responses.length := by
      have hbal := (balanced_run hP hreset hJ hv hb hk (n + 1)).length
      rw [(coupled_run hP hreset hJ hv hb hk (n + 1)).brief] at hbal
      omega
    have htick : (run G mem env (start c cpu) (n + 1)).soc =
        (run G mem env (start c cpu) n).soc.tick G mem true (socMoves G mem env (start c cpu) n) :=
      (tick_blocking hlen).symm
    rw [htick, ih]
    rfl

/-- While a command waits, the CPU is ready for responses from the next cycle on. -/
theorem rspReady_of_waiting {n : ℕ}
    (hwait : ∀ m, n ≤ m → (run G mem env (start c cpu) m).cpu.cmdValid = true ∧
      (wires G mem env (start c cpu) m).cmdReady = false) (m : ℕ) (hm : n + 1 ≤ m) :
    (run G mem env (start c cpu) m).cpu.rspReady = true := by
  have hmem : (run G mem env (start c cpu) m).cpu.memoryCfuInFlight = false := by
    obtain ⟨m, rfl⟩ := Nat.exists_eq_add_of_le' hm
    have hn := coupled_run hP hreset hJ hv hb hk (n + m)
    obtain ⟨hvalid, hr⟩ := hwait (n + m) (by omega)
    rw [show m + (n + 1) = n + m + 1 by omega]
    exact hn.memory_of_waiting hvalid hr
  have hm' := coupled_run hP hreset hJ hv hb hk m
  have hvalid := (hwait m (by omega)).1
  simp only [Cpu.cmdValid, Bool.and_eq_true, Bool.not_eq_true'] at hvalid
  simp [Cpu.rspReady, hm'.alone.waiting, hmem, hvalid.2]

/-- **Progress.** A command on the bus is taken, if the RAM acknowledges again and again and the
CFU has an answer to every command that it is offered. -/
theorem taken (hS : Serves G mem Ready respond) (hready : ∃ a, Ready a (Soc.start c))
    (hresp : ∀ m a d, Ready a (run G mem env (start c cpu) m).soc →
      (run G mem env (start c cpu) m).cpu.offer = some d → (respond a d).isSome = true)
    (hacks : Infinitely fun n => (env n).slave.isAck = true) {n : ℕ} {d : Command}
    (ho : (run G mem env (start c cpu) n).cpu.offer = some d) :
    ∃ m, n ≤ m ∧ (run G mem env (start c cpu) m).cpu.command (wires G mem env (start c cpu) m) =
      some d := by
  by_contra hnever
  have hoffer : ∀ m, n ≤ m → (run G mem env (start c cpu) m).cpu.offer = some d ∧
      (wires G mem env (start c cpu) m).cmdReady = false := by
    intro m hm
    induction m, hm using Nat.le_induction with
    | base =>
      refine ⟨ho, ?_⟩
      by_contra hr
      exact hnever ⟨n, le_rfl, Cpu.command_of_offer ho (by simpa using hr)⟩
    | succ m hm ih =>
      have hstay : (run G mem env (start c cpu) (m + 1)).cpu.offer = some d :=
        Cpu.offer_stays ih.1 ih.2
      refine ⟨hstay, ?_⟩
      by_contra hr
      exact hnever ⟨m + 1, by omega, Cpu.command_of_offer hstay (by simpa using hr)⟩
  have hwait : ∀ m, n ≤ m → (run G mem env (start c cpu) m).cpu.cmdValid = true ∧
      (wires G mem env (start c cpu) m).cmdReady = false := by
    intro m hm
    exact ⟨Cpu.cmdValid_of_offer (hoffer m hm).1, (hoffer m hm).2⟩
  have hfair : Fair (socMoves G mem env (start c cpu)) := by
    refine ⟨fun k => ⟨max k (n + 1), le_max_left _ _, ?_⟩, hacks⟩
    exact rspReady_of_waiting hP hreset hJ hv hb hk hwait _ (le_max_right _ _)
  have hsoc := run_soc_blocking hP hreset hJ hv hb hk
  have hwired := fun m => (coupled_run hP hreset hJ hv hb hk m).wired
  obtain ⟨m, hm, a, ha⟩ := hS.infinitely_ready hfair hready (fun m a d' ha hd => by
    rw [← hsoc] at ha hd
    rw [hwired] at hd
    exact hresp m a d' ha hd) n
  rw [← hsoc] at ha
  obtain ⟨⟨r, a'⟩, hr⟩ := Option.isSome_iff_exists.mp (hresp m a d ha (hoffer m hm).1)
  rw [hsoc] at ha
  obtain ⟨k, -, htr, -⟩ := hS.answer ha (by rw [← hsoc, hwired]; exact (hoffer m hm).1) hr
    (fun j => socMoves G mem env (start c cpu) (m + j)) (hfair.shift m)
  rw [← Soc.run_add', ← hsoc] at htr
  have hreply : (run G mem env (start c cpu) (m + k)).cpu.reply
      (wires G mem env (start c cpu) (m + k)) = some r := htr
  have hmk := coupled_run hP hreset hJ hv hb hk (m + k)
  have hrv : (wires G mem env (start c cpu) (m + k)).rspValid = true := by
    unfold Cpu.reply at hreply
    split_ifs at hreply with hx
    exact (Bool.and_eq_true_iff.mp hx).1
  have hbusy := (hmk.rspValid hP (e := env (m + k))).symm.trans hrv
  have hfire := (hmk.cmdFire hP (e := env (m + k))).trans hbusy
  have hready' := (hwait (m + k) (by omega)).2
  rw [Cpu.cmdFire, Bool.and_eq_true] at hfire
  exact Bool.false_ne_true (hready'.symm.trans hfire.2)

/-- **It leaves `execute`**, if the caches and the divider let go again and again. -/
theorem leaves (hS : Serves G mem Ready respond) (hready : ∃ a, Ready a (Soc.start c))
    (hresp : ∀ m a d, Ready a (run G mem env (start c cpu) m).soc →
      (run G mem env (start c cpu) m).cpu.offer = some d → (respond a d).isSome = true)
    (hacks : Infinitely fun n => (env n).slave.isAck = true)
    (hfree : Infinitely fun n => (run G mem env (start c cpu) n).cpu.heldUp
      (wires G mem env (start c cpu) n) = false) {n : ℕ} {d : Command}
    (ho : (run G mem env (start c cpu) n).cpu.offer = some d) :
    ∃ m, n ≤ m ∧ ((run G mem env (start c cpu) m).cpu.issue
      (wires G mem env (start c cpu) m)).isSome = true := by
  obtain ⟨m, hm, hcmd⟩ := taken hP hreset hJ hv hb hk hS hready hresp hacks ho
  have hcoupled := coupled_run hP hreset hJ hv hb hk
  have hissue : ∀ k, (run G mem env (start c cpu) k).cpu.schedule = true →
      (run G mem env (start c cpu) k).cpu.executeIsStuck (wires G mem env (start c cpu) k) =
        false →
      ((run G mem env (start c cpu) k).cpu.issue (wires G mem env (start c cpu) k)).isSome =
        true := by
    intro k hs hst
    rw [(hcoupled k).sound.issue, hs, hst]
    rfl
  have hfire : (run G mem env (start c cpu) m).cpu.cmdFire (wires G mem env (start c cpu) m) =
      true := by
    unfold Cpu.command at hcmd
    split_ifs at hcmd with hf
    exact hf
  by_cases hst : (run G mem env (start c cpu) m).cpu.executeIsStuck
      (wires G mem env (start c cpu) m) = true
  · -- the command is taken, and the instruction waits until it is not held up
    have hfired : (run G mem env (start c cpu) (m + 1)).cpu.fired = true := by
      show (run G mem env (start c cpu) m).cpu.nextFired (wires G mem env (start c cpu) m) = true
      simp [Cpu.nextFired, hst, hfire]
    obtain ⟨k, hk', hf, hq⟩ := wait_until (n := m + 1)
      (P := fun k => (run G mem env (start c cpu) k).cpu.fired = true)
      (q := fun k => (run G mem env (start c cpu) k).cpu.heldUp
        (wires G mem env (start c cpu) k) = false) hfired (fun k _ hf hq => by
          have hstuck := (hcoupled k).sound.executeIsStuck_of_fired
            (i := wires G mem env (start c cpu) k) (hcoupled k).alone hf
          rw [Bool.not_eq_false] at hq
          show (run G mem env (start c cpu) k).cpu.nextFired (wires G mem env (start c cpu) k) =
            true
          simp [Cpu.nextFired, hstuck, hq, hf]) (hfree (m + 1))
    refine ⟨k, by omega, hissue k ((hcoupled k).sound.fired hf) ?_⟩
    rw [(hcoupled k).sound.executeIsStuck_of_fired (hcoupled k).alone hf]
    exact hq
  · exact ⟨m, hm, hissue m ((hcoupled m).sound.schedule_of_fire (hcoupled m).not_staleTaken hfire)
      (by simpa using hst)⟩

end Progress

end System

/-! ## The two CFUs -/

/-- A period in which a response is new and is taken completes no other command. -/
theorem not_busy_of_brief {σ : Type} {G : Gateware σ} {mem : Memory}
    {result : List Command → Option Word} {busy : σ → Bool} {J : Soc σ → Prop}
    {Good : Moves → Soc σ → Prop} (hP : Pipelined G mem result busy J Good) {m : Moves} {s : Soc σ}
    (hJ : J s) (hbrief : (G.out s.cfu).rspValid = true → busy s.cfu = true ∧ m.rspReady = true)
    (hb : busy (s.mid G m) = true) : (G.out s.cfu).rspValid = false := by
  by_contra hv
  simp [hP.leaves m s hJ (hbrief (by simpa using hv)).1] at hb

open ProjTemplate in
theorem projTemplate_prompt (mem : Memory) :
    System.Prompt cfu mem (fun cs => some (expected mem cs)) completing (Overlapped mem) Apart
      fun _ => True where
  pipelined := pipelined mem
  good m s hJ _ hbrief hb := rspValid_mid.trans (not_busy_of_brief (pipelined mem) hJ hbrief hb)
  idle m s hJ ho := by
    have hst : s.cfu.curState = .init := by
      unfold Overlapped at hJ
      cases hs : s.cfu.curState with
      | init => rfl
      | _ =>
        rw [hs] at hJ
        obtain ⟨c, hc, -⟩ := hJ
        simp [ho] at hc
    simp [Soc.mid, Soc.wires, cfu, negedgeClk, nextState, State.out, completing, hst, ho]

open FilterPreload in
theorem filterPreload_prompt (mem : Memory) :
    System.Prompt cfu mem (FilterPreload.result mem) completing (Overlapped mem)
      (fun m s => Recognising m ∧ Apart m s) Recognised where
  pipelined := pipelined mem
  good m s hJ hk hbrief := by
    refine ⟨hk, fun hb => ?_, fun _ hv => ?_⟩
    · exact rspValid_mid.trans (not_busy_of_brief (pipelined mem) hJ hbrief hb)
    · exact (hbrief (rspValid_mid.symm.trans hv)).2
  idle m s hJ ho := by
    obtain ⟨-, a₀, -, hw⟩ := hJ
    have hst : s.cfu.curState = .init := by
      unfold Wires at hw
      cases hs : s.cfu.curState with
      | init => rfl
      | _ =>
        rw [hs] at hw
        obtain ⟨c, hw⟩ := hw
        simp [ho] at hw
    simp [Soc.mid, Soc.wires, cfu, negedgeClk, nextState, State.out, completing, hst, ho,
      PipelineState.val]

theorem projTemplate_overlapped_start (mem : Memory) :
    ProjTemplate.Overlapped mem (Soc.start ProjTemplate.State.start) := ⟨rfl, rfl, rfl, rfl⟩

/-- **The CPU with `proj/proj_template`.** From reset on, whatever else the pipeline does, the CFU
instructions retire with the accumulator as the commands before them leave it. -/
theorem projTemplate_executes (mem : Memory) (env : ℕ → Env) {cpu : Cpu} (h : cpu.AtReset) :
    Executes (fun cs => some (ProjTemplate.expected mem cs))
      (System.wires ProjTemplate.cfu mem env (System.start ProjTemplate.State.start cpu)) cpu :=
  System.executes (projTemplate_prompt mem) h (projTemplate_overlapped_start mem) rfl rfl
    fun _ _ _ => trivial

/-- An endless stream of `cfu[0,0] x1, x2, x3`. -/
def cfuStream (_ : ℕ) : Env where
  inputs := { Inputs.idle with instruction := 0x0031008b }
  slave := .ack 0

theorem projTemplate_executes_cfuStream :
    Executes (fun cs => some (ProjTemplate.expected (fun _ => 1) cs))
      (System.wires ProjTemplate.cfu (fun _ => 1) cfuStream
        (System.start ProjTemplate.State.start Cpu.zero)) Cpu.zero :=
  projTemplate_executes (fun _ => 1) cfuStream Cpu.atReset_zero

/-- **No CFU instruction hangs** on `proj/proj_template`: its command is taken. -/
theorem projTemplate_taken (mem : Memory) (env : ℕ → Env) {cpu : Cpu} (h : cpu.AtReset)
    (hacks : Infinitely fun n => (env n).slave.isAck = true) {n : ℕ} {d : Command}
    (ho : (System.run ProjTemplate.cfu mem env (System.start ProjTemplate.State.start cpu)
      n).cpu.offer = some d) :
    ∃ m, n ≤ m ∧ (System.run ProjTemplate.cfu mem env (System.start ProjTemplate.State.start cpu)
      m).cpu.command (System.wires ProjTemplate.cfu mem env
        (System.start ProjTemplate.State.start cpu) m) = some d :=
  System.taken (projTemplate_prompt mem) h (projTemplate_overlapped_start mem) rfl rfl
    (fun _ _ _ => trivial) (ProjTemplate.serves mem) ⟨0, rfl, rfl, rfl, ⟨rfl, rfl, rfl⟩, rfl⟩
    (fun _ _ _ _ _ => rfl) hacks ho

/-- The first instruction of the stream is in `execute` after three cycles. -/
theorem projTemplate_taken_cfuStream :
    ∃ m, 3 ≤ m ∧ (System.run ProjTemplate.cfu (fun _ => 1) cfuStream
      (System.start ProjTemplate.State.start Cpu.zero) m).cpu.command
        (System.wires ProjTemplate.cfu (fun _ => 1) cfuStream
          (System.start ProjTemplate.State.start Cpu.zero) m) = some ⟨0, 0, 0⟩ :=
  projTemplate_taken (fun _ => 1) cfuStream Cpu.atReset_zero (fun n => ⟨n, le_rfl, rfl⟩) (by rfl)

theorem filterPreload_overlapped_start (mem : Memory) :
    FilterPreload.Overlapped mem (Soc.start FilterPreload.State.start) :=
  ⟨fun c hc => (by cases hc), ⟨{}, {}, 0⟩, rfl, rfl, rfl, rfl, rfl⟩

/-- **The CPU with `proj/filter_preload`**, if it offers only commands that this CFU
recognises. -/
theorem filterPreload_executes (mem : Memory) (env : ℕ → Env) {cpu : Cpu} (h : cpu.AtReset)
    (hk : ∀ n d, (System.run FilterPreload.cfu mem env
      (System.start FilterPreload.State.start cpu) n).cpu.offer = some d →
        FilterPreload.Recognised d) :
    Executes (FilterPreload.result mem)
      (System.wires FilterPreload.cfu mem env (System.start FilterPreload.State.start cpu)) cpu :=
  System.executes (filterPreload_prompt mem) h (filterPreload_overlapped_start mem) rfl rfl hk

/-- `execute` holds the instruction of the stream from the start. -/
def Cpu.atCfuOp : Cpu := { Cpu.zero with executeInstruction := 0x0031008b }

theorem recognised_cmdPayload {s : Cpu} (h : s.executeInstruction = 0x0031008b) :
    FilterPreload.Recognised s.cmdPayload := by
  have hid : ((functionId 0x0031008b).extractLsb' 3 7).toNat ≤ 8 := by decide
  rw [← h] at hid
  exact hid

theorem filterPreload_executes_cfuStream :
    Executes (FilterPreload.result fun _ => 1)
      (System.wires FilterPreload.cfu (fun _ => 1) cfuStream
        (System.start FilterPreload.State.start Cpu.atCfuOp)) Cpu.atCfuOp := by
  refine filterPreload_executes (fun _ => 1) cfuStream (by constructor <;> rfl) fun n d ho => ?_
  unfold Cpu.offer at ho
  split_ifs at ho
  cases ho
  refine recognised_cmdPayload ?_
  clear * -
  induction n with
  | zero => rfl
  | succ n ih => exact (congrArg (ite _ · _) ih).trans (ite_self _)

end CfuPlayground.VexRiscv
