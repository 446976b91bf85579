import CfuPlayground.VexRiscv.Software
import CfuPlayground.ProjTemplate.Kernel
import CfuPlayground.FilterPreload.EndToEnd

/-!
# The kernels on the CPU

The three levels of a project in one: the C++ kernel, the pipeline and the CFU, for
`proj/proj_template` (`projTemplate_kernel_on_cpu`) and for `proj/filter_preload`
(`filterPreload_kernel_on_cpu`).
-/

namespace CfuPlayground.VexRiscv

open Lib Tflite

/-! ## The kernel of `proj/proj_template` -/

/-- **Kernel, pipeline and CFU.** Where the software kernel passes its checks on aligned tensors,
the program of `proj/proj_template`, run by the CPU on its CFU from reset on, gets to the same
bytes, whatever the caches, the divider, interrupts and exceptions do to the pipeline, as long as
the RAM acknowledges and the pipeline is let go again and again. -/
theorem projTemplate_kernel_on_cpu (T : Target) (mem : Memory) (params : ConvParams)
    (data : ConvData) (output : Output) (hinput : Aligned data.inputData)
    (hfilter : Aligned data.filterData)
    (h : convPerChannelSoftwareCnn T mem params data = some output) (env : ℕ → Env)
    (hacks : Infinitely fun n => (env n).slave.isAck = true) {cpu : Cpu} (hcpu : cpu.AtReset)
    (hfree : Infinitely fun n => (System.run ProjTemplate.cfu mem env
      (System.start ProjTemplate.State.start cpu) n).cpu.heldUp (System.wires ProjTemplate.cfu mem
        env (System.start ProjTemplate.State.start cpu) n) = false)
    (hruns : Runs (convPerChannelProjTemplate T params data)
      (System.wires ProjTemplate.cfu mem env (System.start ProjTemplate.State.start cpu)) cpu) :
    ∃ n, ∀ m, n ≤ m → ((convPerChannelProjTemplate T params data).follow
      (Cpu.results (System.wires ProjTemplate.cfu mem env
        (System.start ProjTemplate.State.start cpu)) cpu m)).2 = .done output := by
  obtain ⟨acc, he⟩ := ProjTemplate.eval_convPerChannelProjTemplate hinput hfilter h 0
  refine System.computes (fun cs => some (ProjTemplate.expected mem cs)) (projTemplate_prompt mem)
    hcpu (projTemplate_overlapped_start mem) rfl rfl (fun _ _ _ => trivial)
    (ProjTemplate.serves mem) ⟨rfl, rfl, rfl, ⟨rfl, rfl, rfl⟩, rfl⟩ (fun s acc hJ ha => ?_)
    (fun cs acc c r acc' hacc hr => ?_) hruns hacks hfree he
  · unfold ProjTemplate.Overlapped at hJ
    rw [ha.1] at hJ
    rw [← hJ.1, ha.2.2.1]
  · cases hr
    rw [ProjTemplate.expected_append, ← Option.some.inj hacc]
    exact ⟨rfl, rfl⟩

/-- A clear and a multiply command between `nop`s, for one pixel of four channels. -/
def onePixelCode (n : ℕ) : Env where
  inputs := if n = 3 then { Inputs.idle with instruction := 0x0231008b }
    else if n = 5 then { Inputs.idle with instruction := 0x0031008b, rs2 := 64 }
    else Inputs.idle
  slave := .ack 0

theorem onePixelCode_free (n : ℕ) (s : Cpu) : s.heldUp (onePixelCode n).inputs = false := by
  unfold onePixelCode
  split_ifs <;> simp [Cpu.heldUp, Inputs.idle]

theorem onePixelCode_runs :
    Runs (convPerChannelProjTemplate riscv pointwiseParams (onePixel 4 4))
      (System.wires ProjTemplate.cfu pointwiseMemory onePixelCode
        (System.start ProjTemplate.State.start Cpu.zero)) Cpu.zero := by
  set ins := System.wires ProjTemplate.cfu pointwiseMemory onePixelCode
    (System.start ProjTemplate.State.start Cpu.zero) with hins
  have hnop : ∀ n, 12 ≤ n → (Cpu.run ins Cpu.zero n).executeInstruction = 0x00000013 := by
    intro n hn
    refine Cpu.executeInstruction_run (P := fun w => w = 0x00000013) (by decide +kernel)
      (fun n hn => ?_) hn
    have h3 : n ≠ 3 := by omega
    have h5 : n ≠ 5 := by omega
    simp [hins, System.wires, System.inputs, onePixelCode, h3, h5, Inputs.idle]
  have hresults : Cpu.results ins Cpu.zero 14 = [0, 4] := by decide +kernel
  refine Runs.of_quiet (N := 14) (System.executes (projTemplate_prompt pointwiseMemory)
    Cpu.atReset_zero (projTemplate_overlapped_start pointwiseMemory) rfl rfl fun _ _ _ => trivial)
    (System.sound_run (projTemplate_prompt pointwiseMemory) Cpu.atReset_zero
      (projTemplate_overlapped_start pointwiseMemory) rfl rfl fun _ _ _ => trivial) rfl
    (fun n hn => ?_) (by decide +kernel) ?_ ?_
  · refine System.offer_eq_none (projTemplate_prompt pointwiseMemory) Cpu.atReset_zero
      (projTemplate_overlapped_start pointwiseMemory) rfl rfl (fun _ _ _ => trivial) ?_
    rw [hnop n (by omega)]
    decide
  · rw [hresults]
    have hcalls : ∀ n < 14, (Cpu.run ins Cpu.zero n).offer = none ∨
        ((convPerChannelProjTemplate riscv pointwiseParams (onePixel 4 4)).follow
          (([0, 4] : List Word).take (Cpu.issued ins Cpu.zero n).length)).2.pending =
            (Cpu.run ins Cpu.zero n).offer := by
      decide +kernel
    intro n hn d hd
    rcases hcalls n hn with hnone | hcall
    · rw [hnone] at hd
      cases hd
    · rw [hcall, hd]
  · rw [hresults]
    decide +kernel

/-- One byte is written, 4. -/
theorem projTemplate_kernel_on_cpu_onePixel :
    ∃ n, ∀ m, n ≤ m → ((convPerChannelProjTemplate riscv pointwiseParams (onePixel 4 4)).follow
      (Cpu.results (System.wires ProjTemplate.cfu pointwiseMemory onePixelCode
        (System.start ProjTemplate.State.start Cpu.zero)) Cpu.zero m)).2 = .done [(0, 4)] :=
  projTemplate_kernel_on_cpu riscv pointwiseMemory pointwiseParams (onePixel 4 4) [(0, 4)] rfl rfl
    (by decide +kernel) onePixelCode (fun n => ⟨n, le_rfl, rfl⟩) Cpu.atReset_zero
    (fun n => ⟨n, le_rfl, onePixelCode_free n _⟩) onePixelCode_runs

/-! ## The kernel of `proj/filter_preload` -/

section FilterPreload

open FilterPreload

/-- On a covered geometry the kernel evaluates to the bytes of the reference kernel. -/
theorem eval_filterPreload_of_covered {T : Target} {g : Geometry} (hv : g.Valid)
    (hcov : Covered g 0) {mem : Memory} {r : Arguments} {output : Output}
    (hinput : Aligned r.inputData) (hfilter : Aligned r.filterData)
    (h : convPerChannelReference T mem (g.params r) (g.data r) = some output) :
    ∃ a', (convPerChannelFilterPreload T (g.params r) (g.data r)).eval (respond mem)
      ⟨{}, {}, 0⟩ = some (output, a') := by
  have hidle : Idle mem ⟨{}, {}, 0⟩ (Soc.start State.start) :=
    ⟨⟨rfl, rfl, rfl, ⟨rfl, rfl, rfl⟩, rfl⟩, rfl⟩
  obtain ⟨n, hn⟩ := correct_of_covered T hv rfl hcov mem r output hinput hfilter h
    (Soc.start State.start) ⟨{}, {}, 0⟩ hidle rfl rfl (fun _ => Pace.eager) fairPace_eager
  obtain ⟨a', he, -⟩ := Host.ready_of_done (serves mem) fairPace_eager
    (h := ⟨convPerChannelFilterPreload T (g.params r) (g.data r), Soc.start State.start⟩)
    ⟨hidle, .inl rfl⟩ (hn n le_rfl)
  exact ⟨a', he⟩

theorem acc_respond {mem : Memory} {a a' : Regs} {c : Command} {r : Word}
    (h : respond mem a c = some (r, a')) : r = a'.acc := by
  unfold respond at h
  split_ifs at h
  · obtain ⟨w, -, hw⟩ := Option.map_eq_some_iff.mp h
    cases hw
    rfl
  · cases h
    rfl

/-- **Kernel, pipeline and CFU** of `proj/filter_preload`, on a geometry that the walk of the CFU
covers from reset on. -/
theorem filterPreload_kernel_on_cpu (T : Target) (g : Geometry) (hv : g.Valid)
    (hcov : Covered g 0) (mem : Memory) (r : Arguments) (output : Output)
    (hinput : Aligned r.inputData) (hfilter : Aligned r.filterData)
    (h : convPerChannelReference T mem (g.params r) (g.data r) = some output) (env : ℕ → Env)
    (hacks : Infinitely fun n => (env n).slave.isAck = true) {cpu : Cpu} (hcpu : cpu.AtReset)
    (hfree : Infinitely fun n => (System.run FilterPreload.cfu mem env
      (System.start FilterPreload.State.start cpu) n).cpu.heldUp (System.wires FilterPreload.cfu mem
        env (System.start FilterPreload.State.start cpu) n) = false)
    (hk : ∀ n d, (System.run FilterPreload.cfu mem env
      (System.start FilterPreload.State.start cpu) n).cpu.offer = some d → Recognised d)
    (hruns : Runs (convPerChannelFilterPreload T (g.params r) (g.data r))
      (System.wires FilterPreload.cfu mem env (System.start FilterPreload.State.start cpu)) cpu) :
    ∃ n, ∀ m, n ≤ m → ((convPerChannelFilterPreload T (g.params r) (g.data r)).follow
      (Cpu.results (System.wires FilterPreload.cfu mem env
        (System.start FilterPreload.State.start cpu)) cpu m)).2 = .done output := by
  obtain ⟨a', he⟩ := eval_filterPreload_of_covered hv hcov hinput hfilter h
  refine System.computes (fun cs => after mem cs ⟨{}, {}, 0⟩) (filterPreload_prompt mem) hcpu
    (filterPreload_overlapped_start mem) rfl rfl hk (serves mem) (idle_start mem)
    (fun s a hJ ha => ?_) (fun cs a c r a' hat hr => ?_) hruns hacks hfree he
  · obtain ⟨-, a₀, hafter, hw⟩ := hJ
    unfold Wires at hw
    rw [ha.1.1] at hw
    rw [hafter, ← hw.1]
    exact congrArg some ha.1.2.2.1
  · rw [result, after_append hat, hr]
    exact ⟨congrArg some (acc_respond hr).symm, rfl⟩

/-- The arguments of a call on `pointwiseMemory`. -/
def onePointArguments : Arguments :=
  ⟨0, -128, 127, fun _ => 0x7fffffff, fun _ => 0, 0, 64, ⟨[1]⟩, none⟩

/-- The eight calls for one pixel of four channels, each with `rs1` and `rs2`. -/
def onePointCalls : List (Word × Word × Word) :=
  [(0x0431008b, 1, 1), (0x0631008b, 1, 1), (0x0831008b, 4, 128), (0x0c31008b, 0, 64),
    (0x0e31008b, 4, 128), (0x0a31008b, 0, 0), (0x1031008b, 0, 0), (0x0031008b, 0, 0)]

/-- The `k`-th of them, and `nop`s after the last. -/
def onePointCall (k : ℕ) : Word × Word × Word := onePointCalls[k]?.getD (0x00000013, 0, 0)

/-- A call in every third cycle from the fourth on. -/
def onePointCode (n : ℕ) : Env where
  inputs := { Inputs.idle with
    instruction := if n % 3 = 0 then (onePointCall (n / 3 - 1)).1 else 0x00000013
    rs1 := (onePointCall (n / 3 - 1)).2.1
    rs2 := (onePointCall (n / 3 - 1)).2.2 }
  slave := .ack 0

theorem onePointCall_known (k : ℕ) :
    ((functionId (onePointCall k).1).extractLsb' 3 7).toNat ≤ 8 := by
  have hcalls : ∀ k < 8, ((functionId (onePointCall k).1).extractLsb' 3 7).toNat ≤ 8 := by decide
  by_cases hk : k < 8
  · exact hcalls k hk
  · have hnone : onePointCalls[k]? = none := List.getElem?_eq_none (Nat.le_of_not_lt hk)
    rw [onePointCall, hnone]
    decide

theorem onePointCode_known (n : ℕ) :
    ((functionId (onePointCode n).inputs.instruction).extractLsb' 3 7).toNat ≤ 8 := by
  show ((functionId (if n % 3 = 0 then (onePointCall (n / 3 - 1)).1 else 0x00000013)).extractLsb' 3
    7).toNat ≤ 8
  by_cases h : n % 3 = 0
  · rw [if_pos h]
    exact onePointCall_known _
  · rw [if_neg h]
    decide

theorem onePointCode_offer (n : ℕ) (d : Command) (ho : (System.run FilterPreload.cfu
    pointwiseMemory onePointCode (System.start FilterPreload.State.start Cpu.zero) n).cpu.offer =
      some d) : Recognised d := by
  rw [System.run_cpu] at ho
  unfold Cpu.offer at ho
  split_ifs at ho
  obtain rfl := Option.some.inj ho
  have hzero : ((functionId Cpu.zero.executeInstruction).extractLsb' 3 7).toNat ≤ 8 := by decide
  refine Cpu.executeInstruction_run (P := fun w => ((functionId w).extractLsb' 3 7).toNat ≤ 8)
    (N := 0) hzero (fun n _ => ?_) (Nat.zero_le n)
  rw [System.wires_instruction]
  exact onePointCode_known n

theorem onePointCode_free (n : ℕ) (s : Cpu) : s.heldUp (onePointCode n).inputs = false := by
  simp [Cpu.heldUp, onePointCode, Inputs.idle]

theorem onePointCode_runs :
    Runs (convPerChannelFilterPreload riscv ((onePoint 4).params onePointArguments)
        ((onePoint 4).data onePointArguments))
      (System.wires FilterPreload.cfu pointwiseMemory onePointCode
        (System.start FilterPreload.State.start Cpu.zero)) Cpu.zero := by
  set ins := System.wires FilterPreload.cfu pointwiseMemory onePointCode
    (System.start FilterPreload.State.start Cpu.zero) with hins
  have hnop : ∀ n, 33 ≤ n → (Cpu.run ins Cpu.zero n).executeInstruction = 0x00000013 := by
    intro n hn
    refine Cpu.executeInstruction_run (P := fun w => w = 0x00000013) (by decide +kernel)
      (fun n hn => ?_) hn
    have hcall : onePointCall (n / 3 - 1) = (0x00000013, 0, 0) := by
      have hlen : onePointCalls.length ≤ n / 3 - 1 := by
        show 8 ≤ n / 3 - 1
        omega
      rw [onePointCall, List.getElem?_eq_none hlen]
      rfl
    show (if n % 3 = 0 then (onePointCall (n / 3 - 1)).1 else 0x00000013) = _
    rw [hcall, ite_self]
  have hresults : Cpu.results ins Cpu.zero 35 = [0, 0, 0, 0, 0, 0, 0, 4] := by decide +kernel
  refine Runs.of_quiet (N := 35) (System.executes (filterPreload_prompt pointwiseMemory)
    Cpu.atReset_zero (filterPreload_overlapped_start pointwiseMemory) rfl rfl onePointCode_offer)
    (System.sound_run (filterPreload_prompt pointwiseMemory) Cpu.atReset_zero
      (filterPreload_overlapped_start pointwiseMemory) rfl rfl onePointCode_offer) rfl
    (fun n hn => ?_) (by decide +kernel) ?_ ?_
  · refine System.offer_eq_none (filterPreload_prompt pointwiseMemory) Cpu.atReset_zero
      (filterPreload_overlapped_start pointwiseMemory) rfl rfl onePointCode_offer ?_
    rw [hnop n (by omega)]
    decide
  · rw [hresults]
    have hcalls : ∀ n < 35, (Cpu.run ins Cpu.zero n).offer = none ∨
        ((convPerChannelFilterPreload riscv ((onePoint 4).params onePointArguments)
          ((onePoint 4).data onePointArguments)).follow (([0, 0, 0, 0, 0, 0, 0, 4] : List Word).take
            (Cpu.issued ins Cpu.zero n).length)).2.pending = (Cpu.run ins Cpu.zero n).offer := by
      decide +kernel
    intro n hn d hd
    rcases hcalls n hn with hnone | hcall
    · rw [hnone] at hd
      cases hd
    · rw [hcall, hd]
  · rw [hresults]
    decide +kernel

theorem filterPreload_kernel_on_cpu_onePoint :
    ∃ n, ∀ m, n ≤ m → ((convPerChannelFilterPreload riscv
        ((onePoint 4).params onePointArguments) ((onePoint 4).data onePointArguments)).follow
      (Cpu.results (System.wires FilterPreload.cfu pointwiseMemory onePointCode
        (System.start FilterPreload.State.start Cpu.zero)) Cpu.zero m)).2 = .done [(0, 4)] :=
  filterPreload_kernel_on_cpu riscv (onePoint 4) (onePoint_valid (by decide) (by decide))
    (by decide +kernel) pointwiseMemory onePointArguments [(0, 4)] (by decide) (by decide)
    (by decide +kernel) onePointCode (fun n => ⟨n, le_rfl, rfl⟩) Cpu.atReset_zero
    (fun n => ⟨n, le_rfl, onePointCode_free n _⟩) onePointCode_offer onePointCode_runs

end FilterPreload

end CfuPlayground.VexRiscv
