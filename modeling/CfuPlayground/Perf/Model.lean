import CfuPlayground.Cfu.Port
import CfuPlayground.Lib.Run

/-!
# Performance counters

The counters of `VexRiscv_SlimPerfCfu.v` (`PerfCsrPlugin`, `mcycle`) and the functions of `perf.h`
and `perf.cc` that write them. One step is one cycle; at most one CSR write takes effect in it.
The registers of `PerfCsrPlugin` have no reset value.
-/

namespace CfuPlayground.Perf

/-- `NUM_PERF_COUNTERS` is 8. -/
abbrev CounterNum := Fin 8

/-- The number of a CSR. -/
abbrev CsrNum := BitVec 12

/-! ## The hardware -/

structure Csrs where
  mcycle : BitVec 64
  cycleCounter : CounterNum → Word
  enable : CounterNum → Word

def mcycleCsr : CsrNum := 0xB00
def mcyclehCsr : CsrNum := 0xB80
def counterCsr (i : CounterNum) : CsrNum := 0xB04 + BitVec.ofNat 12 (i * 2)
def enableCsr (i : CounterNum) : CsrNum := 0xB04 + BitVec.ofNat 12 (i * 2 + 1)

/-- The value that a write puts into this CSR. -/
def written (w : Option (CsrNum × Word)) (csr : CsrNum) : Option Word :=
  w.bind fun w => if w.1 = csr then some w.2 else none

/-- The only bit of an enable CSR that is used. -/
def isSet (en : Word) : Bool := en[0]

/-- **One cycle.** A write wins over counting. -/
def Csrs.step (w : Option (CsrNum × Word)) (s : Csrs) : Csrs where
  mcycle :=
    (written w mcyclehCsr).getD ((s.mcycle + 1).extractLsb' 32 32) ++
      (written w mcycleCsr).getD ((s.mcycle + 1).extractLsb' 0 32)
  cycleCounter i := (written w (counterCsr i)).getD
    (if isSet (s.enable i) then s.cycleCounter i + 1 else s.cycleCounter i)
  enable i := (written w (enableCsr i)).getD (s.enable i)

/-- `csrr` of one of these CSRs; `enable` can only be written. -/
def Csrs.read (s : Csrs) (csr : CsrNum) : Option Word :=
  if csr = mcycleCsr then some (s.mcycle.extractLsb' 0 32)
  else if csr = mcyclehCsr then some (s.mcycle.extractLsb' 32 32)
  else ((List.finRange 8).find? fun i => counterCsr i = csr).map s.cycleCounter

/-! ## `perf.h` and `perf.cc` -/

/-- The calls that write. -/
inductive PerfCall
  | zeroStartCounts
  | setMcycle (cyc : Word)
  | setCounter (counterNum : CounterNum) (count : Word)
  | setCounterEnable (counterNum : CounterNum) (en : Word)

def perfEnableCounter (i : CounterNum) : PerfCall := .setCounterEnable i 1

def perfDisableCounter (i : CounterNum) : PerfCall := .setCounterEnable i 0

/-- `perf_reset_all_counters`. -/
def perfResetAllCounters : List PerfCall :=
  ((List.finRange 8).flatMap fun i => [perfDisableCounter i, .setCounter i 0]) ++
    [.zeroStartCounts]

/-- The `csrw` of a call. -/
def PerfCall.csrw : PerfCall → Option (CsrNum × Word)
  | zeroStartCounts => none
  | setMcycle cyc => some (mcycleCsr, cyc)
  | setCounter i count => some (counterCsr i, count)
  | setCounterEnable i en => some (enableCsr i, en)

/-- `CFU_start_counts` after a call. -/
def PerfCall.startCounts (counts : CounterNum → Word) : PerfCall → CounterNum → Word
  | zeroStartCounts => fun _ => 0
  | setCounterEnable i en => if en ≠ 0 then Function.update counts i (counts i + 1) else counts
  | _ => counts

structure State where
  csrs : Csrs
  startCounts : CounterNum → Word

/-- A cycle in which the write of a call takes effect. -/
def State.step (call : Option PerfCall) (s : State) : State where
  csrs := s.csrs.step (call.bind PerfCall.csrw)
  startCounts := (call.map (PerfCall.startCounts s.startCounts)).getD s.startCounts

/-- `calls n` is the call whose write takes effect in cycle `n`. -/
def run (calls : ℕ → Option PerfCall) (s : State) : ℕ → State := Lib.run State.step calls s

/-- `perf_get_counter` and `perf_get_start_count` in a cycle. -/
def State.perfGetCounter (s : State) (i : CounterNum) : Option Word := s.csrs.read (counterCsr i)

/-- `perf_get_mcycle64`, with the cycles in which its `csrr`s read, for this many rounds. -/
def perfGetMcycle64 (s : ℕ → State) : ℕ → (ℕ → ℕ) → Option (BitVec 64)
  | 0, _ => none
  | rounds + 1, t => do
    let cycleHigh ← (s (t 0)).csrs.read mcyclehCsr
    let cycleLow ← (s (t 1)).csrs.read mcycleCsr
    let cycleHigh2 ← (s (t 2)).csrs.read mcyclehCsr
    if cycleHigh ≠ cycleHigh2 then perfGetMcycle64 s rounds fun k => t (k + 3)
    else return cycleHigh ++ cycleLow

/-! ## CSR numbers -/

theorem counterCsr_inj {i j : CounterNum} : counterCsr i = counterCsr j ↔ i = j := by
  revert i j
  decide

theorem enableCsr_inj {i j : CounterNum} : enableCsr i = enableCsr j ↔ i = j := by
  revert i j
  decide

theorem counterCsr_ne_enableCsr (i j : CounterNum) : counterCsr i ≠ enableCsr j := by
  revert i j
  decide

theorem mcycleCsr_ne (i : CounterNum) : mcycleCsr ≠ counterCsr i ∧ mcycleCsr ≠ enableCsr i := by
  revert i
  decide

theorem mcyclehCsr_ne (i : CounterNum) : mcyclehCsr ≠ counterCsr i ∧ mcyclehCsr ≠ enableCsr i := by
  revert i
  decide

theorem read_counterCsr (s : Csrs) (i : CounterNum) :
    s.read (counterCsr i) = some (s.cycleCounter i) := by
  have hfind : (List.finRange 8).find? (fun j => counterCsr j = counterCsr i) = some i := by
    revert i
    decide
  rw [Csrs.read, if_neg (mcycleCsr_ne i).1.symm, if_neg (mcyclehCsr_ne i).1.symm, hfind]
  rfl

/-- `perf_get_counter_enable` reads a CSR that cannot be read: the instruction is illegal. -/
theorem read_enableCsr (s : Csrs) (i : CounterNum) : s.read (enableCsr i) = none := by
  have hfind : (List.finRange 8).find? (fun j => counterCsr j = enableCsr i) = none := by
    revert i
    decide
  rw [Csrs.read, if_neg (mcycleCsr_ne i).2.symm, if_neg (mcyclehCsr_ne i).2.symm, hfind]
  rfl

theorem read_mcycleCsr (s : Csrs) : s.read mcycleCsr = some (s.mcycle.extractLsb' 0 32) := rfl

theorem read_mcyclehCsr (s : Csrs) : s.read mcyclehCsr = some (s.mcycle.extractLsb' 32 32) := rfl

end CfuPlayground.Perf
