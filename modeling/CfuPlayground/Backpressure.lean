import CfuPlayground.ProjTemplate.Overlap
import CfuPlayground.FilterPreload.Overlap

/-!
# Response integrity of the two CFUs

For a client that follows the valid/ready protocol and need not wait for a response, responses
come once, in order and unchanged in every run that keeps the completing states and a waiting
response apart. In other runs a waiting response is overwritten.
-/

namespace CfuPlayground

open Lib

/-- **Response integrity** of `proj/proj_template` and `proj/filter_preload` under
back-pressure, for every memory and all moves of client and slave, in the runs whose periods are
all `Apart`. -/
theorem response_integrity (mem : Memory) (moves : ℕ → Moves) :
    (let soc := Soc.run ProjTemplate.cfu mem false moves (Soc.start ProjTemplate.State.start)
     (∀ n, ProjTemplate.Apart (moves n) (soc n)) →
      Integrity ProjTemplate.cfu (fun cs => some (ProjTemplate.expected mem cs)) moves soc) ∧
    (let soc := Soc.run FilterPreload.cfu mem false moves (Soc.start FilterPreload.State.start)
     (∀ n, FilterPreload.Recognising (moves n)) → (∀ n, FilterPreload.Apart (moves n) (soc n)) →
      Integrity FilterPreload.cfu (FilterPreload.result mem) moves soc) := by
  constructor
  · intro soc hapart
    exact ProjTemplate.integrity mem moves hapart
  · intro soc hrec hapart
    exact FilterPreload.integrity mem moves hrec hapart

/-- A client that holds the first response back while the second command, of the same word, runs,
and a slave with `err` and wait periods. A clear command ends the run. -/
def heldMoves (n : ℕ) : Moves where
  next := if n = 0 ∨ n = 12 then some (cfuOp0 0 4 8)
    else if n = 28 then some (cfuOp0 1 0 0) else none
  idle := cfuOp0 0 4 8
  rspReady := 15 ≤ n
  slave := if n < 4 then .err 7 else if n < 6 ∨ 12 ≤ n ∧ n < 18 then .wait 9 else .ack 0

theorem heldMoves_rest (n : ℕ) (hn : 32 ≤ n) : heldMoves n = heldMoves 32 := by
  have hnext : ¬ (n = 0 ∨ n = 12) ∧ n ≠ 28 := by omega
  have hslave : ¬ n < 4 ∧ ¬ (n < 6 ∨ 12 ≤ n ∧ n < 18) := by omega
  have hready : 15 ≤ n := by omega
  simp [heldMoves, hnext, hslave, hready]

/-- Words that all differ. -/
def distinctWords : Memory := fun a => 0x01020304 + a.setWidth 32

/-- A property of the first 33 periods is one of all. -/
theorem heldMoves_forall {σ : Type} {G : Gateware σ} {c : σ} {P : Moves → Soc σ → Prop}
    (hrest : Soc.run G distinctWords false heldMoves (Soc.start c) 33 =
      Soc.run G distinctWords false heldMoves (Soc.start c) 32)
    (hbusy : ∀ n < 33, P (heldMoves n) (Soc.run G distinctWords false heldMoves (Soc.start c) n))
    (n : ℕ) : P (heldMoves n) (Soc.run G distinctWords false heldMoves (Soc.start c) n) := by
  rcases Nat.lt_or_ge n 33 with hlt | hge
  · exact hbusy n hlt
  · have hn : 32 ≤ n := by omega
    rw [Soc.run, run_rest heldMoves_rest hrest hn, heldMoves_rest n hn]
    exact hbusy 32 (by omega)

theorem response_integrity_held :
    Integrity ProjTemplate.cfu (fun cs => some (ProjTemplate.expected distinctWords cs)) heldMoves
        (Soc.run ProjTemplate.cfu distinctWords false heldMoves
          (Soc.start ProjTemplate.State.start)) ∧
      Integrity FilterPreload.cfu (FilterPreload.result distinctWords) heldMoves
        (Soc.run FilterPreload.cfu distinctWords false heldMoves
          (Soc.start FilterPreload.State.start)) := by
  obtain ⟨htemplate, hpreload⟩ := response_integrity distinctWords heldMoves
  refine ⟨htemplate (heldMoves_forall (by decide +kernel) ?_), hpreload (fun n c hc => ?_)
    (heldMoves_forall (by decide +kernel) fun n hn => ?_)⟩
  · unfold ProjTemplate.Apart
    decide +kernel
  · unfold heldMoves at hc
    split_ifs at hc <;> cases hc <;> decide
  · have hparts : ∀ n < 33, let s := (Soc.run FilterPreload.cfu distinctWords false heldMoves
        (Soc.start FilterPreload.State.start) n).mid FilterPreload.cfu (heldMoves n)
        (FilterPreload.completing s = true → s.rspValid = false) ∧
          (s.curState = .execConvAdd → s.rspValid = true → (heldMoves n).rspReady = true) := by
      decide +kernel
    exact ⟨(hparts n hn).1, (hparts n hn).2⟩

/-- A client that issues two commands and takes no response. -/
def impatientMoves (first second : Command) (n : ℕ) : Moves :=
  ⟨if n = 0 then some first else some second, first, false, .ack 0⟩

/-- **A waiting response is overwritten** by the command after it, in both CFUs. -/
theorem response_integrity_fails :
    (¬ ∀ (mem : Memory) (moves : ℕ → Moves),
      (Infinitely fun n => (moves n).slave.isAck = true) →
        Integrity ProjTemplate.cfu (fun cs => some (ProjTemplate.expected mem cs)) moves
          (Soc.run ProjTemplate.cfu mem false moves (Soc.start ProjTemplate.State.start))) ∧
    ¬ ∀ (mem : Memory) (moves : ℕ → Moves),
      (Infinitely fun n => (moves n).slave.isAck = true) →
      (∀ n, FilterPreload.Recognising (moves n)) →
        Integrity FilterPreload.cfu (FilterPreload.result mem) moves
          (Soc.run FilterPreload.cfu mem false moves (Soc.start FilterPreload.State.start)) := by
  have hacks : Infinitely fun n =>
      (impatientMoves (cfuOp0 0 0 0) (cfuOp0 1 0 0) n).slave.isAck = true :=
    fun n => ⟨n, le_rfl, rfl⟩
  constructor
  · intro h
    have hstable := (h (fun _ => 0x01010101) _ hacks).stable 7 (by decide +kernel) rfl
    exact absurd hstable.2 (by decide +kernel)
  · intro h
    have hrec : ∀ n,
        FilterPreload.Recognising (impatientMoves (cfuOp0 0 0 0) (cfuOp0 1 0 0) n) := by
      intro n c hc
      unfold impatientMoves at hc
      split_ifs at hc <;> cases hc <;> decide
    have hstable := (h (fun _ => 0x01010101) _ hacks hrec).stable 9 (by decide +kernel) rfl
    exact absurd hstable.2 (by decide +kernel)

end CfuPlayground
