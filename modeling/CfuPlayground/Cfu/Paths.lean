import CfuPlayground.Cfu.Host
import CfuPlayground.Lib.Path

/-!
# The paths of a host

The counterpart of `Serves` for safety: what holds while a command is served, whether it is
answered in the end or not. `Tracks` describes a CFU by the commands answered so far; then at
every time of a run the program has come along a path, and the CFU is where the commands on it
have taken it (`Host.along_run`).
-/

namespace CfuPlayground

open Lib

variable {σ α : Type}

/-- `Ready cs` holds between two commands, after the commands `cs`, and `During cs c` from the
offer of the next command `c` to its response. -/
structure Tracks (G : Gateware σ) (mem : Memory) (Ready : List Command → Soc σ → Prop)
    (During : List Command → Command → Soc σ → Prop) : Prop where
  stay : ∀ {cs s}, Ready cs s → s.offer = none → ∀ m, s.transfers G m = none ∧
    Ready cs (s.tick G mem true m) ∧ (s.tick G mem true m).offer = m.next
  start : ∀ {cs s c}, Ready cs s → s.offer = some c → During cs c s
  keep : ∀ {cs c s}, During cs c s → ∀ m, s.transfers G m = none →
    During cs c (s.tick G mem true m)
  finish : ∀ {cs c s}, During cs c s → ∀ m r, s.transfers G m = some r →
    Ready (cs ++ [c]) (s.tick G mem true m) ∧ (s.tick G mem true m).offer = m.next

variable {G : Gateware σ} {mem : Memory} {Ready : List Command → Soc σ → Prop}
  {During : List Command → Command → Soc σ → Prop} {p : Program α} {cs : List Command}
  {h : Host σ α} {pace : ℕ → Pace}

/-- The program `p` has come to where it is by the commands `cs`, and the CFU is between two
commands or serves the one that the program waits for. -/
def Host.Along (Ready : List Command → Soc σ → Prop)
    (During : List Command → Command → Soc σ → Prop) (p : Program α) (cs : List Command)
    (h : Host σ α) : Prop :=
  p.Issues cs h.prog ∧ (Ready cs h.soc ∧ h.soc.offer = none ∨
    ∃ c next, h.prog = .call c next ∧ During cs c h.soc)

theorem Host.along_of_ready (hT : Tracks G mem Ready During) (hp : p.Issues cs h.prog)
    (hr : Ready cs h.soc) (ho : h.soc.offer = none ∨ h.soc.offer = h.prog.pending) :
    h.Along Ready During p cs := by
  refine ⟨hp, ?_⟩
  cases hoffer : h.soc.offer with
  | none => exact .inl ⟨hr, rfl⟩
  | some c =>
    have hpending : h.prog.pending = some c := by
      rcases ho with ho | ho
      · rw [ho] at hoffer
        cases hoffer
      · exact ho.symm.trans hoffer
    obtain ⟨next, hnext⟩ := Client.exists_of_pending hpending
    exact .inr ⟨c, next, hnext, hT.start hr hoffer⟩

/-- **Step lemma.** -/
theorem Host.along_tick (hT : Tracks G mem Ready During) (ha : h.Along Ready During p cs)
    (v : Pace) : ∃ cs', (h.tick G mem v).Along Ready During p cs' := by
  obtain ⟨hp, ⟨hr, ho⟩ | ⟨c, next, hprog, hd⟩⟩ := ha
  · obtain ⟨hsame, hr', ho'⟩ := Host.tick_of_idle (hT.stay hr ho) v
    refine ⟨cs, Host.along_of_ready hT (by rwa [hsame]) hr' ?_⟩
    rw [ho', hsame]
    split_ifs
    · exact .inr rfl
    · exact .inl rfl
  · cases htr : h.soc.transfers G (v.moves none) with
    | none =>
      have hsame : (h.tick G mem v).prog = h.prog := by
        show h.prog.resume (h.soc.transfers G (v.moves none)) = _
        rw [htr, Client.resume_none]
      refine ⟨cs, by rwa [hsame], .inr ⟨c, next, hsame.trans hprog, ?_⟩⟩
      exact hT.keep hd _ ((Soc.transfers_moves v _ h.soc).trans htr)
    | some r =>
      have hnext : (h.tick G mem v).prog = next r := by
        show h.prog.resume (h.soc.transfers G (v.moves none)) = _
        rw [htr, hprog]
        rfl
      obtain ⟨hr', ho'⟩ := hT.finish hd (h.moves G v) r
        ((Soc.transfers_moves v _ h.soc).trans htr)
      rw [hprog] at hp
      refine ⟨cs ++ [c], Host.along_of_ready hT (by rw [hnext]; exact .answer hp r) hr' ?_⟩
      have hoffer : (h.tick G mem v).soc.offer =
          if v.issue then (h.tick G mem v).prog.pending else none := ho'
      rw [hoffer]
      split_ifs
      · exact .inr rfl
      · exact .inl rfl

/-- **Run lemma.** -/
theorem Host.along_run (hT : Tracks G mem Ready During) (hr : Ready [] h.soc)
    (ho : h.soc.offer = none) (n : ℕ) :
    ∃ cs, (Host.run G mem pace h n).Along Ready During h.prog cs := by
  induction n with
  | zero => exact ⟨[], Host.along_of_ready hT .start hr (.inl ho)⟩
  | succ n ih =>
    obtain ⟨cs, hcs⟩ := ih
    exact Host.along_tick hT hcs (pace n)

end CfuPlayground
