import Mathlib.Data.Set.Basic
import Mathlib.Logic.Nontrivial.Basic
import Mathlib.Logic.Function.Basic
import Mathlib.Tactic

/-!
# Stores and loops that emit them

A memory after a list of stores. Stores of one value paint a set exactly if the set is the set of
their addresses (`paints_iff`). A while loop that emits an item a round, with fuel, emits the items
of its trace (`emitWhile_eq`).
-/

namespace CfuPlayground.Lib

section Stores

variable {α β : Type} [DecidableEq α]

/-- The memory after the stores, the first one first. -/
def stores (m : α → β) (ws : List (α × β)) : α → β :=
  ws.foldl (fun m w => Function.update m w.1 w.2) m

variable {ws : List (α × β)} {m : α → β} {a : α} {v : β}

theorem stores_snoc (w : α × β) :
    stores m (ws ++ [w]) = Function.update (stores m ws) w.1 w.2 := by
  rw [stores, List.foldl_append]
  rfl

theorem stores_of_notMem (h : a ∉ ws.map Prod.fst) : stores m ws a = m a := by
  induction ws using List.reverseRecOn with
  | nil => rfl
  | append_singleton ws w ih =>
    rw [List.map_append, List.mem_append, not_or] at h
    have hne : a ≠ w.1 := by simpa using h.2
    rw [stores_snoc, Function.update_of_ne hne, ih h.1]

theorem stores_of_mem (hv : ∀ w ∈ ws, w.2 = v) (h : a ∈ ws.map Prod.fst) : stores m ws a = v := by
  induction ws using List.reverseRecOn with
  | nil => cases h
  | append_singleton ws w ih =>
    rw [stores_snoc]
    by_cases hne : a = w.1
    · rw [hne, Function.update_self]
      exact hv w (List.mem_append_right ws (List.mem_singleton.mpr rfl))
    · rw [Function.update_of_ne hne]
      apply ih fun w' hw' => hv w' (List.mem_append_left _ hw')
      rw [List.map_append, List.mem_append] at h
      exact h.resolve_right (by simpa using hne)

/-- The stores turn the words of `S` into `v` and leave every other word alone. -/
def Paints (ws : List (α × β)) (v : β) (S : Set α) : Prop :=
  ∀ m a, (a ∈ S → stores m ws a = v) ∧ (a ∉ S → stores m ws a = m a)

theorem Paints.mem [Nontrivial β] {S : Set α} (h : Paints ws v S) (hS : a ∈ S) :
    a ∈ ws.map Prod.fst := by
  obtain ⟨v', hv'⟩ := exists_ne v
  by_contra ha
  exact hv' ((stores_of_notMem ha).symm.trans ((h (fun _ => v') a).1 hS))

/-- **Stores of one value** paint exactly the set of their addresses. -/
theorem paints_iff [Nontrivial β] {S : Set α} (hv : ∀ w ∈ ws, w.2 = v) :
    Paints ws v S ↔ ∀ a, a ∈ ws.map Prod.fst ↔ a ∈ S := by
  constructor
  · intro h a
    obtain ⟨v', hv'⟩ := exists_ne v
    constructor
    · intro ha
      by_contra hS
      exact hv' (((h (fun _ => v') a).2 hS).symm.trans (stores_of_mem hv ha))
    · exact h.mem
  · intro h m a
    exact ⟨fun hS => stores_of_mem hv ((h a).mpr hS),
      fun hS => stores_of_notMem fun ha => hS ((h a).mp ha)⟩

end Stores

section EmitWhile

variable {σ ω : Type}

/-- `while (cond(s)) { emit(s); s = next(s); }`; none if the fuel does not suffice. -/
def emitWhile (cond : σ → Bool) (emit : σ → ω) (next : σ → σ) : ℕ → σ → Option (List ω)
  | 0, _ => none
  | fuel + 1, s =>
    if cond s then (emitWhile cond emit next fuel (next s)).map (emit s :: ·) else some []

/-- **The trace of a loop**: `f k` is the state after `k` rounds. -/
theorem emitWhile_eq {cond : σ → Bool} {emit : σ → ω} {next : σ → σ} {n : ℕ} {f : ℕ → σ}
    (hrun : ∀ k < n, cond (f k) = true) (hnext : ∀ k < n, next (f k) = f (k + 1))
    (hend : cond (f n) = false) {fuel : ℕ} (hfuel : n < fuel) :
    emitWhile cond emit next fuel (f 0) = some ((List.range n).map fun k => emit (f k)) := by
  induction n generalizing f fuel with
  | zero =>
    obtain ⟨fuel, rfl⟩ := Nat.exists_eq_succ_of_ne_zero (by omega : fuel ≠ 0)
    rw [emitWhile, if_neg (by rw [hend]; decide)]
    rfl
  | succ n ih =>
    obtain ⟨fuel, rfl⟩ := Nat.exists_eq_succ_of_ne_zero (by omega : fuel ≠ 0)
    have hrest := @ih (fun k => f (k + 1)) (fun k hk => hrun (k + 1) (by omega))
      (fun k hk => hnext (k + 1) (by omega)) hend fuel (by omega)
    rw [emitWhile, if_pos (hrun 0 (by omega)), hnext 0 (by omega), hrest, List.range_succ_eq_map,
      List.map_cons, List.map_map]
    rfl

end EmitWhile

end CfuPlayground.Lib
