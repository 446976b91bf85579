import Mathlib.Tactic

/-!
# Runs of a clocked machine

`run step ins s n` is the state after `n` ticks of a deterministic machine fed the input
stream `ins`. The rules a verification uses:

* `run_invariant`, `run_invariant_of`: what every tick keeps holds of the whole run;
* `run_add`: a run may be cut at any tick;
* `run_rest`: a run whose state and input no longer change is at rest;
* `Infinitely`, `exists_first`, `wait_until`: a state that only an awaited event can leave is
  still there when the event comes;
* `log`: the events of a stream before a tick, oldest first;
* `replies_append`: a log of replies stays in the order of the log of requests.
-/

namespace CfuPlayground.Lib

variable {σ ι α : Type}

/-- The state after `n` ticks. -/
def run (step : ι → σ → σ) (ins : ℕ → ι) (s : σ) : ℕ → σ
  | 0 => s
  | n + 1 => step (ins n) (run step ins s n)

variable {step : ι → σ → σ} {ins : ℕ → ι} {s : σ}

@[simp] theorem run_zero : run step ins s 0 = s := rfl

theorem run_succ (n : ℕ) : run step ins s (n + 1) = step (ins n) (run step ins s n) := rfl

theorem run_add (m n : ℕ) :
    run step ins s (m + n) = run step (fun k => ins (m + k)) (run step ins s m) n := by
  induction n with
  | zero => rfl
  | succ n ih => rw [← Nat.add_assoc, run_succ, run_succ, ih]

/-- **Invariants.** What holds at the start and is kept by every tick holds of the run. -/
theorem run_invariant {P : σ → Prop} (h0 : P s) (hstep : ∀ i s, P s → P (step i s)) (n : ℕ) :
    P (run step ins s n) := by
  induction n with
  | zero => exact h0
  | succ n ih => exact hstep _ _ ih

theorem run_invariant_of {P : σ → Prop} (h0 : P s)
    (hstep : ∀ n, P (run step ins s n) → P (run step ins s (n + 1))) (n : ℕ) :
    P (run step ins s n) := by
  induction n with
  | zero => exact h0
  | succ n ih => exact hstep n ih

/-- A run that has come to rest. -/
theorem run_rest {k : ℕ} (hins : ∀ n, k ≤ n → ins n = ins k)
    (hrest : run step ins s (k + 1) = run step ins s k) {n : ℕ} (hn : k ≤ n) :
    run step ins s n = run step ins s k := by
  induction n, hn using Nat.le_induction with
  | base => rfl
  | succ n hn ih =>
    rw [run_succ, ih, hins n hn]
    exact hrest

/-! ## Waiting -/

/-- `q` happens again and again. -/
def Infinitely (q : ℕ → Prop) : Prop := ∀ n, ∃ m, n ≤ m ∧ q m

theorem Infinitely.shift {q : ℕ → Prop} (h : Infinitely q) (k : ℕ) :
    Infinitely fun n => q (k + n) := fun n => by
  obtain ⟨m, hm, hq⟩ := h (k + n)
  exact ⟨m - k, by omega, by simpa [Nat.add_sub_cancel' (by omega : k ≤ m)] using hq⟩

theorem exists_first {q : ℕ → Prop} {n : ℕ} (h : ∃ m, n ≤ m ∧ q m) :
    ∃ m, n ≤ m ∧ q m ∧ ∀ k, n ≤ k → k < m → ¬ q k := by
  classical
  refine ⟨Nat.find h, (Nat.find_spec h).1, (Nat.find_spec h).2, fun k hk hlt hq => ?_⟩
  exact Nat.find_min h hlt ⟨hk, hq⟩

/-- A property every tick keeps while `q` does not happen is kept up to the first `q`. -/
theorem keep_until {P q : ℕ → Prop} {n m : ℕ} (hn : P n)
    (hkeep : ∀ k, n ≤ k → k < m → P k → ¬ q k → P (k + 1)) (hm : n ≤ m)
    (hq : ∀ k, n ≤ k → k < m → ¬ q k) : P m := by
  induction m, hm using Nat.le_induction with
  | base => exact hn
  | succ m hm ih =>
    exact hkeep m hm (by omega) (ih (fun k h1 h2 => hkeep k h1 (by omega))
      fun k h1 h2 => hq k h1 (by omega)) (hq m hm (by omega))

/-- **Waiting.** If only `q` can end `P`, and `q` comes, then `P` still holds when it comes. -/
theorem wait_until {P q : ℕ → Prop} {n : ℕ} (hn : P n)
    (hkeep : ∀ k, n ≤ k → P k → ¬ q k → P (k + 1)) (hq : ∃ m, n ≤ m ∧ q m) :
    ∃ m, n ≤ m ∧ P m ∧ q m := by
  obtain ⟨m, hm, hqm, hfirst⟩ := exists_first hq
  exact ⟨m, hm, keep_until hn (fun k h1 _ => hkeep k h1) hm hfirst, hqm⟩

/-! ## Event logs -/

/-- The events before tick `n`, oldest first. -/
def log (event : ℕ → Option α) : ℕ → List α
  | 0 => []
  | n + 1 => log event n ++ (event n).toList

theorem log_succ (event : ℕ → Option α) (n : ℕ) :
    log event (n + 1) = log event n ++ (event n).toList := rfl

theorem log_mono (event : ℕ → Option α) {m n : ℕ} (h : m ≤ n) :
    log event m <+: log event n := by
  induction n, h using Nat.le_induction with
  | base => exact List.prefix_refl _
  | succ n _ ih => exact ih.trans ⟨_, rfl⟩

theorem take_log (event : ℕ → Option α) {m n : ℕ} (h : m ≤ n) :
    (log event n).take (log event m).length = log event m :=
  (List.prefix_iff_eq_take.mp (log_mono event h)).symm

theorem exists_of_log {event : ℕ → Option α} {n k : ℕ} {x : α} (h : (log event n)[k]? = some x) :
    ∃ j < n, event j = some x ∧ (log event j).length = k := by
  induction n with
  | zero => cases h
  | succ n ih =>
    rw [log_succ] at h
    rcases Nat.lt_or_ge k (log event n).length with hlt | hge
    · rw [List.getElem?_append_left hlt] at h
      obtain ⟨j, hj, hx, hlen⟩ := ih h
      exact ⟨j, Nat.lt_succ_of_lt hj, hx, hlen⟩
    · rw [List.getElem?_append_right hge] at h
      cases he : event n with
      | none => simp [he] at h
      | some y =>
        simp only [he, Option.toList_some, List.getElem?_singleton] at h
        split_ifs at h with h0
        exact ⟨n, Nat.lt_succ_self n, he.trans h, by omega⟩

theorem log_congr {e e' : ℕ → Option α} (h : ∀ n, e n = e' n) (n : ℕ) : log e n = log e' n := by
  induction n with
  | zero => rfl
  | succ n ih => rw [log_succ, log_succ, ih, h]

/-- If the `i`-th reply belongs to the first `i + 1` requests, it still does after a tick that
logs a request or not, and a reply that belongs to all of them or none. -/
theorem replies_append {ρ β : Type} {P : List ρ → β → Prop} {requests : List ρ} {replies : List β}
    {request : Option ρ} {reply : Option β} (hle : replies.length ≤ requests.length)
    (hord : ∀ i r, replies[i]? = some r → P (requests.take (i + 1)) r)
    (hnew : ∀ r, reply = some r → (requests ++ request.toList).length ≤ replies.length + 1 ∧
      P (requests ++ request.toList) r) (i : ℕ) (r : β)
    (hi : (replies ++ reply.toList)[i]? = some r) :
    P ((requests ++ request.toList).take (i + 1)) r := by
  rcases Nat.lt_or_ge i replies.length with hlt | hge
  · rw [List.getElem?_append_left hlt] at hi
    rw [List.take_append_of_le_length (by omega)]
    exact hord i r hi
  · rw [List.getElem?_append_right hge] at hi
    have hlast : reply = some r ∧ i - replies.length = 0 := by
      cases reply with
      | none => simp at hi
      | some r' =>
        simp only [Option.toList_some, List.getElem?_singleton] at hi
        split_ifs at hi with h0
        exact ⟨hi, h0⟩
    obtain ⟨hlen, hP⟩ := hnew r hlast.1
    rw [List.take_of_length_le (by omega)]
    exact hP

end CfuPlayground.Lib
