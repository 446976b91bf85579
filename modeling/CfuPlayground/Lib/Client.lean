import CfuPlayground.Lib.Loop

/-!
# Programs that call a server

A `Client` is a program that stops now and then to send a request and goes on with the answer.
`eval respond` runs it against a server whose answers and states are given by `respond`; a
request without an answer, like an aborted check, leaves it without a result.

* `eval_bind`, `eval_ofOption`, `eval_forN`: `eval` takes programs to partial functions of the
  server's state.
-/

namespace CfuPlayground.Lib

/-- A program with requests `ρ`, answers `β` and result `α`. -/
inductive Client (ρ β α : Type)
  | done (a : α)
  | abort
  | call (request : ρ) (next : β → Client ρ β α)

namespace Client

variable {ρ β α γ A : Type}

/-- Sequencing. -/
def bind : Client ρ β α → (α → Client ρ β γ) → Client ρ β γ
  | done a, f => f a
  | abort, _ => abort
  | call c k, f => call c fun r => (k r).bind f

instance : Monad (Client ρ β) where
  pure := done
  bind := bind

/-- One request. -/
def request (c : ρ) : Client ρ β β := call c done

/-- A check, or a computation that may abort. -/
def ofOption : Option α → Client ρ β α
  | some a => done a
  | none => abort

/-- The request a program has stopped at. -/
def pending : Client ρ β α → Option ρ
  | call c _ => some c
  | _ => none

/-- A program after an answer, if there is one. -/
def resume : Client ρ β α → Option β → Client ρ β α
  | call _ k, some r => k r
  | p, _ => p

@[simp] theorem resume_none (p : Client ρ β α) : p.resume none = p := by cases p <;> rfl

/-- **Evaluation** against the server `respond`. -/
def eval (respond : A → ρ → Option (β × A)) : Client ρ β α → A → Option (α × A)
  | done a, s => some (a, s)
  | abort, _ => none
  | call c k, s => (respond s c).bind fun r => (k r.1).eval respond r.2

variable {respond : A → ρ → Option (β × A)}

/-- A program with a value that has not ended has come to a request with an answer. -/
theorem exists_call {p : Client ρ β α} {c : ρ} {a : α} {s s' : A} (hp : p.pending = some c)
    (he : p.eval respond s = some (a, s')) : ∃ k r s₁, p = call c k ∧
      respond s c = some (r, s₁) ∧ (k r).eval respond s₁ = some (a, s') := by
  cases p with
  | done _ => cases hp
  | abort => cases hp
  | call c k =>
    cases hp
    obtain ⟨⟨r, s₁⟩, hr, he⟩ := Option.bind_eq_some_iff.mp he
    exact ⟨k, r, s₁, rfl, hr, he⟩

@[simp] theorem eval_pure (a : α) (s : A) :
    (pure a : Client ρ β α).eval respond s = some (a, s) := rfl

@[simp] theorem eval_request (c : ρ) (s : A) :
    (request c : Client ρ β β).eval respond s = respond s c := by
  simp only [request, eval]
  cases respond s c <;> rfl

@[simp] theorem eval_ofOption (o : Option α) (s : A) :
    (ofOption o : Client ρ β α).eval respond s = o.map fun a => (a, s) := by
  cases o <;> rfl

@[simp] theorem eval_bind (p : Client ρ β α) (f : α → Client ρ β γ) (s : A) :
    (p >>= f).eval respond s = (p.eval respond s).bind fun r => (f r.1).eval respond r.2 := by
  show (p.bind f).eval respond s = _
  induction p generalizing s with
  | done a => rfl
  | abort => rfl
  | call c k ih =>
    simp only [bind, eval]
    cases h : respond s c with
    | none => rfl
    | some r => exact ih r.1 r.2

theorem eval_forN (n : ℕ) (f : ℕ → α → Client ρ β α) (b : α) (s : A) :
    (forN n f b).eval respond s =
      forN n (fun i (p : α × A) => (f i p.1).eval respond p.2) (b, s) := by
  induction n with
  | zero => rfl
  | succ n ih =>
    rw [forN_succ, eval_bind, ih, forN_succ]
    rfl

end Client

end CfuPlayground.Lib
