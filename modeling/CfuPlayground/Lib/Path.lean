import CfuPlayground.Lib.Client

/-!
# The requests of a client

`p.Issues cs q`: with some answers, the program `p` issues the requests `cs` and comes to `q`.
`wp P Q p h` says of `p`, started after the requests `h`, that each request `c` it can come to
satisfies `P h' c`, with `h'` the requests before it, and each result `Q`. Answers are free.

* `issues_follow`: the path that given answers lead along.
* `wp_bind`, `wp_request`, `wp_ofOption`, `wp_forN`: the rules for programs.
* `wp_issues`: what `wp` says of every path.
-/

namespace CfuPlayground.Lib.Client

variable {ρ β α γ : Type}

/-- **Paths.** -/
inductive Issues (p : Client ρ β α) : List ρ → Client ρ β α → Prop
  | start : Issues p [] p
  | answer {cs : List ρ} {c : ρ} {k : β → Client ρ β α} (h : Issues p cs (call c k)) (r : β) :
    Issues p (cs ++ [c]) (k r)

theorem Issues.cons {c : ρ} {k : β → Client ρ β α} {r : β} {cs : List ρ} {q : Client ρ β α}
    (h : (k r).Issues cs q) : (call c k).Issues (c :: cs) q := by
  induction h with
  | start => exact .answer .start r
  | answer _ r' ih => exact .answer ih r'

/-- The requests that the answers `rs` lead through, and where they lead to. -/
def follow : Client ρ β α → List β → List ρ × Client ρ β α
  | call c k, r :: rs => (c :: ((k r).follow rs).1, ((k r).follow rs).2)
  | p, _ => ([], p)

theorem issues_follow (p : Client ρ β α) (rs : List β) :
    p.Issues (p.follow rs).1 (p.follow rs).2 := by
  induction rs generalizing p with
  | nil => cases p <;> exact .start
  | cons r rs ih =>
    cases p with
    | done a => exact .start
    | abort => exact .start
    | call c k => exact .cons (ih (k r))

@[simp] theorem follow_nil (p : Client ρ β α) : p.follow [] = ([], p) := by cases p <;> rfl

theorem follow_append (p : Client ρ β α) (rs rs' : List β) :
    (p.follow (rs ++ rs')).2 = ((p.follow rs).2.follow rs').2 := by
  induction rs generalizing p with
  | nil => simp
  | cons r rs ih =>
    cases p with
    | done a => cases rs' <;> rfl
    | abort => cases rs' <;> rfl
    | call c k => exact ih (k r)

@[simp] theorem follow_done (a : α) (rs : List β) : (done a : Client ρ β α).follow rs =
    ([], done a) := by cases rs <;> rfl

theorem exists_of_pending {p : Client ρ β α} {c : ρ} (h : p.pending = some c) :
    ∃ k, p = call c k := by
  cases p with
  | done a => cases h
  | abort => cases h
  | call c' k =>
    cases h
    exact ⟨k, rfl⟩

/-- The weakest precondition for requests `P` and results `Q`. -/
def wp (P : List ρ → ρ → Prop) (Q : α → List ρ → Prop) : Client ρ β α → List ρ → Prop
  | done a, h => Q a h
  | abort, _ => True
  | call c k, h => P h c ∧ ∀ r, (k r).wp P Q (h ++ [c])

variable {P : List ρ → ρ → Prop} {Q Q' : α → List ρ → Prop} {h : List ρ}

@[simp] theorem wp_pure (a : α) : (pure a : Client ρ β α).wp P Q h ↔ Q a h := Iff.rfl

@[simp] theorem wp_request {Q : β → List ρ → Prop} (c : ρ) :
    (request c).wp P Q h ↔ P h c ∧ ∀ r, Q r (h ++ [c]) := Iff.rfl

@[simp] theorem wp_ofOption (o : Option α) :
    (ofOption o : Client ρ β α).wp P Q h ↔ ∀ a, o = some a → Q a h := by
  cases o with
  | none => simp [ofOption, wp]
  | some a => simp [ofOption, wp]

theorem wp_mono {p : Client ρ β α} (hp : p.wp P Q h) (hQ : ∀ a h, Q a h → Q' a h) :
    p.wp P Q' h := by
  induction p generalizing h with
  | done a => exact hQ a h hp
  | abort => trivial
  | call c k ih => exact ⟨hp.1, fun r => ih r (hp.2 r)⟩

@[simp] theorem wp_bind {Q : γ → List ρ → Prop} (p : Client ρ β α) (f : α → Client ρ β γ) :
    (p >>= f).wp P Q h ↔ p.wp P (fun a h => (f a).wp P Q h) h := by
  show (p.bind f).wp P Q h ↔ _
  induction p generalizing h with
  | done a => exact Iff.rfl
  | abort => exact Iff.rfl
  | call c k ih => exact and_congr_right fun _ => forall_congr' fun r => ih r

/-- **Loops.** An invariant of the rounds. -/
theorem wp_forN {n : ℕ} {f : ℕ → α → Client ρ β α} (I : ℕ → α → List ρ → Prop)
    (hstep : ∀ i < n, ∀ b h, I i b h → (f i b).wp P (I (i + 1)) h) {b : α} (h0 : I 0 b h) :
    (forN n f b).wp P (I n) h := by
  induction n with
  | zero => exact h0
  | succ n ih =>
    rw [forN_succ, wp_bind]
    exact wp_mono (ih fun i hi => hstep i (Nat.lt_succ_of_lt hi)) (hstep n (Nat.lt_succ_self n))

/-- **Every path** of a program keeps its precondition. -/
theorem wp_issues {p q : Client ρ β α} {cs : List ρ} (hp : p.wp P Q h) (hq : p.Issues cs q) :
    q.wp P Q (h ++ cs) := by
  induction hq with
  | start => rwa [List.append_nil]
  | answer _ r ih =>
    rw [← List.append_assoc]
    exact ih.2 r

end CfuPlayground.Lib.Client
