import Mathlib.Tactic

/-!
# Counted loops in a monad

`forN n f b` is `for (i = 0; i < n; ++i) b = f(i, b)`; it is a `foldlM` (`forN_eq_foldlM`), and a
loop of `k * c` rounds is a loop of `k` blocks of `c` rounds (`forN_mul`). For loops that may
fail, that is in `Option`:

* `forN_sim`: a relation between two loop states that each successful round keeps is kept by the
  loops;
* `forN_rel`: the same when the rounds fail together;
* `forN_sum`: a loop that adds to its state;
* `foldlM_emit`: a loop that appends one entry a round.

`getElem?_flatMap` finds an entry of a list of blocks of equal length.
-/

namespace CfuPlayground.Lib

section Monad

variable {m : Type → Type} [Monad m] {β : Type}

/-- `n` rounds of `f`, counted from 0. -/
def forN : ℕ → (ℕ → β → m β) → β → m β
  | 0, _, b => pure b
  | n + 1, f, b => forN n f b >>= f n

@[simp] theorem forN_zero (f : ℕ → β → m β) (b : β) : forN 0 f b = pure b := rfl

theorem forN_succ (n : ℕ) (f : ℕ → β → m β) (b : β) :
    forN (n + 1) f b = forN n f b >>= f n := rfl

variable [LawfulMonad m]

theorem forN_add (k n : ℕ) (f : ℕ → β → m β) (b : β) :
    forN (k + n) f b = forN k f b >>= forN n fun i => f (k + i) := by
  induction n with
  | zero => exact (bind_pure _).symm
  | succ n ih =>
    rw [← Nat.add_assoc, forN_succ, ih, bind_assoc]
    rfl

/-- **Blocks.** A loop of `k * c` rounds runs `k` blocks of `c` rounds. -/
theorem forN_mul (k c : ℕ) (f : ℕ → β → m β) (b : β) :
    forN (k * c) f b = forN k (fun j => forN c fun i => f (j * c + i)) b := by
  induction k with
  | zero => simp
  | succ k ih =>
    rw [Nat.add_one_mul, forN_add, ih]
    rfl

theorem forN_eq_foldlM (n : ℕ) (f : ℕ → β → m β) (b : β) :
    forN n f b = (List.range n).foldlM (fun b i => f i b) b := by
  induction n with
  | zero => rfl
  | succ n ih => simp [forN_succ, ih, List.range_succ]

theorem foldlM_flatMap {α α' : Type} (l : List α) (h : α → List α') (f : β → α' → m β) (b : β) :
    (l.flatMap h).foldlM f b = l.foldlM (fun b x => (h x).foldlM f b) b := by
  induction l generalizing b with
  | nil => rfl
  | cons x l ih =>
    rw [List.flatMap_cons, List.foldlM_append, List.foldlM_cons]
    congr 1
    funext b
    exact ih b

end Monad

/-- **A loop that appends** an entry for each element, which may depend on the index. -/
theorem foldlM_emit {α β : Type} (entry : ℕ → α → Option β) (l : List α) (r : List β) :
    l.foldlM (fun out x => (entry out.length x).map fun e => out ++ [e]) [] = some r ↔
      l.mapIdx entry = r.map some := by
  induction l using List.reverseRecOn generalizing r with
  | nil =>
    constructor
    · rintro ⟨⟩
      rfl
    · intro h
      rw [List.map_eq_nil_iff.mp h.symm]
      rfl
  | append_singleton l x ih =>
    have hlast : ∀ out : List β, [x].foldlM
        (fun out x => (entry out.length x).map fun e => out ++ [e]) out =
          (entry out.length x).map fun e => out ++ [e] := fun out => bind_pure (m := Option) _
    rw [List.foldlM_append, List.mapIdx_concat]
    constructor
    · intro h
      obtain ⟨out, hout, hx⟩ := Option.bind_eq_some_iff.mp h
      have hl := (ih out).mp hout
      have hlen : l.length = out.length := by simpa using congrArg List.length hl
      rw [hlast] at hx
      obtain ⟨e, he, rfl⟩ := Option.map_eq_some_iff.mp hx
      rw [hl, hlen, he, List.map_append, List.map_singleton]
    · intro h
      obtain ⟨out, es, rfl, hl, hes⟩ := List.map_eq_append_iff.mp h.symm
      obtain ⟨e, rfl, he⟩ := List.map_eq_singleton_iff.mp hes
      have hlen : l.length = out.length := by simpa using congrArg List.length hl.symm
      refine Option.bind_eq_some_iff.mpr ⟨out, (ih out).mpr hl.symm, ?_⟩
      rw [hlast, ← hlen, ← he]
      rfl

/-! ## Blocks of a list -/

theorem block_lt {i n j c : ℕ} (hi : i < n) (hj : j < c) : i * c + j < n * c :=
  calc i * c + j < i * c + c := Nat.add_lt_add_left hj _
    _ = (i + 1) * c := (Nat.succ_mul i c).symm
    _ ≤ n * c := Nat.mul_le_mul_right c hi

theorem getElem?_flatMap {α α' : Type} {F : α → List α'} {c : ℕ} (hF : ∀ x, (F x).length = c)
    (l : List α) (i : ℕ) {j : ℕ} (hj : j < c) :
    (l.flatMap F)[i * c + j]? = l[i]?.bind fun x => (F x)[j]? := by
  induction l generalizing i with
  | nil => rfl
  | cons x l ih =>
    rw [List.flatMap_cons]
    cases i with
    | zero => rw [Nat.zero_mul, Nat.zero_add, List.getElem?_append_left (by rwa [hF])]; rfl
    | succ i =>
      have hlen : (F x).length ≤ (i + 1) * c + j := by
        rw [hF, Nat.succ_mul]
        omega
      have hsub : (i + 1) * c + j - c = i * c + j := by
        rw [Nat.succ_mul]
        omega
      rw [List.getElem?_append_right hlen, hF, hsub, ih]
      rfl

theorem length_flatMap_of {α α' : Type} {F : α → List α'} {c : ℕ} (hF : ∀ x, (F x).length = c)
    (l : List α) : (l.flatMap F).length = l.length * c := by
  rw [List.length_flatMap]
  simp [hF]

/-! ## Loops that may fail -/

section Fallible

variable {β γ : Type} {n : ℕ} {f : ℕ → β → Option β} {g : ℕ → γ → Option γ}

/-- **Simulation.** If the first loop succeeds and each of its rounds is matched by a round of
the second, then the second loop succeeds and the final states are related. -/
theorem forN_sim (R : ℕ → β → γ → Prop)
    (hstep : ∀ i < n, ∀ b c b', R i b c → f i b = some b' → ∃ c', g i c = some c' ∧ R (i + 1) b' c')
    {b : β} {c : γ} {b' : β} (h0 : R 0 b c) (h : forN n f b = some b') :
    ∃ c', forN n g c = some c' ∧ R n b' c' := by
  induction n generalizing b' with
  | zero =>
    cases h
    exact ⟨c, rfl, h0⟩
  | succ n ih =>
    obtain ⟨b₁, hb₁, hb'⟩ := Option.bind_eq_some_iff.mp h
    obtain ⟨c₁, hc₁, hR⟩ := ih (fun i hi => hstep i (Nat.lt_succ_of_lt hi)) hb₁
    obtain ⟨c', hc', hR'⟩ := hstep n (Nat.lt_succ_self n) b₁ c₁ b' hR hb'
    exact ⟨c', Option.bind_eq_some_iff.mpr ⟨c₁, hc₁, hc'⟩, hR'⟩

theorem forN_round {b b' : β} (h : forN n f b = some b') {i : ℕ} (hi : i < n) :
    ∃ b₁ b₂, forN i f b = some b₁ ∧ f i b₁ = some b₂ := by
  induction n generalizing b' with
  | zero => omega
  | succ n ih =>
    obtain ⟨b₁, hb₁, hb'⟩ := Option.bind_eq_some_iff.mp h
    rcases Nat.lt_succ_iff_lt_or_eq.mp hi with hlt | rfl
    · exact ih hb₁ hlt
    · exact ⟨b₁, b', hb₁, hb'⟩

/-- Two computations that fail together, followed by two that do on related results. -/
theorem rel_bind {β' γ' : Type} {R : β → γ → Prop} {S : β' → γ' → Prop} {x : Option β}
    {y : Option γ} {k : β → Option β'} {l : γ → Option γ'} (h : Option.Rel R x y)
    (hkl : ∀ b c, R b c → Option.Rel S (k b) (l c)) : Option.Rel S (x >>= k) (y >>= l) := by
  cases h with
  | some hbc => exact hkl _ _ hbc
  | none => exact .none

theorem rel_mono {R S : β → γ → Prop} {x : Option β} {y : Option γ} (h : Option.Rel R x y)
    (hRS : ∀ b c, R b c → S b c) : Option.Rel S x y := by
  cases h with
  | some hbc => exact .some (hRS _ _ hbc)
  | none => exact .none

theorem eq_map_of_rel {R : β → γ → Prop} {x : Option β} {y : Option γ} {k : γ → β}
    (h : Option.Rel R x y) (hR : ∀ b c, R b c → k c = b) : x = y.map k := by
  cases h with
  | some hbc => rw [Option.map_some, hR _ _ hbc]
  | none => rfl

/-- **Simulation both ways.** If the rounds of two loops fail together and keep a relation, then
so do the loops. -/
theorem forN_rel (R : ℕ → β → γ → Prop)
    (hstep : ∀ i < n, ∀ b c, R i b c → Option.Rel (R (i + 1)) (f i b) (g i c)) {b : β} {c : γ}
    (h0 : R 0 b c) : Option.Rel (R n) (forN n f b) (forN n g c) := by
  induction n with
  | zero => exact .some h0
  | succ n ih =>
    exact rel_bind (ih fun i hi => hstep i (Nat.lt_succ_of_lt hi))
      (hstep n (Nat.lt_succ_self n))

theorem forN_sum {M : Type} [AddCommMonoid M] {f : ℕ → M → Option M} (term : ℕ → M)
    (hf : ∀ i < n, ∀ b, f i b = some (b + term i)) (b : M) :
    forN n f b = some (b + ∑ i ∈ Finset.range n, term i) := by
  induction n with
  | zero => simp
  | succ n ih =>
    rw [forN_succ, ih fun i hi => hf i (Nat.lt_succ_of_lt hi), Finset.sum_range_succ, ← add_assoc]
    exact hf n (Nat.lt_succ_self n) _

end Fallible

end CfuPlayground.Lib
