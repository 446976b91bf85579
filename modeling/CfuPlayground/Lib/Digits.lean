import Mathlib.Data.Nat.Digits.Lemmas

/-!
# Numbers by places

The first `k` places of a number, to any base. Numbers below `base ^ k` and lists of `k` digits are
the same thing (`places_ofDigits`, `ofDigits_places`). Two places determine the number they make
(`mul_add_inj`), so rows and columns the index of a cell.
-/

namespace CfuPlayground.Lib

variable {b : ℕ}

/-- The first `k` places of `x` to the base `b`. -/
def places (b k x : ℕ) : List ℕ := (List.range k).map fun i => x / b ^ i % b

@[simp] theorem length_places (k x : ℕ) : (places b k x).length = k := by
  rw [places, List.length_map, List.length_range]

theorem ofDigits_places (k x : ℕ) : Nat.ofDigits b (places b k x) = x % b ^ k := by
  induction k with
  | zero => rw [pow_zero, Nat.mod_one]; rfl
  | succ k ih =>
    rw [Nat.mod_pow_succ, ← ih, places, List.range_succ, List.map_append, Nat.ofDigits_append,
      List.length_map, List.length_range, List.map_singleton, Nat.ofDigits_singleton, places]

theorem place_ofDigits {ds : List ℕ} (hds : ∀ d ∈ ds, d < b) {i : ℕ} (hi : i < ds.length) :
    Nat.ofDigits b ds / b ^ i % b = ds[i] := by
  have hlt : ds[i] < b := hds _ (List.getElem_mem hi)
  rw [Nat.ofDigits_div_pow_eq_ofDigits_drop i (by omega) ds hds, List.drop_eq_getElem_cons hi,
    Nat.ofDigits_cons, Nat.add_mul_mod_self_left, Nat.mod_eq_of_lt hlt]

theorem places_ofDigits {ds : List ℕ} (hds : ∀ d ∈ ds, d < b) :
    places b ds.length (Nat.ofDigits b ds) = ds := by
  apply List.ext_getElem (length_places _ _)
  intro i hi hi'
  rw [← place_ofDigits hds hi']
  simp only [places, List.getElem_map, List.getElem_range]

theorem mul_add_inj {n row column row' column' : ℕ} (hc : column < n) (hc' : column' < n) :
    row * n + column = row' * n + column' ↔ row = row' ∧ column = column' := by
  constructor
  · intro h
    have hcolumn : column = column' := by
      rw [← Nat.mul_add_mod_of_lt hc (a := row), h, Nat.mul_add_mod_of_lt hc']
    subst hcolumn
    exact ⟨Nat.eq_of_mul_eq_mul_right (by omega) (Nat.add_right_cancel h), rfl⟩
  · rintro ⟨rfl, rfl⟩
    rfl

end CfuPlayground.Lib
