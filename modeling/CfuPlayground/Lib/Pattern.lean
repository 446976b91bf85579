import Mathlib.Tactic

/-!
# Bit patterns

A decoder tests a word against masks: `x &&& mask = value`. What follows from a pattern depends
on the masks and values only, so it is decided by evaluation (`Refines`, `Clashes`), for a single
pattern and for a disjunction of them (`Matches.any_of`, `Matches.not_any`, `not_any_of_any`,
`Matches.any_eq`).
-/

namespace CfuPlayground.Lib

/-- The bits of `mask` are those of `value`. -/
structure Pattern (w : ℕ) where
  mask : BitVec w
  value : BitVec w
deriving DecidableEq

namespace Pattern

variable {w : ℕ} {p q : Pattern w} {ps : List (Pattern w)} {x : BitVec w}

def Matches (p : Pattern w) (x : BitVec w) : Prop := x &&& p.mask = p.value

instance (p : Pattern w) (x : BitVec w) : Decidable (p.Matches x) :=
  inferInstanceAs (Decidable (_ = _))

/-- One of the patterns matches. -/
def any (ps : List (Pattern w)) (x : BitVec w) : Bool := ps.any fun p => p.Matches x

theorem any_iff : any ps x = true ↔ ∃ p ∈ ps, p.Matches x := by
  simp [any]

/-- `q` asks for nothing that `p` does not ask for. -/
def Refines (p q : Pattern w) : Prop := p.mask &&& q.mask = q.mask ∧ p.value &&& q.mask = q.value

instance (p q : Pattern w) : Decidable (p.Refines q) := inferInstanceAs (Decidable (_ ∧ _))

/-- A bit that both patterns fix, differently. -/
def Clashes (p q : Pattern w) : Prop := p.value &&& q.mask ≠ q.value &&& p.mask

instance (p q : Pattern w) : Decidable (p.Clashes q) := inferInstanceAs (Decidable (_ ≠ _))

theorem Matches.refine (h : p.Matches x) (hpq : p.Refines q) : q.Matches x := by
  obtain ⟨hm, hv⟩ := hpq
  calc x &&& q.mask = x &&& (p.mask &&& q.mask) := by rw [hm]
    _ = p.value &&& q.mask := by rw [← BitVec.and_assoc, h]
    _ = q.value := hv

theorem Matches.not_of_clashes (h : p.Matches x) (hpq : p.Clashes q) : ¬ q.Matches x := by
  intro hq
  refine hpq ?_
  calc p.value &&& q.mask = x &&& p.mask &&& q.mask := by rw [h]
    _ = x &&& q.mask &&& p.mask := by rw [BitVec.and_assoc, BitVec.and_comm p.mask,
        BitVec.and_assoc]
    _ = q.value &&& p.mask := by rw [hq]

theorem Matches.any_of (h : p.Matches x) (hps : ∃ q ∈ ps, p.Refines q) : any ps x = true := by
  obtain ⟨q, hq, hpq⟩ := hps
  exact any_iff.mpr ⟨q, hq, h.refine hpq⟩

theorem Matches.not_any (h : p.Matches x) (hps : ∀ q ∈ ps, p.Clashes q) : any ps x = false := by
  by_contra hany
  obtain ⟨q, hq, hx⟩ := any_iff.mp (by simpa using hany)
  exact h.not_of_clashes (hps q hq) hx

/-- Of a list only `q` is left, if the others clash with a pattern that matches. -/
theorem Matches.only (h : p.Matches x) (hany : any ps x = true)
    (hps : ∀ r ∈ ps, r = q ∨ p.Clashes r) : q.Matches x := by
  obtain ⟨r, hr, hx⟩ := any_iff.mp hany
  rcases hps r hr with rfl | hc
  · exact hx
  · exact absurd hx (h.not_of_clashes hc)

/-- `p` leaves none of a list open. -/
def Decides (p : Pattern w) (ps : List (Pattern w)) : Prop := ∀ q ∈ ps, p.Refines q ∨ p.Clashes q

instance (p : Pattern w) (ps : List (Pattern w)) : Decidable (p.Decides ps) :=
  inferInstanceAs (Decidable (∀ q ∈ ps, p.Refines q ∨ p.Clashes q))

theorem Matches.any_eq (h : p.Matches x) (hps : p.Decides ps) : any ps x = any ps p.value := by
  have hvalue : p.Matches p.value := by
    unfold Matches at h ⊢
    rw [← h, BitVec.and_assoc, BitVec.and_self]
  rw [Bool.eq_iff_iff, any_iff, any_iff]
  refine exists_congr fun q => and_congr_right fun hq => ?_
  rcases hps q hq with hr | hc
  · exact iff_of_true (h.refine hr) (hvalue.refine hr)
  · exact iff_of_false (h.not_of_clashes hc) (hvalue.not_of_clashes hc)

/-- What both patterns ask for. -/
def meet (p q : Pattern w) : Pattern w := ⟨p.mask ||| q.mask, p.value ||| q.value⟩

theorem Matches.meet (hp : p.Matches x) (hq : q.Matches x) : (p.meet q).Matches x := by
  unfold Matches at hp hq ⊢
  rw [Pattern.meet, BitVec.and_or_distrib_left, hp, hq]

/-- The pairs of two lists that do not clash. -/
def both (ps qs : List (Pattern w)) : List (Pattern w) :=
  ps.flatMap fun p => (qs.filter fun q => ¬ p.Clashes q).map p.meet

theorem any_both {ps qs : List (Pattern w)} (hp : any ps x = true) (hq : any qs x = true) :
    any (both ps qs) x = true := by
  obtain ⟨p, hps, hpx⟩ := any_iff.mp hp
  obtain ⟨q, hqs, hqx⟩ := any_iff.mp hq
  have hc : ¬ p.Clashes q := fun hc => hpx.not_of_clashes hc hqx
  refine any_iff.mpr ⟨p.meet q, ?_, hpx.meet hqx⟩
  simp only [both, List.mem_flatMap, List.mem_map, List.mem_filter]
  exact ⟨p, hps, q, ⟨hqs, by simpa using hc⟩, rfl⟩

theorem any_of_any {ps qs : List (Pattern w)} (hp : any ps x = true)
    (h : ∀ p ∈ ps, ∃ q ∈ qs, p.Refines q) : any qs x = true := by
  obtain ⟨p, hps, hpx⟩ := any_iff.mp hp
  exact hpx.any_of (h p hps)

theorem not_any_of_any {ps qs : List (Pattern w)} (hp : any ps x = true)
    (h : ∀ p ∈ ps, ∀ q ∈ qs, p.Clashes q) : any qs x = false := by
  obtain ⟨p, hps, hpx⟩ := any_iff.mp hp
  exact hpx.not_any (h p hps)

end Pattern

end CfuPlayground.Lib
