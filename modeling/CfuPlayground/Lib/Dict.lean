import Mathlib.Data.List.Nodup

/-!
# Dictionaries in insertion order

An association list whose keys are distinct. Setting a key that is present keeps its place, a new
key goes to the end (`keys_set_of_mem`, `mem_keys_set`, `get?_set`). The items are the keys with
their values (`items_eq`).
-/

namespace CfuPlayground.Lib

/-- A dictionary that remembers the order in which its keys were set first. -/
structure Dict (κ ν : Type) where
  items : List (κ × ν)
  nodup : (items.map Prod.fst).Nodup

namespace Dict

variable {κ ν : Type} [DecidableEq κ]

/-- The keys, in order. -/
def keys (d : Dict κ ν) : List κ := d.items.map Prod.fst

/-- The value of `k`, if there is one. -/
def get? (d : Dict κ ν) (k : κ) : Option ν := d.items.lookup k

/-- Put `v` in the place of the value of `k`. -/
def replace (k : κ) (v : ν) (l : List (κ × ν)) : List (κ × ν) :=
  l.map fun p => if p.1 = k then (k, v) else p

theorem map_fst_replace (k : κ) (v : ν) (l : List (κ × ν)) :
    (replace k v l).map Prod.fst = l.map Prod.fst := by
  rw [replace, List.map_map]
  apply List.map_congr_left
  intro p _
  by_cases h : p.1 = k
  · rw [Function.comp_apply, if_pos h, h]
  · rw [Function.comp_apply, if_neg h]

/-- `d[k] = v`. -/
def set (d : Dict κ ν) (k : κ) (v : ν) : Dict κ ν :=
  if h : k ∈ d.items.map Prod.fst then
    ⟨replace k v d.items, by rw [map_fst_replace]; exact d.nodup⟩
  else
    ⟨d.items ++ [(k, v)], by
      rw [List.map_append, List.map_singleton]
      exact d.nodup.append (List.nodup_singleton k) (by simpa using h)⟩

variable {d : Dict κ ν} {k : κ}

theorem keys_set_of_mem (h : k ∈ d.items.map Prod.fst) (v : ν) : (d.set k v).keys = d.keys := by
  unfold set
  rw [dif_pos h]
  exact map_fst_replace k v d.items

theorem mem_keys_set {k' : κ} (v : ν) : k' ∈ (d.set k v).keys ↔ k' = k ∨ k' ∈ d.keys := by
  by_cases h : k ∈ d.items.map Prod.fst
  · rw [keys_set_of_mem h]
    exact ⟨Or.inr, fun hk' => hk'.elim (fun e => e ▸ h) id⟩
  · unfold set
    rw [dif_neg h]
    simp [keys, or_comm]

theorem lookup_replace_self (v : ν) {l : List (κ × ν)} (h : k ∈ l.map Prod.fst) :
    (replace k v l).lookup k = some v := by
  induction l with
  | nil => cases h
  | cons p l ih =>
    rw [replace, List.map_cons]
    by_cases hp : p.1 = k
    · rw [if_pos hp, List.lookup_cons_self]
    · have hne : (k == p.1) = false := beq_false_of_ne (Ne.symm hp)
      rw [if_neg hp, List.lookup_cons, hne]
      apply ih
      exact (List.mem_cons.mp h).resolve_left (Ne.symm hp)

theorem lookup_replace_of_ne {k' : κ} (hk' : k' ≠ k) (v : ν) (l : List (κ × ν)) :
    (replace k v l).lookup k' = l.lookup k' := by
  induction l with
  | nil => rfl
  | cons p l ih =>
    rw [replace, List.map_cons]
    by_cases hp : p.1 = k
    · have hne : (k' == k) = false := beq_false_of_ne hk'
      rw [if_pos hp, List.lookup_cons, List.lookup_cons, hp, hne]
      exact ih
    · rw [if_neg hp, List.lookup_cons, List.lookup_cons]
      cases k' == p.1 with
      | true => rfl
      | false => exact ih

theorem lookup_eq_none {l : List (κ × ν)} (h : k ∉ l.map Prod.fst) : l.lookup k = none := by
  rw [List.lookup_eq_none_iff]
  intro p hp
  exact bne_iff_ne.mpr fun e => h (List.mem_map.mpr ⟨p, hp, e.symm⟩)

theorem get?_set (k' : κ) (v : ν) :
    (d.set k v).get? k' = if k' = k then some v else d.get? k' := by
  by_cases h : k ∈ d.items.map Prod.fst
  · rw [set, dif_pos h]
    by_cases hk' : k' = k
    · rw [if_pos hk', hk', get?, lookup_replace_self v h]
    · rw [if_neg hk', get?, lookup_replace_of_ne hk', get?]
  · rw [set, dif_neg h]
    by_cases hk' : k' = k
    · rw [if_pos hk', hk', get?, List.lookup_append, lookup_eq_none h, Option.none_or,
        List.lookup_cons_self]
    · have hne : (k' == k) = false := beq_false_of_ne hk'
      rw [if_neg hk', get?, List.lookup_append, List.lookup_cons, hne, List.lookup_nil,
        Option.or_none, get?]

theorem lookup_of_mem {l : List (κ × ν)} (hl : (l.map Prod.fst).Nodup) {p : κ × ν} (hp : p ∈ l) :
    l.lookup p.1 = some p.2 := by
  induction l with
  | nil => cases hp
  | cons q l ih =>
    rw [List.map_cons, List.nodup_cons] at hl
    rcases List.mem_cons.mp hp with rfl | hp
    · exact List.lookup_cons_self
    · have hne : (p.1 == q.1) = false :=
        beq_false_of_ne fun e => hl.1 (e ▸ List.mem_map_of_mem hp)
      rw [List.lookup_cons, hne]
      exact ih hl.2 hp

/-- **The items are the keys with their values.** -/
theorem items_eq (d : Dict κ ν) (v₀ : ν) :
    d.items = d.keys.map fun k => (k, (d.get? k).getD v₀) := by
  rw [keys, List.map_map]
  refine (List.map_id d.items).symm.trans (List.map_congr_left fun p hp => ?_)
  rw [Function.comp_apply, get?, lookup_of_mem d.nodup hp]
  rfl

end Dict

end CfuPlayground.Lib
