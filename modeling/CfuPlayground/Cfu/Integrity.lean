import CfuPlayground.Cfu.Answer

/-!
# Responses under back-pressure

A client that does not wait for a response may offer its next command while the response is
still on the wires. `Integrity` is what it relies on then: one response for each accepted
command, in order, and a response that stays until it is taken.

Both CFUs raise `rsp_valid` from a state that lasts one period, in which the command is not yet
accepted (`busy`). `Pipelined` lists what a CFU has to do for this to work out, an invariant `J`
on registers and wires and a condition `Good` on the periods; `Pipelined.integrity` is the rule.
-/

namespace CfuPlayground

open Lib

variable {σ : Type}

/-- `result cs` is the response due to the last of the commands `cs`. -/
structure Integrity (G : Gateware σ) (result : List Command → Option Word) (moves : ℕ → Moves)
    (soc : ℕ → Soc σ) : Prop where
  /-- The `i`-th response belongs to the `i`-th command, which has been accepted. -/
  ordered : ∀ n i r, (soc n).responses[i]? = some r →
    i < (soc n).accepted.length ∧ result ((soc n).accepted.take (i + 1)) = some r
  /-- With a client that is ready again and again every accepted command is answered. -/
  answered : (Infinitely fun n => (moves n).rspReady = true) →
    ∀ n, ∃ m, n ≤ m ∧ (soc n).accepted.length ≤ (soc m).responses.length
  /-- A response that is not taken stays. -/
  stable : ∀ n, (G.out ((soc n).mid G (moves n))).rspValid = true → (moves n).rspReady = false →
    (G.out ((soc (n + 1)).mid G (moves (n + 1)))).rspValid = true ∧
      (G.out ((soc (n + 1)).mid G (moves (n + 1)))).rspPayloadOutputs0 =
        (G.out ((soc n).mid G (moves n))).rspPayloadOutputs0

/-- A CFU that keeps `J` in the periods that are `Good`. -/
structure Pipelined (G : Gateware σ) (mem : Memory) (result : List Command → Option Word)
    (busy : σ → Bool) (J : Soc σ → Prop) (Good : Moves → Soc σ → Prop) : Prop where
  valid_mid : ∀ (m : Moves) (s : Soc σ), (G.out (s.mid G m)).rspValid = (G.out s.cfu).rspValid
  valid_tick : ∀ (m : Moves) (s : Soc σ), (G.out (s.tick G mem false m).cfu).rspValid =
    if (G.out s.cfu).rspValid then !m.rspReady else busy (s.mid G m)
  busy_tick : ∀ (m : Moves) (s : Soc σ), busy (s.tick G mem false m).cfu = busy (s.mid G m)
  /-- In a good period no command completes under a response. -/
  apart : ∀ (m : Moves) (s : Soc σ), Good m s → busy (s.mid G m) = true → (G.out s.cfu).rspValid = false
  step : ∀ (m : Moves) (s : Soc σ), J s → Good m s → J (s.tick G mem false m)
  accepts : ∀ (m : Moves) (s : Soc σ), J s → s.accepts G m = if busy s.cfu then s.offer else none
  offers : ∀ s : Soc σ, J s → busy s.cfu = true → s.offer.isSome = true
  leaves : ∀ (m : Moves) (s : Soc σ), J s → busy s.cfu = true → busy (s.mid G m) = false
  payload : ∀ (m : Moves) (s : Soc σ), J s → (G.out s.cfu).rspValid = true → Good m s →
    result (s.accepted ++ (s.accepts G m).toList) =
      some (G.out (s.mid G m)).rspPayloadOutputs0

/-- The two channels: what is accepted and not yet answered is on the wires. -/
structure Balanced (G : Gateware σ) (result : List Command → Option Word) (busy : σ → Bool)
    (s : Soc σ) : Prop where
  length : s.accepted.length + (busy s.cfu).toNat =
    s.responses.length + (G.out s.cfu).rspValid.toNat
  valid : busy s.cfu = true → (G.out s.cfu).rspValid = true
  ordered : ∀ i r, s.responses[i]? = some r → result (s.accepted.take (i + 1)) = some r

variable {G : Gateware σ} {mem : Memory} {result : List Command → Option Word} {busy : σ → Bool}
  {J : Soc σ → Prop} {Good : Moves → Soc σ → Prop} {m : Moves} {s : Soc σ}

theorem Pipelined.transfers (hP : Pipelined G mem result busy J Good) :
    s.transfers G m = if (G.out s.cfu).rspValid && m.rspReady then
      some (G.out (s.mid G m)).rspPayloadOutputs0 else none := by
  unfold Soc.transfers
  rw [hP.valid_mid]

theorem balanced_start {c : σ} (hb : busy c = false) (hv : (G.out c).rspValid = false) :
    Balanced G result busy (Soc.start c) := by
  refine ⟨?_, fun h => ?_, fun i r h => by cases h⟩
  · show 0 + (busy c).toNat = 0 + (G.out c).rspValid.toNat
    rw [hb, hv]
  · rw [show busy c = true from h] at hb
    cases hb

theorem Pipelined.length_accepts (hP : Pipelined G mem result busy J Good) (hJ : J s) :
    (s.accepts G m).toList.length = (busy s.cfu).toNat := by
  rw [hP.accepts m s hJ]
  cases hb : busy s.cfu with
  | false => rfl
  | true =>
    obtain ⟨c, hc⟩ := Option.isSome_iff_exists.mp (hP.offers s hJ hb)
    rw [if_pos rfl, hc]
    rfl

theorem Balanced.busy_le (h : Balanced G result busy s) :
    (busy s.cfu).toNat ≤ (G.out s.cfu).rspValid.toNat := by
  cases hb : busy s.cfu
  · exact Nat.zero_le _
  · rw [h.valid hb]

theorem Balanced.length_le (h : Balanced G result busy s) :
    s.responses.length ≤ s.accepted.length ∧
      s.accepted.length ≤ s.responses.length + (G.out s.cfu).rspValid.toNat := by
  have hlen := h.length
  have hbv := h.busy_le
  omega

/-- **Step lemma.** -/
theorem Pipelined.balanced_tick (hP : Pipelined G mem result busy J Good) (hJ : J s)
    (hgood : Good m s) (h : Balanced G result busy s) :
    Balanced G result busy (s.tick G mem false m) := by
  have hle := h.length_le.1
  have hbusy := h.busy_le
  obtain ⟨hlen, hvalid, hord⟩ := h
  have hacc := hP.length_accepts (m := m) hJ
  have htr := hP.transfers (m := m) (s := s)
  have hlacc : (s.tick G mem false m).accepted = s.accepted ++ (s.accepts G m).toList := rfl
  have hlrsp : (s.tick G mem false m).responses = s.responses ++ (s.transfers G m).toList := rfl
  have happart := hP.apart m s hgood
  have hleaves := hP.leaves m s hJ
  refine ⟨?_, ?_, ?_⟩
  · rw [hlacc, hlrsp, List.length_append, List.length_append, hacc, htr, hP.valid_tick,
      hP.busy_tick]
    cases hv : (G.out s.cfu).rspValid <;> cases hb : busy s.cfu <;>
      cases hb' : busy (s.mid G m) <;> cases hr : m.rspReady <;>
      simp_all
  · intro hb
    rw [hP.busy_tick] at hb
    rw [hP.valid_tick, happart hb, hb]
    rfl
  · rw [hlacc, hlrsp]
    refine replies_append (P := fun cs r => result cs = some r) hle hord fun r hr => ?_
    rw [htr] at hr
    split_ifs at hr with hready
    obtain ⟨hv, -⟩ := Bool.and_eq_true_iff.mp hready
    refine ⟨?_, (hP.payload m s hJ hv hgood).trans hr⟩
    rw [List.length_append, hacc, hlen, hv]
    rfl

variable {moves : ℕ → Moves}

/-- **Run lemma.** -/
theorem Pipelined.balanced_run (hP : Pipelined G mem result busy J Good) (hJ : J s)
    (h : Balanced G result busy s) (hgood : ∀ n, Good (moves n) (Soc.run G mem false moves s n))
    (n : ℕ) : J (Soc.run G mem false moves s n) ∧
      Balanced G result busy (Soc.run G mem false moves s n) := by
  refine run_invariant_of (P := fun s => J s ∧ Balanced G result busy s) ⟨hJ, h⟩ ?_ n
  rintro n ⟨hJ, h⟩
  exact ⟨hP.step _ _ hJ (hgood n), hP.balanced_tick hJ (hgood n) h⟩

theorem Pipelined.answered (hP : Pipelined G mem result busy J Good) (hJ : J s)
    (h : Balanced G result busy s) (hgood : ∀ n, Good (moves n) (Soc.run G mem false moves s n))
    (hready : Infinitely fun n => (moves n).rspReady = true) (n : ℕ) :
    ∃ m, n ≤ m ∧ (Soc.run G mem false moves s n).accepted.length ≤
      (Soc.run G mem false moves s m).responses.length := by
  set soc := Soc.run G mem false moves s with hsoc
  have hrun : ∀ n, J (soc n) ∧ Balanced G result busy (soc n) := hP.balanced_run hJ h hgood
  by_cases hdone : (soc n).accepted.length ≤ (soc n).responses.length
  · exact ⟨n, le_rfl, hdone⟩
  obtain ⟨m, hm, hrm⟩ := hready n
  refine ⟨m + 1, by omega, ?_⟩
  have hacc : (soc n).accepted.length ≤ (soc m).accepted.length := Soc.accepted_mono hm
  have hnrsp : (soc n).responses.length ≤ (soc m).responses.length := Soc.responses_mono hm
  obtain ⟨-, hbn⟩ := hrun n
  obtain ⟨hJm, hbm⟩ := hrun m
  have hn := hbn.length_le
  have hvalid1 : (G.out (soc n).cfu).rspValid.toNat ≤ 1 := Bool.toNat_le _
  have hrsp : (soc (m + 1)).responses =
      (soc m).responses ++ ((soc m).transfers G (moves m)).toList := rfl
  rw [hrsp, List.length_append, hP.transfers, hrm]
  cases hvm : (G.out (soc m).cfu).rspValid with
  | true =>
    simp only [Bool.and_self, if_true, Option.toList_some, List.length_singleton]
    omega
  | false =>
    have hm := hbm.length_le
    rw [hvm] at hm
    simp only [Bool.toNat_false] at hm
    omega

/-- A response that is not taken stays on the wires, and no command completes under it. -/
theorem Pipelined.waits (hP : Pipelined G mem result busy J Good) (hgood : Good m s)
    (hv : (G.out s.cfu).rspValid = true) (hr : m.rspReady = false) :
    (G.out (s.tick G mem false m).cfu).rspValid = true ∧
      busy (s.tick G mem false m).cfu = false := by
  constructor
  · rw [hP.valid_tick, if_pos hv, hr]
    rfl
  · rw [hP.busy_tick]
    by_contra hb
    have hlow := hP.apart _ _ hgood (by simpa using hb)
    rw [hlow] at hv
    cases hv

theorem Pipelined.payload_held (hP : Pipelined G mem result busy J Good) {m' : Moves} (hJ : J s)
    (hgood : Good m s) (hgood' : Good m' (s.tick G mem false m))
    (hv : (G.out s.cfu).rspValid = true) (hr : m.rspReady = false) :
    (G.out ((s.tick G mem false m).mid G m')).rspPayloadOutputs0 =
      (G.out (s.mid G m)).rspPayloadOutputs0 := by
  obtain ⟨hv', hidle⟩ := hP.waits hgood hv hr
  have hJ' := hP.step m s hJ hgood
  have h1 := hP.payload _ _ hJ hv hgood
  have h2 := hP.payload _ _ hJ' hv' hgood'
  have hacc : (s.tick G mem false m).accepted = s.accepted ++ (s.accepts G m).toList := rfl
  rw [hP.accepts _ _ hJ', hidle] at h2
  simp only [Bool.false_eq_true, if_false, Option.toList_none, List.append_nil] at h2
  rw [hacc, h1] at h2
  exact (Option.some.inj h2).symm

/-- **Response integrity.** -/
theorem Pipelined.integrity (hP : Pipelined G mem result busy J Good) (hJ : J s)
    (h : Balanced G result busy s) (hgood : ∀ n, Good (moves n) (Soc.run G mem false moves s n)) :
    Integrity G result moves (Soc.run G mem false moves s) := by
  have hrun := hP.balanced_run hJ h hgood
  refine ⟨fun n i r hi => ?_, fun hready n => hP.answered hJ h hgood hready n,
    fun n hv hr => ?_⟩
  · obtain ⟨-, hb⟩ := hrun n
    have hlt := (List.getElem?_eq_some_iff.mp hi).1
    exact ⟨lt_of_lt_of_le hlt hb.length_le.1, hb.ordered i r hi⟩
  · rw [hP.valid_mid] at hv ⊢
    exact ⟨(hP.waits (hgood n) hv hr).1,
      hP.payload_held (hrun n).1 (hgood n) (hgood (n + 1)) hv hr⟩

end CfuPlayground
