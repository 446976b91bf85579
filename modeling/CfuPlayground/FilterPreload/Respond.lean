import CfuPlayground.FilterPreload.Phases

/-!
# The responses of `proj/filter_preload`

`respond` is the CFU as a function from the registers between two commands and a command to the
response and the registers after it; a convolution is a walk. `serves` says that the hardware
computes this function for every blocking client, memory and slave, and gives no response where
`respond` gives none: to a convolution that does not end, and to a command that `next_state` has
no branch for.
-/

namespace CfuPlayground.FilterPreload

open Lib

/-- The registers after a convolution with the walk `w`. -/
def convRegs (mem : Memory) (a : Regs) (w : List Counters × Counters) : Regs where
  config := a.config
  counters := w.2
  acc := a.acc + (w.1.map (tapSum mem a.config)).sum

/-- The response to a command and the registers after it. -/
def respond (mem : Memory) (a : Regs) (c : Command) : Option (Word × Regs) :=
  if c.funct7 = 0 then
    (walk a.config (2 ^ 30) a.counters).map fun w => ((convRegs mem a w).acc, convRegs mem a w)
  else if Recognised c then some ((setRegs c a).acc, setRegs c a)
  else none

/-- The registers after the commands `cs`. -/
def after (mem : Memory) (cs : List Command) (a : Regs) : Option Regs :=
  cs.foldlM (fun a c => (respond mem a c).map Prod.snd) a

/-! ## The `SET` commands -/

section Set

variable (mem : Memory) (a : Regs) (x y : Word)

theorem respond_set {mem : Memory} {a : Regs} {c : Command} (h0 : c.funct7 ≠ 0)
    (hrec : Recognised c) : respond mem a c = some ((setRegs c a).acc, setRegs c a) := by
  rw [respond, if_neg h0, if_pos hrec]

theorem setRegs_filterDims : setRegs (cfuOp0 2 x y) a =
    { a with config := { a.config with filterWidth := x, filterHeight := y } } := by
  unfold setRegs
  rw [cfuOp0_funct7]
  rfl

theorem setRegs_imageDims : setRegs (cfuOp0 3 x y) a =
    { a with config := { a.config with imageWidth := x, imageHeight := y } } := by
  unfold setRegs
  rw [cfuOp0_funct7]
  rfl

theorem setRegs_inputChannelShape : setRegs (cfuOp0 4 x y) a =
    { a with config := { a.config with
      inputChannelDepth := x, InputOffset := y.setWidth 9 } } := by
  unfold setRegs
  rw [cfuOp0_funct7]
  rfl

theorem setRegs_imageCoords : setRegs (cfuOp0 5 x y) a =
    { a with config := { a.config with curImageX := x, curImageY := y } } := by
  unfold setRegs
  rw [cfuOp0_funct7]
  rfl

theorem setRegs_imageFilterAdr : setRegs (cfuOp0 6 x y) a =
    { a with config := { a.config with imageBase := x, filterBase := y } } := by
  unfold setRegs
  rw [cfuOp0_funct7]
  rfl

theorem setRegs_filterInputDepth : setRegs (cfuOp0 7 x y) a =
    { a with config := { a.config with
      filterInputDepth := x, InputOffset := y.setWidth 9 } } := by
  unfold setRegs
  rw [cfuOp0_funct7]
  rfl

/-- The counters with the filter point at the origin; the depth stays. -/
def atOrigin (k : Counters) : Counters := { k with curFilterX := 0, curFilterY := 0 }

theorem setRegs_baseOffsets : setRegs (cfuOp0 8 x y) a =
    ⟨{ a.config with imageBaseOffset := x, filterBaseOffset := y }, atOrigin a.counters, 0⟩ := by
  unfold setRegs
  rw [cfuOp0_funct7]
  rfl

end Set

/-- Between two commands, with a depth counter that is a multiple of four. -/
def Idle (mem : Memory) (a : Regs) (s : Soc State) : Prop :=
  At mem (.ready a) s ∧ a.counters.curInputDepth.toNat % 4 = 0

theorem idle_start (mem : Memory) : Idle mem ⟨{}, {}, 0⟩ (Soc.start State.start) :=
  ⟨⟨rfl, rfl, rfl, ⟨rfl, rfl, rfl⟩, rfl⟩, rfl⟩

variable {mem : Memory} {moves : ℕ → Moves} {s : Soc State} {a : Regs} {c : Command}

/-! ## The depth counter stays a multiple of four -/

theorem depth_setRegs (c : Command) (a : Regs) :
    (setRegs c a).counters.curInputDepth = a.counters.curInputDepth := by
  unfold setRegs
  exact curInputDepth_update (decode_ne_mid c.funct7).2

theorem depth_walk {g : Config} {k : Counters} (hk : k.curInputDepth.toNat % 4 = 0)
    {w : List Counters × Counters} (hw : walk g (2 ^ 30) k = some w) :
    w.2.curInputDepth = BitVec.ofNat 32 (4 * restIndex g) := by
  have heq := walk_eq (g := g) hk 0
  rw [Nat.add_zero, hw] at heq
  split_ifs at heq with h
  cases heq
  rfl

theorem mod_four (n : ℕ) : (BitVec.ofNat 32 (4 * n)).toNat % 4 = 0 := by
  rw [BitVec.toNat_ofNat]
  omega

theorem depth_respond (hk : a.counters.curInputDepth.toNat % 4 = 0) {r : Word} {a' : Regs}
    (h : respond mem a c = some (r, a')) : a'.counters.curInputDepth.toNat % 4 = 0 := by
  unfold respond at h
  split_ifs at h with h0 hrec
  · obtain ⟨w, hw, hwa⟩ := Option.map_eq_some_iff.mp h
    cases hwa
    show w.2.curInputDepth.toNat % 4 = 0
    rw [depth_walk hk hw]
    exact mod_four _
  · cases h
    rw [depth_setRegs]
    exact hk

theorem depth_after {cs : List Command} (hk : a.counters.curInputDepth.toNat % 4 = 0)
    {a' : Regs} (h : after mem cs a = some a') : a'.counters.curInputDepth.toNat % 4 = 0 := by
  induction cs generalizing a with
  | nil =>
    cases h
    exact hk
  | cons c cs ih =>
    unfold after at h
    rw [List.foldlM_cons] at h
    obtain ⟨a₁, h₁, h₂⟩ := Option.bind_eq_some_iff.mp h
    obtain ⟨⟨r, a₁'⟩, hr, rfl⟩ := Option.map_eq_some_iff.mp h₁
    exact ih (depth_respond hk hr) h₂

theorem after_append {cs : List Command} {a' : Regs} (h : after mem cs a = some a')
    (c : Command) : after mem (cs ++ [c]) a = (respond mem a' c).map Prod.snd := by
  unfold after at h ⊢
  rw [List.foldlM_append, h]
  exact bind_pure (m := Option) _

/-! ## One round of a walk -/

theorem convRegs_last : convRegs mem a ([a.counters], advance a.config a.counters) =
    addRegs mem a := by
  simp [convRegs, addRegs]

theorem convRegs_cons (w : List Counters × Counters) :
    convRegs mem a (a.counters :: w.1, w.2) = convRegs mem (addRegs mem a) w := by
  simp [convRegs, addRegs, BitVec.add_assoc]

theorem walk_of_done {g : Config} {k : Counters} {n : ℕ}
    (h : calcCoords g (advance g k) = .execConvDone) :
    walk g (n + 1) k = some ([k], advance g k) := by
  simp only [walk, h]

theorem walk_of_some {g : Config} {k : Counters} (hk : k.curInputDepth.toNat % 4 = 0) {n : ℕ}
    {w : List Counters × Counters} (h : walk g n k = some w) : walk g (2 ^ 30) k = some w := by
  have hmore := walk_add_of_some h (2 ^ 30)
  rw [Nat.add_comm, walk_eq hk] at hmore
  have hbase := walk_eq (g := g) hk 0
  rw [Nat.add_zero] at hbase
  rw [hbase, hmore]

/-! ## Answers -/

theorem request_up {m : Moves}
    (h : s.cfu.curState = .execConvFetchVal ∨ s.cfu.curState = .execConvFetchFilter) :
    (cfu.out (s.mid cfu m)).cfuRamCyc = true ∧ (cfu.out (s.mid cfu m)).cfuRamStb = true := by
  rcases h with h | h <;> simp [Soc.mid, Soc.wires, cfu, negedgeClk, update, State.out, h]

theorem answers_responding (hf : Fair moves) (h : At mem (.responding a) s) :
    s.Answers cfu mem moves a.acc (At mem (.ready a)) := by
  obtain ⟨n, hq, hn, hr⟩ := Soc.exists_ready hf h fun s m hs hr => by
    obtain ⟨hat, -, htr⟩ := tick_responding (m := m) hs
    rw [hr] at hat htr
    exact ⟨htr, hat⟩
  obtain ⟨hat, -, htr⟩ := tick_responding (m := moves n) hn
  rw [if_pos hr] at hat htr
  have hnone : (Soc.run cfu mem true moves s n).offer = none := hn.2.2.2.2.1
  exact .of_later hq (.now htr hat (Soc.offer_tick (.inl hnone) hat.2.2.2.2))

theorem answers_of_completing (hf : Fair moves) (hoffer : s.offer = some c)
    (h : At mem (if (moves 0).rspReady then .ready a else .responding a)
        (s.tick cfu mem true (moves 0)) ∧
      s.accepts cfu (moves 0) = some c ∧
      s.transfers cfu (moves 0) = if (moves 0).rspReady then some a.acc else none) :
    s.Answers cfu mem moves a.acc (At mem (.ready a)) := by
  obtain ⟨hat, hacc, htr⟩ := h
  by_cases hr : (moves 0).rspReady = true
  · rw [if_pos hr] at htr hat
    exact .now htr hat (Soc.offer_tick (.inr (hacc.trans hoffer.symm)) hat.2.2.2.2)
  · rw [if_neg hr] at htr hat
    exact .next htr (answers_responding (hf.shift 1) hat)

theorem answers_of_calc {r : Word} {P : Soc State → Prop} (hf : Fair moves)
    (h : At mem (.fetchVal a c) s)
    (hcalc : ∀ s moves, Fair moves → At mem (.coords (addRegs mem a) c) s →
      s.Answers cfu mem moves r P) :
    s.Answers cfu mem moves r P := by
  obtain ⟨n, hq, hn, hack⟩ := Soc.exists_ack hf h fun s m hs hack => by
    obtain ⟨hat, -, htr⟩ := tick_fetchVal (m := m) hs
    rw [hack] at hat
    exact ⟨htr, hat, request_up (.inl hs.1)⟩
  obtain ⟨hat, -, htr⟩ := tick_fetchVal (m := moves n) hn
  rw [if_pos hack] at hat
  refine .of_later hq (.next htr ?_)
  have hf₁ := (hf.shift n).shift 1
  obtain ⟨l, hq', hl, hack'⟩ := Soc.exists_ack hf₁ hat fun s m hs hack => by
    obtain ⟨hat, -, htr⟩ := tick_fetchFilter (m := m) hs
    rw [hack] at hat
    exact ⟨htr, hat, request_up (.inr hs.1)⟩
  obtain ⟨hat', -, htr'⟩ := tick_fetchFilter (m := moves (n + (1 + l))) hl
  rw [if_pos hack'] at hat'
  refine .of_later hq' (.next htr' ?_)
  obtain ⟨hat₂, -, htr₂⟩ := tick_add (m := moves (n + (1 + (l + (1 + 0))))) hat'
  exact .next htr₂ (hcalc _ _ (((hf₁.shift l).shift 1).shift 1) hat₂)

/-- **A convolution.** A walk that ends is answered with the sum of its taps. -/
theorem answers_conv (hf : Fair moves) {f : ℕ} {w : List Counters × Counters}
    (hw : walk a.config f a.counters = some w) (h : At mem (.fetchVal a c) s) :
    s.Answers cfu mem moves (convRegs mem a w).acc (At mem (.ready (convRegs mem a w))) := by
  induction f generalizing a w s moves with
  | zero => cases hw
  | succ f ih =>
    refine answers_of_calc hf h fun s moves hf hs => ?_
    obtain ⟨hat, -, htr⟩ := tick_coords (m := moves 0) hs
    refine .next htr ?_
    rw [walk] at hw
    split at hw
    · rename_i hdone
      cases hw
      have hphase : afterCoords (addRegs mem a) c = .done (addRegs mem a) c := by
        simp only [afterCoords, addRegs, hdone]
      rw [hphase] at hat
      rw [convRegs_last]
      exact answers_of_completing (hf.shift 1) hat.2.2.2.2.2.1 (tick_done hat)
    · rename_i hfetch
      obtain ⟨w', hw', rfl⟩ := Option.map_eq_some_iff.mp hw
      have hphase : afterCoords (addRegs mem a) c = .fetchVal (addRegs mem a) c := by
        simp only [afterCoords, addRegs, hfetch]
      rw [hphase] at hat
      rw [convRegs_cons]
      exact ih (hf.shift 1) hw' hat
    · cases hw

/-! ## No answers -/

theorem never_answered {P : Soc State → Prop} (h : P s)
    (hkeep : ∀ s m, P s → s.transfers cfu m = none ∧ P (s.tick cfu mem true m)) (moves : ℕ → Moves)
    (n : ℕ) : (Soc.run cfu mem true moves s n).transfers cfu (moves n) = none :=
  (hkeep _ _ (run_invariant h (fun m s hs => (hkeep s m hs).2) n)).1

theorem stuck_hangs (h : At mem .stuck s) (moves : ℕ → Moves) (n : ℕ) :
    (Soc.run cfu mem true moves s n).transfers cfu (moves n) = none :=
  never_answered h (fun _ m hs => ⟨(tick_stuck (m := m) hs).2.2, (tick_stuck hs).1⟩) moves n

theorem val_of_caught {s : State} (h : Caught s) : s.curState.val < 100 := by
  cases hs : s.curState <;> first
    | decide
    | simp [Caught, hs] at h

theorem caught_of_fetchVal (h : At mem (.fetchVal a c) s)
    (hk : a.counters.curInputDepth.toNat % 4 = 0) (hnot : ¬ Finishes a.config a.counters) :
    Caught s.cfu := by
  obtain ⟨hst, -, rfl, -⟩ := h
  unfold Caught
  rw [hst]
  exact walk_eq_none hk hnot

theorem caught_hangs (h : Caught s.cfu) (hv : s.cfu.rspValid = false) (moves : ℕ → Moves)
    (n : ℕ) : (Soc.run cfu mem true moves s n).transfers cfu (moves n) = none := by
  refine never_answered (P := fun s => Caught s.cfu ∧ s.cfu.rspValid = false) ⟨h, hv⟩
    (fun s m hs => ?_) moves n
  obtain ⟨hc, hv⟩ := hs
  have hmid : (s.mid cfu m).rspValid = false := by
    rw [mid_eq]
    cases hst : s.cfu.curState <;> simp [update, hst, hv]
  have hc' : Caught (s.tick cfu mem true m).cfu := caught_period rfl hc
  refine ⟨?_, hc', ?_⟩
  · show (if (s.mid cfu m).rspValid && m.rspReady then _ else none) = none
    rw [hmid]
    rfl
  · show (if (s.mid cfu m).rspValid then !m.rspReady
      else decide ((s.tick cfu mem true m).cfu.curState.val ≥ 100)) = false
    rw [hmid]
    simpa using val_of_caught hc'

/-- **The CFU serves its commands**, with the registers of `Regs` as its state. -/
theorem serves (mem : Memory) : Serves cfu mem (Idle mem) (respond mem) where
  stay := by
    rintro a s ⟨h, hk⟩ ho m
    obtain ⟨hat, -, htr⟩ := tick_ready_none (m := m) h ho
    exact ⟨htr, ⟨hat, hk⟩, Soc.offer_tick (.inl ho) hat.2.2.2.2⟩
  answer := by
    rintro a s c r a' ⟨h, hk⟩ ho hr moves hf
    have hk' := depth_respond hk hr
    obtain ⟨hat, -, htr⟩ := tick_ready_some (m := moves 0) h ho
    have hgoal : s.Answers cfu mem moves r (At mem (.ready a')) := by
      refine .next htr ?_
      unfold respond at hr
      unfold dispatch at hat
      split_ifs at hr hat with h0 hrec
      · obtain ⟨w, hw, hwa⟩ := Option.map_eq_some_iff.mp hr
        cases hwa
        exact answers_conv (hf.shift 1) hw hat
      · cases hr
        exact answers_of_completing (hf.shift 1) hat.2.2.2.2.1.1 (tick_set hat)
    exact hgoal.mono fun s hs => ⟨hs, hk'⟩
  hang := by
    rintro a s c ⟨h, hk⟩ ho hr moves n
    obtain ⟨hat, -, htr⟩ := tick_ready_some (m := moves 0) h ho
    unfold respond at hr
    unfold dispatch at hat
    cases n with
    | zero => exact htr
    | succ n =>
      rw [Nat.add_comm n 1, Soc.run_add']
      split_ifs at hr hat with h0 hrec
      · refine caught_hangs ?_ hat.2.1 (fun j => moves (1 + j)) n
        have hnot : ¬ Finishes a.config a.counters := by
          rw [← walk_isSome_iff hk 0, Nat.add_zero]
          simpa using hr
        exact caught_of_fetchVal hat hk hnot
      · exact stuck_hangs hat (fun j => moves (1 + j)) n

end CfuPlayground.FilterPreload
