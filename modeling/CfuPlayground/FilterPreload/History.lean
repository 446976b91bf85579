import CfuPlayground.FilterPreload.Respond

/-!
# What a convolution of `proj/filter_preload` remembers

`SET_BASE_OFFSETS` clears the accumulator and the two filter counters, but not
`cur_input_depth`, which a convolution leaves at the last depth step. `restOf` reads this step
off the commands executed since reset. Two histories are indistinguishable to every convolution
after a `SET_BASE_OFFSETS`, on equal configurations and memories, exactly if it is the same for
both (`history_independent_iff`).
-/

namespace CfuPlayground.FilterPreload

open Lib

/-- Calls of `cfu_op0` whose responses are dropped. -/
def issue : List Command → Program Unit
  | [] => pure ()
  | c :: cs => do
    let _ ← (Client.request c : Program Word)
    issue cs

/-- The CFU has executed the commands `cs` since reset. -/
def Reached (cs : List Command) (s : Soc State) : Prop :=
  ∃ mem pace n, FairPace pace ∧
    (Host.run cfu mem pace ⟨issue cs, Soc.start State.start⟩ n).prog = .done () ∧
    (Host.run cfu mem pace ⟨issue cs, Soc.start State.start⟩ n).soc = s

/-- A convolution right after `SET_BASE_OFFSETS`. -/
def newOutput (imageBaseOffset filterBaseOffset : Word) : Program Word := do
  let _ ← callCfuOp0 8 imageBaseOffset filterBaseOffset
  callCfuOp0 0 0 0

/-- `r` is the response of that convolution, from `s`. -/
def Responds (mem : Memory) (pace : ℕ → Pace) (s : Soc State)
    (imageBaseOffset filterBaseOffset r : Word) : Prop :=
  ∃ n, (Host.run cfu mem pace ⟨newOutput imageBaseOffset filterBaseOffset, s⟩ n).prog = .done r

/-- The input depth and the resting depth step after a command. -/
def trackDepth (t : ℕ × ℕ) (c : Command) : ℕ × ℕ :=
  if c.funct7 = 0 then (t.1, (t.1 - 1) / 4)
  else if c.funct7 = 4 then (c.inputs0.toNat, t.2)
  else t

/-- The depth step at which the last convolution of a history ended. -/
def restOf (cs : List Command) : ℕ := (cs.foldl trackDepth (1, 0)).2

/-- A command that only sets registers. -/
def IsSet (c : Command) : Prop := Recognised c ∧ c.funct7 ≠ 0

/-- The commands that write every configuration register. -/
def configure (g : Config) : List Command :=
  [cfuOp0 2 g.filterWidth g.filterHeight, cfuOp0 3 g.imageWidth g.imageHeight,
    cfuOp0 4 g.inputChannelDepth (g.InputOffset.setWidth 32),
    cfuOp0 5 g.curImageX g.curImageY, cfuOp0 6 g.imageBase g.filterBase,
    cfuOp0 7 g.filterInputDepth (g.InputOffset.setWidth 32),
    cfuOp0 8 g.imageBaseOffset g.filterBaseOffset]

variable {mem : Memory} {a a' : Regs} {c : Command} {cs : List Command}

/-! ## The depth counter of a history -/

theorem eval_issue (cs : List Command) (a : Regs) :
    (issue cs).eval (respond mem) a = (after mem cs a).map fun a' => ((), a') := by
  induction cs generalizing a with
  | nil => rfl
  | cons c cs ih =>
    unfold issue after
    rw [Client.eval_bind, Client.eval_request, List.foldlM_cons]
    cases h : respond mem a c with
    | none => rfl
    | some p => exact ih p.2

/-- What `restOf` keeps track of. -/
def depthState (a : Regs) : ℕ × ℕ :=
  (a.config.inputChannelDepth.toNat, a.counters.curInputDepth.toNat / 4)

/-- A depth counter at a step that a convolution can end at. -/
def Rested (a : Regs) : Prop :=
  a.counters.curInputDepth.toNat % 4 = 0 ∧ a.counters.curInputDepth.toNat + 8 ≤ 2 ^ 32

theorem inputChannelDepth_update {i : In} {r : State}
    (h : r.curState ≠ .execSetInputChannelShape) :
    (update i r).config.inputChannelDepth = r.config.inputChannelDepth := by
  unfold update
  split
  case h_2 hs => exact absurd hs h
  all_goals rfl

theorem depth_setRegs_of_ne (h : c.funct7 ≠ 4) :
    (setRegs c a).config.inputChannelDepth = a.config.inputChannelDepth := by
  have hdecode : ∀ f : BitVec 7, decode f = .execSetInputChannelShape → f = 4 := by decide
  exact inputChannelDepth_update fun hp => h (hdecode _ hp)

theorem depth_setRegs_of_eq (h : c.funct7 = 4) :
    (setRegs c a).config.inputChannelDepth = c.inputs0 := by
  unfold setRegs
  rw [h]
  rfl

/-- **Step lemma.** -/
theorem depthState_respond (ha : Rested a) {r : Word} (h : respond mem a c = some (r, a')) :
    depthState a' = trackDepth (depthState a) c ∧ Rested a' := by
  obtain ⟨hmod, hle⟩ := ha
  unfold respond at h
  unfold trackDepth depthState
  by_cases h0 : c.funct7 = 0
  · rw [if_pos h0] at h ⊢
    obtain ⟨w, hw, hwa⟩ := Option.map_eq_some_iff.mp h
    cases hwa
    have hfin : Finishes a.config a.counters := by
      rw [← walk_isSome_iff hmod 0, Nat.add_zero, hw]
      rfl
    have hrest := restIndex_lt hfin.1
    have hdepth : w.2.curInputDepth.toNat = 4 * restIndex a.config := by
      rw [depth_walk hmod hw, BitVec.toNat_ofNat]
      omega
    refine ⟨?_, ?_, ?_⟩
    · show (a.config.inputChannelDepth.toNat, w.2.curInputDepth.toNat / 4) = _
      rw [hdepth, Nat.mul_div_cancel_left _ (by norm_num)]
      rfl
    · show w.2.curInputDepth.toNat % 4 = 0
      omega
    · show w.2.curInputDepth.toNat + 8 ≤ 2 ^ 32
      omega
  · rw [if_neg h0] at h ⊢
    split_ifs at h with hrec
    cases h
    unfold Rested
    rw [depth_setRegs]
    refine ⟨?_, hmod, hle⟩
    split_ifs with h4
    · rw [depth_setRegs_of_eq h4]
    · rw [depth_setRegs_of_ne h4]

/-- **Run lemma.** -/
theorem depthState_after (ha : Rested a) (h : after mem cs a = some a') :
    depthState a' = cs.foldl trackDepth (depthState a) ∧ Rested a' := by
  induction cs generalizing a with
  | nil =>
    cases h
    exact ⟨rfl, ha⟩
  | cons c cs ih =>
    unfold after at h
    rw [List.foldlM_cons] at h
    obtain ⟨a₁, h₁, h₂⟩ := Option.bind_eq_some_iff.mp h
    obtain ⟨⟨r, a₁'⟩, hr, rfl⟩ := Option.map_eq_some_iff.mp h₁
    obtain ⟨hstate, hrested⟩ := depthState_respond ha hr
    rw [List.foldl_cons, ← hstate]
    exact ih hrested h₂

theorem restOf_append {ts : List Command} (hts : ∀ c ∈ ts, IsSet c) :
    restOf (cs ++ ts) = restOf cs := by
  unfold restOf
  rw [List.foldl_append]
  generalize cs.foldl trackDepth (1, 0) = t
  induction ts generalizing t with
  | nil => rfl
  | cons c ts ih =>
    rw [List.foldl_cons, ih fun c hc => hts c (List.mem_cons_of_mem _ hc)]
    have h0 : c.funct7 ≠ 0 := (hts c List.mem_cons_self).2
    unfold trackDepth
    rw [if_neg h0]
    split_ifs <;> rfl

/-! ## Reached states -/

theorem idle_of_reached {s : Soc State} (h : Reached cs s) : ∃ mem a,
    after mem cs ⟨{}, {}, 0⟩ = some a ∧ s.offer = none ∧ s.cfu.config = a.config ∧
      a.counters.curInputDepth.toNat = 4 * restOf cs ∧ Rested a ∧ ∀ mem, Idle mem a s := by
  obtain ⟨mem, pace, n, hf, hdone, rfl⟩ := h
  obtain ⟨a, he, ⟨hat, hmod⟩, hoffer⟩ := Host.ready_of_done (serves mem) hf
    ⟨idle_start _, .inl rfl⟩ hdone
  rw [eval_issue] at he
  obtain ⟨a', ha', hpair⟩ := Option.map_eq_some_iff.mp he
  cases hpair
  obtain ⟨hstate, hrested⟩ := depthState_after ⟨rfl, by decide⟩ ha'
  have hrest : a.counters.curInputDepth.toNat / 4 = restOf cs := congrArg Prod.snd hstate
  exact ⟨mem, a, ha', hoffer, congrArg Regs.config hat.2.2.1, by omega, hrested,
    fun mem => ⟨hat, hmod⟩⟩

theorem exists_reached {a : Regs} (h : after mem cs ⟨{}, {}, 0⟩ = some a) :
    ∃ s, Reached cs s ∧ Idle mem a s := by
  have he : (issue cs).eval (respond mem) ⟨{}, {}, 0⟩ = some ((), a) := by
    rw [eval_issue, h]
    rfl
  obtain ⟨n, hn, hidle, -⟩ := Host.eval_of_serves (serves mem) fairPace_eager
    (h := ⟨issue cs, Soc.start State.start⟩) ⟨idle_start _, .inl rfl⟩ he
  exact ⟨_, ⟨mem, fun _ => Pace.eager, n, fairPace_eager, hn, rfl⟩, hidle⟩

/-! ## Responses -/

theorem responds_iff {pace : ℕ → Pace} (hf : FairPace pace) {s : Soc State} (hs : Idle mem a s)
    (ho : s.offer = none) (x y r : Word) :
    Responds mem pace s x y r ↔
      ∃ w, walk { a.config with imageBaseOffset := x, filterBaseOffset := y } (2 ^ 30)
        (atOrigin a.counters) = some w ∧
        (w.1.map (tapSum mem
          { a.config with imageBaseOffset := x, filterBaseOffset := y })).sum = r := by
  have heval : (newOutput x y).eval (respond mem) a =
      respond mem (setRegs (cfuOp0 8 x y) a) (cfuOp0 0 0 0) := by
    unfold newOutput
    rw [Client.eval_bind]
    simp only [callCfuOp0, Client.eval_request]
    rw [respond_set (by simp) (by simp [Recognised])]
    rfl
  unfold Responds
  rw [Host.done_iff (serves mem) hf ⟨hs, .inl ho⟩]
  simp only [heval, setRegs_baseOffsets, respond, cfuOp0_funct7, if_true, Option.map_eq_some_iff,
    Prod.mk.injEq]
  constructor
  · rintro ⟨a', w, hw, hr, -⟩
    exact ⟨w, hw, by rw [← hr]; exact (BitVec.zero_add _).symm⟩
  · rintro ⟨w, hw, hr⟩
    exact ⟨_, w, hw, by rw [← hr]; exact BitVec.zero_add _, rfl⟩

/-! ## Two depth counters that a convolution tells apart -/

/-- One filter point, one pixel and no offset. -/
def pointConfig (depth : Word) : Config where
  InputOffset := 0
  filterBase := 0
  filterBaseOffset := 0
  inputChannelDepth := depth
  imageBaseOffset := 0

/-- Every byte is 1. -/
def onesMemory : Memory := fun _ => 0x01010101

theorem isSet_configure (g : Config) : ∀ c ∈ configure g, IsSet c := by
  simp [configure, IsSet, Recognised]

theorem after_configure (g : Config) (a : Regs) :
    after mem (configure g) a = some ⟨g, atOrigin a.counters, 0⟩ := by
  have hoffset : (g.InputOffset.setWidth 32).setWidth 9 = g.InputOffset := by
    rw [BitVec.setWidth_setWidth_of_le _ (by norm_num), BitVec.setWidth_eq]
  have hregs : ∀ cs a, (∀ c ∈ cs, IsSet c) →
      after mem cs a = some (cs.foldl (fun a c => setRegs c a) a) := by
    intro cs a hcs
    induction cs generalizing a with
    | nil => rfl
    | cons c cs ih =>
      obtain ⟨hrec, h0⟩ := hcs c List.mem_cons_self
      unfold after
      rw [List.foldlM_cons, respond_set h0 hrec]
      exact ih _ fun c hc => hcs c (List.mem_cons_of_mem _ hc)
  rw [hregs _ _ (isSet_configure g)]
  simp only [configure, List.foldl_cons, List.foldl_nil, setRegs_filterDims, setRegs_imageDims,
    setRegs_inputChannelShape, setRegs_imageCoords, setRegs_imageFilterAdr,
    setRegs_filterInputDepth, setRegs_baseOffsets, hoffset]

theorem tapSum_onesMemory {depth : Word} {k : Counters} (hx : k.curFilterX = 0)
    (hk : k.curInputDepth.toNat + 3 < depth.toNat) :
    tapSum onesMemory (pointConfig depth) k = 4 := by
  have hselect : ∀ lane, lane < 4 → addSelect (pointConfig depth) k lane = true := by
    intro lane hlane
    have hlt := depth.isLt
    have hdepth : k.curInputDepth + BitVec.ofNat 32 lane < depth := by
      rw [BitVec.lt_def, BitVec.toNat_add, BitVec.toNat_ofNat]
      omega
    unfold addSelect
    rw [hx]
    exact Bool.and_eq_true_iff.mpr ⟨rfl, decide_eq_true hdepth⟩
  have hprod : ∀ lane, lane < 4 → prod (pointConfig depth) k 0x01010101 0x01010101 lane = 1 := by
    intro lane hlane
    unfold prod
    rw [hselect lane hlane]
    interval_cases lane <;> rfl
  show sumProds (pointConfig depth) k 0x01010101 0x01010101 = 4
  unfold sumProds
  rw [hprod 0 (by norm_num), hprod 1 (by norm_num), hprod 2 (by norm_num), hprod 3 (by norm_num)]
  rfl

theorem sum_map_four {f : Counters → Word} {l : List Counters} (h : ∀ k ∈ l, f k = 4) :
    (l.map f).sum = BitVec.ofNat 32 (4 * l.length) := by
  induction l with
  | nil => rfl
  | cons k l ih =>
    rw [List.map_cons, List.sum_cons, h k List.mem_cons_self,
      ih fun k hk => h k (List.mem_cons_of_mem _ hk), List.length_cons, Nat.mul_succ, Nat.add_comm,
      BitVec.ofNat_add]
    rfl

theorem ends_pointConfig (depth d : Word) :
    columnEnd (pointConfig depth) ⟨d, 0, 0⟩ = true ∧ rowEnd (pointConfig depth) ⟨d, 0, 0⟩ = true :=
  ⟨rfl, rfl⟩

theorem exit_pointConfig (depth d : Word) :
    ∃ d', exit (pointConfig depth) ⟨d, 0, 0⟩ = ⟨d', 0, 0⟩ := by
  unfold exit advance
  split_ifs with h1 h2 h3
  · exact ⟨0, rfl⟩
  · exact absurd (ends_pointConfig depth _).2 h3
  · exact absurd (ends_pointConfig depth _).1 h2
  · exact ⟨_, rfl⟩

theorem finishes_pointConfig {depth : Word} (h : depth.toNat + 4 ≤ 2 ^ 32) (d : Word) :
    Finishes (pointConfig depth) ⟨d, 0, 0⟩ := by
  obtain ⟨d', hexit⟩ := exit_pointConfig depth d
  refine ⟨h, ?_⟩
  rw [hexit]
  exact ends_pointConfig depth d'

theorem tapSum_column {depth : Word} {k : Counters} {l m : ℕ} (hk : k.curFilterX = 0)
    (hlm : 4 * (l + m) ≤ depth.toNat) :
    ∀ t ∈ column k l m, tapSum onesMemory (pointConfig depth) t = 4 := by
  intro t ht
  obtain ⟨j, hj, rfl⟩ := List.mem_map.mp ht
  have hj' := List.mem_range.mp hj
  refine tapSum_onesMemory hk ?_
  show (BitVec.ofNat 32 (4 * (l + j)) : Word).toNat + 3 < _
  rw [BitVec.toNat_ofNat]
  omega

/-- **The convolution from a depth step** of one pixel with one channel word more than `n`. -/
theorem walk_pointConfig {i n : ℕ} (hn : 4 * n + 8 ≤ 2 ^ 32) (hi : i ≤ n) :
    ∃ w, walk (pointConfig (BitVec.ofNat 32 (4 * n + 4))) (2 ^ 30)
        ⟨BitVec.ofNat 32 (4 * i), 0, 0⟩ = some w ∧
      (w.1.map (tapSum onesMemory (pointConfig (BitVec.ofNat 32 (4 * n + 4))))).sum =
        BitVec.ofNat 32 (4 * if i < n then n - i else n + 1) := by
  set g := pointConfig (BitVec.ofNat 32 (4 * n + 4)) with hg
  set k : Counters := ⟨BitVec.ofNat 32 (4 * i), 0, 0⟩ with hk
  have hdepth : (BitVec.ofNat 32 (4 * n + 4) : Word).toNat = 4 * n + 4 := by
    rw [BitVec.toNat_ofNat]
    omega
  have hstart : k.curInputDepth.toNat = 4 * i := by
    rw [BitVec.toNat_ofNat]
    omega
  have hrest : restIndex g = n := by
    show ((BitVec.ofNat 32 (4 * n + 4) : Word).toNat - 1) / 4 = n
    omega
  have hfin : Finishes g k := finishes_pointConfig (by omega) _
  have hwalk := walk_eq (g := g) (k := k) (by omega) 0
  rw [if_pos hfin, Nat.add_zero] at hwalk
  refine ⟨_, hwalk, ?_⟩
  have hlength : ∀ (k' : Counters) (l m : ℕ), (column k' l m).length = m := by
    intro k' l m
    simp [column]
  unfold visited
  rw [hstart, hrest, Nat.mul_div_cancel_left _ (by norm_num : 0 < 4)]
  split_ifs with hlt
  · rw [sum_map_four (tapSum_column rfl (by omega)), hlength]
  · obtain ⟨d, hexit⟩ := exit_pointConfig (BitVec.ofNat 32 (4 * n + 4)) (BitVec.ofNat 32 (4 * i))
    have hx : (exit g k).curFilterX = 0 := by rw [hexit]
    rw [sum_map_four, List.length_cons, hlength]
    intro t ht
    rcases List.mem_cons.mp ht with rfl | ht
    · exact tapSum_onesMemory rfl (by omega)
    · exact tapSum_column hx (by omega) t ht

theorem exists_configured {s : Soc State} (h : Reached cs s) (g : Config) :
    ∃ s', Reached (cs ++ configure g) s' ∧ s'.offer = none ∧ s'.cfu.config = g ∧
      ∀ mem, Idle mem ⟨g, ⟨BitVec.ofNat 32 (4 * restOf cs), 0, 0⟩, 0⟩ s' := by
  obtain ⟨mem, a, ha, -, -, hdepth, -⟩ := idle_of_reached h
  have hafter : after mem (cs ++ configure g) ⟨{}, {}, 0⟩ =
      some ⟨g, ⟨BitVec.ofNat 32 (4 * restOf cs), 0, 0⟩, 0⟩ := by
    unfold after at ha ⊢
    rw [List.foldlM_append, ha]
    show after mem (configure g) a = _
    rw [after_configure, atOrigin, ← hdepth, BitVec.ofNat_toNat, BitVec.setWidth_eq]
  obtain ⟨s', hs', hidle⟩ := exists_reached hafter
  obtain ⟨-, -, -, ho, -⟩ := idle_of_reached hs'
  exact ⟨s', hs', ho, congrArg Regs.config hidle.1.2.2.1, fun mem => hidle⟩

theorem responds_pointConfig {i n : ℕ} (hn : 4 * n + 8 ≤ 2 ^ 32) (hi : i ≤ n) {s : Soc State}
    (hs : Idle onesMemory
      ⟨pointConfig (BitVec.ofNat 32 (4 * n + 4)), ⟨BitVec.ofNat 32 (4 * i), 0, 0⟩, 0⟩ s)
    (ho : s.offer = none) (r : Word) : Responds onesMemory (fun _ => Pace.eager) s 0 0 r ↔
      r = BitVec.ofNat 32 (4 * if i < n then n - i else n + 1) := by
  obtain ⟨w, hw, hsum⟩ := walk_pointConfig hn hi
  rw [responds_iff fairPace_eager hs ho, ← hsum]
  constructor
  · rintro ⟨w', hw', rfl⟩
    cases hw.symm.trans hw'
    rfl
  · rintro rfl
    exact ⟨w, hw, rfl⟩

/-- **Two histories that rest at different depth steps are told apart.** -/
theorem responses_differ {cs₁ cs₂ : List Command} {s₁ s₂ : Soc State} (h₁ : Reached cs₁ s₁)
    (h₂ : Reached cs₂ s₂) (hlt : restOf cs₁ < restOf cs₂) :
    ∃ g s₁' s₂', Reached (cs₁ ++ configure g) s₁' ∧ Reached (cs₂ ++ configure g) s₂' ∧
      s₁'.cfu.config = s₂'.cfu.config ∧ ∃ r, Responds onesMemory (fun _ => Pace.eager) s₁' 0 0 r ∧
        ¬ Responds onesMemory (fun _ => Pace.eager) s₂' 0 0 r := by
  obtain ⟨-, a, -, -, -, hdepth, ⟨-, hrested⟩, -⟩ := idle_of_reached h₂
  have hbound : 4 * restOf cs₂ + 8 ≤ 2 ^ 32 := by omega
  obtain ⟨s₁', hr₁, ho₁, hg₁, hidle₁⟩ :=
    exists_configured h₁ (pointConfig (BitVec.ofNat 32 (4 * restOf cs₂ + 4)))
  obtain ⟨s₂', hr₂, ho₂, hg₂, hidle₂⟩ :=
    exists_configured h₂ (pointConfig (BitVec.ofNat 32 (4 * restOf cs₂ + 4)))
  refine ⟨_, s₁', s₂', hr₁, hr₂, hg₁.trans hg₂.symm, _,
    (responds_pointConfig hbound hlt.le (hidle₁ _) ho₁ _).mpr rfl, ?_⟩
  rw [responds_pointConfig hbound le_rfl (hidle₂ _) ho₂, if_pos hlt, if_neg (lt_irrefl _)]
  intro heq
  have hnat := congrArg BitVec.toNat heq
  rw [BitVec.toNat_ofNat, BitVec.toNat_ofNat] at hnat
  omega

/-- **Equal depth steps, equal responses.** -/
theorem responds_of_restOf_eq {cs₁ cs₂ : List Command} {s₁ s₂ : Soc State} (h₁ : Reached cs₁ s₁)
    (h₂ : Reached cs₂ s₂) (hrest : restOf cs₁ = restOf cs₂)
    (hconfig : s₁.cfu.config = s₂.cfu.config) {pace₁ pace₂ : ℕ → Pace} (hf₁ : FairPace pace₁)
    (hf₂ : FairPace pace₂) (x y r : Word) :
    Responds mem pace₁ s₁ x y r ↔ Responds mem pace₂ s₂ x y r := by
  obtain ⟨-, a₁, -, ho₁, hg₁, hd₁, -, hi₁⟩ := idle_of_reached h₁
  obtain ⟨-, a₂, -, ho₂, hg₂, hd₂, -, hi₂⟩ := idle_of_reached h₂
  have hg : a₁.config = a₂.config := by rw [← hg₁, ← hg₂, hconfig]
  have hk : atOrigin a₁.counters = atOrigin a₂.counters := by
    have hd : a₁.counters.curInputDepth = a₂.counters.curInputDepth :=
      BitVec.eq_of_toNat_eq (by rw [hd₁, hd₂, hrest])
    rw [atOrigin, atOrigin, hd]
  rw [responds_iff hf₁ (hi₁ mem) ho₁, responds_iff hf₂ (hi₂ mem) ho₂, hg, hk]

/-- Whatever registers are set after the two histories: where the configurations are equal then,
the responses of a convolution right after `SET_BASE_OFFSETS` are equal, on equal memories. -/
def Indistinguishable (cs₁ cs₂ : List Command) : Prop :=
  ∀ ts₁ ts₂ : List Command, (∀ c ∈ ts₁, IsSet c) → (∀ c ∈ ts₂, IsSet c) →
    ∀ s₁ s₂, Reached (cs₁ ++ ts₁) s₁ → Reached (cs₂ ++ ts₂) s₂ →
      s₁.cfu.config = s₂.cfu.config →
      ∀ mem pace₁ pace₂, FairPace pace₁ → FairPace pace₂ →
        ∀ x y r, Responds mem pace₁ s₁ x y r ↔ Responds mem pace₂ s₂ x y r

/-- **What a convolution remembers.** Two histories of complete commands since reset are
indistinguishable to the convolutions after a `SET_BASE_OFFSETS`, whatever the configuration
registers and the memory hold by then, exactly if their last convolutions ended at the same
depth step. -/
theorem history_independent_iff (cs₁ cs₂ : List Command) (h₁ : ∃ s, Reached cs₁ s)
    (h₂ : ∃ s, Reached cs₂ s) : Indistinguishable cs₁ cs₂ ↔ restOf cs₁ = restOf cs₂ := by
  obtain ⟨s₁, hs₁⟩ := h₁
  obtain ⟨s₂, hs₂⟩ := h₂
  constructor
  · intro h
    rcases lt_trichotomy (restOf cs₁) (restOf cs₂) with hlt | heq | hgt
    · obtain ⟨g, s₁', s₂', hr₁, hr₂, hg, r, hyes, hno⟩ := responses_differ hs₁ hs₂ hlt
      exact absurd ((h _ _ (isSet_configure g) (isSet_configure g) _ _ hr₁ hr₂ hg _ _ _
        fairPace_eager fairPace_eager 0 0 r).mp hyes) hno
    · exact heq
    · obtain ⟨g, s₂', s₁', hr₂, hr₁, hg, r, hyes, hno⟩ := responses_differ hs₂ hs₁ hgt
      exact absurd ((h _ _ (isSet_configure g) (isSet_configure g) _ _ hr₁ hr₂ hg.symm _ _ _
        fairPace_eager fairPace_eager 0 0 r).mpr hyes) hno
  · intro hrest ts₁ ts₂ hts₁ hts₂ s₁ s₂ hr₁ hr₂ hg mem pace₁ pace₂ hf₁ hf₂ x y r
    refine responds_of_restOf_eq hr₁ hr₂ ?_ hg hf₁ hf₂ x y r
    rw [restOf_append hts₁, restOf_append hts₂, hrest]

theorem history_independent_iff_conv : Indistinguishable [] [cfuOp0 0 0 0] := by
  have hconv : after onesMemory [cfuOp0 0 0 0] ⟨{}, {}, 0⟩ = some ⟨{}, {}, 129⟩ := by
    decide +kernel
  have hnone : after onesMemory [] ⟨{}, {}, 0⟩ = some ⟨{}, {}, 0⟩ := rfl
  obtain ⟨s₁, h₁, -⟩ := exists_reached hnone
  obtain ⟨s₂, h₂, -⟩ := exists_reached hconv
  exact (history_independent_iff [] [cfuOp0 0 0 0] ⟨s₁, h₁⟩ ⟨s₂, h₂⟩).mpr rfl

/-- **A convolution that depends on the one before.** One pixel of 8 channels: right after reset
the response is the sum of the first four channels, after another convolution that of all. -/
theorem history_independent_fails :
    ¬ ∀ (cs₁ cs₂ : List Command) (s₁ s₂ : Soc State), Reached cs₁ s₁ → Reached cs₂ s₂ →
      s₁.cfu.config = s₂.cfu.config → ∀ (mem : Memory) (pace₁ pace₂ : ℕ → Pace),
      FairPace pace₁ → FairPace pace₂ → ∀ x y r r',
      Responds mem pace₁ s₁ x y r → Responds mem pace₂ s₂ x y r' → r = r' := by
  intro h
  have hstart : ∀ (cs : List Command) (a : Regs), after onesMemory cs ⟨{}, {}, 0⟩ = some a →
      ∃ s, Reached cs s ∧ Idle onesMemory a s ∧ s.offer = none := by
    intro cs a ha
    obtain ⟨s, hs, hidle⟩ := exists_reached ha
    obtain ⟨-, -, -, ho, -⟩ := idle_of_reached hs
    exact ⟨s, hs, hidle, ho⟩
  obtain ⟨s₁, hs₁, hi₁, ho₁⟩ := hstart [cfuOp0 4 8 0]
    ⟨{ inputChannelDepth := 8, InputOffset := 0 }, {}, 0⟩ (by decide +kernel)
  obtain ⟨s₂, hs₂, hi₂, ho₂⟩ := hstart [cfuOp0 4 8 0, cfuOp0 0 0 0]
    ⟨{ inputChannelDepth := 8, InputOffset := 0 }, { curInputDepth := 4 }, 4⟩ (by decide +kernel)
  have hg : s₁.cfu.config = s₂.cfu.config :=
    (congrArg Regs.config hi₁.1.2.2.1).trans (congrArg Regs.config hi₂.1.2.2.1).symm
  have heq := h _ _ s₁ s₂ hs₁ hs₂ hg onesMemory _ _ fairPace_eager fairPace_eager 0 0 4 8
    ((responds_iff fairPace_eager hi₁ ho₁ 0 0 4).mpr
      ⟨([⟨0, 0, 0⟩], ⟨4, 0, 0⟩), by decide +kernel, by decide +kernel⟩)
    ((responds_iff fairPace_eager hi₂ ho₂ 0 0 8).mpr
      ⟨([⟨4, 0, 0⟩, ⟨0, 0, 0⟩], ⟨4, 0, 0⟩), by decide +kernel, by decide +kernel⟩)
  exact absurd heq (by decide)

end CfuPlayground.FilterPreload
