import CfuPlayground.Nxlram.Flat

/-!
# Reads and writes of `NXLRAM`

* `holds_next`: what an edge does to the memory, for any value of the clock enables.
* `Answering`, `answering_next`, `answering_run`: under a Wishbone master the acknowledge comes
  with the word of a read and after the write, which the second edge of the transaction repeats.
* `nxlram_is_flat`: so reads see the flat array, and the ports of the CFU see its stripes.
-/

namespace CfuPlayground.Nxlram

open Lib (lane run run_succ run_zero)

variable {c : Params} {writeOut : Word → Word → Word} {i : In} {s : State} {f : Flat} {b : Wires}

/-- A transaction is on the wires. -/
def Wires.active (b : Wires) : Bool := b.stb && b.cyc

variable (c) in
/-- The blocks hold the array. -/
def Holds (s : State) (f : Flat) : Prop :=
  ∀ a < words c, ∀ w < c.widthCascading,
    (s.blocks (bank c a) w).mem (row c a) = f.word (wordIndex c a w)

variable (c) in
/-- The array in the blocks. -/
def contents (s : State) : Flat := fun x =>
  let a := x / (4 * c.widthCascading)
  let j := x % (4 * c.widthCascading)
  lane ((s.blocks (bank c a) (j / 4)).mem (row c a)) (j % 4)

theorem holds_contents (s : State) : Holds c s (contents c s) := by
  intro a _ w hw
  refine (word_eq_of_lanes fun k hk => ?_).symm
  obtain ⟨ha, hw', hk'⟩ := byte_place (a := a) hw hk
  simp only [contents, ha, hw', hk']

/-! ## One edge -/

theorem datR_eq (hb : bank c b.adr < c.depthCascading) (w : ℕ) :
    datR c b s w = (s.blocks (bank c b.adr) w).dout := by
  have hfold : ∀ n ≤ c.depthCascading, (List.range n).foldl
      (fun r d => if selected c b.adr d then (s.blocks d w).dout else r) 0 =
        if bank c b.adr < n then (s.blocks (bank c b.adr) w).dout else 0 := by
    intro n hn
    induction n with
    | zero => rfl
    | succ n ih =>
      rw [List.range_succ, List.foldl_append, ih (by omega)]
      simp only [List.foldl_cons, List.foldl_nil, selected_iff (c := c) (d := n) (by omega)]
      by_cases hn' : bank c b.adr = n
      · rw [if_pos hn', if_pos (by omega), hn']
      · rw [if_neg hn']
        by_cases hlt : bank c b.adr < n
        · rw [if_pos hlt, if_pos (by omega)]
        · rw [if_neg hlt, if_neg (by omega)]
  rw [datR, hfold _ le_rfl, if_pos hb]

theorem holds_next {ce : Bool} (hc : c.Accepted) (hclk : ∀ p, i.aClkens p = ce)
    (hrange : i.bus.active = true → i.bus.adr < words c) (h : Holds c s f) :
    Holds c (next c writeOut i s)
      (if ce && i.bus.active && i.bus.we then f.write c i.bus else f) := by
  intro a ha w hw
  have hold := h a ha w hw
  have hsel := selected_iff (c := c) (a := i.bus.adr) (bank_lt hc ha)
  have hmem : ((next c writeOut i s).blocks (bank c a) w).mem =
      if ce && selected c i.bus.adr (bank c a) && wren c i.bus (bank c a) then
        Function.update (s.blocks (bank c a) w).mem (row c i.bus.adr)
          (mergeBytes (~~~ i.bus.sel w) ((s.blocks (bank c a) w).mem (row c i.bus.adr))
            (i.bus.datW w))
      else (s.blocks (bank c a) w).mem := by
    show (Block.clock ..).mem = _
    rw [Block.clock, hclk]
  have hwren : (ce && selected c i.bus.adr (bank c a) && wren c i.bus (bank c a)) =
      (selected c i.bus.adr (bank c a) && (ce && i.bus.active && i.bus.we)) := by
    unfold wren Wires.active
    cases ce <;> cases selected c i.bus.adr (bank c a) <;> cases i.bus.we <;>
      cases i.bus.stb <;> cases i.bus.cyc <;> rfl
  rw [hmem, hwren]
  by_cases hwrite : (ce && i.bus.active && i.bus.we) = true
  · rw [if_pos hwrite, word_write _ _ hw, hwrite, Bool.and_true]
    have hadr : i.bus.adr < words c := hrange (by simp_all)
    by_cases heq : a = i.bus.adr
    · rw [if_pos (hsel.mpr (by rw [heq])), if_pos heq, ← heq, Function.update_self, hold]
    · rw [if_neg heq]
      split_ifs with hbank
      · have hrow : row c a ≠ row c i.bus.adr := fun hrow =>
          heq (eq_of_bank_row hc ha hadr (hsel.mp hbank).symm hrow)
        rw [Function.update_of_ne hrow, hold]
      · exact hold
  · rw [if_neg hwrite, if_neg (by simp_all), hold]

theorem dout_next (hc : c.Accepted) (hclk : ∀ p, i.aClkens p = true)
    (hadr : i.bus.adr < words c) (hread : i.bus.we = false) (h : Holds c s f) {w : ℕ}
    (hw : w < c.widthCascading) :
    ((next c writeOut i s).blocks (bank c i.bus.adr) w).dout =
      f.word (wordIndex c i.bus.adr w) := by
  have hsel := (selected_iff (bank_lt hc hadr)).mpr rfl
  show (Block.clock ..).dout = _
  rw [Block.clock, hclk, hsel, wren, hread]
  simpa using h _ hadr w hw

theorem dout_next_of_frozen (hclk : ∀ p, i.aClkens p = false) (d w : ℕ) :
    ((next c writeOut i s).blocks d w).dout = (s.blocks d w).dout := by
  show (Block.clock ..).dout = _
  rw [Block.clock, hclk]
  rfl

/-! ## Transactions -/

variable (c) in
/-- The flat array takes a write in the cycle in which its transaction begins. -/
def flatNext (i : In) (s : State) (f : Flat) : Flat :=
  if i.bus.active && !s.ack && i.bus.we then f.write c i.bus else f

variable (c) in
/-- The blocks hold the array; when a transaction is acknowledged, it is on the wires, a write of
it is in the array, and a read of it has the word on the outputs. -/
structure Answering (b : Wires) (s : State) (f : Flat) : Prop where
  holds : Holds c s f
  active : s.ack = true → b.active = true
  write : s.ack = true → b.we = true → ∀ a, ∀ w < c.widthCascading,
    (f.write c b).word (wordIndex c a w) = f.word (wordIndex c a w)
  read : s.ack = true → b.we = false → ∀ w < c.widthCascading,
    (s.blocks (bank c b.adr) w).dout = f.word (wordIndex c b.adr w)

/-- **Step.** A master that keeps its wires up to the acknowledge keeps `Answering`. -/
theorem answering_next {b' : Wires} (hc : c.Accepted) (hclk : ∀ p, i.aClkens p = true)
    (hrange : i.bus.active = true → i.bus.adr < words c)
    (hstable : i.bus.active = true → s.ack = false → b' = i.bus)
    (h : Answering c i.bus s f) : Answering c b' (next c writeOut i s) (flatNext c i s f) := by
  have hack : (next c writeOut i s).ack = (i.bus.active && !s.ack) := rfl
  have hnext : Holds c (next c writeOut i s) _ := holds_next hc hclk hrange h.holds
  constructor
  · intro a ha w hw
    rw [hnext a ha w hw, flatNext, Bool.true_and]
    cases hs : s.ack with
    | false => simp
    | true =>
      -- the acknowledge edge repeats the write
      by_cases hwe : i.bus.we = true
      · simp [h.active hs, hwe, h.write hs hwe a w hw]
      · simp [hwe]
  · intro h1
    rw [hack, Bool.and_eq_true, Bool.not_eq_true'] at h1
    rw [hstable h1.1 h1.2, h1.1]
  · intro h1 hwe a w hw
    rw [hack, Bool.and_eq_true, Bool.not_eq_true'] at h1
    rw [hstable h1.1 h1.2] at hwe ⊢
    rw [flatNext, h1.1, h1.2, hwe]
    exact word_write_idem i.bus f hw
  · intro h1 hwe w hw
    rw [hack, Bool.and_eq_true, Bool.not_eq_true'] at h1
    rw [hstable h1.1 h1.2] at hwe ⊢
    rw [dout_next hc hclk (hrange h1.1) hwe h.holds hw, flatNext, hwe]
    simp

/-! ## Runs -/

variable (c writeOut) (blocks : ℕ → ℕ → Block) (ins : ℕ → In)

/-- The module after `t` cycles from reset, with `blocks` as contents. -/
def states (t : ℕ) : State := run (next c writeOut) ins ⟨blocks, false⟩ t

/-- The flat array with the same writes. -/
def flats : ℕ → Flat
  | 0 => contents c ⟨blocks, false⟩
  | t + 1 => flatNext c (ins t) (states c writeOut blocks ins t) (flats t)

/-- A Wishbone master: addresses in range, wires kept up to the acknowledge. -/
structure Master : Prop where
  inRange : ∀ t, (ins t).bus.active = true → (ins t).bus.adr < words c
  stable : ∀ t, (ins t).bus.active = true → (states c writeOut blocks ins t).ack = false →
    (ins (t + 1)).bus = (ins t).bus

variable {c writeOut blocks ins}

/-- **Run.** -/
theorem answering_run (hc : c.Accepted) (hclk : ∀ t p, (ins t).aClkens p = true)
    (hmaster : Master c writeOut blocks ins) (t : ℕ) :
    Answering c (ins t).bus (states c writeOut blocks ins t) (flats c writeOut blocks ins t) := by
  induction t with
  | zero => exact ⟨holds_contents _, nofun, nofun, nofun⟩
  | succ t ih =>
    exact answering_next hc (hclk t) (hmaster.inRange t) (hmaster.stable t) ih

/-! ## The ports of the CFU -/

theorem striped (hc : c.Accepted) (hdual : c.dualPort = true) (r : Row) {d : ℕ}
    (hd : d < c.depthCascading) :
    let a := r.toNat * c.depthCascading + d
    a < words c ∧ bank c a = d ∧ row c a = r := by
  have hpow := hc.2 hdual
  have hr : r.toNat < 2 ^ 14 := r.isLt
  have hmod : (r.toNat * c.depthCascading + d) % c.depthCascading = d := Nat.mul_add_mod_of_lt hd
  have hdiv : (r.toNat * c.depthCascading + d) / c.depthCascading = r.toNat := by
    rw [Nat.mul_comm, Nat.mul_add_div (by omega), Nat.div_eq_of_lt hd, Nat.add_zero]
  refine ⟨?_, ?_, ?_⟩
  · rw [words_eq hc]
    nlinarith
  · unfold bank Params.selBitsStart
    by_cases hsel : 0 < c.selBits
    · rw [if_pos hsel, if_pos hdual, pow_zero, Nat.div_one, hpow, hmod]
    · rw [Nat.eq_zero_of_not_pos hsel, pow_zero] at hpow
      rw [if_neg hsel]
      omega
  · rw [row, Params.adrBitsStart, if_pos hdual, hpow, hdiv, BitVec.ofNat_toNat, BitVec.setWidth_eq]

/-- **Stripes.** Port `p` of the CFU addresses every `D`-th word of the array. -/
theorem bDouts_next (hc : c.Accepted) (hdual : c.dualPort = true)
    (hclk : ∀ p, i.bClkens p = true) (h : Holds c s f) {p : ℕ}
    (hp : p < c.depthCascading * c.widthCascading) :
    bDouts c (next c writeOut i s) p =
      f.word ((i.bAddrs p).toNat * (c.depthCascading * c.widthCascading) + p) := by
  have hd : p / c.widthCascading < c.depthCascading := Nat.div_lt_of_lt_mul (by rwa [Nat.mul_comm])
  have hindex : listIndex c (p / c.widthCascading) (p % c.widthCascading) = p :=
    Nat.div_add_mod' p c.widthCascading
  obtain ⟨hrange, hbank, hrow⟩ := striped hc hdual (i.bAddrs p) hd
  have hword := h _ hrange (p % c.widthCascading) (Nat.mod_lt _ (widthCascading_pos c))
  rw [hbank, hrow] at hword
  have hout : bDouts c (next c writeOut i s) p =
      (s.blocks (p / c.widthCascading) (p % c.widthCascading)).mem (i.bAddrs p) := by
    show (Block.clock ..).bDout = _
    rw [Block.clock, hclk, hindex]
    rfl
  rw [hout, hword, wordIndex]
  congr 1
  have hsplit := Nat.div_add_mod p c.widthCascading
  calc c.widthCascading * ((i.bAddrs p).toNat * c.depthCascading + p / c.widthCascading) +
        p % c.widthCascading
      = (i.bAddrs p).toNat * (c.depthCascading * c.widthCascading) +
        (c.widthCascading * (p / c.widthCascading) + p % c.widthCascading) := by ring
    _ = _ := by rw [hsplit]

/-- **`NXLRAM` is a flat memory.** With all clock enables high, under every Wishbone master: each
transaction is acknowledged in its second cycle; a read is then answered with the word of the flat
array that has had the same writes; and port `p` of the CFU at row `r` gives word `r * D + p` of
the array, where `D` is the number of banks. -/
theorem nxlram_is_flat (hc : c.Accepted) (hclk : ∀ t p, (ins t).aClkens p = true)
    (hclkB : ∀ t p, (ins t).bClkens p = true) (hmaster : Master c writeOut blocks ins) (t : ℕ) :
    ((ins t).bus.active = true → (states c writeOut blocks ins t).ack = false →
      (states c writeOut blocks ins (t + 1)).ack = true) ∧
    ((states c writeOut blocks ins t).ack = true → (ins t).bus.active = true ∧
      ((ins t).bus.we = false → ∀ w < c.widthCascading,
        datR c (ins t).bus (states c writeOut blocks ins t) w =
          (flats c writeOut blocks ins t).word (wordIndex c (ins t).bus.adr w))) ∧
    (c.dualPort = true → ∀ p < c.depthCascading * c.widthCascading,
      bDouts c (states c writeOut blocks ins (t + 1)) p =
        (flats c writeOut blocks ins t).word
          (((ins t).bAddrs p).toNat * (c.depthCascading * c.widthCascading) + p)) := by
  have hrun := answering_run hc hclk hmaster t
  refine ⟨fun hactive hack => ?_, fun hack => ⟨hrun.active hack, fun hread w hw => ?_⟩,
    fun hdual p hp => ?_⟩
  · have hnext : (states c writeOut blocks ins (t + 1)).ack =
        ((ins t).bus.active && !(states c writeOut blocks ins t).ack) := rfl
    rw [hnext, hactive, hack]
    rfl
  · rw [datR_eq (bank_lt hc (hmaster.inRange t (hrun.active hack))), hrun.read hack hread w hw]
  · exact bDouts_next hc hdual (hclkB t) hrun.holds hp

/-- A write and a read of address 5. -/
def writeThenRead (t : ℕ) : In where
  bus := ⟨t < 4, t < 4, t < 2, 5, fun _ => 0x12345678, fun _ => if t < 2 then 0b0111 else 0⟩
  aClkens _ := true
  bClkens _ := true
  bAddrs _ := 1

/-- In two stripes, three bytes of the written word are there in cycle 3. -/
theorem nxlram_is_flat_writeThenRead :
    datR ⟨32, 128 * kB, true⟩ (writeThenRead 3).bus
      (states ⟨32, 128 * kB, true⟩ (fun _ _ => 0) (fun _ _ => ⟨fun _ => 0, 0, 0⟩) writeThenRead 3)
      0 = 0x00345678 := by
  have hmaster : Master ⟨32, 128 * kB, true⟩ (fun _ _ => 0) (fun _ _ => ⟨fun _ => 0, 0, 0⟩)
      writeThenRead := by
    constructor
    · intro t _
      exact (by decide : 5 < words ⟨32, 128 * kB, true⟩)
    · intro t hactive hack
      have ht : t < 4 := by simpa [writeThenRead, Wires.active] using hactive
      interval_cases t
      · rfl
      · exact absurd hack (by decide)
      · rfl
      · exact absurd hack (by decide)
  exact ((nxlram_is_flat (by decide) (fun _ _ => rfl) (fun _ _ => rfl) hmaster 3).2.1
    (by decide)).2 (by decide) 0 (by decide) |>.trans (by decide +kernel)

end CfuPlayground.Nxlram
