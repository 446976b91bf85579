import Mathlib.Data.Nat.Size
import Mathlib.Order.Interval.Finset.Nat
import CfuPlayground.Lib.Run
import CfuPlayground.Cfu.Port

/-!
# `SequentialMemoryReader`

The reader of `amaranth_cfu/util.py` in front of a memory with one cycle of read latency. It
asks for an item one cycle before the item can be wanted, so that `data` moves on in the cycle
after `next`.

What it is for is `Cursor`: the number of the current item, moved by `restart` and `next`. The
reader shows the item under the cursor, and already addresses the one behind it
(`Following`).
-/

namespace CfuPlayground.AmaranthCfu.SequentialMemoryReader

open Lib (run run_succ)

/-- `bits_for`: the width of a signal whose largest value is `n`. -/
def bitsFor (n : ℕ) : ℕ := max 1 n.size

theorem lt_two_pow_bitsFor (n : ℕ) : n < 2 ^ bitsFor n :=
  n.lt_size_self.trans_le (Nat.pow_le_pow_right (by decide) (le_max_right _ _))

/-- The wires of one cycle. -/
structure In where
  limit : ℕ
  memData : Word
  next : Bool
  restart : Bool

/-- The registers. -/
structure State where
  wasRestart : Bool := false
  wasNext : Bool := false
  lastMemAddr : ℕ := 0
  lastData : Word := 0
deriving DecidableEq

variable (maxDepth : ℕ)

/-- `incremented_addr`, a signal as wide as `limit`. -/
def incrementedAddr (i : In) (s : State) : ℕ :=
  (if (s.lastMemAddr : ℤ) = i.limit - 1 then 0 else s.lastMemAddr + 1) % 2 ^ bitsFor maxDepth

/-- `mem_addr`. -/
def memAddr (i : In) (s : State) : ℕ :=
  if i.restart then 0
  else if s.wasNext || s.wasRestart then
    incrementedAddr maxDepth i s % 2 ^ bitsFor (maxDepth - 1)
  else s.lastMemAddr

/-- `data`. -/
def data (i : In) (s : State) : Word :=
  if s.wasRestart || s.wasNext then i.memData else s.lastData

/-- **One clock edge** of the reader. -/
def next (i : In) (s : State) : State where
  wasRestart := i.restart
  wasNext := i.next
  lastMemAddr := memAddr maxDepth i s
  lastData := data i s

/-! ## The reader in front of its memory -/

/-- The pulses of one cycle. -/
structure Pulses where
  restart : Bool
  next : Bool

/-- The reader, and the word its memory drives. -/
structure Stream where
  reader : State := {}
  memData : Word

variable (limit : ℕ) (mem : ℕ → Word)

/-- The wires into the reader. -/
def Stream.wires (p : Pulses) (s : Stream) : In := ⟨limit, s.memData, p.next, p.restart⟩

/-- The address on the memory in this cycle. -/
def Stream.addr (p : Pulses) (s : Stream) : ℕ := memAddr maxDepth (s.wires limit p) s.reader

/-- The word shown in this cycle. -/
def Stream.out (p : Pulses) (s : Stream) : Word := data (s.wires limit p) s.reader

/-- **One cycle**: the memory answers this address with the next edge. -/
def Stream.tick (p : Pulses) (s : Stream) : Stream where
  reader := SequentialMemoryReader.next maxDepth (s.wires limit p) s.reader
  memData := mem (s.addr maxDepth limit p)

/-! ## What it is for -/

/-- The number of the current item: none before the first `restart`. -/
abbrev Cursor := Option ℕ

/-- `restart` goes to the first item, `next` to the one behind the current. -/
def Cursor.move (p : Pulses) (c : Cursor) : Cursor :=
  if p.restart then some 0 else if p.next then c.map (· + 1) else c

/-- The reader follows the cursor: the address it has put out last lies in the range; if the
last pulse has moved the cursor, the memory now drives the item under it, and else the reader
has kept that item. The address is the one of the current item in the cycle after a pulse
and the one behind it afterwards. -/
structure Following (c : Cursor) (s : Stream) : Prop where
  inRange : s.reader.lastMemAddr < limit
  word : ∀ k, c = some k →
    (if s.reader.wasRestart || s.reader.wasNext then s.memData else s.reader.lastData) =
      mem (k % limit)
  addr : ∀ k, c = some k → s.reader.lastMemAddr =
    if s.reader.wasNext || s.reader.wasRestart then k % limit else (k + 1) % limit

variable {maxDepth limit mem}

theorem incrementedAddr_eq {i : In} {s : State} (hle : i.limit ≤ maxDepth)
    (hlast : s.lastMemAddr < i.limit) :
    incrementedAddr maxDepth i s = (s.lastMemAddr + 1) % i.limit := by
  have hwide := lt_two_pow_bitsFor maxDepth
  unfold incrementedAddr
  by_cases htop : s.lastMemAddr + 1 = i.limit
  · rw [if_pos (by omega), Nat.zero_mod, htop, Nat.mod_self]
  · rw [if_neg (by omega), Nat.mod_eq_of_lt (by omega), Nat.mod_eq_of_lt (by omega)]

theorem mod_addrWidth {limit n : ℕ} (hle : limit ≤ maxDepth) (hn : n < limit) :
    n % 2 ^ bitsFor (maxDepth - 1) = n := by
  have hwide := lt_two_pow_bitsFor (maxDepth - 1)
  exact Nat.mod_eq_of_lt (by omega)

variable {p : Pulses} {s : Stream} {c : Cursor}

theorem Stream.addr_eq (hle : limit ≤ maxDepth) (hlast : s.reader.lastMemAddr < limit) :
    s.addr maxDepth limit p =
      if p.restart then 0
      else if s.reader.wasNext || s.reader.wasRestart then (s.reader.lastMemAddr + 1) % limit
      else s.reader.lastMemAddr := by
  have hinc : incrementedAddr maxDepth (s.wires limit p) s.reader = _ :=
    incrementedAddr_eq hle hlast
  have hlt : (s.reader.lastMemAddr + 1) % limit < limit := Nat.mod_lt _ (by omega)
  simp only [Stream.addr, memAddr, hinc]
  rw [show (s.wires limit p).limit = limit from rfl, mod_addrWidth hle hlt]
  rfl

/-- **Range.** The address on the memory stays below the limit. -/
theorem Stream.addr_lt (hle : limit ≤ maxDepth) (hlast : s.reader.lastMemAddr < limit) :
    s.addr maxDepth limit p < limit := by
  have hlt : (s.reader.lastMemAddr + 1) % limit < limit := Nat.mod_lt _ (by omega)
  rw [Stream.addr_eq hle hlast]
  split_ifs <;> omega

theorem Following.addr_eq (h : Following limit mem c s) (hle : limit ≤ maxDepth)
    (hp : p.restart = false) {k : ℕ} (hk : c = some k) :
    s.addr maxDepth limit p = (k + 1) % limit := by
  have hlast := h.addr k hk
  rw [Stream.addr_eq hle h.inRange, if_neg (by simp [hp])]
  by_cases hpulse : (s.reader.wasNext || s.reader.wasRestart) = true
  · rw [if_pos hpulse] at hlast ⊢
    rw [hlast, Nat.mod_add_mod]
  · rw [if_neg hpulse] at hlast ⊢
    exact hlast

theorem Following.out_eq (h : Following limit mem c s) {k : ℕ} (hk : c = some k) :
    s.out limit p = mem (k % limit) := h.word k hk

/-- **Step.** A cycle of the reader moves the cursor. -/
theorem Following.tick (h : Following limit mem c s) (hle : limit ≤ maxDepth) :
    Following limit mem (c.move p) (s.tick maxDepth limit mem p) where
  inRange := Stream.addr_lt hle h.inRange
  word k hk := by
    show (if p.restart || p.next then mem (s.addr maxDepth limit p) else s.out limit p) = _
    cases hr : p.restart with
    | true =>
      have hk : k = 0 := by simpa [Cursor.move, hr, eq_comm] using hk
      rw [Stream.addr_eq hle h.inRange, hr, hk]
      simp
    | false =>
      cases hn : p.next with
      | true =>
        obtain ⟨j, hj, rfl⟩ : ∃ j, c = some j ∧ j + 1 = k := by
          simpa [Cursor.move, hr, hn] using hk
        simp [h.addr_eq hle hr hj]
      | false =>
        have hk : c = some k := by simpa [Cursor.move, hr, hn] using hk
        simp [h.out_eq hk]
  addr k hk := by
    show s.addr maxDepth limit p = if p.next || p.restart then _ else _
    cases hr : p.restart with
    | true =>
      have hk : k = 0 := by simpa [Cursor.move, hr, eq_comm] using hk
      rw [Stream.addr_eq hle h.inRange, hr, hk]
      simp
    | false =>
      cases hn : p.next with
      | true =>
        obtain ⟨j, hj, rfl⟩ : ∃ j, c = some j ∧ j + 1 = k := by
          simpa [Cursor.move, hr, hn] using hk
        simp [h.addr_eq hle hr hj]
      | false =>
        have hk : c = some k := by simpa [Cursor.move, hr, hn] using hk
        simp [h.addr_eq hle hr hk]

/-! ## Runs -/

variable (maxDepth limit mem) (pulses : ℕ → Pulses) (powerUp : Word)

/-- The reader after `t` cycles from reset; `powerUp` is what the memory drives at first. -/
def streamAt (t : ℕ) : Stream :=
  run (Stream.tick maxDepth limit mem) pulses { memData := powerUp } t

/-- The cursor after `t` cycles. -/
def cursorAt (t : ℕ) : Cursor := run Cursor.move pulses none t

variable {maxDepth limit mem pulses powerUp}

/-- **Run.** The reader follows the cursor in every run from reset. -/
theorem following_streamAt (hpos : 1 ≤ limit) (hle : limit ≤ maxDepth) (t : ℕ) :
    Following limit mem (cursorAt pulses t) (streamAt maxDepth limit mem pulses powerUp t) := by
  induction t with
  | zero => exact ⟨hpos, nofun, nofun⟩
  | succ t ih => exact ih.tick hle

theorem cursorAt_eq {r t : ℕ} (hr : (pulses r).restart) (hrt : r < t)
    (hlast : ∀ j, r < j → j < t → (pulses j).restart = false) :
    cursorAt pulses t = some ((Finset.Ioo r t).filter fun j => (pulses j).next).card := by
  induction t, hrt using Nat.le_induction with
  | base =>
    have hnone : Finset.Ioo r (r + 1) = ∅ := by
      ext j
      simp only [Finset.mem_Ioo, Finset.notMem_empty, iff_false]
      omega
    simp [cursorAt, run_succ, Cursor.move, hr, hnone]
  | succ t hrt ih =>
    have hgrow : Finset.Ioo r (t + 1) = insert t (Finset.Ioo r t) := by
      ext j
      simp only [Finset.mem_Ioo, Finset.mem_insert]
      omega
    have hmove : cursorAt pulses (t + 1) = (cursorAt pulses t).move (pulses t) := rfl
    rw [hmove, ih fun j h1 h2 => hlast j h1 (by omega), Cursor.move, hlast t hrt (by omega),
      hgrow, Finset.filter_insert]
    cases (pulses t).next with
    | true => simp
    | false => simp

/-- **The reader streams the memory in order.** In every run from reset the address stays below
the limit; and in every cycle after a `restart` the reader shows the item whose number is the
number of `next` pulses since, modulo the limit. -/
theorem reader_streams_in_order (hpos : 1 ≤ limit) (hle : limit ≤ maxDepth) (t : ℕ) :
    (streamAt maxDepth limit mem pulses powerUp t).addr maxDepth limit (pulses t) < limit ∧
    ∀ r < t, (pulses r).restart → (∀ j, r < j → j < t → (pulses j).restart = false) →
      (streamAt maxDepth limit mem pulses powerUp t).out limit (pulses t) =
        mem (((Finset.Ioo r t).filter fun j => (pulses j).next).card % limit) := by
  have hfollow : Following limit mem (cursorAt pulses t)
      (streamAt maxDepth limit mem pulses powerUp t) := following_streamAt hpos hle t
  exact ⟨Stream.addr_lt hle hfollow.inRange, fun r hrt hr hlast =>
    hfollow.out_eq (cursorAt_eq hr hrt hlast)⟩

/-- `restart` in cycle 0 and `next` held from there: with four items, cycle 6 shows item 1 of
the second round. -/
theorem reader_streams_in_order_wraps :
    (streamAt 8 4 (BitVec.ofNat 32) (fun t => ⟨t = 0, true⟩) 0 6).out 4 ⟨false, true⟩ = 1 := by
  have hlast : ∀ j, 0 < j → j < 6 → (Pulses.mk (j = 0) true).restart = false := by
    intro j hj _
    simp [hj.ne']
  exact (reader_streams_in_order (by decide) (by decide) 6).2 0 (by decide) (by decide) hlast

end CfuPlayground.AmaranthCfu.SequentialMemoryReader
