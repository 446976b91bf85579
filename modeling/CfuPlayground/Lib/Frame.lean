import Mathlib.Data.BitVec
import CfuPlayground.Lib.Assembly

/-!
# Registers saved below the stack pointer

`savedMem` is the memory with registers in places (`slot`) below `sp`, `loaded` the machine with
registers loaded from there. `guarded l f` saves the registers of `l`, calls `f` below them and
restores. If `f` keeps the registers that are not saved, `sp` and the frame, all registers come
back (`exec_guarded`).
-/

namespace CfuPlayground.Lib.Assembly

/-- `x2`. -/
abbrev sp : Reg := 2

/-! ## Aligned addresses -/

theorem aligned_add {a b : BitVec 32} (ha : aligned a) (hb : aligned b) : aligned (a + b) := by
  unfold aligned at *
  rw [BitVec.toNat_add]
  omega

theorem aligned_neg {a : BitVec 32} (ha : aligned a) : aligned (-a) := by
  unfold aligned at *
  rw [BitVec.toNat_neg]
  omega

theorem aligned_ofNat (k : ℕ) : aligned (BitVec.ofNat 32 (4 * k)) := by
  unfold aligned
  rw [BitVec.toNat_ofNat]
  omega

/-! ## Places below the stack pointer -/

/-- The place `i` words below `s`. -/
def slot (s : BitVec 32) (i : ℕ) : BitVec 32 := s + -BitVec.ofNat 32 (4 * i)

section Slots

variable {s : BitVec 32} {i j : ℕ}

theorem slot_zero : slot s 0 = s := by
  have h0 : -BitVec.ofNat 32 (4 * 0) = (0 : BitVec 32) := by decide
  rw [slot, h0, add_zero]

theorem aligned_slot (hs : aligned s) : aligned (slot s i) :=
  aligned_add hs (aligned_neg (aligned_ofNat i))

theorem slot_add (hji : j ≤ i) : slot s i + BitVec.ofNat 32 (4 * (i - j)) = slot s j := by
  have hsplit : BitVec.ofNat 32 (4 * i) =
      BitVec.ofNat 32 (4 * (i - j)) + BitVec.ofNat 32 (4 * j) := by
    rw [← BitVec.ofNat_add, show 4 * (i - j) + 4 * j = 4 * i by omega]
  unfold slot
  rw [hsplit]
  ring

theorem apart_slot_of_lt (hi : 4 * i < 2 ^ 32) (hji : j < i) : Apart (slot s j) (slot s i) := by
  have hplace := slot_add (s := s) (Nat.le_of_lt hji)
  have hup : slot s j - slot s i = BitVec.ofNat 32 (4 * (i - j)) := by
    rw [← hplace]
    ring
  have hdown : slot s i - slot s j = -BitVec.ofNat 32 (4 * (i - j)) := by
    rw [← hplace]
    ring
  constructor
  · rw [hup, BitVec.toNat_ofNat]
    omega
  · rw [hdown, BitVec.toNat_neg, BitVec.toNat_ofNat]
    omega

theorem apart_slot (hj : 4 * j < 2 ^ 32) (hi : 4 * i < 2 ^ 32) (h : j ≠ i) :
    Apart (slot s j) (slot s i) := by
  rcases Nat.lt_or_gt_of_ne h with hlt | hgt
  · exact apart_slot_of_lt hi hlt
  · exact (apart_slot_of_lt hj hgt).symm

end Slots

/-! ## Saving -/

variable {F : Type} {env : F → Machine → Machine} {m : Machine}

/-- The memory with each register in its place below `sp`. -/
def savedMem (m : Machine) (ps : List (Reg × ℕ)) : ByteMemory :=
  ps.foldl (fun mem p => storeWord mem (slot (m.reg sp) p.2) (m.reg p.1)) m.mem

section Saving

variable {ps : List (Reg × ℕ)}

theorem foldl_sw : ps.foldl (fun m p => m.sw p.1 (-BitVec.ofNat 32 (4 * p.2)) sp) m =
    m.setMem (savedMem m ps) := by
  induction ps generalizing m with
  | nil => rfl
  | cons p ps ih =>
    rw [List.foldl_cons, ih]
    rfl

theorem exec_sw (hs : aligned (m.reg sp)) :
    exec env (ps.map fun p => .sw p.1 (-BitVec.ofNat 32 (4 * p.2)) sp) m =
      some (m.setMem (savedMem m ps)) := by
  induction ps generalizing m with
  | nil => rfl
  | cons p ps ih =>
    have hal : aligned (m.reg sp + -BitVec.ofNat 32 (4 * p.2)) := aligned_slot hs
    rw [List.map_cons, exec_cons, Instr.exec, if_pos hal, Option.bind_some]
    exact ih (m := m.setMem _) hs

theorem loadWord_savedMem (hnodup : (ps.map Prod.snd).Nodup) (hfit : ∀ p ∈ ps, 4 * p.2 < 2 ^ 32)
    {p : Reg × ℕ} (hp : p ∈ ps) :
    loadWord (savedMem m ps) (slot (m.reg sp) p.2) = m.reg p.1 := by
  have hapart : ps.Pairwise fun p q => Apart (slot (m.reg sp) p.2) (slot (m.reg sp) q.2) :=
    (List.pairwise_map.mp hnodup).imp_of_mem fun hp hq h => apart_slot (hfit _ hp) (hfit _ hq) h
  unfold savedMem
  exact loadWord_foldl_of_mem hapart hp

theorem loadWord_savedMem_of_ne (hfit : ∀ p ∈ ps, 4 * p.2 < 2 ^ 32) {i : ℕ} (hi : 4 * i < 2 ^ 32)
    (h : ∀ p ∈ ps, p.2 ≠ i) :
    loadWord (savedMem m ps) (slot (m.reg sp) i) = loadWord m.mem (slot (m.reg sp) i) :=
  loadWord_foldl_of_apart fun p hp => apart_slot hi (hfit p hp) (h p hp).symm

theorem savedMem_apply {n : ℕ} (hn : 4 * n ≤ 2 ^ 32) (hps : ∀ p ∈ ps, 1 ≤ p.2 ∧ p.2 ≤ n)
    {x : BitVec 32} (hx : 4 * n ≤ (x - slot (m.reg sp) n).toNat) : savedMem m ps x = m.mem x := by
  refine foldl_storeWord_apply fun p hp => ?_
  obtain ⟨hpos, hle⟩ := hps p hp
  have hsplit : x - slot (m.reg sp) p.2 =
      x - slot (m.reg sp) n - BitVec.ofNat 32 (4 * (n - p.2)) := by
    rw [← slot_add hle]
    ring
  rw [hsplit, BitVec.toNat_sub, BitVec.toNat_ofNat]
  have hlt := (x - slot (m.reg sp) n).isLt
  omega

end Saving

/-! ## Restoring -/

section Restoring

variable {l : List Reg} {off : Reg → BitVec 32}

/-- The machine with the registers of `l` loaded from their offsets. -/
def loaded (m : Machine) (l : List Reg) (off : Reg → BitVec 32) : Machine :=
  { m with
    regs := fun k => if k ∈ l then loadWord m.mem (m.reg sp + off k) else m.regs k }

theorem loaded_cons {j : Reg} (hj : sp ≠ j) :
    loaded (m.lw j (off j) sp) l off = loaded m (j :: l) off := by
  have hbase : (m.lw j (off j) sp).reg sp = m.reg sp := Machine.reg_setReg_of_ne hj
  unfold loaded
  rw [hbase]
  show Machine.mk _ _ _ = Machine.mk _ _ _
  congr 1
  funext k
  by_cases hk : k ∈ l
  · rw [if_pos hk, if_pos (List.mem_cons_of_mem _ hk)]
    rfl
  · rw [if_neg hk]
    by_cases hkj : k = j
    · rw [hkj, if_pos List.mem_cons_self]
      exact Function.update_self ..
    · rw [if_neg (by simp [hkj, hk])]
      exact Function.update_of_ne hkj ..

theorem loaded_nil : loaded m [] off = m := by
  simp [loaded]

theorem foldl_lw (hsp : sp ∉ l) : l.foldl (fun m k => m.lw k (off k) sp) m = loaded m l off := by
  induction l generalizing m with
  | nil => exact loaded_nil.symm
  | cons j l ih =>
    rw [List.mem_cons, not_or] at hsp
    rw [List.foldl_cons, ih hsp.2, loaded_cons hsp.1]

theorem exec_lw (env : F → Machine → Machine) (hs : aligned (m.reg sp)) (hsp : sp ∉ l)
    (hoff : ∀ k, aligned (off k)) :
    exec env (l.map fun k => .lw k (off k) sp) m = some (loaded m l off) := by
  induction l generalizing m with
  | nil => rw [loaded_nil, List.map_nil, exec_nil]
  | cons j l ih =>
    rw [List.mem_cons, not_or] at hsp
    have hbase : (m.lw j (off j) sp).reg sp = m.reg sp := Machine.reg_setReg_of_ne hsp.1
    rw [List.map_cons, exec_cons, Instr.exec, if_pos (aligned_add hs (hoff j)), Option.bind_some,
      ih (by rw [hbase]; exact hs) hsp.2, loaded_cons hsp.1]

theorem reg_loaded {k : Reg} (hk : k ∈ l) (h0 : k ≠ 0) :
    (loaded m l off).reg k = loadWord m.mem (m.reg sp + off k) := by
  rw [Machine.reg_of_ne h0]
  exact if_pos hk

theorem reg_loaded_of_not_mem {k : Reg} (hk : k ∉ l) : (loaded m l off).reg k = m.reg k := by
  unfold Machine.reg
  split_ifs
  · rfl
  · exact if_neg hk

@[simp] theorem loaded_mem : (loaded m l off).mem = m.mem := rfl

@[simp] theorem loaded_csrs : (loaded m l off).csrs = m.csrs := rfl

end Restoring

/-! ## The call -/

/-- `sw r, -(i + 1) * 4(sp)` for the `i`-th register `r`. -/
def saveRegs (l : List Reg) : List (Instr F) :=
  l.zipIdx.map fun p => .sw p.1 (-BitVec.ofNat 32 (4 * (p.2 + 1))) sp

/-- `lw r, (n - 1 - i) * 4(sp)` for the `i`-th register `r` of `n`. -/
def restoreRegs (l : List Reg) : List (Instr F) :=
  l.zipIdx.map fun p => .lw p.1 (BitVec.ofNat 32 (4 * (l.length - 1 - p.2))) sp

/-- Save, make room, call, restore, give the room back. -/
def guarded (l : List Reg) (f : F) : List (Instr F) :=
  saveRegs l ++ ([.addi sp sp (-BitVec.ofNat 32 (4 * l.length)), .call f] ++
    (restoreRegs l ++ [.addi sp sp (BitVec.ofNat 32 (4 * l.length))]))

/-- The `i`-th register has the place `i + 1`. -/
def places (l : List Reg) : List (Reg × ℕ) := l.zipIdx.map fun p => (p.1, p.2 + 1)

variable {l : List Reg}

theorem mem_places {p : Reg × ℕ} (hp : p ∈ places l) : 1 ≤ p.2 ∧ p.2 ≤ l.length := by
  obtain ⟨q, hq, rfl⟩ := List.mem_map.mp hp
  exact ⟨Nat.le_add_left 1 q.2, (List.mem_zipIdx' hq).1⟩

theorem nodup_places : ((places l).map Prod.snd).Nodup := by
  have hsnd : (places l).map Prod.snd = (List.range l.length).map (· + 1) := by
    rw [places, List.map_map, List.range_eq_range', ← List.zipIdx_map_snd 0 l, List.map_map]
    rfl
  rw [hsnd]
  exact (List.nodup_range).map (fun a b h => Nat.succ.inj h)

theorem exec_saveRegs (hs : aligned (m.reg sp)) :
    exec env (saveRegs l) m = some (m.setMem (savedMem m (places l))) := by
  have hmap : (saveRegs l : List (Instr F)) =
      (places l).map fun p => .sw p.1 (-BitVec.ofNat 32 (4 * p.2)) sp := by
    rw [saveRegs, places, List.map_map]
    rfl
  rw [hmap, exec_sw hs]

/-- The offset that `r` is restored from. -/
def restoreOffset (l : List Reg) (r : Reg) : BitVec 32 :=
  BitVec.ofNat 32 (4 * (l.length - 1 - l.idxOf r))

theorem exec_restoreRegs (hs : aligned (m.reg sp)) (hsp : sp ∉ l) (hnodup : l.Nodup) :
    exec env (restoreRegs l) m = some (loaded m l (restoreOffset l)) := by
  have hmap : (restoreRegs l : List (Instr F)) =
      l.map fun r => .lw r (restoreOffset l r) sp := by
    apply List.ext_getElem
    · simp [restoreRegs]
    · intro i h₁ h₂
      have hi : i < l.length := by simpa using h₂
      simp [restoreRegs, restoreOffset, hnodup.idxOf_getElem i hi]
  rw [hmap]
  exact exec_lw env hs hsp fun r => aligned_ofNat _

/-- The machine that `f` is called on. -/
def entered (m : Machine) (l : List Reg) : Machine :=
  (m.setMem (savedMem m (places l))).addi sp sp (-BitVec.ofNat 32 (4 * l.length))

@[simp] theorem entered_mem : (entered m l).mem = savedMem m (places l) := rfl

@[simp] theorem entered_sp : (entered m l).reg sp = slot (m.reg sp) l.length :=
  Machine.reg_setReg_self (by decide)

/-- `f` keeps `sp`, the registers that are not in `l`, and the words above its `sp` that hold the
saved registers. -/
structure Keeps (l : List Reg) (f : Machine → Machine) : Prop where
  sp : ∀ m, (f m).reg sp = m.reg sp
  regs : ∀ m r, r ∉ l → (f m).reg r = m.reg r
  frame : ∀ m x, (x - m.reg Assembly.sp).toNat < 4 * l.length → (f m).mem x = m.mem x

theorem loadWord_entered {f : Machine → Machine} (hf : Keeps l f) (hn : 4 * l.length < 2 ^ 32)
    {i : ℕ} (hi : i < l.length) :
    loadWord (f (entered m l)).mem (slot (m.reg sp) (i + 1)) = m.reg l[i] := by
  have hp : (l[i], i + 1) ∈ places l := List.mem_map.mpr
    ⟨(l[i], i), List.mk_mem_zipIdx_iff_getElem?.mpr (List.getElem?_eq_getElem hi), rfl⟩
  have hfit : ∀ p ∈ places l, 4 * p.2 < 2 ^ 32 := by
    intro p hp
    have hle := (mem_places hp).2
    omega
  rw [← loadWord_savedMem nodup_places hfit hp]
  refine loadWord_congr fun k hk => ?_
  rw [hf.frame _ _ ?_, entered_mem]
  have hsub : slot (m.reg sp) (i + 1) + BitVec.ofNat 32 k - slot (m.reg sp) l.length =
      BitVec.ofNat 32 (4 * (l.length - (i + 1)) + k) := by
    rw [← slot_add hi, BitVec.ofNat_add]
    ring
  rw [entered_sp, hsub, BitVec.toNat_ofNat]
  omega

/-- **A guarded call.** All registers come back; the memory and the control registers are as `f`
leaves them. -/
theorem exec_guarded {f : F} (hf : Keeps l (env f)) (hnodup : l.Nodup) (hsp : sp ∉ l)
    (hn : 4 * l.length < 2 ^ 32) (hs : aligned (m.reg sp)) :
    ∃ m', exec env (guarded l f) m = some m' ∧ (∀ r, m'.reg r = m.reg r) ∧
      m'.mem = (env f (entered m l)).mem ∧ m'.csrs = (env f (entered m l)).csrs := by
  set m₁ := env f (entered m l) with hm₁
  have hsp₁ : m₁.reg sp = slot (m.reg sp) l.length := (hf.sp _).trans entered_sp
  have hal : aligned (m₁.reg sp) := by
    rw [hsp₁]
    exact aligned_slot hs
  set m₂ := loaded m₁ l (restoreOffset l) with hm₂
  have hsp₂ : m₂.reg sp = slot (m.reg sp) l.length := (reg_loaded_of_not_mem hsp).trans hsp₁
  refine ⟨m₂.addi sp sp (BitVec.ofNat 32 (4 * l.length)), ?_, fun r => ?_, rfl, rfl⟩
  · rw [guarded, exec_append, exec_saveRegs hs, Option.bind_some, exec_append]
    have hcall : exec env [.addi sp sp (-BitVec.ofNat 32 (4 * l.length)), .call f]
        (m.setMem (savedMem m (places l))) = some m₁ := rfl
    rw [hcall, Option.bind_some, exec_append, exec_restoreRegs hal hsp hnodup]
    rfl
  · by_cases hr : r = sp
    · subst hr
      have hback := slot_add (s := m.reg sp) (Nat.zero_le l.length)
      rw [Nat.sub_zero, slot_zero] at hback
      rw [Machine.addi, Machine.reg_setReg_self (by decide), hsp₂, hback]
    · rw [Machine.addi, Machine.reg_setReg_of_ne hr]
      by_cases hrl : r ∈ l
      · by_cases h0 : r = 0
        · rw [h0, Machine.reg_zero, Machine.reg_zero]
        · obtain ⟨i, hi, rfl⟩ := List.getElem_of_mem hrl
          rw [hm₂, reg_loaded hrl h0, hsp₁, restoreOffset, hnodup.idxOf_getElem i hi,
            Nat.sub_sub, Nat.add_comm 1 i, slot_add hi, hm₁, loadWord_entered hf hn hi]
      · rw [hm₂, reg_loaded_of_not_mem hrl, hf.regs _ r hrl]
        exact Machine.reg_setReg_of_ne hr

end CfuPlayground.Lib.Assembly
