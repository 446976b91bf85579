import CfuPlayground.Lib.Lane

/-!
# Words in a byte-addressed memory

Little-endian words of four bytes at any address of a 32-bit address space that wraps. Two words
that are `Apart` do not touch each other. A list of stores is read back word by word
(`loadWord_foldl_of_mem`) and leaves every other byte alone (`foldl_storeWord_apply`).
-/

namespace CfuPlayground.Lib

/-- A memory, byte by byte. -/
abbrev ByteMemory := BitVec 32 → BitVec 8

variable {mem : ByteMemory} {a b : BitVec 32}

/-- The word at `a`. -/
def loadWord (mem : ByteMemory) (a : BitVec 32) : BitVec 32 :=
  mem (a + 3#32) ++ mem (a + 2#32) ++ mem (a + 1#32) ++ mem a

/-- Store the word `v` at `a`. -/
def storeWord (mem : ByteMemory) (a v : BitVec 32) : ByteMemory := fun x =>
  if (x - a).toNat < 4 then lane v (x - a).toNat else mem x

/-- The words at `a` and `b` have no byte in common. -/
def Apart (a b : BitVec 32) : Prop := 4 ≤ (a - b).toNat ∧ 4 ≤ (b - a).toNat

instance : Decidable (Apart a b) := inferInstanceAs (Decidable (_ ∧ _))

theorem Apart.symm (h : Apart a b) : Apart b a := ⟨h.2, h.1⟩

theorem storeWord_apply (x v : BitVec 32) (h : 4 ≤ (x - a).toNat) :
    storeWord mem a v x = mem x := if_neg (by omega)

theorem storeWord_byte (v : BitVec 32) {k : ℕ} (hk : k < 4) :
    storeWord mem a v (a + BitVec.ofNat 32 k) = lane v k := by
  have hsub : (a + BitVec.ofNat 32 k - a).toNat = k := by
    rw [BitVec.add_comm, BitVec.add_sub_cancel, BitVec.toNat_ofNat]
    omega
  rw [storeWord, hsub, if_pos hk]

@[simp] theorem loadWord_storeWord (v : BitVec 32) : loadWord (storeWord mem a v) a = v := by
  have hbyte : ∀ k < 4, storeWord mem a v (a + BitVec.ofNat 32 k) = lane v k :=
    fun k hk => storeWord_byte v hk
  have h0 : storeWord mem a v a = lane v 0 := by simpa using hbyte 0 (by decide)
  rw [loadWord, hbyte 3 (by decide), hbyte 2 (by decide), hbyte 1 (by decide), h0, append_lanes]

theorem loadWord_storeWord_of_apart (v : BitVec 32) (h : Apart a b) :
    loadWord (storeWord mem b v) a = loadWord mem a := by
  obtain ⟨hab, hba⟩ := h
  have hfar : ∀ k < 4, 4 ≤ (a + BitVec.ofNat 32 k - b).toNat := by
    intro k hk
    bv_omega
  unfold loadWord
  rw [storeWord_apply _ v (hfar 3 (by decide)), storeWord_apply _ v (hfar 2 (by decide)),
    storeWord_apply _ v (hfar 1 (by decide)),
    storeWord_apply _ v (by simpa using hfar 0 (by decide))]

theorem lane_loadWord {k : ℕ} (hk : k < 4) :
    lane (loadWord mem a) k = mem (a + BitVec.ofNat 32 k) := by
  obtain ⟨h0, h1, h2, h3⟩ :=
    lane_append (mem (a + 3#32)) (mem (a + 2#32)) (mem (a + 1#32)) (mem a)
  interval_cases k
  · simpa [loadWord] using h0
  · exact h1
  · exact h2
  · exact h3

theorem loadWord_congr {mem' : ByteMemory}
    (h : ∀ k < 4, mem' (a + BitVec.ofNat 32 k) = mem (a + BitVec.ofNat 32 k)) :
    loadWord mem' a = loadWord mem a := by
  have h0 : mem' a = mem a := by simpa using h 0 (by decide)
  have h1 : mem' (a + 1#32) = mem (a + 1#32) := h 1 (by decide)
  have h2 : mem' (a + 2#32) = mem (a + 2#32) := h 2 (by decide)
  have h3 : mem' (a + 3#32) = mem (a + 3#32) := h 3 (by decide)
  rw [loadWord, loadWord, h0, h1, h2, h3]

/-- The words at or above `s` are unchanged exactly if the bytes are, unless no word fits there. -/
theorem words_iff_bytes {mem' : ByteMemory} {s : BitVec 32} (hs : s.toNat + 4 ≤ 2 ^ 32) :
    (∀ a : BitVec 32, s.toNat ≤ a.toNat → a.toNat + 4 ≤ 2 ^ 32 →
        loadWord mem' a = loadWord mem a) ↔
      ∀ a : BitVec 32, s.toNat ≤ a.toNat → mem' a = mem a := by
  constructor
  · intro h a ha
    -- the last three bytes belong to the last word
    obtain ⟨b, k, hk, hsb, hb, rfl⟩ : ∃ b : BitVec 32, ∃ k < 4, s.toNat ≤ b.toNat ∧
        b.toNat + 4 ≤ 2 ^ 32 ∧ b + BitVec.ofNat 32 k = a := by
      by_cases hlast : a.toNat + 4 ≤ 2 ^ 32
      · exact ⟨a, 0, by decide, ha, hlast, by simp⟩
      · refine ⟨BitVec.ofNat 32 (2 ^ 32 - 4), a.toNat - (2 ^ 32 - 4), by omega, ?_, by decide, ?_⟩
        · rw [BitVec.toNat_ofNat]
          omega
        · apply BitVec.eq_of_toNat_eq
          rw [BitVec.toNat_add, BitVec.toNat_ofNat, BitVec.toNat_ofNat]
          omega
    have hlane := congrArg (lane · k) (h b hsb hb)
    rwa [lane_loadWord hk, lane_loadWord hk] at hlane
  · intro h a ha hfit
    refine loadWord_congr fun k hk => h _ ?_
    rw [BitVec.toNat_add, BitVec.toNat_ofNat]
    omega

/-! ## A list of stores -/

variable {ι : Type} {addr : ι → BitVec 32} {val : ι → BitVec 32} {l : List ι}

theorem foldl_storeWord_apply {x : BitVec 32} (h : ∀ i ∈ l, 4 ≤ (x - addr i).toNat) :
    l.foldl (fun mem i => storeWord mem (addr i) (val i)) mem x = mem x := by
  induction l generalizing mem with
  | nil => rfl
  | cons i l ih =>
    rw [List.foldl_cons, ih fun j hj => h j (List.mem_cons_of_mem _ hj),
      storeWord_apply _ _ (h i List.mem_cons_self)]

theorem loadWord_foldl_of_apart (h : ∀ i ∈ l, Apart a (addr i)) :
    loadWord (l.foldl (fun mem i => storeWord mem (addr i) (val i)) mem) a = loadWord mem a := by
  induction l generalizing mem with
  | nil => rfl
  | cons i l ih =>
    rw [List.foldl_cons, ih fun j hj => h j (List.mem_cons_of_mem _ hj),
      loadWord_storeWord_of_apart _ (h i List.mem_cons_self)]

/-- Words stored at pairwise separate addresses are all there afterwards. -/
theorem loadWord_foldl_of_mem (hl : l.Pairwise fun i j => Apart (addr i) (addr j)) {i : ι}
    (hi : i ∈ l) :
    loadWord (l.foldl (fun mem i => storeWord mem (addr i) (val i)) mem) (addr i) = val i := by
  induction l generalizing mem with
  | nil => cases hi
  | cons j l ih =>
    obtain ⟨hj, hl⟩ := List.pairwise_cons.mp hl
    rw [List.foldl_cons]
    rcases List.mem_cons.mp hi with rfl | hi
    · rw [loadWord_foldl_of_apart hj, loadWord_storeWord]
    · exact ih hl hi

end CfuPlayground.Lib
