import Mathlib.Data.Nat.Digits.Lemmas
import CfuPlayground.Lib.Lane
import CfuPlayground.Lib.Mix

/-!
# The hash of a buffer

`murmurhash3_32` as `playground_util` computes it. Every chunk, the tail and the finaliser are
mixed in by steps that lose nothing, so a change inside one aligned chunk of four bytes, or
inside the tail, always shows (`murmurhash3_32_of_chunk`).
-/

namespace CfuPlayground.Common

open Function Lib

/-! ## The source -/

/-- `k ← (k × c1 ROL r1) × c2`. -/
def mixK (k : BitVec 32) : BitVec 32 := rotl 15 (k * 0xcc9e2d51#32) * 0x1b873593#32

/-- The body of the chunk loop. -/
def mixChunk (hash k : BitVec 32) : BitVec 32 :=
  rotl 13 (hash ^^^ mixK k) * 5#32 + 0xe6546b64#32

/-- `*chunkp` for chunk `i`, on a little-endian machine. -/
def chunk (data : List (BitVec 8)) (i : ℕ) : BitVec 32 :=
  data.getD (4 * i + 3) 0 ++ data.getD (4 * i + 2) 0 ++ data.getD (4 * i + 1) 0 ++
    data.getD (4 * i) 0

/-- The first `n` bytes of a tail, added up at their places. -/
def addBytes (byte : ℕ → BitVec 8) (n : ℕ) : BitVec 32 :=
  (List.range n).foldl (fun remaining i => remaining + (byte i).setWidth 32 <<< (8 * i)) 0

/-- `remaining`, before it is mixed. -/
def remaining (data : List (BitVec 8)) : BitVec 32 :=
  addBytes (fun i => data.getD (data.length / 4 * 4 + i) 0) (data.length % 4)

/-- The last lines, from `hash ← hash XOR (hash >> 16)` on. -/
def avalanche (hash : BitVec 32) : BitVec 32 :=
  xorShift 16 (xorShift 13 (xorShift 16 hash * 0x85ebca6b#32) * 0xc2b2ae35#32)

def murmurhash3_32 (data : List (BitVec 8)) : BitVec 32 :=
  let len := data.length
  let hash := ((List.range (len / 4)).map (chunk data)).foldl mixChunk 0
  let hash := hash ^^^ mixK (remaining data)
  let hash := hash ^^^ BitVec.ofNat 32 len
  avalanche hash

/-! ## Each step -/

theorem mixK_injective : Injective mixK :=
  (mul_injective (d := 0x56ed309b#32) (by decide)).comp
    ((rotl_injective (by decide)).comp (mul_injective (d := 0xdee13bb1#32) (by decide)))

theorem round_injective : Injective fun x : BitVec 32 => rotl 13 x * 5#32 + 0xe6546b64#32 :=
  (add_left_injective 0xe6546b64#32).comp
    ((mul_injective (d := 0xcccccccd#32) (by decide)).comp (rotl_injective (by decide)))

theorem mixChunk_injective_hash (k : BitVec 32) : Injective fun hash => mixChunk hash k :=
  round_injective.comp (xor_injective (mixK k))

theorem mixChunk_injective_chunk (hash : BitVec 32) : Injective (mixChunk hash) :=
  round_injective.comp ((xor_right_injective hash).comp mixK_injective)

theorem avalanche_injective : Injective avalanche :=
  (xorShift_injective (by decide)).comp
    ((mul_injective (d := 0x7ed1b41d#32) (by decide)).comp
      ((xorShift_injective (by decide)).comp
        ((mul_injective (d := 0xa5cb9243#32) (by decide)).comp
          (xorShift_injective (by decide)))))

/-! ## Reading the buffer -/

variable {a b : List (BitVec 8)}

theorem chunk_inj {i : ℕ} :
    chunk a i = chunk b i ↔ ∀ k < 4, a.getD (4 * i + k) 0 = b.getD (4 * i + k) 0 := by
  have hlanes := fun data : List (BitVec 8) => lane_append (data.getD (4 * i + 3) 0)
    (data.getD (4 * i + 2) 0) (data.getD (4 * i + 1) 0) (data.getD (4 * i) 0)
  constructor
  · intro h k hk
    have ha := hlanes a
    have hb := hlanes b
    rw [show a.getD (4 * i + 3) 0 ++ _ ++ _ ++ _ = chunk a i from rfl, h] at ha
    interval_cases k
    · exact ha.1.symm.trans hb.1
    · exact ha.2.1.symm.trans hb.2.1
    · exact ha.2.2.1.symm.trans hb.2.2.1
    · exact ha.2.2.2.symm.trans hb.2.2.2
  · intro h
    rw [chunk, chunk, h 3 (by decide), h 2 (by decide), h 1 (by decide), ← Nat.add_zero (4 * i),
      h 0 (by decide)]

/-- The first `n` bytes as digits. -/
def byteDigits (byte : ℕ → BitVec 8) (n : ℕ) : List ℕ := (List.range n).map fun i => (byte i).toNat

theorem byteDigits_lt {byte : ℕ → BitVec 8} {n : ℕ} : ∀ d ∈ byteDigits byte n, d < 256 := by
  intro d hd
  obtain ⟨i, _, rfl⟩ := List.mem_map.mp hd
  exact (byte i).isLt

theorem length_byteDigits (byte : ℕ → BitVec 8) (n : ℕ) : (byteDigits byte n).length = n := by
  rw [byteDigits, List.length_map, List.length_range]

theorem ofDigits_byteDigits_succ (byte : ℕ → BitVec 8) (n : ℕ) :
    Nat.ofDigits 256 (byteDigits byte (n + 1)) =
      Nat.ofDigits 256 (byteDigits byte n) + 256 ^ n * (byte n).toNat := by
  rw [byteDigits, List.range_succ, List.map_append, Nat.ofDigits_append, List.length_map,
    List.length_range, List.map_singleton, Nat.ofDigits_singleton]
  rfl

theorem toNat_addBytes (byte : ℕ → BitVec 8) {n : ℕ} (hn : n ≤ 4) :
    (addBytes byte n).toNat = Nat.ofDigits 256 (byteDigits byte n) := by
  induction n with
  | zero => rfl
  | succ n ih =>
    have hfits : Nat.ofDigits 256 (byteDigits byte (n + 1)) < 2 ^ 32 := by
      calc Nat.ofDigits 256 (byteDigits byte (n + 1)) < 256 ^ (byteDigits byte (n + 1)).length :=
            Nat.ofDigits_lt_base_pow_length (by decide) byteDigits_lt
        _ ≤ 256 ^ 4 := by
          rw [length_byteDigits]
          exact Nat.pow_le_pow_right (by decide) hn
        _ = 2 ^ 32 := by decide
    have hbyte := (byte n).isLt
    have hshift : 2 ^ (8 * n) = 256 ^ n := by rw [pow_mul]; norm_num
    have hsucc : addBytes byte (n + 1) =
        addBytes byte n + (byte n).setWidth 32 <<< (8 * n) := by
      rw [addBytes, List.range_succ, List.foldl_append]
      rfl
    have hplace : ((byte n).setWidth 32).toNat = (byte n).toNat := by
      rw [BitVec.toNat_setWidth]
      exact Nat.mod_eq_of_lt (by omega)
    rw [ofDigits_byteDigits_succ] at hfits ⊢
    rw [hsucc, BitVec.toNat_add, ih (by omega), BitVec.toNat_shiftLeft, hplace, Nat.shiftLeft_eq,
      hshift, mul_comm (byte n).toNat, Nat.add_mod_mod]
    exact Nat.mod_eq_of_lt hfits

theorem addBytes_inj {f g : ℕ → BitVec 8} {n : ℕ} (hn : n ≤ 4) (h : addBytes f n = addBytes g n) :
    ∀ i < n, f i = g i := by
  intro i hi
  have heq : byteDigits f n = byteDigits g n := by
    apply Nat.ofDigits_inj_of_len_eq (b := 256) (by decide)
    · rw [length_byteDigits, length_byteDigits]
    · exact byteDigits_lt
    · exact byteDigits_lt
    · rw [← toNat_addBytes f hn, ← toNat_addBytes g hn, h]
  exact BitVec.eq_of_toNat_eq (List.map_inj_left.mp heq i (List.mem_range.mpr hi))

theorem addBytes_congr {f g : ℕ → BitVec 8} {n : ℕ} (h : ∀ i < n, f i = g i) :
    addBytes f n = addBytes g n := by
  apply List.foldl_ext
  intro remaining i hi
  rw [h i (List.mem_range.mp hi)]

/-! ## One chunk changed -/

theorem eq_of_getD (hlen : a.length = b.length)
    (h : ∀ i < a.length, a.getD i 0 = b.getD i 0) : a = b := by
  apply List.ext_getElem hlen
  intro i ha hb
  simpa [ha, hb] using h i ha

theorem foldl_ne_of_chunk {j : ℕ} (hlen : a.length = b.length) (hj : j < a.length / 4)
    (hother : ∀ i, i / 4 ≠ j → a.getD i 0 = b.getD i 0) (hab : a ≠ b) :
    ((List.range (a.length / 4)).map (chunk a)).foldl mixChunk 0 ≠
      ((List.range (a.length / 4)).map (chunk b)).foldl mixChunk 0 := by
  have hchunk : chunk a j ≠ chunk b j := by
    intro h
    apply hab
    apply eq_of_getD hlen
    intro i hi
    by_cases hij : i / 4 = j
    · have hbyte := chunk_inj.mp h (i % 4) (Nat.mod_lt i (by decide))
      rwa [← hij, Nat.div_add_mod] at hbyte
    · exact hother i hij
  apply foldl_ne_of_item (j := j) mixChunk_injective_hash mixChunk_injective_chunk
  · rw [List.length_map, List.length_map]
  · rw [List.getElem?_map, List.getElem?_map, List.getElem?_range hj]
    simpa using hchunk
  · intro i hi
    have hsame : chunk a i = chunk b i := by
      apply chunk_inj.mpr
      intro k hk
      exact hother _ (by omega)
    rw [List.getElem?_map, List.getElem?_map]
    by_cases hr : i < a.length / 4
    · rw [List.getElem?_range hr, Option.map_some, Option.map_some, hsame]
    · rw [List.getElem?_eq_none (by simpa using hr)]
      rfl

theorem remaining_ne {j : ℕ} (hlen : a.length = b.length) (hj : a.length / 4 ≤ j)
    (hother : ∀ i, i / 4 ≠ j → a.getD i 0 = b.getD i 0) (hab : a ≠ b) :
    remaining a ≠ remaining b := by
  intro h
  rw [remaining, remaining, ← hlen] at h
  have htail := addBytes_inj (by omega) h
  apply hab
  apply eq_of_getD hlen
  intro i hi
  by_cases hij : i / 4 = j
  · have hbyte := htail (i - a.length / 4 * 4) (by omega)
    rwa [Nat.add_sub_of_le (by omega)] at hbyte
  · exact hother i hij

theorem murmurhash3_32_ne {j : ℕ} (hlen : a.length = b.length)
    (hother : ∀ i, i / 4 ≠ j → a[i]? = b[i]?) (hab : a ≠ b) :
    murmurhash3_32 a ≠ murmurhash3_32 b := by
  have hbyte : ∀ i, i / 4 ≠ j → a.getD i 0 = b.getD i 0 := by
    intro i hi
    rw [List.getD_eq_getElem?_getD, List.getD_eq_getElem?_getD, hother i hi]
  intro h
  have hmixed := xor_injective _ (avalanche_injective (by simpa only [murmurhash3_32, hlen] using h))
  rcases lt_or_ge j (a.length / 4) with hj | hj
  · -- the tails are equal, so the chunks would have to hash alike
    have htail : remaining a = remaining b := by
      rw [remaining, remaining, ← hlen]
      exact addBytes_congr fun i _ => hbyte _ (by omega)
    rw [htail, ← hlen] at hmixed
    exact foldl_ne_of_chunk hlen hj hbyte hab (xor_injective _ hmixed)
  · -- the chunks are equal, so the tails would have to be
    have hchunks : (List.range (b.length / 4)).map (chunk a) =
        (List.range (b.length / 4)).map (chunk b) := by
      apply List.map_congr_left
      intro i hi
      have hi := List.mem_range.mp hi
      exact chunk_inj.mpr fun k hk => hbyte _ (by omega)
    rw [hchunks] at hmixed
    exact remaining_ne hlen hj hbyte hab (mixK_injective (xor_right_injective _ hmixed))

/-- **A change inside one chunk is never missed**: two buffers of one length that are equal
outside chunk `j` have one hash only if they are equal. The hash is injective on four bytes. -/
theorem murmurhash3_32_of_chunk :
    (∀ (a b : List (BitVec 8)) (j : ℕ), a.length = b.length →
      (∀ i, i / 4 ≠ j → a[i]? = b[i]?) → a ≠ b → murmurhash3_32 a ≠ murmurhash3_32 b) ∧
      Set.InjOn murmurhash3_32 {data | data.length = 4} := by
  refine ⟨fun a b j hlen hother hab => murmurhash3_32_ne hlen hother hab, ?_⟩
  intro a ha b hb h
  by_contra hab
  have hlen : a.length = b.length := Eq.trans ha (Eq.symm hb)
  refine murmurhash3_32_ne (j := 0) hlen (fun i hi => ?_) hab h
  have hout : 4 ≤ i := by omega
  rw [List.getElem?_eq_none (Eq.trans_le ha hout), List.getElem?_eq_none (Eq.trans_le hb hout)]

/-- Two of the vectors of the unit test. -/
example : murmurhash3_32 [0xf1, 0xc2, 0x6b, 0x30] = 0x5ee237f9#32 ∧
    murmurhash3_32 [0x0b, 0x0d, 0x04, 0xc3, 0x6e, 0xd8, 0x0e] = 0xd03bf07f#32 := by
  decide +kernel

/-- Ten bytes, with one changed in the second chunk, and with one changed in the tail. -/
theorem murmurhash3_32_of_chunk_ten :
    let data : List (BitVec 8) := [0x57, 0x0e, 0x1d, 0x6b, 0x30, 0xf1, 0xc2, 0x04, 0x99, 0xa0]
    murmurhash3_32 data ≠ murmurhash3_32 (data.set 6 0xc3) ∧
      murmurhash3_32 data ≠ murmurhash3_32 (data.set 9 0x20) := by
  have houtside : ∀ i j k : ℕ, k / 4 = j → ∀ (data : List (BitVec 8)) (b : BitVec 8), i / 4 ≠ j →
      data[i]? = (data.set k b)[i]? := by
    intro i j k hk data b hi
    have hne : k ≠ i := by
      rintro rfl
      exact hi hk
    rw [List.getElem?_set_ne hne]
  exact ⟨murmurhash3_32_of_chunk.1 _ _ 1 rfl (fun i => houtside i 1 6 rfl _ _) (by decide),
    murmurhash3_32_of_chunk.1 _ _ 2 rfl (fun i => houtside i 2 9 rfl _ _) (by decide)⟩

end CfuPlayground.Common
