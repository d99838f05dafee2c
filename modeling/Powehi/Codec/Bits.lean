import Powehi.Codec.Blocks
import Powehi.Codec.Bytes
import Mathlib.Data.Nat.Bitwise

/-!
# Bits

Numbers and byte strings as lists of bits, most significant bit first.
-/

namespace Powehi.Codec

open List

/-- The number that bits spell. -/
def ofBits (l : List Bool) : ℕ := l.foldl (fun acc b => acc <<< 1 ||| b.toNat) 0

/-- The lowest `w` bits of a number. -/
def toBits (w n : ℕ) : List Bool := (List.range w).map fun i => n.testBit (w - 1 - i)

/-- The bit that is written behind the others. -/
theorem shift_or_toNat (n : ℕ) (b : Bool) : n <<< 1 ||| b.toNat = 2 * n + b.toNat := by
  rw [Nat.shiftLeft_eq, Nat.mul_comm, ← Nat.two_pow_add_eq_or_of_lt (i := 1)]
  cases b <;> decide

theorem ofBits_concat (l : List Bool) (b : Bool) : ofBits (l ++ [b]) = 2 * ofBits l + b.toNat := by
  rw [ofBits, foldl_append, foldl_cons, foldl_nil, shift_or_toNat, ofBits]

theorem ofBits_lt (l : List Bool) : ofBits l < 2 ^ l.length := by
  induction l using reverseRecOn with
  | nil => decide
  | append_singleton l b ih =>
    have hbit := b.toNat_lt
    rw [ofBits_concat, length_append, length_singleton]
    omega

@[simp] theorem length_toBits (w n : ℕ) : (toBits w n).length = w := by
  rw [toBits, length_map, length_range]

theorem getElem_toBits (w n i : ℕ) (h : i < (toBits w n).length) :
    (toBits w n)[i] = n.testBit (w - 1 - i) := by
  simp [toBits]

/-- The last bit is the parity. -/
theorem toBits_succ (w n : ℕ) : toBits (w + 1) n = toBits w (n / 2) ++ [n.testBit 0] := by
  rw [toBits, range_succ, map_append]
  congr 1
  · apply map_congr_left
    intro i hi
    have hlt := mem_range.1 hi
    rw [Nat.testBit_div_two]
    congr 1
    omega
  · simp

theorem ofBits_toBits {w n : ℕ} (h : n < 2 ^ w) : ofBits (toBits w n) = n := by
  induction w generalizing n with
  | zero =>
    rw [Nat.pow_zero, Nat.lt_one_iff] at h
    rw [h]
    rfl
  | succ w ih =>
    have hhalf : n / 2 < 2 ^ w := by
      omega
    have hbit : (n.testBit 0).toNat = n % 2 := by
      rw [Nat.toNat_testBit, Nat.div_one]
    rw [toBits_succ, ofBits_concat, ih hhalf]
    omega

theorem toBits_ofBits (l : List Bool) : toBits l.length (ofBits l) = l := by
  induction l using reverseRecOn with
  | nil => rfl
  | append_singleton l b ih =>
    have hbit := b.toNat_lt
    have hhalf : ofBits (l ++ [b]) / 2 = ofBits l := by
      rw [ofBits_concat]
      omega
    have hlast : (ofBits (l ++ [b])).testBit 0 = b := by
      rw [ofBits_concat]
      cases b <;> simp
    rw [length_append, length_singleton, toBits_succ, hhalf, hlast, ih]

/-- Bits in groups of one width are the bits of the numbers the groups spell. -/
theorem flatMap_toBits {w n : ℕ} {l : List Bool} (h : l.length = n * w) :
    ((range n).map fun i => ofBits (slice w l i)).flatMap (toBits w) = l := by
  rw [flatMap_map]
  refine Eq.trans (blocks_congr (g := slice w l) fun i hi => ?_) (blocks_slice h)
  have hlen : (slice w l i).length = w := by
    apply length_slice
    rw [h]
    exact Nat.mul_le_mul_right w hi
  calc toBits w (ofBits (slice w l i))
      = toBits (slice w l i).length (ofBits (slice w l i)) := by rw [hlen]
    _ = slice w l i := toBits_ofBits _

/-- The groups of the bits of numbers spell these numbers. -/
theorem ofBits_slice_flatMap {w : ℕ} {l : List ℕ} (h : ∀ n ∈ l, n < 2 ^ w) {i : ℕ}
    (hi : i < l.length) : ofBits (slice w (l.flatMap (toBits w)) i) = l[i] := by
  have hblocks : l.flatMap (toBits w) = blocks (fun j => toBits w (l.getD j 0)) l.length := by
    rw [blocks, ← flatMap_map (fun j => l.getD j 0)]
    congr 1
    apply ext_getElem
    · simp
    · intro j hj _
      simp [hj]
  rw [hblocks, slice_blocks (fun j _ => length_toBits w _) hi, ofBits_toBits]
  · exact getD_eq_getElem _ _ hi
  · rw [getD_eq_getElem _ _ hi]
    exact h _ (getElem_mem hi)

/-! ### Bytes -/

/-- Bit number `i` of a byte string. -/
def byteBit (b : Bytes) (i : ℕ) : Bool := (b.getD (i / 8) 0).toNat.testBit (7 - i % 8)

/-- The bits of a byte string. -/
def byteBits (b : Bytes) : List Bool := (List.range (b.length * 8)).map (byteBit b)

@[simp] theorem length_byteBits (b : Bytes) : (byteBits b).length = b.length * 8 := by
  rw [byteBits, length_map, length_range]

/-- Byte strings of one length with the same bits are equal. -/
theorem eq_of_byteBit_eq {a b : Bytes} (hlen : a.length = b.length)
    (h : ∀ i < a.length * 8, byteBit a i = byteBit b i) : a = b := by
  apply ext_getElem hlen
  intro j ha hb
  apply UInt8.toNat_inj.1
  apply Nat.eq_of_testBit_eq
  intro t
  by_cases ht : t < 8
  · have hbit := h (j * 8 + (7 - t)) (by omega)
    have hdiv : (j * 8 + (7 - t)) / 8 = j := by omega
    have hmod : 7 - (j * 8 + (7 - t)) % 8 = t := by omega
    rw [byteBit, byteBit, hdiv, hmod, getD_eq_getElem _ _ ha, getD_eq_getElem _ _ hb] at hbit
    exact hbit
  · -- Beyond the width of a byte there are no bits.
    have hsmall : ∀ x : UInt8, x.toNat.testBit t = false := by
      intro x
      apply Nat.testBit_lt_two_pow
      exact x.toNat_lt.trans_le (Nat.pow_le_pow_right (by decide) (Nat.not_lt.1 ht))
    rw [hsmall, hsmall]

end Powehi.Codec
