import Mathlib.Data.List.Basic
import Mathlib.Tactic.Ring

/-!
# Lists cut into blocks

A list cut into blocks of one length, and the concatenation of a numbered family of blocks. The
two are inverse to each other. Both chunked encryption and the regrouping of bits are instances.
-/

namespace Powehi.Codec

open List

variable {α : Type*}

/-- Block number `i` of `l`, where blocks have length `len`; the last one may be shorter. -/
def slice (len : ℕ) (l : List α) (i : ℕ) : List α := (l.drop (i * len)).take len

/-- The first `n` blocks of a family, concatenated. -/
def blocks (f : ℕ → List α) (n : ℕ) : List α := (List.range n).flatMap f

theorem blocks_succ (f : ℕ → List α) (n : ℕ) : blocks f (n + 1) = blocks f n ++ f n := by
  simp [blocks, range_succ]

theorem blocks_congr {f g : ℕ → List α} {n : ℕ} (h : ∀ i < n, f i = g i) :
    blocks f n = blocks g n := by
  induction n with
  | zero => rfl
  | succ n ih =>
    rw [blocks_succ, blocks_succ, ih fun i hi => h i (Nat.lt_succ_of_lt hi),
      h n (Nat.lt_succ_self n)]

section Lengths

variable {f : ℕ → List α} {len n : ℕ}

theorem length_blocks (h : ∀ i < n, (f i).length = len) : (blocks f n).length = n * len := by
  induction n with
  | zero => simp [blocks]
  | succ n ih =>
    rw [blocks_succ, length_append, ih fun i hi => h i (Nat.lt_succ_of_lt hi),
      h n (Nat.lt_succ_self n)]
    ring

/-- A full block has the block length. -/
theorem length_slice {l : List α} {i : ℕ} (h : (i + 1) * len ≤ l.length) :
    (slice len l i).length = len := by
  have hfull : len ≤ (l.drop (i * len)).length := by
    rw [length_drop]
    rw [Nat.add_mul] at h
    omega
  exact length_take_of_le hfull

/-- A full block by its elements. -/
theorem slice_eq_map {l : List α} {i : ℕ} (h : (i + 1) * len ≤ l.length) (d : α) :
    slice len l i = (List.range len).map fun j => l.getD (i * len + j) d := by
  apply ext_getElem
  · rw [length_slice h, length_map, length_range]
  · intro j hj _
    rw [length_slice h] at hj
    have hrange : i * len + j < l.length := by
      rw [Nat.add_mul] at h
      omega
    simp [slice, hrange]

/-- A concatenation is cut into its blocks. -/
theorem slice_blocks (h : ∀ i < n, (f i).length = len) {i : ℕ} (hi : i < n) :
    slice len (blocks f n) i = f i := by
  induction n with
  | zero => exact absurd hi (Nat.not_lt_zero i)
  | succ n ih =>
    have hrest : ∀ j < n, (f j).length = len := fun j hj => h j (Nat.lt_succ_of_lt hj)
    have hlen := length_blocks hrest
    rw [blocks_succ]
    obtain hlt | rfl := Nat.lt_succ_iff_lt_or_eq.1 hi
    · -- Block `i` ends before the last block begins.
      have hle : (i + 1) * len ≤ (blocks f n).length := by
        rw [hlen]
        exact Nat.mul_le_mul_right len hlt
      have hdrop : i * len ≤ (blocks f n).length :=
        (Nat.mul_le_mul_right len (Nat.le_succ i)).trans hle
      rw [← ih hrest hlt, slice, slice, drop_append_of_le_length hdrop, take_append_of_le_length]
      rw [length_drop]
      rw [Nat.add_mul] at hle
      omega
    · rw [slice, ← hlen, drop_left, take_of_length_le (h i hi).le]

end Lengths

theorem blocks_slice_eq_take (len : ℕ) (l : List α) (n : ℕ) :
    blocks (slice len l) n = l.take (n * len) := by
  induction n with
  | zero => simp [blocks]
  | succ n ih => rw [blocks_succ, ih, slice, Nat.add_mul, Nat.one_mul, take_add]

/-- The blocks of a list put together are the list. -/
theorem blocks_slice {len n : ℕ} {l : List α} (h : l.length = n * len) :
    blocks (slice len l) n = l := by
  rw [blocks_slice_eq_take, ← h, take_length]

end Powehi.Codec
