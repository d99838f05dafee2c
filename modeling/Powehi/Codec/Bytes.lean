import Mathlib.Data.List.Basic
import Mathlib.Order.Compare
import Mathlib.Tactic.GCongr
import Mathlib.Tactic.Positivity
import Mathlib.Tactic.Ring

/-!
# Byte strings

Byte-level building blocks of file formats: ASCII text, fixed-size blocks, reading a block
off the front, big-endian integers and lower-case hexadecimal.
-/

namespace Powehi.Codec

open List

/-- A byte string. Text is its UTF-8 encoding. -/
abbrev Bytes := List UInt8

instance : LawfulBEq Bytes := inferInstance

/-- The bytes of a text literal. -/
def ascii (text : String) : Bytes := text.toUTF8.data.toList

/-- A byte string of exactly `n` bytes. -/
abbrev Block (n : ℕ) := { b : Bytes // b.length = n }

/-- The block of `n` zero bytes. -/
def Block.zero (n : ℕ) : Block n := ⟨List.replicate n 0, List.length_replicate⟩

instance (n : ℕ) : Inhabited (Block n) := ⟨Block.zero n⟩

/-! ### Reading off the front -/

/-- Split `n` bytes off the front; `none` if there are fewer. -/
def readBlock (n : ℕ) (b : Bytes) : Option (Block n × Bytes) :=
  if h : n ≤ b.length then some (⟨b.take n, List.length_take_of_le h⟩, b.drop n) else none

@[simp] theorem readBlock_append {n : ℕ} (x : Block n) (rest : Bytes) :
    readBlock n (x.1 ++ rest) = some (x, rest) := by
  obtain ⟨x, rfl⟩ := x
  simp [readBlock]

theorem readBlock_eq_some {n : ℕ} {b rest : Bytes} {x : Block n}
    (h : readBlock n b = some (x, rest)) : b = x.1 ++ rest := by
  unfold readBlock at h
  split at h
  · cases h
    exact (take_append_drop n b).symm
  · cases h

/-- A block read behind a header. -/
theorem eq_append_of_readBlock {n : ℕ} {b head rest : Bytes} {x : Block n}
    (hhead : b.take head.length = head) (h : readBlock n (b.drop head.length) = some (x, rest)) :
    b = head ++ x.1 ++ rest :=
  calc b = b.take head.length ++ b.drop head.length := (take_append_drop ..).symm
    _ = head ++ x.1 ++ rest := by rw [hhead, readBlock_eq_some h, append_assoc]

/-! ### Big-endian integers -/

/-- The `n` low-order bytes of `v`, most significant first. -/
def beBytes : ℕ → ℕ → Bytes
  | 0, _ => []
  | n + 1, v => UInt8.ofNat (v / 256 ^ n) :: beBytes n v

/-- The number a big-endian byte string denotes. -/
def ofBe (b : Bytes) : ℕ := b.foldl (fun acc x => acc * 256 + x.toNat) 0

@[simp] theorem length_beBytes (n v : ℕ) : (beBytes n v).length = n := by
  induction n with
  | zero => rfl
  | succ n ih => simp [beBytes, ih]

private theorem foldl_beBytes (n v acc : ℕ) :
    (beBytes n v).foldl (fun acc x => acc * 256 + x.toNat) acc = acc * 256 ^ n + v % 256 ^ n := by
  induction n generalizing acc with
  | zero => simp [beBytes, Nat.mod_one]
  | succ n ih =>
    have split : v % 256 ^ (n + 1) = v / 256 ^ n % 256 * 256 ^ n + v % 256 ^ n := by
      rw [Nat.pow_succ, Nat.mod_mul]
      ring
    simp only [beBytes, foldl_cons, UInt8.toNat_ofNat', ih, split]
    ring

/-- A number in range is recovered from its big-endian bytes. -/
theorem ofBe_beBytes {n v : ℕ} (h : v < 256 ^ n) : ofBe (beBytes n v) = v := by
  rw [ofBe, foldl_beBytes, Nat.mod_eq_of_lt h]
  simp

/-- The low-order bytes do not see multiples of their range. -/
theorem beBytes_add_mul (n k r : ℕ) : beBytes n (k * 256 ^ n + r) = beBytes n r := by
  induction n generalizing k with
  | zero => rfl
  | succ n ih =>
    have shift : k * 256 ^ (n + 1) + r = k * 256 * 256 ^ n + r := by ring
    have div : (k * 256 * 256 ^ n + r) / 256 ^ n = 256 * k + r / 256 ^ n := by
      rw [Nat.add_comm, Nat.add_mul_div_right _ _ (by positivity)]
      ring
    have head : UInt8.ofNat (256 * k + r / 256 ^ n) = UInt8.ofNat (r / 256 ^ n) := by
      apply UInt8.toNat_inj.mp
      rw [UInt8.toNat_ofNat', UInt8.toNat_ofNat']
      omega
    rw [shift, beBytes, div, head, ih, ← beBytes]

theorem ofBe_cons (x : UInt8) (b : Bytes) : ofBe (x :: b) = x.toNat * 256 ^ b.length + ofBe b := by
  have acc : ∀ (b : Bytes) (a : ℕ), b.foldl (fun acc x => acc * 256 + x.toNat) a =
      a * 256 ^ b.length + ofBe b := by
    intro b
    induction b with
    | nil => intro a; simp [ofBe]
    | cons x b ih =>
      intro a
      rw [ofBe, foldl_cons, foldl_cons, ih, ih, length_cons]
      ring
  rw [ofBe, foldl_cons, acc]
  ring

theorem ofBe_lt {n : ℕ} (x : Block n) : ofBe x.1 < 256 ^ n := by
  obtain ⟨b, rfl⟩ := x
  induction b with
  | nil => decide
  | cons x b ih =>
    have hb : ofBe b < 256 ^ b.length := ih
    have hx : x.toNat ≤ 255 := Nat.le_of_lt_succ x.toNat_lt
    calc ofBe (x :: b) = x.toNat * 256 ^ b.length + ofBe b := ofBe_cons x b
      _ < x.toNat * 256 ^ b.length + 256 ^ b.length := by omega
      _ ≤ 255 * 256 ^ b.length + 256 ^ b.length := by gcongr
      _ = 256 ^ (x :: b).length := by rw [length_cons]; ring

/-- Bytes are recovered from the number they denote. -/
theorem beBytes_ofBe {n : ℕ} (x : Block n) : beBytes n (ofBe x.1) = x.1 := by
  obtain ⟨b, rfl⟩ := x
  induction b with
  | nil => rfl
  | cons x b ih =>
    have hdiv : (x.toNat * 256 ^ b.length + ofBe b) / 256 ^ b.length = x.toNat := by
      rw [Nat.add_comm, Nat.add_mul_div_right _ _ (by positivity),
        Nat.div_eq_of_lt (ofBe_lt ⟨b, rfl⟩), Nat.zero_add]
    simp only [length_cons, beBytes, ofBe_cons, hdiv, beBytes_add_mul, UInt8.ofNat_toNat]
    rw [ih]

/-! ### Lower-case hexadecimal -/

/-- The digit of a nibble. -/
def hexDigit (n : ℕ) : UInt8 := if n < 10 then UInt8.ofNat (48 + n) else UInt8.ofNat (87 + n)

/-- `0`–`9` or `a`–`f`. -/
def isLowerHex (c : UInt8) : Bool := (48 ≤ c && c ≤ 57) || (97 ≤ c && c ≤ 102)

/-- The nibble a lower-case digit stands for. -/
def hexValue (c : UInt8) : ℕ := if c ≤ 57 then c.toNat - 48 else c.toNat - 87

/-- Two lower-case digits per byte. -/
def toHex (b : Bytes) : Bytes :=
  b.flatMap fun x => [hexDigit (x.toNat / 16), hexDigit (x.toNat % 16)]

/-- Read pairs of lower-case digits back; an odd digit at the end is dropped. -/
def ofHex : Bytes → Bytes
  | hi :: lo :: rest => UInt8.ofNat (16 * hexValue hi + hexValue lo) :: ofHex rest
  | _ => []

theorem isLowerHex_hexDigit : ∀ n < 16, isLowerHex (hexDigit n) = true := by decide

theorem hexValue_hexDigit : ∀ n < 16, hexValue (hexDigit n) = n := by decide

theorem hexDigit_hexValue (c : UInt8) (h : isLowerHex c = true) : hexDigit (hexValue c) = c := by
  have table : ∀ n < 256, isLowerHex (UInt8.ofNat n) = true →
      hexDigit (hexValue (UInt8.ofNat n)) = UInt8.ofNat n := by decide +kernel
  simpa [h] using table c.toNat c.toNat_lt

theorem hexValue_lt (c : UInt8) (h : isLowerHex c = true) : hexValue c < 16 := by
  have table : ∀ n < 256, isLowerHex (UInt8.ofNat n) = true →
      hexValue (UInt8.ofNat n) < 16 := by decide +kernel
  simpa [h] using table c.toNat c.toNat_lt

@[simp] theorem toHex_cons (x : UInt8) (b : Bytes) :
    toHex (x :: b) = hexDigit (x.toNat / 16) :: hexDigit (x.toNat % 16) :: toHex b := rfl

@[simp] theorem length_toHex (b : Bytes) : (toHex b).length = 2 * b.length := by
  induction b with
  | nil => rfl
  | cons x b ih =>
    simp only [toHex_cons, length_cons, ih]
    ring

theorem all_isLowerHex_toHex (b : Bytes) : (toHex b).all isLowerHex = true := by
  induction b with
  | nil => rfl
  | cons x b ih =>
    have hi : x.toNat / 16 < 16 := by have := x.toNat_lt; omega
    have lo : x.toNat % 16 < 16 := Nat.mod_lt _ (by decide)
    simp [isLowerHex_hexDigit _ hi, isLowerHex_hexDigit _ lo, ih]

/-- Hexadecimal text determines the bytes it was printed from. -/
@[simp] theorem ofHex_toHex (b : Bytes) : ofHex (toHex b) = b := by
  induction b with
  | nil => rfl
  | cons x b ih =>
    have hi : x.toNat / 16 < 16 := by have := x.toNat_lt; omega
    have lo : x.toNat % 16 < 16 := Nat.mod_lt _ (by decide)
    rw [toHex_cons, ofHex, hexValue_hexDigit _ hi, hexValue_hexDigit _ lo, Nat.div_add_mod, ih]
    simp

theorem toHex_injective : Function.Injective toHex :=
  Function.LeftInverse.injective ofHex_toHex

@[simp] theorem length_ofHex : ∀ {n : ℕ} {s : Bytes}, s.length = 2 * n → (ofHex s).length = n
  | 0, [], _ => rfl
  | n + 1, _ :: _ :: s, h => by
    have : s.length = 2 * n := by simp only [length_cons] at h; omega
    simp [ofHex, length_ofHex this]

/-- Printing the bytes read from lower-case hexadecimal text restores the text. -/
theorem toHex_ofHex : ∀ {n : ℕ} {s : Bytes}, s.length = 2 * n → s.all isLowerHex = true →
    toHex (ofHex s) = s
  | 0, [], _, _ => rfl
  | n + 1, hi :: lo :: s, h, hs => by
    have hn : s.length = 2 * n := by simp only [length_cons] at h; omega
    simp only [all_cons, Bool.and_eq_true] at hs
    have hhi := hexValue_lt hi hs.1
    have hlo := hexValue_lt lo hs.2.1
    have byte : (UInt8.ofNat (16 * hexValue hi + hexValue lo)).toNat =
        16 * hexValue hi + hexValue lo := by
      rw [UInt8.toNat_ofNat']
      omega
    have div : (16 * hexValue hi + hexValue lo) / 16 = hexValue hi := by omega
    have mod : (16 * hexValue hi + hexValue lo) % 16 = hexValue lo := by omega
    rw [ofHex, toHex_cons, byte, div, mod, hexDigit_hexValue _ hs.1, hexDigit_hexValue _ hs.2.1,
      toHex_ofHex hn hs.2.2]

/-! ### Order -/

theorem compare_cons (x y : UInt8) (a b : Bytes) :
    compare (x :: a) (y :: b) = (compare x y).then (compare a b) := by
  exact List.compareLex_cons_cons ..

theorem compare_hexDigit : ∀ m < 16, ∀ n < 16, compare (hexDigit m) (hexDigit n) = compare m n := by
  decide

theorem compare_toNat (x y : UInt8) : compare x.toNat y.toNat = compare x y := by
  change compareOfLessAndEq x.toNat y.toNat = compareOfLessAndEq x y
  simp only [compareOfLessAndEq, UInt8.lt_iff_toNat_lt, UInt8.toNat_inj]

/-- Bytes compare as their two nibbles do. -/
theorem compare_nibbles (x y : UInt8) :
    (compare (x.toNat / 16) (y.toNat / 16)).then (compare (x.toNat % 16) (y.toNat % 16)) =
      compare x y := by
  rw [← compare_toNat x y]
  rcases lt_trichotomy x.toNat y.toNat with h | h | h
  · have hlt : x.toNat / 16 < y.toNat / 16 ∨
        x.toNat / 16 = y.toNat / 16 ∧ x.toNat % 16 < y.toNat % 16 := by
      omega
    rw [compare_lt_iff_lt.mpr h]
    rcases hlt with hi | ⟨hi, lo⟩
    · rw [compare_lt_iff_lt.mpr hi, Ordering.lt_then]
    · rw [compare_eq_iff_eq.mpr hi, compare_lt_iff_lt.mpr lo, Ordering.eq_then]
  · rw [h, compare_eq_iff_eq.mpr rfl, compare_eq_iff_eq.mpr rfl, compare_eq_iff_eq.mpr rfl,
      Ordering.eq_then]
  · have hgt : y.toNat / 16 < x.toNat / 16 ∨
        x.toNat / 16 = y.toNat / 16 ∧ y.toNat % 16 < x.toNat % 16 := by
      omega
    rw [compare_gt_iff_gt.mpr h]
    rcases hgt with hi | ⟨hi, lo⟩
    · rw [compare_gt_iff_gt.mpr hi, Ordering.gt_then]
    · rw [compare_eq_iff_eq.mpr hi, compare_gt_iff_gt.mpr lo, Ordering.eq_then]

/-- Hexadecimal text is in the order of the bytes it was printed from. -/
theorem compare_toHex (a b : Bytes) : compare (toHex a) (toHex b) = compare a b := by
  induction a generalizing b with
  | nil => cases b <;> rfl
  | cons x a ih =>
    cases b with
    | nil => rfl
    | cons y b =>
      have hx : x.toNat / 16 < 16 := by have := x.toNat_lt; omega
      have hy : y.toNat / 16 < 16 := by have := y.toNat_lt; omega
      have lo : ∀ z : UInt8, z.toNat % 16 < 16 := fun z => Nat.mod_lt _ (by decide)
      calc compare (toHex (x :: a)) (toHex (y :: b))
          = (compare (x.toNat / 16) (y.toNat / 16)).then
              ((compare (x.toNat % 16) (y.toNat % 16)).then (compare a b)) := by
            rw [toHex_cons, toHex_cons, compare_cons, compare_cons, ih,
              compare_hexDigit _ hx _ hy, compare_hexDigit _ (lo x) _ (lo y)]
        _ = compare (x :: a) (y :: b) := by
            rw [← Ordering.then_assoc, compare_nibbles, compare_cons]

/-! ### Hexadecimal in either case -/

/-- The value of a hexadecimal digit in either case. -/
def nibble (b : UInt8) : Option ℕ :=
  if 48 ≤ b ∧ b ≤ 57 then some (b.toNat - 48)
  else if 97 ≤ b ∧ b ≤ 102 then some (b.toNat - 87)
  else if 65 ≤ b ∧ b ≤ 70 then some (b.toNat - 55)
  else none

/-- The bytes of pairs of hexadecimal digits. -/
def hexPairs : Bytes → Option Bytes
  | [] => some []
  | [_] => none
  | hi :: lo :: rest =>
    match nibble hi, nibble lo with
    | some h, some l => (hexPairs rest).map (UInt8.ofNat (16 * h + l) :: ·)
    | _, _ => none

theorem nibble_hexDigit : ∀ n < 16, nibble (hexDigit n) = some n := by decide

theorem hexPairs_toHex (b : Bytes) : hexPairs (toHex b) = some b := by
  induction b with
  | nil => rfl
  | cons x b ih =>
    have hx := x.toNat_lt
    have hbyte : UInt8.ofNat (16 * (x.toNat / 16) + x.toNat % 16) = x := by
      rw [Nat.div_add_mod, UInt8.ofNat_toNat]
    rw [toHex_cons, hexPairs, nibble_hexDigit _ (by omega), nibble_hexDigit _ (by omega)]
    simp only [ih, Option.map_some, hbyte]

end Powehi.Codec
