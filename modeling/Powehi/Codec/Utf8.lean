import Powehi.Codec.Bytes

/-!
# UTF-8

Decoding of byte strings piece by piece: a piece is a character, or a maximal run of bytes that
begin a character and do not complete it. Lossy decoding shows a replacement character for each
piece of the second kind, strict decoding refuses it. Encoding is the standard library's.
-/

namespace Powehi.Codec.Utf8

open List UInt8

/-- The piece at the front of a byte string, and what is behind it. -/
inductive Front
  | char (c : Char) (rest : Bytes)
  | bad (rest : Bytes)
deriving DecidableEq

/-- For a first byte of a longer character: the range of its second byte and the number of bytes
that follow that one. -/
def secondByte (a : ℕ) : Option (ℕ × ℕ × ℕ) :=
  if a < 0xC2 then none
  else if a < 0xE0 then some (0x80, 0xBF, 0)
  else if a = 0xE0 then some (0xA0, 0xBF, 1)
  else if a = 0xED then some (0x80, 0x9F, 1)
  else if a < 0xF0 then some (0x80, 0xBF, 1)
  else if a = 0xF0 then some (0x90, 0xBF, 2)
  else if a < 0xF4 then some (0x80, 0xBF, 2)
  else if a = 0xF4 then some (0x80, 0x8F, 2)
  else none

/-- The bits a first byte contributes when `more` bytes follow the second one. -/
def leadBits (a more : ℕ) : ℕ := a % 2 ^ (5 - more)

/-- Read `n` more continuation bytes. -/
def readTail : ℕ → ℕ → Bytes → Front
  | 0, acc, rest => .char (Char.ofNat acc) rest
  | _ + 1, _, [] => .bad []
  | n + 1, acc, b :: rest =>
    if 0x80 ≤ b.toNat ∧ b.toNat ≤ 0xBF then readTail n (acc * 64 + b.toNat % 64) rest
    else .bad (b :: rest)

/-- The piece that begins with `a`. -/
def readChar (a : UInt8) (s : Bytes) : Front :=
  if a.toNat < 0x80 then .char (Char.ofNat a.toNat) s
  else
    match secondByte a.toNat with
    | none => .bad s
    | some (lo, hi, more) =>
      match s with
      | [] => .bad []
      | b :: rest =>
        if lo ≤ b.toNat ∧ b.toNat ≤ hi then
          readTail more (leadBits a.toNat more * 64 + b.toNat % 64) rest
        else .bad (b :: rest)

/-- The pieces of a byte string; `none` for one that is no character. -/
def pieces : ℕ → Bytes → List (Option Char)
  | _, [] => []
  | 0, _ => []
  | n + 1, a :: s =>
    match readChar a s with
    | .char c rest => some c :: pieces n rest
    | .bad rest => none :: pieces n rest

/-- Decoding of valid UTF-8. -/
def decode (s : Bytes) : Option (List Char) := (pieces s.length s).mapM id

def encode (cs : List Char) : Bytes := cs.flatMap String.utf8EncodeChar

@[simp] theorem encode_cons (c : Char) (cs : List Char) :
    encode (c :: cs) = String.utf8EncodeChar c ++ encode cs := rfl

/-! ### Reading back -/

theorem toNat_ofNat_of_lt {n : ℕ} (h : n < 256) : (ofNat n).toNat = n :=
  toNat_ofNat_of_lt' h

/-- A continuation byte contributes its six bits. -/
theorem readTail_continuation (n acc x : ℕ) (rest : Bytes) :
    readTail (n + 1) acc (ofNat (x % 64 + 128) :: rest) =
      readTail n (acc * 64 + x % 64) rest := by
  have hx : x % 64 < 64 := Nat.mod_lt x (by decide)
  have hbyte : (ofNat (x % 64 + 128)).toNat = x % 64 + 128 := toNat_ofNat_of_lt (by omega)
  rw [readTail, if_pos (by omega)]
  congr 2
  omega

/-- The second byte decides how a longer character is read on. -/
theorem readChar_second {a x lo hi more : ℕ} (ha : 0x80 ≤ a) (ha' : a < 256)
    (hsecond : secondByte a = some (lo, hi, more)) (hlo : lo ≤ x % 64 + 128)
    (hhi : x % 64 + 128 ≤ hi) (rest : Bytes) :
    readChar (ofNat a) (ofNat (x % 64 + 128) :: rest) =
      readTail more (leadBits a more * 64 + x % 64) rest := by
  have hbyte : (ofNat (x % 64 + 128)).toNat = x % 64 + 128 := toNat_ofNat_of_lt (by omega)
  unfold readChar
  rw [toNat_ofNat_of_lt ha', if_neg (by omega), hsecond]
  dsimp only
  rw [hbyte, if_pos ⟨hlo, hhi⟩]
  congr 2
  omega

/-- An encoded character is read back. -/
theorem readChar_encode (c : Char) (rest : Bytes) :
    ∃ a s, String.utf8EncodeChar c = a :: s ∧ readChar a (s ++ rest) = .char c rest := by
  have hvalid : c.val.toNat < 0xD800 ∨ 0xDFFF < c.val.toNat ∧ c.val.toNat < 0x110000 := c.valid
  have hchar : Char.ofNat c.val.toNat = c := Char.ofNat_toNat c
  unfold String.utf8EncodeChar
  dsimp only
  -- One case for each length of the encoding.
  split_ifs with h1 h2 h3
  · refine ⟨_, _, rfl, ?_⟩
    unfold readChar
    rw [toNat_ofNat_of_lt (by omega), if_pos (by omega), hchar]
    rfl
  · have hsecond : secondByte (c.val.toNat / 64 % 32 + 192) = some (0x80, 0xBF, 0) := by
      rw [secondByte, if_neg (by omega), if_pos (by omega)]
    refine ⟨_, _, rfl, ?_⟩
    rw [singleton_append, readChar_second (by omega) (by omega) hsecond (by omega) (by omega),
      readTail, leadBits]
    congr 1
    refine (congrArg Char.ofNat ?_).trans hchar
    omega
  · -- Surrogates and overlong forms are what the ranges of the second byte leave out.
    obtain ⟨lo, hi, hsecond, hlo, hhi⟩ : ∃ lo hi,
        secondByte (c.val.toNat / 4096 % 16 + 224) = some (lo, hi, 1) ∧
          lo ≤ c.val.toNat / 64 % 64 + 128 ∧ c.val.toNat / 64 % 64 + 128 ≤ hi := by
      unfold secondByte
      split_ifs <;> first | omega | exact ⟨_, _, rfl, by omega, by omega⟩
    refine ⟨_, _, rfl, ?_⟩
    rw [cons_append, readChar_second (by omega) (by omega) hsecond hlo hhi,
      singleton_append, readTail_continuation, readTail, leadBits]
    congr 1
    refine (congrArg Char.ofNat ?_).trans hchar
    omega
  · obtain ⟨lo, hi, hsecond, hlo, hhi⟩ : ∃ lo hi,
        secondByte (c.val.toNat / 262144 % 8 + 240) = some (lo, hi, 2) ∧
          lo ≤ c.val.toNat / 4096 % 64 + 128 ∧ c.val.toNat / 4096 % 64 + 128 ≤ hi := by
      unfold secondByte
      split_ifs <;> first | omega | exact ⟨_, _, rfl, by omega, by omega⟩
    refine ⟨_, _, rfl, ?_⟩
    rw [cons_append, readChar_second (by omega) (by omega) hsecond hlo hhi,
      cons_append, readTail_continuation, singleton_append, readTail_continuation,
      readTail, leadBits]
    congr 1
    refine (congrArg Char.ofNat ?_).trans hchar
    omega

/-- Encoded text consists of its characters. -/
theorem pieces_encode {n : ℕ} {cs : List Char} (h : cs.length ≤ n) :
    pieces n (encode cs) = cs.map some := by
  induction cs generalizing n with
  | nil => cases n <;> rfl
  | cons c cs ih =>
    obtain ⟨a, s, hencode, hread⟩ := readChar_encode c (encode cs)
    obtain ⟨n, rfl⟩ := Nat.exists_eq_add_one_of_ne_zero (Nat.ne_zero_of_lt h)
    rw [encode_cons, hencode, cons_append, pieces, hread]
    exact congrArg (some c :: ·) (ih (Nat.le_of_succ_le_succ h))

theorem length_le_length_encode (cs : List Char) : cs.length ≤ (encode cs).length := by
  induction cs with
  | nil => exact Nat.le_refl 0
  | cons c cs ih =>
    obtain ⟨a, s, hencode, -⟩ := readChar_encode c []
    rw [encode_cons, hencode, length_cons, cons_append, length_cons, length_append]
    omega

/-- Encoded text is decoded. -/
theorem decode_encode (cs : List Char) : decode (encode cs) = some cs := by
  rw [decode, pieces_encode (length_le_length_encode cs)]
  induction cs with
  | nil => rfl
  | cons c cs ih => simp [ih]

/-! ### ASCII -/

/-- ASCII is UTF-8. -/
theorem decode_ascii {s : Bytes} (h : ∀ b ∈ s, b.toNat < 128) :
    decode s = some (s.map fun b => Char.ofNat b.toNat) := by
  have hbyte : ∀ n < 128, String.utf8EncodeChar (Char.ofNat n) = [ofNat n] := by
    decide +kernel
  have hencode : encode (s.map fun b => Char.ofNat b.toNat) = s := by
    induction s with
    | nil => rfl
    | cons b s ih =>
      rw [map_cons, encode_cons, hbyte _ (h b mem_cons_self),
        ih fun c hc => h c (mem_cons_of_mem b hc), UInt8.ofNat_toNat]
      rfl
  calc decode s = decode (encode (s.map fun b => Char.ofNat b.toNat)) := by rw [hencode]
    _ = some (s.map fun b => Char.ofNat b.toNat) := decode_encode _

end Powehi.Codec.Utf8
