import Mathlib.Data.UInt
import Powehi.Codec.Bytes

/-!
# Cryptographic primitives

The profile store calls AES-256-GCM, SHA-256, HMAC-SHA256 and HKDF-SHA256 from libraries.
They are a parameter of the model: a `Crypto` supplies the functions together with the two
laws of an AEAD that hold outright. Idealised properties (unforgeability, absence of
collisions) cannot hold for all byte strings at once; they are stated as hypotheses about
the strings of a run, where a result needs them.
-/

namespace Powehi.Store

open Codec

/-- AES-256 and HMAC keys, and HKDF outputs. -/
abbrev Key := Block 32

/-- AES-GCM nonces. -/
abbrev Nonce := Block 12

/-- SHA-256 digests. -/
abbrev Digest := Block 32

/-- Bytes an AEAD ciphertext is longer than its message (`TAG_LEN`). -/
def tagLen : ℕ := 16

/-- The library primitives the store uses. -/
structure Crypto where
  /-- AES-256-GCM: key, nonce, associated data, message. -/
  encrypt : Key → Nonce → Bytes → Bytes → Bytes
  /-- AES-256-GCM: key, nonce, associated data, ciphertext. -/
  decrypt : Key → Nonce → Bytes → Bytes → Option Bytes
  sha256 : Bytes → Digest
  hmac : Key → Bytes → Digest
  /-- HKDF-SHA256 without salt: input key material, info label. -/
  hkdf : Bytes → Bytes → Key
  decrypt_encrypt : ∀ k n a m, decrypt k n a (encrypt k n a m) = some m
  length_encrypt : ∀ k n a m, (encrypt k n a m).length = m.length + tagLen

namespace Crypto

/-- Cut or zero-pad a byte string to `n` bytes. -/
def fit (n : ℕ) (b : Bytes) : Block n :=
  ⟨(b ++ List.replicate n 0).take n, by simp⟩

/-- The toy authentication tag: it shows the key and a checksum of nonce and associated data. -/
def toyTag (k : Key) (n : Nonce) (a : Bytes) : Block 16 :=
  fit 16 ((n.1 ++ a).sum :: k.1)

/-- A transparent instance: messages travel in the clear behind a tag naming the key, and
digests are the padded input. It satisfies the laws, and concrete runs evaluate in it. -/
def toy : Crypto where
  encrypt k n a m := (toyTag k n a).1 ++ m
  decrypt k n a c :=
    match readBlock 16 c with
    | some (tag, m) => if tag = toyTag k n a then some m else none
    | none => none
  sha256 b := fit 32 (UInt8.ofNat b.length :: b.sum :: b.reverse)
  hmac k b := fit 32 (k.1.headD 0 :: b)
  hkdf ikm info := fit 32 (info.sum :: ikm)
  decrypt_encrypt k n a m := by simp
  length_encrypt k n a m := by
    rw [List.length_append, (toyTag k n a).2, Nat.add_comm]
    rfl

end Crypto

end Powehi.Store
