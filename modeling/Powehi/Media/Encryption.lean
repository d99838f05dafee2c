import Powehi.Codec.Bytes
import Powehi.Codec.Blocks
import Powehi.Semantics.Fallible
import Mathlib.Data.List.Nodup

/-!
# Media encryption

`media.rs` of the crypto core. A blob is encrypted in one piece, or, when it is large, as a
sequence of chunks of a fixed size under one key, each with a nonce derived from its index. The
last chunk is padded with zeros in a scratch buffer that all chunks share, so that the length of
the ciphertext shows the number of chunks only; the exact length travels beside it.

AES-256-GCM and SHA-256 are a parameter (`Primitives`), the random key and nonce are arguments.
-/

namespace Powehi.Media

open Codec Semantics List

/-! ### Primitives -/

abbrev MediaKey := Block 32

abbrev MediaIv := Block 12

abbrev BlobHash := Block 32

/-- The bytes a ciphertext is longer than its plaintext. -/
def tagLen : ℕ := 16

/-- AES-256-GCM without associated data, and SHA-256. -/
structure Primitives where
  encrypt : MediaKey → MediaIv → Bytes → Bytes
  decrypt : MediaKey → MediaIv → Bytes → Option Bytes
  sha256 : Bytes → BlobHash
  decrypt_encrypt : ∀ k n m, decrypt k n (encrypt k n m) = some m
  length_encrypt : ∀ k n m, (encrypt k n m).length = m.length + tagLen
  length_decrypt : ∀ k n c m, decrypt k n c = some m → c.length = m.length + tagLen

/-- A machine: the largest `usize`, which is at most the largest `u64`. -/
structure Target where
  usizeMax : ℕ
  fits : usizeMax < 2 ^ 64

/-- A byte slice in the memory of a machine. -/
abbrev Slice (T : Target) := { b : Bytes // b.length ≤ T.usizeMax }

inductive MediaError
  | encrypt
  | decrypt
  | invalidKeyLen
  | invalidIvLen
  | blobHashMismatch
  | invalidChunkLen
  | chunkCountMismatch
deriving DecidableEq

/-! ### One piece -/

/-- What `encrypt` returns: ciphertext, key, nonce and hash of the ciphertext. -/
structure EncryptResult where
  ciphertext : Bytes
  key : MediaKey
  iv : MediaIv
  blobHash : BlobHash
deriving DecidableEq

def encrypt (A : Primitives) (key : MediaKey) (iv : MediaIv) (plaintext : Bytes) :
    Except MediaError EncryptResult :=
  let ciphertext := A.encrypt key iv plaintext
  .ok ⟨ciphertext, key, iv, A.sha256 ciphertext⟩

def decrypt (A : Primitives) (key : MediaKey) (iv : MediaIv) (ciphertext : Bytes) :
    Except MediaError Bytes :=
  match A.decrypt key iv ciphertext with
  | some plaintext => .ok plaintext
  | none => .error .decrypt

/-- A fixed-size array from a slice, or the error for a wrong length. -/
def tryInto (n : ℕ) (e : MediaError) (b : Bytes) : Except MediaError (Block n) :=
  if h : b.length = n then .ok ⟨b, h⟩ else .error e

@[simp] theorem tryInto_block {n : ℕ} (e : MediaError) (b : Block n) :
    tryInto n e b.1 = .ok b := dif_pos b.2

def decryptWithRawKey (A : Primitives) (keyBytes ivBytes ciphertext : Bytes)
    (blobHashExpected : BlobHash) : Except MediaError Bytes := do
  if A.sha256 ciphertext ≠ blobHashExpected then .error .blobHashMismatch
  else
    let key ← tryInto 32 .invalidKeyLen keyBytes
    let iv ← tryInto 12 .invalidIvLen ivBytes
    decrypt A key iv ciphertext

/-! ### Chunks -/

/-- 16 MiB. -/
def mediaChunkSize : ℕ := 16 * 1024 * 1024

def chunkCiphertextLen : ℕ := mediaChunkSize + 16

/-- The base nonce with its last four bytes XORed with the big-endian chunk index. -/
def chunkNonce (baseIv : MediaIv) (chunkIndex : UInt32) : MediaIv :=
  ⟨baseIv.1.take 8 ++ List.zipWith (· ^^^ ·) (baseIv.1.drop 8) (beBytes 4 chunkIndex.toNat), by
    simp [baseIv.2]⟩

structure ChunkedEncryptResult where
  ciphertext : Bytes
  key : MediaKey
  baseIv : MediaIv
  blobHash : BlobHash
  totalPlaintextLen : UInt64
  numChunks : UInt32
deriving DecidableEq

/-- `div_ceil`. -/
def divCeil (a b : ℕ) : ℕ := if a % b = 0 then a / b else a / b + 1

/-- The scratch buffer after a chunk was copied to its front and the rest was zeroed. -/
def fillPadded (padded chunk : Bytes) : Bytes :=
  chunk ++ (padded.drop chunk.length).map fun _ => 0

/-- The plaintext bytes of chunk `i`. -/
def plainChunk (plaintext : Bytes) (i : ℕ) : Bytes :=
  let start := i * mediaChunkSize
  let stop := min (start + mediaChunkSize) plaintext.length
  (plaintext.drop start).take (stop - start)

/-- One turn of the encryption loop, over the scratch buffer and the ciphertext so far. -/
def encryptTurn (A : Primitives) (key : MediaKey) (baseIv : MediaIv) (plaintext : Bytes)
    (s : Bytes × Bytes) (i : ℕ) : Bytes × Bytes :=
  let padded := fillPadded s.1 (plainChunk plaintext i)
  (padded, s.2 ++ A.encrypt key (chunkNonce baseIv (UInt32.ofNat i)) padded)

def encryptChunked (A : Primitives) {T : Target} (key : MediaKey) (baseIv : MediaIv)
    (plaintext : Slice T) : Except MediaError ChunkedEncryptResult :=
  let numChunks := if plaintext.1.isEmpty then 1 else divCeil plaintext.1.length mediaChunkSize
  if numChunks < 2 ^ 32 then
    let padded := List.replicate mediaChunkSize 0
    let ciphertext :=
      ((List.range numChunks).foldl (encryptTurn A key baseIv plaintext.1) (padded, [])).2
    .ok ⟨ciphertext, key, baseIv, A.sha256 ciphertext, UInt64.ofNat plaintext.1.length,
      UInt32.ofNat numChunks⟩
  else .error .encrypt

def decryptChunk (A : Primitives) (key : MediaKey) (baseIv : MediaIv) (chunkIndex : UInt32)
    (chunkCiphertext : Bytes) : Except MediaError Bytes :=
  decrypt A key (chunkNonce baseIv chunkIndex) chunkCiphertext

/-- One turn of the decryption loop. The index is cut to 32 bits. -/
def decryptTurn (A : Primitives) (key : MediaKey) (baseIv : MediaIv) (ciphertext plaintext : Bytes)
    (i : ℕ) : Except MediaError Bytes := do
  let chunkCt := (ciphertext.drop (i * chunkCiphertextLen)).take chunkCiphertextLen
  let chunkPlain ← decryptChunk A key baseIv (UInt32.ofNat i) chunkCt
  return plaintext ++ chunkPlain

def decryptChunked (A : Primitives) (T : Target) (key : MediaKey) (baseIv : MediaIv)
    (ciphertext : Bytes) (totalPlaintextLen : UInt64) (blobHashExpected : BlobHash) :
    Except MediaError Bytes :=
  if A.sha256 ciphertext ≠ blobHashExpected then .error .blobHashMismatch
  else if ciphertext.isEmpty ∨ ciphertext.length % chunkCiphertextLen ≠ 0 then
    .error .invalidChunkLen
  else
    let numChunks := ciphertext.length / chunkCiphertextLen
    let expectedChunks :=
      if totalPlaintextLen = 0 then 1 else divCeil totalPlaintextLen.toNat mediaChunkSize
    if numChunks ≠ expectedChunks then .error .chunkCountMismatch
    else if T.usizeMax < totalPlaintextLen.toNat then .error .chunkCountMismatch
    else do
      let plaintext ← (List.range numChunks).foldlM (decryptTurn A key baseIv ciphertext) []
      return plaintext.take totalPlaintextLen.toNat

/-! ### Nonces -/

theorem zipWith_xor_left_cancel {a b c : Bytes} (hb : b.length = a.length)
    (hc : c.length = a.length)
    (h : zipWith (· ^^^ ·) a b = zipWith (· ^^^ ·) a c) : b = c := by
  induction a generalizing b c with
  | nil => rw [length_eq_zero_iff.1 hb, length_eq_zero_iff.1 hc]
  | cons x a ih =>
    obtain ⟨y, b, rfl⟩ := exists_cons_of_length_eq_add_one hb
    obtain ⟨z, c, rfl⟩ := exists_cons_of_length_eq_add_one hc
    simp only [zipWith_cons_cons, cons.injEq, UInt8.xor_right_inj] at h
    rw [h.1, ih (Nat.succ.inj hb) (Nat.succ.inj hc) h.2]

/-- Different chunk indices give different nonces. -/
theorem chunkNonce_injective (baseIv : MediaIv) : Function.Injective (chunkNonce baseIv) := by
  intro i j h
  have htails : zipWith (· ^^^ ·) (baseIv.1.drop 8) (beBytes 4 i.toNat) =
      zipWith (· ^^^ ·) (baseIv.1.drop 8) (beBytes 4 j.toNat) :=
    append_cancel_left (Subtype.ext_iff.1 h)
  have hlen : ∀ v, (beBytes 4 v).length = (baseIv.1.drop 8).length := by simp [baseIv.2]
  have hbytes := zipWith_xor_left_cancel (hlen _) (hlen _) htails
  apply UInt32.toNat_inj.1
  rw [← ofBe_beBytes (n := 4) i.toNat_lt, hbytes, ofBe_beBytes j.toNat_lt]

/-- The nonces of the first `n` chunks are pairwise distinct. -/
theorem nodup_chunkNonces (baseIv : MediaIv) {n : ℕ} (hn : n ≤ 2 ^ 32) :
    ((range n).map fun i => chunkNonce baseIv (UInt32.ofNat i)).Nodup := by
  refine List.Nodup.map_on (fun i hi j hj h => ?_) nodup_range
  have hij : UInt32.ofNat i = UInt32.ofNat j := chunkNonce_injective baseIv h
  have hi : i < 2 ^ 32 := (mem_range.1 hi).trans_le hn
  have hj : j < 2 ^ 32 := (mem_range.1 hj).trans_le hn
  rw [← UInt32.toNat_ofNat_of_lt' hi, hij, UInt32.toNat_ofNat_of_lt' hj]

/-! ### Chunk counts -/

/-- The number of chunks of a plaintext: at least one. -/
def chunkCount (len : ℕ) : ℕ := max 1 (divCeil len mediaChunkSize)

theorem divCeil_pos {a : ℕ} (h : 0 < a) : 1 ≤ divCeil a mediaChunkSize := by
  unfold divCeil mediaChunkSize
  split <;> omega

/-- Both sides count the chunks by cases. -/
theorem chunkCount_eq (len : ℕ) :
    (if len = 0 then 1 else divCeil len mediaChunkSize) = chunkCount len := by
  split
  · next h => subst h; rfl
  · next h => exact (max_eq_right (divCeil_pos (Nat.pos_of_ne_zero h))).symm

theorem expectedChunks_eq (total : UInt64) :
    (if total = 0 then 1 else divCeil total.toNat mediaChunkSize) = chunkCount total.toNat := by
  rw [← chunkCount_eq]
  simp only [← UInt64.toNat_inj, UInt64.toNat_zero]

theorem le_chunkCount_mul (len : ℕ) : len ≤ chunkCount len * mediaChunkSize := by
  unfold chunkCount divCeil mediaChunkSize
  split <;> omega

/-- Every chunk begins inside the plaintext, or at its end if that is empty. -/
theorem start_le_of_lt_chunkCount {len i : ℕ} (h : i < chunkCount len) :
    i * mediaChunkSize ≤ len := by
  unfold chunkCount divCeil mediaChunkSize at *
  split at h <;> omega

/-! ### Encryption -/

/-- The plaintext with the zeros that fill up its last chunk. -/
def paddedPlain (plaintext : Bytes) : Bytes :=
  plaintext ++ List.replicate (chunkCount plaintext.length * mediaChunkSize - plaintext.length) 0

theorem length_paddedPlain (plaintext : Bytes) :
    (paddedPlain plaintext).length = chunkCount plaintext.length * mediaChunkSize := by
  have h := le_chunkCount_mul plaintext.length
  rw [paddedPlain, length_append, length_replicate]
  omega

/-- What is in the scratch buffer does not depend on what was in it before. -/
theorem fillPadded_plainChunk {padded plaintext : Bytes} {i : ℕ}
    (hpadded : padded.length = mediaChunkSize) (hi : i < chunkCount plaintext.length) :
    fillPadded padded (plainChunk plaintext i) =
      slice mediaChunkSize (paddedPlain plaintext) i := by
  have hstart := start_le_of_lt_chunkCount hi
  have hcount : (i + 1) * mediaChunkSize ≤ chunkCount plaintext.length * mediaChunkSize :=
    Nat.mul_le_mul_right _ hi
  rw [Nat.add_mul] at hcount
  have hchunk : plainChunk plaintext i =
      (plaintext.drop (i * mediaChunkSize)).take mediaChunkSize := by
    unfold plainChunk
    rw [take_eq_take_iff, length_drop]
    generalize mediaChunkSize = size
    omega
  have htail : (padded.drop (plainChunk plaintext i).length).map (fun _ => (0 : UInt8)) =
      replicate (mediaChunkSize - (plaintext.length - i * mediaChunkSize)) 0 := by
    rw [map_const', length_drop, hpadded, hchunk, length_take, length_drop]
    congr 1
    generalize mediaChunkSize = size
    omega
  rw [fillPadded, htail, slice, paddedPlain, drop_append_of_le_length hstart,
    take_append, take_replicate, length_drop]
  congr 2
  omega

/-- The encryption of chunk `i`. -/
def chunkCiphertext (A : Primitives) (key : MediaKey) (baseIv : MediaIv) (plaintext : Bytes)
    (i : ℕ) : Bytes :=
  A.encrypt key (chunkNonce baseIv (UInt32.ofNat i))
    (slice mediaChunkSize (paddedPlain plaintext) i)

section

variable {A : Primitives} {T : Target} {key : MediaKey} {baseIv : MediaIv} {plaintext : Bytes}

/-- The buffer keeps its size and the ciphertext grows by one encrypted chunk a turn. -/
theorem foldl_encryptTurn {n : ℕ} (hn : n ≤ chunkCount plaintext.length) :
    let s := (range n).foldl (encryptTurn A key baseIv plaintext)
      (replicate mediaChunkSize 0, [])
    s.1.length = mediaChunkSize ∧ s.2 = blocks (chunkCiphertext A key baseIv plaintext) n := by
  induction n with
  | zero => exact ⟨length_replicate, rfl⟩
  | succ n ih =>
    obtain ⟨hbuffer, hcipher⟩ := ih (Nat.le_of_succ_le hn)
    simp only [range_succ, foldl_append, foldl_cons, foldl_nil, encryptTurn]
    rw [fillPadded_plainChunk hbuffer hn, hcipher, blocks_succ]
    refine ⟨length_slice ?_, rfl⟩
    rw [length_paddedPlain]
    exact Nat.mul_le_mul_right _ hn

theorem length_chunkCiphertext {i : ℕ} (hi : i < chunkCount plaintext.length) :
    (chunkCiphertext A key baseIv plaintext i).length = chunkCiphertextLen := by
  rw [chunkCiphertext, A.length_encrypt, length_slice]
  · rfl
  · rw [length_paddedPlain]
    exact Nat.mul_le_mul_right _ hi

/-- A plaintext whose chunk count fits is encrypted chunk by chunk. -/
theorem encryptChunked_eq_ok {plaintext : Slice T} (h : chunkCount plaintext.1.length < 2 ^ 32) :
    encryptChunked A key baseIv plaintext =
      let ciphertext := blocks (chunkCiphertext A key baseIv plaintext.1)
        (chunkCount plaintext.1.length)
      .ok ⟨ciphertext, key, baseIv, A.sha256 ciphertext, UInt64.ofNat plaintext.1.length,
        UInt32.ofNat (chunkCount plaintext.1.length)⟩ := by
  have hcount : (if plaintext.1.isEmpty then 1 else divCeil plaintext.1.length mediaChunkSize) =
      chunkCount plaintext.1.length := by
    rw [← chunkCount_eq]
    simp only [List.isEmpty_iff, List.length_eq_zero_iff]
  simp only [encryptChunked, hcount, if_pos h, (foldl_encryptTurn le_rfl).2]

/-! ### Decryption -/

/-- Decrypting the chunks of a ciphertext one after the other. -/
theorem foldlM_decryptTurn {n : ℕ} (hn : n ≤ chunkCount plaintext.length) :
    (range n).foldlM (decryptTurn A key baseIv
        (blocks (chunkCiphertext A key baseIv plaintext) (chunkCount plaintext.length))) [] =
      .ok (blocks (slice mediaChunkSize (paddedPlain plaintext)) n) := by
  induction n with
  | zero => rfl
  | succ n ih =>
    have hslice : slice chunkCiphertextLen
        (blocks (chunkCiphertext A key baseIv plaintext) (chunkCount plaintext.length)) n =
        chunkCiphertext A key baseIv plaintext n :=
      slice_blocks (fun i hi => length_chunkCiphertext hi) hn
    rw [slice] at hslice
    rw [range_succ, foldlM_append, ih (Nat.le_of_succ_le hn), blocks_succ]
    simp only [bind, Except.bind, foldlM_cons, foldlM_nil, decryptTurn, hslice,
      decryptChunk, decrypt, chunkCiphertext, A.decrypt_encrypt, pure, Except.pure]

/-- A turn adds the plaintext of a chunk, which is as long as the chunk without its tag. -/
theorem decryptTurn_eq_ok {ciphertext plain plain' : Bytes} {i : ℕ}
    (h : decryptTurn A key baseIv ciphertext plain i = .ok plain') :
    (slice chunkCiphertextLen ciphertext i).length + plain.length = plain'.length + tagLen := by
  obtain ⟨m, hm, hplain⟩ := bind_eq_ok h
  cases hplain
  unfold decryptChunk decrypt at hm
  split at hm
  · next m' hdecrypt =>
    cases hm
    have hlen := A.length_decrypt _ _ _ _ hdecrypt
    rw [length_append, slice]
    omega
  · cases hm

/-- If every chunk decrypts, each yields a full chunk of plaintext. -/
theorem length_foldlM_decryptTurn {ciphertext plain : Bytes} {n : ℕ}
    (hlen : n * chunkCiphertextLen ≤ ciphertext.length)
    (h : (range n).foldlM (decryptTurn A key baseIv ciphertext) [] = .ok plain) :
    plain.length = n * mediaChunkSize := by
  induction n generalizing plain with
  | zero =>
    cases h
    simp
  | succ n ih =>
    rw [range_succ] at h
    obtain ⟨init, hinit, hlast⟩ := foldlM_concat_eq_ok h
    have hle : n * chunkCiphertextLen ≤ (n + 1) * chunkCiphertextLen :=
      Nat.mul_le_mul_right _ (Nat.le_succ n)
    have hprev := ih (hle.trans hlen) hinit
    have hturn := decryptTurn_eq_ok hlast
    rw [length_slice hlen] at hturn
    have hchunk : chunkCiphertextLen = mediaChunkSize + tagLen := rfl
    rw [Nat.add_mul]
    omega

/-- A decryption that succeeds got as many chunks as the claimed length needs. -/
theorem decryptChunked_eq_ok {ciphertext plain : Bytes} {total : UInt64} {hash : BlobHash}
    (h : decryptChunked A T key baseIv ciphertext total hash = .ok plain) :
    ∃ padded : Bytes, padded.length = chunkCount total.toNat * mediaChunkSize ∧
      plain = padded.take total.toNat := by
  unfold decryptChunked at h
  dsimp only at h
  rw [expectedChunks_eq] at h
  split_ifs at h with hhash hshape hcount husize
  -- Of the nested tests only the last `else` is left.
  obtain ⟨padded, hfold, hplain⟩ := bind_eq_ok h
  cases hplain
  refine ⟨padded, ?_, rfl⟩
  rw [length_foldlM_decryptTurn (Nat.div_mul_le_self _ _) hfold, not_not.1 hcount]

/-- The padded plaintext cut to the length of the plaintext. -/
theorem take_paddedPlain (plaintext : Bytes) :
    (paddedPlain plaintext).take plaintext.length = plaintext := by
  rw [paddedPlain, take_left]

/-- What was encrypted in chunks is decrypted. -/
theorem decryptChunked_blocks (plaintext : Slice T) :
    let ciphertext := blocks (chunkCiphertext A key baseIv plaintext.1)
      (chunkCount plaintext.1.length)
    decryptChunked A T key baseIv ciphertext (UInt64.ofNat plaintext.1.length)
      (A.sha256 ciphertext) = .ok plaintext.1 := by
  intro ciphertext
  have htotal : (UInt64.ofNat plaintext.1.length).toNat = plaintext.1.length :=
    UInt64.toNat_ofNat_of_lt' (plaintext.2.trans_lt T.fits)
  have hlen : ciphertext.length = chunkCount plaintext.1.length * chunkCiphertextLen :=
    length_blocks fun i hi => length_chunkCiphertext hi
  have hpos : 0 < chunkCiphertextLen := Nat.succ_pos _
  have hcount : ciphertext.length / chunkCiphertextLen = chunkCount plaintext.1.length := by
    rw [hlen, Nat.mul_div_cancel _ hpos]
  have hshape : ¬(ciphertext.isEmpty ∨ ciphertext.length % chunkCiphertextLen ≠ 0) := by
    have hone : 1 ≤ chunkCount plaintext.1.length := le_max_left _ _
    have hne : 0 < ciphertext.length := by
      rw [hlen]
      exact Nat.mul_pos hone hpos
    rw [hlen, Nat.mul_mod_left, List.isEmpty_iff, ← List.length_eq_zero_iff]
    omega
  have husize : ¬T.usizeMax < plaintext.1.length := Nat.not_lt.2 plaintext.2
  unfold decryptChunked
  rw [if_neg (not_not.2 rfl), if_neg hshape]
  rw [expectedChunks_eq, htotal, hcount, if_neg (not_not.2 rfl), if_neg husize,
    foldlM_decryptTurn le_rfl, blocks_slice (length_paddedPlain _)]
  exact congrArg Except.ok (take_paddedPlain _)

end

/-- Chunked encryption: a plaintext whose chunk count fits a `u32` comes back, its ciphertext
shows the number of chunks only, and no two chunks share a nonce. Whatever ciphertext, hash and
length are claimed, a decryption that succeeds returns the claimed number of bytes. -/
theorem chunked_round_trip (A : Primitives) (T : Target) (key : MediaKey) (baseIv : MediaIv) :
    (∀ plaintext : Slice T, max 1 (divCeil plaintext.1.length mediaChunkSize) < 2 ^ 32 →
      ∃ r, encryptChunked A key baseIv plaintext = .ok r ∧
        decryptChunked A T r.key r.baseIv r.ciphertext r.totalPlaintextLen r.blobHash =
          .ok plaintext.1 ∧
        r.ciphertext.length =
          max 1 (divCeil plaintext.1.length mediaChunkSize) * chunkCiphertextLen ∧
        r.numChunks.toNat = max 1 (divCeil plaintext.1.length mediaChunkSize) ∧
        ((List.range r.numChunks.toNat).map fun i => chunkNonce r.baseIv (UInt32.ofNat i)).Nodup) ∧
    ∀ ciphertext total hash plain,
      decryptChunked A T key baseIv ciphertext total hash = .ok plain →
        plain.length = total.toNat := by
  constructor
  · intro plaintext hcount
    refine ⟨_, encryptChunked_eq_ok hcount, decryptChunked_blocks plaintext,
      length_blocks fun i hi => length_chunkCiphertext hi, UInt32.toNat_ofNat_of_lt' hcount, ?_⟩
    exact nodup_chunkNonces baseIv (UInt32.toNat_lt _).le
  · intro ciphertext total hash plain h
    obtain ⟨padded, hlen, rfl⟩ := decryptChunked_eq_ok h
    rw [length_take, hlen]
    exact min_eq_left (le_chunkCount_mul _)

/-! ### An instance -/

/-- A transparent instance: the nonce and part of the key stand before the message. -/
def Primitives.toy : Primitives where
  encrypt k n m := n.1 ++ k.1.take 4 ++ m
  decrypt k n c := if c.take 16 = n.1 ++ k.1.take 4 then some (c.drop 16) else none
  sha256 b := ⟨(b.reverse ++ List.replicate 32 0).take 32, by simp⟩
  decrypt_encrypt k n m := by
    have hlen : (n.1 ++ k.1.take 4).length = 16 := by simp [n.2, k.2]
    rw [if_pos (by rw [← hlen, take_left]), ← hlen, drop_left]
  length_encrypt k n m := by
    simp [n.2, k.2, tagLen]
    omega
  length_decrypt k n c m h := by
    split at h
    · next htag =>
      cases h
      have hlen : (c.take 16).length = 16 := by simp [htag, n.2, k.2]
      rw [length_take] at hlen
      rw [length_drop, tagLen]
      omega
    · cases h

/-- A 64-bit machine. -/
def Target.bits64 : Target := ⟨2 ^ 64 - 1, by decide⟩

theorem chunked_round_trip_sample :
    ∃ r, encryptChunked Primitives.toy (T := Target.bits64) default default ⟨[1, 2, 3], by decide⟩ =
        .ok r ∧
      decryptChunked Primitives.toy Target.bits64 r.key r.baseIv r.ciphertext r.totalPlaintextLen
        r.blobHash = .ok [1, 2, 3] := by
  obtain ⟨r, hr, hback, -⟩ := (chunked_round_trip Primitives.toy Target.bits64 default default).1
    ⟨[1, 2, 3], by decide⟩ (by decide)
  exact ⟨r, hr, hback⟩

end Powehi.Media
