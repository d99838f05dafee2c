import Powehi.Codec.JsonReader
import Powehi.Codec.Uuid
import Powehi.Media.Encryption

/-!
# Attachments

`media_send.rs`, `media.rs` and `media_recv.rs` of the command-line client: a file is sealed, a
JSON descriptor of it travels as a message, the peer parses the descriptor and opens the blob it
fetched. Up to a threshold a file is one blob, above it a chunked one; the descriptor marks the
chunked form by members that the other form leaves out, and the receiver derives from the
descriptor alone how large the blob may be.

An assertion of the source that fails is an error of its own, so that a result which excludes all
errors excludes it too.
-/

namespace Powehi.Media

open Codec Codec.Json List UInt8 Uuid

/-! ### Limits -/

/-- The largest attachment. -/
def maxMediaBytes : ℕ := 64 * 1024 * 1024

/-- The largest descriptor `parse` looks at. -/
def maxPayloadLen : ℕ := 256 * 1024

/-- A plaintext above this is sealed in chunks. -/
def chunkThreshold : ℕ := mediaChunkSize

def payloadCapacity : ℕ := 1024

/-- The longest message body. -/
def maxBodyLen : ℕ := 16 * 1024

/-! ### The sender -/

inductive SendFileError
  | encrypt
  | assertFailed
deriving DecidableEq

/-- An encrypted attachment. `total` is the plaintext length of a chunked one. -/
structure Sealed where
  ciphertext : Bytes
  key : MediaKey
  iv : MediaIv
  hash : BlobHash
  total : Option UInt64
deriving DecidableEq

/-- `seal` with the key and nonce it draws. -/
def sealMedia (A : Primitives) {T : Target} (key : MediaKey) (iv : MediaIv) (plain : Slice T) :
    Except SendFileError Sealed :=
  if plain.1.isEmpty ∨ maxMediaBytes < plain.1.length then .error .assertFailed
  else if chunkThreshold < plain.1.length then
    match encryptChunked A key iv plain with
    | .error _ => .error .encrypt
    | .ok r => .ok ⟨r.ciphertext, r.key, r.baseIv, r.blobHash, some r.totalPlaintextLen⟩
  else
    match encrypt A key iv plain.1 with
    | .error _ => .error .encrypt
    | .ok r => .ok ⟨r.ciphertext, r.key, r.iv, r.blobHash, none⟩

def contentType : String := "application/octet-stream"

/-- The web client's discriminators. -/
def kindName (chunked : Bool) : String := if chunked then "video" else "image"

/-- The members of a descriptor in order; the last three only where the blob is chunked. -/
def descriptorFields (s : Sealed) (blobId : Block 16) : List Bytes :=
  [field "type" (quoted (ascii (kindName s.total.isSome))),
    field "blobId" (quoted (Uuid.hyphenated blobId)),
    field "blobHash" (byteArray s.hash.1),
    field "mediaKey" (byteArray s.key.1),
    field "iv" (byteArray s.iv.1),
    field "mimeType" (quoted (ascii contentType))] ++
  match s.total with
  | none => []
  | some total =>
    [field "chunked" (ascii "true"),
      field "totalSize" (decimal total.toNat),
      field "chunkSize" (decimal mediaChunkSize)]

def descriptor (s : Sealed) (blobId : Block 16) : Except SendFileError Bytes :=
  let out := object (descriptorFields s blobId)
  if out.length ≤ payloadCapacity ∧ out.length ≤ maxBodyLen then .ok out
  else .error .assertFailed

/-! ### Parsing a descriptor -/

/-- A descriptor from a peer. -/
structure Payload where
  blobId : Block 16
  blobHash : BlobHash
  key : MediaKey
  iv : MediaIv
  chunked : Bool
  totalSize : Option UInt64
deriving DecidableEq

/-- One array element. -/
def readByte : Value → Option UInt8
  | .num n =>
    match n.toU64 with
    | some v => if v < 256 then some (UInt8.ofNat v) else none
    | none => none
  | _ => none

/-- Exactly `n` bytes. -/
def readFixed (n : ℕ) : Value → Option (Block n)
  | .arr vs =>
    match vs.mapM readByte with
    | some b => if h : b.length = n then some ⟨b, h⟩ else none
    | none => none
  | _ => none

def readKind : Value → Option Unit
  | .str text =>
    match text.bytes with
    | some b => if b = ascii "image" ∨ b = ascii "video" ∨ b = ascii "file" then some () else none
    | none => none
  | _ => none

def readId : Value → Option (Block 16)
  | .str text => text.bytes.bind Uuid.parseStr
  | _ => none

def readFlag : Value → Option Bool
  | .bool b => some b
  | _ => none

def readSize : Value → Option UInt64
  | .num n => n.toU64.map UInt64.ofNat
  | _ => none

inductive Field
  | type
  | blobId
  | blobHash
  | mediaKey
  | iv
  | chunked
  | totalSize
  | other
deriving DecidableEq

def Field.ofKey (key : Bytes) : Field :=
  if key = ascii "type" then .type
  else if key = ascii "blobId" then .blobId
  else if key = ascii "blobHash" then .blobHash
  else if key = ascii "mediaKey" then .mediaKey
  else if key = ascii "iv" then .iv
  else if key = ascii "chunked" then .chunked
  else if key = ascii "totalSize" then .totalSize
  else .other

/-- The members seen so far. -/
structure Slots where
  kind : Option Unit := none
  id : Option (Block 16) := none
  hash : Option (Block 32) := none
  key : Option (Block 32) := none
  iv : Option (Block 12) := none
  chunked : Option Bool := none
  total : Option UInt64 := none

/-- Fill a slot with the value read; a second one is an error. -/
def once {α : Type} (slot value : Option α) : Option (Option α) :=
  match slot, value with
  | none, some v => some (some v)
  | _, _ => none

/-- Take in the value of a member. -/
def Slots.set (s : Slots) (v : Value) : Field → Option Slots
  | .type => (once s.kind (readKind v)).map fun kind => { s with kind }
  | .blobId => (once s.id (readId v)).map fun id => { s with id }
  | .blobHash => (once s.hash (readFixed 32 v)).map fun hash => { s with hash }
  | .mediaKey => (once s.key (readFixed 32 v)).map fun key => { s with key }
  | .iv => (once s.iv (readFixed 12 v)).map fun iv => { s with iv }
  | .chunked => (once s.chunked (readFlag v)).map fun chunked => { s with chunked }
  | .totalSize => (once s.total (readSize v)).map fun total => { s with total }
  | .other => some s

/-- Take in a member; its key has to be valid text. -/
def Slots.member (s : Slots) (m : Text × Value) : Option Slots :=
  match m.1.bytes with
  | none => none
  | some key => s.set m.2 (.ofKey key)

def Slots.payload (s : Slots) : Option Payload :=
  match s.kind, s.id, s.hash, s.key, s.iv with
  | some (), some blobId, some blobHash, some key, some iv =>
    some ⟨blobId, blobHash, key, iv, s.chunked.getD false, s.total⟩
  | _, _, _, _, _ => none

/-- The deserializer of `Payload`. -/
def readPayload : Value → Option Payload
  | .obj ms => (ms.foldlM Slots.member {}).bind Slots.payload
  | _ => none

def parse (body : Bytes) : Option Payload :=
  if maxPayloadLen < body.length ∨ body.head? ≠ some 123 then none
  else
    match (Json.parse body).bind readPayload with
    | none => none
    | some p =>
      match p.chunked, p.totalSize with
      | true, some n => if n.toNat ≤ maxMediaBytes then some p else none
      | true, none => none
      | false, _ => some { p with totalSize := none }

/-! ### The receiver -/

inductive RecvFileError
  | tooLarge
  | corrupt
  | assertFailed
deriving DecidableEq

/-- What both functions below assert: a chunked payload has a length within the limit. -/
def Payload.sized (p : Payload) : Bool :=
  !p.chunked || p.totalSize.any fun n => n.toNat ≤ maxMediaBytes

def maxCiphertextLen (p : Payload) : Except RecvFileError ℕ :=
  if p.sized then
    match p.chunked, p.totalSize with
    | true, some total => .ok (max (divCeil total.toNat mediaChunkSize) 1 * chunkCiphertextLen)
    | _, _ => .ok (maxMediaBytes + tagLen)
  else .error .assertFailed

/-- Check the hash and decrypt, in the form the payload says. -/
def Payload.decryptBlob (A : Primitives) (T : Target) (p : Payload) (ciphertext : Bytes) :
    Except MediaError Bytes :=
  match p.chunked, p.totalSize with
  | true, some total => decryptChunked A T p.key p.iv ciphertext total p.blobHash
  | _, _ => decryptWithRawKey A p.key.1 p.iv.1 ciphertext p.blobHash

/-- `open`. -/
def openPayload (A : Primitives) (T : Target) (p : Payload) (ciphertext : Bytes) :
    Except RecvFileError Bytes :=
  if p.sized then
    match p.decryptBlob A T ciphertext with
    | .error _ => .error .corrupt
    | .ok plain => if maxMediaBytes < plain.length then .error .tooLarge else .ok plain
  else .error .assertFailed

/-! ### The descriptor is read back -/

theorem readByte_decimal (x : UInt8) :
    readByte (.num ⟨false, decimal x.toNat, [], []⟩) = some x := by
  have hx := x.toNat_lt
  rw [readByte, toU64_decimal (by omega)]
  simp only [if_pos hx, UInt8.ofNat_toNat]

theorem readFixed_byteArray {n : ℕ} (b : Block n) :
    readFixed n (.arr (b.1.map fun x => .num ⟨false, decimal x.toNat, [], []⟩)) = some b := by
  have hall : (b.1.map fun x => Value.num ⟨false, decimal x.toNat, [], []⟩).mapM readByte =
      some b.1 := by
    generalize b.1 = bytes
    induction bytes with
    | nil => rfl
    | cons x bytes ih => simp [readByte_decimal, ih]
  rw [readFixed, hall]
  exact dif_pos b.2

/-- What the fields of a descriptor are read as. -/
def descriptorMembers (s : Sealed) (blobId : Block 16) : List (Text × Value) :=
  let member (key : String) (v : Value) : Text × Value := ((ascii key).map .raw, v)
  let text (b : Bytes) : Value := .str (b.map .raw)
  let bytes (b : Bytes) : Value := .arr (b.map fun x => .num ⟨false, decimal x.toNat, [], []⟩)
  [member "type" (text (ascii (kindName s.total.isSome))),
    member "blobId" (text (Uuid.hyphenated blobId)),
    member "blobHash" (bytes s.hash.1),
    member "mediaKey" (bytes s.key.1),
    member "iv" (bytes s.iv.1),
    member "mimeType" (text (ascii contentType))] ++
  match s.total with
  | none => []
  | some total =>
    [member "chunked" (.bool true),
      member "totalSize" (.num ⟨false, decimal total.toNat, [], []⟩),
      member "chunkSize" (.num ⟨false, decimal mediaChunkSize, [], []⟩)]

theorem plain_kindName (chunked : Bool) : Plain (ascii (kindName chunked)) := by
  cases chunked <;> decide +kernel

theorem plain_hyphenated (id : Block 16) : Plain (hyphenated id) := by
  have table : ∀ n < 256, isLowerHex (ofNat n) = true ∨ ofNat n = 45 →
      ofNat n ≠ 34 ∧ ofNat n ≠ 92 ∧ 32 ≤ ofNat n := by decide +kernel
  intro b hb
  simpa using table b.toNat b.toNat_lt (by simpa using mem_hyphenated hb)

theorem readsMember_descriptorFields (s : Sealed) (blobId : Block 16) :
    List.Forall₂ ReadsMember (descriptorFields s blobId) (descriptorMembers s blobId) := by
  unfold descriptorFields descriptorMembers
  refine rel_append ?_ ?_
  · refine .cons (readsMember_field (by decide +kernel) (reads_quoted (plain_kindName _))) ?_
    refine .cons (readsMember_field (by decide +kernel) (reads_quoted (plain_hyphenated _))) ?_
    refine .cons (readsMember_field (by decide +kernel) (reads_byteArray _)) ?_
    refine .cons (readsMember_field (by decide +kernel) (reads_byteArray _)) ?_
    refine .cons (readsMember_field (by decide +kernel) (reads_byteArray _)) ?_
    exact .cons (readsMember_field (by decide +kernel) (reads_quoted (by decide +kernel))) .nil
  · cases s.total with
    | none => exact .nil
    | some total =>
      refine .cons (readsMember_field (by decide +kernel) reads_true) ?_
      refine .cons (readsMember_field (by decide +kernel) (reads_decimal _)) ?_
      exact .cons (readsMember_field (by decide +kernel) (reads_decimal _)) .nil

/-- A member with a known key goes to the slot of its field. -/
theorem Slots.member_key (key : String) (f : Field)
    (h : (∀ b ∈ ascii key, b.toNat < 128) ∧ Field.ofKey (ascii key) = f) (s : Slots) (v : Value) :
    s.member ((ascii key).map .raw, v) = s.set v f := by
  rw [Slots.member]
  simp only [bytes_raw h.1, h.2]

theorem readKind_kindName (chunked : Bool) :
    readKind (.str ((ascii (kindName chunked)).map .raw)) = some () := by
  cases chunked <;> decide +kernel

theorem readId_hyphenated (id : Block 16) :
    readId (.str ((hyphenated id).map .raw)) = some id := by
  have table : ∀ n < 256, isLowerHex (ofNat n) = true ∨ ofNat n = 45 → n < 128 := by
    decide +kernel
  have hascii : ∀ b ∈ hyphenated id, b.toNat < 128 := by
    intro b hb
    exact table b.toNat b.toNat_lt (by simpa using mem_hyphenated hb)
  rw [readId, bytes_raw hascii, Option.bind_some, parseStr_hyphenated]

theorem readSize_decimal (n : UInt64) :
    readSize (.num ⟨false, decimal n.toNat, [], []⟩) = some n := by
  rw [readSize, toU64_decimal n.toNat_lt, Option.map_some, UInt64.ofNat_toNat]

/-- The members of a descriptor are those of its payload. -/
theorem readPayload_descriptorMembers (s : Sealed) (blobId : Block 16) :
    readPayload (.obj (descriptorMembers s blobId)) =
      some ⟨blobId, s.hash, s.key, s.iv, s.total.isSome, s.total⟩ := by
  -- The keys are told apart once and for all; then each member fills its slot.
  have htype := Slots.member_key "type" .type (by decide +kernel)
  have hid := Slots.member_key "blobId" .blobId (by decide +kernel)
  have hhash := Slots.member_key "blobHash" .blobHash (by decide +kernel)
  have hkey := Slots.member_key "mediaKey" .mediaKey (by decide +kernel)
  have hiv := Slots.member_key "iv" .iv (by decide +kernel)
  have hmime := Slots.member_key "mimeType" .other (by decide +kernel)
  have hchunked := Slots.member_key "chunked" .chunked (by decide +kernel)
  have htotal := Slots.member_key "totalSize" .totalSize (by decide +kernel)
  have hsize := Slots.member_key "chunkSize" .other (by decide +kernel)
  unfold descriptorMembers readPayload
  cases hs : s.total with
  | none =>
    simp [htype, hid, hhash, hkey, hiv, hmime, Slots.set, once, readKind_kindName,
      readId_hyphenated, readFixed_byteArray, Slots.payload]
  | some total =>
    simp [htype, hid, hhash, hkey, hiv, hmime, hchunked, htotal, hsize, Slots.set, once,
      readKind_kindName, readId_hyphenated, readFixed_byteArray, readFlag, readSize_decimal,
      Slots.payload]

/-! ### Its length -/

theorem length_byteArray_le (b : Bytes) : (byteArray b).length ≤ 4 * b.length + 2 := by
  have hsum : (b.map printed).sum ≤ 4 * b.length := by
    induction b with
    | nil => exact Nat.le_refl 0
    | cons x b ih =>
      have hx := printed_le_four x
      rw [map_cons, sum_cons, length_cons]
      omega
  rw [length_byteArray]
  omega

theorem length_decimal_u64 (n : UInt64) : (decimal n.toNat).length ≤ 20 := by
  have hn : n.toNat < 10 ^ 20 := n.toNat_lt.trans (by decide)
  rw [decimal, length_map]
  exact (Nat.length_toDigits_le_iff (by decide) (by decide)).2 hn

/-- A descriptor is well below all limits. -/
theorem length_descriptor_le (s : Sealed) (blobId : Block 16) :
    (object (descriptorFields s blobId)).length ≤ payloadCapacity := by
  have hkind : ∀ chunked, (ascii (kindName chunked)).length = 5 := by decide +kernel
  have hhash := length_byteArray_le s.hash.1
  have hkey := length_byteArray_le s.key.1
  have hiv := length_byteArray_le s.iv.1
  have hmime : (ascii contentType).length = 24 := by decide +kernel
  have hsize : (decimal mediaChunkSize).length = 8 := by decide +kernel
  have htrue : (ascii "true").length = 4 := by decide +kernel
  have hnames : (ascii "type").length = 4 ∧ (ascii "blobId").length = 6 ∧
      (ascii "blobHash").length = 8 ∧ (ascii "mediaKey").length = 8 ∧ (ascii "iv").length = 2 ∧
      (ascii "mimeType").length = 8 ∧ (ascii "chunked").length = 7 ∧
      (ascii "totalSize").length = 9 ∧ (ascii "chunkSize").length = 9 := by decide +kernel
  obtain ⟨n₁, n₂, n₃, n₄, n₅, n₆, n₇, n₈, n₉⟩ := hnames
  rw [s.hash.2] at hhash
  rw [s.key.2] at hkey
  rw [s.iv.2] at hiv
  rw [length_object, descriptorFields, payloadCapacity]
  cases s.total with
  | none =>
    simp only [append_nil, map_cons, map_nil, sum_cons, sum_nil,
      length_field, length_quoted, hkind, length_hyphenated, hmime, n₁, n₂, n₃, n₄, n₅, n₆]
    omega
  | some total =>
    have htotal := length_decimal_u64 total
    simp only [cons_append, nil_append, map_cons, map_nil, sum_cons,
      sum_nil, length_field, length_quoted, hkind, length_hyphenated, hmime, hsize,
      htrue, n₁, n₂, n₃, n₄, n₅, n₆, n₇, n₈, n₉]
    omega

theorem descriptor_eq_ok (s : Sealed) (blobId : Block 16) :
    descriptor s blobId = .ok (object (descriptorFields s blobId)) := by
  have hlen := length_descriptor_le s blobId
  exact if_pos ⟨hlen, hlen.trans (by decide)⟩

/-- Every descriptor is parsed, as what it describes; a length beyond the limit apart. -/
theorem parse_descriptor {s : Sealed} (blobId : Block 16)
    (hlimit : ∀ n ∈ s.total, n.toNat ≤ maxMediaBytes) :
    parse (object (descriptorFields s blobId)) =
      some ⟨blobId, s.hash, s.key, s.iv, s.total.isSome, s.total⟩ := by
  have hlen := length_descriptor_le s blobId
  have hread : Json.parse (object (descriptorFields s blobId)) =
      some (.obj (descriptorMembers s blobId)) :=
    parse_of_reads (reads_object (readsMember_descriptorFields s blobId))
  have hopen : ascii "\x7b" = [123] := by decide +kernel
  have hshape : ¬(maxPayloadLen < (object (descriptorFields s blobId)).length ∨
      (object (descriptorFields s blobId)).head? ≠ some 123) := by
    rw [not_or]
    refine ⟨Nat.not_lt.2 (hlen.trans (by decide)), ?_⟩
    rw [object, hopen]
    simp
  rw [parse, if_neg hshape, hread, Option.bind_some, readPayload_descriptorMembers]
  cases hs : s.total with
  | none => rfl
  | some n => exact if_pos (hlimit n hs)

/-! ### End to end -/

section

variable {A : Primitives} {T : Target} {plain : Slice T}

/-- The payload of a sealed blob. -/
def Sealed.payload (s : Sealed) (blobId : Block 16) : Payload :=
  ⟨blobId, s.hash, s.key, s.iv, s.total.isSome, s.total⟩

theorem openPayload_of_decryptBlob {p : Payload} {c plain : Bytes} (hsized : p.sized = true)
    (h : p.decryptBlob A T c = .ok plain) (hlen : plain.length ≤ maxMediaBytes) :
    openPayload A T p c = .ok plain := by
  rw [openPayload, if_pos hsized, h]
  exact if_neg (Nat.not_lt.2 hlen)

/-- A blob with another hash is refused before anything is decrypted. -/
theorem openPayload_of_hash_ne {p : Payload} {c : Bytes} (hsized : p.sized = true)
    (h : A.sha256 c ≠ p.blobHash) : openPayload A T p c = .error .corrupt := by
  have hmismatch : p.decryptBlob A T c = .error .blobHashMismatch := by
    unfold Payload.decryptBlob
    split
    · exact if_pos h
    · exact if_pos h
  rw [openPayload, if_pos hsized, hmismatch]

/-- A sealed plaintext: its hash is that of the ciphertext, the length of a chunked one is
recorded, and whoever has the payload opens the ciphertext, which is no longer than the payload
allows. -/
structure Seals (A : Primitives) (T : Target) (plain : Bytes) (s : Sealed) : Prop where
  hash : s.hash = A.sha256 s.ciphertext
  total : ∀ n ∈ s.total, n.toNat = plain.length
  bounded : ∀ id, ∃ cap, maxCiphertextLen (s.payload id) = .ok cap ∧ s.ciphertext.length ≤ cap
  opened : ∀ id, openPayload A T (s.payload id) s.ciphertext = .ok plain

/-- The single-blob form. -/
theorem seals_single (key : MediaKey) (iv : MediaIv) {plain : Bytes}
    (hlen : plain.length ≤ maxMediaBytes) :
    Seals A T plain
      ⟨A.encrypt key iv plain, key, iv, A.sha256 (A.encrypt key iv plain), none⟩ where
  hash := rfl
  total := fun n hn => nomatch hn
  bounded := by
    intro id
    refine ⟨_, rfl, ?_⟩
    rw [A.length_encrypt]
    exact Nat.add_le_add_right hlen _
  opened := by
    intro id
    have hdecrypt : decryptWithRawKey A key.1 iv.1 (A.encrypt key iv plain)
        (A.sha256 (A.encrypt key iv plain)) = .ok plain := by
      rw [decryptWithRawKey, if_neg (not_not.2 rfl)]
      simp only [tryInto_block, bind, Except.bind, decrypt, A.decrypt_encrypt]
    exact openPayload_of_decryptBlob rfl hdecrypt hlen

/-- The chunked form. -/
theorem seals_chunked (key : MediaKey) (iv : MediaIv) {plain : Slice T}
    (hlen : plain.1.length ≤ maxMediaBytes) :
    let ciphertext := blocks (chunkCiphertext A key iv plain.1) (chunkCount plain.1.length)
    Seals A T plain.1
      ⟨ciphertext, key, iv, A.sha256 ciphertext, some (UInt64.ofNat plain.1.length)⟩ := by
  intro ciphertext
  have htotal : (UInt64.ofNat plain.1.length).toNat = plain.1.length :=
    UInt64.toNat_ofNat_of_lt' (plain.2.trans_lt T.fits)
  have hsized : ∀ id, (Sealed.payload ⟨ciphertext, key, iv, A.sha256 ciphertext,
      some (UInt64.ofNat plain.1.length)⟩ id).sized = true := by
    intro id
    simp [Sealed.payload, Payload.sized, htotal, hlen]
  refine ⟨rfl, ?_, ?_, ?_⟩
  · intro n hn
    obtain rfl := Option.mem_some_iff.1 hn
    exact htotal
  · intro id
    refine ⟨max (divCeil plain.1.length mediaChunkSize) 1 * chunkCiphertextLen, ?_, ?_⟩
    · rw [maxCiphertextLen, if_pos (hsized id)]
      simp only [Sealed.payload, Option.isSome_some, htotal]
    · rw [max_comm]
      exact (length_blocks fun i hi => length_chunkCiphertext hi).le
  · intro id
    exact openPayload_of_decryptBlob (hsized id) (decryptChunked_blocks plain) hlen

theorem chunkCount_lt {len : ℕ} (h : len ≤ maxMediaBytes) : chunkCount len < 2 ^ 32 := by
  unfold maxMediaBytes at h
  unfold chunkCount divCeil mediaChunkSize
  split <;> omega

/-- A plaintext within the limits is sealed. -/
theorem sealMedia_spec (key : MediaKey) (iv : MediaIv) (hne : plain.1 ≠ [])
    (hlen : plain.1.length ≤ maxMediaBytes) :
    ∃ s, sealMedia A key iv plain = .ok s ∧ Seals A T plain.1 s := by
  have hshape : ¬(plain.1.isEmpty ∨ maxMediaBytes < plain.1.length) := by
    rw [List.isEmpty_iff]
    exact not_or.2 ⟨hne, Nat.not_lt.2 hlen⟩
  by_cases hlarge : chunkThreshold < plain.1.length
  · refine ⟨_, ?_, seals_chunked key iv hlen⟩
    rw [sealMedia, if_neg hshape, if_pos hlarge, encryptChunked_eq_ok (chunkCount_lt hlen)]
  · refine ⟨_, ?_, seals_single key iv hlen⟩
    rw [sealMedia, if_neg hshape, if_neg hlarge]
    rfl

end

/-- From a file to the peer's copy of it: a plaintext within the limits is sealed, its descriptor
fits a message and is parsed, the ciphertext is within the size the payload allows, and opening it
gives the plaintext. Opening any other byte string, without a collision of hashes, fails. -/
theorem attachment_end_to_end (A : Primitives) (T : Target) (key : MediaKey) (iv : MediaIv)
    (plain : Slice T) (blobId : Block 16) (hne : plain.1 ≠ [])
    (hlen : plain.1.length ≤ maxMediaBytes) :
    ∃ s body p, sealMedia A key iv plain = .ok s ∧ descriptor s blobId = .ok body ∧
      body.length ≤ maxBodyLen ∧ parse body = some p ∧
      p.blobId = blobId ∧ p.key = s.key ∧ p.iv = s.iv ∧ p.blobHash = s.hash ∧
      p.chunked = s.total.isSome ∧ p.totalSize = s.total ∧
      (∀ n ∈ p.totalSize, n.toNat = plain.1.length) ∧
      (∃ cap, maxCiphertextLen p = .ok cap ∧ s.ciphertext.length ≤ cap) ∧
      openPayload A T p s.ciphertext = .ok plain.1 ∧
      ∀ c, c ≠ s.ciphertext → Set.InjOn A.sha256 {c, s.ciphertext} →
        ∃ e, openPayload A T p c = .error e := by
  obtain ⟨s, hseal, h⟩ := sealMedia_spec (A := A) key iv hne hlen
  have hlimit : ∀ n ∈ s.total, n.toNat ≤ maxMediaBytes := fun n hn => (h.total n hn).le.trans hlen
  have hbody := length_descriptor_le s blobId
  refine ⟨s, _, s.payload blobId, hseal, descriptor_eq_ok s blobId, hbody.trans (by decide),
    parse_descriptor blobId hlimit, rfl, rfl, rfl, rfl, rfl, rfl, h.total, h.bounded blobId,
    h.opened blobId, ?_⟩
  intro c hc hinj
  have hhash : A.sha256 c ≠ s.hash := by
    rw [h.hash]
    exact fun heq => hc (hinj (by simp) (by simp) heq)
  have hsized : (s.payload blobId).sized = true := by
    cases htotal : s.total with
    | none => simp [Sealed.payload, Payload.sized, htotal]
    | some n => simp [Sealed.payload, Payload.sized, htotal, hlimit n htotal]
  exact ⟨_, openPayload_of_hash_ne hsized hhash⟩

theorem attachment_end_to_end_sample :
    ∃ s body p, sealMedia Primitives.toy (T := Target.bits64) default default
        ⟨[1, 2, 3], by decide⟩ = .ok s ∧
      descriptor s default = .ok body ∧ parse body = some p ∧
      openPayload Primitives.toy Target.bits64 p s.ciphertext = .ok [1, 2, 3] ∧
      ∃ e, openPayload Primitives.toy Target.bits64 p [4, 5] = .error e := by
  obtain ⟨s, body, p, hseal, hbody, -, hparse, -, -, -, -, -, -, -, -, hopen, hother⟩ :=
    attachment_end_to_end Primitives.toy Target.bits64 default default ⟨[1, 2, 3], by decide⟩
      default (by decide) (by decide)
  have hcipher : s.ciphertext = List.replicate 16 0 ++ [1, 2, 3] := by
    have hsealed : sealMedia Primitives.toy (T := Target.bits64) default default
        ⟨[1, 2, 3], by decide⟩ = .ok ⟨List.replicate 16 0 ++ [1, 2, 3], default, default,
          Primitives.toy.sha256 (List.replicate 16 0 ++ [1, 2, 3]), none⟩ := by decide +kernel
    rw [hsealed] at hseal
    cases hseal
    rfl
  refine ⟨s, body, p, hseal, hbody, hparse, hopen, hother [4, 5] ?_ ?_⟩
  · rw [hcipher]
    decide
  · rw [hcipher, Set.injOn_pair]
    decide +kernel

end Powehi.Media
