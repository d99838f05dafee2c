import Powehi.Store.Device

/-!
# Record names and record files

A record file is `MAGIC || nonce || AEAD(len || name || payload)`. Its file stem is the tag
of the name, a truncated HMAC under the profile's name key; the associated data bind the
ciphertext to the format, the profile and the tag.
-/

namespace Powehi.Store

open Codec

/-- Record file magic (`MAGIC`). -/
def magic : Bytes := ascii "PHS2"

/-- Magic of the pre-tag format: plain `<name>.rec` files. -/
def legacyMagic : Bytes := ascii "PHS1"

/-- Internal record whose presence shuts the legacy import window. -/
def marker : Bytes := ascii "store-v2"

/-- Internal record whose presence proves the store has had a manifest. -/
def manifestLatch : Bytes := ascii "store-v3"

/-- Names reserved for the store itself. -/
def isInternal (name : Bytes) : Bool := name == marker || name == manifestLatch

/-- A lower-case letter, a digit, `-` or `_`. -/
def isNameByte (b : UInt8) : Bool :=
  (97 ≤ b && b ≤ 122) || (48 ≤ b && b ≤ 57) || b == 45 || b == 95

/-- Whether a byte string is a record name. -/
def validRecordName (name : Bytes) : Bool :=
  !name.isEmpty && name.length ≤ maxNameLen && name.all isNameByte

def validateRecordName (name : Bytes) : Except StoreError Unit :=
  if validRecordName name then .ok () else .error .badName

/-- `tag` is 32 lower-case hex characters. -/
def isTag (tag : Bytes) : Bool := tag.length == tagHexLen && tag.all isLowerHex

/-- File-name tag of a record: truncated HMAC of its name under the profile's name key. -/
def tagOf (cr : Crypto) (nameKey : Key) (name : Bytes) : Bytes :=
  toHex ((cr.hmac nameKey name).1.take rawTagLen)

/-- A length as one byte, saturating. -/
def lenByte (b : Bytes) : UInt8 := if b.length ≤ 255 then UInt8.ofNat b.length else 255

/-- Associated data: `magic || len(profile) || profile || label`. -/
def aad (magic profile label : Bytes) : Bytes := magic ++ lenByte profile :: (profile ++ label)

theorem isTag_tagOf (cr : Crypto) (nameKey : Key) (name : Bytes) :
    isTag (tagOf cr nameKey name) = true := by
  have hlen : ((cr.hmac nameKey name).1.take rawTagLen).length = 16 := by
    rw [List.length_take, (cr.hmac nameKey name).2]
    rfl
  simp only [isTag, tagOf, Bool.and_eq_true, beq_iff_eq, length_toHex, hlen]
  exact ⟨rfl, all_isLowerHex_toHex _⟩

theorem validRecordName_marker : validRecordName marker = true := by decide

theorem validRecordName_manifestLatch : validRecordName manifestLatch = true := by decide

theorem length_le_of_validRecordName {name : Bytes} (h : validRecordName name = true) :
    name.length ≤ maxNameLen := by
  simp only [validRecordName, Bool.and_eq_true, decide_eq_true_eq] at h
  exact h.1.2

/-! ### Plaintext layout -/

/-- `len || name || payload`. -/
def inner (name payload : Bytes) : Bytes := UInt8.ofNat name.length :: (name ++ payload)

/-- Split `len || name || payload`; the name must be valid and hash back to `tag`. A name that
is not UTF-8 is not valid either. -/
def splitInner (cr : Crypto) (nameKey : Key) (plain tag : Bytes) :
    Except StoreError (Bytes × Bytes) :=
  match plain with
  | [] => .error .corrupt
  | len :: rest =>
    if len.toNat ≤ rest.length then
      if validRecordName (rest.take len.toNat) &&
          tagOf cr nameKey (rest.take len.toNat) == tag then
        .ok (rest.take len.toNat, rest.drop len.toNat)
      else .error .corrupt
    else .error .corrupt

theorem splitInner_inner (cr : Crypto) (nameKey : Key) {name : Bytes} (payload : Bytes)
    (h : validRecordName name = true) :
    splitInner cr nameKey (inner name payload) (tagOf cr nameKey name) = .ok (name, payload) := by
  have hlen : (UInt8.ofNat name.length).toNat = name.length := by
    have := length_le_of_validRecordName h
    rw [UInt8.toNat_ofNat']
    simp only [maxNameLen] at this
    omega
  simp [splitInner, inner, hlen, h]

/-- The name found in a record is valid and belongs to the tag it was looked up under. -/
theorem splitInner_ok {cr : Crypto} {nameKey : Key} {plain tag name payload : Bytes}
    (h : splitInner cr nameKey plain tag = .ok (name, payload)) :
    validRecordName name = true ∧ tagOf cr nameKey name = tag := by
  unfold splitInner at h
  split at h
  · cases h
  · split at h
    · split at h
      · rename_i hok
        cases h
        simpa using hok
      · cases h
    · cases h

/-! ### Files -/

/-- Largest record file. -/
def maxBlobLen : ℕ := magic.length + nonceLen + tagLen + maxInnerLen

/-- Check magic and length of a file's bytes and decrypt them with `label` in the AAD. -/
def openBlob (cr : Crypto) (key : Key) (profile magic label blob : Bytes) :
    Except StoreError Bytes :=
  if blob.length < magic.length + nonceLen + tagLen || blob.take magic.length != magic then
    .error .corrupt
  else
    match readBlock 12 (blob.drop magic.length) with
    | none => .error .corrupt
    | some (nonce, ct) =>
      match cr.decrypt key nonce (aad magic profile label) ct with
      | some plain => .ok plain
      | none => .error .authentication

/-- The name and payload of the record file with stem `tag`. -/
def decodeRecord (cr : Crypto) (profile : Bytes) (bundle : Bundle) (tag blob : Bytes) :
    Except StoreError (Bytes × Bytes) := do
  let plain ← openBlob cr bundle.record profile magic tag blob
  splitInner cr bundle.name plain tag

/-- The file written for a record, once the nonce is drawn. -/
def recordBlob (cr : Crypto) (profile : Bytes) (bundle : Bundle) (nonce : Nonce)
    (name payload : Bytes) : Bytes :=
  magic ++ nonce.1 ++
    cr.encrypt bundle.record nonce (aad magic profile (tagOf cr bundle.name name))
      (inner name payload)

section RoundTrip

variable (cr : Crypto)

/-- A sealed blob opens under the label it was sealed with. -/
theorem openBlob_encrypt (key : Key) (profile magic label : Bytes) (nonce : Nonce) (plain : Bytes) :
    openBlob cr key profile magic label
      (magic ++ nonce.1 ++ cr.encrypt key nonce (aad magic profile label) plain) = .ok plain := by
  have hlen : magic.length + nonceLen + tagLen ≤ magic.length +
      (nonce.1.length + (cr.encrypt key nonce (aad magic profile label) plain).length) := by
    rw [cr.length_encrypt, nonceLen]
    omega
  simpa [openBlob, cr.decrypt_encrypt] using hlen

theorem decodeRecord_recordBlob (profile : Bytes) (bundle : Bundle) (nonce : Nonce)
    {name : Bytes} (payload : Bytes) (h : validRecordName name = true) :
    decodeRecord cr profile bundle (tagOf cr bundle.name name)
      (recordBlob cr profile bundle nonce name payload) = .ok (name, payload) := by
  simp only [decodeRecord, recordBlob, openBlob_encrypt]
  exact splitInner_inner cr bundle.name payload h

theorem length_recordBlob_le (profile : Bytes) (bundle : Bundle) (nonce : Nonce)
    {name payload : Bytes} (hname : validRecordName name = true)
    (hpayload : payload.length ≤ maxRecordLen) :
    (recordBlob cr profile bundle nonce name payload).length ≤ maxBlobLen := by
  have := length_le_of_validRecordName hname
  simp only [recordBlob, List.length_append, nonce.2, cr.length_encrypt, inner, List.length_cons,
    maxBlobLen, maxInnerLen, nonceLen]
  omega

variable {cr}

/-- What opens is a nonce and a ciphertext behind the magic. -/
theorem openBlob_ok {key : Key} {profile magic label blob plain : Bytes}
    (h : openBlob cr key profile magic label blob = .ok plain) :
    ∃ nonce ct, blob = magic ++ nonce.1 ++ ct ∧
      cr.decrypt key nonce (aad magic profile label) ct = some plain := by
  unfold openBlob at h
  split at h
  · cases h
  · rename_i hhead
    simp only [Bool.or_eq_true, decide_eq_true_eq, bne_iff_ne, ne_eq, not_or, not_not] at hhead
    split at h
    · cases h
    · rename_i nonce ct hread
      split at h
      · rename_i hdec
        cases h
        exact ⟨nonce, ct, eq_append_of_readBlock hhead.2 hread, hdec⟩
      · cases h

theorem decodeRecord_ok {profile : Bytes} {bundle : Bundle} {tag blob : Bytes}
    {r : Bytes × Bytes} (h : decodeRecord cr profile bundle tag blob = .ok r) :
    ∃ plain, openBlob cr bundle.record profile magic tag blob = .ok plain ∧
      splitInner cr bundle.name plain tag = .ok r := by
  unfold decodeRecord at h
  cases ho : openBlob cr bundle.record profile magic tag blob with
  | ok plain =>
    rw [ho] at h
    exact ⟨plain, rfl, h⟩
  | error e =>
    rw [ho] at h
    cases h

theorem decodeRecord_tag {profile : Bytes} {bundle : Bundle} {tag blob name payload : Bytes}
    (h : decodeRecord cr profile bundle tag blob = .ok (name, payload)) :
    validRecordName name = true ∧ tagOf cr bundle.name name = tag := by
  obtain ⟨plain, -, hs⟩ := decodeRecord_ok h
  exact splitInner_ok hs

end RoundTrip

end Powehi.Store
