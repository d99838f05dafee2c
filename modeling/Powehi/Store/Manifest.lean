import Powehi.Store.Record
import Powehi.Store.Rules

/-!
# The store manifest

The manifest lists every record's tag and file hash under a monotonic generation, sealed
under its own key with the profile in the associated data. A `pending` entry names the one
record a mutation in flight is changing, with its previous hash.
-/

namespace Powehi.Store

open Codec Semantics Program List Std.ExtTreeMap

variable {m : Manifest} {cr : Crypto} {key : Key}

/-- Manifest file magic. -/
def manifestMagic : Bytes := ascii "PHM1"

/-- Tag to its 16 raw bytes; `none` if it is not a tag. -/
def tagBytes (tag : Bytes) : Option Bytes := if isTag tag then some (ofHex tag) else none

/-- Associated data: `magic || len(profile) || profile`. -/
def manifestAad (profile : Bytes) : Bytes := manifestMagic ++ lenByte profile :: profile

namespace Manifest

/-! ### Encoding -/

/-- `n × (tag || hash)`. -/
def encodeEntries : List (Bytes × Digest) → Option Bytes
  | [] => some []
  | (tag, hash) :: rest => do
    let raw ← tagBytes tag
    return raw ++ (hash.1 ++ (← encodeEntries rest))

/-- `0`, or `1 || tag || has_old [|| hash]`. -/
def encodePending : Option Pending → Option Bytes
  | none => some [0]
  | some p => do
    let raw ← tagBytes p.tag
    return 1 :: (raw ++ match p.old with
      | none => [0]
      | some hash => 1 :: hash.1)

/-- `generation || n || n × (tag || hash) || pending`. -/
def encode (m : Manifest) : Except StoreError Bytes :=
  if m.entries.size < 2 ^ 32 then
    match encodeEntries m.entries.toList, encodePending m.pending with
    | some entries, some pending =>
      .ok (beBytes 8 m.generation.toNat ++ (beBytes 4 m.entries.size ++ (entries ++ pending)))
    | _, _ => .error .manifestCorrupt
  else .error .manifestCorrupt

def decodeEntries : ℕ → Map Digest → Bytes → Option (Map Digest × Bytes)
  | 0, entries, b => some (entries, b)
  | n + 1, entries, b => do
    let (raw, b) ← readBlock 16 b
    let (hash, b) ← readBlock 32 b
    -- a tag listed twice is malformed
    if toHex raw.1 ∈ entries then none
    else decodeEntries n (entries.insert (toHex raw.1) hash) b

def decodePending : Bytes → Option (Option Pending)
  | [0] => some none
  | 1 :: b => do
    let (raw, b) ← readBlock 16 b
    match b with
    | [0] => some (some ⟨toHex raw.1, none⟩)
    | 1 :: b => do
      let (hash, b) ← readBlock 32 b
      if b.isEmpty then some (some ⟨toHex raw.1, some hash⟩) else none
    | _ => none
  | _ => none

/-- Every malformation is the same error, so decoding proper is an `Option`. -/
def decode? (b : Bytes) : Option Manifest := do
  let (generation, b) ← readBlock 8 b
  let (n, b) ← readBlock 4 b
  if ofBe n.1 > maxRecords + 2 then none
  else do
    let (entries, b) ← decodeEntries (ofBe n.1) ∅ b
    let pending ← decodePending b
    return ⟨UInt64.ofNat (ofBe generation.1), entries, pending⟩

def decode (b : Bytes) : Except StoreError Manifest :=
  match decode? b with
  | some m => .ok m
  | none => .error .manifestCorrupt

/-! ### Sealing -/

/-- `MAGIC || nonce || AEAD(encode)`. -/
def sealBlob (m : Manifest) (key : Key) (profile : Bytes) : StoreM Bytes := do
  let plain ← ofExcept m.encode
  let nonce ← call .fillNonce
  let ct ← call (.encrypt .manifestCorrupt key nonce (manifestAad profile) plain)
  return manifestMagic ++ nonce.1 ++ ct

def openBlob (cr : Crypto) (key : Key) (profile blob : Bytes) : Except StoreError Manifest :=
  if blob.length < manifestMagic.length + nonceLen + tagLen ||
      blob.take manifestMagic.length != manifestMagic then
    .error .manifestCorrupt
  else
    match readBlock 12 (blob.drop manifestMagic.length) with
    | none => .error .manifestCorrupt
    | some (nonce, ct) =>
      match cr.decrypt key nonce (manifestAad profile) ct with
      | none => .error .authentication
      | some plain => decode plain

/-! ### Verification -/

/-- The pending entry is about `tag` and its old state is `old`. -/
def pendingAt (m : Manifest) (tag : Bytes) (old : Option Digest) : Bool :=
  match m.pending with
  | none => false
  | some p => p.tag == tag && p.old == old

/-- Check one manifest entry against the files found. -/
def verifyEntry (m : Manifest) (found : Map Digest) (e : Bytes × Digest) : Except StoreError Unit :=
  match found[e.1]? with
  | none =>
    -- only a pending create may lack its file
    if m.pendingAt e.1 none then .ok () else .error (.recordMissing e.1)
  | some h =>
    if h = e.2 then .ok ()
    else if m.pendingAt e.1 (some h) then .ok ()
    else .error (.recordStale e.1)

/-- Check one file found against the manifest. -/
def verifyFound (m : Manifest) (e : Bytes × Digest) : Except StoreError Unit :=
  if e.1 ∈ m.entries then .ok ()
  -- pending delete: the file is still there with its old hash
  else if m.pendingAt e.1 (some e.2) then .ok ()
  else .error (.recordUnlisted e.1)

/-- Check `found` (tag to hash of each record file on disk) against the manifest. -/
def verify (m : Manifest) (found : Map Digest) : Except StoreError Unit := do
  m.entries.toList.forM (m.verifyEntry found)
  found.toList.forM m.verifyFound

theorem pendingAt_iff {tag : Bytes} {old : Option Digest} :
    m.pendingAt tag old = true ↔ m.pending = some ⟨tag, old⟩ := by
  unfold pendingAt
  split
  · rename_i h
    simp [h]
  · rename_i p h
    obtain ⟨tag', old'⟩ := p
    simp [h]

/-- Verification accepts exactly the files that equal the manifest's entries, except that the
record of a pending mutation may still be in its old state. -/
theorem verify_ok_iff {found : Map Digest} :
    m.verify found = .ok () ↔
      ∀ tag, found[tag]? = m.entries[tag]? ∨ m.pending = some ⟨tag, found[tag]?⟩ := by
  have hbind : m.verify found = .ok () ↔
      m.entries.toList.forM (m.verifyEntry found) = .ok () ∧
        found.toList.forM m.verifyFound = .ok () := by
    unfold verify
    cases m.entries.toList.forM (m.verifyEntry found) with
    | error e => exact ⟨nofun, nofun⟩
    | ok u => exact ⟨fun h => ⟨rfl, h⟩, fun h => h.2⟩
  -- tag by tag: listed or not, and found or not
  rw [hbind, Map.forM_toList_eq_ok, Map.forM_toList_eq_ok]
  constructor
  · rintro ⟨hentries, hfound⟩ tag
    cases he : m.entries[tag]? with
    | some h =>
      have := hentries tag h he
      cases hf : found[tag]? with
      | none => simpa [verifyEntry, hf, pendingAt_iff] using this
      | some h' =>
        by_cases hh : h' = h
        · exact .inl (congrArg some hh)
        · simpa [verifyEntry, hf, hh, pendingAt_iff] using this
    | none =>
      cases hf : found[tag]? with
      | none => exact .inl rfl
      | some h' =>
        have := hfound tag h' hf
        have hmem : tag ∉ m.entries := by simpa using he
        simpa [verifyFound, hmem, pendingAt_iff] using this
  · intro h
    refine ⟨fun tag hash he => ?_, fun tag hash hf => ?_⟩
    · rcases h tag with hf | hp
      · simp [verifyEntry, hf, he]
      · cases hf : found[tag]? with
        | none =>
          simp [verifyEntry, hf, pendingAt_iff, hp]
        | some h' =>
          simp [verifyEntry, hf, pendingAt_iff, hp]
    · rcases h tag with he | hp
      · have hmem : tag ∈ m.entries := by
          rw [mem_iff_isSome_getElem?, ← he, hf]
          rfl
        simp [verifyFound, hmem]
      · rw [hf] at hp
        simp [verifyFound, pendingAt_iff, hp]

/-! ### Round trip -/

/-- What a manifest must satisfy to be written and read back. -/
structure WellFormed (m : Manifest) : Prop where
  tags : ∀ tag ∈ m.entries, isTag tag = true
  pending : ∀ p ∈ m.pending, isTag p.tag = true
  size : m.entries.size ≤ maxRecords + 2

/-- A tag's raw bytes are 16 bytes that print back as the tag. -/
theorem tagBytes_of_isTag {tag : Bytes} (h : isTag tag = true) :
    ∃ raw : Block 16, tagBytes tag = some raw.1 ∧ toHex raw.1 = tag := by
  have hlen : tag.length = 2 * 16 := by
    simp only [isTag, Bool.and_eq_true, beq_iff_eq] at h
    exact h.1
  refine ⟨⟨ofHex tag, length_ofHex hlen⟩, by simp [tagBytes, h], toHex_ofHex hlen ?_⟩
  simp only [isTag, Bool.and_eq_true] at h
  exact h.2

/-- Entries decode to the map they were listed from. -/
theorem encodeEntries_spec {l : List (Bytes × Digest)} (htags : ∀ e ∈ l, isTag e.1 = true) :
    ∃ b, encodeEntries l = some b ∧ b.length = 48 * l.length ∧
      ∀ (acc : Map Digest) (rest : Bytes), (∀ e ∈ l, e.1 ∉ acc) →
        l.Pairwise (fun x y => ¬compare x.1 y.1 = .eq) →
        decodeEntries l.length acc (b ++ rest) = some (acc.insertMany l, rest) := by
  induction l with
  | nil => exact ⟨[], rfl, rfl, fun acc rest _ _ => rfl⟩
  | cons e l ih =>
    obtain ⟨tag, hash⟩ := e
    obtain ⟨raw, hraw, hhex⟩ := tagBytes_of_isTag (htags _ mem_cons_self)
    obtain ⟨b, hb, hlen, hdec⟩ := ih fun e he => htags e (mem_cons_of_mem _ he)
    refine ⟨raw.1 ++ (hash.1 ++ b), by simp [encodeEntries, hraw, hb], ?_, ?_⟩
    · simp only [length_append, raw.2, hash.2, hlen, length_cons]
      omega
    · intro acc rest hacc hpw
      obtain ⟨hne, hpw⟩ := pairwise_cons.mp hpw
      have hfresh : tag ∉ acc := hacc _ mem_cons_self
      have hnext : ∀ e ∈ l, e.1 ∉ acc.insert tag hash := by
        intro e he hmem
        rcases mem_insert.mp hmem with h | h
        · exact hne e he h
        · exact hacc e (mem_cons_of_mem _ he) h
      simp only [append_assoc, length_cons, decodeEntries, readBlock_append,
        Option.bind_eq_bind, Option.bind_some, hhex, hfresh, if_false]
      rw [hdec _ rest hnext hpw, insertMany_cons]

theorem encodePending_spec {p : Option Pending} (h : ∀ x ∈ p, isTag x.tag = true) :
    ∃ b, encodePending p = some b ∧ b.length ≤ 50 ∧ decodePending b = some p := by
  match p, h with
  | none, _ => exact ⟨[0], rfl, by decide, rfl⟩
  | some ⟨tag, none⟩, h =>
    obtain ⟨raw, hraw, hhex⟩ := tagBytes_of_isTag (h _ rfl)
    refine ⟨1 :: (raw.1 ++ [0]), by simp [encodePending, hraw], ?_, ?_⟩
    · simp [raw.2]
    · simp [decodePending, hhex]
  | some ⟨tag, some hash⟩, h =>
    obtain ⟨raw, hraw, hhex⟩ := tagBytes_of_isTag (h _ rfl)
    refine ⟨1 :: (raw.1 ++ 1 :: hash.1), by simp [encodePending, hraw], ?_, ?_⟩
    · simp [raw.2, hash.2]
    · have hhash : readBlock 32 hash.1 = some (hash, []) := by
        simpa using readBlock_append hash []
      simp [decodePending, hhex, hhash]

/-- A well-formed manifest is encoded within the size limit and decodes to itself. -/
theorem decode_encode (h : m.WellFormed) :
    ∃ b, m.encode = .ok b ∧ b.length ≤ maxManifestLen ∧ decode b = .ok m := by
  have htags : ∀ e ∈ m.entries.toList, isTag e.1 = true := by
    intro e he
    refine h.tags e.1 ?_
    rw [← Std.ExtTreeMap.mem_keys, ← map_fst_toList_eq_keys]
    exact mem_map_of_mem he
  obtain ⟨be, hbe, hlen, hdec⟩ := encodeEntries_spec htags
  obtain ⟨bp, hbp, hplen, hpdec⟩ := encodePending_spec h.pending
  have hsize : m.entries.size < 2 ^ 32 := by
    have := h.size
    simp only [maxRecords] at this
    omega
  refine ⟨_, by rw [encode, if_pos hsize, hbe, hbp], ?_, ?_⟩
  · have := h.size
    simp only [length_append, length_beBytes, hlen, length_toList,
      maxManifestLen, maxRecords, rawTagLen, tagHexLen, hashLen] at this ⊢
    omega
  · have hgen : readBlock 8 (beBytes 8 m.generation.toNat ++
        (beBytes 4 m.entries.size ++ (be ++ bp))) =
        some (⟨beBytes 8 m.generation.toNat, length_beBytes ..⟩, _) := readBlock_append ⟨_, _⟩ _
    have hn : readBlock 4 (beBytes 4 m.entries.size ++ (be ++ bp)) =
        some (⟨beBytes 4 m.entries.size, length_beBytes ..⟩, _) := readBlock_append ⟨_, _⟩ _
    have hcount : ofBe (beBytes 4 m.entries.size) = m.entries.size := ofBe_beBytes hsize
    have hgenVal : UInt64.ofNat (ofBe (beBytes 8 m.generation.toNat)) = m.generation := by
      rw [ofBe_beBytes (by simpa using m.generation.toNat_lt), UInt64.ofNat_toNat]
    have hentries := hdec ∅ bp (by simp) m.entries.distinct_keys_toList
    rw [length_toList, Map.insertMany_toList] at hentries
    simp [decode, decode?, hgen, hn, hcount, Nat.not_lt.mpr h.size, hentries, hpdec, hgenVal]

/-! ### Sealed manifests -/

/-- `blob` is what sealing `m` under some nonce writes. -/
def IsBlob (cr : Crypto) (key : Key) (profile : Bytes) (m : Manifest) (blob : Bytes) : Prop :=
  ∃ plain nonce, m.encode = .ok plain ∧
    blob = manifestMagic ++ nonce.1 ++ cr.encrypt key nonce (manifestAad profile) plain

/-- Largest manifest file. -/
def maxBlobLen : ℕ := maxManifestLen + manifestMagic.length + nonceLen + tagLen

theorem IsBlob.openBlob {profile : Bytes} {blob : Bytes} (h : IsBlob cr key profile m blob)
    (hm : m.WellFormed) : Manifest.openBlob cr key profile blob = .ok m := by
  obtain ⟨plain, nonce, hplain, rfl⟩ := h
  obtain ⟨b, hb, -, hdec⟩ := decode_encode hm
  obtain rfl : plain = b := by
    rw [hplain] at hb
    injection hb
  have hlen : manifestMagic.length + nonceLen + tagLen ≤ manifestMagic.length +
      (nonce.1.length + (cr.encrypt key nonce (manifestAad profile) plain).length) := by
    rw [cr.length_encrypt, nonceLen]
    omega
  simpa [Manifest.openBlob, cr.decrypt_encrypt, hdec] using hlen

/-- What opens is a nonce and a ciphertext behind the magic. -/
theorem openBlob_ok {profile blob : Bytes} (h : Manifest.openBlob cr key profile blob = .ok m) :
    ∃ nonce ct plain, blob = manifestMagic ++ nonce.1 ++ ct ∧
      cr.decrypt key nonce (manifestAad profile) ct = some plain ∧ decode plain = .ok m := by
  unfold Manifest.openBlob at h
  split at h
  · cases h
  · rename_i hhead
    simp only [Bool.or_eq_true, decide_eq_true_eq, bne_iff_ne, ne_eq, not_or, not_not] at hhead
    split at h
    · cases h
    · rename_i nonce ct hread
      split at h
      · cases h
      · rename_i plain hdec
        exact ⟨nonce, ct, plain, eq_append_of_readBlock hhead.2 hread, hdec, h⟩

theorem IsBlob.length_le {profile : Bytes} {blob : Bytes} (h : IsBlob cr key profile m blob)
    (hm : m.WellFormed) : blob.length ≤ maxBlobLen := by
  obtain ⟨plain, nonce, hplain, rfl⟩ := h
  obtain ⟨b, hb, hlen, -⟩ := decode_encode hm
  obtain rfl : plain = b := by
    rw [hplain] at hb
    injection hb
  simp only [length_append, nonce.2, cr.length_encrypt, maxBlobLen, nonceLen]
  omega

end Manifest

end Powehi.Store
