import Powehi.Store.Record
import Powehi.Store.Rules

/-!
# Key bundle and key file

The store's three keys are a bundle sealed in `keys.wk3` under a password key and, optionally,
a recovery-phrase key. A slot is `nonce || AEAD(bundle)`; its associated data bind the slot to
its kind and the profile.
-/

namespace Powehi.Store

open Codec Semantics Program List

/-- Key file magic. -/
def keyfileMagic : Bytes := ascii "PHK1"

def bundleLen : ℕ := 3 * keyLen
def slotLen : ℕ := nonceLen + bundleLen + tagLen
/-- Magic, password slot, recovery-slot flag, recovery slot. -/
def keyfileMaxLen : ℕ := keyfileMagic.length + slotLen + 1 + slotLen

/-- HKDF info labels: one per use of an export key or recovery seed. -/
def keyInfo : Bytes := ascii "powehi-cli/profile-store/v1/record-key"
def nameKeyInfo : Bytes := ascii "powehi-cli/profile-store/v2/name-key"
def manifestKeyInfo : Bytes := ascii "powehi-cli/profile-store/v3/manifest-key"
def kekPwInfo : Bytes := ascii "powehi-cli/profile-store/v3/kek-pw"
def kekRcInfo : Bytes := ascii "powehi-cli/profile-store/v3/kek-rc"

/-! ### Deriving keys -/

/-- Derive a key from an export key of the one accepted length. -/
def expand (cr : Crypto) (exportKey info : Bytes) : Except StoreError Key :=
  if exportKey.length ≠ exportKeyLen then .error .badKeyLength else .ok (cr.hkdf exportKey info)

def deriveKey (cr : Crypto) (exportKey : Bytes) : Except StoreError Key :=
  expand cr exportKey keyInfo

/-- The keys a store had before bundles, derived from its export key. -/
def Bundle.derived (cr : Crypto) (exportKey : Bytes) : Except StoreError Bundle := do
  let record ← deriveKey cr exportKey
  let name ← expand cr exportKey nameKeyInfo
  let manifest ← expand cr exportKey manifestKeyInfo
  return { record, name, manifest }

/-- Equality of all three keys. -/
def Bundle.sameKeys (a b : Bundle) : Bool := a == b

/-- Key-encryption key from the export key. -/
structure PasswordKek where
  key : Key
deriving DecidableEq

def PasswordKek.new (cr : Crypto) (exportKey : Bytes) : Except StoreError PasswordKek := do
  return ⟨← expand cr exportKey kekPwInfo⟩

/-- Key-encryption key from the recovery phrase's seed. -/
structure RecoveryKek where
  key : Key
deriving DecidableEq

def RecoveryKek.fromSeed (cr : Crypto) (seed : Bytes) : Except StoreError RecoveryKek :=
  if seed.length ≠ recoverySeedLen then .error .badKeyLength else .ok ⟨cr.hkdf seed kekRcInfo⟩

section Lengths

variable {cr : Crypto} {exportKey : Bytes}

theorem expand_of_length (h : exportKey.length = exportKeyLen) (info : Bytes) :
    expand cr exportKey info = .ok (cr.hkdf exportKey info) :=
  if_neg (not_not.mpr h)

theorem PasswordKek.new_of_length (h : exportKey.length = exportKeyLen) :
    PasswordKek.new cr exportKey = .ok ⟨cr.hkdf exportKey kekPwInfo⟩ := by
  rw [PasswordKek.new, expand_of_length h]
  rfl

theorem PasswordKek.length_of_new {pw : PasswordKek} (h : PasswordKek.new cr exportKey = .ok pw) :
    exportKey.length = exportKeyLen := by
  by_contra hlen
  rw [PasswordKek.new, expand, if_pos hlen] at h
  cases h

theorem Bundle.derived_of_length (h : exportKey.length = exportKeyLen) :
    Bundle.derived cr exportKey = .ok ⟨cr.hkdf exportKey keyInfo,
      cr.hkdf exportKey nameKeyInfo, cr.hkdf exportKey manifestKeyInfo⟩ := by
  rw [Bundle.derived, deriveKey, expand_of_length h, expand_of_length h, expand_of_length h]
  rfl

end Lengths

/-! ### Slots -/

/-- The two kinds of slot. -/
inductive SlotKind
  | password
  | recovery
deriving DecidableEq

/-- `KIND_PASSWORD` and `KIND_RECOVERY`. -/
def SlotKind.byte : SlotKind → UInt8
  | .password => 1
  | .recovery => 2

def slotAad (profile : Bytes) (kind : SlotKind) : Bytes :=
  keyfileMagic ++ kind.byte :: lenByte profile :: profile

/-- The 96 bytes of a bundle. -/
def Bundle.bytes (b : Bundle) : Bytes := b.record.1 ++ (b.name.1 ++ b.manifest.1)

/-- The bundle in 96 bytes. -/
def Bundle.ofBytes (raw : Bytes) : Option Bundle := do
  let (record, rest) ← readBlock 32 raw
  let (name, rest) ← readBlock 32 rest
  let (manifest, rest) ← readBlock 32 rest
  if rest.isEmpty then some { record, name, manifest } else none

/-- A slot once its nonce is drawn. -/
def slot (cr : Crypto) (kek : Key) (profile : Bytes) (kind : SlotKind) (bundle : Bundle)
    (nonce : Nonce) : Bytes :=
  nonce.1 ++ cr.encrypt kek nonce (slotAad profile kind) bundle.bytes

/-- Seal a bundle into a slot. -/
def sealSlot (kek : Key) (profile : Bytes) (kind : SlotKind) (bundle : Bundle) : StoreM Bytes := do
  let nonce ← call .fillNonce
  let ct ← call (.encrypt .keyfileCorrupt kek nonce (slotAad profile kind) bundle.bytes)
  return nonce.1 ++ ct

/-- Open a slot. -/
def unsealSlot (cr : Crypto) (kek : Key) (profile : Bytes) (kind : SlotKind) (sealed : Bytes) :
    Except StoreError Bundle :=
  if sealed.length ≠ slotLen then .error .keyfileCorrupt
  else
    match readBlock 12 sealed with
    | none => .error .keyfileCorrupt
    | some (nonce, ct) =>
      match cr.decrypt kek nonce (slotAad profile kind) ct with
      | none => .error .authentication
      | some plain =>
        match Bundle.ofBytes plain with
        | none => .error .keyfileCorrupt
        | some bundle => .ok bundle

@[simp] theorem Bundle.length_bytes (b : Bundle) : b.bytes.length = bundleLen := by
  simp only [bytes, length_append, b.record.2, b.name.2, b.manifest.2]
  rfl

@[simp] theorem Bundle.ofBytes_bytes (b : Bundle) : Bundle.ofBytes b.bytes = some b := by
  have hm : readBlock 32 b.manifest.1 = some (b.manifest, []) := by
    simpa using readBlock_append b.manifest []
  simp [ofBytes, bytes, hm]

theorem length_slot (cr : Crypto) (kek : Key) (profile : Bytes) (kind : SlotKind)
    (bundle : Bundle) (nonce : Nonce) : (slot cr kek profile kind bundle nonce).length =
    slotLen := by
  simp only [slot, length_append, nonce.2, cr.length_encrypt, Bundle.length_bytes]
  rfl

theorem unsealSlot_slot (cr : Crypto) (kek : Key) (profile : Bytes) (kind : SlotKind)
    (bundle : Bundle) (nonce : Nonce) :
    unsealSlot cr kek profile kind (slot cr kek profile kind bundle nonce) = .ok bundle := by
  rw [unsealSlot, if_neg (not_not.mpr (length_slot ..))]
  simp [slot, cr.decrypt_encrypt]

/-- Sealing yields a slot under some nonce and logs one use of the key. -/
theorem wp_sealSlot {cr : Crypto} {A : Choice → Prop} {kek : Key} {profile : Bytes}
    {kind : SlotKind} {bundle : Bundle} {Q : Post Bytes} {C : World → Prop} {s : World} (hs : C s)
    (hlog : ∀ n, C (s.log ⟨kek, n, slotAad profile kind, bundle.bytes⟩))
    (hQ : ∀ n, Q (.ok (slot cr kek profile kind bundle n))
      (s.log ⟨kek, n, slotAad profile kind, bundle.bytes⟩))
    (failed : ¬FaultFree A → ∀ e t, t = s ∨ (∃ n, t = s.log
      ⟨kek, n, slotAad profile kind, bundle.bytes⟩) → Q (.error e) t) :
    wp (machine cr) A (sealSlot kek profile kind bundle) Q C s := by
  rw [sealSlot, wp_bind]
  refine wp_fillNonce hs (fun n => ?_) (fun hA => failed hA _ _ (.inl rfl))
  rw [andThen_bind]
  refine wp_encrypt hs (hlog n) ?_ (fun hA => failed hA _ _ (.inl rfl))
    (fun hA => failed hA _ _ (.inr ⟨n, rfl⟩))
  exact ⟨hlog n, hQ n⟩

/-! ### The key file -/

namespace KeyFile

def new (profile : Bytes) (bundle : Bundle) (pw : PasswordKek) (rc : Option RecoveryKek) :
    StoreM KeyFile := do
  let password ← sealSlot pw.key profile .password bundle
  match rc with
  | none => return ⟨password, none⟩
  | some rc => return ⟨password, some (← sealSlot rc.key profile .recovery bundle)⟩

/-- The same bundle under a new password key; the recovery slot is carried over unchanged. -/
def withPassword (kf : KeyFile) (profile : Bytes) (bundle : Bundle) (pw : PasswordKek) :
    StoreM KeyFile := do
  return { kf with password := ← sealSlot pw.key profile .password bundle }

/-- The same bundle with a new or replaced recovery slot. -/
def withRecovery (kf : KeyFile) (profile : Bytes) (bundle : Bundle) (rc : RecoveryKek) :
    StoreM KeyFile := do
  return { kf with recovery := some (← sealSlot rc.key profile .recovery bundle) }

def hasRecovery (kf : KeyFile) : Bool := kf.recovery.isSome

def unlockPassword (cr : Crypto) (kf : KeyFile) (profile : Bytes) (pw : PasswordKek) :
    Except StoreError Bundle :=
  unsealSlot cr pw.key profile .password kf.password

def unlockRecovery (cr : Crypto) (kf : KeyFile) (profile : Bytes) (rc : RecoveryKek) :
    Except StoreError Bundle :=
  match kf.recovery with
  | none => .error .noRecoveryWrap
  | some sealed => unsealSlot cr rc.key profile .recovery sealed

/-- `PHK1 || password slot || has_recovery [|| recovery slot]`. -/
def encode (kf : KeyFile) : Bytes :=
  keyfileMagic ++ (kf.password ++
    match kf.recovery with
    | some sealed => 1 :: sealed
    | none => [0])

def decode (bytes : Bytes) : Except StoreError KeyFile :=
  let head := keyfileMagic.length + slotLen
  if bytes.length ≤ head || bytes.take keyfileMagic.length != keyfileMagic then
    .error .keyfileCorrupt
  else
    let password := (bytes.take head).drop keyfileMagic.length
    match bytes.drop head with
    | [] => .error .keyfileCorrupt
    | flag :: rest =>
      if flag = 0 ∧ rest.length = 0 then .ok ⟨password, none⟩
      else if flag = 1 ∧ rest.length = slotLen then .ok ⟨password, some rest⟩
      else .error .keyfileCorrupt

/-- Both slots have the length of a slot. -/
def WellFormed (kf : KeyFile) : Prop :=
  kf.password.length = slotLen ∧ ∀ sealed ∈ kf.recovery, sealed.length = slotLen

theorem decode_encode {kf : KeyFile} (h : kf.WellFormed) : decode kf.encode = .ok kf := by
  obtain ⟨password, recovery⟩ := kf
  obtain ⟨hpw, hrc⟩ := h
  have head : ∀ tail, (keyfileMagic ++ (password ++ tail)).take (keyfileMagic.length + slotLen) =
      keyfileMagic ++ password := by
    intro tail
    rw [← append_assoc, ← hpw, ← length_append, take_left]
  have rest : ∀ tail, (keyfileMagic ++ (password ++ tail)).drop (keyfileMagic.length + slotLen) =
      tail := by
    intro tail
    rw [← append_assoc, ← hpw, ← length_append, drop_left]
  cases recovery with
  | none => simp [decode, encode, head, rest, hpw]
  | some sealed =>
    have := hrc sealed rfl
    simp [decode, encode, head, rest, hpw, this]

theorem length_encode_le {kf : KeyFile} (h : kf.WellFormed) : kf.encode.length ≤ keyfileMaxLen := by
  obtain ⟨password, recovery⟩ := kf
  obtain ⟨hpw, hrc⟩ := h
  cases recovery with
  | none =>
    simp only [encode, length_append, hpw, length_singleton, keyfileMaxLen]
    omega
  | some sealed =>
    have := hrc sealed rfl
    simp only [encode, length_append, hpw, length_cons, this, keyfileMaxLen]
    omega

end KeyFile

end Powehi.Store
