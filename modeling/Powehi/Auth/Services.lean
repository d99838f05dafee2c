import Powehi.Auth.Cache

/-!
# The auth and invite services

Registration, login, device management and invites as programs over the cache and the database.
Signals on the event bus are left out: their outcome is ignored and they write nothing. The
cryptographic functions the services call are parameters.
-/

namespace Powehi.Auth

open Codec Semantics Server

/-- The functions taken from cryptographic libraries. -/
structure Primitives where
  sha256 : Bytes → Bytes
  /-- The first half of an HMAC under the server's secret, read as a UUID. -/
  syntheticUserId : Bytes → UserId
  /-- The bytes are a point of the curve. -/
  validKey : Bytes → Bool
  verifyStrict : (key message signature : Bytes) → Bool
  /-- The sixteen bytes of a UUID. -/
  uuidBytes : Uuid → Bytes
  /-- The text of a UUID, with and without hyphens. -/
  uuidText : Uuid → Bytes
  uuidSimple : Uuid → Bytes

structure RegistrationInitRequest where
  opaqueRequest : Bytes
  handleHash : Bytes
deriving DecidableEq

structure RegistrationFinishRequest where
  userId : UserId
  opaqueRecord : Bytes
  mlsCredential : Bytes
  recoveryPubkey : Option Bytes
  deviceId : Option DeviceId
deriving DecidableEq

structure RegistrationFinishResponse where
  userId : UserId
  deviceId : DeviceId
deriving DecidableEq

structure LoginInitRequest where
  handleHash : Bytes
  opaqueKe1 : Bytes
deriving DecidableEq

structure LoginInitResponse where
  userId : UserId
  opaqueKe2 : Bytes
  loginNonce : Nonce
deriving DecidableEq

structure RecoveryProof where
  mlsCredential : Bytes
  signature : Bytes
deriving DecidableEq

structure LoginFinishRequest where
  opaqueKe3 : Bytes
  loginNonce : Nonce
  deviceId : DeviceId
  recoveryProof : Option RecoveryProof
deriving DecidableEq

/-- A program that serves a request. -/
abbrev Serve (α : Type) := Program Op DomainError α

section Calls

variable {α β : Type}

/-- Refuse the request. -/
def reject (e : DomainError) : Serve α := .throw e

/-- A repository call; its error is passed on. -/
def sql (q : Query β) : Serve β := .request (.sql q)

/-- A cache call; its error is passed on. -/
def cache (q : CacheQuery β) : Serve β := .request (.cache q)

/-- A cache call whose failure means that the caller is not authorized. -/
def cacheOrUnauthorized (q : CacheQuery β) : Serve β :=
  .op (.cache q) fun
    | .ok b => .pure b
    | .error _ => .throw .unauthorized

/-- A cache call whose failure is only noted. -/
def tryCache (q : CacheQuery β) : Serve (Except DomainError β) := .perform (.cache q)

def opaqueKe (call : OpaqueCall) : Serve Bytes := .request (.opaqueKe call)

def newUuid : Serve Uuid := .perform .newUuid

end Calls

def regTtl : Time := seconds 300

def regDoneTtl : Time := seconds 60

def loginNonceTtl : Time := seconds 300

def sessionTtl : Time := seconds 86400

def deviceSessionsTtl : Time := seconds (86400 + 300)

def maxDevicesPerUser : ℕ := 10

def maxMlsCredentialBytes : ℕ := 4 * 1024

/-- A key nobody has the secret of. -/
def dummyRecoveryPubkey : Bytes :=
  [33, 150, 102, 62, 33, 168, 147, 22, 120, 201, 204, 46, 173, 129, 169, 11, 255, 63, 89, 124, 54,
    94, 148, 112, 45, 146, 223, 9, 71, 83, 41, 194]

/-! ### Registration -/

def registerInit (req : RegistrationInitRequest) : Serve (UserId × Bytes) := do
  let userId ← newUuid
  let ke2 ← opaqueKe (.registrationStart req.opaqueRequest userId)
  cache (.set (.reg userId) (.bytes req.handleHash) (some regTtl))
  pure (userId, ke2)

/-- A field with its length in front, or a mark that it is missing. -/
def framedField : Option Bytes → Bytes
  | some f => 1 :: (beBytes 8 f.length ++ f)
  | none => [0]

/-- What a retry of a registration must repeat. -/
def regFingerprint (P : Primitives) (deviceId : DeviceId) (req : RegistrationFinishRequest) :
    Bytes :=
  P.sha256 (P.uuidBytes deviceId ++ framedField (some req.opaqueRecord) ++
    framedField (some req.mlsCredential) ++ framedField req.recoveryPubkey)

/-- Replay a completed registration. Only a request with a device id of the client's choice has a
fingerprint; one that differs from what was completed falls through. -/
def replayRegister (fingerprint : Option Bytes) (req : RegistrationFinishRequest) :
    Serve (Option RegistrationFinishResponse) :=
  match fingerprint with
  | none => pure none
  | some fp => do
    match ← cache (.get (.regDone req.userId)) with
    | none => pure none
    | some stored =>
      match req.deviceId with
      | none => reject .unauthorized
      | some deviceId =>
        if stored = .bytes fp then pure (some ⟨req.userId, deviceId⟩) else pure none

/-- The checks on the fields of a registration. -/
def checkEnrollment (req : RegistrationFinishRequest) : Serve Unit :=
  if req.recoveryPubkey.any (·.length ≠ 32) then
    reject (.invalidInput "invalid recovery_pubkey length")
  else if maxMlsCredentialBytes < req.mlsCredential.length then
    reject (.invalidInput "mls_credential too large")
  else pure ()

/-- The id of the first device: the one the client chose, if it is free, or a new one. -/
def firstDeviceId (req : RegistrationFinishRequest) : Serve DeviceId :=
  match req.deviceId with
  | none => newUuid
  | some deviceId => do
    match ← sql (.findDevice deviceId) with
    | some _ => reject (.alreadyExists "device")
    | none => pure deviceId

/-- Note a completed registration, so that it can be replayed. -/
def noteDone (fingerprint : Option Bytes) (userId : UserId) : Serve Unit :=
  match fingerprint with
  | none => pure ()
  | some fp => cache (.set (.regDone userId) (.bytes fp) (some regDoneTtl))

/-- The part of a registration after its session was consumed. -/
def enroll (req : RegistrationFinishRequest) (fingerprint : Option Bytes)
    (handleHash passwordFile : Bytes) : Serve RegistrationFinishResponse := do
  checkEnrollment req
  let deviceId ← firstDeviceId req
  sql (.saveUser ⟨req.userId, handleHash, passwordFile, req.recoveryPubkey⟩)
  sql (.saveDevice ⟨deviceId, req.userId, req.mlsCredential⟩)
  noteDone fingerprint req.userId
  pure ⟨req.userId, deviceId⟩

def registerFinish (P : Primitives) (req : RegistrationFinishRequest) :
    Serve RegistrationFinishResponse := do
  let fingerprint := req.deviceId.map fun d => regFingerprint P d req
  match ← replayRegister fingerprint req with
  | some resp => pure resp
  | none => do
    let passwordFile ← opaqueKe (.registrationFinish req.opaqueRecord)
    match ← cache (.getDel (.reg req.userId)) with
    | some (.bytes handleHash) => enroll req fingerprint handleHash passwordFile
    | _ => do
      -- another attempt may have finished in the meantime
      match ← replayRegister fingerprint req with
      | some resp => pure resp
      | none => reject (.notFound "registration session")

/-! ### Login -/

def loginInit (P : Primitives) (req : LoginInitRequest) : Serve LoginInitResponse := do
  let user ← sql (.findUserByHandle req.handleHash)
  let userId := user.elim (P.syntheticUserId req.handleHash) User.id
  let loginNonce ← newUuid
  let ke2 ← opaqueKe
    (.loginStart (user.map User.opaquePasswordFile) req.opaqueKe1 userId loginNonce)
  cache (.set (.loginNonce loginNonce) (.uuid userId) (some loginNonceTtl))
  pure ⟨userId, ke2, loginNonce⟩

/-- The message a recovery proof signs. -/
def recoveryChallenge (P : Primitives) (loginNonce : Nonce) : Bytes :=
  ascii "powehi-recovery-challenge-v1" ++ [0] ++ P.uuidText loginNonce

/-- The proof verifies against the key the user enrolled. Without one, a fixed key that nobody can
sign for is used all the same. -/
def provesRecovery (P : Primitives) (user : User) (loginNonce : Nonce) (proof : RecoveryProof) :
    Bool :=
  let pubkey := user.recoveryPubkey.getD dummyRecoveryPubkey
  pubkey.length = 32 && P.validKey pubkey && proof.signature.length = 64 &&
    (user.recoveryPubkey.isSome &&
      P.verifyStrict pubkey (recoveryChallenge P loginNonce) proof.signature)

/-- Create a device for a user who proves to know the recovery phrase. Every refusal looks alike. -/
def mintRecoveryDevice (P : Primitives) (userId : UserId) (req : LoginFinishRequest)
    (proof : RecoveryProof) : Serve Device := do
  match ← sql (.findUser userId) with
  | none => reject .unauthorized
  | some user =>
    if provesRecovery P user req.loginNonce proof then do
      let existing ← sql (.findDevicesByUser userId)
      if maxDevicesPerUser ≤ existing.length then reject .unauthorized
      else if maxMlsCredentialBytes < proof.mlsCredential.length then reject .unauthorized
      else do
        let device : Device := ⟨req.deviceId, userId, proof.mlsCredential⟩
        sql (.saveDevice device)
        pure device
    else reject .unauthorized

/-- The device a login is for: a stored one, or one that is created on a recovery proof. -/
def loginDevice (P : Primitives) (userId : UserId) (req : LoginFinishRequest) : Serve Device := do
  match ← sql (.findDevice req.deviceId) with
  | some device => pure device
  | none =>
    match req.recoveryProof with
    | none => reject .unauthorized
    | some proof => mintRecoveryDevice P userId req proof

/-- Look once more whether the device exists, after the session was written. -/
def recheckDevice (deviceId : DeviceId) (token : Token) : Serve Token := do
  match ← sql (.findDevice deviceId) with
  | some _ => pure token
  | none => do
    let _ ← tryCache (.delete (.session token))
    let _ ← tryCache (.deleteSet (.deviceSessions deviceId))
    reject .unauthorized

/-- Enter a session into the index of its device. -/
def trackSession (deviceId : DeviceId) (token : Token) : Serve Token := do
  match ← tryCache (.setAdd (.deviceSessions deviceId) (.session token)) with
  | .error _ => do
    let _ ← tryCache (.delete (.session token))
    reject .unauthorized
  | .ok () => do
    let _ ← tryCache (.setExpire (.deviceSessions deviceId) deviceSessionsTtl)
    recheckDevice deviceId token

def issueSession (deviceId : DeviceId) : Serve Token := do
  let token ← newUuid
  cacheOrUnauthorized (.set (.session token) (.uuid deviceId) (some sessionTtl))
  trackSession deviceId token

/-- Check the last message of the OPAQUE login. Every error of the library looks alike. -/
def verifyLogin (req : LoginFinishRequest) : Serve Unit :=
  .op (.opaqueKe (.loginFinish req.loginNonce req.opaqueKe3)) fun
    | .ok _ => .pure ()
    | .error _ => .throw .unauthorized

def loginFinish (P : Primitives) (req : LoginFinishRequest) : Serve Token := do
  verifyLogin req
  match ← cacheOrUnauthorized (.getDel (.loginNonce req.loginNonce)) with
  | some (.uuid userId) => do
    let device ← loginDevice P userId req
    if device.userId ≠ userId then reject .unauthorized
    else issueSession req.deviceId
  | _ => reject .unauthorized

/-! ### Devices and invites -/

def registerDevice (userId : UserId) (mlsCredential : Bytes) : Serve DeviceId := do
  let existing ← sql (.findDevicesByUser userId)
  if maxDevicesPerUser ≤ existing.length then reject (.invalidInput "device_limit_exceeded")
  else if maxMlsCredentialBytes < mlsCredential.length then
    reject (.invalidInput "mls_credential too large")
  else do
    let deviceId ← newUuid
    sql (.saveDevice ⟨deviceId, userId, mlsCredential⟩)
    pure deviceId

def listDevices (userId : UserId) : Serve (List DeviceId) := do
  let devices ← sql (.findDevicesByUser userId)
  pure (devices.map Device.id)

def inviteTtl : Time := seconds (24 * 60 * 60)

def maxKeyPackageBytes : ℕ := 16 * 1024

def maxOutstandingInvitesPerDevice : ℕ := 20

def createInvite (P : Primitives) (deviceId : DeviceId) (keyPackage : Bytes) : Serve Bytes :=
  if keyPackage.isEmpty then reject (.invalidInput "empty key package")
  else if maxKeyPackageBytes < keyPackage.length then
    reject (.invalidInput "key package too large")
  else do
    let outstanding ← cache (.setMembers (.deviceInvites deviceId))
    if maxOutstandingInvitesPerDevice ≤ outstanding.length then
      reject (.invalidInput "too many outstanding invites")
    else do
      let uuid ← newUuid
      let code := P.uuidSimple uuid
      cache (.set (.invite (P.sha256 code)) (.uuidAnd deviceId keyPackage) (some inviteTtl))
      cache (.setAdd (.deviceInvites deviceId) (.invite (P.sha256 code)))
      cache (.setExpire (.deviceInvites deviceId) inviteTtl)
      pure code

def redeemInvite (P : Primitives) (code : Bytes) : Serve (DeviceId × Bytes) := do
  match ← cache (.getDel (.invite (P.sha256 code))) with
  | none => reject (.notFound "invite code not found")
  | some (.uuidAnd deviceId keyPackage) => do
    let _ ← tryCache (.setRemove (.deviceInvites deviceId) (.invite (P.sha256 code)))
    pure (deviceId, keyPackage)
  | some _ => reject (.internal "malformed invite payload")

def revokeInvitesForDevice (deviceId : DeviceId) : Serve Unit := do
  let outstanding ← cache (.setMembers (.deviceInvites deviceId))
  outstanding.forM fun key => cache (.delete key)
  cache (.deleteSet (.deviceInvites deviceId))

/-- Delete the sessions in the index of a device. -/
def invalidateSessions (deviceId : DeviceId) : Serve Unit := do
  let tokens ← cache (.setMembers (.deviceSessions deviceId))
  tokens.forM fun token => do
    let _ ← tryCache (.delete token)
    pure ()
  let _ ← tryCache (.deleteSet (.deviceSessions deviceId))
  pure ()

def revokeDevice (userId : UserId) (deviceId : DeviceId) : Serve Unit := do
  match ← sql (.findDevice deviceId) with
  | none => reject (.notFound "device")
  | some device =>
    if device.userId ≠ userId then reject .unauthorized
    else do
      revokeInvitesForDevice deviceId
      let affectedGroups ← sql (.listGroupsForDevice deviceId)
      affectedGroups.forM fun groupId => sql (.createPendingRemoval groupId deviceId)
      let _ ← sql (.deleteKeyPackagesByDevice deviceId)
      sql (.deleteDevice deviceId)
      invalidateSessions deviceId

/-! ### Bearer tokens -/

/-- The device a request is made by. -/
def authenticate (bearer : Option Token) : Serve DeviceId :=
  match bearer with
  | none => reject .unauthorized
  | some token => do
    match ← cache (.get (.session token)) with
    | some (.uuid deviceId) => pure deviceId
    | _ => reject .unauthorized

def revokeSession (bearer : Option Token) : Serve Unit :=
  match bearer with
  | none => reject .unauthorized
  | some token => cache (.delete (.session token))

end Powehi.Auth
