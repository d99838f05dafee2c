import Mathlib.Data.List.Dedup
import Powehi.Server.Services

/-!
# Calls between regions

The gRPC handlers a peer region calls. A peer is known by the names in its certificate; which
region it must be is decided by the handler: the home region stored for the group when it forwards
an envelope or a Commit, the home region the request itself claims when it syncs a membership.
-/

namespace Powehi.Server

open Codec Semantics

/-- What the transport knows about the caller. -/
inductive Peer
  | plaintext
  | noCertificate
  | certificate (names : Option (List String))
deriving DecidableEq, Repr

/-- The region this server runs in, and whether its listener insists on TLS. -/
structure Config where
  localRegion : RegionId
  tlsRequired : Bool
deriving DecidableEq

def eqIgnoreAsciiCase (a b : String) : Bool :=
  a.toList.map Char.toLower = b.toList.map Char.toLower

/-- One of the names of a certificate is the region. -/
def namesMatch (names : List String) (region : RegionId) : Bool :=
  names.any (eqIgnoreAsciiCase · region)

/-- The caller is the region `expected`. Without TLS the check is skipped, unless the server
insists on it. -/
def verifyPeerRegion (cfg : Config) (peer : Peer) (expected : RegionId) : Except Failure Unit :=
  match peer with
  | .plaintext =>
    if cfg.tlsRequired then .error (.status .permissionDenied "peer certificate required")
    else .ok ()
  | .noCertificate => .error (.status .permissionDenied "peer certificate required")
  | .certificate none => .error (.status .permissionDenied "peer certificate invalid")
  | .certificate (some names) =>
    if namesMatch names expected then .ok ()
    else .error (.status .permissionDenied "peer region mismatch")

def domainErrToStatus : DomainError → Failure
  | .notFound _ => .status .notFound "not found"
  | .alreadyExists _ => .status .alreadyExists "already exists"
  | .unauthorized => .status .unauthenticated "unauthorized"
  | .invalidInput message => .status .invalidArgument message
  | .epochMismatch _ _ => .status .failedPrecondition "epoch mismatch"
  | .regionMismatch _ _ => .status .failedPrecondition "region mismatch"
  | .internal _ => .status .internal "internal error"

/-- A repository call of a handler. -/
def rpc {β : Type} (q : Query β) : Serve β := callRepo domainErrToStatus q

/-- A field of the request that had to parse. -/
def parsed {β : Type} (message : String) : Option β → Serve β
  | some b => pure b
  | none => .throw (.status .invalidArgument message)

/-- The sender must be a member of the group in this region's tables. -/
def checkForwardedSender (groupId : GroupId) (sender : DeviceId) : Serve Unit := do
  let members ← rpc (.listMembers groupId)
  if members.isEmpty then
    .throw (.status .permissionDenied "sender is not authorized for this group")
  else if members.any (·.deviceId = sender) then pure ()
  else .throw (.status .permissionDenied "sender is not authorized for this group")

/-- A request to forward an envelope. A field that does not parse is `none`; an absent recipient
is an empty string. -/
structure ForwardEnvelope where
  envelopeId : Option EnvelopeId
  groupId : Option GroupId
  senderDeviceId : Option DeviceId
  recipientDeviceId : Option (Option DeviceId)
  ciphertext : Bytes
  envelopeType : Option MessageType
  sentAt : Option Time
deriving DecidableEq

/-- The size limit for a forwarded message. -/
def maxForwardedBytes : MessageType → ℕ
  | .welcome => maxWelcomeBytes
  | .commit => maxCommitBytes
  | .application => maxCiphertextBytes
  | .proposal => maxCiphertextBytes

def maxSentAtSkewSecs : ℕ := 300

/-- The peer's timestamp, unless it is too far from the clock of this server. -/
def clampSentAt (now : Time) : Option Time → Time
  | none => now
  | some sentAt =>
    if (max sentAt now - min sentAt now) / 1000000 ≤ maxSentAtSkewSecs then sentAt else now

/-- An absent recipient, or one that parses. -/
def parsedRecipient : Option (Option DeviceId) → Serve (Option DeviceId)
  | none => pure none
  | some r => do
    let d ← parsed "invalid recipient_device_id UUID" r
    pure (some d)

def forwardEnvelope (cfg : Config) (peer : Peer) (req : ForwardEnvelope) : Serve Unit := do
  let messageType ← parsed "envelope_type unspecified" req.envelopeType
  if maxForwardedBytes messageType < req.ciphertext.length then
    .throw (.status .invalidArgument "ciphertext exceeds maximum size")
  else do
    let groupId ← parsed "invalid group_id UUID" req.groupId
    let envelopeId ← parsed "invalid envelope_id UUID" req.envelopeId
    let sender ← parsed "invalid sender_device_id UUID" req.senderDeviceId
    let recipient ← parsedRecipient req.recipientDeviceId
    let now ← utcNow
    match ← rpc (.findGroup groupId) with
    | some group => .ofExcept (verifyPeerRegion cfg peer group.homeRegion)
    | none => pure ()
    checkForwardedSender groupId sender
    rpc (.saveEnvelope ⟨envelopeId, groupId, sender, recipient, messageType, req.ciphertext, none,
      clampSentAt now req.sentAt, none⟩)

structure ForwardCommit where
  groupId : Option GroupId
  senderDeviceId : Option DeviceId
  commit : Bytes
  expectedEpoch : Epoch
deriving DecidableEq

def forwardCommit (cfg : Config) (peer : Peer) (req : ForwardCommit) : Serve Epoch := do
  if maxCommitBytes < req.commit.length then
    .throw (.status .invalidArgument "commit exceeds maximum size")
  else do
    let groupId ← parsed "invalid group_id UUID" req.groupId
    let sender ← parsed "invalid sender_device_id UUID" req.senderDeviceId
    let found ← rpc (.findGroup groupId)
    match found with
    | some group => .ofExcept (verifyPeerRegion cfg peer group.homeRegion)
    | none => pure ()
    checkForwardedSender groupId sender
    match found with
    | none => .throw (.status .failedPrecondition
        "group is unknown to this region's GroupRepository")
    | some group =>
      let id ← newUuid
      let now ← utcNow
      let envelope := Envelope.new id now groupId sender none .commit req.commit
      match ← rpc (.commitEpochAndSave groupId req.expectedEpoch envelope) with
      | none => .throw (domainErrToStatus (.epochMismatch req.expectedEpoch group.epoch))
      | some newEpoch => pure newEpoch

structure SyncGroupMembership where
  groupId : Option GroupId
  homeRegion : RegionId
  memberDeviceIds : List (Option DeviceId)
deriving DecidableEq

def maxRegionIdLen : ℕ := 64

def maxSyncMembers : ℕ := 10000

def syncGroupMembership (cfg : Config) (peer : Peer) (req : SyncGroupMembership) : Serve Unit := do
  let groupId ← parsed "invalid group_id UUID" req.groupId
  if req.homeRegion.isEmpty ∨ maxRegionIdLen < req.homeRegion.utf8ByteSize then
    .throw (.status .invalidArgument "home_region must be 1–64 characters")
  else do
    -- the region is the one the request claims, whatever is stored for the group
    .ofExcept (verifyPeerRegion cfg peer req.homeRegion)
    if maxSyncMembers < req.memberDeviceIds.length then
      .throw (.status .invalidArgument "member_device_ids exceeds maximum count")
    else do
      let ids ← req.memberDeviceIds.mapM (parsed "invalid member_device_id UUID")
      let now ← utcNow
      rpc (.upsertMembers (.new groupId req.homeRegion now)
        (ids.eraseDups.map fun d => ⟨groupId, d, 0⟩))

/-! ### All requests -/

/-- What can be asked of the server, by a device, by a peer region, or by the server itself: the
retention sweep, and the statements with which accounts are created and devices revoked. -/
inductive Request
  | sendMessage (sender : DeviceId) (groupId : GroupId) (ciphertext : Bytes) (ttl : Option ℕ)
  | sendWelcome (sender : DeviceId) (groupId : GroupId) (welcome : Bytes) (target : DeviceId)
  | sendCommit (sender : DeviceId) (groupId : GroupId) (commit : Bytes) (expectedEpoch : Epoch)
  | poll (deviceId : DeviceId) (since : Option Time) (sinceId : Option EnvelopeId)
  | ack (deviceId : DeviceId) (envelopeId : EnvelopeId)
  | createGroup (creator : DeviceId) (groupId : GroupId)
  | addMember (caller : DeviceId) (groupId : GroupId) (deviceId : DeviceId) (epoch : Epoch)
  | acceptMembership (caller : DeviceId) (groupId : GroupId)
  | declineMembership (caller : DeviceId) (groupId : GroupId)
  | removeMember (caller : DeviceId) (groupId : GroupId) (deviceId : DeviceId)
  | getEpoch (caller : DeviceId) (groupId : GroupId)
  | forwardEnvelope (peer : Peer) (req : ForwardEnvelope)
  | forwardCommit (peer : Peer) (req : ForwardCommit)
  | syncGroupMembership (peer : Peer) (req : SyncGroupMembership)
  | sweep
  | saveUser (u : User)
  | saveDevice (d : Device)
  | deleteDevice (d : DeviceId)
deriving DecidableEq

/-- The answer to a request. -/
inductive Response
  | done
  | envelope (id : EnvelopeId)
  | epoch (epoch : Epoch)
  | envelopes (page : List Envelope)
  | swept (count : ℕ)
deriving DecidableEq

/-- The program that serves a request. -/
def serve (cfg : Config) : Request → Serve Response
  | .sendMessage sender g ct ttl => .envelope <$> sendMessage sender g ct ttl
  | .sendWelcome sender g w target => (fun _ => .done) <$> sendWelcome sender g w target
  | .sendCommit sender g commit expected => .epoch <$> sendCommit sender g commit expected
  | .poll d since sinceId => .envelopes <$> pollEnvelopes d since sinceId
  | .ack d e => (fun _ => .done) <$> ackEnvelope d e
  | .createGroup d g => (fun _ => .done) <$> createGroup cfg.localRegion d g
  | .addMember caller g d epoch => (fun _ => .done) <$> addMember caller g d epoch
  | .acceptMembership d g => (fun _ => .done) <$> acceptMembership d g
  | .declineMembership d g => (fun _ => .done) <$> declineMembership d g
  | .removeMember caller g d => (fun _ => .done) <$> removeMember caller g d
  | .getEpoch d g => .epoch <$> getEpoch cfg.localRegion d g
  | .forwardEnvelope peer req => (fun _ => .done) <$> forwardEnvelope cfg peer req
  | .forwardCommit peer req => .epoch <$> forwardCommit cfg peer req
  | .syncGroupMembership peer req => (fun _ => .done) <$> syncGroupMembership cfg peer req
  | .sweep => .swept <$> query .deleteExpired
  | .saveUser u => (fun _ => .done) <$> query (.saveUser u)
  | .saveDevice d => (fun _ => .done) <$> query (.saveDevice d)
  | .deleteDevice d => (fun _ => .done) <$> query (.deleteDevice d)

end Powehi.Server
