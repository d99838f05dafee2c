import Powehi.Server.Repository

/-!
# The services

The use cases of the messaging and the group service as programs over the repositories. Events on
the bus and push notifications are left out: their outcome is ignored and they write nothing.
-/

namespace Powehi.Server

open Codec Semantics

/-- Status codes of the calls between regions. -/
inductive Code
  | notFound
  | alreadyExists
  | unauthenticated
  | permissionDenied
  | invalidArgument
  | failedPrecondition
  | internal
deriving DecidableEq, Repr

/-- How a request fails: with an error of the domain, or with a status towards a peer region. -/
inductive Failure
  | domain (error : DomainError)
  | status (code : Code) (message : String)
deriving DecidableEq, Repr

/-- The server failed, in contrast to having refused the request. -/
def Failure.isInternal : Failure → Bool
  | .domain e => e.isInternal
  | .status code _ => code = .internal

/-- A program that serves a request. -/
abbrev Serve (α : Type) := Program Op Failure α

/-- A repository call; its error is passed on through `f`. -/
def callRepo {β : Type} (f : DomainError → Failure) (q : Query β) : Serve β :=
  .op (.sql q) fun
    | .ok b => .pure b
    | .error e => .throw (f e)

/-- A repository call of a service. -/
def query {β : Type} (q : Query β) : Serve β := callRepo .domain q

def newUuid : Serve Uuid := .perform .newUuid

def utcNow : Serve Time := .perform .utcNow

/-- Refuse the request. -/
def reject {α : Type} (e : DomainError) : Serve α := .throw (.domain e)

/-! ### Messaging -/

def minTtlSeconds : ℕ := 30

def maxTtlSeconds : ℕ := 604800

def maxCiphertextBytes : ℕ := 96 * 1024

def maxCommitBytes : ℕ := 64 * 1024

def maxWelcomeBytes : ℕ := 256 * 1024

/-- Only a member of the group may go on. A group without members is unknown here. -/
def checkSenderIsMember (sender : DeviceId) (groupId : GroupId) : Serve Unit := do
  let members ← query (.listMembers groupId)
  if members.isEmpty then reject .unauthorized
  else if members.any (·.deviceId = sender) then pure ()
  else reject .unauthorized

/-- A time to live within its bounds becomes a time of expiry on the server's clock. -/
def expiryOf : Option ℕ → Serve (Option Time)
  | none => pure none
  | some ttl =>
    if minTtlSeconds ≤ ttl ∧ ttl ≤ maxTtlSeconds then do
      let now ← utcNow
      pure (some (now + seconds ttl))
    else reject (.invalidInput "ttl_seconds out of range")

def sendMessage (sender : DeviceId) (groupId : GroupId) (ciphertext : Bytes)
    (ttlSeconds : Option ℕ) : Serve EnvelopeId :=
  if maxCiphertextBytes < ciphertext.length then
    reject (.invalidInput "ciphertext too large")
  else do
    checkSenderIsMember sender groupId
    let expiresAt ← expiryOf ttlSeconds
    let id ← newUuid
    let now ← utcNow
    let envelope := Envelope.new id now groupId sender none .application ciphertext
    query (.saveEnvelope { envelope with expiresAt })
    pure id

def sendWelcome (sender : DeviceId) (groupId : GroupId) (welcome : Bytes) (target : DeviceId) :
    Serve Unit :=
  if maxWelcomeBytes < welcome.length then reject (.invalidInput "welcome too large")
  else do
    checkSenderIsMember sender groupId
    let id ← newUuid
    let now ← utcNow
    query (.saveEnvelope (.new id now groupId sender (some target) .welcome welcome))

def sendCommit (sender : DeviceId) (groupId : GroupId) (commit : Bytes) (expectedEpoch : Epoch) :
    Serve Epoch :=
  if maxCommitBytes < commit.length then reject (.invalidInput "commit too large")
  else do
    match ← query (.findGroup groupId) with
    | none => reject (.notFound "group")
    | some group =>
      checkSenderIsMember sender group.id
      -- the envelope, and with it the timestamp, exists before the epoch is won
      let id ← newUuid
      let now ← utcNow
      let envelope := Envelope.new id now groupId sender none .commit commit
      match ← query (.commitEpochAndSave groupId expectedEpoch envelope) with
      | none => reject (.epochMismatch expectedEpoch group.epoch)
      | some newEpoch => pure newEpoch

def pollEnvelopes (deviceId : DeviceId) (since : Option Time) (sinceId : Option EnvelopeId) :
    Serve (List Envelope) :=
  query (.findPending deviceId since sinceId)

def ackEnvelope (deviceId : DeviceId) (envelopeId : EnvelopeId) : Serve Unit := do
  match ← query (.findEnvelope envelopeId) with
  | none => pure ()
  | some e =>
    match e.recipient with
    | none =>
      checkSenderIsMember deviceId e.groupId
      let members ← query (.listMembers e.groupId)
      let memberIds := (members.map (·.deviceId)).filter (· ≠ e.sender)
      query (.ackBroadcast envelopeId deviceId memberIds)
    | some r =>
      if r = deviceId then query (.deleteEnvelope envelopeId) else reject .unauthorized

/-! ### Groups -/

/-- Only a member of the group may go on. -/
def checkCallerIsMember (caller : DeviceId) (groupId : GroupId) : Serve Unit := do
  let members ← query (.listMembers groupId)
  if members.any (·.deviceId = caller) then pure () else reject .unauthorized

def createGroup (localRegion : RegionId) (creator : DeviceId) (groupId : GroupId) : Serve Unit := do
  let now ← utcNow
  let created ← query (.createWithCreator (.new groupId localRegion now) ⟨groupId, creator, 0⟩)
  if created then pure ()
  else do
    -- the id is taken: only a member may call this, and for it the call is a retry
    let members ← query (.listMembers groupId)
    if members.any (·.deviceId = creator) then pure ()
    else reject (.alreadyExists (toString groupId))

def addMember (caller : DeviceId) (groupId : GroupId) (deviceId : DeviceId) (epoch : Epoch) :
    Serve Unit := do
  checkCallerIsMember caller groupId
  query (.addPending ⟨groupId, deviceId, epoch⟩)

def acceptMembership (caller : DeviceId) (groupId : GroupId) : Serve Unit := do
  if ← query (.acceptPending groupId caller) then pure ()
  else
    -- a retry finds no pending row but an active member
    match ← query (.getEpochIfMember groupId caller) with
    | some _ => pure ()
    | none => reject .unauthorized

def declineMembership (caller : DeviceId) (groupId : GroupId) : Serve Unit := do
  let _ ← query (.declinePending groupId caller)
  pure ()

def removeMember (caller : DeviceId) (groupId : GroupId) (deviceId : DeviceId) : Serve Unit := do
  checkCallerIsMember caller groupId
  query (.removeMember groupId deviceId)
  -- clearing the reminder is best effort
  let _ ← (query (.deletePendingRemoval groupId deviceId)).attempt
  pure ()

def getEpoch (localRegion : RegionId) (caller : DeviceId) (groupId : GroupId) : Serve Epoch := do
  match ← query (.getEpochIfMember groupId caller) with
  | none => reject .unauthorized
  | some group =>
    if group.homeRegion ≠ localRegion then
      reject (.regionMismatch group.homeRegion localRegion)
    else pure group.epoch

end Powehi.Server
