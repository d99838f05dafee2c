import Powehi.Server.Types

/-!
# Data of the command-line client

The envelopes the client receives and the records it keeps in its encrypted profile. A field the
server may leave out of an envelope is optional here too; a timestamp the client would not accept
back as a cursor counts as missing.
-/

namespace Powehi.Client

open Codec Server

/-- A KeyPackageRef: the hash of a KeyPackage, compared as a number. -/
abbrev KeyRef := ℕ

/-- What kind of traffic an envelope carries. -/
inductive MessageType
  | application
  | welcome
  | commit
  | proposal
  | other
deriving DecidableEq, Repr

/-- One entry of a page of pending messages, as the server sent it. -/
structure Envelope where
  messageType : MessageType
  id : Option EnvelopeId
  groupId : Option GroupId
  sender : Option DeviceId
  ciphertext : Option Bytes
  createdAt : Option ℕ
deriving DecidableEq, Repr

/-- A position in the server's order of envelopes: a fetch resumes after it. -/
structure Cursor where
  since : ℕ
  sinceId : Uuid
deriving DecidableEq, Repr

/-- The position of an envelope, if the server gave both its parts. -/
def Envelope.cursor? (e : Envelope) : Option Cursor := do
  return ⟨← e.createdAt, ← e.id⟩

/-- A decrypted message that has not been displayed yet. The receive time counts nanoseconds; the
sender key is the authenticated one of a group message. -/
structure Received where
  groupId : GroupId
  sender : DeviceId
  body : Bytes
  receivedAt : ℕ
  senderKey : Option Bytes
deriving DecidableEq, Repr

/-- The stored record holds exactly this group, sender and plaintext. -/
def Received.sameMessage (old : Received) (plain : Bytes) (groupId : GroupId) (sender : DeviceId)
    (senderKey : Option Bytes) : Bool :=
  old.groupId = groupId ∧ old.sender = sender ∧ old.body = plain ∧ old.senderKey = senderKey

/-- Which side of the invite a device was. -/
inductive Role
  | creator
  | joiner
deriving DecidableEq, Repr

/-- What a conversation is, fixed at its creation. -/
inductive Kind
  | pair
  | group
deriving DecidableEq, Repr

/-- The record of a conversation. The group's MLS state is kept elsewhere. -/
structure Conversation where
  version : ℕ
  groupId : GroupId
  peerDeviceId : DeviceId
  role : Role
  kind : Kind
  pqDecapKey : Option Bytes
  pqEncapKey : Option Bytes
  pqBinding : Option String
  peerCredential : Option Bytes
  peerSignatureKey : Option Bytes
deriving DecidableEq, Repr

namespace Conversation

/-- A fresh record of a pair. -/
def new (groupId : GroupId) (peerDeviceId : DeviceId) (role : Role) (pq : Option (Bytes × Bytes)) :
    Conversation where
  version := 1
  groupId := groupId
  peerDeviceId := peerDeviceId
  role := role
  kind := .pair
  pqDecapKey := pq.map Prod.fst
  pqEncapKey := pq.map Prod.snd
  pqBinding := none
  peerCredential := none
  peerSignatureKey := none

/-- A fresh record as the record of a group. -/
def intoGroup (c : Conversation) : Conversation := { c with kind := .group, version := 2 }

def withPeerCredential (c : Conversation) (identity : Bytes) : Conversation :=
  { c with peerCredential := some identity }

/-- Record the binding and discard the decapsulation key, which is single-use. -/
def completePq (c : Conversation) (binding : String) : Conversation :=
  { c with pqBinding := some binding, pqDecapKey := none, pqEncapKey := none }

/-- Pin the peer's signature key. A second, different key is refused. -/
def pinPeerSignatureKey (c : Conversation) (key : Bytes) : Option Conversation :=
  if key.length ≠ 32 ∨ c.peerSignatureKey.any (· ≠ key) then none
  else some { c with peerSignatureKey := some key }

end Conversation

/-- A Welcome for a pool KeyPackage, kept until the user accepts or declines it. -/
structure Request where
  groupId : GroupId
  sender : DeviceId
  envelopeId : EnvelopeId
  receivedAt : ℕ
  keyPackageRef : KeyRef
  welcome : Bytes
deriving DecidableEq, Repr

/-- An envelope the inbox could not use yet: when it was first seen and how often it failed. -/
structure Entry where
  id : EnvelopeId
  firstSeen : ℕ
  fails : ℕ
deriving DecidableEq, Repr

/-- How far the upload of a batch of KeyPackages got. -/
inductive BatchState
  | prepared
  | sent
  | confirmed
deriving DecidableEq, Repr

/-- The KeyPackages of one upload request. -/
structure Batch where
  state : BatchState
  since : ℕ
  refs : List KeyRef
deriving DecidableEq, Repr

/-- What a logged-in session knows about its own device. -/
structure Session where
  deviceId : DeviceId
  signatureKey : Bytes
deriving DecidableEq, Repr

/-- Why a call of the client failed. -/
inductive Error
  | store
  | malformed
  | tooMany
  | unreachable
  | httpStatus (code : ℕ)
  | badResponse
  | badKeyRecord
  | tooManyLocalKeys
  | mls
  | noSuchRequest
  | unjoinable
  | expired
  | alreadyJoined
  | output
deriving DecidableEq, Repr

end Powehi.Client
