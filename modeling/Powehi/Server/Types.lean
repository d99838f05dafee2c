import Powehi.Codec.Bytes

/-!
# Domain types of the server

The entities the services pass around and the repositories store. Identifiers are UUIDs, compared
as numbers; timestamps count microseconds. A ciphertext is opaque: nothing here looks inside.
-/

namespace Powehi.Server

open Codec

/-- A UUID, in the order of its bytes. -/
abbrev Uuid := ℕ

/-- Microseconds since the start of the clock. -/
abbrev Time := ℕ

abbrev DeviceId := Uuid

abbrev GroupId := Uuid

abbrev EnvelopeId := Uuid

abbrev UserId := Uuid

abbrev KeyPackageId := Uuid

abbrev Epoch := ℕ

abbrev RegionId := String

/-- A number of seconds as a length of time. -/
def seconds (n : ℕ) : Time := n * 1000000

/-- A number of days as a length of time. -/
def days (n : ℕ) : Time := seconds (n * 86400)

/-- Why a use case failed. -/
inductive DomainError
  | notFound (what : String)
  | alreadyExists (what : String)
  | unauthorized
  | invalidInput (message : String)
  | epochMismatch (expected got : Epoch)
  | regionMismatch (target here : RegionId)
  | internal (message : String)
deriving DecidableEq, Repr

/-- A failure of the server itself, in contrast to a refused request. -/
def DomainError.isInternal : DomainError → Bool
  | .internal _ => true
  | _ => false

structure Group where
  id : GroupId
  homeRegion : RegionId
  epoch : Epoch
  createdAt : Time
deriving DecidableEq, Repr

/-- A new group starts at epoch 0. -/
def Group.new (id : GroupId) (homeRegion : RegionId) (now : Time) : Group :=
  ⟨id, homeRegion, 0, now⟩

structure GroupMember where
  groupId : GroupId
  deviceId : DeviceId
  joinedAtEpoch : Epoch
deriving DecidableEq, Repr

/-- The primary key of a membership. -/
def GroupMember.key (m : GroupMember) : GroupId × DeviceId := (m.groupId, m.deviceId)

/-- A device that was added to a group and did not consent yet. -/
structure PendingMembership where
  groupId : GroupId
  deviceId : DeviceId
  joinedAtEpoch : Epoch
  createdAt : Time
deriving DecidableEq, Repr

def PendingMembership.key (m : PendingMembership) : GroupId × DeviceId := (m.groupId, m.deviceId)

/-- A reminder that a revoked device still has a leaf in a group. -/
structure PendingRemoval where
  groupId : GroupId
  deviceId : DeviceId
  createdAtEpoch : Epoch
deriving DecidableEq, Repr

def PendingRemoval.key (r : PendingRemoval) : GroupId × DeviceId := (r.groupId, r.deviceId)

inductive MessageType
  | application
  | welcome
  | commit
  | proposal
deriving DecidableEq, Repr

/-- The unit of delivery. Without a recipient it is a broadcast to the group. -/
structure Envelope where
  id : EnvelopeId
  groupId : GroupId
  sender : DeviceId
  recipient : Option DeviceId
  messageType : MessageType
  ciphertext : Bytes
  epoch : Option Epoch
  createdAt : Time
  expiresAt : Option Time
deriving DecidableEq, Repr

/-- An envelope as a service builds it: id and timestamp are taken when it is built. -/
def Envelope.new (id : EnvelopeId) (now : Time) (groupId : GroupId) (sender : DeviceId)
    (recipient : Option DeviceId) (messageType : MessageType) (ciphertext : Bytes) : Envelope :=
  ⟨id, groupId, sender, recipient, messageType, ciphertext, none, now, none⟩

structure EnvelopeAck where
  envelopeId : EnvelopeId
  deviceId : DeviceId
deriving DecidableEq, Repr

structure User where
  id : UserId
  handleHash : Bytes
  opaquePasswordFile : Bytes
  recoveryPubkey : Option Bytes
deriving DecidableEq, Repr

structure Device where
  id : DeviceId
  userId : UserId
  mlsCredential : Bytes
deriving DecidableEq, Repr

structure KeyPackage where
  id : KeyPackageId
  deviceId : DeviceId
  data : Bytes
  uploadedAt : Time
  consumed : Bool
deriving DecidableEq, Repr

end Powehi.Server
