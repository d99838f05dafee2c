import Powehi.Client.Types

/-!
# The libraries the client calls

MLS, ML-KEM and the readers of message payloads are not part of this development. They are
parameters: functions of the state of one MLS group, of one KeyPackage's private half, of a key or
of a payload. What a group state or a private half looks like is left open.

The MLS key store is not a parameter. It holds the state of each group under the group's id and the
private half of each KeyPackage under its reference, and is written and read as a whole.
-/

namespace Powehi.Client

open Codec Server

/-- Why an MLS call failed. -/
inductive MlsError
  | codec
  | unexpectedMessage
  | epochAhead
  | decrypt
  | pairCommitRefused
  | groupCommitRefused
  | membership
  | keyPackage
  | persistence
deriving DecidableEq, Repr

/-- A decrypted group message and the authenticated key of its sender. -/
structure GroupMessage where
  plaintext : Bytes
  senderKey : Bytes
deriving DecidableEq, Repr

/-- The functions of MLS, of ML-KEM and of the payload formats that the client calls. -/
structure Libraries where
  /-- State of one MLS group: its tree, epoch secrets, ratchets and staged Commit. -/
  Group : Type
  /-- Private half of a KeyPackage. -/
  Bundle : Type
  kind : Group → Option Kind
  members : Group → List Bytes
  epoch : Group → ℕ
  isActive : Group → Bool
  pendingCommit : Group → Bool
  /-- Identity in the basic credential of the member next to the one with the given key. -/
  credentialBeside : Group → Bytes → Option Bytes
  decryptMessage : Group → Bytes → Except MlsError (Bytes × Group)
  decryptGroupMessage : Group → Bytes → Except MlsError (GroupMessage × Group)
  /-- Merge a Commit of a pair; the answer names the peer's signature key. -/
  mergePairCommit : Group → Bytes → Bytes → Option Bytes → Option Bytes →
    Except MlsError (Bytes × Group)
  /-- Merge a Commit of a group; the answer counts the added and the removed members. -/
  applyGroupCommit : Group → Bytes → Except MlsError ((ℕ × ℕ) × Group)
  /-- The KeyPackages a Welcome names; `none` if it is not a Welcome. -/
  welcomeRefs : Bytes → Option (List KeyRef)
  /-- The encapsulation key a KeyPackage published, if well formed. -/
  encapKey : Bundle → Option Bytes
  /-- The group a Welcome seats the owner of a KeyPackage in, and the group id it names. -/
  joinWelcome : Bytes → Bundle → Except MlsError (GroupId × Group)
  validDecapKey : Bytes → Bytes → Bool
  decapsulate : Bytes → Bytes → Option Bytes
  deriveBinding : Bytes → GroupId → Option String
  /-- The `type` field of a payload that is a JSON object. -/
  payloadType : Bytes → Option String
  /-- The `ct` field of such a payload. -/
  payloadCiphertext : Bytes → Option Bytes
  /-- The blob a payload describes, if it is a media descriptor. -/
  payloadMedia : Bytes → Option Uuid

/-! ### Shapes of groups -/

namespace Libraries

variable (L : Libraries)

/-- A freshly formed pair: two members at epoch 1. -/
def isFreshPair (G : L.Group) : Bool := L.epoch G = 1 ∧ (L.members G).length = 2

/-- An active group of exactly two members, one of them this device. -/
def isPairWith (G : L.Group) (ownKey : Bytes) : Bool :=
  L.isActive G ∧ (L.members G).length = 2 ∧ ownKey ∈ L.members G

/-- Most members a group can have. -/
def groupMaxMembers : ℕ := 512

/-- The shape of a group a Welcome may seat this device in. -/
def hasGroupShape (G : L.Group) (ownKey : Bytes) : Bool :=
  L.isActive G ∧ 1 ≤ L.epoch G ∧ 2 ≤ (L.members G).length ∧
    (L.members G).length ≤ groupMaxMembers ∧ ownKey ∈ L.members G

/-- Longest credential identity that is kept. -/
def maxCredentialIdentityLen : ℕ := 64

/-- The credential identity of the other member of a pair. -/
def peerCredentialIdentity (G : L.Group) (ownKey : Bytes) : Option Bytes :=
  (L.credentialBeside G ownKey).filter fun i => i ≠ [] ∧ i.length ≤ maxCredentialIdentityLen

/-- Merge a Commit of a pair. Nothing is merged unless the group is a pair with this device. -/
def applyPairCommit (G : L.Group) (commit ownKey : Bytes) (anchor credential : Option Bytes) :
    Except MlsError (Bytes × L.Group) :=
  if L.isPairWith G ownKey then L.mergePairCommit G commit ownKey anchor credential
  else .error .pairCommitRefused

end Libraries

/-! ### The MLS key store -/

/-- The MLS key store. -/
structure Provider (L : Libraries) where
  groups : GroupId → Option L.Group
  bundles : KeyRef → Option L.Bundle

/-- The KeyPackage of this device that a Welcome consumes and the key it published. -/
structure WelcomePqBinding where
  keyPackageRef : KeyRef
  encapKey : Bytes
deriving DecidableEq, Repr

namespace Provider

variable {L : Libraries}

instance : EmptyCollection (Provider L) := ⟨⟨fun _ => none, fun _ => none⟩⟩

/-- The first KeyPackage a Welcome names whose private half is held. -/
def welcomeBundle (P : Provider L) (welcome : Bytes) : Option (KeyRef × L.Bundle) := do
  (← L.welcomeRefs welcome).findSome? fun r => (P.bundles r).map (r, ·)

/-- Which KeyPackage a Welcome consumes, and the encapsulation key that package published. -/
def welcomePqBinding (P : Provider L) (welcome : Bytes) : Except MlsError WelcomePqBinding :=
  match P.welcomeBundle welcome with
  | none => .error .membership
  | some (ref, b) =>
    match L.encapKey b with
    | none => .error .keyPackage
    | some ek => .ok ⟨ref, ek⟩

/-- Keep the state of a group. -/
def setGroup (P : Provider L) (g : GroupId) (G : Option L.Group) : Provider L :=
  { P with groups := Function.update P.groups g G }

/-- Delete the private half of a KeyPackage. A missing one is no error. -/
def deleteKeyPackage (P : Provider L) (ref : KeyRef) : Provider L :=
  { P with bundles := Function.update P.bundles ref none }

/-- Keep the private half of a new KeyPackage. -/
def addKeyPackage (P : Provider L) (ref : KeyRef) (b : L.Bundle) : Provider L :=
  { P with bundles := Function.update P.bundles ref (some b) }

/-- Join a group from a Welcome. The KeyPackage is consumed. -/
def joinGroup (P : Provider L) (welcome : Bytes) :
    Except MlsError (GroupId × L.Group × Provider L) :=
  match P.welcomeBundle welcome with
  | none => .error .membership
  | some (ref, b) =>
    match L.joinWelcome welcome b with
    | .error e => .error e
    | .ok (g, G) => .ok (g, G, (P.deleteKeyPackage ref).setGroup g (some G))

@[simp] theorem groups_setGroup_self (P : Provider L) (g : GroupId) (G : Option L.Group) :
    (P.setGroup g G).groups g = G := Function.update_self ..

end Provider

/-! ### Conversation records -/

namespace Conversation

variable (L : Libraries)

/-- The record's kind is the one the group itself declares. -/
def agreesWith (c : Conversation) (G : L.Group) : Bool := L.kind G = some c.kind

/-- The decapsulation key is the one the KeyPackage published. -/
def keyOk (c : Conversation) : Bool :=
  match c.pqDecapKey, c.pqEncapKey with
  | none, none => true
  | some dk, some ek => L.validDecapKey dk ek
  | _, _ => false

/-- A joiner of a pair holds its key until the exchange is complete, then only the binding. A
group has no such state. -/
def roleOk (c : Conversation) : Bool :=
  match c.kind, c.role with
  | .group, _ => c.pqDecapKey.isNone && c.pqBinding.isNone && c.peerCredential.isNone &&
      c.peerSignatureKey.isNone
  | .pair, .creator => c.pqDecapKey.isNone
  | .pair, .joiner => c.pqDecapKey.isSome || c.pqBinding.isSome

def versionOk (c : Conversation) : Bool :=
  match c.kind with
  | .pair => c.version = 1
  | .group => c.version = 2

def isHexDigit (x : Char) : Bool :=
  x.isDigit || ('a' ≤ x && x ≤ 'f') || ('A' ≤ x && x ≤ 'F')

/-- The check made on every save and on every load. -/
def check (c : Conversation) : Bool :=
  c.versionOk && c.keyOk L && c.roleOk &&
  c.pqBinding.all (fun b => b.length = 16 && b.all isHexDigit) &&
  c.peerCredential.all (fun i => i ≠ [] && i.length ≤ Libraries.maxCredentialIdentityLen) &&
  c.peerSignatureKey.all (fun k => k.length = 32)

end Conversation

end Powehi.Client
