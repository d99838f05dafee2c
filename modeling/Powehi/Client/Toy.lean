import Powehi.Client.Profile

/-!
# A small instance of the libraries

Encryption that hides nothing, for concrete runs: the first byte of a message or a Commit is its
epoch, a group remembers the messages it has decrypted, and a Welcome names the KeyPackage, the
group id, the kind and the number of members of the group it seats this device in. With it come a
device and the worlds in which it holds one conversation.
-/

namespace Powehi.Client.Toy

open Codec Server

/-- State of a group. -/
structure Group where
  kind : Kind
  epoch : ℕ
  members : List Bytes
  active : Bool
  pendingCommit : Bool
  spent : List Bytes
deriving DecidableEq, Repr

/-- The signature key of the device whose runs are shown, and of its peers. -/
def ownKey : Bytes := List.replicate 32 1

def peerKey : Bytes := List.replicate 32 2

/-- A message is readable once, in its own epoch. -/
def Group.open (G : Group) : Bytes → Except MlsError (Bytes × Group)
  | [] => .error .codec
  | e :: body =>
    if G.epoch < e.toNat then .error .epochAhead
    else if e.toNat < G.epoch ∨ e :: body ∈ G.spent then .error .decrypt
    else .ok (body, { G with spent := (e :: body) :: G.spent })

/-- A Commit moves the group of its epoch to the next one; a second byte 1 removes this device. -/
def Group.merge (G : Group) : Bytes → Except MlsError Group
  | [] => .error .codec
  | e :: rest =>
    if G.epoch < e.toNat then .error .epochAhead
    else if e.toNat < G.epoch then .error .decrypt
    else .ok { G with epoch := G.epoch + 1, active := G.active && rest ≠ [1], spent := [] }

/-- A new pair or group at epoch 1. -/
def Group.fresh (kind : Kind) (n : ℕ) : Group :=
  ⟨kind, 1, ownKey :: List.replicate n peerKey, true, false, []⟩

/-- The libraries on these groups. A KeyPackage's private half and its decapsulation key are its
reference. -/
def libraries : Libraries where
  Group := Group
  Bundle := ℕ
  kind G := some G.kind
  members := Group.members
  epoch := Group.epoch
  isActive := Group.active
  pendingCommit := Group.pendingCommit
  credentialBeside _ _ := some [7]
  decryptMessage := Group.open
  decryptGroupMessage G ct :=
    if G.kind ≠ .group ∨ !G.active then .error .unexpectedMessage
    else (G.open ct).map fun (p, G') => (⟨p, peerKey⟩, G')
  mergePairCommit G commit _ _ _ := (G.merge commit).map (peerKey, ·)
  applyGroupCommit G commit := (G.merge commit).map ((0, 0), ·)
  welcomeRefs w := match w with
    | ref :: _ => some [ref.toNat]
    | [] => none
  encapKey b := some [UInt8.ofNat b]
  joinWelcome w _ := match w with
    | [_, g, 0, n] => .ok (g.toNat, .fresh .pair n.toNat)
    | [_, g, _, n] => .ok (g.toNat, .fresh .group n.toNat)
    | _ => .error .membership
  validDecapKey dk ek := dk = ek
  decapsulate dk ct := if dk = ct then some dk else none
  deriveBinding _ _ := some "0123456789abcdef"
  payloadType p := match p with
    | 112 :: _ => some "pq_init"
    | 101 :: _ => some "presence"
    | _ => none
  payloadCiphertext p := some p.tail
  payloadMedia _ := none

/-! ### Worlds -/

/-- The device whose runs are shown. -/
def device : Session := ⟨1, ownKey⟩

/-- An envelope of group 1, labelled with device 2 as its sender. -/
def envelope (type : MessageType) (id : ℕ) (ct : Bytes) : Envelope where
  id := some id
  messageType := type
  groupId := some 1
  sender := some 2
  createdAt := some id
  ciphertext := some ct

/-- The conversation of group 1: a group, or a pair whose key exchange is complete. -/
def conversation : Kind → Conversation
  | .group => (Conversation.new 1 2 .joiner none).intoGroup
  | .pair => (Conversation.new 1 2 .joiner none).completePq "0123456789abcdef"

/-- The key store that holds group 1 and nothing else. -/
def provider (G : Group) : Provider libraries :=
  (∅ : Provider libraries).setGroup 1 (some G)

/-- A device that holds one conversation, with its state, and has mail. -/
def world (G : Group) (mail : List Envelope) : World libraries :=
  let profile : Profile libraries := ((∅ : Profile libraries).put (.conv 1)
    (conversation G.kind)).put .mlsProvider (provider G)
  { World.new profile with mail := mail }

end Powehi.Client.Toy
