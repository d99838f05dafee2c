import Powehi.Codec.Bytes
import Powehi.Semantics.Slots

/-!
# MLS groups

A member's view of an MLS group, as far as the client's policy for Commits is concerned: the leaves
of the ratchet tree, the epoch, the kind that the group context declares, a staged Commit and the
proposals received. A Commit is its proposals and, if it has an update path, the new leaf of the
committer; it is applied as RFC 9420 §12.3 says. The keys of an epoch are bytes that are not
looked into.

What a byte string says to the holder of these keys is a parameter (`Wire`). Of the rules for valid
proposal lists (§12.2) those that concern leaves are checked; the others would refuse more.

`mls_group.rs`: inspecting a received Commit, and merging it.
-/

namespace Powehi.Mls

open Codec Semantics List Slots Option

/-! ### Leaves -/

structure Credential where
  credentialType : ℕ
  content : Bytes
deriving DecidableEq

/-- The identity in a basic credential, whose type is 1. -/
def Credential.basicIdentity (c : Credential) : Option Bytes :=
  if c.credentialType = 1 then some c.content else none

/-- A leaf of the ratchet tree. Of the capabilities, the extension types are kept. -/
structure LeafNode where
  signatureKey : Bytes
  credential : Credential
  encryptionKey : Bytes
  extensions : List ℕ
deriving DecidableEq

/-- What MLS authenticates about a member. -/
def LeafNode.identity (l : LeafNode) : Bytes × Credential := (l.signatureKey, l.credential)

/-! ### Proposals and Commits -/

inductive Proposal
  | add (leaf : LeafNode)
  | update (leaf : LeafNode)
  | remove (index : ℕ)
  | preSharedKey
  | reInit
  | externalInit
  /-- New extensions of the group context; the payload of the one that declares the kind. -/
  | groupContextExtensions (kind : Option Bytes)
  | selfRemove
  | custom
deriving DecidableEq

inductive Sender
  | member (index : ℕ)
  | external
  | newMemberProposal
  | newMemberCommit
deriving DecidableEq

/-- The leaf of a sender that is a member. -/
def Sender.leaf : Sender → Option ℕ
  | .member index => some index
  | _ => none

theorem Sender.leaf_eq_some {s : Sender} {i : ℕ} : s.leaf = some i ↔ s = .member i := by
  cases s <;> simp [Sender.leaf]

/-- A proposal is part of the Commit or was sent before and is referred to. -/
inductive ProposalOrRefType
  | proposal
  | reference
deriving DecidableEq

structure QueuedProposal where
  proposal : Proposal
  proposalOrRefType : ProposalOrRefType
  sender : Sender
deriving DecidableEq

/-- What a Commit says, its references resolved, and the keys of the epoch it leads to. -/
structure Commit where
  sender : Sender
  proposals : List QueuedProposal
  path : Option LeafNode
  secrets : Bytes
deriving DecidableEq

/-- Leaves added, in order. -/
def additions (queued : List QueuedProposal) : List LeafNode :=
  queued.filterMap fun q => match q.proposal with
    | .add leaf => some leaf
    | _ => none

/-- Leaf indices in Remove proposals, in order. -/
def removals (queued : List QueuedProposal) : List ℕ :=
  queued.filterMap fun q => match q.proposal with
    | .remove index => some index
    | _ => none

/-- Leaves whose members remove themselves. -/
def selfRemovals (queued : List QueuedProposal) : List ℕ :=
  queued.filterMap fun q => match q.proposal, q.sender with
    | .selfRemove, .member index => some index
    | _, _ => none

/-- New leaves of members other than the committer. -/
def updates (queued : List QueuedProposal) : List (ℕ × LeafNode) :=
  queued.filterMap fun q => match q.proposal, q.sender with
    | .update leaf, .member index => some (index, leaf)
    | _, _ => none

/-- The payload that declares the kind, after the proposals. -/
def declaredKind (queued : List QueuedProposal) (kind : Option Bytes) : Option Bytes :=
  queued.foldl (fun kind q => match q.proposal with
    | .groupContextExtensions kind => kind
    | _ => kind) kind

/-! ### Groups -/

/-- `groupKind` is the payload of the extension that declares the kind. -/
structure GroupContext where
  groupId : Bytes
  epoch : ℕ
  groupKind : Option Bytes
deriving DecidableEq

/-- A Commit applied to a group, not yet merged into it. -/
structure StagedCommit where
  groupContext : GroupContext
  tree : Slots LeafNode
  queuedProposals : List QueuedProposal
  updatePathLeafNode : Option LeafNode
  selfRemoved : Bool
  secrets : Bytes
deriving DecidableEq

inductive GroupState
  | operational
  | pendingCommit (staged : StagedCommit)
  | inactive
deriving DecidableEq

structure Group where
  context : GroupContext
  tree : Slots LeafNode
  ownLeaf : ℕ
  state : GroupState
  /-- Proposals received and not yet committed. -/
  proposals : List QueuedProposal
  secrets : Bytes
deriving DecidableEq

namespace Group

def epoch (g : Group) : ℕ := g.context.epoch

def isActive (g : Group) : Bool := g.state ≠ .inactive

def pendingCommit (g : Group) : Option StagedCommit :=
  match g.state with
  | .pendingCommit staged => some staged
  | _ => none

/-- Decrypting a message uses keys up. -/
def withSecrets (g : Group) (secrets : Bytes) : Group := { g with secrets := secrets }

/-- A member, as `members` lists it. -/
structure Member where
  index : ℕ
  signatureKey : Bytes
  credential : Credential
deriving DecidableEq

def members (g : Group) : List Member :=
  g.tree.entries.map fun e => ⟨e.1, e.2.signatureKey, e.2.credential⟩

/-- Proposals applied to a tree: updates, removals, additions. -/
def applyProposals (tree : Slots LeafNode) (queued : List QueuedProposal) : Slots LeafNode :=
  let tree := (updates queued).foldl (fun t u => t.replace u.1 u.2) tree
  let tree := (removals queued ++ selfRemovals queued).foldl Slots.clear tree
  (additions queued).foldl Slots.fill tree

/-- Leaves that proposals replace or remove. -/
def targets (queued : List QueuedProposal) : List ℕ :=
  (updates queued).map Prod.fst ++ (removals queued ++ selfRemovals queued)

/-- No leaf is replaced or removed twice, and none that is blank. -/
def ValidTargets (tree : Slots LeafNode) (queued : List QueuedProposal) : Prop :=
  (targets queued).Nodup ∧ ∀ i ∈ targets queued, (tree.value i).isSome

instance (tree : Slots LeafNode) (queued : List QueuedProposal) :
    Decidable (ValidTargets tree queued) :=
  inferInstanceAs (Decidable (_ ∧ _))

/-- The committer is a member, whose own leaf no proposal touches, or joins with the Commit. -/
def applyCommit (tree : Slots LeafNode) (c : Commit) : Option (Slots LeafNode) :=
  if ¬ValidTargets tree c.proposals then none
  else
    match c.sender with
    | .member i =>
      if (tree.value i).isNone ∨ i ∈ targets c.proposals then none
      else
        match c.path with
        | none => some (applyProposals tree c.proposals)
        | some leaf => some ((applyProposals tree c.proposals).replace i leaf)
    | .newMemberCommit => c.path.map (applyProposals tree c.proposals).fill
    | _ => none

/-- A Commit applied to a group. -/
def stage (g : Group) (c : Commit) : Option StagedCommit :=
  (applyCommit g.tree c).map fun tree =>
    { groupContext :=
        { g.context with
          epoch := g.context.epoch + 1
          groupKind := declaredKind c.proposals g.context.groupKind }
      tree := tree
      queuedProposals := c.proposals
      updatePathLeafNode := c.path
      selfRemoved := g.ownLeaf ∈ removals c.proposals ++ selfRemovals c.proposals
      secrets := c.secrets }

/-- Merge a staged Commit. A staged Commit of this device and the proposals are dropped. -/
def mergeStagedCommit (g : Group) (staged : StagedCommit) : Group :=
  { g with
    context := staged.groupContext
    tree := staged.tree
    state := if staged.selfRemoved then .inactive else .operational
    proposals := []
    secrets := staged.secrets }

end Group

/-! ### Received Commits -/

inductive MlsError
  | codec
  | unexpectedMessage
  | ownCommitPending
  | epochAhead
  | commitMissingProposal
  | decrypt
  | staleStagedCommit
  | membership
  | noPendingCommit
  | pendingProposals
  | pairCommitRefused
  | groupCommitRefused
deriving DecidableEq

/-- What a byte string says to a member of a group: the Commit in it, or why there is none; and the
keys that are left after it was decrypted. -/
abbrev Wire := Group → Bytes → Except MlsError Commit × Bytes

/-- The largest epoch. -/
def maxEpoch : ℕ := 2 ^ 64 - 1

/-- The extension type that declares the kind of a group. -/
def powehiGroupKindExtType : ℕ := 0xF002

inductive GroupKind
  | pair
  | group
deriving DecidableEq

def groupKind (g : Group) : Except MlsError GroupKind :=
  match g.context.groupKind with
  | none => .ok .pair
  | some payload => if payload = [1] then .ok .group else .error .membership

/-- An active group with exactly two members, one of which has the key. -/
def isPairWith (g : Group) (ownSignatureKey : Bytes) : Bool :=
  g.isActive && (g.members.take 3).length = 2 &&
    (g.members.take 3).any fun m => m.signatureKey == ownSignatureKey

section

variable (wire : Wire)

/-- The staged Commit and the leaf of its sender, if that is a member. -/
def stageIncomingCommit (g : Group) (commitBytes : Bytes) :
    Except MlsError (StagedCommit × Option ℕ) × Group :=
  let (opened, secrets) := wire g commitBytes
  let g := g.withSecrets secrets
  match opened with
  | .error e => (.error e, g)
  | .ok c =>
    match g.stage c with
    | none => (.error .decrypt, g)
    | some staged =>
      (.ok (staged, c.sender.leaf), g)

structure StagedCommitInfo where
  committerLeafIndex : Option ℕ
  addedCredentials : List Credential
  removedLeafIndices : List ℕ
  selfRemoved : Bool
  priorEpoch : ℕ
deriving DecidableEq

def inspectIncomingCommit (g : Group) (commitBytes : Bytes) :
    Except MlsError (StagedCommit × StagedCommitInfo) × Group :=
  let priorEpoch := g.epoch
  match stageIncomingCommit wire g commitBytes with
  | (.error e, g) => (.error e, g)
  | (.ok (staged, committer), g) =>
    (.ok (staged,
      { committerLeafIndex := committer
        addedCredentials := (additions staged.queuedProposals).map (·.credential)
        removedLeafIndices := removals staged.queuedProposals
        selfRemoved := staged.selfRemoved
        priorEpoch := priorEpoch }), g)

end

/-- Merge a Commit that was inspected, unless it belongs to another group or epoch. -/
def mergeInspectedCommit (g : Group) (staged : StagedCommit) : Except MlsError ℕ × Group :=
  if staged.groupContext.groupId ≠ g.context.groupId ∨ maxEpoch < g.epoch + 1 ∨
      staged.groupContext.epoch ≠ g.epoch + 1 then
    (.error .staleStagedCommit, g)
  else
    let g := g.mergeStagedCommit staged
    (.ok g.epoch, g)

/-! ### What staging does -/

section

variable {wire : Wire} {g g' : Group} {bytes : Bytes} {c : Commit} {staged : StagedCommit}
  {info : StagedCommitInfo} {queued : List QueuedProposal} {tree : Slots LeafNode}

/-- Inspecting a Commit opens it and applies it to a copy of the tree. Only the keys of the group
change. -/
theorem inspectIncomingCommit_eq_ok
    (h : inspectIncomingCommit wire g bytes = (.ok (staged, info), g')) :
    ∃ c secrets, wire g bytes = (.ok c, secrets) ∧ g' = g.withSecrets secrets ∧
      g'.stage c = some staged ∧
      info = ⟨c.sender.leaf, (additions c.proposals).map (·.credential), removals c.proposals,
        staged.selfRemoved, g.epoch⟩ := by
  rw [inspectIncomingCommit, stageIncomingCommit] at h
  rcases hwire : wire g bytes with ⟨opened, secrets⟩
  rw [hwire] at h
  cases opened with
  | error e => cases h
  | ok c =>
    dsimp only at h
    cases hstage : (g.withSecrets secrets).stage c with
    | none =>
      rw [hstage] at h
      cases h
    | some applied =>
      have hqueued : applied.queuedProposals = c.proposals := by
        obtain ⟨tree, -, rfl⟩ := map_eq_some_iff.1 hstage
        rfl
      rw [hstage] at h
      dsimp only at h
      rw [hqueued] at h
      cases h
      exact ⟨c, secrets, rfl, rfl, hstage, rfl⟩

theorem stage_eq_some (h : g.stage c = some staged) :
    Group.applyCommit g.tree c = some staged.tree ∧ staged.queuedProposals = c.proposals ∧
      staged.updatePathLeafNode = c.path ∧
      staged.groupContext.groupKind = declaredKind c.proposals g.context.groupKind := by
  obtain ⟨tree, htree, rfl⟩ := map_eq_some_iff.1 h
  exact ⟨htree, rfl, rfl, rfl⟩

theorem mergeInspectedCommit_eq_ok {epoch : ℕ}
    (h : mergeInspectedCommit g staged = (.ok epoch, g')) :
    g' = g.mergeStagedCommit staged ∧ epoch = g'.epoch ∧ g'.epoch = g.epoch + 1 := by
  rw [mergeInspectedCommit] at h
  split at h
  · cases h
  · next hfits =>
    cases h
    rw [not_or, not_or, not_not, not_not] at hfits
    exact ⟨rfl, rfl, hfits.2.2⟩

/-- A Commit of a member is applied if its leaf is there and no proposal touches it. -/
theorem applyCommit_member {i : ℕ} (hsender : c.sender = .member i) {tree' : Slots LeafNode}
    (h : Group.applyCommit tree c = some tree') :
    Group.ValidTargets tree c.proposals ∧ (tree.value i).isSome ∧
      i ∉ Group.targets c.proposals ∧
      tree' = match c.path with
        | none => Group.applyProposals tree c.proposals
        | some leaf => (Group.applyProposals tree c.proposals).replace i leaf := by
  rw [Group.applyCommit, hsender] at h
  dsimp only at h
  split_ifs at h with hvalid hleaf
  rw [not_or, isNone_iff_eq_none, ← Ne, ne_none_iff_isSome] at hleaf
  refine ⟨hvalid, hleaf.1, hleaf.2, ?_⟩
  cases hpath : c.path with
  | none =>
    rw [hpath] at h
    exact (some.inj h).symm
  | some leaf =>
    rw [hpath] at h
    exact (some.inj h).symm

/-- What additions and removals do to the leaves. -/
theorem contents_applyProposals (hvalid : Group.ValidTargets tree queued)
    (hupdates : updates queued = []) (hself : selfRemovals queued = []) :
    tree.contents + (additions queued : List LeafNode) =
      ((removals queued).filterMap tree.value : List LeafNode) +
        (Group.applyProposals tree queued).contents := by
  obtain ⟨hdistinct, hoccupied⟩ := hvalid
  rw [Group.targets, hupdates, hself, append_nil, map_nil, nil_append]
    at hdistinct hoccupied
  rw [Group.applyProposals, hupdates, hself, append_nil, contents_fillAll]
  dsimp only [foldl_nil]
  rw [contents_clearAll hdistinct hoccupied, add_assoc, add_comm (contents _)]

/-- The leaves removed are leaves of the tree. -/
theorem removals_le (hvalid : Group.ValidTargets tree queued) :
    ((removals queued).filterMap tree.value : List LeafNode) ≤ tree.contents := by
  obtain ⟨hdistinct, hoccupied⟩ := hvalid
  have hremoved : ∀ i ∈ removals queued, i ∈ Group.targets queued := by
    intro i hi
    rw [Group.targets]
    simp [hi]
  have hnodup := (nodup_append.1 (nodup_append.1 hdistinct).2.1).1
  rw [contents_clearAll hnodup fun i hi => hoccupied i (hremoved i hi)]
  exact Multiset.le_add_right _ _

theorem value_applyProposals (hupdates : updates queued = []) {i : ℕ} {l : LeafNode}
    (hi : i ∉ Group.targets queued) (h : tree.value i = some l) :
    (Group.applyProposals tree queued).value i = some l := by
  rw [Group.targets, hupdates, map_nil, nil_append] at hi
  rw [Group.applyProposals, hupdates]
  apply value_fillAll
  rw [value_clearAll hi]
  exact h

end

end Powehi.Mls
