import Powehi.Mls.Group

/-!
# Commits in a pair

`mls_group.rs`: a Commit received in a conversation of two is merged only if it is an update of the
peer's own leaf that keeps the peer's key and credential. This device updates its own leaf in three
steps: it stages a Commit, and once it knows whether the server took it, merges or drops it.
-/

namespace Powehi.Mls

open Codec Semantics List Mls.Group

/-! ### The peer's Commits -/

structure PairCommitApplied where
  epoch : ℕ
  peerSignatureKey : Bytes
deriving DecidableEq

/-- `anchor` is the key pinned for the peer, `peerCredential` the identity recorded for it. On an
error the group in memory is discarded by the caller. -/
def applyPairCommit (wire : Wire) (g : Group) (commitBytes ownSignatureKey : Bytes)
    (anchor peerCredential : Option Bytes) : Except MlsError PairCommitApplied × Group :=
  if isPairWith g ownSignatureKey = false then (.error .pairCommitRefused, g)
  else
    match g.members.find? (·.signatureKey != ownSignatureKey) with
    | none => (.error .pairCommitRefused, g)
    | some peer =>
      if anchor.any (· != peer.signatureKey) then (.error .pairCommitRefused, g)
      else
        match inspectIncomingCommit wire g commitBytes with
        | (.error .commitMissingProposal, g) => (.error .pairCommitRefused, g)
        | (.error e, g) => (.error e, g)
        | (.ok (staged, info), g) =>
          if info.committerLeafIndex ≠ some peer.index ∨ staged.queuedProposals ≠ [] ∨
              info.addedCredentials ≠ [] ∨ info.removedLeafIndices ≠ [] ∨
              info.selfRemoved = true then
            (.error .pairCommitRefused, g)
          else
            match staged.updatePathLeafNode with
            | none => (.error .pairCommitRefused, g)
            | some leaf =>
              if leaf.signatureKey ≠ peer.signatureKey ∨ leaf.credential ≠ peer.credential then
                (.error .pairCommitRefused, g)
              else if peerCredential.any (fun expected =>
                  leaf.credential.basicIdentity != some expected) then
                (.error .pairCommitRefused, g)
              else
                match mergeInspectedCommit g staged with
                | (.error e, g) => (.error e, g)
                | (.ok epoch, g) =>
                  if isPairWith g ownSignatureKey = false ∨
                      g.members.any (·.signatureKey == peer.signatureKey) = false then
                    (.error .pairCommitRefused, g)
                  else (.ok ⟨epoch, peer.signatureKey⟩, g)

/-! ### Own updates -/

/-- What is drawn and computed for a new Commit of this device: the new encryption key of its leaf,
the keys of this epoch after the Commit is encrypted, those of the next, and the encrypted bytes,
unless they cannot be serialised. -/
structure Fresh where
  encryptionKey : Bytes
  secrets : Bytes
  nextSecrets : Bytes
  commitBytes : Option Bytes
deriving DecidableEq

/-- A Commit without proposals that gives the own leaf a new encryption key. There must not be a
staged Commit already. -/
def Group.selfUpdate (g : Group) (fresh : Fresh) : Option StagedCommit :=
  if g.state ≠ .operational then none
  else
    match g.tree.value g.ownLeaf with
    | none => none
    | some leaf =>
      g.stage
        { sender := .member g.ownLeaf
          proposals := []
          path := some { leaf with encryptionKey := fresh.encryptionKey }
          secrets := fresh.nextSecrets }

/-- The Commit adds nobody, so there is no Welcome. -/
def stagePairSelfUpdate (g : Group) (signerKey ownSignatureKey : Bytes) (fresh : Fresh) :
    Except MlsError (Bytes × ℕ) × Group :=
  if isPairWith g ownSignatureKey = false ∨ signerKey ≠ ownSignatureKey then
    (.error .pairCommitRefused, g)
  else if g.proposals ≠ [] then (.error .pendingProposals, g)
  else
    match g.selfUpdate fresh with
    | none => (.error .membership, g)
    | some staged =>
      let priorEpoch := g.epoch
      let g := { g with state := .pendingCommit staged, secrets := fresh.secrets }
      match fresh.commitBytes with
      | none => (.error .codec, g)
      | some bytes => (.ok (bytes, priorEpoch), g)

/-- `confirm_remove_member`, which serves every kind of own Commit. -/
def confirmPairSelfUpdate (g : Group) : Except MlsError Unit × Group :=
  match g.pendingCommit with
  | none => (.error .noPendingCommit, g)
  | some staged => (.ok (), g.mergeStagedCommit staged)

/-- `abort_remove_member`. -/
def abortPairSelfUpdate (g : Group) : Except MlsError Unit × Group :=
  match g.pendingCommit with
  | none => (.error .noPendingCommit, g)
  | some _ => (.ok (), { g with state := .operational })

/-! ### What stays -/

/-- Who sits at each leaf. -/
def identitiesOf (tree : Slots LeafNode) : List (Option (Bytes × Credential)) :=
  tree.map (Option.map LeafNode.identity)

def Group.identities (g : Group) : List (Option (Bytes × Credential)) := identitiesOf g.tree

/-- A staged Commit that leads to the next epoch of the same group. -/
structure StagedCommit.Continues (staged : StagedCommit) (g : Group) : Prop where
  identities : identitiesOf staged.tree = g.identities
  groupId : staged.groupContext.groupId = g.context.groupId
  groupKind : staged.groupContext.groupKind = g.context.groupKind
  epoch : staged.groupContext.epoch = g.epoch + 1
  selfRemoved : staged.selfRemoved = false

/-- `g` is a later state of `g₀`, with the same members at the same leaves. -/
structure SamePair (g₀ g : Group) : Prop where
  identities : g.identities = g₀.identities
  groupId : g.context.groupId = g₀.context.groupId
  groupKind : g.context.groupKind = g₀.context.groupKind
  ownLeaf : g.ownLeaf = g₀.ownLeaf
  active : g.isActive = true
  pending : ∀ staged, g.state = .pendingCommit staged → staged.Continues g

section

variable {wire : Wire} {g₀ g g' : Group} {bytes own : Bytes} {anchor credential : Option Bytes}
  {a : PairCommitApplied} {staged : StagedCommit} {c : Commit}

/-- Merging a Commit that continues a pair. -/
theorem SamePair.merge (h : SamePair g₀ g) (hstaged : staged.Continues g) :
    SamePair g₀ (g.mergeStagedCommit staged) ∧
      (g.mergeStagedCommit staged).epoch = g.epoch + 1 := by
  have hstate : (g.mergeStagedCommit staged).state = .operational := by
    rw [mergeStagedCommit, hstaged.selfRemoved]
    rfl
  refine ⟨⟨?_, ?_, ?_, h.ownLeaf, ?_, ?_⟩, hstaged.epoch⟩
  · exact hstaged.identities.trans h.identities
  · exact hstaged.groupId.trans h.groupId
  · exact hstaged.groupKind.trans h.groupKind
  · rw [isActive, hstate]
    rfl
  · intro pending hpending
    rw [hstate] at hpending
    cases hpending

/-- A Commit without proposals, whose path keeps the identity of the committer's leaf. -/
theorem continues_of_stage {i : ℕ} {old leaf : LeafNode} (hstage : g.stage c = some staged)
    (hsender : c.sender = .member i) (hproposals : c.proposals = []) (hpath : c.path = some leaf)
    (hold : g.tree.value i = some old) (hsame : leaf.identity = old.identity) :
    staged.Continues g := by
  obtain ⟨-, -, -, htree⟩ := applyCommit_member hsender (stage_eq_some hstage).1
  rw [hpath, hproposals] at htree
  obtain ⟨tree, -, rfl⟩ := Option.map_eq_some_iff.1 hstage
  refine ⟨?_, rfl, ?_, rfl, ?_⟩
  · rw [htree]
    exact Slots.map_replace hold hsame
  · rw [hproposals]
    rfl
  · rw [hproposals]
    rfl

theorem SamePair.withSecrets (h : SamePair g₀ g) (secrets : Bytes) :
    SamePair g₀ (g.withSecrets secrets) := by
  refine ⟨h.identities, h.groupId, h.groupKind, h.ownLeaf, h.active, ?_⟩
  intro staged hstaged
  obtain ⟨hidentities, hid, hkind, hepoch, hremoved⟩ := h.pending staged hstaged
  exact ⟨hidentities, hid, hkind, hepoch, hremoved⟩

theorem Group.mem_members {m : Member} :
    m ∈ g.members ↔ ∃ l, g.tree.value m.index = some l ∧ l.identity = (m.signatureKey, m.credential)
    := by
  rw [members, mem_map]
  constructor
  · rintro ⟨⟨i, l⟩, hmem, rfl⟩
    exact ⟨l, Slots.mem_entries.1 hmem, rfl⟩
  · rintro ⟨l, hl, hidentity⟩
    refine ⟨(m.index, l), Slots.mem_entries.2 hl, ?_⟩
    obtain ⟨hkey, hcredential⟩ := Prod.mk.inj hidentity
    cases m
    rw [hkey, hcredential]

/-- The members are determined by who sits at each leaf. -/
theorem Group.mem_members_iff_identities {m : Member} :
    m ∈ g.members ↔ g.identities[m.index]? = some (some (m.signatureKey, m.credential)) := by
  rw [mem_members, identities, identitiesOf, getElem?_map]
  simp only [Slots.value_eq_some, Option.map_eq_some_iff]
  constructor
  · rintro ⟨l, hl, hidentity⟩
    exact ⟨some l, hl, l, rfl, hidentity⟩
  · rintro ⟨_, hl, l, rfl, hidentity⟩
    exact ⟨l, hl, hidentity⟩

theorem SamePair.mem_members (h : SamePair g₀ g) {m : Member} :
    m ∈ g.members ↔ m ∈ g₀.members := by
  rw [mem_members_iff_identities, mem_members_iff_identities, h.identities]

/-- A Commit that is merged keeps the pair and leads to the next epoch; the key reported is that of
the other member, and the one pinned before. -/
theorem applyPairCommit_spec
    (h : applyPairCommit wire g bytes own anchor credential = (.ok a, g')) (hg : SamePair g₀ g) :
    SamePair g₀ g' ∧ g'.epoch = g.epoch + 1 ∧
      (∃ m ∈ g.members, m.signatureKey ≠ own ∧ m.signatureKey = a.peerSignatureKey) ∧
      ∀ k ∈ anchor, k = a.peerSignatureKey := by
  -- the checks in the order of the function; one that refuses contradicts `h`
  rw [applyPairCommit] at h
  split at h
  · cases h
  cases hpeer : g.members.find? (·.signatureKey != own) with
  | none =>
    rw [hpeer] at h
    cases h
  | some peer =>
    rw [hpeer] at h
    dsimp only at h
    split at h
    · cases h
    next hanchor =>
    rcases hinspect : inspectIncomingCommit wire g bytes with ⟨r, g₁⟩
    rw [hinspect] at h
    cases r with
    | error e => cases e <;> cases h
    | ok r =>
      obtain ⟨staged, info⟩ := r
      obtain ⟨c, secrets, -, rfl, hstage, rfl⟩ := inspectIncomingCommit_eq_ok hinspect
      obtain ⟨-, hqueued, hpathLeaf, -⟩ := stage_eq_some hstage
      dsimp only at h
      split at h
      · cases h
      next hallowed =>
      rw [not_or, not_not, not_or, not_not] at hallowed
      obtain ⟨hcommitter, hproposals, -⟩ := hallowed
      rw [hqueued] at hproposals
      rw [hpathLeaf] at h
      cases hpath : c.path with
      | none =>
        rw [hpath] at h
        cases h
      | some leaf =>
        rw [hpath] at h
        dsimp only at h
        split at h
        · cases h
        next hkept =>
        rw [not_or, not_not, not_not] at hkept
        split at h
        · cases h
        rcases hmerge : mergeInspectedCommit (g.withSecrets secrets) staged with ⟨r, g₂⟩
        rw [hmerge] at h
        cases r with
        | error e => cases h
        | ok epoch =>
          obtain ⟨rfl, -, hepoch⟩ := mergeInspectedCommit_eq_ok hmerge
          dsimp only at h
          split at h
          · cases h
          cases h
          -- the committer is the peer, and its new leaf has the identity of the old one
          have hmem : peer ∈ g.members := mem_of_find?_eq_some hpeer
          have hother : peer.signatureKey ≠ own := by simpa using find?_some hpeer
          obtain ⟨old, hold, hidentity⟩ := mem_members.1 hmem
          have hsame : leaf.identity = old.identity := by
            rw [hidentity, LeafNode.identity, hkept.1, hkept.2]
          have hcontinues : staged.Continues (g.withSecrets secrets) :=
            continues_of_stage hstage (Sender.leaf_eq_some.1 hcommitter) hproposals hpath hold hsame
          refine ⟨((hg.withSecrets secrets).merge hcontinues).1, hepoch,
            ⟨peer, hmem, hother, rfl⟩, ?_⟩
          intro k hk
          rw [Option.mem_def.1 hk] at hanchor
          simpa using hanchor

/-- Staging an own update changes nothing but the keys and the Commit that is pending. -/
theorem stagePairSelfUpdate_spec {signerKey : Bytes} {fresh : Fresh} {r : Bytes × ℕ}
    (h : stagePairSelfUpdate g signerKey own fresh = (.ok r, g')) (hg : SamePair g₀ g) :
    SamePair g₀ g' ∧ g'.epoch = g.epoch ∧ r.2 = g.epoch := by
  rw [stagePairSelfUpdate] at h
  split at h
  · cases h
  split at h
  · cases h
  cases hupdate : g.selfUpdate fresh with
  | none =>
    rw [hupdate] at h
    cases h
  | some staged =>
    rw [hupdate] at h
    cases hbytes : fresh.commitBytes with
    | none =>
      simp only [hbytes] at h
      cases h
    | some b =>
      simp only [hbytes] at h
      cases h
      have hcontinues : staged.Continues g := by
        rw [selfUpdate] at hupdate
        split at hupdate
        · cases hupdate
        cases hleaf : g.tree.value g.ownLeaf with
        | none =>
          rw [hleaf] at hupdate
          cases hupdate
        | some leaf =>
          rw [hleaf] at hupdate
          exact continues_of_stage hupdate rfl rfl rfl hleaf rfl
      refine ⟨⟨hg.identities, hg.groupId, hg.groupKind, hg.ownLeaf, rfl, ?_⟩, rfl, rfl⟩
      intro pending hpending
      cases hpending
      obtain ⟨hidentities, hid, hkind, hepoch, hremoved⟩ := hcontinues
      exact ⟨hidentities, hid, hkind, hepoch, hremoved⟩

theorem pendingCommit_eq_some (h : g.pendingCommit = some staged) :
    g.state = .pendingCommit staged := by
  rw [pendingCommit] at h
  split at h
  · next hstate =>
    cases h
    exact hstate
  · cases h

/-- A confirmation merges the staged Commit, and leads to the next epoch. -/
theorem confirmPairSelfUpdate_spec (h : confirmPairSelfUpdate g = (.ok (), g'))
    (hg : SamePair g₀ g) : SamePair g₀ g' ∧ g'.epoch = g.epoch + 1 := by
  rw [confirmPairSelfUpdate] at h
  split at h
  · cases h
  · next staged hpending =>
    cases h
    exact hg.merge (hg.pending staged (pendingCommit_eq_some hpending))

theorem abortPairSelfUpdate_spec (h : abortPairSelfUpdate g = (.ok (), g'))
    (hg : SamePair g₀ g) : SamePair g₀ g' ∧ g'.epoch = g.epoch := by
  rw [abortPairSelfUpdate] at h
  split at h
  · cases h
  · cases h
    refine ⟨⟨hg.identities, hg.groupId, hg.groupKind, hg.ownLeaf, rfl, ?_⟩, rfl⟩
    intro pending hpending
    cases hpending

end

end Powehi.Mls
