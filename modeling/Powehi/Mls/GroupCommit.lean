import Powehi.Mls.Group

/-!
# Commits in a group

`apply_group_commit` of `mls_group.rs`: a received Commit is merged only if it comes from a member,
adds and removes members by its own proposals and nothing else, and leaves the committer's key and
credential as they are.

A removed key is read from the leaf with the index of the proposal, before the merge; an added key
from the proposal. A key can be in both lists, so the keys removed are taken out of the roster
first.
-/

namespace Powehi.Mls

open Codec Semantics List

/-! ### The function -/

/-- Every leaf declares the extension that says what kind a group is. -/
def addsDeclareGroupKind (leaves : List LeafNode) : Bool :=
  leaves.all fun l => l.extensions.contains powehiGroupKindExtType

structure GroupCommitApplied where
  epoch : ℕ
  added : ℕ
  removed : ℕ
  addedKeys : List Bytes
  removedKeys : List Bytes
deriving DecidableEq

/-- The proposals that a group's Commit may carry. -/
def onlyAddRemove (q : QueuedProposal) : Bool :=
  q.proposalOrRefType = .proposal &&
    (match q.sender with | .member _ => true | _ => false) &&
    (match q.proposal with | .add _ => true | .remove _ => true | _ => false)

/-- On an error the group in memory is discarded by the caller. -/
def applyGroupCommit (wire : Wire) (g : Group) (commitBytes : Bytes) :
    Except MlsError GroupCommitApplied × Group :=
  if groupKind g ≠ .ok .group ∨ g.isActive = false then (.error .groupCommitRefused, g)
  else
    match inspectIncomingCommit wire g commitBytes with
    | (.error .commitMissingProposal, g) => (.error .groupCommitRefused, g)
    | (.error e, g) => (.error e, g)
    | (.ok (staged, info), g) =>
      match info.committerLeafIndex with
      | none => (.error .groupCommitRefused, g)
      | some committer =>
        match g.members.find? (·.index == committer) with
        | none => (.error .groupCommitRefused, g)
        | some m =>
          if staged.queuedProposals.all onlyAddRemove = false then (.error .groupCommitRefused, g)
          else if addsDeclareGroupKind (additions staged.queuedProposals) = false then
            (.error .groupCommitRefused, g)
          else if staged.updatePathLeafNode.any (fun leaf =>
              leaf.signatureKey != m.signatureKey || leaf.credential != m.credential) then
            (.error .groupCommitRefused, g)
          else
            let added := info.addedCredentials.length
            let removed := info.removedLeafIndices.length
            let addedKeys := (additions staged.queuedProposals).map (·.signatureKey)
            let roster := g.members
            let removedKeys := (info.removedLeafIndices.filterMap fun i =>
              roster.find? (·.index == i)).map (·.signatureKey)
            if addedKeys.length ≠ added ∨ removedKeys.length ≠ removed then
              (.error .groupCommitRefused, g)
            else
              match mergeInspectedCommit g staged with
              | (.error e, g) => (.error e, g)
              | (.ok epoch, g) =>
                if epoch ≠ info.priorEpoch + 1 ∨ groupKind g ≠ .ok .group then
                  (.error .groupCommitRefused, g)
                else (.ok ⟨epoch, added, removed, addedKeys, removedKeys⟩, g)

/-! ### The roster -/

/-- The signature keys of the members. -/
def Group.roster (g : Group) : Multiset Bytes := (g.members.map (·.signatureKey) : List Bytes)

theorem Group.roster_eq (g : Group) : g.roster = g.tree.contents.map (·.signatureKey) := by
  rw [Group.roster, Group.members, map_map, ← Slots.map_snd_entries, Multiset.map_coe, map_map]
  rfl

/-- Looking a member up by its index reads the leaf. -/
theorem find?_members (g : Group) (i : ℕ) :
    g.members.find? (·.index == i) =
      (g.tree.value i).map fun l => ⟨i, l.signatureKey, l.credential⟩ := by
  rw [Group.members, List.find?_map]
  have hentries := Slots.find?_entries g.tree i
  simp only [Function.comp_def] at hentries ⊢
  rw [hentries, Option.map_map]
  rfl

/-! ### Commits that are merged -/

section

variable {wire : Wire} {g g' : Group} {bytes : Bytes} {a : GroupCommitApplied}

/-- Everything that is checked of a Commit before it is merged, and what is reported. -/
structure Admitted (g : Group) (c : Commit) (a : GroupCommitApplied) : Prop where
  committer : ∃ i l, c.sender = .member i ∧ g.tree.value i = some l ∧
    ∀ leaf ∈ c.path, leaf.identity = l.identity
  proposals : ∀ q ∈ c.proposals, onlyAddRemove q = true
  declared : addsDeclareGroupKind (additions c.proposals) = true
  addedKeys : a.addedKeys = (additions c.proposals).map (·.signatureKey)
  removedKeys : a.removedKeys =
    ((removals c.proposals).filterMap g.tree.value).map (·.signatureKey)

/-- A Commit that is merged was admitted and staged on the group. -/
theorem applyGroupCommit_eq_ok (h : applyGroupCommit wire g bytes = (.ok a, g')) :
    ∃ c secrets staged, wire g bytes = (.ok c, secrets) ∧ Admitted g c a ∧
      (g.withSecrets secrets).stage c = some staged ∧
      g' = (g.withSecrets secrets).mergeStagedCommit staged ∧
      a.epoch = g'.epoch ∧ g'.epoch = g.epoch + 1 ∧ groupKind g' = .ok .group := by
  -- the checks in the order of the function; one that refuses contradicts `h`
  rw [applyGroupCommit] at h
  split at h
  · cases h
  rcases hinspect : inspectIncomingCommit wire g bytes with ⟨r, g₁⟩
  rw [hinspect] at h
  cases r with
  | error e => cases e <;> cases h
  | ok r =>
    obtain ⟨staged, info⟩ := r
    obtain ⟨c, secrets, hwire, rfl, hstage, rfl⟩ := inspectIncomingCommit_eq_ok hinspect
    obtain ⟨-, hqueued, hpathLeaf, -⟩ := stage_eq_some hstage
    cases hleafIndex : c.sender.leaf with
    | none =>
      rw [hleafIndex] at h
      cases h
    | some i =>
      have hsender := Sender.leaf_eq_some.1 hleafIndex
      rw [hleafIndex] at h
      dsimp only at h
      rw [find?_members, hqueued, hpathLeaf] at h
      cases hleaf : (g.withSecrets secrets).tree.value i with
      | none =>
        rw [hleaf] at h
        cases h
      | some l =>
        rw [hleaf] at h
        dsimp only [Option.map_some] at h
        split at h
        · cases h
        next hall =>
        split at h
        · cases h
        next hdeclared =>
        split at h
        · cases h
        next hpath =>
        split at h
        · cases h
        next hcounts =>
        rcases hmerge : mergeInspectedCommit (g.withSecrets secrets) staged with ⟨r, g₂⟩
        rw [hmerge] at h
        cases r with
        | error e => cases h
        | ok epoch =>
          obtain ⟨rfl, rfl, hepoch⟩ := mergeInspectedCommit_eq_ok hmerge
          dsimp only at h
          split at h
          · cases h
          next hafter =>
          cases h
          rw [not_or, not_not, not_not] at hafter
          refine ⟨c, secrets, staged, hwire, ?_, hstage, rfl, rfl, hepoch, hafter.2⟩
          refine ⟨⟨i, l, hsender, hleaf, ?_⟩, ?_, ?_, rfl, ?_⟩
          · intro leaf hmem
            rw [Option.mem_def.1 hmem] at hpath
            simpa [LeafNode.identity] using hpath
          · simpa using hall
          · simpa using hdeclared
          · simp only [find?_members, map_filterMap, Option.map_map]
            rfl

variable {c : Commit} {queued : List QueuedProposal}

/-- The proposals admitted are additions and removals by members. -/
theorem onlyAddRemove_iff {q : QueuedProposal} :
    onlyAddRemove q = true ↔ q.proposalOrRefType = .proposal ∧ (∃ i, q.sender = .member i) ∧
      ((∃ leaf, q.proposal = .add leaf) ∨ ∃ i, q.proposal = .remove i) := by
  rw [onlyAddRemove, Bool.and_eq_true, Bool.and_eq_true, decide_eq_true_eq, and_assoc]
  refine and_congr_right fun _ => and_congr ?_ ?_
  · cases q.sender <;> simp
  · cases q.proposal <;> simp

theorem updates_eq_nil (h : ∀ q ∈ queued, onlyAddRemove q = true) : updates queued = [] := by
  apply filterMap_eq_nil_iff.2
  intro q hq
  obtain ⟨-, -, ⟨leaf, hadd⟩ | ⟨i, hremove⟩⟩ := onlyAddRemove_iff.1 (h q hq)
  · rw [hadd]
  · rw [hremove]

theorem selfRemovals_eq_nil (h : ∀ q ∈ queued, onlyAddRemove q = true) :
    selfRemovals queued = [] := by
  apply filterMap_eq_nil_iff.2
  intro q hq
  obtain ⟨-, -, ⟨leaf, hadd⟩ | ⟨i, hremove⟩⟩ := onlyAddRemove_iff.1 (h q hq)
  · rw [hadd]
  · rw [hremove]

/-- The leaves behind an admitted Commit, as far as their keys go. -/
theorem map_contents_stage {secrets : Bytes} {staged : StagedCommit} (hadmitted : Admitted g c a)
    (hstage : (g.withSecrets secrets).stage c = some staged) :
    g.roster + (a.addedKeys : Multiset Bytes) =
      a.removedKeys + staged.tree.contents.map (·.signatureKey) ∧
    (a.removedKeys : Multiset Bytes) ≤ g.roster := by
  obtain ⟨i, l, hsender, hleaf, hpath⟩ := hadmitted.committer
  have hupdates := updates_eq_nil hadmitted.proposals
  have hself := selfRemovals_eq_nil hadmitted.proposals
  obtain ⟨hvalid, -, hi, htree⟩ := applyCommit_member hsender (stage_eq_some hstage).1
  have hbefore := contents_applyProposals hvalid hupdates hself
  have hkept := value_applyProposals hupdates hi hleaf
  -- The update path gives the committer a new leaf with the same key.
  have hkeys : staged.tree.contents.map (·.signatureKey) =
      (Group.applyProposals g.tree c.proposals).contents.map (·.signatureKey) := by
    rw [htree]
    cases hp : c.path with
    | none => rfl
    | some leaf =>
      have hsame := congrArg Prod.fst (hpath leaf hp)
      exact Slots.map_contents_replace hkept hsame
  rw [hadmitted.addedKeys, hadmitted.removedKeys, hkeys, Group.roster_eq, ← Multiset.map_coe,
    ← Multiset.map_coe, ← Multiset.map_add, ← Multiset.map_add]
  exact ⟨congrArg (Multiset.map _) hbefore, Multiset.map_le_map (removals_le hvalid)⟩

/-- A Commit that `apply_group_commit` merges comes from a member and consists of proposals of
members to add or remove, part of the Commit itself; added leaves declare the extension for the
kind, and the committer's key and credential stay. The roster is then the old one without the keys
reported as removed and with those reported as added, the kind is as it was, and the epoch is the
next. -/
theorem group_commit_policy (wire : Wire) (g g' : Group) (bytes : Bytes) (a : GroupCommitApplied)
    (h : applyGroupCommit wire g bytes = (.ok a, g')) :
    ∃ c secrets, wire g bytes = (.ok c, secrets) ∧
      (∃ m ∈ g.members, c.sender = .member m.index ∧
        ∀ leaf ∈ c.path, leaf.signatureKey = m.signatureKey ∧ leaf.credential = m.credential) ∧
      (∀ q ∈ c.proposals, q.proposalOrRefType = .proposal ∧ (∃ i, q.sender = .member i) ∧
        ((∃ leaf, q.proposal = .add leaf ∧ powehiGroupKindExtType ∈ leaf.extensions) ∨
          ∃ i, q.proposal = .remove i)) ∧
      (a.removedKeys : Multiset Bytes) ≤ g.roster ∧
      g'.roster = g.roster - a.removedKeys + a.addedKeys ∧
      groupKind g' = .ok .group ∧ g'.epoch = g.epoch + 1 ∧ a.epoch = g'.epoch := by
  obtain ⟨c, secrets, staged, hwire, hadmitted, hstage, rfl, ha, hepoch, hkind⟩ :=
    applyGroupCommit_eq_ok h
  obtain ⟨hroster, hle⟩ := map_contents_stage hadmitted hstage
  refine ⟨c, secrets, hwire, ?_, ?_, hle, ?_, hkind, hepoch, ha⟩
  · obtain ⟨i, l, hsender, hleaf, hpath⟩ := hadmitted.committer
    refine ⟨⟨i, l.signatureKey, l.credential⟩, ?_, hsender, ?_⟩
    · exact mem_map.2 ⟨(i, l), Slots.mem_entries.2 hleaf, rfl⟩
    · intro leaf hmem
      exact Prod.mk.inj (hpath leaf hmem)
  · intro q hq
    obtain ⟨hinline, hmember, ⟨leaf, hadd⟩ | hremove⟩ :=
      onlyAddRemove_iff.1 (hadmitted.proposals q hq)
    · refine ⟨hinline, hmember, .inl ⟨leaf, hadd, ?_⟩⟩
      have hleaf : leaf ∈ additions c.proposals := mem_filterMap.2 ⟨q, hq, by rw [hadd]⟩
      simpa using all_eq_true.1 hadmitted.declared leaf hleaf
    · exact ⟨hinline, hmember, .inr hremove⟩
  · -- Both sides with the removed keys put back.
    have hafter : ((g.withSecrets secrets).mergeStagedCommit staged).roster =
        staged.tree.contents.map (·.signatureKey) := Group.roster_eq _
    rw [hafter, tsub_add_eq_add_tsub hle, hroster, add_tsub_cancel_left]

/-- A leaf with a signature key and an encryption key of one byte. -/
def sampleLeaf (key encryption : UInt8) : LeafNode :=
  ⟨[key], ⟨1, [key]⟩, [encryption], [powehiGroupKindExtType]⟩

/-- A group of three members at epoch 5. -/
def sampleTrio : Group where
  context := ⟨[9], 5, some [1]⟩
  tree := [some (sampleLeaf 1 0), some (sampleLeaf 2 0), some (sampleLeaf 3 0)]
  ownLeaf := 0
  state := .operational
  proposals := []
  secrets := []

/-- The second member replaces the third by another one. -/
def sampleSwap : Wire := fun _ _ =>
  (.ok
    { sender := .member 1
      proposals := [⟨.add (sampleLeaf 4 0), .proposal, .member 1⟩,
        ⟨.remove 2, .proposal, .member 1⟩]
      path := some (sampleLeaf 2 7)
      secrets := [5] }, [])

theorem group_commit_policy_sample :
    ∃ g', applyGroupCommit sampleSwap sampleTrio [] = (.ok ⟨6, 1, 1, [[4]], [[3]]⟩, g') ∧
      g'.roster = sampleTrio.roster - ([[3]] : List Bytes) + ([[4]] : List Bytes) ∧
      g'.epoch = 6 := by
  have h : applyGroupCommit sampleSwap sampleTrio [] =
      (.ok ⟨6, 1, 1, [[4]], [[3]]⟩, (applyGroupCommit sampleSwap sampleTrio []).2) := by
    decide +kernel
  obtain ⟨c, secrets, -, -, -, -, hroster, -, hepoch, -⟩ :=
    group_commit_policy sampleSwap sampleTrio _ [] _ h
  exact ⟨_, h, hroster, hepoch⟩

end

end Powehi.Mls
