import Powehi.Client.Inbox
import Powehi.Client.Joining
import Powehi.Client.Toy
import Powehi.Mls.GroupCommit
import Powehi.Mls.PairCommit

/-!
# A pair over time

The client with the MLS groups of `Powehi.Mls`: what happens to a conversation of two while Commits
arrive and this device rotates its own leaf. Each action loads the state from the profile, works on
a copy in memory and saves it if all went well; the store may fail at any write, and a crash may
come between any two operations.

A received Commit is `inbox/commit.rs`. A rotation is `pcs.rs`: the part up to the request, and the
two ways to finish it. The epoch the server reports for the group comes with the action.
-/

namespace Powehi.Client

open Codec Server Semantics Program Conversation

/-! ### The libraries -/

/-- The libraries besides Commits. -/
structure OtherLibraries where
  Bundle : Type
  credentialBeside : Mls.Group → Bytes → Option Bytes
  decryptMessage : Mls.Group → Bytes → Except MlsError (Bytes × Mls.Group)
  decryptGroupMessage : Mls.Group → Bytes → Except MlsError (GroupMessage × Mls.Group)
  welcomeRefs : Bytes → Option (List KeyRef)
  encapKey : Bundle → Option Bytes
  joinWelcome : Bytes → Bundle → Except MlsError (GroupId × Mls.Group)
  validDecapKey : Bytes → Bytes → Bool
  decapsulate : Bytes → Bytes → Option Bytes
  deriveBinding : Bytes → GroupId → Option String
  payloadType : Bytes → Option String
  payloadCiphertext : Bytes → Option Bytes
  payloadMedia : Bytes → Option Uuid

/-- Errors as far as the client tells them apart. -/
def MlsError.ofMls : Mls.MlsError → MlsError
  | .codec => .codec
  | .unexpectedMessage => .unexpectedMessage
  | .epochAhead => .epochAhead
  | .membership => .membership
  | .pairCommitRefused => .pairCommitRefused
  | .groupCommitRefused => .groupCommitRefused
  | _ => .decrypt

def mlsKind (G : Mls.Group) : Option Kind :=
  match Mls.groupKind G with
  | .ok .pair => some .pair
  | .ok .group => some .group
  | .error _ => none

def mlsLibraries (wire : Mls.Wire) (R : OtherLibraries) : Libraries where
  Group := Mls.Group
  Bundle := R.Bundle
  kind := mlsKind
  members G := G.members.map (·.signatureKey)
  epoch := Mls.Group.epoch
  isActive := Mls.Group.isActive
  pendingCommit G := G.pendingCommit.isSome
  credentialBeside := R.credentialBeside
  decryptMessage := R.decryptMessage
  decryptGroupMessage := R.decryptGroupMessage
  mergePairCommit G commit own anchor credential :=
    match Mls.applyPairCommit wire G commit own anchor credential with
    | (.ok a, G') => .ok (a.peerSignatureKey, G')
    | (.error e, _) => .error (.ofMls e)
  applyGroupCommit G commit :=
    match Mls.applyGroupCommit wire G commit with
    | (.ok a, G') => .ok ((a.added, a.removed), G')
    | (.error e, _) => .error (.ofMls e)
  welcomeRefs := R.welcomeRefs
  encapKey := R.encapKey
  joinWelcome := R.joinWelcome
  validDecapKey := R.validDecapKey
  decapsulate := R.decapsulate
  deriveBinding := R.deriveBinding
  payloadType := R.payloadType
  payloadCiphertext := R.payloadCiphertext
  payloadMedia := R.payloadMedia

/-! ### Rotations -/

inductive RotateError
  | noSuchConversation
  | groupUnusable
  | mls
  | client (e : Error)
deriving DecidableEq

/-- How an action on a pair ended. -/
inductive PairResult
  | commit (o : CommitOutcome)
  | staged
  | outOfSync
  | unresolved
  | confirmed
  | aborted
deriving DecidableEq

section

variable (wire : Mls.Wire) (R : OtherLibraries)

abbrev RotateProg := Program (Op (mlsLibraries wire R)) RotateError

variable {wire R} {α : Type}

/-- A failure of the store or the server is the failure of the rotation. -/
def orRotateError (p : Prog (mlsLibraries wire R) α) : RotateProg wire R α := p.mapError .client

/-- A rotation up to the request that carries its Commit. The bytes and the staged state are saved
before they leave the device. -/
def rotate (dev : Session) (g : GroupId) (serverEpoch : Except Error ℕ) (fresh : Mls.Fresh) :
    RotateProg wire R PairResult := do
  let pending ← orRotateError (get (.pcs g))
  if pending.isSome then return .unresolved
  match ← orRotateError (Conversation.load g) with
  | none => .throw .noSuchConversation
  | some conv =>
    if conv.kind ≠ .pair then .throw .groupUnusable
    else
      let P ← orRotateError loadProvider
      match P.groups g with
      | none => .throw .groupUnusable
      | some G =>
        if conv.agreesWith (mlsLibraries wire R) G = false ∨
            Mls.isPairWith G dev.signatureKey = false then
          .throw .groupUnusable
        else
          match serverEpoch with
          | .error e => .throw (.client e)
          | .ok serverEpoch =>
            if Mls.Group.epoch G ≠ serverEpoch + 1 then return .outOfSync
            else
              match Mls.stagePairSelfUpdate G dev.signatureKey dev.signatureKey fresh with
              | (.error _, _) => .throw .mls
              | (.ok (bytes, _), G') => do
                orRotateError (put (.pcs g) (beBytes 8 serverEpoch ++ bytes))
                orRotateError (saveProvider (P.setGroup g (some G')))
                return .staged

/-- Finish a rotation with what `step` makes of the group. -/
def finish (g : GroupId) (step : Mls.Group → Except Mls.MlsError Unit × Mls.Group)
    (result : PairResult) : RotateProg wire R PairResult := do
  let P ← orRotateError loadProvider
  match P.groups g with
  | none => .throw .groupUnusable
  | some G =>
    match step G with
    | (.error _, _) => .throw .mls
    | (.ok (), G') => do
      orRotateError (saveProvider (P.setGroup g (some G')))
      orRotateError (remove (.pcs g))
      return result

/-- The server took the Commit. -/
def finishAccepted (g : GroupId) : RotateProg wire R PairResult :=
  finish g Mls.confirmPairSelfUpdate .confirmed

/-- The server refused the Commit. -/
def finishRejected (g : GroupId) : RotateProg wire R PairResult :=
  finish g Mls.abortPairSelfUpdate .aborted

/-! ### Actions -/

/-- What can happen to a pair. -/
inductive PairAct
  | receive (sender : DeviceId) (commit : Bytes)
  | rotate (serverEpoch : Except Error ℕ) (fresh : Mls.Fresh)
  | confirm
  | abort

def PairAct.program (dev : Session) (g : GroupId) : PairAct → RotateProg wire R PairResult
  | .receive sender commit => do
    return .commit (← orRotateError (applyPairCommit dev g sender commit))
  | .rotate serverEpoch fresh => Client.rotate dev g serverEpoch fresh
  | .confirm => finishAccepted g
  | .abort => finishRejected g

/-- An action that runs to its end, with its result, or that a crash cuts off. -/
def PairStep (dev : Session) (g : GroupId) (w : World (mlsLibraries wire R))
    (l : PairAct × Option (Except RotateError PairResult)) (t : World (mlsLibraries wire R)) :
    Prop :=
  match l.2 with
  | some r => ∃ f, (l.1.program dev g).run (machine (mlsLibraries wire R)) f w = (r, t)
  | none => ∃ f, t ∈ (l.1.program dev g).crashStates (machine (mlsLibraries wire R)) f w

end

/-! ### Rules for the records of a conversation -/

section Rules

variable {L : Libraries} {A : Choice L → Prop} {C : World L → Prop} {w : World L} {g : GroupId}

theorem wp_loadConversation {Q : Except Error (Option Conversation) → World L → Prop} (hC : C w)
    (hnone : w.profile.records (.conv g) = none → Q (.ok none) w)
    (hsome : ∀ c, w.profile.records (.conv g) = some c → c.groupId = g → Q (.ok (some c)) w)
    (herr : ∀ e, Q (.error e) w) : wp (machine L) A (load g) Q C w := by
  rw [load, wp_bind]
  refine wp_get hC ?_ (herr _)
  rw [andThen_ok]
  cases hrec : w.profile.records (.conv g) with
  | none => exact ⟨hC, hnone hrec⟩
  | some c =>
    rw [wp_bind]
    refine wp_ensure hC (fun hb => ⟨hC, hsome c hrec ?_⟩) fun _ => herr _
    simp only [Bool.and_eq_true, decide_eq_true_eq] at hb
    exact hb.2

theorem wp_saveConversation {c : Conversation} (hid : c.groupId = g)
    {Q : Except Error Unit → World L → Prop} (hC : C w) (hC' : C (w.write (.conv g) c))
    (hok : Q (.ok ()) (w.write (.conv g) c)) (herr : ∀ e, Q (.error e) w)
    (herr' : Q (.error .store) (w.write (.conv g) c)) : wp (machine L) A c.save Q C w := by
  subst hid
  rw [save, wp_bind]
  refine wp_ensure hC (fun _ => ?_) fun _ => herr _
  rw [andThen_bind, list, wp_bind]
  refine wp_names hC ⟨hC, ?_⟩ (herr _)
  rw [andThen_bind]
  refine wp_ensure hC (fun _ => ?_) fun _ => herr _
  exact wp_put hC hC' hok (herr _) herr'

end Rules

/-! ### What an action can do -/

section

variable {wire : Mls.Wire} {R : OtherLibraries} {dev : Session} {g : GroupId} {G₀ G : Mls.Group}
  {w t : World (mlsLibraries wire R)}

/-- The state of the group in the profile. -/
def groupAt (g : GroupId) (w : World (mlsLibraries wire R)) : Option Mls.Group :=
  w.profile.provider.groups g

/-- The key pinned for the peer. -/
def pinAt (g : GroupId) (w : World (mlsLibraries wire R)) : Option Bytes :=
  (w.profile.records (.conv g)).bind (·.peerSignatureKey)

/-- The signature key of a member other than this device. -/
def PeerKey (own : Bytes) (G : Mls.Group) (k : Bytes) : Prop :=
  ∃ m ∈ G.members, m.signatureKey ≠ own ∧ m.signatureKey = k

/-- The profile holds a later state of the pair `G₀`; a pinned key is the peer's. -/
structure PairAt (dev : Session) (g : GroupId) (G₀ : Mls.Group)
    (w : World (mlsLibraries wire R)) : Prop where
  group : ∃ G, groupAt g w = some G ∧ Mls.SamePair G₀ G
  pinned : ∀ k, pinAt g w = some k → PeerKey dev.signatureKey G₀ k

/-- What holds at every point of an action that starts at `w`. -/
structure Going (dev : Session) (g : GroupId) (G₀ : Mls.Group) (w t : World (mlsLibraries wire R)) :
    Prop where
  pair : PairAt dev g G₀ t
  pin : ∀ k, pinAt g w = some k → pinAt g t = some k

theorem Going.refl (h : PairAt dev g G₀ w) : Going dev g G₀ w w := ⟨h, fun _ hk => hk⟩

section Frames

variable {P : Provider (mlsLibraries wire R)} {c : Conversation}

@[simp] theorem groupAt_write_provider : groupAt g (w.write .mlsProvider P) = P.groups g := by
  rfl

@[simp] theorem groupAt_write_setGroup {G : Mls.Group} :
    groupAt g (w.write .mlsProvider (P.setGroup g (some G))) = some G := by
  rw [groupAt_write_provider, Provider.groups_setGroup_self]
  rfl

@[simp] theorem pinAt_write_conv : pinAt g (w.write (.conv g) c) = c.peerSignatureKey := by
  rw [pinAt, World.profile_write, Profile.records_put_self]
  rfl

@[simp] theorem groupAt_write_pcs (b : Bytes) : groupAt g (w.write (.pcs g) b) = groupAt g w := by
  rfl

@[simp] theorem pinAt_write_pcs (b : Bytes) : pinAt g (w.write (.pcs g) b) = pinAt g w := by
  rw [pinAt, World.profile_write, Profile.records_put_ne (by simp), pinAt]

@[simp] theorem groupAt_erase_pcs : groupAt g (w.erase (.pcs g)) = groupAt g w := by
  rfl

@[simp] theorem pinAt_erase_pcs : pinAt g (w.erase (.pcs g)) = pinAt g w := by
  rw [pinAt, World.profile_erase, Profile.records_remove_ne (by simp), pinAt]

end Frames

/-- A later state of the group is written. -/
theorem Going.writeGroup {G' : Mls.Group} (h : Going dev g G₀ w t) (hG : Mls.SamePair G₀ G')
    (P : Provider (mlsLibraries wire R)) :
    Going dev g G₀ w (t.write .mlsProvider (P.setGroup g (some G'))) := by
  refine ⟨⟨⟨G', ?_, hG⟩, ?_⟩, ?_⟩
  · exact groupAt_write_setGroup
  · intro k hk
    exact h.pair.pinned k hk
  · intro k hk
    exact h.pin k hk

/-- The peer's key is pinned. -/
theorem Going.writePin {c : Conversation} {k : Bytes} (h : Going dev g G₀ w t)
    (hc : c.peerSignatureKey = some k) (hnone : pinAt g w = none)
    (hpeer : PeerKey dev.signatureKey G₀ k) : Going dev g G₀ w (t.write (.conv g) c) := by
  refine ⟨⟨?_, ?_⟩, ?_⟩
  · exact h.pair.group
  · intro k' hk'
    rw [pinAt_write_conv, hc] at hk'
    cases hk'
    exact hpeer
  · intro k' hk'
    rw [hnone] at hk'
    cases hk'

theorem Going.congr {t' : World (mlsLibraries wire R)} (h : Going dev g G₀ w t)
    (hgroup : groupAt g t' = groupAt g t) (hpin : pinAt g t' = pinAt g t) :
    Going dev g G₀ w t' := by
  refine ⟨⟨?_, ?_⟩, ?_⟩
  · rw [hgroup]
    exact h.pair.group
  · rw [hpin]
    exact h.pair.pinned
  · rw [hpin]
    exact h.pin

/-- The epoch of the group goes from one world to the other by `n`. -/
def Epochs (g : GroupId) (n : ℕ) (w t : World (mlsLibraries wire R)) : Prop :=
  ∃ G G', groupAt g w = some G ∧ groupAt g t = some G' ∧ G'.epoch = G.epoch + n

/-- What the end of an action says about the worlds before and after it. -/
def Ended (dev : Session) (g : GroupId) (G₀ : Mls.Group) (w : World (mlsLibraries wire R)) :
    Except RotateError PairResult → World (mlsLibraries wire R) → Prop
  | .error e, t => Going dev g G₀ w t ∧ (e ≠ .client .store → t = w)
  | .ok (.commit .applied), t => Going dev g G₀ w t ∧ Epochs g 1 w t
  | .ok (.commit _), t => t = w
  | .ok .confirmed, t => Going dev g G₀ w t ∧ Epochs g 1 w t
  | .ok _, t => Going dev g G₀ w t ∧ Epochs g 0 w t

/-- An action that fails before it writes. -/
theorem ended_error (h : PairAt dev g G₀ w) (e : RotateError) : Ended dev g G₀ w (.error e) w :=
  ⟨Going.refl h, fun _ => rfl⟩

/-- A write that fails. -/
theorem Going.ended_store (h : Going dev g G₀ w t) : Ended dev g G₀ w (.error (.client .store)) t :=
  ⟨h, fun hne => absurd rfl hne⟩

variable {A : Choice (mlsLibraries wire R) → Prop}

theorem wp_orRotateError {α : Type} {p : Prog (mlsLibraries wire R) α}
    {Q : Except RotateError α → World (mlsLibraries wire R) → Prop}
    {C : World (mlsLibraries wire R) → Prop}
    (h : wp (machine (mlsLibraries wire R)) A p (fun r t => C t ∧ Q (r.mapError .client) t) C w) :
    wp (machine (mlsLibraries wire R)) A (orRotateError p) Q C w := by
  rw [orRotateError, mapError, wp_handle]
  exact wp_mono (fun r t ht => wp_ofExcept.mpr ht) (fun _ ht => ht) h

/-- A Commit that the libraries merge: the spec of `apply_pair_commit` over them. -/
theorem applyPairCommit_mlsLibraries {commit k : Bytes} {anchor credential : Option Bytes}
    {G' : Mls.Group} (hG : Mls.SamePair G₀ G)
    (h : (mlsLibraries wire R).applyPairCommit G commit dev.signatureKey anchor credential =
      .ok (k, G')) :
    Mls.SamePair G₀ G' ∧ G'.epoch = G.epoch + 1 ∧ PeerKey dev.signatureKey G₀ k := by
  change (if (mlsLibraries wire R).isPairWith G dev.signatureKey then
      (mlsLibraries wire R).mergePairCommit G commit dev.signatureKey anchor credential
    else .error .pairCommitRefused) = .ok (k, G') at h
  split at h
  · change (match Mls.applyPairCommit wire G commit dev.signatureKey anchor credential with
      | (.ok a, G') => Except.ok (a.peerSignatureKey, G')
      | (.error e, _) => .error (MlsError.ofMls e)) = .ok (k, G') at h
    split at h
    · next a G₁ happlied =>
      cases h
      obtain ⟨hsame, hepoch, ⟨m, hm, hother, hkey⟩, -⟩ := Mls.applyPairCommit_spec happlied hG
      exact ⟨hsame, hepoch, m, hG.mem_members.1 hm, hother, hkey⟩
    · cases h
  · cases h

/-- A received Commit. -/
theorem wp_receive (h : PairAt dev g G₀ w) (sender : DeviceId) (commit : Bytes) :
    wp (machine (mlsLibraries wire R)) A (applyPairCommit dev g sender commit)
      (fun r t => Ended dev g G₀ w ((r.map .commit).mapError .client) t) (Going dev g G₀ w) w := by
  have hstart : Going dev g G₀ w w := Going.refl h
  rw [applyPairCommit, wp_bind]
  refine wp_loadConversation hstart (fun _ => ⟨hstart, rfl⟩) (fun conv hconv hid => ?_)
    fun e => ended_error h _
  rw [andThen_ok]
  dsimp only
  split
  · exact ⟨hstart, rfl⟩
  rw [wp_bind]
  refine wp_loadProvider hstart ?_ fun _ _ _ => ended_error h _
  rw [andThen_ok]
  obtain ⟨G, hG, hsame⟩ := h.group
  change w.profile.provider.groups g = some G at hG
  rw [hG]
  dsimp only
  split
  · exact ⟨hstart, rfl⟩
  cases hcommit : (mlsLibraries wire R).applyPairCommit G commit dev.signatureKey
      conv.peerSignatureKey conv.peerCredential with
  | error e => cases e <;> exact ⟨hstart, rfl⟩
  | ok applied =>
    obtain ⟨peerKey, G'⟩ := applied
    obtain ⟨hsame', hepoch, hpeer⟩ := applyPairCommit_mlsLibraries hsame hcommit
    dsimp only
    -- The record of the conversation is written first, if there is no pin yet.
    have hfinish : ∀ t, Going dev g G₀ w t →
        wp (machine (mlsLibraries wire R)) A
          (do
            saveProvider (w.profile.provider.setGroup g (some G'))
            return CommitOutcome.applied)
          (fun r t => Ended dev g G₀ w ((r.map .commit).mapError .client) t)
          (Going dev g G₀ w) t := by
      intro t ht
      have hwritten := ht.writeGroup hsame' w.profile.provider
      rw [wp_bind]
      refine wp_put ht hwritten ⟨hwritten, hwritten, ?_⟩ ht.ended_store hwritten.ended_store
      exact ⟨G, G', hG, groupAt_write_setGroup, hepoch⟩
    split
    · next hnone =>
      cases hpin : conv.pinPeerSignatureKey peerKey with
      | none => exact ⟨hstart, ended_error h _⟩
      | some pinned =>
        have hpinned : pinned = { conv with peerSignatureKey := some peerKey } := by
          rw [pinPeerSignatureKey] at hpin
          split at hpin
          · cases hpin
          · exact (Option.some.inj hpin).symm
        have hunpinned : pinAt g w = none := by
          rw [pinAt, hconv]
          exact Option.isNone_iff_eq_none.1 hnone
        have hpin' : pinned.peerSignatureKey = some peerKey := by rw [hpinned]
        have hid' : pinned.groupId = g := by
          rw [hpinned]
          exact hid
        have hwritten := hstart.writePin hpin' hunpinned hpeer
        rw [wp_bind]
        exact wp_saveConversation hid' hstart hwritten (hfinish _ hwritten)
          (fun _ => ended_error h _) hwritten.ended_store
    · exact hfinish w hstart

/-- The end of a rotation, with what `step` does to a pair. -/
theorem wp_finish (h : PairAt dev g G₀ w) {n : ℕ} {result : PairResult}
    {step : Mls.Group → Except Mls.MlsError Unit × Mls.Group}
    (hstep : ∀ G G', Mls.SamePair G₀ G → step G = (.ok (), G') →
      Mls.SamePair G₀ G' ∧ G'.epoch = G.epoch + n)
    (hended : ∀ t, Going dev g G₀ w t → Epochs g n w t → Ended dev g G₀ w (.ok result) t) :
    wp (machine (mlsLibraries wire R)) A (finish g step result) (Ended dev g G₀ w)
      (Going dev g G₀ w) w := by
  have hstart : Going dev g G₀ w w := Going.refl h
  obtain ⟨G, hG, hsame⟩ := h.group
  rw [finish, wp_bind]
  refine wp_orRotateError (wp_loadProvider hstart ⟨hstart, ?_⟩ fun _ _ _ =>
    ⟨hstart, ended_error h _⟩)
  change w.profile.provider.groups g = some G at hG
  change wp _ _ (match w.profile.provider.groups g with
    | none => _
    | some G => _) _ _ w
  rw [hG]
  dsimp only
  rcases hresult : step G with ⟨_ | _, G'⟩
  · exact ⟨hstart, ended_error h _⟩
  · obtain ⟨hsame', hepoch⟩ := hstep G G' hsame hresult
    have hwritten := hstart.writeGroup hsame' w.profile.provider
    have herased := hwritten.congr groupAt_erase_pcs pinAt_erase_pcs
    rw [wp_bind]
    refine wp_orRotateError (wp_put hstart hwritten ⟨hwritten, ?_⟩ ⟨hstart, ended_error h _⟩
      ⟨hwritten, hwritten.ended_store⟩)
    change wp _ _ (orRotateError (remove (.pcs g)) >>= _) _ _ _
    rw [wp_bind]
    refine wp_orRotateError (wp_remove hwritten herased ⟨herased, herased, hended _ herased ?_⟩
      ⟨hwritten, hwritten.ended_store⟩ ⟨herased, herased.ended_store⟩)
    exact ⟨G, G', hG, groupAt_erase_pcs.trans groupAt_write_setGroup, hepoch⟩

/-- The start of a rotation. -/
theorem wp_rotate (h : PairAt dev g G₀ w) (serverEpoch : Except Error ℕ) (fresh : Mls.Fresh) :
    wp (machine (mlsLibraries wire R)) A (rotate dev g serverEpoch fresh) (Ended dev g G₀ w)
      (Going dev g G₀ w) w := by
  have hstart : Going dev g G₀ w w := Going.refl h
  obtain ⟨G, hG, hsame⟩ := h.group
  have hstill : Epochs g 0 w w := ⟨G, G, hG, hG, rfl⟩
  rw [rotate, wp_bind]
  refine wp_orRotateError (wp_get hstart ⟨hstart, ?_⟩ ⟨hstart, ended_error h _⟩)
  change wp _ _ (if (w.profile.records (.pcs g)).isSome then _ else _) _ _ w
  split
  · exact ⟨hstart, hstart, hstill⟩
  rw [wp_bind]
  refine wp_orRotateError (wp_loadConversation hstart
    (fun _ => ⟨hstart, hstart, ended_error h _⟩) (fun conv hconv hid => ⟨hstart, ?_⟩)
    fun _ => ⟨hstart, ended_error h _⟩)
  change wp _ _ (if conv.kind ≠ .pair then _ else _) _ _ w
  split
  · exact ⟨hstart, ended_error h _⟩
  rw [wp_bind]
  refine wp_orRotateError (wp_loadProvider hstart ⟨hstart, ?_⟩ fun _ _ _ =>
    ⟨hstart, ended_error h _⟩)
  change wp _ _ (match w.profile.provider.groups g with
    | none => _
    | some G => _) _ _ w
  change w.profile.provider.groups g = some G at hG
  rw [hG]
  dsimp only
  split
  · exact ⟨hstart, ended_error h _⟩
  cases serverEpoch with
  | error e => exact ⟨hstart, ended_error h _⟩
  | ok serverEpoch =>
    dsimp only
    split
    · exact ⟨hstart, hstart, hstill⟩
    rcases hresult : Mls.stagePairSelfUpdate G dev.signatureKey dev.signatureKey fresh with
      ⟨_ | ⟨bytes, epoch⟩, G'⟩
    · exact ⟨hstart, ended_error h _⟩
    · obtain ⟨hsame', hepoch, -⟩ := Mls.stagePairSelfUpdate_spec hresult hsame
      -- the request is stored before the staged state, so a crash leaves the pair as it was
      have hpcs : Going dev g G₀ w (w.write (.pcs g) (beBytes 8 serverEpoch ++ bytes)) :=
        hstart.congr (groupAt_write_pcs _) (pinAt_write_pcs _)
      have hwritten := hpcs.writeGroup hsame' w.profile.provider
      rw [wp_bind]
      refine wp_orRotateError (wp_put hstart hpcs ⟨hpcs, ?_⟩ ⟨hstart, ended_error h _⟩
        ⟨hpcs, hpcs.ended_store⟩)
      change wp _ _ (orRotateError (saveProvider _) >>= _) _ _ _
      rw [wp_bind]
      refine wp_orRotateError (wp_put hpcs hwritten ⟨hwritten, hwritten, hwritten, ?_⟩
        ⟨hpcs, hpcs.ended_store⟩ ⟨hwritten, hwritten.ended_store⟩)
      exact ⟨G, G', hG, groupAt_write_setGroup, hepoch⟩

/-- Every action. -/
theorem wp_pairAct (h : PairAt dev g G₀ w) (act : PairAct) :
    wp (machine (mlsLibraries wire R)) A (act.program dev g) (Ended dev g G₀ w)
      (Going dev g G₀ w) w := by
  cases act with
  | receive sender commit =>
    rw [PairAct.program, wp_bind]
    refine wp_orRotateError (wp_mono ?_ (fun _ ht => ht) (wp_final (wp_receive h sender commit)))
    rintro (e | o) t ⟨hgoing, hended⟩
    · exact ⟨hgoing, hended⟩
    · exact ⟨hgoing, hgoing, hended⟩
  | rotate serverEpoch fresh => exact wp_rotate h serverEpoch fresh
  | confirm =>
    exact wp_finish h (fun _ _ hG hstep => Mls.confirmPairSelfUpdate_spec hstep hG)
      fun _ hgoing hepoch => ⟨hgoing, hepoch⟩
  | abort =>
    exact wp_finish h (fun _ _ hG hstep => Mls.abortPairSelfUpdate_spec hstep hG)
      fun _ hgoing hepoch => ⟨hgoing, hepoch⟩

/-- What one step can do, whether it runs to its end or not. -/
theorem PairStep.spec {act : PairAct} {r : Option (Except RotateError PairResult)}
    (hstep : PairStep dev g w (act, r) t) (h : PairAt dev g G₀ w) :
    Going dev g G₀ w t ∧ ∀ result, r = some result → Ended dev g G₀ w result t := by
  have hwp := wp_final (wp_pairAct (A := fun _ => True) h act)
  cases r with
  | none =>
    obtain ⟨f, hcrash⟩ := hstep
    exact ⟨wp_crashStates hwp (fun _ => trivial) t hcrash, fun _ hr => nomatch hr⟩
  | some result =>
    obtain ⟨f, hrun⟩ := hstep
    obtain ⟨hgoing, hended⟩ := wp_outcome hwp (fun _ => trivial) hrun
    refine ⟨hgoing, ?_⟩
    rintro _ ⟨⟩
    exact hended

/-! ### Histories -/

/-- The profile holds the pair `G₀`: two members, one of them at this device's leaf with its key. -/
structure StartsPair (dev : Session) (g : GroupId) (G₀ : Mls.Group)
    (w : World (mlsLibraries wire R)) : Prop where
  group : groupAt g w = some G₀
  active : G₀.isActive = true
  /-- An own update may be staged already. -/
  pending : ∀ staged, G₀.state = .pendingCommit staged → staged.Continues G₀
  two : G₀.members.length = 2
  own : ∃ l, G₀.tree.value G₀.ownLeaf = some l ∧ l.signatureKey = dev.signatureKey
  pinned : ∀ k, pinAt g w = some k → PeerKey dev.signatureKey G₀ k

theorem StartsPair.pairAt (h : StartsPair dev g G₀ w) : PairAt dev g G₀ w := by
  have hsame : Mls.SamePair G₀ G₀ := ⟨rfl, rfl, rfl, rfl, h.active, h.pending⟩
  exact ⟨⟨G₀, h.group, hsame⟩, h.pinned⟩

/-- The peer is the member at the other leaf. -/
theorem StartsPair.signatureKey_eq (h : StartsPair dev g G₀ w) {k : Bytes}
    (hk : PeerKey dev.signatureKey G₀ k) {m : Mls.Group.Member} (hm : m ∈ G₀.members)
    (hother : m.index ≠ G₀.ownLeaf) : m.signatureKey = k := by
  obtain ⟨p, hp, hne, rfl⟩ := hk
  obtain ⟨l, hl, hkey⟩ := h.own
  -- Of two members one sits at the own leaf; neither `m` nor `p` does.
  have hown : (⟨G₀.ownLeaf, l.signatureKey, l.credential⟩ : Mls.Group.Member) ∈ G₀.members :=
    Mls.Group.mem_members.2 ⟨l, hl, rfl⟩
  obtain ⟨a, b, hab⟩ := List.length_eq_two.1 h.two
  have hmo : m ≠ ⟨G₀.ownLeaf, l.signatureKey, l.credential⟩ := fun heq => hother (by rw [heq])
  have hpo : p ≠ ⟨G₀.ownLeaf, l.signatureKey, l.credential⟩ := by
    rintro rfl
    exact hne hkey
  grind

/-- Whatever Commits arrive and however own updates are staged, confirmed and aborted, with the
store failing and the process stopping anywhere: the members of a pair are the same at the same
leaves, with the same keys and credentials, and a pinned key is the key of the peer's leaf and stays
pinned. A Commit applied and an update confirmed lead to the next epoch. A Commit that is not
applied changes nothing, unless it is the store that fails. -/
theorem pair_never_changes (wire : Mls.Wire) (R : OtherLibraries) (dev : Session) (g : GroupId)
    (G₀ : Mls.Group) (w₀ w : World (mlsLibraries wire R))
    (acts : List (PairAct × Option (Except RotateError PairResult)))
    (hstart : StartsPair dev g G₀ w₀) (hrun : Steps (PairStep dev g) w₀ acts w) :
    (∃ G, groupAt g w = some G ∧ (∀ m, m ∈ G.members ↔ m ∈ G₀.members) ∧
      ∀ k, pinAt g w = some k → ∀ m ∈ G.members, m.index ≠ G.ownLeaf → m.signatureKey = k) ∧
    ∀ act r t, PairStep dev g w (act, r) t →
      (∀ k, pinAt g w = some k → pinAt g t = some k) ∧
      (r = some (.ok (.commit .applied)) ∨ r = some (.ok .confirmed) → Epochs g 1 w t) ∧
      (r = some (.ok .staged) ∨ r = some (.ok .aborted) → Epochs g 0 w t) ∧
      (∀ o, r = some (.ok (.commit o)) → o ≠ .applied → t = w) ∧
      ∀ e, r = some (.error e) → e ≠ .client .store → t = w := by
  have hpair : PairAt dev g G₀ w := by
    refine hrun.invariant (fun s l t hstep hs => ?_) hstart.pairAt
    exact (PairStep.spec hstep hs).1.pair
  refine ⟨?_, ?_⟩
  · obtain ⟨G, hG, hsame⟩ := hpair.group
    refine ⟨G, hG, fun m => hsame.mem_members, ?_⟩
    intro k hk m hm hother
    rw [hsame.ownLeaf] at hother
    exact hstart.signatureKey_eq (hpair.pinned k hk) (hsame.mem_members.1 hm) hother
  · intro act r t hstep
    obtain ⟨hgoing, hended⟩ := PairStep.spec hstep hpair
    refine ⟨hgoing.pin, ?_, ?_, ?_, ?_⟩
    · rintro (rfl | rfl)
      · exact (hended _ rfl).2
      · exact (hended _ rfl).2
    · rintro (rfl | rfl)
      · exact (hended _ rfl).2
      · exact (hended _ rfl).2
    · rintro o rfl ho
      have hsame := hended _ rfl
      cases o with
      | applied => exact absurd rfl ho
      | _ => exact hsame
    · rintro e rfl
      exact (hended _ rfl).2

end

/-! ### A sample pair -/

/-- A pair with the group id 1, at epoch 1. -/
def samplePair : Mls.Group where
  context := ⟨[1], 1, none⟩
  tree := [some ⟨Toy.ownKey, ⟨1, [1]⟩, [1], []⟩, some ⟨Toy.peerKey, ⟨1, [2]⟩, [2], []⟩]
  ownLeaf := 0
  state := .operational
  proposals := []
  secrets := []

/-- The peer gives its leaf a new encryption key. -/
def peerUpdate : Mls.Wire := fun _ _ =>
  (.ok ⟨.member 1, [], some ⟨Toy.peerKey, ⟨1, [2]⟩, [3], []⟩, [5]⟩, [])

/-- Libraries that decrypt and join nothing. -/
def silentLibraries : OtherLibraries where
  Bundle := Empty
  credentialBeside _ _ := none
  decryptMessage _ _ := .error .decrypt
  decryptGroupMessage _ _ := .error .decrypt
  welcomeRefs _ := none
  encapKey b := nomatch b
  joinWelcome _ b := nomatch b
  validDecapKey _ _ := true
  decapsulate _ _ := none
  deriveBinding _ _ := none
  payloadType _ := none
  payloadCiphertext _ := none
  payloadMedia _ := none

/-- A device in the pair, with no key pinned yet. -/
def samplePairWorld : World (mlsLibraries peerUpdate silentLibraries) :=
  World.new (((∅ : Profile (mlsLibraries peerUpdate silentLibraries)).put (.conv 1)
    (.new 1 2 .creator none)).put .mlsProvider ((∅ : Provider _).setGroup 1 (some samplePair)))

theorem samplePairWorld_starts : StartsPair Toy.device 1 samplePair samplePairWorld where
  group := by decide +kernel
  active := by decide
  pending staged h := nomatch h
  two := by decide
  own := ⟨⟨Toy.ownKey, ⟨1, [1]⟩, [1], []⟩, by decide, by decide⟩
  pinned k h := absurd h (by decide +revert +kernel)

/-- The update of the peer is applied and its key is pinned. -/
theorem pair_never_changes_sample :
    ∃ w : World (mlsLibraries peerUpdate silentLibraries),
      PairStep Toy.device 1 samplePairWorld (.receive 2 [9], some (.ok (.commit .applied))) w ∧
      pinAt 1 w = some Toy.peerKey ∧
      ∃ G, groupAt 1 w = some G ∧ ∀ m, m ∈ G.members ↔ m ∈ samplePair.members := by
  let p : RotateProg peerUpdate silentLibraries PairResult :=
    PairAct.program Toy.device 1 (.receive 2 [9])
  let final := p.run (machine (mlsLibraries peerUpdate silentLibraries))
    (fun _ => {}) samplePairWorld
  have hresult : final.1 = .ok (.commit .applied) := by decide +kernel
  have hstep : PairStep Toy.device 1 samplePairWorld
      (.receive 2 [9], some (.ok (.commit .applied))) final.2 := ⟨fun _ => {}, by rw [← hresult]⟩
  obtain ⟨⟨G, hG, hmembers, -⟩, -⟩ := pair_never_changes peerUpdate silentLibraries Toy.device 1
    samplePair samplePairWorld final.2 _ samplePairWorld_starts (.cons hstep .nil)
  exact ⟨final.2, hstep, by decide +kernel, G, hG, hmembers⟩

end Powehi.Client
