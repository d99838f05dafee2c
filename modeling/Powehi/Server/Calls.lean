import Powehi.Server.Frames
import Powehi.Server.Mesh

/-!
# What a request can do to the database

`Request.May` lists, for every request, the repository calls its program can come to make, with
what is known about their arguments. Every invariant of the tables follows from it and the frame
conditions of the transactions; the programs themselves are read only here.
-/

namespace Powehi.Server

open Codec Semantics Program

/-- The envelopes a request can insert without advancing an epoch. -/
def Request.MayStore (i : Request) (e : Envelope) : Prop :=
  match i with
  | .sendMessage sender g ct _ =>
    e.groupId = g ∧ e.sender = sender ∧ e.recipient = none ∧ e.messageType = .application ∧
      e.ciphertext = ct ∧ e.epoch = none
  | .sendWelcome sender g w target =>
    e.groupId = g ∧ e.sender = sender ∧ e.recipient = some target ∧ e.messageType = .welcome ∧
      e.ciphertext = w ∧ e.epoch = none
  | .forwardEnvelope _ req =>
    req.groupId = some e.groupId ∧ req.senderDeviceId = some e.sender ∧
      req.envelopeId = some e.id ∧ req.envelopeType = some e.messageType ∧
      e.ciphertext = req.ciphertext ∧ e.epoch = none
  | _ => False

/-- Only the ledger gives an envelope an epoch. -/
theorem Request.MayStore.epoch_eq {i : Request} {e : Envelope} (h : i.MayStore e) :
    e.epoch = none := by
  unfold MayStore at h
  split at h
  · exact h.2.2.2.2.2
  · exact h.2.2.2.2.2
  · exact h.2.2.2.2.2
  · exact h.elim

/-- The Commit envelopes a request can insert, with the epoch it must find. -/
def Request.MayCommit (i : Request) (g : GroupId) (expected : Epoch) (e : Envelope) : Prop :=
  e.groupId = g ∧ e.recipient = none ∧ e.messageType = .commit ∧
    match i with
    | .sendCommit sender g' commit expected' =>
      g' = g ∧ expected' = expected ∧ e.sender = sender ∧ e.ciphertext = commit
    | .forwardCommit _ req =>
      req.groupId = some g ∧ req.expectedEpoch = expected ∧ req.senderDeviceId = some e.sender ∧
        e.ciphertext = req.commit
    | _ => False

/-- The groups and members a request can sync: those it lists, if the caller is the region the
request claims as home. -/
def Request.MaySync (cfg : Config) (i : Request) (group : Group) (ms : List GroupMember) : Prop :=
  match i with
  | .syncGroupMembership peer req =>
    verifyPeerRegion cfg peer req.homeRegion = .ok () ∧ req.groupId = some group.id ∧
      group.homeRegion = req.homeRegion ∧ group.epoch = 0 ∧
      ∀ m ∈ ms, m.groupId = group.id ∧ some m.deviceId ∈ req.memberDeviceIds
  | _ => False

/-- The operations a request can come to perform. Reads are not restricted. -/
def Request.May (cfg : Config) (i : Request) : {ω : Type} → Op ω → Prop
  | _, .sql (.createWithCreator group creator) => ∃ d g now, i = .createGroup d g ∧
      group = .new g cfg.localRegion now ∧ creator = ⟨g, d, 0⟩
  | _, .sql (.addPending m) => ∃ caller, i = .addMember caller m.groupId m.deviceId m.joinedAtEpoch
  | _, .sql (.acceptPending g d) => i = .acceptMembership d g
  | _, .sql (.declinePending g d) => i = .declineMembership d g
  | _, .sql (.removeMember g d) => ∃ caller, i = .removeMember caller g d
  | _, .sql (.upsertMembers group ms) => i.MaySync cfg group ms
  | _, .sql (.createPendingRemoval _ _) => False
  | _, .sql (.deletePendingRemoval g d) => ∃ caller, i = .removeMember caller g d
  | _, .sql (.saveEnvelope e) => i.MayStore e
  | _, .sql (.deleteEnvelope id) => ∃ d, i = .ack d id
  | _, .sql .deleteExpired => i = .sweep
  | _, .sql (.ackBroadcast id d _) => i = .ack d id
  | _, .sql (.commitEpochAndSave g expected e) => i.MayCommit g expected e
  | _, .sql (.saveUser u) => i = .saveUser u
  | _, .sql (.saveDevice d) => i = .saveDevice d
  | _, .sql (.deleteDevice d) => i = .deleteDevice d
  | _, .sql (.saveKeyPackage _) => False
  | _, .sql (.fetchOne _) => False
  | _, .sql (.deleteKeyPackagesByDevice _) => False
  | _, _ => True

/-! ### The programs -/

section

variable {K : {ω : Type} → Op ω → Prop} {α β : Type} {d : DeviceId} {g : GroupId}

theorem uses_callRepo {f : DomainError → Failure} {q : Query β} (h : K (.sql q)) :
    (callRepo f q).Uses K := by
  refine ⟨h, fun r => ?_⟩
  cases r <;> exact trivial

theorem uses_newUuid (h : K .newUuid) : newUuid.Uses K := ⟨h, fun _ => trivial⟩

theorem uses_utcNow (h : K .utcNow) : utcNow.Uses K := ⟨h, fun _ => trivial⟩

/-- A parsed field is the field. -/
theorem uses_parsed_bind {message : String} {x : Option β} {f : β → Serve α}
    (h : ∀ b, x = some b → (f b).Uses K) : (parsed message x >>= f).Uses K := by
  cases x with
  | none => exact trivial
  | some b => exact h b rfl

theorem uses_ofExcept_bind {r : Except Failure β} {f : β → Serve α}
    (h : ∀ b, r = .ok b → (f b).Uses K) : (.ofExcept r >>= f : Serve α).Uses K := by
  cases r with
  | error e => exact trivial
  | ok b => exact h b rfl

/-- A list of parsed fields is the list of the fields. -/
theorem uses_mapM_parsed_bind {message : String} {xs : List (Option β)} {f : List β → Serve α}
    (h : ∀ bs, xs = bs.map some → (f bs).Uses K) : (xs.mapM (parsed message) >>= f).Uses K := by
  induction xs generalizing f with
  | nil => exact h [] rfl
  | cons x xs ih =>
    rw [List.mapM_cons]
    simp only [bind_assoc]
    apply uses_parsed_bind
    rintro b rfl
    apply ih
    rintro bs rfl
    exact h (b :: bs) rfl

theorem uses_checkSenderIsMember (h : K (.sql (.listMembers g))) :
    (checkSenderIsMember d g).Uses K := by
  refine uses_bind (uses_callRepo h) fun ms => ?_
  split
  · exact trivial
  · split <;> exact trivial

theorem uses_checkCallerIsMember (h : K (.sql (.listMembers g))) :
    (checkCallerIsMember d g).Uses K := by
  refine uses_bind (uses_callRepo h) fun ms => ?_
  split <;> exact trivial

theorem uses_checkForwardedSender (h : K (.sql (.listMembers g))) :
    (checkForwardedSender g d).Uses K := by
  refine uses_bind (uses_callRepo h) fun ms => ?_
  split
  · exact trivial
  · split <;> exact trivial

theorem uses_expiryOf {ttl : Option ℕ} (h : K .utcNow) : (expiryOf ttl).Uses K := by
  unfold expiryOf
  split
  · exact trivial
  · split
    · exact uses_bind (uses_utcNow h) fun _ => trivial
    · exact trivial

theorem uses_parsedRecipient {r : Option (Option DeviceId)} : (parsedRecipient r).Uses K := by
  unfold parsedRecipient
  split
  · exact trivial
  · exact uses_parsed_bind fun _ _ => trivial

end

variable {cfg : Config} {caller sender target d : DeviceId} {g : GroupId} {peer : Peer}

theorem sendMessage_uses {ct : Bytes} {ttl : Option ℕ} :
    (sendMessage sender g ct ttl).Uses (Request.May cfg (.sendMessage sender g ct ttl)) := by
  unfold sendMessage
  split
  · exact trivial
  · refine uses_bind (uses_checkSenderIsMember trivial) fun _ => ?_
    refine uses_bind (uses_expiryOf trivial) fun expiresAt => ?_
    refine uses_bind (uses_newUuid trivial) fun id => uses_bind (uses_utcNow trivial) fun now => ?_
    exact uses_bind (uses_callRepo ⟨rfl, rfl, rfl, rfl, rfl, rfl⟩) fun _ => trivial

theorem sendWelcome_uses {w : Bytes} :
    (sendWelcome sender g w target).Uses (Request.May cfg (.sendWelcome sender g w target)) := by
  unfold sendWelcome
  split
  · exact trivial
  · refine uses_bind (uses_checkSenderIsMember trivial) fun _ => ?_
    refine uses_bind (uses_newUuid trivial) fun id => uses_bind (uses_utcNow trivial) fun now => ?_
    exact uses_callRepo ⟨rfl, rfl, rfl, rfl, rfl, rfl⟩

theorem sendCommit_uses {commit : Bytes} {expected : Epoch} :
    (sendCommit sender g commit expected).Uses
      (Request.May cfg (.sendCommit sender g commit expected)) := by
  unfold sendCommit
  split
  · exact trivial
  · refine uses_bind (uses_callRepo trivial) fun found => ?_
    split
    · exact trivial
    · refine uses_bind (uses_checkSenderIsMember trivial) fun _ => ?_
      refine uses_bind (uses_newUuid trivial) fun id =>
        uses_bind (uses_utcNow trivial) fun now => ?_
      refine uses_bind (uses_callRepo ⟨rfl, rfl, rfl, rfl, rfl, rfl, rfl⟩) fun won => ?_
      split <;> exact trivial

theorem ackEnvelope_uses {id : EnvelopeId} :
    (ackEnvelope d id).Uses (Request.May cfg (.ack d id)) := by
  refine uses_bind (uses_callRepo trivial) fun found => ?_
  split
  · exact trivial
  · split
    · refine uses_bind (uses_checkSenderIsMember trivial) fun _ => ?_
      exact uses_bind (uses_callRepo trivial) fun ms => uses_callRepo rfl
    · split
      · exact uses_callRepo ⟨d, rfl⟩
      · exact trivial

theorem createGroup_uses :
    (createGroup cfg.localRegion d g).Uses (Request.May cfg (.createGroup d g)) := by
  refine uses_bind (uses_utcNow trivial) fun now => ?_
  refine uses_bind (uses_callRepo ⟨d, g, now, rfl, rfl, rfl⟩) fun created => ?_
  split
  · exact trivial
  · refine uses_bind (uses_callRepo trivial) fun ms => ?_
    split <;> exact trivial

theorem addMember_uses {epoch : Epoch} :
    (addMember caller g d epoch).Uses (Request.May cfg (.addMember caller g d epoch)) :=
  uses_bind (uses_checkCallerIsMember trivial) fun _ => uses_callRepo ⟨caller, rfl⟩

theorem acceptMembership_uses :
    (acceptMembership d g).Uses (Request.May cfg (.acceptMembership d g)) := by
  refine uses_bind (uses_callRepo rfl) fun accepted => ?_
  split
  · exact trivial
  · refine uses_bind (uses_callRepo trivial) fun found => ?_
    split <;> exact trivial

theorem removeMember_uses :
    (removeMember caller g d).Uses (Request.May cfg (.removeMember caller g d)) := by
  refine uses_bind (uses_checkCallerIsMember trivial) fun _ => ?_
  refine uses_bind (uses_callRepo ⟨caller, rfl⟩) fun _ => ?_
  refine uses_bind ⟨⟨caller, rfl⟩, fun r => ?_⟩ fun _ => trivial
  cases r <;> exact trivial

theorem getEpoch_uses : (getEpoch cfg.localRegion d g).Uses (Request.May cfg (.getEpoch d g)) := by
  refine uses_bind (uses_callRepo trivial) fun found => ?_
  split
  · exact trivial
  · split <;> exact trivial

theorem forwardEnvelope_uses {req : ForwardEnvelope} :
    (forwardEnvelope cfg peer req).Uses (Request.May cfg (.forwardEnvelope peer req)) := by
  apply uses_parsed_bind
  intro messageType htype
  split
  · exact trivial
  apply uses_parsed_bind
  intro g hg
  apply uses_parsed_bind
  intro id hid
  apply uses_parsed_bind
  intro sender hsender
  refine uses_bind uses_parsedRecipient fun recipient => ?_
  refine uses_bind (uses_utcNow trivial) fun now => ?_
  refine uses_bind (uses_callRepo trivial) fun found => ?_
  have hsave : (checkForwardedSender g sender >>= fun _ => rpc (.saveEnvelope ⟨id, g, sender,
      recipient, messageType, req.ciphertext, none, clampSentAt now req.sentAt, none⟩)).Uses
      (Request.May cfg (.forwardEnvelope peer req)) :=
    uses_bind (uses_checkForwardedSender trivial) fun _ =>
      uses_callRepo ⟨hg, hsender, hid, htype, rfl, rfl⟩
  split
  · exact uses_ofExcept_bind fun _ _ => hsave
  · exact hsave

theorem forwardCommit_uses {req : ForwardCommit} :
    (forwardCommit cfg peer req).Uses (Request.May cfg (.forwardCommit peer req)) := by
  unfold forwardCommit
  split
  · exact trivial
  apply uses_parsed_bind
  intro g hg
  apply uses_parsed_bind
  intro sender hsender
  refine uses_bind (uses_callRepo trivial) fun found => ?_
  cases found with
  | none => exact uses_bind (uses_checkForwardedSender trivial) fun _ => trivial
  | some group =>
    refine uses_ofExcept_bind fun _ _ => uses_bind (uses_checkForwardedSender trivial) fun _ => ?_
    refine uses_bind (uses_newUuid trivial) fun id => uses_bind (uses_utcNow trivial) fun now => ?_
    refine uses_bind (uses_callRepo ⟨rfl, rfl, rfl, hg, rfl, hsender, rfl⟩) fun won => ?_
    split <;> exact trivial

theorem syncGroupMembership_uses {req : SyncGroupMembership} :
    (syncGroupMembership cfg peer req).Uses (Request.May cfg (.syncGroupMembership peer req)) := by
  apply uses_parsed_bind
  intro g hg
  split
  · exact trivial
  apply uses_ofExcept_bind
  intro _ hpeer
  split
  · exact trivial
  apply uses_mapM_parsed_bind
  intro ids hids
  refine uses_bind (uses_utcNow trivial) fun now => ?_
  refine uses_callRepo ⟨hpeer, hg, rfl, rfl, fun m hm => ?_⟩
  obtain ⟨d, hd, rfl⟩ := List.mem_map.mp hm
  rw [hids]
  exact ⟨rfl, List.mem_map_of_mem (List.mem_eraseDups.mp hd)⟩

/-- The program of a request performs only what the request may do. -/
theorem serve_uses (cfg : Config) (i : Request) : (serve cfg i).Uses (Request.May cfg i) := by
  cases i with
  | sendMessage => exact uses_map sendMessage_uses
  | sendWelcome => exact uses_map sendWelcome_uses
  | sendCommit => exact uses_map sendCommit_uses
  | poll => exact uses_map (uses_callRepo trivial)
  | ack => exact uses_map ackEnvelope_uses
  | createGroup => exact uses_map createGroup_uses
  | addMember => exact uses_map addMember_uses
  | acceptMembership => exact uses_map acceptMembership_uses
  | declineMembership => exact uses_map (uses_bind (uses_callRepo rfl) fun _ => trivial)
  | removeMember => exact uses_map removeMember_uses
  | getEpoch => exact uses_map getEpoch_uses
  | forwardEnvelope => exact uses_map forwardEnvelope_uses
  | forwardCommit => exact uses_map forwardCommit_uses
  | syncGroupMembership => exact uses_map syncGroupMembership_uses
  | sweep | saveUser | saveDevice | deleteDevice => exact uses_map (uses_callRepo rfl)

end Powehi.Server
