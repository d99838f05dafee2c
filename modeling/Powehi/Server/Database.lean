import Mathlib.Data.List.Sort
import Powehi.Semantics.Table
import Powehi.Server.Types

/-!
# The database

The tables of the server and the transactions the Postgres repositories run on them. A
transaction is a function of the whole database: it either answers with a value and the new
tables, or fails and leaves no trace. Foreign keys, unique indexes and `ON DELETE CASCADE` are part
of the transactions, since they decide what a statement changes or whether it fails.
-/

namespace Powehi.Server

open Codec Semantics

/-- The tables, and what `NOW()` is. -/
structure Db where
  users : Table User.id
  devices : Table Device.id
  keyPackages : Table KeyPackage.id
  groups : Table Group.id
  members : Table GroupMember.key
  pendingMemberships : Table PendingMembership.key
  pendingRemovals : Table PendingRemoval.key
  envelopes : Table Envelope.id
  acks : Table fun a : EnvelopeAck => a
  now : Time
deriving DecidableEq

/-- Tables without rows. -/
def Db.empty : Db := ⟨∅, ∅, ∅, ∅, ∅, ∅, ∅, ∅, ∅, 0⟩

/-- The errors the database itself raises reach the services as internal errors. -/
def foreignKeyViolation : DomainError := .internal "violates foreign key constraint"

def uniqueViolation : DomainError := .internal "duplicate key value violates unique constraint"

def bigintOutOfRange : DomainError := .internal "bigint out of range"

/-- The first number a `bigint` column cannot hold. -/
def bigintBound : ℕ := 2 ^ 63

/-- The order of delivery: creation time, then id. -/
def Envelope.Precedes (e f : Envelope) : Prop :=
  e.createdAt < f.createdAt ∨ (e.createdAt = f.createdAt ∧ e.id ≤ f.id)

instance : DecidableRel Envelope.Precedes := fun e f => by
  unfold Envelope.Precedes
  infer_instance

/-- The envelope comes after the cursor. An id left out counts as the nil UUID. -/
def Envelope.behind (e : Envelope) (since : Option Time) (sinceId : Option EnvelopeId) : Bool :=
  match since with
  | none => true
  | some t => decide (t < e.createdAt ∨ (e.createdAt = t ∧ sinceId.getD 0 < e.id))

def Envelope.unexpired (e : Envelope) (now : Time) : Bool :=
  match e.expiresAt with
  | some t => now < t
  | none => true

/-- Rows per page. -/
def envelopePollLimit : ℕ := 64

/-- Ciphertext bytes per page. -/
def envelopePollMaxBytes : ℕ := 4 * 1024 * 1024

/-- The rows that still fit on a page on which `used` bytes are taken. -/
def fitting : ℕ → List Envelope → List Envelope
  | _, [] => []
  | used, e :: es =>
    if envelopePollMaxBytes < used + e.ciphertext.length then []
    else e :: fitting (used + e.ciphertext.length) es

/-- Cut a page at the byte budget. The first row is always kept. -/
def withinBudget : List Envelope → List Envelope
  | [] => []
  | e :: es => e :: fitting e.ciphertext.length es

namespace Db

/-! ### Groups and members -/

/-- The device is an active member of the group. -/
def isMember (db : Db) (groupId : GroupId) (deviceId : DeviceId) : Bool :=
  (db.members.find? (groupId, deviceId)).isSome

/-- Insert a membership unless there is one; group and device must exist. -/
def insertMember (m : GroupMember) (db : Db) : Except DomainError Db :=
  if db.isMember m.groupId m.deviceId then .ok db
  else if (db.groups.find? m.groupId).isSome && (db.devices.find? m.deviceId).isSome then
    .ok { db with members := db.members.insertNew m }
  else .error foreignKeyViolation

def createWithCreator (group : Group) (creator : GroupMember) (db : Db) :
    Except DomainError (Bool × Db) :=
  if (db.groups.find? group.id).isSome then .ok (false, db)
  else do
    let db := { db with groups := db.groups.insertNew group }
    let db ← db.insertMember ⟨group.id, creator.deviceId, creator.joinedAtEpoch⟩
    .ok (true, db)

def findGroup (id : GroupId) (db : Db) : Option Group := db.groups.find? id

def getEpochIfMember (groupId : GroupId) (deviceId : DeviceId) (db : Db) : Option Group :=
  if db.isMember groupId deviceId then db.groups.find? groupId else none

def listMembers (groupId : GroupId) (db : Db) : List GroupMember :=
  (db.members.rows.filter (·.groupId = groupId)).insertionSort
    (·.joinedAtEpoch ≤ ·.joinedAtEpoch)

def listGroupsForDevice (deviceId : DeviceId) (db : Db) : List GroupId :=
  (db.members.rows.filter (·.deviceId = deviceId)).map (·.groupId)

def pendingMembershipTtl : Time := days 7

def pendingMembershipPurgeBatch : ℕ := 100

def pendingMembershipMaxPerGroup : ℕ := 256

def pendingMembershipMaxPerDevice : ℕ := 64

/-- The row is too old to be accepted. -/
def expired (db : Db) (p : PendingMembership) : Bool :=
  p.createdAt + pendingMembershipTtl < db.now

/-- Drop a bounded number of expired pending rows, whichever group they belong to. -/
def purgePending (db : Db) : Db :=
  let batch := (db.pendingMemberships.rows.filter db.expired).take pendingMembershipPurgeBatch
  { db with pendingMemberships := db.pendingMemberships.deleteWhere (· ∈ batch) }

/-- Drop a device's pending rows beyond the cap, the oldest ones. -/
def evictPending (deviceId : DeviceId) (db : Db) : Db :=
  let rows := (db.pendingMemberships.rows.filter (·.deviceId = deviceId)).insertionSort
    (·.createdAt ≥ ·.createdAt)
  let excess := rows.drop (pendingMembershipMaxPerDevice - 1)
  { db with pendingMemberships := db.pendingMemberships.deleteWhere (· ∈ excess) }

def addPending (m : GroupMember) (db : Db) : Except DomainError (Unit × Db) :=
  let purged := db.purgePending
  let perGroup := (purged.pendingMemberships.rows.filter fun p =>
    p.groupId = m.groupId && !purged.expired p).length
  if purged.isMember m.groupId m.deviceId ||
      (purged.pendingMemberships.find? (m.groupId, m.deviceId)).isSome then
    -- the transaction is dropped here, so the purge is rolled back
    .ok ((), db)
  else if pendingMembershipMaxPerGroup ≤ perGroup then
    .error (.invalidInput "too many pending memberships")
  else
    let evicted := purged.evictPending m.deviceId
    if (evicted.groups.find? m.groupId).isSome && (evicted.devices.find? m.deviceId).isSome then
      .ok ((), { evicted with
        pendingMemberships := evicted.pendingMemberships.insertNew
          ⟨m.groupId, m.deviceId, m.joinedAtEpoch, evicted.now⟩ })
    else .error foreignKeyViolation

/-- Move an unexpired pending row over to the members. The answer says whether a member row was
inserted. -/
def acceptPending (groupId : GroupId) (deviceId : DeviceId) (db : Db) : Bool × Db :=
  match db.pendingMemberships.find? (groupId, deviceId) with
  | none => (false, db)
  | some p =>
    if db.expired p then (false, db)
    else (!db.isMember groupId deviceId,
      { db with
        pendingMemberships := db.pendingMemberships.deleteWhere (·.key = (groupId, deviceId))
        members := db.members.insertNew ⟨groupId, deviceId, p.joinedAtEpoch⟩ })

def declinePending (groupId : GroupId) (deviceId : DeviceId) (db : Db) : Bool × Db :=
  ((db.pendingMemberships.find? (groupId, deviceId)).isSome,
    { db with
      pendingMemberships := db.pendingMemberships.deleteWhere (·.key = (groupId, deviceId)) })

def removeMember (groupId : GroupId) (deviceId : DeviceId) (db : Db) : Db :=
  { db with
    pendingMemberships := db.pendingMemberships.deleteWhere (·.key = (groupId, deviceId))
    members := db.members.deleteWhere (·.key = (groupId, deviceId)) }

def upsertMembers (group : Group) (members : List GroupMember) (db : Db) :
    Except DomainError (Unit × Db) := do
  -- the group row is a stub: an existing one keeps its epoch and its home region
  let db := { db with groups := db.groups.insertNew group }
  let db ← members.foldlM (fun db m => db.insertMember m) db
  .ok ((), db)

def createPendingRemoval (groupId : GroupId) (deviceId : DeviceId) (db : Db) : Db :=
  match db.groups.find? groupId with
  | none => db
  | some g => { db with
      pendingRemovals := db.pendingRemovals.insertNew ⟨groupId, deviceId, g.epoch⟩ }

def deletePendingRemoval (groupId : GroupId) (deviceId : DeviceId) (db : Db) : Db :=
  match db.groups.find? groupId with
  | none => db
  | some g => { db with
      pendingRemovals := db.pendingRemovals.deleteWhere fun r =>
        r.key = (groupId, deviceId) && decide (r.createdAtEpoch < g.epoch) }

/-! ### Envelopes -/

def saveEnvelope (e : Envelope) (db : Db) : Db :=
  { db with envelopes := db.envelopes.insertNew e }

def findEnvelope (id : EnvelopeId) (db : Db) : Option Envelope := db.envelopes.find? id

/-- Delete envelopes; their acks go with them. -/
def dropEnvelopes (p : Envelope → Bool) (db : Db) : Db :=
  { db with
    envelopes := db.envelopes.deleteWhere p
    acks := db.acks.deleteWhere fun a => (db.envelopes.find? a.envelopeId).any p }

def deleteEnvelope (id : EnvelopeId) (db : Db) : Db := db.dropEnvelopes (·.id = id)

def defaultRetention : Time := days 30

/-- The retention sweep takes the envelope: its own expiry passed, or it has none and is older than
the default retention. -/
def due (now : Time) (e : Envelope) : Bool :=
  match e.expiresAt with
  | some t => t < now
  | none => e.createdAt + defaultRetention < now

def deleteExpired (db : Db) : ℕ × Db :=
  ((db.envelopes.rows.filter (due db.now)).length, db.dropEnvelopes (due db.now))

/-- Every listed device has acked the envelope. -/
def ackedByAll (db : Db) (envelopeId : EnvelopeId) (devices : List DeviceId) : Bool :=
  devices.all fun d => (db.acks.find? ⟨envelopeId, d⟩).isSome

/-- Insert an ack unless there is one; envelope and device must exist. -/
def insertAck (a : EnvelopeAck) (db : Db) : Except DomainError Db :=
  if (db.acks.find? a).isSome then .ok db
  else if (db.envelopes.find? a.envelopeId).isSome && (db.devices.find? a.deviceId).isSome then
    .ok { db with acks := db.acks.insertNew a }
  else .error foreignKeyViolation

/-- Record an ack of a broadcast, and delete the envelope once every listed device has acked it. -/
def ackBroadcast (envelopeId : EnvelopeId) (deviceId : DeviceId) (groupMemberIds : List DeviceId)
    (db : Db) : Except DomainError (Unit × Db) := do
  let db ← db.insertAck ⟨envelopeId, deviceId⟩
  if db.ackedByAll envelopeId groupMemberIds then .ok ((), db.deleteEnvelope envelopeId)
  else .ok ((), db)

/-- The epoch column in the row of a group is set. -/
def setEpoch (groupId : GroupId) (epoch : Epoch) (db : Db) : Db :=
  { db with groups := db.groups.update (·.id = groupId) (fun g => { g with epoch }) fun _ => rfl }

/-- Compare-and-swap of a group's epoch, together with its Commit envelope: the envelope is stored
under the epoch the swap won, whatever epoch it names itself. -/
def commitEpochAndSave (groupId : GroupId) (expected : Epoch) (commitEnvelope : Envelope)
    (db : Db) : Except DomainError (Option Epoch × Db) :=
  if bigintBound ≤ expected then .error (.invalidInput "epoch exceeds representable range")
  else
    match db.groups.find? groupId with
    | none => .ok (none, db)
    | some g =>
      if g.epoch ≠ expected then .ok (none, db)
      else if bigintBound ≤ g.epoch + 1 then .error bigintOutOfRange
      else if (db.envelopes.find? commitEnvelope.id).isSome then
        .error (.alreadyExists (toString commitEnvelope.id))
      else
        .ok (some (g.epoch + 1), (db.setEpoch groupId (g.epoch + 1)).saveEnvelope
          { commitEnvelope with epoch := some (g.epoch + 1) })

/-! ### Delivery -/

/-- The envelope is for the device: sent to it, or broadcast to a group it is a member of. -/
def addressed (db : Db) (deviceId : DeviceId) (e : Envelope) : Bool :=
  match e.recipient with
  | some r => r = deviceId
  | none => db.isMember e.groupId deviceId

/-- The device acked the broadcast, which stays stored for the other members. -/
def ackedBroadcast (db : Db) (deviceId : DeviceId) (e : Envelope) : Bool :=
  e.recipient.isNone && (db.acks.find? ⟨e.id, deviceId⟩).isSome

/-- The envelope can be handed to the device. -/
def deliverable (db : Db) (deviceId : DeviceId) (e : Envelope) : Bool :=
  db.addressed deviceId e && e.unexpired db.now && !db.ackedBroadcast deviceId e

/-- Every envelope behind the cursor that can be handed to the device, in the order of delivery. -/
def pendingAfter (deviceId : DeviceId) (since : Option Time) (sinceId : Option EnvelopeId)
    (db : Db) : List Envelope :=
  (db.envelopes.rows.filter fun e =>
    db.deliverable deviceId e && e.behind since sinceId).insertionSort Envelope.Precedes

/-- One page: the first rows, cut where the response would grow too large. -/
def findPending (deviceId : DeviceId) (since : Option Time) (sinceId : Option EnvelopeId)
    (db : Db) : List Envelope :=
  withinBudget ((db.pendingAfter deviceId since sinceId).take envelopePollLimit)

/-! ### Users, devices, key packages -/

/-- Insert or replace a user. No two users have the same handle. -/
def saveUser (u : User) (db : Db) : Except DomainError (Unit × Db) :=
  if db.users.rows.any fun v => v.handleHash = u.handleHash && v.id ≠ u.id then
    .error uniqueViolation
  else if (db.users.find? u.id).isSome then
    let users := db.users.update (·.id = u.id) (fun v => { u with id := v.id }) fun _ => rfl
    .ok ((), { db with users })
  else .ok ((), { db with users := db.users.insertNew u })

def findUser (id : UserId) (db : Db) : Option User := db.users.find? id

def findUserByHandle (handleHash : Bytes) (db : Db) : Option User :=
  db.users.rows.find? (·.handleHash = handleHash)

/-- Insert a device; on an existing row only the credential changes. -/
def saveDevice (d : Device) (db : Db) : Except DomainError (Unit × Db) :=
  if (db.devices.find? d.id).isSome then
    let devices := db.devices.update (·.id = d.id)
      (fun x => { x with mlsCredential := d.mlsCredential }) fun _ => rfl
    .ok ((), { db with devices })
  else if (db.users.find? d.userId).isSome then
    .ok ((), { db with devices := db.devices.insertNew d })
  else .error foreignKeyViolation

def findDevice (id : DeviceId) (db : Db) : Option Device := db.devices.find? id

def findDevicesByUser (userId : UserId) (db : Db) : List Device :=
  db.devices.rows.filter (·.userId = userId)

/-- Delete a device, with its memberships, pending memberships and acks. -/
def deleteDevice (id : DeviceId) (db : Db) : Db :=
  { db with
    devices := db.devices.deleteWhere (·.id = id)
    members := db.members.deleteWhere (·.deviceId = id)
    pendingMemberships := db.pendingMemberships.deleteWhere (·.deviceId = id)
    acks := db.acks.deleteWhere (·.deviceId = id) }

def keyPackageLifetime : Time := days 84

def keyPackageServe : Time := days 83

def saveKeyPackage (kp : KeyPackage) (db : Db) : Db :=
  let kept := db.keyPackages.deleteWhere fun k =>
    k.deviceId = kp.deviceId && decide (k.uploadedAt + keyPackageLifetime ≤ db.now)
  { db with keyPackages := kept.insertNew kp }

/-- The key package `fetchOne` would hand out. -/
def servedKeyPackage (deviceId : DeviceId) (db : Db) : Option KeyPackage :=
  ((db.keyPackages.rows.filter fun k =>
      k.deviceId = deviceId && !k.consumed && decide (db.now < k.uploadedAt + keyPackageServe)
    ).insertionSort (·.uploadedAt ≤ ·.uploadedAt)).head?

def fetchOne (deviceId : DeviceId) (db : Db) : Option KeyPackage × Db :=
  match db.servedKeyPackage deviceId with
  | none => (none, db)
  | some kp =>
    let keyPackages := db.keyPackages.update (·.id = kp.id)
      (fun k => { k with consumed := true }) fun _ => rfl
    (some { kp with consumed := true }, { db with keyPackages })

def deleteKeyPackagesByDevice (deviceId : DeviceId) (db : Db) : ℕ × Db :=
  ((db.keyPackages.rows.filter (·.deviceId = deviceId)).length,
    { db with keyPackages := db.keyPackages.deleteWhere (·.deviceId = deviceId) })

end Db

end Powehi.Server
